import Lookahead.Grammar
import Lookahead.Proofs.Lookaheads

/-!
# Accepted grammars have no useless nonterminals

Nonterminals that are marked as terminating derive a word (`Table.word_terminating`), and
those that are reached are called by a run (`Table.Formed.called_reached`). An accepted grammar has
no others (`Table.Formed.reduced_of_checkStructure`).
-/

namespace Lookahead

namespace Table

variable {t : Table} {a c : SymbolId} {i : NodeId} {p : Option NodeId} {m : IndexSet} {fuel : Nat}

theorem value_reportUnless {ok : Symbol → Bool} {cause : String → Cause} :
    (t.reportUnless ok cause).value = true ↔ ∀ a ∈ t.nonterminals, ok (t.symbol a) = true := by
  simp [reportUnless, nonterminalSymbols, List.isEmpty_iff]

/-- The property holds of the marked nonterminals. -/
def Marks (t : Table) (P : SymbolId → Prop) (m : IndexSet) : Prop :=
  ∀ a ∈ t.nonterminals, m.get (t.symbol a).index = true → P a

theorem marks_empty (P : SymbolId → Prop) (n : Nat) : t.Marks P (.empty n) := by
  intro a _ h
  rw [IndexSet.get_empty] at h
  cases h

theorem Marks.insert {P : SymbolId → Prop} (ht : t.Formed) (hm : t.Marks P m)
    (ha : a ∈ t.nonterminals) (hP : P a) : t.Marks P (m.insert (t.symbol a).index) := by
  intro b hb h
  have hlt := IndexSet.lt_of_get h
  rw [IndexSet.size_insert] at hlt
  rw [IndexSet.get_insert hlt, Bool.or_eq_true, decide_eq_true_eq] at h
  rcases h with h | h
  · rwa [← ht.registered.index_inj (k := .nonterminal) (by decide) ha hb h]
  · exact hm b hb h

/-! ### Words -/

/-- The nonterminal derives a word. -/
def Productive (t : Table) (a : SymbolId) : Prop :=
  ∃ w : List SymbolId, t.Derives [.nonterminal a] (w.map .terminal)

/-- The part spells a form of marked nonterminals. -/
def SpellsMarked (t : Table) (m : IndexSet) (P : Part) : Prop :=
  ∃ f, t.Spells P f ∧ ∀ b, .nonterminal b ∈ f → m.get (t.symbol b).index = true

/-- What the walk decides about a node itself and the groups in it. -/
def terminatesNode (t : Table) (m : IndexSet) (fuel : Nat) (i : NodeId) : Bool :=
  match t.graph.kind i with
  | .nonterminal b => m.get (t.symbol b).index
  | .alt sub down =>
    t.terminatesFrom m fuel (some sub) || (down.isSome && t.terminatesFrom m fuel down)
  | _ => true

theorem terminatesFrom_some (t : Table) (m : IndexSet) (fuel : Nat) (i : NodeId) :
    t.terminatesFrom m (fuel + 1) (some i) =
      (t.terminatesNode m fuel i &&
        ((t.graph.node i).up || t.terminatesFrom m fuel (t.graph.next i))) := rfl

/-- A node that terminates spells a form of marked nonterminals, if the groups in it do. -/
theorem Formed.spellsMarked_node (ht : t.Formed) (hw : t.Wild) (hi : t.Within a i)
    (ih : ∀ j, t.Within a j → t.terminatesFrom m fuel (some j) = true →
      t.SpellsMarked m (.group (some j)))
    (h : t.terminatesNode m fuel i = true) : t.SpellsMarked m (.node i) := by
  unfold terminatesNode at h
  by_cases hn : ∃ b, t.graph.kind i = .nonterminal b
  · obtain ⟨b, hk⟩ := hn
    rw [hk] at h
    refine ⟨_, .nonterminal hk, fun c hc => ?_⟩
    obtain rfl : c = b := by simpa using hc
    exact h
  by_cases halt : ∃ sub down, t.graph.kind i = .alt sub down
  · obtain ⟨sub, down, hk⟩ := halt
    rw [hk] at h
    rcases Bool.or_eq_true_iff.mp h with hs | hd
    · obtain ⟨f, hf, hm⟩ := ih sub (hi.sub (by rw [hk]; rfl)) hs
      exact ⟨f, .alternative hk hf, hm⟩
    · obtain ⟨hd, hs⟩ := (Bool.and_eq_true ..).mp hd
      obtain ⟨j, rfl⟩ := Option.isSome_iff_exists.mp hd
      have hdown : (t.graph.kind i).down? = some j := by rw [hk]; rfl
      obtain ⟨f, hf, hm⟩ := ih j (hi.down hdown) hs
      exact ⟨f, .other hk ((spells_group_last (ht.up_of_down hi hdown)).mp hf), hm⟩
  obtain ⟨f, hf, hm⟩ := exists_spells_leaf hw (ht.allows i) (fun b hk => hn ⟨b, hk⟩)
    fun sub down hk => halt ⟨sub, down, hk⟩
  exact ⟨f, hf, fun b hb => absurd hb (hm b)⟩

/-- A group that terminates spells a form of marked nonterminals. -/
theorem Formed.spellsMarked_group (ht : t.Formed) (hw : t.Wild) (hp : ∀ i ∈ p, t.Within a i)
    (h : t.terminatesFrom m fuel p = true) : t.SpellsMarked m (.group p) := by
  induction fuel generalizing p with
  | zero => cases h
  | succ fuel ih =>
    cases p with
    | none => exact ⟨[], .groupEnd, by simp⟩
    | some i =>
      have hi := hp i rfl
      rw [terminatesFrom_some, Bool.and_eq_true] at h
      obtain ⟨hn, hnext⟩ := h
      obtain ⟨f, hf, hm⟩ := ht.spellsMarked_node hw hi (fun j hj hs =>
        ih (fun k hk => Option.some.inj hk ▸ hj) hs) hn
      cases hup : (t.graph.node i).up with
      | true => exact ⟨f, .groupLast hup hf, hm⟩
      | false =>
        rw [hup] at hnext
        obtain ⟨g, hg, hm'⟩ := ih (p := t.graph.next i) (fun j hj => hi.next hj) hnext
        refine ⟨f ++ g, .groupStep hup hf hg, fun b hb => ?_⟩
        exact (List.mem_append.mp hb).elim (hm b) (hm' b)

/-- A production produces what the group at its start spells. -/
theorem Formed.produces_of_group {r : NodeId} {f : Form} (ht : t.Formed)
    (hr : (t.symbol a).root = some r) (hf : t.Spells (.group (some r)) f) : t.Produces a f := by
  obtain ⟨s, hs⟩ := ht.laid a r hr
  have hne : s ≠ .nil := fun hn => by
    have := hs.entry
    rw [hn] at this
    cases this
  refine ⟨r, hr, ?_⟩
  rw [← hs.entry] at hf ⊢
  exact (spells_rest_iff hs.fits hne fun _ => rfl).mpr ⟨f, [], by simp, hf, .restEnd⟩

section

variable (ht : t.Formed) (hw : t.Wild) (hc : ∀ a ∈ t.nonterminals, (t.symbol a).root.isSome = true)
include ht hw hc

theorem marks_markTerminating (hm : t.Marks t.Productive m) (ha : a ∈ t.nonterminals) :
    t.Marks t.Productive (t.markTerminating m (t.symbol a)) := by
  unfold markTerminating
  split
  · rename_i h
    obtain ⟨f, hf, hmf⟩ := ht.spellsMarked_group hw (fun i hi => .root hi)
      ((Bool.and_eq_true ..).mp h).2
    refine hm.insert ht ha ?_
    obtain ⟨r, hr⟩ := Option.isSome_iff_exists.mp (hc a ha)
    rw [hr] at hf
    obtain ⟨w, hw⟩ := exists_word fun b hb =>
      hm b (hf.mem_nonterminals ht.allows b hb) (hmf b hb)
    exact ⟨w, (Derives.of_produces (ht.produces_of_group hr hf)).trans hw⟩
  · exact hm

theorem marks_closeTerminating (fuel : Nat) (hm : t.Marks t.Productive m) :
    t.Marks t.Productive (t.closeTerminating fuel m) := by
  have hf (l : List SymbolId) (hl : ∀ a ∈ l, a ∈ t.nonterminals) {m : IndexSet}
      (hm : t.Marks t.Productive m) :
      t.Marks t.Productive ((l.map t.symbol).foldl t.markTerminating m) := by
    induction l generalizing m with
    | nil => exact hm
    | cons a l ih =>
      exact ih (fun b hb => hl b (by simp [hb]))
        (marks_markTerminating ht hw hc hm (hl a (by simp)))
  induction fuel generalizing m with
  | zero => exact hm
  | succ fuel ih =>
    have hround := hf t.nonterminals.toList (fun a ha => Array.mem_toList_iff.mp ha) hm
    unfold closeTerminating
    dsimp only
    split
    · exact hround
    · exact ih hround

/-- Nonterminals that are marked as terminating derive a word. -/
theorem word_terminating : t.Marks t.Productive t.terminating :=
  marks_closeTerminating ht hw hc _ (marks_empty _ _)

end

/-! ### Calls -/

/-- What a production mentions is called. -/
theorem Formed.called_reachFrom (ht : t.Formed) {S : Stack} (hS : t.Calls c S)
    (hp : ∀ i ∈ p, t.Within c i) (hm : t.Marks (fun a => ∃ S, t.Calls a S) m) :
    t.Marks (fun a => ∃ S, t.Calls a S) (t.reachFrom fuel p m) := by
  induction fuel generalizing c S p m with
  | zero => exact hm
  | succ fuel ih =>
    cases p with
    | none => exact hm
    | some i =>
      have hi := hp i rfl
      have hlast {m : IndexSet} (hm : t.Marks (fun a => ∃ S, t.Calls a S) m) :
          t.Marks (fun a => ∃ S, t.Calls a S)
            (if (t.node i).up then m else t.reachFrom fuel (t.node i).next m) := by
        split
        · exact hm
        · exact ih hS (fun j hj => hi.next hj) hm
      have hsub {j} (hj : (t.graph.kind i).sub? = some j) :
          t.Marks (fun a => ∃ S, t.Calls a S) (t.reachFrom fuel (some j) m) :=
        ih hS (fun k hk => hi.sub (hj.trans hk)) hm
      simp only [reachFrom]
      refine hlast ?_
      split
      · rename_i a hk
        have hcall := hS.call hi hk
        split
        · exact hm
        · exact ih hcall (fun j hj => .root hj)
            (hm.insert ht (ht.allows_nonterminal hk) ⟨_, hcall⟩)
      · rename_i sub down hk
        have hkind : t.graph.kind i = .alt sub down := hk
        exact ih hS (fun j hj => hi.down (by rw [hkind]; exact hj)) (hsub (by rw [hkind]; rfl))
      · rename_i sub hk
        exact hsub (by rw [show t.graph.kind i = .iter sub from hk]; rfl)
      · rename_i sub hk
        exact hsub (by rw [show t.graph.kind i = .opt sub from hk]; rfl)
      · exact hm

theorem Formed.called_reached (ht : t.Formed) :
    t.Marks (fun a => ∃ S, t.Calls a S) t.reached := by
  have hm : t.Marks (fun a => ∃ S, t.Calls a S) (.empty t.nonterminalCount) := marks_empty _ _
  unfold reached
  cases hs : t.start with
  | none => exact hm
  | some a =>
    have hcall := Calls.start hs
    exact ht.called_reachFrom hcall (fun i hi => .root hi)
      (hm.insert ht (ht.registered.start a hs) ⟨_, hcall⟩)

/-- A grammar that passes the structural checks has no useless nonterminals. -/
theorem Formed.reduced_of_checkStructure (ht : t.Formed) (hw : t.Wild)
    (h : t.checkStructure.value = true) : t.Reduced := by
  have h : t.checkComplete.value = true ∧ t.checkReached.value = true ∧
      t.checkTerminating.value = true := by
    simp only [checkStructure, Noted.value_bind, Noted.value_ite] at h
    split at h <;> try cases h
    split at h <;> try cases h
    split at h <;> try cases h
    exact ⟨‹_›, ‹_›, h⟩
  obtain ⟨hc, hr, hp⟩ := h
  have hc := value_reportUnless.mp hc
  refine ⟨?_, ?_⟩
  · exact fun a ha => ht.called_reached a ha (value_reportUnless.mp hr a ha)
  · exact fun a ha => word_terminating ht hw hc a ha (value_reportUnless.mp hp a ha)

theorem value_analyze (t : Table) (faulty : Bool) : (t.analyze faulty).value =
    if faulty then (t, false) else (t.computeSets.value, t.computeSets.value.check.value) := by
  unfold analyze
  cases faulty with
  | true => rfl
  | false =>
    simp only [Bool.false_eq_true, if_false, Noted.value_bind]
    split <;> rfl

end Table

namespace Grammar

variable {source : String} {cfg : Config} {log log' : Log} {g : Grammar}

/-- An accepted grammar has been analysed, and has passed the structural checks. -/
theorem accepted_of_analyze (h : (g.analyze log).2.2 = true) :
    (g.analyze log).2.1.table = g.table.computeSets.value ∧
      g.table.computeSets.value.checkStructure.value = true := by
  have hok : (g.table.analyze log.hasErrors).value.2 = true := ((Bool.and_eq_true ..).mp h).1
  have htable : (g.analyze log).2.1.table = (g.table.analyze log.hasErrors).value.1 := rfl
  rw [htable]
  clear htable h
  rw [Table.value_analyze] at hok ⊢
  cases hlog : log.hasErrors with
  | true =>
    rw [hlog] at hok
    exact absurd hok Bool.false_ne_true
  | false =>
    rw [hlog] at hok
    simp only [Bool.false_eq_true, if_false, true_and] at hok ⊢
    unfold Table.check at hok
    simp only [Noted.value_bind, Noted.value_ite, Noted.value_pure] at hok
    split at hok
    · rename_i hcheck
      exact hcheck
    · exact absurd hok Bool.false_ne_true

/-- Of an accepted grammar without wildcards and resolvers all sets are exact, and no nonterminal is
useless. -/
theorem computed_of_analyze (h : (Grammar.parse source cfg log).2 = .ok g)
    (hg : g.table.graph.isPlain = true) (ha : (g.analyze log').2.2 = true) :
    (g.analyze log').2.1.table.Computed ∧ (g.analyze log').2.1.table.Reduced ∧
      (∀ i set, (g.analyze log').2.1.table.graph.kind i ≠ .any set) ∧
        ∀ i, (g.analyze log').2.1.table.graph.kind i ≠ .resolver := by
  obtain ⟨hsame, ht⟩ := computed_computeSets h fun i => (Graph.kind_of_isPlain hg i).1
  obtain ⟨htable, hcheck⟩ := accepted_of_analyze ha
  rw [htable]
  refine ⟨ht, ht.formed.reduced_of_checkStructure ht.wild hcheck, fun i set hk => ?_,
    fun i hk => ?_⟩
  · exact (Graph.kind_of_isPlain hg i).1 set (hsame.symm.kind_of hk nofun)
  · exact (Graph.kind_of_isPlain hg i).2 (hsame.symm.kind_of hk nofun)

end Grammar

end Lookahead
