import Lookahead.Proofs.Marks
import Lookahead.Proofs.Reduced

/-!
# Derivability is exact

Rounds of marking stop where no production calls for another mark (`Table.settled_terminating`).
The walk through a production decides whether it spells a form of marked nonterminals
(`Table.Formed.terminates_iff`), so the marked nonterminals are those that derive a word, and the
check reports the others (`Grammar.underivable_of_parse`).
-/

namespace Lookahead

namespace Table

variable {t u : Table} {a : SymbolId} {i : NodeId} {p q : Option NodeId} {m n : IndexSet}
  {fuel : Nat}

/-! ### Walks -/

/-- A group that spells a form of marked nonterminals terminates. -/
theorem terminatesFrom_of_spellsMarked {s : Shape} {up : Bool}
    (hs : s.Fits t.graph (· = q) up) (hq : up = false → q = none) (hf : s.nodes.length < fuel)
    (h : t.SpellsMarked m (.group s.entry)) : t.terminatesFrom m fuel s.entry = true := by
  induction s generalizing q up fuel with
  | nil =>
    obtain ⟨fuel, rfl⟩ : ∃ n, fuel = n + 1 := ⟨fuel - 1, by omega⟩
    rfl
  | node i l b o x ihb iho ihx =>
    obtain ⟨fuel, rfl⟩ : ∃ n, fuel = n + 1 := ⟨fuel - 1, by omega⟩
    simp only [Shape.nodes, List.length_cons, List.length_append] at hf
    have hb := hs.body
    have ho := hs.others
    obtain ⟨hr, hl, -, -, hx⟩ := hs
    -- what the node itself spells decides about the node
    have hnode {f : Form} (hf' : t.Spells (.node i) f)
        (hm : ∀ c, .nonterminal c ∈ f → m.get (t.symbol c).index = true) :
        t.terminatesNode m fuel i = true := by
      unfold terminatesNode
      cases hf' with
      | nonterminal hk =>
        rw [hk]
        exact hm _ (by simp)
      | alternative hk hu =>
        have hbe := hr.entry_body
        rw [hk] at hbe ⊢
        have h := @ihb _ fuel _ hb (by simp) (by omega) ⟨_, by rw [hbe]; exact hu, hm⟩
        rw [hbe] at h
        exact Bool.or_eq_true_iff.mpr (.inl h)
      | @other _ _ j _ hk hu =>
        have hoe := hr.entry_others
        rw [hk] at hr hoe ⊢
        have hup : (t.graph.node j).up = true := by
          obtain ⟨-, -, -, hoo⟩ := hr
          cases o with
          | nil => cases hoe
          | node _ l' b' o' x' =>
            cases hoe
            obtain ⟨rfl, -⟩ := hoo
            exact ho.2.1.of_nil.2
        have h := @iho _ fuel _ ho (by simp) (by omega)
          ⟨_, by rw [hoe]; exact .groupLast hup hu, hm⟩
        rw [hoe] at h
        exact Bool.or_eq_true_iff.mpr (.inr h)
      | terminal hk | weak hk | any hk | skip hk | content hk | stop hk | again hk => rw [hk]
      | blank hk =>
        generalize t.graph.kind i = k at hk
        cases k <;> first | rfl | cases hk
    obtain ⟨f, hf', hm⟩ := h
    rw [Shape.entry, terminatesFrom_some, Bool.and_eq_true, Bool.or_eq_true]
    cases hf' with
    | groupLast hup hu => exact ⟨hnode hu hm, .inl hup⟩
    | groupStep hup hu hv =>
      refine ⟨hnode hu fun c hc => hm c (by simp [hc]), .inr ?_⟩
      by_cases hxn : x = .nil
      · subst hxn
        obtain ⟨hnext, hup'⟩ := hl.of_nil
        rw [hnext, hq (hup'.symm.trans hup)]
        obtain ⟨fuel, rfl⟩ : ∃ n, fuel = n + 1 := ⟨fuel - 1, by omega⟩
        rfl
      · rw [(hl.of_ne hxn).1] at hv ⊢
        exact ihx hx hq (by omega) ⟨_, hv, fun c hc => hm c (by simp [hc])⟩

/-- The production of the nonterminal derives terminals alone, given the marked nonterminals. -/
def Terminates (t : Table) (m : IndexSet) (a : SymbolId) : Prop :=
  t.terminatesFrom m (t.graph.size + 1) (t.symbol a).root = true

/-- The walk through a production decides whether it spells a form of marked nonterminals. -/
theorem Formed.terminates_iff (ht : t.Formed) (hw : t.Wild) (hr : (t.symbol a).root.isSome = true) :
    t.Terminates m a ↔
      ∃ f, t.Produces a f ∧ ∀ b, .nonterminal b ∈ f → m.get (t.symbol b).index = true := by
  obtain ⟨r, hr⟩ := Option.isSome_iff_exists.mp hr
  obtain ⟨s, hs⟩ := ht.laid a r hr
  unfold Terminates
  refine ⟨fun h => ?_, ?_⟩
  · obtain ⟨f, hf, hm⟩ := ht.spellsMarked_group hw (fun i hi => .root hi) h
    exact ⟨f, ht.produces_of_group hr (hr ▸ hf), hm⟩
  · rintro ⟨f, ⟨r', hr', hf⟩, hm⟩
    obtain rfl : r = r' := Option.some.inj (hr.symm.trans hr')
    have hne : s ≠ .nil := fun hn => by
      have := hs.entry
      rw [hn] at this
      cases this
    rw [← hs.entry] at hf
    obtain ⟨f, g, rfl, hf, hg⟩ := (spells_rest_iff hs.fits hne fun _ => rfl).mp hf
    rw [hr, ← hs.entry]
    refine terminatesFrom_of_spellsMarked hs.fits (fun _ => rfl)
      (length_nodes_lt hs (List.Sublist.refl _)) ⟨f, hf, fun b hb => hm b (by simp [hb])⟩

theorem terminatesFrom_mono (h : ∀ j, m.get j = true → n.get j = true)
    (ht : t.terminatesFrom m fuel p = true) : t.terminatesFrom n fuel p = true := by
  induction fuel generalizing p with
  | zero => cases ht
  | succ fuel ih =>
    cases p with
    | none => rfl
    | some i =>
      simp only [terminatesFrom, Bool.and_eq_true, Bool.or_eq_true] at ht ⊢
      refine ⟨?_, ht.2.imp_right ih⟩
      have hk := ht.1
      split at hk
      · exact h _ hk
      · simp only [Bool.or_eq_true, Bool.and_eq_true] at hk ⊢
        exact hk.imp ih fun hd => ⟨hd.1, ih hd.2⟩
      · rfl

/-! ### Rounds -/

/-- The marks `n` are those of `m` and possibly more. -/
structure MarksMore (m n : IndexSet) : Prop where
  size : n.size = m.size
  mono : ∀ j, m.get j = true → n.get j = true

theorem MarksMore.refl (m : IndexSet) : MarksMore m m := ⟨rfl, fun _ => id⟩

theorem MarksMore.trans {l : IndexSet} (h : MarksMore m n) (h' : MarksMore n l) : MarksMore m l :=
  ⟨h'.size.trans h.size, fun j hj => h'.mono j (h.mono j hj)⟩

/-- More marks are more marks. -/
theorem MarksMore.unmarked_lt (h : MarksMore m n) (hne : n ≠ m) :
    IndexSet.unmarked n < IndexSet.unmarked m := by
  have hex : ∃ j < m.size, m.get j = false ∧ n.get j = true := by
    by_contra hno
    refine hne (IndexSet.ext_get h.size fun j hj => ?_)
    cases hm : m.get j with
    | true => exact h.mono j hm
    | false =>
      by_contra hn
      exact hno ⟨j, h.size ▸ hj, hm, by simpa using hn⟩
  obtain ⟨j, hj, hm, hn⟩ := hex
  unfold IndexSet.unmarked
  rw [h.size]
  refine countP_lt_countP (fun k _ hk => ?_) (List.mem_range.mpr hj) (by simp [hn]) (by simp [hm])
  have hk : n.get k = false := by simpa using hk
  have : m.get k ≠ true := fun hm => by simp [h.mono k hm] at hk
  simpa using this

theorem marksMore_markTerminating (t : Table) (m : IndexSet) (s : Symbol) :
    MarksMore m (t.markTerminating m s) := by
  unfold markTerminating
  split
  · exact ⟨IndexSet.size_insert, fun _ => IndexSet.get_insert_of_get _⟩
  · exact .refl m

theorem marksMore_foldl (l : List Symbol) (m : IndexSet) :
    MarksMore m (l.foldl t.markTerminating m) := by
  induction l generalizing m with
  | nil => exact .refl m
  | cons s l ih => exact (t.marksMore_markTerminating m s).trans (ih _)

/-- A round marks every nonterminal whose production calls for it. -/
theorem get_foldl_markTerminating (hm : ∀ a ∈ t.nonterminals, (t.symbol a).index < m.size)
    {l : List SymbolId} (hl : ∀ a ∈ l, a ∈ t.nonterminals) (ha : a ∈ l) (h : t.Terminates m a) :
    ((l.map t.symbol).foldl t.markTerminating m).get (t.symbol a).index = true := by
  induction l generalizing m with
  | nil => cases ha
  | cons b l ih =>
    have hmore := t.marksMore_markTerminating m (t.symbol b)
    rw [List.map_cons, List.foldl_cons]
    rcases List.mem_cons.mp ha with rfl | ha
    · refine (marksMore_foldl _ _).mono _ ?_
      unfold markTerminating
      rw [show t.terminatesFrom m (t.graph.size + 1) (t.symbol a).root = true from h]
      cases hget : m.get (t.symbol a).index with
      | true => exact hget
      | false => exact (IndexSet.get_insert_iff (hm a (hl a (by simp)))).mpr (.inl rfl)
    · exact ih (fun c hc => hmore.size ▸ hm c hc) (fun c hc => hl c (by simp [hc])) ha
        (terminatesFrom_mono hmore.mono h)

/-- No production calls for another mark. -/
def SettledMarks (t : Table) (m : IndexSet) : Prop :=
  ∀ a ∈ t.nonterminals, t.Terminates m a → m.get (t.symbol a).index = true

/-- Marking stops by itself, where everything is settled: every other round marks something. -/
theorem settled_closeTerminating (hm : ∀ a ∈ t.nonterminals, (t.symbol a).index < m.size)
    (hf : IndexSet.unmarked m < fuel) : t.SettledMarks (t.closeTerminating fuel m) := by
  induction fuel generalizing m with
  | zero => exact absurd hf (Nat.not_lt_zero _)
  | succ fuel ih =>
    have hmore : MarksMore m (t.nonterminalSymbols.foldl t.markTerminating m) :=
      marksMore_foldl _ _
    simp only [closeTerminating]
    split
    · rename_i heq
      intro a ha h
      rw [heq] at h ⊢
      rw [← heq]
      exact get_foldl_markTerminating hm (fun b hb => Array.mem_toList_iff.mp hb)
        (Array.mem_toList_iff.mpr ha) h
    · rename_i hne
      exact ih (fun a ha => hmore.size ▸ hm a ha)
        (Nat.lt_of_lt_of_le (hmore.unmarked_lt hne) (Nat.le_of_lt_succ hf))

theorem Formed.settled_terminating (ht : t.Formed) : t.SettledMarks t.terminating := by
  refine settled_closeTerminating (fun a ha => ?_) ?_
  · rw [IndexSet.size_empty]
    exact ht.registered.index_lt_size (k := .nonterminal) (by decide) ha
  · refine Nat.lt_succ_of_le ((IndexSet.unmarked_le_size _).trans_eq ?_)
    exact IndexSet.size_empty _

/-! ### Words -/

section

variable (ht : t.Formed) (hw : t.Wild) (hc : ∀ a ∈ t.nonterminals, (t.symbol a).root.isSome = true)
include ht hw hc

/-- Where everything is settled, the nonterminals of a form that derives a word are marked. -/
theorem SettledMarks.get_of_derives (hm : t.SettledMarks m) {f : Form} {w : List SymbolId}
    (hf : ∀ b, .nonterminal b ∈ f → b ∈ t.nonterminals) (h : t.Derives f (w.map .terminal)) :
    ∀ b, .nonterminal b ∈ f → m.get (t.symbol b).index = true := by
  induction h using Relation.ReflTransGen.head_induction_on with
  | refl => simp
  | head hstep _ ih =>
    have ih := ih (hstep.mem_nonterminals ht.allows hf)
    obtain @⟨x, a, v, y, hv⟩ := hstep
    have ha : a ∈ t.nonterminals := hf a (by simp)
    have hmark := hm a ha ((ht.terminates_iff hw (hc a ha)).mpr
      ⟨v, hv, fun b hb => ih b (by simp [hb])⟩)
    intro b hb
    simp only [List.mem_append, List.mem_cons, Letter.nonterminal.injEq] at hb
    rcases hb with hb | rfl | hb
    · exact ih b (by simp [hb])
    · exact hmark
    · exact ih b (by simp [hb])

/-- The marked nonterminals are those that derive a word. -/
theorem get_terminating_iff (ha : a ∈ t.nonterminals) :
    t.terminating.get (t.symbol a).index = true ↔ t.Productive a := by
  refine ⟨word_terminating ht hw hc a ha, ?_⟩
  rintro ⟨w, h⟩
  exact ht.settled_terminating.get_of_derives ht hw hc (by simpa using ha) h a (by simp)

open Classical in
/-- The check reports the nonterminals that derive no word. -/
theorem checkTerminating_eq : t.checkTerminating.events =
      (t.nonterminals.toList.filter fun a => ¬ t.Productive a).map (fun a =>
        .report (.error (.underivable (t.symbol a).name))) ∧
    (t.checkTerminating.value = true ↔ ∀ a ∈ t.nonterminals, t.Productive a) := by
  refine ⟨?_, ?_⟩
  · simp only [checkTerminating, reportUnless, nonterminalSymbols, List.filter_map, List.map_map]
    refine congrArg _ (List.filter_congr fun a ha => ?_)
    have := get_terminating_iff ht hw hc (Array.mem_toList_iff.mp ha)
    rw [Bool.eq_iff_iff, decide_eq_true_eq, ← this]
    simp
  · exact value_reportUnless.trans
      (forall₂_congr fun a ha => get_terminating_iff ht hw hc ha)

end

/-! ### The computed sets -/

/-- The check looks at what has been declared only. -/
theorem SameDeclared.checkTerminating (h : SameDeclared t u) :
    u.checkTerminating = t.checkTerminating := by
  have hwalk (m : IndexSet) (fuel : Nat) (p : Option NodeId) :
      u.terminatesFrom m fuel p = t.terminatesFrom m fuel p := by
    induction fuel generalizing p with
    | zero => rfl
    | succ fuel ih =>
      cases p with
      | none => rfl
      | some i =>
        have hup : (u.node i).up = (t.node i).up := h.graph.up i
        have hnext : (u.node i).next = (t.node i).next := h.graph.next i
        rw [terminatesFrom, terminatesFrom, hup, hnext, ih]
        congr 1
        rcases h.graph.kind_cases i with hk | ⟨x, y, hu, ht⟩ | ⟨x, y, hu, ht⟩
        · rw [show (u.node i).kind = (t.node i).kind from hk]
          simp only [h.index, ih]
        · rw [show (u.node i).kind = _ from hu, show (t.node i).kind = _ from ht]
        · rw [show (u.node i).kind = _ from hu, show (t.node i).kind = _ from ht]
  have hfold (l : List SymbolId) (m : IndexSet) :
      (l.map u.symbol).foldl u.markTerminating m = (l.map t.symbol).foldl t.markTerminating m := by
    induction l generalizing m with
    | nil => rfl
    | cons a l ih =>
      rw [List.map_cons, List.map_cons, List.foldl_cons, List.foldl_cons, ih]
      unfold markTerminating
      rw [h.index, h.root, hwalk, h.graph.size]
  have hclose (fuel : Nat) (m : IndexSet) :
      u.closeTerminating fuel m = t.closeTerminating fuel m := by
    induction fuel generalizing m with
    | zero => rfl
    | succ fuel ih =>
      have hround : u.nonterminalSymbols.foldl u.markTerminating m =
          t.nonterminalSymbols.foldl t.markTerminating m := by
        rw [nonterminalSymbols, h.nonterminals]
        exact hfold _ m
      simp only [closeTerminating]
      rw [hround, ih]
  have hmarks : u.terminating = t.terminating := by
    unfold terminating nonterminalCount
    rw [hclose, h.nonterminals]
  unfold Table.checkTerminating reportUnless nonterminalSymbols
  simp only [hmarks, h.nonterminals, List.filter_map, List.map_map, List.isEmpty_map,
    Function.comp_def, h.index, h.name]

end Table

namespace Grammar

variable {source : String} {cfg : Config} {log : Log} {g : Grammar}

open Classical in
/-- If all nonterminals have productions, the check reports those that derive no string of
terminals, each of them once and in the order of declaration, and passes if there are none. It finds
the same before and after the sets are computed. -/
theorem underivable_of_parse (h : (Grammar.parse source cfg log).2 = .ok g)
    (hc : ∀ a ∈ g.table.nonterminals, (g.table.symbol a).root.isSome = true) :
    g.table.checkTerminating.events =
        (g.table.nonterminals.toList.filter fun a =>
          ¬ ∃ w : List SymbolId, g.table.Derives [.nonterminal a] (w.map .terminal)).map (fun a =>
            .report (.error (.underivable (g.table.symbol a).name))) ∧
      (g.table.checkTerminating.value = true ↔ ∀ a ∈ g.table.nonterminals,
        ∃ w : List SymbolId, g.table.Derives [.nonterminal a] (w.map .terminal)) ∧
      g.table.computeSets.value.checkTerminating = g.table.checkTerminating := by
  obtain ⟨ht, -, hw⟩ := formed_parse h
  obtain ⟨hevents, hvalue⟩ := Table.checkTerminating_eq ht hw hc
  exact ⟨hevents, hvalue, ht.sameDeclared_computeSets.checkTerminating⟩

/-- A nonterminal that derives terminals beside two that only derive each other, in groups of all
kinds. -/
def entangled : String :=
  "COMPILER A\nPRODUCTIONS\nA = ANY \x7b B \x7d | C.\nB = [\"b\"] (C | \"x\" B).\n" ++
    "C = B [ANY].\nEND A."

set_option maxRecDepth 100000 in
theorem complete_entangled : ∃ g, (Grammar.parse entangled default {}).2 = .ok g ∧
    (g.table.checkComplete.value && g.table.checkTerminating.events.length == 2) = true :=
  exists_ok_of_any (by decide +kernel)

open Classical in
theorem underivable_entangled : ∃ g, (Grammar.parse entangled default {}).2 = .ok g ∧
    g.table.checkTerminating.events =
        (g.table.nonterminals.toList.filter fun a =>
          ¬ ∃ w : List SymbolId, g.table.Derives [.nonterminal a] (w.map .terminal)).map (fun a =>
            .report (.error (.underivable (g.table.symbol a).name))) ∧
      (g.table.checkTerminating.value = true ↔ ∀ a ∈ g.table.nonterminals,
        ∃ w : List SymbolId, g.table.Derives [.nonterminal a] (w.map .terminal)) ∧
      g.table.computeSets.value.checkTerminating = g.table.checkTerminating := by
  obtain ⟨g, hg, h⟩ := complete_entangled
  exact ⟨g, hg, underivable_of_parse hg
    (Table.value_reportUnless.mp ((Bool.and_eq_true ..).mp h).1)⟩

end Grammar

end Lookahead
