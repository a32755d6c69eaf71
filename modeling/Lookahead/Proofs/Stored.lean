import Lookahead.Proofs.Circular
import Lookahead.Proofs.WildcardSets

/-!
# Stored first sets

The first sets of nonterminals are stored before wildcards are cut down, and stay as they are. So
they still have what wildcards at the front of a production have lost since, which a walk through
the production no longer finds (`Table.Restricted.stored`). Nothing is left over where all that
these wildcards give way to is at the front as well, and none of them gives way to itself
(`Table.Steady`): then what one of them has lost is found elsewhere, in the end.
-/

namespace Lookahead

open Relation

namespace Table

variable {t u : Table} {b c : SymbolId} {i j : NodeId}

/-- The node `i` is at the front of the production of `c`. -/
def Opens (t : Table) (c : SymbolId) (i : NodeId) : Prop :=
  ∃ r, (t.symbol c).root = some r ∧ t.Reaches r i

/-- The wildcard `i` gives way to something that the wildcard `j` is at the front of. -/
def Defers (t : Table) (i j : NodeId) : Prop :=
  ∃ x, t.Yields i x ∧ ∃ k ∈ x, t.Reaches k j ∧ ∃ set, t.graph.kind j = .any set

/-- What wildcards at the front of the production of `c` give way to is at its front as well, or is
the production of a nonterminal there. None of them gives way to itself, through others or not. -/
structure Steady (t : Table) (c : SymbolId) : Prop where
  front : ∀ i, t.Opens c i → ∀ x, t.Yields i x → ∀ k ∈ x,
    t.Opens c k ∨ ∃ d e, t.Opens c d ∧ t.graph.kind d = .nonterminal e ∧ (t.symbol e).root = some k
  acyclic : ∀ i, t.Opens c i → ¬ TransGen t.Defers i i

/-- The wildcard has lost the terminal. -/
def Lost (t u : Table) (b : SymbolId) (i : NodeId) : Prop :=
  (t.wildcardSet i).get (t.symbol b).index = true ∧
    (u.wildcardSet i).get (u.symbol b).index = false

/-- The first set that is stored for `c` in `u`, where wildcards have been cut down since `t`. -/
structure Stored (t u : Table) (c : SymbolId) : Prop where
  get : ∀ b ∈ u.terminals, (u.symbol c).first.get (u.symbol b).index = true ↔
    (u.firstSet (u.symbol c).root).get (u.symbol b).index = true ∨
      ∃ i, t.Opens c i ∧ t.Lost u b i
  eq : t.Steady c → (u.symbol c).first = u.firstSet (u.symbol c).root

theorem Opens.trans (h : t.Opens c i) (h' : t.Reaches i j) : t.Opens c j := by
  obtain ⟨r, hr, h⟩ := h
  exact ⟨r, hr, ReflTransGen.trans h h'⟩

theorem Opens.used (ht : t.Formed) (hc : c ∈ t.nonterminals) (h : t.Opens c i) : t.Used i := by
  obtain ⟨r, hr, h⟩ := h
  exact Used.reaches ht ⟨c, hc, .root hr⟩ h

section

variable (ht : t.Prepared) (hc : c ∈ t.nonterminals) (hb : b ∈ t.terminals)
include ht hc hb

/-- The stored sets are right when they are stored. -/
theorem Prepared.get_first : (t.symbol c).first.get (t.symbol b).index = true ↔
    (t.firstSet (t.symbol c).root).get (t.symbol b).index = true := by
  rw [get_firstSet_iff ht.formed ht.wild ht.exact ht.ready hb fun r hr => ⟨c, .root hr⟩,
    starts_root_iff]
  exact ht.ready c hc (ht.final c hc) b hb

omit hc in
theorem Prepared.get_firstSet_root (h : Narrows t u) :
    (u.firstSet (u.symbol c).root).get (u.symbol b).index = true ↔
      ∃ j, t.Opens c j ∧ u.Emits j b := by
  rw [h.root]
  cases hr : (t.symbol c).root with
  | none =>
    simp [Opens, hr]
  | some r =>
    rw [get_firstSet (h.formed ht.formed) (h.inside ⟨c, .root hr⟩) (h.terminals ▸ hb)]
    simp [Opens, hr, h.reaches_iff]

end

/-- What contributed a terminal still does, unless it is a wildcard that has lost it. -/
theorem Narrows.emits_or_lost (h : Narrows t u) (hi : t.Emits i b) :
    u.Emits i b ∨ t.Lost u b i := by
  by_cases hl : t.Lost u b i
  · exact .inr hl
  · refine .inl (h.emits hi fun hi => ?_)
    by_contra hu
    exact hl ⟨hi, by simpa [h.index] using hu⟩

theorem Lost.emits (h : t.Lost u b i) : t.Emits i b := by
  obtain ⟨set, hk, hset⟩ := get_wildcardSet_iff.mp h.1
  unfold Emits
  rw [hk]
  exact hset

section

variable (ht : t.Prepared) (h : Restricted t.Yields t u) (hc : c ∈ t.nonterminals)
include ht h hc

theorem Restricted.get_first (hb : b ∈ t.terminals) :
    (u.symbol c).first.get (u.symbol b).index = true ↔
      (u.firstSet (u.symbol c).root).get (u.symbol b).index = true ∨
        ∃ i, t.Opens c i ∧ t.Lost u b i := by
  have hn := h.narrows
  rw [hn.first, hn.index, ht.get_first hc hb, ht.get_firstSet_root hb (.refl t), ← hn.index,
    ht.get_firstSet_root hb hn]
  refine ⟨?_, ?_⟩
  · rintro ⟨j, hj, hjb⟩
    exact (hn.emits_or_lost hjb).imp (fun h => ⟨j, hj, h⟩) fun h => ⟨j, hj, h⟩
  · rintro (hu | ⟨i, hi, hl⟩)
    · rw [← ht.get_firstSet_root hb hn, hn.root] at hu
      rw [← ht.get_firstSet_root hb (.refl t), ← hn.index]
      exact hn.firstSet _ _ hu
    · exact ⟨i, hi, hl.emits⟩

omit hc in
/-- What a wildcard at the front has lost has been lost by another one that it gives way to, if it
cannot be found any more. -/
theorem Restricted.exists_lost (hs : t.Steady c) (hb : b ∈ t.terminals)
    (hnot : ¬ ∃ j, t.Opens c j ∧ u.Emits j b) (hi : t.Opens c i) (hl : t.Lost u b i) :
    ∃ j, (t.Opens c j ∧ t.Lost u b j) ∧ t.Defers i j := by
  have hn := h.narrows
  obtain ⟨x, hx, hf⟩ := h.lost i _ hl.1 (hn.index b ▸ hl.2)
  cases x with
  | none =>
    simp at hf
  | some k =>
    have hk := (hx.used ht.formed k rfl).inside
    rcases hs.front i hi _ hx k rfl with hfront | ⟨d, e, hd, hkd, hr⟩
    · obtain ⟨j, hj, hjb⟩ := (get_firstSet ht.formed hk hb).mp hf
      have hj' := hfront.trans hj
      rcases hn.emits_or_lost hjb with he | hl'
      · exact absurd ⟨j, hj', he⟩ hnot
      · obtain ⟨set, hkj, -⟩ := get_wildcardSet_iff.mp hl'.1
        exact ⟨j, ⟨hj', hl'⟩, _, hx, k, rfl, hj, set, hkj⟩
    · -- a nonterminal in front contributes all that it has stored
      have he := ht.formed.allows d
      rw [hkd] at he
      rw [← hr, ← ht.get_first he hb] at hf
      refine absurd ⟨d, hd, hn.emits (b := b) ?_ fun hset => ?_⟩ hnot
      · unfold Emits
        rw [hkd]
        exact ⟨ht.final e he, hf⟩
      · obtain ⟨set, hset, -⟩ := get_wildcardSet_iff.mp hset
        cases hkd.symm.trans hset

theorem Restricted.not_lost (hs : t.Steady c) (hb : b ∈ t.terminals) (hi : t.Opens c i)
    (hl : t.Lost u b i) : ∃ j, t.Opens c j ∧ u.Emits j b := by
  by_contra hnot
  -- those that have lost the terminal defer to each other, and there are only so many nodes
  let S : Set NodeId := {i | t.Opens c i ∧ t.Lost u b i}
  have hfin : S.Finite := (Set.finite_lt_nat t.graph.size).subset fun i hi =>
    (hi.1.used ht.formed hc).inside.lt ht.formed
  obtain ⟨j, hj, -⟩ := exists_cycle (r := fun i j => i ∈ S ∧ t.Defers i j) hfin
    (fun i hi => by
      obtain ⟨j, hj, hd⟩ := h.exists_lost ht hs hb hnot hi.1 hi.2
      exact ⟨j, hj, hi, hd⟩) (show i ∈ S from ⟨hi, hl⟩)
  obtain ⟨k, ⟨hjS, -⟩, -⟩ := TransGen.head'_iff.mp hj
  exact hs.acyclic j hjS.1 (TransGen.mono (fun _ _ h => h.2) _ _ hj)

theorem Restricted.stored : t.Stored u c := by
  have hn := h.narrows
  refine ⟨fun b hb => h.get_first ht hc (hn.terminals ▸ hb), fun hs => ?_⟩
  refine IndexSet.ext_get ?_ fun n hlt => ?_
  · rw [hn.first, ht.sized c hc, size_firstSet, hn.terminalCount]
  · rw [hn.first, ht.sized c hc, ← hn.terminalCount] at hlt
    obtain ⟨b, hb, rfl⟩ := (hn.formed ht.formed).registered.exists_terminal hlt
    have hb' : b ∈ t.terminals := hn.terminals ▸ hb
    rw [Bool.eq_iff_iff, h.get_first ht hc hb']
    refine or_iff_left_of_imp ?_
    rintro ⟨i, hi, hl⟩
    exact (ht.get_firstSet_root hb' hn).mpr (h.not_lost ht hc hs hb' hi hl)

end

end Table

namespace Grammar

variable {source : String} {cfg : Config} {log : Log} {g : Grammar}

/-- The stored first sets have what a walk with the final wildcards finds, and what wildcards at the
front of productions have lost. -/
theorem stored_of_parse (h : (Grammar.parse source cfg log).2 = .ok g) :
    ∀ c ∈ g.table.nonterminals, g.prepared.Stored g.table.computeSets.value c := by
  obtain ⟨hsame, ht⟩ := prepared_of_parse h
  intro c hc
  exact (restricted_computeSets h).stored ht (hsame.nonterminals ▸ hc)

/-- A wildcard behind an option. -/
def optional : String :=
  "COMPILER A\nPRODUCTIONS\nA = [\"a\"] ANY.\nEND A."

set_option maxRecDepth 100000 in
/-- The wildcard gives way to the content of the option, which is at the front. -/
theorem steady_optional : ∃ g, (Grammar.parse optional default {}).2 = .ok g ∧
    1 ∈ g.table.nonterminals ∧ g.prepared.Steady 1 := by
  obtain ⟨g, hg, h⟩ := exists_ok_of_any (x := (Grammar.parse optional default {}).2)
    (P := fun g => let t := g.prepared
      decide (1 ∈ g.table.nonterminals ∧ (t.symbol 1).root = some 2 ∧
        t.graph.kind 1 = .terminal 2 ∧ t.nodeDeletable 1 = false ∧ t.graph.kind 2 = .opt 1 ∧
        ∀ i < t.graph.size, (∀ s ∈ (t.graph.kind i).sub?, t.leadingWildcard (some s) = none) ∧
          (∀ p ∈ t.graph.alternatives i, t.leadingWildcard (some p.1) = none) ∧
          (t.nodeDeletable i = true → t.leadingWildcard (t.graph.next i) ≠ none →
            t.content i = some 1))) (by decide +kernel)
  obtain ⟨hc, hr, hk, hd, hopt, hall⟩ := of_decide_eq_true h
  have ht := (prepared_of_parse hg).2.formed
  have hplace {a x} (hx : g.prepared.Yields a x) : x = some 1 := by
    obtain ⟨c, hc, i, hi, hx⟩ := hx
    obtain ⟨hsub, halt, hcontent⟩ := hall i (Table.Inside.lt ht ⟨c, hi.within ht⟩)
    rcases hx with hx | ⟨hd, ha, rfl⟩
    · unfold Table.YieldsInside at hx
      split at hx
      · rename_i sub hk
        exact absurd (hx.1.symm.trans (hsub sub (by rw [hk]; rfl))) (by simp)
      · rename_i sub hk
        exact absurd (hx.1.symm.trans (hsub sub (by rw [hk]; rfl))) (by simp)
      · obtain ⟨l₁, p, l₂, hl, ha, -⟩ := hx
        exact absurd (ha.symm.trans (halt p (by simp [hl]))) (by simp)
      · exact hx.elim
    · exact hcontent hd (by simp [ha])
  refine ⟨g, hg, hc, ⟨fun i _ x hx k hk => .inl ?_, fun i _ hi => ?_⟩⟩
  · cases hplace hx
    cases hk
    exact ⟨2, hr, .single (.sub (by rw [hopt]; rfl))⟩
  · obtain ⟨j, ⟨x, hx, k, hk', hj, set, hset⟩, -⟩ := TransGen.head'_iff.mp hi
    cases hplace hx
    cases hk'
    rcases ReflTransGen.cases_head hj with rfl | ⟨l, he, -⟩
    · cases hk.symm.trans hset
    · rcases he with he | he | ⟨he, -, -⟩ | ⟨he, -⟩
      · rw [hk] at he
        cases he
      · rw [hk] at he
        cases he
      · cases hk.symm.trans he
      · cases hd.symm.trans he

theorem stored_optional : ∃ g, (Grammar.parse optional default {}).2 = .ok g ∧
    g.prepared.Stored g.table.computeSets.value 1 ∧ g.prepared.Steady 1 := by
  obtain ⟨g, hg, hc, hs⟩ := steady_optional
  exact ⟨g, hg, stored_of_parse hg 1 hc, hs⟩

/-- A wildcard behind an iteration that ends in an option. -/
def trailing : String :=
  "COMPILER A\nPRODUCTIONS\nA = \x7b \"c\" [\"x\"] \x7d ANY.\nEND A."

set_option maxRecDepth 100000 in
/-- The stored set has a terminal that a walk does not find any more. -/
theorem stale_trailing : ∃ g, (Grammar.parse trailing default {}).2 = .ok g ∧
    (Grammar.parse trailing default {}).1.errorCount = Log.errorCount {} ∧
    ∃ t, t = g.table.computeSets.value ∧ ∃ c ∈ t.nonterminals,
      (t.symbol c).first ≠ t.firstSet (t.symbol c).root := by
  obtain ⟨g, hg, h⟩ := exists_ok_of_any (x := (Grammar.parse trailing default {}).2)
    (P := fun g => let t := g.table.computeSets.value
      decide (1 ∈ t.nonterminals ∧ (t.symbol 1).first ≠ t.firstSet (t.symbol 1).root))
    (by decide +kernel)
  exact ⟨g, hg, by decide +kernel, _, rfl, 1, of_decide_eq_true h⟩

end Grammar

end Lookahead
