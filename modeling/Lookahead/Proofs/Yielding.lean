import Lookahead.Proofs.Alternatives
import Lookahead.Proofs.Narrowing

/-!
# What wildcards give way to

At every node where a parser can stand, `Table.YieldsAt` says which wildcards give way to what
starts where: to what follows a group, to the other alternatives, and to a deletable part in front.
The restrictions are made one after the other, each with the sets that are left by the ones before.
As these sets only shrink, all restrictions hold in the end, and nothing else has been taken away
(`Table.Formed.restricted_computeWildcards`).
-/

namespace Lookahead

namespace Table

variable {t u v : Table} {i : NodeId} {p q x : Option NodeId}

/-! ### Places -/

/-- A wildcard that starts one of the alternatives `L` gives way to the next alternatives, and to
any before, also of `l`, that no wildcard starts. -/
def YieldsAmong (t : Table) (l L : List (NodeId × Option NodeId)) (a : NodeId)
    (x : Option NodeId) : Prop :=
  ∃ l₁ p l₂, L = l₁ ++ p :: l₂ ∧ t.leadingWildcard (some p.1) = some a ∧
    (x = p.2 ∨ ∃ q ∈ l ++ l₁, t.leadingWildcard (some q.1) = none ∧ x = some q.1)

/-- The place `x` that the wildcard `a`, in front of the content of `i`, gives way to. -/
def YieldsInside (t : Table) (i a : NodeId) (x : Option NodeId) : Prop :=
  match t.graph.kind i with
  | .opt sub | .iter sub => t.leadingWildcard (some sub) = some a ∧ x = t.graph.next i
  | .alt _ _ => t.YieldsAmong [] (t.graph.alternatives i) a x
  | _ => False

/-- A wildcard behind a deletable node gives way to the content of that node. -/
def YieldsBefore (t : Table) (i a : NodeId) (x : Option NodeId) : Prop :=
  t.nodeDeletable i = true ∧ t.leadingWildcard (t.graph.next i) = some a ∧ x = t.content i

/-- At the node `i` it is found that the wildcard `a` gives way to what starts at `x`. -/
def YieldsAt (t : Table) (i a : NodeId) (x : Option NodeId) : Prop :=
  t.YieldsInside i a x ∨ t.YieldsBefore i a x

/-- At some place of some production it is found that the wildcard `a` gives way to what starts at
`x`. -/
def Yields (t : Table) (a : NodeId) (x : Option NodeId) : Prop :=
  ∃ c ∈ t.nonterminals, ∃ i, t.Passed c i ∧ t.YieldsAt i a x

theorem yieldsAmong_cons {l L : List (NodeId × Option NodeId)} {y : NodeId × Option NodeId}
    {a : NodeId} : t.YieldsAmong l (y :: L) a x ↔
      (t.leadingWildcard (some y.1) = some a ∧
        (x = y.2 ∨ ∃ q ∈ l, t.leadingWildcard (some q.1) = none ∧ x = some q.1)) ∨
      t.YieldsAmong (l ++ [y]) L a x := by
  refine ⟨?_, ?_⟩
  · rintro ⟨_ | ⟨z, l₁⟩, p, l₂, h, ha, hx⟩
    · obtain ⟨rfl, rfl⟩ := List.cons_eq_cons.mp h
      exact .inl ⟨ha, by simpa using hx⟩
    · obtain ⟨rfl, rfl⟩ := List.cons_eq_cons.mp h
      exact .inr ⟨l₁, p, l₂, rfl, ha, by simpa using hx⟩
  · rintro (⟨ha, hx⟩ | ⟨l₁, p, l₂, rfl, ha, hx⟩)
    · exact ⟨[], y, L, rfl, ha, by simpa using hx⟩
    · exact ⟨y :: l₁, p, l₂, rfl, ha, by simpa using hx⟩

theorem not_yieldsAmong_nil {l : List (NodeId × Option NodeId)} {a : NodeId} :
    ¬ t.YieldsAmong l [] a x := by
  rintro ⟨l₁, p, l₂, h, -⟩
  simp at h

/-! ### Restrictions -/

/-- The wildcard `a` matches nothing that can come first at `x`. -/
def Excludes (t : Table) (a : NodeId) (x : Option NodeId) : Prop :=
  ∀ n, (t.wildcardSet a).get n = true → (t.firstSet x).get n = false

theorem Excludes.get_wildcardSet {a : NodeId} {n : Nat} (h : t.Excludes a x)
    (hf : (t.firstSet x).get n = true) : (t.wildcardSet a).get n = false := by
  by_contra ha
  have hn := h n (by simpa using ha)
  rw [hf] at hn
  cases hn

/-- It still does when wildcards match less. -/
theorem Excludes.narrows {a : NodeId} (h : t.Excludes a x) (hu : Narrows t u) :
    u.Excludes a x := by
  intro n hn
  by_contra hf
  have hfirst := hu.firstSet x n (by simpa using hf)
  rw [h n (hu.sets a n hn)] at hfirst
  cases hfirst

/-- From `t` to `u`, wildcards have given way to what starts at the places that `Y` names for them,
and to nothing else. -/
structure Restricted (Y : NodeId → Option NodeId → Prop) (t u : Table) : Prop where
  narrows : Narrows t u
  lost : ∀ a n, (t.wildcardSet a).get n = true → (u.wildcardSet a).get n = false →
    ∃ x, Y a x ∧ (t.firstSet x).get n = true
  yielded : ∀ a x, Y a x → u.Excludes a x

theorem get_wildcardSet_restrict (t : Table) (a : NodeId) (s : IndexSet) (i : NodeId) (n : Nat) :
    ((t.restrict a s).wildcardSet i).get n =
      ((t.wildcardSet i).get n && !(decide (i = a) && s.get n)) := by
  unfold restrict
  split
  · rename_i set hk
    have hkind : (t.graph.setKind a (.any (set.diff s))).kind i =
        if a = i ∧ i < t.graph.size then .any (set.diff s) else t.graph.kind i :=
      Graph.kind_setKind ..
    have hlt : a < t.graph.size := by
      by_contra h
      rw [Graph.kind, Graph.node_of_size_le (Nat.le_of_not_lt h)] at hk
      cases hk
    unfold wildcardSet
    rw [onGraph, hkind]
    by_cases hia : i = a
    · subst hia
      simp [hlt, hk, IndexSet.get_diff]
    · rw [if_neg fun h => hia h.1.symm]
      simp only [hia, decide_false, Bool.false_and, Bool.not_false, Bool.and_true]
      rfl
  · rename_i hk
    by_cases hia : i = a
    · subst hia
      have hnone : (t.wildcardSet i).get n = false := by
        rw [← Bool.not_eq_true, get_wildcardSet_iff]
        rintro ⟨set, hset, -⟩
        exact hk set hset
      simp [hnone]
    · simp [hia]

theorem narrows_restrict (t : Table) (a : NodeId) (s : IndexSet) :
    Narrows t (t.restrict a s) where
  toSameOutline := (redrawn_restrict t a s).outline
  deletable b := by rw [(redrawn_restrict t a s).same.symbol]
  first b := by rw [(redrawn_restrict t a s).same.symbol]
  firstReady b := by rw [(redrawn_restrict t a s).same.symbol]
  sets i n hn := by
    rw [get_wildcardSet_restrict, Bool.and_eq_true] at hn
    exact hn.1

namespace Restricted

variable {Y Z : NodeId → Option NodeId → Prop}

theorem refl (t : Table) : Restricted (fun _ _ => False) t t where
  narrows := .refl t
  lost a n h h' := by
    rw [h] at h'
    cases h'
  yielded _ _ h := h.elim

theorem congr (h : Restricted Y t u) (hY : ∀ a x, Z a x ↔ Y a x) : Restricted Z t u where
  narrows := h.narrows
  lost a n hn hn' := by
    obtain ⟨x, hx, hf⟩ := h.lost a n hn hn'
    exact ⟨x, (hY a x).mpr hx, hf⟩
  yielded a x hx := h.yielded a x ((hY a x).mp hx)

/-- What has been given way to once is so for good, since sets only shrink. -/
theorem trans (h : Restricted Y t u) (h' : Restricted Z u v) :
    Restricted (fun a x => Y a x ∨ Z a x) t v where
  narrows := h.narrows.trans h'.narrows
  lost a n hn hn' := by
    cases hu : (u.wildcardSet a).get n with
    | true =>
      obtain ⟨x, hx, hf⟩ := h'.lost a n hu hn'
      exact ⟨x, .inr hx, h.narrows.firstSet x n hf⟩
    | false =>
      obtain ⟨x, hx, hf⟩ := h.lost a n hn hu
      exact ⟨x, .inl hx, hf⟩
  yielded a x hx := hx.elim (fun hx => (h.yielded a x hx).narrows h'.narrows) (h'.yielded a x)

/-- One more restriction, by a set that lies between what starts at the places `P` now and what
has started there. -/
theorem restrict (h : Restricted Y t u) {a : NodeId} {s : IndexSet} {P : Option NodeId → Prop}
    (hs : ∀ n, s.get n = true → ∃ x, P x ∧ (t.firstSet x).get n = true)
    (hP : ∀ x, P x → ∀ n, (u.firstSet x).get n = true → s.get n = true) :
    Restricted (fun b x => Y b x ∨ b = a ∧ P x) t (u.restrict a s) where
  narrows := h.narrows.trans (narrows_restrict ..)
  lost b n hn hn' := by
    rw [get_wildcardSet_restrict] at hn'
    cases hu : (u.wildcardSet b).get n with
    | true =>
      obtain ⟨rfl, hsn⟩ : b = a ∧ s.get n = true := by simpa [hu] using hn'
      obtain ⟨x, hx, hf⟩ := hs n hsn
      exact ⟨x, .inr ⟨rfl, hx⟩, hf⟩
    | false =>
      obtain ⟨x, hx, hf⟩ := h.lost b n hn hu
      exact ⟨x, .inl hx, hf⟩
  yielded b x hx := by
    have hr := narrows_restrict u a s
    rcases hx with hx | ⟨rfl, hx⟩
    · exact (h.yielded b x hx).narrows hr
    · intro n hn
      rw [get_wildcardSet_restrict] at hn
      by_contra hf
      have hsn := hP x hx n (hr.firstSet x n (by simpa using hf))
      simp [hsn] at hn

theorem restrictLeading (h : Restricted Y t u) (p q : Option NodeId) :
    Restricted (fun b x => Y b x ∨ t.leadingWildcard p = some b ∧ x = q) t
      (u.restrictLeading p q).value := by
  unfold Table.restrictLeading
  rw [h.narrows.leadingWildcard]
  cases hp : t.leadingWildcard p with
  | none => exact h.congr fun b x => by simp
  | some a =>
    refine (h.restrict (a := a) (s := u.firstSet q) (P := (· = q)) (fun n hn => ?_) ?_).congr
      fun b x => by simp [eq_comm]
    · exact ⟨q, rfl, h.narrows.firstSet q n hn⟩
    · rintro x rfl n hn
      exact hn

end Restricted

/-- The alternatives `l` of a group have been gone through, and `r.2` holds what starts those of
them that no wildcard does. -/
structure Alternating (t : Table) (Y : NodeId → Option NodeId → Prop)
    (l : List (NodeId × Option NodeId)) (r : Table × IndexSet) : Prop where
  restricted : Restricted Y t r.1
  size : r.2.size = t.terminalCount
  started : ∀ n, r.2.get n = true →
    ∃ q ∈ l, t.leadingWildcard (some q.1) = none ∧ (t.firstSet (some q.1)).get n = true
  starts : ∀ q ∈ l, t.leadingWildcard (some q.1) = none →
    ∀ n, (r.1.firstSet (some q.1)).get n = true → r.2.get n = true

namespace Alternating

variable {Y Z : NodeId → Option NodeId → Prop} {l : List (NodeId × Option NodeId)}
  {r : Table × IndexSet} {w : Table}

theorem nil (t : Table) : Alternating t (fun _ _ => False) [] (t, .empty t.terminalCount) where
  restricted := .refl t
  size := IndexSet.size_empty _
  started n hn := by simp at hn
  starts := by simp

/-- One more alternative, after a walk through its content. -/
theorem restrictAlternative (h : Alternating t Y l r) (hw : Restricted Z r.1 w)
    (y : NodeId × Option NodeId) :
    Alternating t (fun b x => (Y b x ∨ Z b x) ∨ t.leadingWildcard (some y.1) = some b ∧
        (x = y.2 ∨ ∃ q ∈ l, t.leadingWildcard (some q.1) = none ∧ x = some q.1))
      (l ++ [y]) (w.restrictAlternative r.2 y.1 y.2).value := by
  have hR := h.restricted.trans hw
  have hstarts {u : Table} (hu : Narrows r.1 u) : ∀ q ∈ l, t.leadingWildcard (some q.1) = none →
      ∀ n, (u.firstSet (some q.1)).get n = true → r.2.get n = true :=
    fun q hq hn n hf => h.starts q hq hn n (hu.firstSet _ n hf)
  unfold Table.restrictAlternative
  rw [hR.narrows.leadingWildcard]
  cases hy : t.leadingWildcard (some y.1) with
  | some a =>
    have hnone : t.leadingWildcard (some y.1) ≠ none := by simp [hy]
    refine ⟨?_, h.size, fun n hn => ?_, fun q hq hn => ?_⟩
    · refine (hR.restrict (a := a) (s := (w.firstSet y.2).union r.2)
        (P := fun x => x = y.2 ∨ ∃ q ∈ l, t.leadingWildcard (some q.1) = none ∧ x = some q.1)
        (fun n hn => ?_) (fun x hx n hn => ?_)).congr fun b x => by simp [eq_comm]
      · rcases (IndexSet.get_union_iff.mp hn).2 with hn | hn
        · exact ⟨_, .inl rfl, hR.narrows.firstSet _ n hn⟩
        · obtain ⟨q, hq, hqn, hf⟩ := h.started n hn
          exact ⟨_, .inr ⟨q, hq, hqn, rfl⟩, hf⟩
      · rw [IndexSet.get_union_iff, size_firstSet, hR.narrows.terminalCount]
        rcases hx with rfl | ⟨q, hq, hqn, rfl⟩
        · exact ⟨by simpa [hR.narrows.terminalCount, size_firstSet] using IndexSet.lt_of_get hn,
            .inl hn⟩
        · have hn := hstarts hw.narrows q hq hqn n hn
          exact ⟨h.size ▸ IndexSet.lt_of_get hn, .inr hn⟩
    · obtain ⟨q, hq, hf⟩ := h.started n hn
      exact ⟨q, List.mem_append_left _ hq, hf⟩
    · rcases List.mem_append.mp hq with hq | hq
      · exact hstarts (hw.narrows.trans (narrows_restrict ..)) q hq hn
      · rw [List.mem_singleton.mp hq] at hn
        exact absurd hn hnone
  | none =>
    refine ⟨hR.congr fun b x => by simp, IndexSet.size_union.trans h.size, fun n hn => ?_,
      fun q hq hn n hf => ?_⟩
    · rcases (IndexSet.get_union_iff.mp hn).2 with hn | hn
      · obtain ⟨q, hq, hf⟩ := h.started n hn
        exact ⟨q, List.mem_append_left _ hq, hf⟩
      · exact ⟨y, by simp, hy, hR.narrows.firstSet _ n hn⟩
    · have hlt := IndexSet.lt_of_get hf
      rw [size_firstSet] at hlt
      refine IndexSet.get_union_iff.mpr ⟨?_, ?_⟩
      · rw [h.size, ← hR.narrows.terminalCount]
        exact hlt
      · rcases List.mem_append.mp hq with hq | hq
        · exact .inl (hstarts hw.narrows q hq hn n hf)
        · rw [List.mem_singleton.mp hq] at hf
          exact .inr hf

end Alternating

/-! ### The walk -/

/-- The walks through a group, and through further alternatives, make the wildcards give way as it
is found at the nodes where a parser can stand. -/
structure Restricts (t : Table) (s : Shape) : Prop where
  group : ∀ fuel, s.nodes.length < fuel → ∀ u, Narrows t u →
    Restricted (fun a x => ∃ i ∈ s.points true, t.YieldsAt i a x) u
      (restrictFrom fuel u s.entry).value
  others : s.IsOther t.graph → ∀ fuel, s.nodes.length < fuel → ∀ u, Narrows t u →
    ∀ Y l r, Alternating u Y l r →
      Restricted (fun a x => Y a x ∨ (∃ i ∈ s.points false, t.YieldsAt i a x) ∨
        t.YieldsAmong l s.alternatives a x) u (s.alternatives.foldl (restrictNext fuel) r).1

section

variable {fuel : Nat} {l up : Bool} {b o y : Shape} {e : NodeId} {d : Option NodeId}

/-- The walks through the contents of alternatives. -/
theorem restricted_alternatives (hr : Shape.Refers t.graph (t.graph.kind i) l b o)
    (hk : t.graph.kind i = .alt e d) (hb : t.Restricts b) (ho : t.Restricts o)
    (hf : b.nodes.length + o.nodes.length < fuel) (hu : Narrows t u)
    {Y : NodeId → Option NodeId → Prop} {L : List (NodeId × Option NodeId)}
    {r : Table × IndexSet} (h : Alternating u Y L r) :
    Restricted (fun a x => Y a x ∨ (∃ i ∈ b.points true ++ o.points false, t.YieldsAt i a x) ∨
        t.YieldsAmong L (Shape.node i l b o y).alternatives a x) u
      ((Shape.node i l b o y).alternatives.foldl (restrictNext fuel) r).1 := by
  rw [hk] at hr
  obtain ⟨-, hbe, hoe, hoo⟩ := hr
  have hw := hb.group fuel (by omega) r.1 (hu.trans h.restricted.narrows)
  rw [hbe] at hw
  have hnext := ho.others hoo fuel (by omega) u hu _ _ _ (h.restrictAlternative hw (e, d))
  rw [Shape.alternatives, hbe, hoe]
  refine hnext.congr fun a x => ?_
  rw [show Option.toList (some e) = [e] from rfl, List.map_singleton, List.singleton_append,
    yieldsAmong_cons, hu.leadingWildcard]
  simp only [List.mem_append, or_and_right, exists_or, hu.leadingWildcard]
  exact .of_eq (by ac_rfl)

/-- What is done at a node and inside it. -/
theorem restricted_inside (hs : (Shape.node i l b o y).Fits t.graph (· = q) up)
    (hn : (Shape.node i l b o y).nodes.length ≤ t.graph.size) (hb : t.Restricts b)
    (ho : t.Restricts o) (hf : b.nodes.length + o.nodes.length < fuel) (hu : Narrows t u) :
    Restricted (fun a x => (∃ i ∈ b.points true ++ o.points false, t.YieldsAt i a x) ∨
      t.YieldsInside i a x) u (u.restrictInside fuel i) := by
  have hr := hs.1
  have hleaf (hf : t.YieldsInside i = fun _ _ => False) (hu' : u.restrictInside fuel i = u)
      (hbo : b = .nil ∧ o = .nil) : Restricted (fun a x =>
        (∃ i ∈ b.points true ++ o.points false, t.YieldsAt i a x) ∨ t.YieldsInside i a x) u
        (u.restrictInside fuel i) := by
    rw [hu', hf, hbo.1, hbo.2]
    exact (Restricted.refl u).congr fun a x => by simp [Shape.points]
  unfold restrictInside YieldsInside at hleaf ⊢
  rcases hu.graph.kind_cases i with hk | ⟨x, y, hk', hk⟩ | ⟨x, y, hk', hk⟩
  · rw [hk] at hleaf ⊢
    cases hk : t.graph.kind i with
    | alt e d =>
      have halt : t.graph.alternatives i = (Shape.node i l b o y).alternatives :=
        Shape.alternativesFrom_eq hs rfl hk hn
      have h := restricted_alternatives (y := y) hr hk hb ho hf hu (.nil u)
      rw [hu.graph.alternatives, halt]
      exact h.congr fun a x => by simp
    | opt e | iter e =>
      rw [hk] at hr
      obtain ⟨-, hbe, rfl⟩ := hr
      have h := hb.group fuel (by omega) u hu
      rw [hbe] at h
      refine (h.restrictLeading (some e) (u.graph.next i)).congr fun a x => ?_
      rw [hu.leadingWildcard, hu.graph.next]
      simp [Shape.points]
    | _ =>
      rw [hk] at hr hleaf
      exact hleaf rfl rfl hr.2
  all_goals
    rw [hk] at hr
    rw [hk, hk'] at hleaf ⊢
    exact hleaf rfl rfl hr.2

/-- What is done on behalf of what comes behind a node. -/
theorem Restricted.restrictBefore {Y : NodeId → Option NodeId → Prop} (h : Restricted Y u v)
    (hu : Narrows t u) (i : NodeId) : Restricted (fun a x => Y a x ∨ t.YieldsBefore i a x) u
      (v.restrictBefore i (u.graph.next i)) := by
  have hv := hu.trans h.narrows
  unfold Table.restrictBefore YieldsBefore
  rw [hv.nodeDeletable, hv.content, hu.graph.next]
  split
  · rename_i hd
    refine (h.restrictLeading (t.graph.next i) (t.content i)).congr fun a x => ?_
    simp [hd, hu.leadingWildcard]
  · rename_i hd
    exact h.congr fun a x => by simp [hd]

/-- What is done behind a node. -/
theorem restricted_behind (hl : Shape.Leads t.graph (· = q) up i y) (hq : up = false → q = none)
    (hy : t.Restricts y) (hf : y.nodes.length < fuel) (hu : Narrows t u) :
    Restricted (fun a x => ∃ i ∈ y.points true, t.YieldsAt i a x) u
      (if (t.graph.node i).up then u else (restrictFrom fuel u (t.graph.next i)).value) := by
  by_cases hn : y = .nil
  · subst hn
    obtain ⟨hnext, hup⟩ := hl.of_nil
    rw [hup, hnext]
    cases up with
    | true => exact (Restricted.refl u).congr fun a x => by simp [Shape.points]
    | false =>
      rw [hq rfl]
      exact hy.group fuel hf u hu
  · obtain ⟨hnext, hup⟩ := hl.of_ne hn
    rw [hup, hnext]
    exact hy.group fuel hf u hu

/-- The walk makes wildcards give way at the nodes where a parser can stand, and nowhere else. -/
theorem restricts {s : Shape} (hs : s.Fits t.graph (· = q) up) (hq : up = false → q = none)
    (hn : s.nodes.length ≤ t.graph.size) : t.Restricts s := by
  induction s generalizing q up with
  | nil =>
    refine ⟨fun fuel hf u hu => ?_, fun _ _ _ u hu Y l r h => ?_⟩
    · obtain ⟨fuel, rfl⟩ : ∃ n, fuel = n + 1 := ⟨fuel - 1, by omega⟩
      exact (Restricted.refl u).congr fun a x => by simp [Shape.points]
    · exact h.restricted.congr fun a x => by
        simp [Shape.points, Shape.alternatives, not_yieldsAmong_nil]
  | node i l b o y ihb iho ihy =>
    obtain ⟨hr, hl, -, -, hfy⟩ := id hs
    have hlen := hn
    simp only [Shape.nodes, List.length_cons, List.length_append] at hlen
    have hb := ihb hs.body (by simp) (by omega)
    have ho := iho hs.others (by simp) (by omega)
    have hy := ihy hfy hq (by omega)
    refine ⟨fun fuel hf u hu => ?_, ?_⟩
    · obtain ⟨fuel, rfl⟩ : ∃ n, fuel = n + 1 := ⟨fuel - 1, by omega⟩
      simp only [Shape.nodes, List.length_cons, List.length_append] at hf
      have hfi : b.nodes.length + o.nodes.length < fuel := by omega
      have hfb : y.nodes.length < fuel := by omega
      have hin := (restricted_inside hs hn hb ho hfi hu).restrictBefore hu i
      have h := hin.trans (restricted_behind hl hq hy hfb (hu.trans hin.narrows))
      rw [Shape.entry, value_restrictFrom_some]
      simp only [hu.graph.next, hu.graph.up] at h ⊢
      refine h.congr fun a x => ?_
      simp only [Shape.points, YieldsAt, List.mem_append, if_true, List.mem_singleton, or_and_right,
        exists_or, exists_eq_left]
      exact .of_eq (by ac_rfl)
    · rintro ⟨rfl, e, d, hk⟩ fuel hf u hu Y L r h
      simp only [Shape.nodes, List.length_cons, List.length_append] at hf
      have hfi : b.nodes.length + o.nodes.length < fuel := by omega
      refine (restricted_alternatives hr hk hb ho hfi hu h).congr fun a x => ?_
      simp [Shape.points]

end

theorem Formed.restricted_production (ht : t.Formed) (hu : Narrows t u) (c : SymbolId) :
    Restricted (fun a x => ∃ i, t.Passed c i ∧ t.YieldsAt i a x) u
      (u.restrictProduction c).value := by
  unfold restrictProduction
  rw [hu.root, hu.graph.size]
  cases hr : (t.symbol c).root with
  | none =>
    refine (Restricted.refl u).congr fun a x => ?_
    simp only [iff_false]
    rintro ⟨i, hi, -⟩
    obtain ⟨r, s, hr', -, -⟩ := ht.within_iff.mp (hi.within ht)
    cases hr.symm.trans hr'
  | some r =>
    obtain ⟨s, hs⟩ := ht.laid c r hr
    have hlen := Graph.length_le_of_nodup hs.nodup hs.lt
    have h := (restricts hs.fits (fun _ => rfl) hlen).group _ (Nat.lt_succ_of_le hlen) u hu
    rw [hs.entry] at h
    exact h.congr fun a x => by simp only [ht.passed_iff hr hs]

/-- The wildcards give way to all that is found to start in their places, and to nothing else. -/
theorem Formed.restricted_computeWildcards (ht : t.Formed) :
    Restricted t.Yields t t.computeWildcards.value := by
  have hfold (l : List SymbolId) (u : Table) (hu : Narrows t u) :
      Restricted (fun a x => ∃ c ∈ l, ∃ i, t.Passed c i ∧ t.YieldsAt i a x) u
        (l.foldl (fun u c => (u.restrictProduction c).value) u) := by
    induction l generalizing u with
    | nil => exact (Restricted.refl u).congr fun a x => by simp
    | cons c l ih =>
      have h := ht.restricted_production hu c
      refine (h.trans (ih _ (hu.trans h.narrows))).congr fun a x => ?_
      simp [or_and_right, exists_or]
  unfold computeWildcards
  rw [Noted.value_foldlM]
  exact (hfold _ t (.refl t)).congr fun a x => by simp [Yields]

end Table

end Lookahead
