import Lookahead.Proofs.FollowWalk
import Lookahead.Proofs.Wildcards

/-!
# Tables with narrower wildcards

When a wildcard loses terminals, everything else that the analysis looks at stays: which nodes can
match nothing, which wildcard a group starts with, and where a walk for first sets goes. So what
such a walk finds can only become less (`Table.Narrows.firstSet`).
-/

namespace Lookahead

namespace IndexSet

variable {s r : IndexSet} {n : Nat}

theorem get_diff : (s.diff r).get n = (s.get n && !r.get n) := by
  by_cases hs : n < s.size
  · rw [diff, get_combine _ _ _ _ hs]
    by_cases hr : n < r.size
    · rw [if_pos hr]
    · rw [if_neg hr, get_of_size_le (Nat.le_of_not_lt hr), Bool.not_false, Bool.and_true]
  · have hd : (s.diff r).size ≤ n := by
      rw [diff, size_combine]
      exact Nat.le_of_not_lt hs
    rw [get_of_size_le hd, get_of_size_le (Nat.le_of_not_lt hs), Bool.false_and]

theorem get_union_iff :
    (s.union r).get n = true ↔ n < s.size ∧ (s.get n = true ∨ r.get n = true) := by
  by_cases hs : n < s.size
  · simp [get_union hs, hs]
  · have hu : (s.union r).size ≤ n := by
      rw [size_union]
      exact Nat.le_of_not_lt hs
    simp [get_of_size_le hu, hs]

end IndexSet

namespace Graph.Alike

variable {g h : Graph} (hg : Alike g h) (del : SymbolId → Bool)
include hg

theorem groupDeletable (p : Option NodeId) : h.groupDeletable del p = g.groupDeletable del p := by
  have hfrom (fuel : Nat) (p : Option NodeId) :
      h.groupDeletableFrom del fuel p = g.groupDeletableFrom del fuel p := by
    induction fuel generalizing p with
    | zero => rfl
    | succ fuel ih =>
      cases p with
      | none => rfl
      | some i =>
        have hn : (h.node i).next = (g.node i).next := hg.next i
        simp only [groupDeletableFrom, ih, hn, hg.up]
        rcases hg.kind_cases i with hk | ⟨x, y, hh, hk⟩ | ⟨x, y, hh, hk⟩
        · rw [show (h.node i).kind = _ from hk]
          rfl
        all_goals rw [show (h.node i).kind = _ from hh, show (g.node i).kind = _ from hk]
  rw [Graph.groupDeletable, hfrom, hg.size, Graph.groupDeletable]

theorem nodeDeletable (i : NodeId) : h.nodeDeletable del i = g.nodeDeletable del i := by
  simp only [Graph.nodeDeletable, hg.groupDeletable]
  rcases hg.kind_cases i with hk | ⟨x, y, hh, hk⟩ | ⟨x, y, hh, hk⟩
  · rw [hk]
  all_goals rw [hh, hk]

end Graph.Alike

namespace Table

/-- The tables differ at most in what follows and in synchronisation sets, and wildcards of the
second match no more than they do in the first. -/
structure Narrows (t u : Table) : Prop extends SameOutline t u where
  deletable : ∀ s, (u.symbol s).deletable = (t.symbol s).deletable
  first : ∀ s, (u.symbol s).first = (t.symbol s).first
  firstReady : ∀ s, (u.symbol s).firstReady = (t.symbol s).firstReady
  sets : ∀ i n, (u.wildcardSet i).get n = true → (t.wildcardSet i).get n = true

variable {t u v : Table} {a : SymbolId} {i j : NodeId} {p : Option NodeId}

theorem SameOutline.edge (h : SameOutline t u)
    (hd : ∀ i, u.nodeDeletable i = t.nodeDeletable i)
    (hr : ∀ s, (u.symbol s).firstReady = (t.symbol s).firstReady) (he : t.Edge i j) :
    u.Edge i j := by
  cases he with
  | sub hs => exact .sub ((h.graph.sub? i).trans hs)
  | down hs => exact .down ((h.graph.down? i).trans hs)
  | root hk ha hroot =>
    exact .root ((h.graph.kind_iff (by simp) (by simp)).mpr hk) ((hr _).trans ha)
      ((h.root _).trans hroot)
  | next hdel hn => exact .next ((hd i).trans hdel) ((h.graph.next i).trans hn)

/-- Two walks have left the same marks, and the first has found no more than the second. -/
structure FindsLess (r q : IndexSet × IndexSet) : Prop where
  marks : r.2 = q.2
  size : r.1.size = q.1.size
  get : ∀ n, r.1.get n = true → q.1.get n = true

namespace FindsLess

variable {r q r' q' : IndexSet × IndexSet}

theorem refl (r : IndexSet × IndexSet) : FindsLess r r := ⟨rfl, rfl, fun _ => id⟩

/-- One walk after the other. -/
theorem append (h : FindsLess r q) (h' : FindsLess r' q') :
    FindsLess (r.1.union r'.1, r'.2) (q.1.union q'.1, q'.2) where
  marks := h'.marks
  size := by rw [IndexSet.size_union, IndexSet.size_union, h.size]
  get n hn := by
    rw [IndexSet.get_union_iff] at hn ⊢
    exact ⟨h.size ▸ hn.1, hn.2.imp (h.get n) (h'.get n)⟩

end FindsLess

namespace Narrows

theorem refl (t : Table) : Narrows t t where
  size := rfl
  listed := rfl
  literals := rfl
  start := rfl
  eof := rfl
  kind _ := rfl
  index _ := rfl
  root _ := rfl
  graph := .refl _
  deletable _ := rfl
  first _ := rfl
  firstReady _ := rfl
  sets _ _ := id

theorem trans (h : Narrows t u) (h' : Narrows u v) : Narrows t v where
  size := h'.size.trans h.size
  listed := h'.listed.trans h.listed
  literals := h'.literals.trans h.literals
  start := h'.start.trans h.start
  eof := h'.eof.trans h.eof
  kind s := (h'.kind s).trans (h.kind s)
  index s := (h'.index s).trans (h.index s)
  root s := (h'.root s).trans (h.root s)
  graph := h.graph.trans h'.graph
  deletable s := (h'.deletable s).trans (h.deletable s)
  first s := (h'.first s).trans (h.first s)
  firstReady s := (h'.firstReady s).trans (h.firstReady s)
  sets i n hn := h.sets i n (h'.sets i n hn)

variable (h : Narrows t u)
include h

theorem isDeletable : u.isDeletable = t.isDeletable := funext h.deletable

theorem nodeDeletable (i : NodeId) : u.nodeDeletable i = t.nodeDeletable i := by
  rw [Table.nodeDeletable, h.isDeletable, h.graph.nodeDeletable]
  rfl

theorem content (i : NodeId) : u.content i = t.content i := by
  unfold Table.content
  rcases h.graph.kind_cases i with hk | ⟨x, y, hu, ht⟩ | ⟨x, y, hu, ht⟩
  · simp only [hk, h.root]
  all_goals rw [hu, ht]; rfl

theorem leadingWildcard (p : Option NodeId) : u.leadingWildcard p = t.leadingWildcard p := by
  have hfrom (fuel : Nat) (p : Option NodeId) :
      u.leadingWildcardFrom fuel p = t.leadingWildcardFrom fuel p := by
    induction fuel generalizing p with
    | zero => rfl
    | succ fuel ih =>
      cases p with
      | none => rfl
      | some i =>
        have hn : (u.node i).next = (t.node i).next := h.graph.next i
        have hup : (u.node i).up = (t.node i).up := h.graph.up i
        simp only [leadingWildcardFrom, ih, h.nodeDeletable, hn, hup]
        rcases h.graph.kind_cases i with hk | ⟨x, y, hu, ht⟩ | ⟨x, y, hu, ht⟩
        · rw [show (u.node i).kind = _ from hk]
          rfl
        all_goals rw [show (u.node i).kind = _ from hu, show (t.node i).kind = _ from ht]
  rw [Table.leadingWildcard, hfrom, h.graph.size, Table.leadingWildcard]

theorem firstNode {fuel : Nat}
    (ih : ∀ p m, FindsLess (u.firstFrom fuel p m) (t.firstFrom fuel p m)) (i : NodeId)
    (m : IndexSet) : FindsLess (u.firstNode fuel i m) (t.firstNode fuel i m) := by
  have hset := h.sets i
  unfold wildcardSet at hset
  unfold Table.firstNode
  simp only [h.terminalCount, h.index, h.first, h.firstReady, h.root]
  rcases h.graph.kind_cases i with hk | ⟨x, y, hu, ht⟩ | ⟨x, y, hu, ht⟩
  · rw [hk]
    cases t.graph.kind i with
    | nonterminal a =>
      dsimp only
      split
      · exact .refl _
      · exact ih ..
    | alt sub down =>
      have hsub := ih (some sub) m
      have hdown := ih down (u.firstFrom fuel (some sub) m).2
      rw [hsub.marks] at hdown
      simpa only [hsub.marks] using hsub.append hdown
    | iter sub | opt sub => exact ih ..
    | _ => exact .refl _
  · rw [hu, ht] at hset ⊢
    refine ⟨rfl, by simp, fun n hn => ?_⟩
    rw [IndexSet.get_union_iff] at hn ⊢
    exact ⟨hn.1, hn.2.imp_right (hset n)⟩
  · rw [hu, ht]
    exact .refl _

theorem firstFrom (fuel : Nat) (p : Option NodeId) (m : IndexSet) :
    FindsLess (u.firstFrom fuel p m) (t.firstFrom fuel p m) := by
  have hempty (m : IndexSet) :
      FindsLess (.empty u.terminalCount, m) (.empty t.terminalCount, m) := by
    rw [h.terminalCount]
    exact .refl _
  induction fuel generalizing p m with
  | zero => exact hempty m
  | succ fuel ih =>
    cases p with
    | none => exact hempty m
    | some i =>
      rw [firstFrom_some, firstFrom_some]
      by_cases hm : m.get i = true
      · rw [if_pos hm, if_pos hm]
        exact hempty m
      rw [if_neg hm, if_neg hm]
      have hnode := h.firstNode ih i (m.insert i)
      simp only [h.nodeDeletable, h.graph.next]
      split
      · have hnext := ih (t.graph.next i) (u.firstNode fuel i (m.insert i)).2
        rw [hnode.marks] at hnext ⊢
        exact hnode.append hnext
      · exact hnode

theorem edge_iff : u.Edge i j ↔ t.Edge i j :=
  ⟨h.toSameOutline.symm.edge (fun i => (h.nodeDeletable i).symm) fun s => (h.firstReady s).symm,
    h.toSameOutline.edge h.nodeDeletable h.firstReady⟩

theorem reaches_iff : u.Reaches i j ↔ t.Reaches i j := by
  have : u.Edge = t.Edge := by
    funext i j
    exact propext h.edge_iff
  rw [Reaches, this, Reaches]

theorem derives {v w : Form} (hw : u.Derives v w) : t.Derives v w :=
  h.toSameOutline.symm.derives h.sets hw

/-- What can start somewhere can only become less. -/
theorem firstSet (p : Option NodeId) (n : Nat) (hn : (u.firstSet p).get n = true) :
    (t.firstSet p).get n = true := by
  unfold Table.firstSet at hn ⊢
  rw [h.graph.size] at hn
  exact (h.firstFrom ..).get n hn

end Narrows

end Table

end Lookahead
