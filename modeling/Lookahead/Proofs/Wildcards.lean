import Lookahead.Analysis.Wildcard
import Lookahead.Proofs.Productions

/-!
# Wildcards are cut down in place

`Table.value_restrictFrom_some` says what the walk through a production does at a node: what is
inside it comes first, then what the wildcards behind it give way to, then the rest of the group.
Whatever `Table.computeWildcards` does is a number of restrictions of single wildcards
(`Table.computeWildcards_induct`). So it keeps all that a table says about symbols, and how the
nodes of its graph hang together (`Table.Redrawn`), and does nothing where there is no wildcard.
-/

namespace Lookahead

namespace Table

variable {t u v : Table}

/-- The tables differ at most in the sets of nodes, and in what does not bear on productions. -/
structure Redrawn (t u : Table) : Prop where
  same : SameSymbols t u
  graph : Graph.Alike t.graph u.graph

theorem Redrawn.refl (t : Table) : Redrawn t t := ⟨⟨rfl, rfl, rfl, rfl, rfl⟩, .refl _⟩

theorem Redrawn.trans (h : Redrawn t u) (h' : Redrawn u v) : Redrawn t v where
  same := ⟨h'.same.symbols.trans h.same.symbols, h'.same.listed.trans h.same.listed,
    h'.same.literals.trans h.same.literals, h'.same.start.trans h.same.start,
    h'.same.eof.trans h.same.eof⟩
  graph := h.graph.trans h'.graph

theorem Redrawn.outline (h : Redrawn t u) : SameOutline t u where
  size := by rw [h.same.symbols]
  listed := h.same.listed
  literals := h.same.literals
  start := h.same.start
  eof := h.same.eof
  kind s := by rw [h.same.symbol]
  index s := by rw [h.same.symbol]
  root s := by rw [h.same.symbol]
  graph := h.graph

/-- A new set for a node that has one. -/
theorem redrawn_setKind {i : NodeId} {k : NodeKind}
    (hk : k.outline = (t.graph.kind i).outline) : Redrawn t (t.onGraph fun g => g.setKind i k) where
  same := ⟨rfl, by funext l; cases l <;> rfl, rfl, rfl, rfl⟩
  graph := by
    refine ⟨Graph.size_setKind .., fun j => ?_, fun j => Graph.next_setKind .., fun j =>
      Graph.up_setKind ..⟩
    rw [onGraph, Graph.kind_setKind]
    split
    · rename_i h
      rw [hk, h.1]
    · rfl

theorem redrawn_restrict (t : Table) (a : NodeId) (s : IndexSet) :
    Redrawn t (t.restrict a s) := by
  unfold restrict
  split
  · rename_i hk
    exact redrawn_setKind (by rw [hk]; rfl)
  · exact .refl t

/-- Without wildcards there is nothing to restrict. -/
theorem restrict_eq_self (ht : ∀ i set, t.graph.kind i ≠ .any set) (a : NodeId) (s : IndexSet) :
    t.restrict a s = t := by
  unfold restrict
  split
  · rename_i hk
    exact absurd hk (ht a _)
  · rfl

/-! ### The walk -/

/-- The walk goes through the content of an alternative and then restricts that alternative. -/
def restrictNext (fuel : Nat) (r : Table × IndexSet) (y : NodeId × Option NodeId) :
    Table × IndexSet :=
  ((restrictFrom fuel r.1 (some y.1)).value.restrictAlternative r.2 y.1 y.2).value

/-- What the walk does inside a node. -/
def restrictInside (fuel : Nat) (t : Table) (i : NodeId) : Table :=
  match t.graph.kind i with
  | .opt sub | .iter sub =>
    ((restrictFrom fuel t (some sub)).value.restrictLeading (some sub) (t.graph.next i)).value
  | .alt _ _ =>
    ((t.graph.alternatives i).foldl (restrictNext fuel) (t, .empty t.terminalCount)).1
  | _ => t

/-- What it does on behalf of what starts at `q`, behind the node. -/
def restrictBefore (t : Table) (i : NodeId) (q : Option NodeId) : Table :=
  if t.nodeDeletable i then (t.restrictLeading q (t.content i)).value else t

theorem value_restrictFrom_some (fuel : Nat) (t : Table) (i : NodeId) :
    (restrictFrom (fuel + 1) t (some i)).value =
      let u := (t.restrictInside fuel i).restrictBefore i (t.graph.next i)
      if (t.graph.node i).up then u else (restrictFrom fuel u (t.graph.next i)).value := by
  have hbehind (u : Table) : (if u.nodeDeletable i = true then do
        let v ← u.restrictLeading (t.node i).next (u.content i)
        if (t.node i).up = true then pure v else restrictFrom fuel v (t.node i).next
      else do
        let v ← pure u
        if (t.node i).up = true then pure v else restrictFrom fuel v (t.node i).next :
      Noted Table).value =
      if (t.graph.node i).up then u.restrictBefore i (t.graph.next i)
      else (restrictFrom fuel (u.restrictBefore i (t.graph.next i)) (t.graph.next i)).value := by
    unfold restrictBefore
    split <;> exact Noted.value_ite ..
  simp only [restrictFrom, restrictInside]
  split
  · rename_i hk
    rw [show t.graph.kind i = _ from hk]
    exact hbehind _
  · rename_i hk
    rw [show t.graph.kind i = _ from hk]
    exact hbehind _
  · rename_i hk
    rw [show t.graph.kind i = _ from hk, Noted.value_bind, Noted.value_foldlM]
    exact hbehind _
  · rename_i h₁ h₂ h₃
    cases hk : t.graph.kind i with
    | opt sub => exact (h₁ sub hk).elim
    | iter sub => exact (h₂ sub hk).elim
    | alt sub down => exact (h₃ sub down hk).elim
    | _ => exact hbehind t

/-! ### What all restrictions keep -/

section

variable {R : Table → Table → Prop} (hr : ∀ t, R t t) (ht : ∀ t u v, R t u → R u v → R t v)
  (hs : ∀ t a s, R t (t.restrict a s))
include hr hs

theorem restrictLeading_induct (t : Table) (p q : Option NodeId) :
    R t (t.restrictLeading p q).value := by
  unfold restrictLeading
  split
  · exact hs ..
  · exact hr t

theorem restrictAlternative_induct (t : Table) (others : IndexSet) (sub : NodeId)
    (down : Option NodeId) : R t (t.restrictAlternative others sub down).value.1 := by
  unfold restrictAlternative
  split
  · exact hs ..
  · exact hr t

theorem restrictBefore_induct (t : Table) (i : NodeId) (q : Option NodeId) :
    R t (t.restrictBefore i q) := by
  unfold restrictBefore
  split
  · exact restrictLeading_induct hr hs ..
  · exact hr t

include ht

theorem restrictInside_induct {fuel : Nat} (ih : ∀ t p, R t (restrictFrom fuel t p).value)
    (t : Table) (i : NodeId) : R t (t.restrictInside fuel i) := by
  have halt (l : List (NodeId × Option NodeId)) (q : Table × IndexSet) :
      R q.1 (l.foldl (restrictNext fuel) q).1 := by
    induction l generalizing q with
    | nil => exact hr _
    | cons a l ihl =>
      exact ht _ _ _ (ht _ _ _ (ih q.1 (some a.1)) (restrictAlternative_induct hr hs ..)) (ihl _)
  unfold restrictInside
  split
  · exact ht _ _ _ (ih t _) (restrictLeading_induct hr hs ..)
  · exact ht _ _ _ (ih t _) (restrictLeading_induct hr hs ..)
  · exact halt _ (t, .empty t.terminalCount)
  · exact hr t

theorem restrictFrom_induct (fuel : Nat) (t : Table) (p : Option NodeId) :
    R t (restrictFrom fuel t p).value := by
  induction fuel generalizing t p with
  | zero => exact hr t
  | succ fuel ih =>
    cases p with
    | none => exact hr t
    | some i =>
      have hnode := ht _ _ _ (restrictInside_induct hr ht hs ih t i)
        (restrictBefore_induct hr hs _ i (t.graph.next i))
      rw [value_restrictFrom_some]
      dsimp only
      split
      · exact hnode
      · exact ht _ _ _ hnode (ih _ _)

theorem computeWildcards_induct (t : Table) : R t t.computeWildcards.value := by
  unfold computeWildcards
  rw [Noted.value_foldlM]
  generalize t.nonterminals.toList = l
  induction l generalizing t with
  | nil => exact hr t
  | cons a l ih => exact ht _ _ _ (restrictFrom_induct hr ht hs ..) (ih _)

end

theorem redrawn_computeWildcards (t : Table) : Redrawn t t.computeWildcards.value :=
  computeWildcards_induct .refl (fun _ _ _ => .trans) redrawn_restrict t

theorem computeWildcards_eq_self (h : ∀ i set, t.graph.kind i ≠ .any set) :
    t.computeWildcards.value = t := by
  refine (computeWildcards_induct
    (R := fun t u => (∀ i set, t.graph.kind i ≠ .any set) → u = t)
    (fun _ _ => rfl) (fun t u v h h' ht => ?_) (fun t a s ht => restrict_eq_self ht a s) t) h
  have hu := h ht
  subst hu
  exact h' ht

end Table

end Lookahead
