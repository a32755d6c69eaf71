import Lookahead.Proofs.Unplaced

/-!
# The sets of tables without places

No set depends on where symbols and nodes stand. The readers of the analysis see the same in what
is left of a table without places, and its passes change that in the same way, so the sets computed
from it are those of the table (`Table.unplaced_computeSets`).
-/

namespace Lookahead.Table

variable (t : Table) (a b root : SymbolId) (i : NodeId) (p q : Option NodeId) (m : IndexSet)
  (fuel : Nat)

/-! ### Deletable nonterminals -/

theorem unplaced_markDeletable : (t.markDeletable a).unplaced = t.unplaced.markDeletable a := by
  simp only [markDeletable, symbol_unplaced, Symbol.deletable_unplaced, Symbol.root_unplaced,
    restDeletable_unplaced]
  split
  · exact t.unplaced_modifySymbol a fun _ => rfl
  · rfl

theorem unplaced_deletableRound : t.deletableRound.unplaced = t.unplaced.deletableRound :=
  t.unplaced_foldl unplaced_markDeletable _

theorem deletableCount_unplaced : t.unplaced.deletableCount = t.deletableCount := by
  rw [deletableCount, nonterminalSymbols_unplaced, List.countP_map]
  rfl

theorem unplaced_closeDeletable :
    (closeDeletable fuel t).unplaced = closeDeletable fuel t.unplaced := by
  induction fuel generalizing t with
  | zero => rfl
  | succ fuel ih =>
    simp only [closeDeletable, ← unplaced_deletableRound, deletableCount_unplaced]
    split
    · rfl
    · exact ih _

theorem unplaced_computeDeletable :
    t.computeDeletable.value.unplaced = t.unplaced.computeDeletable.value :=
  t.unplaced_closeDeletable _

/-! ### First sets -/

@[simp] theorem firstFrom_unplaced : t.unplaced.firstFrom fuel p m = t.firstFrom fuel p m := by
  induction fuel generalizing p m with
  | zero => rfl
  | succ fuel ih =>
    cases p with
    | none => rfl
    | some i => simp [firstFrom, ih]

@[simp] theorem firstSet_unplaced : t.unplaced.firstSet p = t.firstSet p := by
  simp [firstSet]

theorem unplaced_resetFirst : t.resetFirst.unplaced = t.unplaced.resetFirst := by
  refine t.unplaced_foldl (fun t a => ?_) _
  exact t.unplaced_modifySymbol a fun _ => rfl

theorem unplaced_setFirst : (t.setFirst a).value.unplaced = (t.unplaced.setFirst a).value := by
  simp only [setFirst, Noted.value_bind, Noted.value_pure, value_first, symbol_unplaced,
    Symbol.root_unplaced, firstSet_unplaced]
  exact t.unplaced_modifySymbol a fun _ => rfl

theorem unplaced_computeFirst : t.computeFirst.value.unplaced = t.unplaced.computeFirst.value := by
  rw [computeFirst, computeFirst, Noted.value_foldlM, Noted.value_foldlM, ← unplaced_resetFirst]
  exact unplaced_foldl _ unplaced_setFirst _

@[simp] theorem value_expected_unplaced :
    (t.unplaced.expected p a).value = (t.expected p a).value := by
  simp [expected]

@[simp] theorem value_expectedUnresolved_unplaced :
    (t.unplaced.expectedUnresolved p a).value = (t.expectedUnresolved p a).value := by
  unfold expectedUnresolved
  rw [graph_unplaced, funext t.graph.kind_unplaced]
  split
  · rfl
  · exact t.value_expected_unplaced a p

/-! ### Wildcards -/

@[simp] theorem leadingWildcard_unplaced : t.unplaced.leadingWildcard p = t.leadingWildcard p := by
  have hfrom (fuel : Nat) (p : Option NodeId) :
      t.unplaced.leadingWildcardFrom fuel p = t.leadingWildcardFrom fuel p := by
    induction fuel generalizing p with
    | zero => rfl
    | succ fuel ih => cases p <;> simp [leadingWildcardFrom, ih]
  rw [leadingWildcard, hfrom, graph_unplaced, Graph.size_unplaced, leadingWildcard]

theorem unplaced_restrict : (t.restrict i m).unplaced = t.unplaced.restrict i m := by
  unfold restrict
  rw [graph_unplaced, Graph.kind_unplaced]
  split
  · exact t.unplaced_onGraph (t.graph.unplaced_setKind ..)
  · rfl

theorem unplaced_restrictLeading :
    (t.restrictLeading p q).value.unplaced = (t.unplaced.restrictLeading p q).value := by
  unfold restrictLeading
  rw [leadingWildcard_unplaced]
  split
  · simp [unplaced_restrict]
  · rfl

theorem unplaced_restrictAlternative (sub : NodeId) (down : Option NodeId) :
    (t.restrictAlternative m sub down).value.map unplaced id =
      (t.unplaced.restrictAlternative m sub down).value := by
  unfold restrictAlternative
  rw [leadingWildcard_unplaced]
  split <;> simp [unplaced_restrict]

theorem unplaced_restrictBefore :
    (t.restrictBefore i q).unplaced = t.unplaced.restrictBefore i q := by
  have hcontent : t.unplaced.content i = t.content i := by simp [content]
  unfold restrictBefore
  rw [nodeDeletable_unplaced, hcontent]
  split
  · exact t.unplaced_restrictLeading _ _
  · rfl

theorem unplaced_restrictFrom :
    (restrictFrom fuel t p).value.unplaced = (restrictFrom fuel t.unplaced p).value := by
  induction fuel generalizing t p with
  | zero => rfl
  | succ fuel ih =>
    cases p with
    | none => rfl
    | some i =>
      have hinside : (t.restrictInside fuel i).unplaced = t.unplaced.restrictInside fuel i := by
        unfold restrictInside
        rw [graph_unplaced, Graph.kind_unplaced, Graph.next_unplaced, Graph.alternatives_unplaced]
        cases t.graph.kind i with
        | opt sub | iter sub => exact (unplaced_restrictLeading ..).trans (by rw [ih])
        | alt sub down =>
          have hnext (r : Table × IndexSet) (c : NodeId × Option NodeId) :
              (restrictNext fuel r c).map unplaced id =
                restrictNext fuel (r.map unplaced id) c := by
            unfold restrictNext
            rw [unplaced_restrictAlternative, ih]
            rfl
          exact congrArg Prod.fst (unplaced_foldl_prod hnext _ _)
        | _ => rfl
      simp only [value_restrictFrom_some, graph_unplaced, Graph.next_unplaced, Graph.node_unplaced,
        Node.up_unplaced, ← hinside, ← unplaced_restrictBefore]
      split
      · rfl
      · exact ih ..

theorem unplaced_computeWildcards :
    t.computeWildcards.value.unplaced = t.unplaced.computeWildcards.value := by
  rw [computeWildcards, computeWildcards, Noted.value_foldlM, Noted.value_foldlM]
  refine unplaced_foldl _ (fun t a => ?_) _
  simp [restrictProduction, unplaced_restrictFrom]

/-! ### Follow sets -/

theorem unplaced_addFollow : (t.addFollow a b p).unplaced = t.unplaced.addFollow a b p := by
  have hfollow : (t.modifySymbol b fun s =>
      { s with follow := s.follow.union (t.firstSet p) }).unplaced =
      t.unplaced.modifySymbol b fun s => { s with follow := s.follow.union (t.firstSet p) } :=
    t.unplaced_modifySymbol b fun _ => rfl
  simp only [addFollow, firstSet_unplaced, ← hfollow, restDeletable_unplaced, symbol_unplaced,
    Symbol.index_unplaced]
  split
  · exact unplaced_modifySymbol _ b fun _ => rfl
  · rfl

theorem unplaced_followFrom :
    (followFrom a fuel (t, m) p).value.map unplaced id =
      (followFrom a fuel (t.unplaced, m) p).value := by
  induction fuel generalizing t m p with
  | zero => rfl
  | succ fuel ih =>
    cases p with
    | none => rfl
    | some i =>
      have hnode (m : IndexSet) : (followNode a fuel t i m).map unplaced id =
          followNode a fuel t.unplaced i m := by
        unfold followNode
        rw [graph_unplaced, Graph.kind_unplaced, Graph.next_unplaced]
        cases t.graph.kind i with
        | nonterminal b => exact Prod.ext (t.unplaced_addFollow ..) rfl
        | opt sub | iter sub => exact ih ..
        | alt sub down =>
          dsimp only
          rw [← ih]
          exact ih ..
        | _ => rfl
      rw [value_followFrom_some, value_followFrom_some, graph_unplaced, Graph.next_unplaced,
        ← hnode]
      split
      · rfl
      · exact ih ..

theorem unplaced_resetFollow : t.resetFollow.unplaced = t.unplaced.resetFollow := by
  have hfold := t.unplaced_foldl (f := fun u a => u.modifySymbol a fun s =>
      { s with follow := .empty t.terminalCount, followSources := .empty t.nonterminalCount })
    (g := fun u a => u.modifySymbol a fun s =>
      { s with follow := .empty t.terminalCount, followSources := .empty t.nonterminalCount })
    (fun t a => t.unplaced_modifySymbol a fun _ => rfl) t.nonterminals.toList
  unfold resetFollow
  simp only [start_unplaced, nonterminals_unplaced, terminalCount_unplaced,
    nonterminalCount_unplaced, symbol_unplaced, eof_unplaced, Symbol.index_unplaced, ← hfold]
  split
  · exact unplaced_modifySymbol _ _ fun _ => rfl
  · rfl

theorem unplaced_followProduction :
    (t.followProduction a).value.unplaced = (t.unplaced.followProduction a).value := by
  have hfrom := t.unplaced_followFrom a (t.symbol a).root (.empty t.graph.size) (t.graph.size + 1)
  simp only [followProduction, Noted.value_bind, Noted.value_pure, symbol_unplaced,
    Symbol.root_unplaced, graph_unplaced, Graph.size_unplaced, ← hfrom]
  rfl

theorem unplaced_absorb (j : Nat) :
    (absorb root a t b j).unplaced = absorb root a t.unplaced b j := by
  unfold absorb
  rw [symbol_unplaced]
  exact t.unplaced_modifySymbol a fun _ => rfl

theorem unplaced_completeFrom (r : Table × IndexSet) :
    (completeFrom root fuel r a).map unplaced id =
      completeFrom root fuel (r.map unplaced id) a := by
  induction fuel generalizing r a with
  | zero => rfl
  | succ fuel ih =>
    have hstep (r : Table × IndexSet) (b : SymbolId) :
        (completeStep root fuel a r b).map unplaced id =
          completeStep root fuel a (r.map unplaced id) b := by
      simp only [completeStep, Prod.map_fst, symbol_unplaced, Symbol.followSources_unplaced,
        Symbol.index_unplaced, ← ih]
      split
      · exact Prod.ext (unplaced_absorb ..) rfl
      · rfl
    obtain ⟨t, m⟩ := r
    simp only [Prod.map_apply, id_eq, completeFrom_succ, symbol_unplaced, Symbol.index_unplaced]
    split
    · rfl
    · exact unplaced_foldl_prod hstep _ _

theorem unplaced_completeFollow : (t.completeFollow a).unplaced = t.unplaced.completeFollow a :=
  congrArg Prod.fst (unplaced_completeFrom a a _ (t, _))

theorem unplaced_computeFollow :
    t.computeFollow.value.unplaced = t.unplaced.computeFollow.value := by
  have hdirect : t.directFollow.unplaced = t.unplaced.directFollow := by
    rw [directFollow, directFollow, Noted.value_foldlM, Noted.value_foldlM, ← unplaced_resetFollow]
    exact unplaced_foldl _ unplaced_followProduction _
  rw [value_computeFollow, value_computeFollow, ← hdirect]
  exact unplaced_foldl _ unplaced_completeFollow _

/-! ### Synchronisation sets -/

theorem unplaced_fillSync : (t.fillSync a i).unplaced = t.unplaced.fillSync a i := by
  have hset : t.unplaced.syncSet a i = t.syncSet a i := by simp [syncSet]
  unfold fillSync
  rw [hset]
  exact unplaced_onGraph _ (Graph.unplaced_setKind ..)

theorem unplaced_syncFrom :
    (syncFrom a fuel (t, m) p).value.map unplaced id =
      (syncFrom a fuel (t.unplaced, m) p).value := by
  induction fuel generalizing t m p with
  | zero => rfl
  | succ fuel ih =>
    cases p with
    | none => rfl
    | some i =>
      have hnode (m : IndexSet) : (syncNode a fuel t i m).map unplaced id =
          syncNode a fuel t.unplaced i m := by
        unfold syncNode
        rw [graph_unplaced, Graph.kind_unplaced]
        cases t.graph.kind i with
        | sync x => exact Prod.ext (t.unplaced_fillSync ..) rfl
        | opt sub | iter sub => exact ih ..
        | alt sub down =>
          dsimp only
          rw [← ih]
          exact ih ..
        | _ => rfl
      rw [value_syncFrom_some, value_syncFrom_some, graph_unplaced, Graph.next_unplaced, ← hnode]
      split
      · rfl
      · exact ih ..

theorem unplaced_syncProduction :
    (t.syncProduction a).value.unplaced = (t.unplaced.syncProduction a).value := by
  have hfrom := t.unplaced_syncFrom a (t.symbol a).root (.empty t.graph.size) (t.graph.size + 1)
  simp only [syncProduction, Noted.value_bind, Noted.value_pure, symbol_unplaced,
    Symbol.root_unplaced, graph_unplaced, Graph.size_unplaced, ← hfrom]
  rfl

theorem unplaced_computeSyncs : t.computeSyncs.value.unplaced = t.unplaced.computeSyncs.value := by
  simp only [computeSyncs, Noted.value_foldlM]
  refine (unplaced_foldl (g := fun t a => (t.syncProduction a).value) _ unplaced_syncProduction
    _).trans ?_
  rw [symbol_unplaced]
  rfl

/-! ### All sets -/

/-- The sets are those of the table without places. -/
theorem unplaced_computeSets : t.computeSets.value.unplaced = t.unplaced.computeSets.value := by
  simp only [computeSets, Noted.value_bind, Noted.value_pure, unplaced_computeSyncs,
    unplaced_computeFollow, unplaced_computeWildcards, unplaced_computeFirst,
    unplaced_computeDeletable]

end Lookahead.Table
