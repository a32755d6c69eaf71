import Lookahead.Proofs.Reduced
import Lookahead.Proofs.UnplacedSets

/-!
# Checks of tables without places

Two computations match if they report the same in the same order, wherever it was found, and their
values are related (`Noted.Matches`). The checks look at places only to tell where a misplaced
resolver stands. So the analysis of a table matches that of what is left of it without places
(`Table.matches_analyze`).
-/

namespace Lookahead

/-- The values are related, and what is reported is the same but for places. -/
structure Noted.Matches {α β : Type} (R : α → β → Prop) (x : Noted α) (y : Noted β) : Prop where
  value : R x.value y.value
  reports : y.reports.map Diagnostic.unplaced = x.reports.map Diagnostic.unplaced

namespace Noted.Matches

variable {α β γ δ ε ζ : Type} {R : α → β → Prop} {Q : γ → δ → Prop} {x : Noted α} {y : Noted β}

theorem pure {a : α} {b : β} (h : R a b) : Matches R (Pure.pure a) (Pure.pure b) := ⟨h, rfl⟩

theorem bind {f : α → Noted γ} {g : β → Noted δ} (h : Matches R x y)
    (hf : ∀ a b, R a b → Matches Q (f a) (g b)) : Matches Q (x >>= f) (y >>= g) := by
  have hv := hf _ _ h.value
  refine ⟨hv.value, ?_⟩
  rw [reports_bind, reports_bind, List.map_append, List.map_append, h.reports, hv.reports]

theorem foldlM {P : ε → ζ → Prop} {f : α → ε → Noted α} {g : β → ζ → Noted β} {l : List ε}
    {m : List ζ} (hl : List.Forall₂ P l m)
    (hf : ∀ a b e z, R a b → P e z → Matches R (f a e) (g b z)) {a : α} {b : β} (hab : R a b) :
    Matches R (l.foldlM f a) (m.foldlM g b) := by
  induction hl generalizing a b with
  | nil => exact .pure hab
  | cons hez _ ih => exact .bind (hf a b _ _ hab hez) fun a b hab => ih hab

theorem ite {c : Prop} [Decidable c] {x' : Noted α} {y' : Noted β} (h : Matches R x y)
    (h' : Matches R x' y') : Matches R (if c then x else x') (if c then y else y') := by
  split
  · exact h
  · exact h'

/-- Computations that match the same one match. -/
theorem join {z : Noted γ} {P : α → γ → Prop} {Q : β → γ → Prop} (hx : Matches P x z)
    (hy : Matches Q y z) (h : ∀ a b c, P a c → Q b c → R a b) : Matches R x y :=
  ⟨h _ _ _ hx.value hy.value, hy.reports.symm.trans hx.reports⟩

theorem echoes (h : Matches R x y) : Echoes R x y := ⟨h.value, .of_eq h.reports⟩

theorem failed_eq (h : Matches R x y) : y.failed = x.failed := h.echoes.failed_eq

end Noted.Matches

namespace Noted.Matches

variable {α β γ : Type} {x y : Noted α} {f g : α → Noted β}

/-! Computations with the same value -/

theorem bind_eq {Q : β → γ → Prop} {g : α → Noted γ} (h : Matches Eq x y)
    (hf : ∀ a, Matches Q (f a) (g a)) : Matches Q (x >>= f) (y >>= g) :=
  .bind h fun a _ hab => hab ▸ hf a

/-- A step that is only taken under some condition. -/
theorem when {δ ε : Type} {R : δ → ε → Prop} {v : Noted δ} {w : Noted ε} {c : Prop} [Decidable c]
    (h : Matches Eq x y) (hR : Matches R v w) :
    Matches R (if c then x >>= fun _ => v else v) (if c then y >>= fun _ => w else w) :=
  .ite (.bind_eq h fun _ => hR) hR

theorem foldlM_eq {f g : β → α → Noted β} (h : ∀ b a, Matches Eq (f b a) (g b a)) (l : List α)
    (b : β) : Matches Eq (l.foldlM f b) (l.foldlM g b) :=
  foldlM (P := Eq) (List.forall₂_refl l) (fun b _ a _ hb ha => hb ▸ ha ▸ h b a) rfl

theorem forM {f g : α → Noted PUnit} (h : ∀ a, Matches Eq (f a) (g a)) (l : List α) :
    Matches Eq (l.forM f) (l.forM g) := by
  refine ⟨rfl, ?_⟩
  rw [reports_forM, reports_forM, List.map_flatMap, List.map_flatMap]
  exact congrArg l.flatMap (funext fun a => (h a).reports)

end Noted.Matches

namespace Table

open Noted

variable (t : Table) (a : SymbolId) (i : NodeId) (p q : Option NodeId) (m : IndexSet) (fuel : Nat)

theorem matches_computeDeletable :
    Matches (fun t u => u = t.unplaced) t.computeDeletable t.unplaced.computeDeletable := by
  refine ⟨t.unplaced_computeDeletable.symm, ?_⟩
  rw [reports_computeDeletable, reports_computeDeletable, ← unplaced_computeDeletable,
    nonterminalSymbols_unplaced, List.filter_map, List.map_map, List.map_map, List.map_map]
  rfl

/-! ### Structure -/

/-- A test that has nothing to do with places. -/
theorem matches_reportUnless {f g : Symbol → Bool} (h : ∀ s, g s.unplaced = f s)
    (cause : String → Cause) :
    Matches Eq (t.reportUnless f cause) (t.unplaced.reportUnless g cause) := by
  have hbad : t.unplaced.nonterminalSymbols.filter (fun s => !g s) =
      (t.nonterminalSymbols.filter fun s => !f s).map Symbol.unplaced := by
    rw [nonterminalSymbols_unplaced, List.filter_map]
    congr 2
    exact funext fun s => congrArg (!·) (h s)
  refine ⟨?_, ?_⟩
  · simp only [reportUnless, hbad, List.isEmpty_map]
  · rw [reports_reportUnless, reports_reportUnless, hbad, List.map_map, List.map_map, List.map_map]
    rfl

theorem reached_unplaced : t.unplaced.reached = t.reached := by
  have hfrom (fuel : Nat) (p : Option NodeId) (m : IndexSet) :
      t.unplaced.reachFrom fuel p m = t.reachFrom fuel p m := by
    induction fuel generalizing p m with
    | zero => rfl
    | succ fuel ih => cases p <;> simp [reachFrom, ih]
  simp [reached, hfrom]

theorem circularSteps_unplaced : t.unplaced.circularSteps = t.circularSteps := by
  have hfrom (fuel : Nat) (p : Option NodeId) :
      t.unplaced.singlesFrom fuel p = t.singlesFrom fuel p := by
    induction fuel generalizing p with
    | zero => rfl
    | succ fuel ih => cases p <;> simp [singlesFrom, ih]
  simp [circularSteps, singleSteps, singles, hfrom]

theorem matches_checkNotCircular :
    Matches Eq t.checkNotCircular t.unplaced.checkNotCircular := by
  refine ⟨?_, ?_⟩
  · simp only [checkNotCircular, circularSteps_unplaced]
  · simp [reports_checkNotCircular, circularSteps_unplaced]

theorem terminating_unplaced : t.unplaced.terminating = t.terminating := by
  have hfrom (m : IndexSet) (fuel : Nat) (p : Option NodeId) :
      t.unplaced.terminatesFrom m fuel p = t.terminatesFrom m fuel p := by
    induction fuel generalizing p with
    | zero => rfl
    | succ fuel ih => cases p <;> simp [terminatesFrom, ih]
  have hround (m : IndexSet) : t.unplaced.nonterminalSymbols.foldl t.unplaced.markTerminating m =
      t.nonterminalSymbols.foldl t.markTerminating m := by
    rw [nonterminalSymbols_unplaced, List.foldl_map]
    congr 1
    funext m s
    simp [markTerminating, hfrom]
  have hclose (fuel : Nat) (m : IndexSet) :
      t.unplaced.closeTerminating fuel m = t.closeTerminating fuel m := by
    induction fuel generalizing m with
    | zero => rfl
    | succ fuel ih => simp only [closeTerminating, hround, ih]
  rw [terminating, hclose]
  rfl

theorem matches_checkComplete : Matches Eq t.checkComplete t.unplaced.checkComplete :=
  t.matches_reportUnless (f := fun s => s.root.isSome) (fun _ => rfl) _

theorem matches_checkReached : Matches Eq t.checkReached t.unplaced.checkReached := by
  refine t.matches_reportUnless (fun s => ?_) _
  rw [reached_unplaced, Symbol.index_unplaced]

theorem matches_checkTerminating : Matches Eq t.checkTerminating t.unplaced.checkTerminating := by
  refine t.matches_reportUnless (fun s => ?_) _
  rw [terminating_unplaced, Symbol.index_unplaced]

theorem matches_checkStructure : Matches Eq t.checkStructure t.unplaced.checkStructure := by
  have hfalse : Matches Eq (pure false) (pure false : Noted Bool) := .pure rfl
  refine .bind_eq t.matches_checkComplete fun complete => ?_
  split
  · refine .bind_eq t.matches_checkReached fun reached => ?_
    split
    · refine .bind_eq t.matches_checkNotCircular fun plain => ?_
      split
      · exact t.matches_checkTerminating
      · exact hfalse
    · exact hfalse
  · exact hfalse

/-! ### Choices -/

theorem matches_expected : Matches Eq (t.expected p a) (t.unplaced.expected p a) :=
  ⟨(t.value_expected_unplaced a p).symm, rfl⟩

theorem matches_expectedUnresolved :
    Matches Eq (t.expectedUnresolved p a) (t.unplaced.expectedUnresolved p a) :=
  ⟨(t.value_expectedUnresolved_unplaced a p).symm, by simp⟩

theorem conflict_unplaced (b : Option SymbolId) (k : Conflict) :
    t.unplaced.conflict a b k = t.conflict a b k := by
  simp [conflict]

theorem reportOverlap_unplaced (k : Conflict) (r s : IndexSet) :
    t.unplaced.reportOverlap a k r s = t.reportOverlap a k r s := by
  simp [reportOverlap, conflict_unplaced]

/-- The rest of a group is gone through unless the node ends it. -/
theorem matches_behind {f g : Option NodeId → Noted Unit} (h : ∀ p, Matches Eq (f p) (g p)) :
    Matches Eq (if (t.node i).up then pure () else f (t.node i).next)
      (if (t.node i).up then pure () else g (t.node i).next) := by
  split
  · exact .pure rfl
  · exact h _

theorem matches_conflictsFrom :
    Matches Eq (t.conflictsFrom a fuel p) (t.unplaced.conflictsFrom a fuel p) := by
  induction fuel generalizing p with
  | zero => exact .pure rfl
  | succ fuel ih =>
    cases p with
    | none => exact .pure rfl
    | some i =>
      have hrest := t.matches_behind i (f := t.conflictsFrom a fuel)
        (g := t.unplaced.conflictsFrom a fuel) ih
      simp only [conflictsFrom, node_unplaced, Node.kind_unplaced, Node.next_unplaced,
        Node.up_unplaced, graph_unplaced, Graph.alternatives_unplaced, terminalCount_unplaced,
        groupDeletable_unplaced, conflict_unplaced, reportOverlap_unplaced]
      cases (t.node i).kind with
      | alt sub down =>
        refine .bind_eq (.foldlM_eq (fun before b => ?_) _ _) fun _ => hrest
        exact .bind_eq (t.matches_expectedUnresolved ..) fun s => .bind_eq ⟨rfl, rfl⟩ fun _ =>
          .bind_eq (ih _) fun _ => .pure rfl
      | opt sub | iter sub =>
        dsimp only
        split
        · exact .bind_eq ⟨rfl, rfl⟩ fun _ => .bind_eq (ih _) fun _ => hrest
        · exact .bind_eq (t.matches_expectedUnresolved ..) fun r =>
            .bind_eq (t.matches_expected ..) fun s => .bind_eq ⟨rfl, rfl⟩ fun _ =>
            .bind_eq (ih _) fun _ => hrest
      | any set =>
        dsimp only
        split
        · exact .bind_eq ⟨rfl, rfl⟩ fun _ => hrest
        · exact hrest
      | _ => exact hrest

theorem matches_warning (c : Cause) (l l' : Option Location) :
    Matches Eq (Noted.warning c l) (Noted.warning c l') := ⟨rfl, rfl⟩

theorem matches_reportUseless (n n' : Node) (c : Bool) :
    Matches Eq (reportUseless n c) (reportUseless n' c) := by
  unfold reportUseless
  split
  · exact .pure rfl
  · exact matches_warning ..

theorem matches_checkAlternative (all before : IndexSet) (sub : NodeId) :
    Matches Eq (t.checkAlternative a all before sub)
      (t.unplaced.checkAlternative a all before sub) := by
  simp only [checkAlternative, node_unplaced, Node.kind_unplaced, Node.next_unplaced]
  cases (t.node sub).kind with
  | resolver =>
    refine .bind_eq (t.matches_expected ..) fun s => ?_
    split
    · exact .bind_eq (matches_warning ..) fun _ =>
        .bind_eq (matches_reportUseless ..) fun _ => .pure rfl
    · exact .bind_eq (matches_reportUseless ..) fun _ => .pure rfl
  | _ => exact .bind_eq (t.matches_expected ..) fun s => .pure rfl

theorem matches_checkContent (sub : NodeId) (next : Option NodeId) :
    Matches Eq (t.checkContent a sub next) (t.unplaced.checkContent a sub next) := by
  simp only [checkContent, node_unplaced, Node.kind_unplaced, Node.next_unplaced]
  cases (t.node sub).kind with
  | resolver =>
    refine .bind_eq ⟨(t.firstSet_unplaced _).symm, rfl⟩ fun r => ?_
    exact .bind_eq (t.matches_expected ..) fun s => matches_reportUseless ..
  | _ => exact .pure rfl

theorem matches_resolversFrom (atChoice : Bool) :
    Matches Eq (t.resolversFrom a fuel atChoice p)
      (t.unplaced.resolversFrom a fuel atChoice p) := by
  induction fuel generalizing p atChoice with
  | zero => exact .pure rfl
  | succ fuel ih =>
    cases p with
    | none => exact .pure rfl
    | some i =>
      have hrest := t.matches_behind i (f := t.resolversFrom a fuel false)
        (g := t.unplaced.resolversFrom a fuel false) fun p => ih p false
      simp only [resolversFrom, node_unplaced, Node.kind_unplaced, Node.next_unplaced,
        Node.up_unplaced, graph_unplaced, Graph.alternatives_unplaced, terminalCount_unplaced]
      cases (t.node i).kind with
      | alt sub down =>
        refine .bind_eq (.foldlM_eq (fun r sub => ?_) _ _) fun all => ?_
        · exact .bind_eq (t.matches_expectedUnresolved ..) fun s => .pure rfl
        refine .bind_eq (.foldlM_eq (fun before sub => ?_) _ _) fun _ => hrest
        exact .bind_eq (t.matches_checkAlternative ..) fun before =>
          .bind_eq (ih ..) fun _ => .pure rfl
      | opt sub | iter sub =>
        exact .bind_eq (t.matches_checkContent ..) fun _ => .bind_eq (ih ..) fun _ => hrest
      | resolver =>
        dsimp only
        split
        · exact .bind_eq ⟨rfl, rfl⟩ fun _ => hrest
        · exact hrest
      | _ => exact hrest

theorem matches_checkChoices : Matches Eq t.checkChoices t.unplaced.checkChoices := by
  have hmatches : Matches Eq (t.checkResolvers >>= fun _ => t.checkConflicts)
      (t.unplaced.checkResolvers >>= fun _ => t.unplaced.checkConflicts) := by
    refine .bind_eq (.forM (fun a => ?_) _) fun _ => .forM (fun a => ?_) _
    · rw [symbol_unplaced, graph_unplaced, Graph.size_unplaced]
      exact t.matches_resolversFrom ..
    · rw [symbol_unplaced, graph_unplaced, Graph.size_unplaced]
      exact t.matches_conflictsFrom ..
  exact ⟨congrArg (!·) hmatches.failed_eq.symm, hmatches.reports⟩

/-! ### The analysis -/

theorem matches_check : Matches Eq t.check t.unplaced.check := by
  refine .bind_eq t.matches_checkStructure fun ok => ?_
  split
  · exact t.matches_checkChoices
  · exact .pure rfl

/-- The analysis of a table without places comes to the same verdict, the same sets and the same
reports. -/
theorem matches_analyze (faulty : Bool) : Matches (fun r s => s = r.map unplaced id)
    (t.analyze faulty) (t.unplaced.analyze faulty) := by
  have hcheck := t.computeSets.value.matches_check
  rw [unplaced_computeSets] at hcheck
  refine ⟨?_, ?_⟩
  · rw [value_analyze, value_analyze]
    split
    · rfl
    · rw [Prod.map_apply, unplaced_computeSets, hcheck.value, id_eq]
  · rw [reports_analyze, reports_analyze]
    split
    · rfl
    · rw [List.map_append, List.map_append, t.matches_computeDeletable.reports, hcheck.reports]

end Table

end Lookahead
