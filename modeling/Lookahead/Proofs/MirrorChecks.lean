import Lookahead.Proofs.Circular
import Lookahead.Proofs.Conflicts
import Lookahead.Proofs.MirrorSets
import Lookahead.Proofs.Recording
import Lookahead.Proofs.Terminating

/-!
# Checks of tables that mirror each other

Two computations echo each other if they report the same, in any order and wherever it was found
(`Noted.Echoes`). The checks of tables that mirror each other do, and come to the same verdict
(`Table.Mirrors.echoes_check`).
-/

namespace Lookahead

/-- The diagnostic without the place where it was found. -/
def Diagnostic.unplaced (d : Diagnostic) : Diagnostic := { d with location := none }

namespace Log

/-- Where something was found does not decide whether it is shown. -/
theorem map_shown (cfg : Config) (l : List Diagnostic) :
    (shown cfg l).map Diagnostic.unplaced = shown cfg (l.map Diagnostic.unplaced) := by
  rw [shown, shown, List.filter_map]
  rfl

theorem errorCount_eq (log : Log) : log.errorCount =
    (log.reports.toList.map Diagnostic.unplaced).countP Diagnostic.isError := by
  rw [errorCount, ← Array.countP_toList, List.countP_map]
  rfl

end Log

/-- The values are related, and what is reported is the same but for order and places. -/
structure Noted.Echoes {α β : Type} (R : α → β → Prop) (x : Noted α) (y : Noted β) : Prop where
  value : R x.value y.value
  reports : (y.reports.map Diagnostic.unplaced).Perm (x.reports.map Diagnostic.unplaced)

/-- Lists whose elements correspond one to one give the same but for the order. -/
theorem perm_flatMap_of_biUnique {α β γ : Type} {R : α → β → Prop} (hR : Relator.BiUnique R)
    {f : α → List γ} {g : β → List γ} {l : List α} {m : List β} (hl : l.Nodup) (hm : m.Nodup)
    (hleft : ∀ x ∈ l, ∃ y ∈ m, R x y) (hright : ∀ y ∈ m, ∃ x ∈ l, R x y)
    (h : ∀ x ∈ l, ∀ y ∈ m, R x y → (g y).Perm (f x)) : (m.flatMap g).Perm (l.flatMap f) := by
  induction l generalizing m with
  | nil =>
    obtain rfl : m = [] := List.eq_nil_iff_forall_not_mem.mpr fun y hy => by
      obtain ⟨x, hx, -⟩ := hright y hy
      cases hx
    exact .nil
  | cons x l ih =>
    obtain ⟨y, hy, hxy⟩ := hleft x (by simp)
    obtain ⟨m₁, m₂, rfl⟩ := List.append_of_mem hy
    have hperm : (m₁ ++ y :: m₂).Perm (y :: (m₁ ++ m₂)) := List.perm_middle
    obtain ⟨hxl, hl⟩ := List.nodup_cons.mp hl
    obtain ⟨hym, hm⟩ := List.nodup_cons.mp (hperm.nodup_iff.mp hm)
    have hsub {z : β} (hz : z ∈ m₁ ++ m₂) : z ∈ m₁ ++ y :: m₂ := by
      simp only [List.mem_append, List.mem_cons] at hz ⊢
      tauto
    refine (hperm.flatMap_right g).trans (.append (h x (by simp) y hy hxy) (ih hl hm ?_ ?_ ?_))
    · intro z hz
      obtain ⟨w, hw, hzw⟩ := hleft z (List.mem_cons_of_mem x hz)
      rcases List.mem_cons.mp (hperm.mem_iff.mp hw) with rfl | hw
      · exact absurd (hR.1 hzw hxy ▸ hz) hxl
      · exact ⟨w, hw, hzw⟩
    · intro w hw
      obtain ⟨z, hz, hzw⟩ := hright w (hsub hw)
      rcases List.mem_cons.mp hz with rfl | hz
      · exact absurd (hR.2 hzw hxy ▸ hw) hym
      · exact ⟨z, hz, hzw⟩
    · exact fun z hz w hw => h z (List.mem_cons_of_mem x hz) w (hsub hw)

theorem perm_map_of_biUnique {α β γ : Type} {R : α → β → Prop} (hR : Relator.BiUnique R)
    {f : α → γ} {g : β → γ} {l : List α} {m : List β} (hl : l.Nodup) (hm : m.Nodup)
    (hleft : ∀ x ∈ l, ∃ y ∈ m, R x y) (hright : ∀ y ∈ m, ∃ x ∈ l, R x y)
    (h : ∀ x ∈ l, ∀ y ∈ m, R x y → g y = f x) : (m.map g).Perm (l.map f) := by
  rw [List.map_eq_flatMap, List.map_eq_flatMap]
  exact perm_flatMap_of_biUnique hR hl hm hleft hright fun x hx y hy hxy => by rw [h x hx y hy hxy]

namespace Noted.Echoes

variable {α β γ δ ε ζ : Type} {R : α → β → Prop} {Q : γ → δ → Prop} {x : Noted α} {y : Noted β}

theorem pure {a : α} {b : β} (h : R a b) : Echoes R (Pure.pure a) (Pure.pure b) := ⟨h, .nil⟩

theorem bind {f : α → Noted γ} {g : β → Noted δ} (h : Echoes R x y)
    (hf : ∀ a b, R a b → Echoes Q (f a) (g b)) : Echoes Q (x >>= f) (y >>= g) := by
  have hv := hf _ _ h.value
  refine ⟨hv.value, ?_⟩
  rw [reports_bind, reports_bind, List.map_append, List.map_append]
  exact h.reports.append hv.reports

/-- Computations that report nothing. -/
theorem silent (h : R x.value y.value) (hx : x.reports = []) (hy : y.reports = []) :
    Echoes R x y :=
  ⟨h, by rw [hx, hy]⟩

theorem foldlM {P : ε → ζ → Prop} {f : α → ε → Noted α} {g : β → ζ → Noted β} {l : List ε}
    {m : List ζ} (hl : List.Forall₂ P l m)
    (hf : ∀ a b e z, R a b → P e z → Echoes R (f a e) (g b z)) {a : α} {b : β} (hab : R a b) :
    Echoes R (l.foldlM f a) (m.foldlM g b) := by
  induction hl generalizing a b with
  | nil => exact .pure hab
  | cons hez _ ih => exact .bind (hf a b _ _ hab hez) fun a b hab => ih hab

/-- Computations that come to their verdict by what they report. -/
theorem of_isEmpty {x y : Noted Bool} (h : y.reports.Perm x.reports)
    (hx : x.value = x.reports.isEmpty) (hy : y.value = y.reports.isEmpty) : Echoes (· = ·) x y :=
  ⟨by rw [hx, hy, h.isEmpty_eq], h.map _⟩

theorem failed_eq (h : Echoes R x y) : y.failed = x.failed := by
  have hany (l : List Diagnostic) :
      l.any Diagnostic.isError = (l.map Diagnostic.unplaced).any Diagnostic.isError := by
    rw [List.any_map]
    rfl
  rw [Noted.failed_eq, Noted.failed_eq, hany, hany x.reports, h.reports.any_eq]

end Noted.Echoes

section

open Relation

variable {α β : Type} {R : α → β → Prop} {r : α → α → Prop} {r' : β → β → Prop} {a c : α} {b d : β}

theorem exists_reflTransGen (hr : ∀ a b c, R a b → r a c → ∃ d, R c d ∧ r' b d) (hab : R a b)
    (h : ReflTransGen r a c) : ∃ d, R c d ∧ ReflTransGen r' b d := by
  induction h with
  | refl => exact ⟨b, hab, .refl⟩
  | tail _ hstep ih =>
    obtain ⟨d, hd, hbd⟩ := ih
    obtain ⟨e, he, hde⟩ := hr _ _ _ hd hstep
    exact ⟨e, he, hbd.tail hde⟩

/-- Where steps have counterparts, what lies between cycles does. -/
theorem Suspended.transfer (hR : Relator.BiUnique R)
    (hr : ∀ a b c, R a b → r a c → ∃ d, R c d ∧ r' b d) (hex : ∀ x y, r x y → ∃ z, R y z)
    (hab : R a b) (hcd : R c d) (h : Suspended r a c) : Suspended r' b d := by
  have hstar {a c : α} {b d : β} (hab : R a b) (hcd : R c d) (h : ReflTransGen r a c) :
      ReflTransGen r' b d := by
    obtain ⟨e, hce, hbe⟩ := exists_reflTransGen hr hab h
    exact hR.2 hcd hce ▸ hbe
  have hcycle {a : α} (h : TransGen r a a) : ∃ b, R a b ∧ TransGen r' b b := by
    obtain ⟨e, -, hea⟩ := TransGen.tail'_iff.mp h
    obtain ⟨b, hab⟩ := hex _ _ hea
    obtain ⟨e, hae, hea⟩ := TransGen.head'_iff.mp h
    obtain ⟨f, hef, hbf⟩ := hr _ _ _ hab hae
    exact ⟨b, hab, .head' hbf (hstar hef hab hea)⟩
  obtain ⟨hac, ⟨x, hx, hxa⟩, y, hy, hcy⟩ := h
  obtain ⟨e, hce, hbe⟩ := hr _ _ _ hab hac
  obtain ⟨z, hxz, hz⟩ := hcycle hx
  obtain ⟨w, hyw, hw⟩ := hcycle hy
  exact ⟨hR.2 hcd hce ▸ hbe, ⟨z, hz, hstar hxz hab hxa⟩, w, hw, hstar hcd hyw hcy⟩

end

namespace Table

open Noted

variable {S : SymbolId → SymbolId → Prop} {N : NodeId → NodeId → Prop} {t u : Table}
  {a b : SymbolId} {i j : NodeId} {p q : Option NodeId} {x y x' y' : IndexSet} {fuel : Nat}

theorem Mirrors.alternatives (h : Mirrors S N t u) (hij : N i j) :
    List.Forall₂ (fun x y => N x.1 y.1 ∧ Option.Rel N x.2 y.2) (t.graph.alternatives i)
      (u.graph.alternatives j) := by
  have hfrom (fuel : Nat) {i j : NodeId} (hij : N i j) :
      List.Forall₂ (fun x y => N x.1 y.1 ∧ Option.Rel N x.2 y.2) (t.graph.alternativesFrom fuel i)
        (u.graph.alternativesFrom fuel j) := by
    induction fuel generalizing i j with
    | zero => exact .nil
    | succ fuel ih =>
      have hlike := h.node i j hij
      simp only [Graph.alternativesFrom]
      generalize t.graph.kind i = k at hlike
      generalize u.graph.kind j = l at hlike
      cases hlike with
      | alt hs hd =>
        cases hd with
        | none => exact .cons ⟨hs, .none⟩ .nil
        | some hd => exact .cons ⟨hs, .some hd⟩ (ih hd)
      | _ => exact .nil
  rw [Graph.alternatives, Graph.alternatives, h.size]
  exact hfrom _ hij

/-! ### Conflicts -/

/-- Lists of symbols of one kind correspond. -/
theorem Mirrors.perm_flatMap_listed (h : Mirrors S N t u) (ht : Registered t) (hu : Registered u)
    {k : SymbolKind} (hk : k ≠ .pragma) {γ : Type} {f g : SymbolId → List γ}
    {P Q : SymbolId → Bool} (hPQ : ∀ a b, S a b → a ∈ t.listed k → Q b = P a)
    (hfg : ∀ a b, S a b → a ∈ t.listed k → (g b).Perm (f a)) :
    (((u.listed k).toList.filter Q).flatMap g).Perm
      (((t.listed k).toList.filter P).flatMap f) := by
  refine perm_flatMap_of_biUnique h.unique ((ht.nodup_listed hk).filter P)
    ((hu.nodup_listed hk).filter Q) (fun a ha => ?_) (fun b hb => ?_) fun a ha b _ hab => ?_
  · simp only [List.mem_filter, Array.mem_toList_iff] at ha ⊢
    obtain ⟨b, hb, hab⟩ := h.exists_listed ht hu hk ha.1
    exact ⟨b, ⟨hb, (hPQ a b hab ha.1).trans ha.2⟩, hab⟩
  · simp only [List.mem_filter, Array.mem_toList_iff] at hb ⊢
    obtain ⟨a, ha, hab⟩ := h.symm.exists_listed hu ht hk hb.1
    exact ⟨a, ⟨ha, (hPQ a b hab ha).symm.trans hb.2⟩, hab⟩
  · exact hfg a b hab (Array.mem_toList_iff.mp (List.mem_filter.mp ha).1)

theorem Mirrors.perm_listed (h : Mirrors S N t u) (ht : Registered t) (hu : Registered u)
    {k : SymbolKind} (hk : k ≠ .pragma) {γ : Type} {f g : SymbolId → γ} {P Q : SymbolId → Bool}
    (hPQ : ∀ a b, S a b → a ∈ t.listed k → Q b = P a)
    (hfg : ∀ a b, S a b → a ∈ t.listed k → g b = f a) :
    (((u.listed k).toList.filter Q).map g).Perm (((t.listed k).toList.filter P).map f) := by
  rw [List.map_eq_flatMap, List.map_eq_flatMap]
  exact h.perm_flatMap_listed ht hu hk hPQ fun a b hab ha => by rw [hfg a b hab ha]

/-- What comes behind corresponding nodes in a group echoes. -/
theorem Mirrors.echoes_behind (h : Mirrors S N t u) (hij : N i j)
    {f g : Option NodeId → Noted Unit}
    (hfg : ∀ {p q}, Option.Rel N p q → Echoes (fun _ _ => True) (f p) (g q)) :
    Echoes (fun _ _ => True) (if (t.node i).up then pure () else f (t.node i).next)
      (if (u.node j).up then pure () else g (u.node j).next) := by
  rw [show (u.node j).up = (t.node i).up from h.up i j hij]
  split
  · exact .pure trivial
  · exact hfg (h.next i j hij)

section

variable (h : Mirrors S N t u) (ht : t.Computed) (hu : u.Computed) (hab : S a b)
  (ha : a ∈ t.nonterminals)
include h hab

theorem Mirrors.echoes_reportOverlap (ht : Registered t) (hu : Registered u) (k : Conflict)
    (hxy : Agree S .terminal t u x y) (hxy' : Agree S .terminal t u x' y') :
    Echoes (fun _ _ => True) (t.reportOverlap a k x x') (u.reportOverlap b k y y') := by
  refine ⟨trivial, ?_⟩
  rw [reports_reportOverlap, reports_reportOverlap]
  refine .map _ (h.perm_listed ht hu (k := .terminal) (by decide) (fun c d hcd hc => ?_)
    fun c d hcd hc => ?_)
  · rw [contains, contains, hxy.get c d hcd hc, hxy'.get c d hcd hc, contains, contains]
  · simp only [ll1, h.name a b hab, Option.map_some, h.name c d hcd]

theorem Mirrors.echoes_conflict (k : Conflict) :
    Echoes (fun _ _ => True) (Noted.emit (t.conflict a none k))
      (Noted.emit (u.conflict b none k)) := by
  refine ⟨trivial, ?_⟩
  rw [conflict, conflict, h.name a b hab]
  rfl

include ht hu ha

theorem Mirrors.echoes_expected (hpq : Option.Rel N p q) :
    Echoes (Agree S .terminal t u) (t.expected p a) (u.expected q b) :=
  .silent (h.agree_expected ht hu hab ha hpq) rfl rfl

theorem Mirrors.echoes_expectedUnresolved (hpq : Option.Rel N p q) :
    Echoes (Agree S .terminal t u) (t.expectedUnresolved p a) (u.expectedUnresolved q b) :=
  .silent (h.agree_expectedUnresolved ht hu hab ha hpq) (by simp) (by simp)

/-- The walks through corresponding productions find the same conflicts. -/
theorem Mirrors.echoes_conflictsFrom (hpq : Option.Rel N p q) :
    Echoes (fun _ _ => True) (t.conflictsFrom a fuel p) (u.conflictsFrom b fuel q) := by
  have hrt := ht.formed.registered
  have hru := hu.formed.registered
  induction fuel generalizing p q with
  | zero => exact .pure trivial
  | succ fuel ih =>
    cases hpq with
    | none => exact .pure trivial
    | @some i j hij =>
      have hlike : NodeKind.Like S N (t.node i).kind (u.node j).kind := h.node i j hij
      have hnext : Option.Rel N (t.node i).next (u.node j).next := h.next i j hij
      have hrest := h.echoes_behind hij ih
      simp only [conflictsFrom]
      generalize (t.node i).kind = k at hlike
      generalize (u.node j).kind = l at hlike
      cases hlike with
      | alt =>
        have hempty := Agree.empty S .terminal t u
        refine .bind (.foldlM (h.alternatives hij) (fun x y c d hxy hcd => ?_) hempty)
          fun _ _ _ => hrest
        exact .bind (h.echoes_expectedUnresolved ht hu hab ha (.some hcd.1)) fun r s hrs =>
          .bind (h.echoes_reportOverlap hab hrt hru _ hxy hrs) fun _ _ _ =>
          .bind (ih (.some hcd.1)) fun _ _ _ => .pure (hxy.union h hrt hru (by decide) hrs.get)
      | opt hs | iter hs =>
        dsimp only
        rw [h.groupDeletable_eq ht hu (.some hs)]
        split
        · exact .bind (h.echoes_conflict hab _) fun _ _ _ =>
            .bind (ih (.some hs)) fun _ _ _ => hrest
        · exact .bind (h.echoes_expectedUnresolved ht hu hab ha (.some hs)) fun x y hxy =>
            .bind (h.echoes_expected ht hu hab ha hnext) fun r s hrs =>
            .bind (h.echoes_reportOverlap hab hrt hru _ hxy hrs) fun _ _ _ =>
            .bind (ih (.some hs)) fun _ _ _ => hrest
      | _ => exact hrest

end

/-! ### Resolvers -/

section

variable (h : Mirrors S N t u) (ht : t.Computed) (hu : u.Computed) (hab : S a b)
  (ha : a ∈ t.nonterminals)

theorem echoes_warning (c : Cause) (l l' : Option Location) :
    Echoes (fun _ _ => True) (Noted.warning c l) (Noted.warning c l') :=
  ⟨trivial, .refl _⟩

theorem echoes_reportUseless (m n : Node) (c : Bool) :
    Echoes (fun _ _ => True) (reportUseless m c) (reportUseless n c) := by
  unfold reportUseless
  split
  · exact .pure trivial
  · exact echoes_warning ..

include h ht hu hab ha

theorem Mirrors.echoes_checkAlternative (hij : N i j) (hall : Agree S .terminal t u x y)
    (hbefore : Agree S .terminal t u x' y') : Echoes (Agree S .terminal t u)
      (t.checkAlternative a x x' i) (u.checkAlternative b y y' j) := by
  have hrt := ht.formed.registered
  have hru := hu.formed.registered
  have hlike : NodeKind.Like S N (t.node i).kind (u.node j).kind := h.node i j hij
  have hnext : Option.Rel N (t.node i).next (u.node j).next := h.next i j hij
  simp only [checkAlternative]
  generalize (t.node i).kind = k at hlike
  generalize (u.node j).kind = l at hlike
  cases hlike with
  | resolver =>
    refine .bind (h.echoes_expected ht hu hab ha hnext) fun r s hrs => ?_
    rw [hrs.overlaps h hrt hru (k := .terminal) (by decide) hbefore,
      hrs.overlaps h hrt hru (k := .terminal) (by decide) hall]
    split
    · exact .bind (echoes_warning ..) fun _ _ _ =>
        .bind (echoes_reportUseless ..) fun _ _ _ => .pure hbefore
    · exact .bind (echoes_reportUseless ..) fun _ _ _ => .pure hbefore
  | _ =>
    exact .bind (h.echoes_expected ht hu hab ha (.some hij)) fun r s hrs =>
      .pure (hbefore.union h hrt hru (by decide) hrs.get)

theorem Mirrors.echoes_checkContent (hij : N i j) (hpq : Option.Rel N p q) :
    Echoes (fun _ _ => True) (t.checkContent a i p) (u.checkContent b j q) := by
  have hrt := ht.formed.registered
  have hru := hu.formed.registered
  have hlike : NodeKind.Like S N (t.node i).kind (u.node j).kind := h.node i j hij
  have hfirst := h.agree_firstSet ht hu (h.next i j hij)
  simp only [checkContent]
  generalize (t.node i).kind = k at hlike
  generalize (u.node j).kind = l at hlike
  cases hlike with
  | resolver =>
    refine .bind (R := Agree S .terminal t u) (.silent hfirst rfl rfl) fun r s hrs => ?_
    refine .bind (h.echoes_expected ht hu hab ha hpq) fun v w hvw => ?_
    rw [hrs.overlaps h hrt hru (k := .terminal) (by decide) hvw]
    exact echoes_reportUseless ..
  | _ => exact .pure trivial

/-- The walks through corresponding productions find the same misplaced resolvers. -/
theorem Mirrors.echoes_resolversFrom {atChoice : Bool} (hpq : Option.Rel N p q) :
    Echoes (fun _ _ => True) (t.resolversFrom a fuel atChoice p)
      (u.resolversFrom b fuel atChoice q) := by
  have hrt := ht.formed.registered
  have hru := hu.formed.registered
  induction fuel generalizing p q atChoice with
  | zero => exact .pure trivial
  | succ fuel ih =>
    cases hpq with
    | none => exact .pure trivial
    | @some i j hij =>
      have hlike : NodeKind.Like S N (t.node i).kind (u.node j).kind := h.node i j hij
      have hnext : Option.Rel N (t.node i).next (u.node j).next := h.next i j hij
      have hrest := h.echoes_behind hij (f := t.resolversFrom a fuel false)
        (g := u.resolversFrom b fuel false) ih
      have hsubs : List.Forall₂ N ((t.graph.alternatives i).map (·.1))
          ((u.graph.alternatives j).map (·.1)) := by
        rw [List.forall₂_map_left_iff, List.forall₂_map_right_iff]
        exact (h.alternatives hij).imp fun _ _ hcd => hcd.1
      have hempty := Agree.empty S .terminal t u
      simp only [resolversFrom]
      generalize (t.node i).kind = k at hlike
      generalize (u.node j).kind = l at hlike
      cases hlike with
      | alt =>
        refine .bind (.foldlM hsubs (fun x y c d hxy hcd => ?_) hempty) fun x y hall => ?_
        · exact .bind (h.echoes_expectedUnresolved ht hu hab ha (.some hcd)) fun r s hrs =>
            .pure (hxy.union h hrt hru (by decide) hrs.get)
        refine .bind (.foldlM hsubs (fun x' y' c d hxy hcd => ?_) hempty) fun _ _ _ => hrest
        exact .bind (h.echoes_checkAlternative ht hu hab ha hcd hall hxy) fun r s hrs =>
          .bind (ih (.some hcd)) fun _ _ _ => .pure hrs
      | opt hs | iter hs =>
        exact .bind (h.echoes_checkContent ht hu hab ha hs hnext) fun _ _ _ =>
          .bind (ih (.some hs)) fun _ _ _ => hrest
      | resolver =>
        dsimp only
        split
        · exact .bind (R := fun _ _ => True) ⟨trivial, .refl _⟩ fun _ _ _ => hrest
        · exact hrest
      | _ => exact hrest

omit ht hu hab ha in
theorem Mirrors.echoes_forM (ht : Registered t) (hu : Registered u) {f g : SymbolId → Noted Unit}
    (hfg : ∀ a b, S a b → a ∈ t.nonterminals → Echoes (fun _ _ => True) (f a) (g b)) :
    Echoes (fun _ _ => True) (t.nonterminals.toList.forM f) (u.nonterminals.toList.forM g) := by
  have := h.perm_flatMap_listed ht hu (k := .nonterminal) (by decide) (P := fun _ => true)
    (Q := fun _ => true) (fun _ _ _ _ => rfl) fun a b hab ha => (hfg a b hab ha).reports
  rw [List.filter_true, List.filter_true] at this
  refine ⟨trivial, ?_⟩
  rwa [reports_forM, reports_forM, List.map_flatMap, List.map_flatMap]

omit hab ha in
theorem Mirrors.echoes_checkChoices : Echoes (· = ·) t.checkChoices u.checkChoices := by
  have hechoes : Echoes (fun _ _ => True) (t.checkResolvers >>= fun _ => t.checkConflicts)
      (u.checkResolvers >>= fun _ => u.checkConflicts) := by
    refine .bind (h.echoes_forM ht.formed.registered hu.formed.registered fun a b hab ha => ?_)
      fun _ _ _ =>
        h.echoes_forM ht.formed.registered hu.formed.registered fun a b hab ha => ?_
    · rw [h.size]
      exact h.echoes_resolversFrom ht hu hab ha (h.root a b hab)
    · rw [h.size]
      exact h.echoes_conflictsFrom ht hu hab ha (h.root a b hab)
  exact ⟨congrArg (!·) hechoes.failed_eq.symm, hechoes.reports⟩

end

/-! ### Structure -/

section

variable (h : Mirrors S N t u)
include h

theorem Mirrors.nonterminalCount_eq (ht : Registered t) (hu : Registered u) :
    (u.listed .nonterminal).size = (t.listed .nonterminal).size := by
  have := (h.perm_listed ht hu (k := .nonterminal) (by decide) (f := fun _ => ()) (g := fun _ => ())
    (P := fun _ => true) (Q := fun _ => true) (by simp) (by simp)).length_eq
  simpa using this

/-- Nonterminals are reported for what corresponding ones are reported for. -/
theorem Mirrors.echoes_reportUnless (ht : Registered t) (hu : Registered u) {P Q : Symbol → Bool}
    {cause : String → Cause}
    (hPQ : ∀ a b, S a b → a ∈ t.nonterminals → Q (u.symbol b) = P (t.symbol a)) :
    Echoes (· = ·) (t.reportUnless P cause) (u.reportUnless Q cause) := by
  have hvalue (t : Table) (P : Symbol → Bool) :
      (t.reportUnless P cause).value = (t.reportUnless P cause).reports.isEmpty := by
    rw [reports_reportUnless, List.isEmpty_map]
    rfl
  refine .of_isEmpty ?_ (hvalue t P) (hvalue u Q)
  simp only [reports_reportUnless, nonterminalSymbols, List.filter_map, List.map_map]
  refine h.perm_listed ht hu (k := .nonterminal) (by decide) (fun a b hab ha => ?_)
    fun a b hab _ => ?_
  · simp [hPQ a b hab ha]
  · simp [h.name a b hab]

theorem Mirrors.echoes_checkComplete (ht : Registered t) (hu : Registered u) :
    Echoes (· = ·) t.checkComplete u.checkComplete :=
  h.echoes_reportUnless ht hu fun a b hab _ => by
    have hroot := h.root a b hab
    generalize (t.symbol a).root = p at hroot
    generalize (u.symbol b).root = q at hroot
    cases hroot <;> rfl

/-- The walks through corresponding productions reach corresponding nonterminals. -/
theorem Mirrors.agree_reachFrom (ht : t.Formed) (hu : u.Formed) (hpq : Option.Rel N p q)
    (hxy : Agree S .nonterminal t u x y) :
    Agree S .nonterminal t u (t.reachFrom fuel p x) (u.reachFrom fuel q y) := by
  induction fuel generalizing p q x y with
  | zero => exact hxy
  | succ fuel ih =>
    cases hpq with
    | none => exact hxy
    | @some i j hij =>
      have hlike : NodeKind.Like S N (t.node i).kind (u.node j).kind := h.node i j hij
      have hnt (a : SymbolId) (hk : (t.node i).kind = .nonterminal a) : a ∈ t.nonterminals :=
        ht.allows_nonterminal hk
      have hrest {x y : IndexSet} (hxy : Agree S .nonterminal t u x y) : Agree S .nonterminal t u
          (if (t.node i).up then x else t.reachFrom fuel (t.node i).next x)
          (if (u.node j).up then y else u.reachFrom fuel (u.node j).next y) := by
        rw [show (u.node j).up = (t.node i).up from h.up i j hij]
        split
        · exact hxy
        · exact ih (h.next i j hij) hxy
      simp only [reachFrom]
      refine hrest ?_
      generalize (t.node i).kind = k at hlike hnt
      generalize (u.node j).kind = l at hlike
      cases hlike with
      | @nonterminal a b hab =>
        have ha := hnt a rfl
        dsimp only
        rw [hxy.get a b hab ha]
        split
        · exact hxy
        · exact ih (h.root a b hab) (hxy.insert h ht.registered hu.registered (by decide) hab ha)
      | alt hs hd => exact ih hd (ih (.some hs) hxy)
      | opt hs | iter hs => exact ih (.some hs) hxy
      | _ => exact hxy

theorem Mirrors.echoes_checkReached (ht : t.Formed) (hu : u.Formed) :
    Echoes (· = ·) t.checkReached u.checkReached := by
  have hagree : Agree S .nonterminal t u t.reached u.reached := by
    have hempty := Agree.empty S .nonterminal t u
    have hstart := h.start
    have hmem := ht.registered.start
    unfold reached
    rw [show u.nonterminalCount = t.nonterminalCount from
      h.nonterminalCount_eq ht.registered hu.registered, h.size]
    rw [show (u.listed .nonterminal).size = (t.listed .nonterminal).size from
      h.nonterminalCount_eq ht.registered hu.registered] at hempty
    generalize t.start = p at hstart hmem
    generalize u.start = q at hstart
    cases hstart with
    | none => exact hempty
    | @some a b hab =>
      exact h.agree_reachFrom ht hu (h.root a b hab)
        (hempty.insert h ht.registered hu.registered (by decide) hab (hmem a rfl))
  exact h.echoes_reportUnless ht.registered hu.registered fun a b hab ha => hagree.get a b hab ha

theorem Mirrors.isolates {v w : Form} {c : SymbolId} (hw : t.Isolates w c) (hv : w.Like S v) :
    ∃ d, S c d ∧ u.Isolates v d := by
  obtain ⟨x, y, rfl, hx, hy⟩ := hw
  obtain ⟨x', z, rfl, hxx, hz⟩ := hv.of_append
  obtain _ | ⟨hc, hyy⟩ := hz
  obtain _ | hcd := hc
  obtain ⟨_, ⟨⟩, hx'⟩ := h.derives hx hxx
  obtain ⟨_, ⟨⟩, hy'⟩ := h.derives hy hyy
  exact ⟨_, hcd, x', _, rfl, hx', hy'⟩

/-- What a nonterminal derives alone, a corresponding one does. -/
theorem Mirrors.singleStep {c : SymbolId} (hab : S a b) (hac : t.SingleStep a c) :
    ∃ d, S c d ∧ u.SingleStep b d := by
  obtain ⟨w, hw, hc⟩ := hac
  obtain ⟨v, hv, hp⟩ := h.produces hab hw
  obtain ⟨d, hcd, hd⟩ := h.isolates hc hv
  exact ⟨d, hcd, v, hp, hd⟩

theorem Mirrors.mem_circularSteps (ht : t.Formed) (hu : u.Formed) (het : Exact t) (heu : Exact u)
    {c d : SymbolId} (hab : S a b) (hcd : S c d) (hac : (a, c) ∈ t.circularSteps) :
    (b, d) ∈ u.circularSteps := by
  rw [het.mem_circularSteps_iff ht] at hac
  rw [heu.mem_circularSteps_iff hu]
  obtain ⟨ha, hac⟩ := hac
  exact ⟨(h.listed ht.registered hu.registered hab (k := .nonterminal)).mp ha,
    hac.transfer h.unique (fun _ _ _ hab hac => h.singleStep hab hac) (fun _ _ hxy => by
      obtain ⟨z, -, hz⟩ :=
        h.exists_listed ht.registered hu.registered (k := .nonterminal) (by decide)
        (hxy.mem_nonterminals ht)
      exact ⟨z, hz⟩) hab hcd⟩

theorem Mirrors.echoes_checkNotCircular (ht : t.Formed) (hu : u.Formed) (het : Exact t)
    (heu : Exact u) : Echoes (· = ·) t.checkNotCircular u.checkNotCircular := by
  have hnodup (t : Table) : t.circularSteps.Nodup :=
    (nodup_singleSteps t).sublist (pruned_circularSteps t).sublist
  -- both ends of a circular step are nonterminals
  have hends {t : Table} (ht : t.Formed) (het : Exact t) {x : Step} (hx : x ∈ t.circularSteps) :
      x.1 ∈ t.nonterminals ∧ x.2 ∈ t.nonterminals := by
    obtain ⟨ha, hs⟩ := (het.mem_circularSteps_iff ht).mp hx
    exact ⟨ha, hs.step.mem_nonterminals ht⟩
  have hex {S : SymbolId → SymbolId → Prop} {N : NodeId → NodeId → Prop} {t u : Table}
      (h : Mirrors S N t u) (ht : t.Formed) (hu : u.Formed) (het : Exact t) (heu : Exact u)
      {x : Step} (hx : x ∈ t.circularSteps) :
      ∃ y ∈ u.circularSteps, S x.1 y.1 ∧ S x.2 y.2 := by
    obtain ⟨h₁, h₂⟩ := hends ht het hx
    obtain ⟨b, -, hb⟩ :=
      h.exists_listed ht.registered hu.registered (k := .nonterminal) (by decide) h₁
    obtain ⟨d, -, hd⟩ :=
      h.exists_listed ht.registered hu.registered (k := .nonterminal) (by decide) h₂
    exact ⟨(b, d), h.mem_circularSteps ht hu het heu hb hd hx, hb, hd⟩
  have hvalue (t : Table) : t.checkNotCircular.value = t.checkNotCircular.reports.isEmpty := by
    rw [reports_checkNotCircular, List.isEmpty_map]
    rfl
  refine .of_isEmpty ?_ (hvalue t) (hvalue u)
  rw [reports_checkNotCircular, reports_checkNotCircular]
  refine perm_map_of_biUnique (R := fun x y => S x.1 y.1 ∧ S x.2 y.2)
    ⟨fun _ _ _ hx hy => Prod.ext (h.unique.1 hx.1 hy.1) (h.unique.1 hx.2 hy.2),
      fun _ _ _ hx hy => Prod.ext (h.unique.2 hx.1 hy.1) (h.unique.2 hx.2 hy.2)⟩
    (hnodup t) (hnodup u) (fun x hx => hex h ht hu het heu hx) (fun y hy => ?_)
    fun x _ y _ hxy => ?_
  · obtain ⟨x, hx, h₁, h₂⟩ := hex h.symm hu ht heu het hy
    exact ⟨x, hx, h₁, h₂⟩
  · rw [h.name _ _ hxy.1, h.name _ _ hxy.2]

theorem Mirrors.productive (hab : S a b) (ha : t.Productive a) : u.Productive b := by
  obtain ⟨w, hw⟩ := ha
  obtain ⟨v, hv, hd⟩ := h.derives hw (.cons (.nonterminal hab) .nil)
  have hterminals {w : List SymbolId} {v : Form} (hv : Form.Like S (w.map .terminal) v) :
      ∃ w' : List SymbolId, v = w'.map .terminal := by
    induction w generalizing v with
    | nil =>
      cases hv
      exact ⟨[], rfl⟩
    | cons c w ih =>
      obtain _ | ⟨hc, hv⟩ := hv
      obtain ⟨w', rfl⟩ := ih hv
      cases hc with
      | terminal => exact ⟨_ :: w', rfl⟩
  obtain ⟨w', rfl⟩ := hterminals hv
  exact ⟨w', hd⟩

theorem Mirrors.echoes_checkTerminating (ht : t.Formed) (hu : u.Formed) (hwt : t.Wild)
    (hwu : u.Wild) (hct : t.checkComplete.value = true) (hcu : u.checkComplete.value = true) :
    Echoes (· = ·) t.checkTerminating u.checkTerminating := by
  refine h.echoes_reportUnless ht.registered hu.registered fun a b hab ha => ?_
  have hb := (h.listed ht.registered hu.registered hab (k := .nonterminal)).mp ha
  rw [Bool.eq_iff_iff, get_terminating_iff hu hwu (value_reportUnless.mp hcu) hb,
    get_terminating_iff ht hwt (value_reportUnless.mp hct) ha]
  exact ⟨h.symm.productive hab, h.productive hab⟩

variable (ht : t.Computed) (hu : u.Computed)
include ht hu

theorem Mirrors.echoes_checkStructure : Echoes (· = ·) t.checkStructure u.checkStructure := by
  have hcomplete := h.echoes_checkComplete ht.formed.registered hu.formed.registered
  have hfalse : Echoes (· = ·) (pure false) (pure false : Noted Bool) := .pure rfl
  -- the last check relies on the first
  refine .bind (R := fun x y => x = t.checkComplete.value ∧ y = u.checkComplete.value)
    ⟨⟨rfl, rfl⟩, hcomplete.reports⟩ ?_
  rintro _ _ ⟨rfl, rfl⟩
  have hv := hcomplete.value
  rw [← hv]
  split
  · rename_i hc
    refine .bind (h.echoes_checkReached ht.formed hu.formed) ?_
    rintro x _ rfl
    split
    · refine .bind (h.echoes_checkNotCircular ht.formed hu.formed ht.exact hu.exact) ?_
      rintro x _ rfl
      split
      · exact h.echoes_checkTerminating ht.formed hu.formed ht.wild hu.wild hc (hv ▸ hc)
      · exact hfalse
    · exact hfalse
  · exact hfalse

/-- The checks of tables that mirror each other report the same and come to the same verdict. -/
theorem Mirrors.echoes_check : Echoes (· = ·) t.check u.check := by
  refine .bind (h.echoes_checkStructure ht hu) ?_
  rintro x _ rfl
  split
  · exact h.echoes_checkChoices ht hu
  · exact .pure rfl

end

end Table

end Lookahead
