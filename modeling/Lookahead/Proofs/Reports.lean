import Lookahead.Grammar

/-!
# What is reported

Which diagnostics the parts of a run can report. Building a table meets mistakes of the text only
(`Definition.mistaken_table`), the sets are computed without a word except for the notes about
deletable nonterminals (`Table.reports_computeSets`), and each check reports what it looks for. The
one cause that a configuration can hide never comes as an error (`Table.hideable_analyze`).
-/

namespace Lookahead

/-- An error that no configuration hides. -/
def Diagnostic.Mistake (d : Diagnostic) : Prop :=
  d.isError = true ∧ d.cause ≠ .resolverWithoutConflict

/-- A mistake that is not about attributes that do not match. -/
def Diagnostic.NoMismatch (d : Diagnostic) : Prop :=
  d.Mistake ∧ d.cause ≠ .fault .attributeMismatch

/-- What can be hidden is a warning. -/
def Diagnostic.Hideable (d : Diagnostic) : Prop :=
  d.cause = .resolverWithoutConflict → d.isWarning = true

theorem Diagnostic.Mistake.hideable {d : Diagnostic} (h : d.Mistake) : d.Hideable :=
  fun hc => absurd hc h.2

namespace Noted

variable {α β : Type} {P : Diagnostic → Prop}

/-- The diagnostics among the events. -/
def reports (x : Noted α) : List Diagnostic := x.events.filterMap Event.report?

@[simp] theorem reports_pure (a : α) : (pure a : Noted α).reports = [] := rfl

@[simp] theorem reports_bind (x : Noted α) (f : α → Noted β) :
    (x >>= f).reports = x.reports ++ (f x.value).reports := by
  simp [reports]

@[simp] theorem reports_error (c : Cause) (l : Option Location) :
    (error c l).reports = [.error c l] := rfl

@[simp] theorem reports_warning (c : Cause) (l : Option Location) :
    (warning c l).reports = [.warning c l] := rfl

@[simp] theorem reports_listing (k : Category) (text : Config → String) :
    (emit (.listing k text)).reports = [] := rfl

@[simp] theorem reports_ite (c : Prop) [Decidable c] (x y : Noted α) :
    (if c then x else y).reports = if c then x.reports else y.reports :=
  apply_ite ..

theorem reports_forM (l : List α) (f : α → Noted PUnit) :
    (l.forM f).reports = l.flatMap fun a => (f a).reports := by
  induction l with
  | nil => rfl
  | cons a l ih =>
    rw [show (a :: l).forM f = f a >>= fun _ => l.forM f from rfl, reports_bind, ih,
      List.flatMap_cons]

theorem reports_foldlM {f : β → α → Noted β} {l : List α}
    (h : ∀ b, ∀ a ∈ l, (f b a).reports = []) (b : β) : (l.foldlM f b).reports = [] := by
  induction l generalizing b with
  | nil => rfl
  | cons a l ih =>
    rw [List.foldlM_cons, reports_bind, h b a (by simp), List.nil_append]
    exact ih (fun b a ha => h b a (by simp [ha])) _

theorem failed_eq (x : Noted α) : x.failed = x.reports.any Diagnostic.isError := by
  unfold failed reports
  induction x.events with
  | nil => rfl
  | cons e l ih => cases e <;> simp [Event.isError, Event.report?, ih]

/-- Everything reported has the property. -/
def Only (P : Diagnostic → Prop) (x : Noted α) : Prop := ∀ d ∈ x.reports, P d

@[simp] theorem only_pure (a : α) : (pure a : Noted α).Only P := nofun

@[simp] theorem only_bind {x : Noted α} {f : α → Noted β} :
    (x >>= f).Only P ↔ x.Only P ∧ (f x.value).Only P := by
  simp only [Only, reports_bind, List.forall_mem_append]

@[simp] theorem only_error {c : Cause} {l : Option Location} :
    (error c l).Only P ↔ P (.error c l) := by
  simp [Only]

@[simp] theorem only_warning {c : Cause} {l : Option Location} :
    (warning c l).Only P ↔ P (.warning c l) := by
  simp [Only]

@[simp] theorem only_listing (k : Category) (text : Config → String) :
    (emit (.listing k text)).Only P := nofun

@[simp] theorem only_ite {c : Prop} [Decidable c] {x y : Noted α} :
    (if c then x else y).Only P ↔ (c → x.Only P) ∧ (¬c → y.Only P) := by
  split <;> simp [*]

theorem Only.mistaken {x : Noted α} (h : x.Only Diagnostic.NoMismatch) :
    x.Only Diagnostic.Mistake :=
  fun d hd => (h d hd).1

theorem Only.foldlM {f : β → α → Noted β} {l : List α} (h : ∀ b, ∀ a ∈ l, (f b a).Only P) (b : β) :
    (l.foldlM f b).Only P := by
  induction l generalizing b with
  | nil => exact only_pure b
  | cons a l ih =>
    exact only_bind.mpr ⟨h b a (by simp), ih (fun b a ha => h b a (by simp [ha])) _⟩

theorem Only.forM {f : α → Noted PUnit} {l : List α} (h : ∀ a ∈ l, (f a).Only P) :
    (l.forM f).Only P := by
  unfold Only
  rw [reports_forM]
  simpa using fun d a ha hd => h a ha d hd

end Noted

/-! ### Mistakes of the text -/

section

open Diagnostic Noted

@[simp] theorem mistaken_faultAt (t : Token) (f : Fault) : (faultAt t f).Only Mistake :=
  only_error.mpr ⟨rfl, nofun⟩

@[simp] theorem noMismatch_faultAt {t : Token} {f : Fault} :
    (faultAt t f).Only NoMismatch ↔ f ≠ .attributeMismatch := by
  simp [faultAt, NoMismatch, Mistake, Diagnostic.error, isError]

namespace Table

theorem noMismatch_declare (t : Table) (kind : SymbolKind) (name : String) (line : Nat) :
    (t.declare kind name line).Only NoMismatch := by
  unfold declare
  split
  · exact only_bind.mpr ⟨only_error.mpr ⟨⟨rfl, nofun⟩, nofun⟩, only_pure _⟩
  · exact only_pure _

@[simp] theorem noMismatch_unescapeAt (line : Nat) (cs : List Char) :
    (unescapeAt line cs).Only NoMismatch := by
  intro d hd
  obtain ⟨e, he, hd⟩ := List.mem_filterMap.mp hd
  obtain rfl := (List.mem_replicate.mp he).2
  cases hd
  exact ⟨⟨rfl, nofun⟩, nofun⟩

@[simp] theorem noMismatch_addLiteralChars (t : Table) (cs : List Char) (line : Nat) :
    (t.addLiteralChars cs line).Only NoMismatch := by
  unfold addLiteralChars
  refine only_bind.mpr ⟨noMismatch_unescapeAt _ _, ?_⟩
  split
  · exact only_bind.mpr ⟨only_error.mpr ⟨⟨rfl, nofun⟩, nofun⟩, only_pure _⟩
  · exact only_bind.mpr ⟨only_pure _, only_pure _⟩

end Table

theorem noMismatch_charValue (t : Token) : (charValue t).Only NoMismatch := by
  unfold charValue
  refine only_bind.mpr ⟨by simp, ?_⟩
  split <;> simp

theorem noMismatch_eval (t : Table) (s : SimpleSet) : (s.eval t).Only NoMismatch := by
  unfold SimpleSet.eval
  repeat' split
  all_goals simp [noMismatch_charValue]

theorem noMismatch_evalTerms (t : Table) (terms : List SetTerm) :
    (evalTerms t terms).Only NoMismatch :=
  Only.foldlM (fun _ _ _ => by simp [noMismatch_eval]) _

theorem noMismatch_checkClassName (t : Table) (name : Token) :
    (checkClassName t name).Only NoMismatch := by
  unfold checkClassName
  split <;> simp

theorem SetDecl.noMismatch_declare (t : Table) (d : SetDecl) :
    (d.declare t).Only NoMismatch := by
  unfold SetDecl.declare
  simp only [only_bind, noMismatch_checkClassName, noMismatch_evalTerms, true_and]
  split <;> simp

/-- What all atoms of an expression report is all that the expression reports. -/
theorem Expr.only_build {α : Type} {P : Diagnostic → Prop}
    {atoms : Table → α → Noted (Table × Piece)} (h : ∀ t a, (atoms t a).Only P) (t : Table)
    (e : Expr α) : (e.build atoms t).Only P := by
  induction e generalizing t with
  | empty => exact only_pure _
  | atom a => exact h t a
  | seq e f ihe ihf => simp [Expr.build, ihe, ihf]
  | alt e f ihe ihf => simp [Expr.build, ihe, ihf]
  | group b e ih => simp [Expr.build, ih]

theorem TokenAtom.noMismatch_build (t : Table) (a : TokenAtom) :
    (TokenAtom.build t a).Only NoMismatch := by
  unfold TokenAtom.build
  repeat' split
  all_goals simp

namespace TokenDecl

theorem noMismatch_declareName (kind : SymbolKind) (t : Table) (name : Token) :
    (declareName kind t name).Only NoMismatch := by
  unfold declareName
  split
  · simp
  · exact Table.noMismatch_declare _ _ _ _

theorem noMismatch_setBody (t : Table) (s : SymbolId) (name : Token) (e : Expr TokenAtom) :
    (setBody t s name e).Only NoMismatch := by
  unfold setBody
  refine only_bind.mpr ⟨Expr.only_build TokenAtom.noMismatch_build t e, ?_⟩
  cases e.literal? <;> simp

theorem noMismatch_declare (kind : SymbolKind) (t : Table) (d : TokenDecl) :
    (d.declare kind t).Only NoMismatch := by
  unfold TokenDecl.declare setAction
  refine only_bind.mpr ⟨noMismatch_declareName _ _ _, ?_⟩
  repeat' split
  all_goals simp [noMismatch_setBody]

end TokenDecl

theorem mistaken_checkAttributes (t : Table) (s : SymbolId) (name : Token)
    (attributes : Option Token) : (checkAttributes t s name attributes).Only Mistake := by
  unfold checkAttributes
  split <;> simp

theorem Atom.noMismatch_declareUse (t : Table) (name : Token) :
    (declareUse t name).Only NoMismatch := by
  unfold declareUse
  split <;> simp [Table.noMismatch_declare]

theorem Atom.noMismatch_nodeKind (kind : SymbolKind) (weak : Bool) (name : Token)
    (s : SymbolId) : (nodeKind kind weak name s).Only NoMismatch := by
  unfold nodeKind
  repeat' split
  all_goals simp

theorem Atom.mistaken_buildSymbol (t : Table) (weak : Bool) (name : Token)
    (attributes : Option Token) : (buildSymbol t weak name attributes).Only Mistake := by
  unfold buildSymbol
  cases resolve? t name <;> cases attributes <;>
    simp [(noMismatch_declareUse _ _).mistaken, (noMismatch_nodeKind _ _ _ _).mistaken,
      mistaken_checkAttributes]

theorem Atom.mistaken_build (t : Table) (a : Atom) : (Atom.build t a).Only Mistake := by
  cases a with
  | symbol weak name attributes => exact mistaken_buildSymbol t weak name attributes
  | _ => exact only_pure _

theorem Production.noMismatch_declareName (t : Table) (name : Token) :
    (Production.declareName t name).Only NoMismatch := by
  unfold Production.declareName
  repeat' split
  all_goals simp [Table.noMismatch_declare]

theorem Production.mistaken_declare (t : Table) (d : Production) :
    (d.declare t).Only Mistake := by
  unfold Production.declare
  refine only_bind.mpr ⟨(noMismatch_declareName _ _).mistaken, ?_⟩
  repeat' split
  all_goals simp [mistaken_checkAttributes, Expr.only_build Atom.mistaken_build]

theorem noMismatch_setStart (t : Table) (name last : Token) :
    (setStart t name last).Only NoMismatch := by
  unfold setStart
  repeat' split
  all_goals simp

theorem Sections.mistaken_declare (s : Sections) : s.declare.Only Mistake := by
  unfold Sections.declare
  simp only [only_bind]
  exact ⟨Only.foldlM (fun t d _ => (d.noMismatch_declare t).mistaken) _,
    Only.foldlM (fun t d _ => (d.noMismatch_declare _ t).mistaken) _,
    Only.foldlM (fun t d _ => (d.noMismatch_declare _ t).mistaken) _,
    Only.foldlM (fun t d _ => d.mistaken_declare t) _⟩

/-- What a definition reports are mistakes of the text. -/
theorem Definition.mistaken_table (d : Definition) : d.table.Only Mistake := by
  unfold Definition.table
  simp [Sections.mistaken_declare, (noMismatch_setStart _ _ _).mistaken, Table.endProductions]

theorem Fragment.mistaken_declare (t : Table) (f : Fragment) : (f.declare t).Only Mistake := by
  cases f with
  | nothing => exact only_pure _
  | setStart name terms =>
    simp [Fragment.declare, (noMismatch_checkClassName _ _).mistaken,
      (noMismatch_evalTerms _ _).mistaken]
  | set d => simp [Fragment.declare, (d.noMismatch_declare _).mistaken]
  | token name e | pragma name e =>
    simp [Fragment.declare, (TokenDecl.noMismatch_declareName _ _ _).mistaken,
      (Expr.only_build TokenAtom.noMismatch_build _ _).mistaken]
  | production p => simp [Fragment.declare, Production.mistaken_declare]
  | ending name last => simp [Fragment.declare, (noMismatch_setStart _ _ _).mistaken]

end

/-! ### The sets -/

namespace Table

open Noted

variable {t : Table} {a : SymbolId} {p : Option NodeId} {fuel : Nat}

@[simp] theorem reports_first : (t.first p).reports = [] := rfl

@[simp] theorem reports_expected : (t.expected p a).reports = [] := rfl

@[simp] theorem reports_expectedUnresolved : (t.expectedUnresolved p a).reports = [] := by
  unfold expectedUnresolved
  split <;> rfl

theorem reports_computeDeletable (t : Table) : t.computeDeletable.reports =
    (t.computeDeletable.value.nonterminalSymbols.filter (·.deletable)).map
      fun s => .note (.deletable s.name) := by
  unfold Noted.reports computeDeletable
  rw [List.filterMap_map]
  exact congrFun List.filterMap_eq_map _

theorem reports_computeFirst (t : Table) : t.computeFirst.reports = [] :=
  reports_foldlM (fun _ _ _ => rfl) _

theorem reports_restrictLeading (t : Table) (p q : Option NodeId) :
    (t.restrictLeading p q).reports = [] := by
  unfold restrictLeading
  split <;> rfl

theorem reports_restrictAlternative (t : Table) (others : IndexSet) (sub : NodeId)
    (down : Option NodeId) : (t.restrictAlternative others sub down).reports = [] := by
  unfold restrictAlternative
  split <;> rfl

theorem reports_restrictFrom : (restrictFrom fuel t p).reports = [] := by
  induction fuel generalizing t p with
  | zero => rfl
  | succ fuel ih =>
    cases p with
    | none => rfl
    | some i =>
      simp only [restrictFrom]
      split
      · simp [ih, reports_restrictLeading]
      · simp [ih, reports_restrictLeading]
      · rw [reports_bind, reports_foldlM fun _ _ _ => by simp [ih, reports_restrictAlternative]]
        simp [ih, reports_restrictLeading]
      · simp [ih, reports_restrictLeading]

theorem reports_followFrom {r : Table × IndexSet} : (followFrom a fuel r p).reports = [] := by
  induction fuel generalizing r p with
  | zero => rfl
  | succ fuel ih =>
    cases p with
    | none => rfl
    | some i =>
      simp only [followFrom]
      split
      · rfl
      · split <;> simp [ih]

theorem reports_syncFrom {r : Table × IndexSet} : (syncFrom a fuel r p).reports = [] := by
  induction fuel generalizing r p with
  | zero => rfl
  | succ fuel ih =>
    cases p with
    | none => rfl
    | some i =>
      simp only [syncFrom]
      split
      · rfl
      · split <;> simp [ih]

/-- The sets are computed without a word, but for the notes about deletable nonterminals. -/
theorem reports_computeSets (t : Table) : t.computeSets.reports = t.computeDeletable.reports := by
  have hwild (t : Table) : t.computeWildcards.reports = [] :=
    reports_foldlM (fun _ _ _ => reports_restrictFrom) _
  have hfollow (t : Table) : t.computeFollow.reports = [] := by
    unfold computeFollow
    rw [reports_bind, reports_foldlM fun _ _ _ => by simp [followProduction, reports_followFrom]]
    rfl
  have hsync (t : Table) : t.computeSyncs.reports = [] :=
    reports_foldlM (fun _ _ _ => by simp [syncProduction, reports_syncFrom]) _
  unfold computeSets list
  simp [reports_computeFirst, hwild, hfollow, hsync]

/-- What an analysis reports: which nonterminals are deletable, then what the checks find. -/
theorem reports_analyze (t : Table) (faulty : Bool) : (t.analyze faulty).reports =
    if faulty then [] else t.computeDeletable.reports ++ t.computeSets.value.check.reports := by
  unfold analyze
  cases faulty with
  | true => rfl
  | false =>
    simp [reports_computeSets, list]

/-! ### The checks -/

open Diagnostic

theorem reports_reportUnless (t : Table) (ok : Symbol → Bool) (cause : String → Cause) :
    (t.reportUnless ok cause).reports =
      (t.nonterminalSymbols.filter fun s => !ok s).map fun s => .error (cause s.name) := by
  unfold Noted.reports reportUnless
  rw [List.filterMap_map]
  exact congrFun List.filterMap_eq_map _

theorem reports_checkNotCircular (t : Table) : t.checkNotCircular.reports =
    t.circularSteps.map fun s => .error (.circular (t.symbol s.1).name (t.symbol s.2).name) := by
  unfold Noted.reports checkNotCircular
  rw [List.filterMap_map]
  exact congrFun List.filterMap_eq_map _

theorem hideable_checkStructure (t : Table) : t.checkStructure.Only Hideable := by
  have hunless (ok : Symbol → Bool) (cause : String → Cause)
      (h : ∀ s, cause s ≠ .resolverWithoutConflict) : (t.reportUnless ok cause).Only Hideable := by
    intro d hd
    rw [reports_reportUnless] at hd
    obtain ⟨s, -, rfl⟩ := List.mem_map.mp hd
    exact fun hc => absurd hc (h s.name)
  have hcircular : t.checkNotCircular.Only Hideable := by
    intro d hd
    rw [reports_checkNotCircular] at hd
    obtain ⟨s, -, rfl⟩ := List.mem_map.mp hd
    exact nofun
  unfold checkStructure
  simp [hcircular, checkComplete, checkReached, checkTerminating, hunless]

theorem hideable_warning (c : Cause) (l : Option Location) : (Diagnostic.warning c l).Hideable :=
  fun _ => rfl

@[simp] theorem hideable_expected : (t.expected p a).Only Hideable := nofun

@[simp] theorem hideable_expectedUnresolved : (t.expectedUnresolved p a).Only Hideable := by
  simp [Only]

@[simp] theorem hideable_reportUseless (n : Node) (b : Bool) :
    (reportUseless n b).Only Hideable := by
  simp [reportUseless, hideable_warning]

theorem hideable_checkAlternative (all before : IndexSet) (sub : NodeId) :
    (t.checkAlternative a all before sub).Only Hideable := by
  simp only [checkAlternative]
  split <;> simp [hideable_warning]

theorem hideable_checkContent (sub : NodeId) (next : Option NodeId) :
    (t.checkContent a sub next).Only Hideable := by
  simp only [checkContent]
  split
  · exact only_bind.mpr ⟨nofun, by simp⟩
  · exact only_pure _

theorem hideable_resolversFrom {atChoice : Bool} :
    (t.resolversFrom a fuel atChoice p).Only Hideable := by
  induction fuel generalizing atChoice p with
  | zero => exact only_pure _
  | succ fuel ih =>
    cases p with
    | none => exact only_pure _
    | some i =>
      simp only [resolversFrom]
      split
      · simp only [only_bind]
        refine ⟨Only.foldlM (fun _ _ _ => by simp) _, Only.foldlM (fun _ _ _ => ?_) _, by simp [ih]⟩
        simp [hideable_checkAlternative, ih]
      · simp [hideable_checkContent, ih]
      · simp [hideable_checkContent, ih]
      · simp [ih, Hideable, Diagnostic.error]
      · simp [ih]

theorem hideable_conflictsFrom : (t.conflictsFrom a fuel p).Only Hideable := by
  have hconflict (terminal : Option SymbolId) (k : Conflict) :
      (Noted.emit (t.conflict a terminal k)).Only Hideable := by
    intro d hd
    obtain rfl : d = _ := List.mem_singleton.mp hd
    exact hideable_warning _ _
  have hoverlap (k : Conflict) (r s : IndexSet) : (t.reportOverlap a k r s).Only Hideable := by
    intro d hd
    obtain ⟨e, he, hd⟩ := List.mem_filterMap.mp hd
    obtain ⟨b, -, rfl⟩ := List.mem_map.mp he
    cases hd
    exact hideable_warning _ _
  induction fuel generalizing p with
  | zero => exact only_pure _
  | succ fuel ih =>
    cases p with
    | none => exact only_pure _
    | some i =>
      simp only [conflictsFrom]
      split
      · rw [only_bind]
        exact ⟨Only.foldlM (fun _ _ _ => by simp [hoverlap, ih]) _, by simp [ih]⟩
      · simp [hconflict, hoverlap, ih]
      · simp [hconflict, hoverlap, ih]
      · simp [hconflict, ih]
      · simp [ih]

theorem hideable_check (t : Table) : t.check.Only Hideable := by
  unfold check
  simp only [only_bind, only_ite, only_pure, hideable_checkStructure, true_and, implies_true,
    and_true]
  rintro -
  have hchoices : (t.checkResolvers >>= fun _ => t.checkConflicts).Only Hideable :=
    only_bind.mpr ⟨Only.forM fun _ _ => hideable_resolversFrom,
      Only.forM fun _ _ => hideable_conflictsFrom⟩
  exact hchoices

/-- Of what an analysis reports only warnings can be hidden. -/
theorem hideable_analyze (t : Table) (faulty : Bool) : (t.analyze faulty).Only Hideable := by
  intro d hd
  rw [reports_analyze] at hd
  cases faulty with
  | true => cases hd
  | false =>
    rcases List.mem_append.mp hd with hd | hd
    · rw [reports_computeDeletable] at hd
      obtain ⟨s, -, rfl⟩ := List.mem_map.mp hd
      exact nofun
    · exact hideable_check _ d hd

end Table

end Lookahead
