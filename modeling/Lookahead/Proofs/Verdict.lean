import Lookahead.Main
import Lookahead.Proofs.Recording
import Lookahead.Proofs.Reduced

/-!
# The verdict

A grammar is accepted if and only if the log holds no error when the analysis is over
(`Grammar.accepted_iff_errorCount`): each structural check fails if and only if it reports an error.
The program exits with 0 if and only if the text is a grammar and it prints that 0 errors were
detected (`CommandLine.exitCode_run_iff`), and all errors of a structural check are about the first
property that the grammar lacks (`Table.defect_of_mem_reports`).
-/

namespace Lookahead

/-- What a grammar can lack. -/
inductive Defect where
  | unproduced
  | unreachable
  | circular
  | underivable
deriving DecidableEq

namespace Defect

/-- In the order of the checks. -/
def all : List Defect := [unproduced, unreachable, circular, underivable]

def check (t : Table) : Defect → Noted Bool
  | unproduced => t.checkComplete
  | unreachable => t.checkReached
  | circular => t.checkNotCircular
  | underivable => t.checkTerminating

end Defect

/-- The defect that a report is about. -/
def Cause.defect? : Cause → Option Defect
  | noProduction _ => some .unproduced
  | unreachable _ => some .unreachable
  | circular _ _ => some .circular
  | underivable _ => some .underivable
  | _ => none

namespace Table

variable {t : Table} {k : Defect} {d : Diagnostic}

/-- A check passes if and only if it has nothing to report. -/
theorem value_check_iff : (k.check t).value = true ↔ (k.check t).reports = [] := by
  have hunless (ok : Symbol → Bool) (cause : String → Cause) :
      (t.reportUnless ok cause).value = true ↔ (t.reportUnless ok cause).reports = [] := by
    rw [reports_reportUnless, List.map_eq_nil_iff]
    exact List.isEmpty_iff
  cases k with
  | unproduced | unreachable | underivable => exact hunless _ _
  | circular =>
    rw [Defect.check, reports_checkNotCircular, List.map_eq_nil_iff]
    exact List.isEmpty_iff

/-- A check reports errors about what it looks for. -/
theorem defect_of_mem_check (h : d ∈ (k.check t).reports) :
    d.isError = true ∧ d.cause.defect? = some k := by
  have hunless {ok : Symbol → Bool} {cause : String → Cause}
      (hc : ∀ s, (cause s).defect? = some k) (h : d ∈ (t.reportUnless ok cause).reports) :
      d.isError = true ∧ d.cause.defect? = some k := by
    rw [reports_reportUnless] at h
    obtain ⟨s, -, rfl⟩ := List.mem_map.mp h
    exact ⟨rfl, hc _⟩
  cases k with
  | unproduced | unreachable | underivable => exact hunless (fun _ => rfl) h
  | circular =>
    rw [Defect.check, reports_checkNotCircular] at h
    obtain ⟨s, -, rfl⟩ := List.mem_map.mp h
    exact ⟨rfl, rfl⟩

/-- The first defect in the order of the checks. -/
def defect? (t : Table) : Option Defect := Defect.all.find? fun k => !(k.check t).value

theorem value_checkStructure (t : Table) : t.checkStructure.value = t.defect?.isNone := by
  unfold checkStructure defect? Defect.all
  simp only [Noted.value_bind, Noted.value_ite, List.find?, Defect.check]
  cases t.checkComplete.value <;> cases t.checkReached.value <;>
    cases t.checkNotCircular.value <;> cases t.checkTerminating.value <;> rfl

/-- Checks before the first that fails report nothing, and those behind it are not made. -/
theorem reports_checkStructure (t : Table) : t.checkStructure.reports =
    match t.defect? with
    | some k => (k.check t).reports
    | none => [] := by
  have hpass (k : Defect) (h : (k.check t).value = true) : (k.check t).reports = [] :=
    value_check_iff.mp h
  have h₁ := hpass .unproduced
  have h₂ := hpass .unreachable
  have h₃ := hpass .circular
  have h₄ := hpass .underivable
  unfold checkStructure defect? Defect.all
  simp only [Noted.reports_bind, Noted.reports_ite, Noted.reports_pure, List.find?,
    Defect.check] at h₁ h₂ h₃ h₄ ⊢
  cases hc : t.checkComplete.value with
  | false => simp
  | true =>
    cases hr : t.checkReached.value with
    | false => simp [h₁ hc]
    | true =>
      cases hn : t.checkNotCircular.value with
      | false => simp [h₁ hc, h₂ hr]
      | true => cases ht : t.checkTerminating.value <;> simp [h₁ hc, h₂ hr, h₃ hn, h₄, ht]

/-- The errors about a grammar that fails the structural checks are of one kind. -/
theorem defect_of_mem_reports (h : t.checkStructure.value = false) : ∃ k, t.defect? = some k ∧
    t.check.reports ≠ [] ∧
    ∀ d ∈ t.check.reports, d.isError = true ∧ d.cause.defect? = some k := by
  have hreports : t.check.reports = t.checkStructure.reports := by
    unfold check
    simp [h]
  rw [hreports, reports_checkStructure]
  rw [value_checkStructure] at h
  cases hk : t.defect? with
  | none => rw [hk] at h; cases h
  | some k =>
    have hfail : (k.check t).value = false := by simpa using List.find?_some hk
    refine ⟨k, rfl, fun hnil => ?_, fun d hd => defect_of_mem_check hd⟩
    rw [value_check_iff.mpr hnil] at hfail
    cases hfail

/-- A grammar is turned down if and only if an error is reported. -/
theorem failed_check (t : Table) : t.check.failed = !t.check.value := by
  cases h : t.checkStructure.value with
  | false =>
    obtain ⟨k, -, hne, hk⟩ := defect_of_mem_reports h
    have hvalue : t.check.value = false := by simp [check, h]
    obtain ⟨d, hd⟩ := List.exists_mem_of_ne_nil _ hne
    rw [hvalue, Noted.failed_eq]
    exact List.any_eq_true.mpr ⟨d, hd, (hk d hd).1⟩
  | true =>
    have hstructure : t.checkStructure.reports = [] := by
      rw [reports_checkStructure]
      rw [value_checkStructure, Option.isNone_iff_eq_none] at h
      rw [h]
    have hreports : t.check.reports = t.checkChoices.reports := by simp [check, h, hstructure]
    have hvalue : t.check.value = t.checkChoices.value := by simp [check, h]
    rw [Noted.failed_eq, hreports, hvalue, ← Noted.failed_eq]
    exact (Bool.not_not _).symm

theorem failed_analyze (t : Table) :
    (t.analyze false).failed = !t.computeSets.value.check.value := by
  have hnotes : t.computeDeletable.failed = false := by
    rw [Noted.failed_eq, reports_computeDeletable, List.any_eq_false]
    intro d hd
    obtain ⟨s, -, rfl⟩ := List.mem_map.mp hd
    exact Bool.false_ne_true
  rw [← failed_check, Noted.failed_eq, reports_analyze, if_neg Bool.false_ne_true, List.any_append,
    ← Noted.failed_eq, ← Noted.failed_eq, hnotes, Bool.false_or]

end Table

namespace Grammar

/-- A grammar is accepted if and only if there are no errors in the end. -/
theorem accepted_iff_errorCount (g : Grammar) (log : Log) :
    (g.analyze log).2.2 = true ↔ (g.analyze log).1.errorCount = 0 := by
  have hcount : (g.analyze log).1.errorCount =
      log.errorCount + (g.table.analyze log.hasErrors).reports.countP Diagnostic.isError :=
    Log.errorCount_recordAll (Table.hideable_analyze _ _)
  have hverdict : (g.analyze log).2.2 = true ↔
      (g.table.analyze log.hasErrors).value.2 = true ∧ (g.analyze log).1.errorCount = 0 := by
    rw [← Log.hasErrors_eq_false_iff, ← Bool.not_eq_true', ← Bool.and_eq_true_iff]
    rfl
  rw [hverdict, and_iff_right_iff_imp]
  intro hzero
  have hnone := Log.hasErrors_eq_false_iff.mpr (show log.errorCount = 0 by omega)
  rw [hnone] at hcount ⊢
  rw [Table.value_analyze, if_neg Bool.false_ne_true]
  have hnot : (g.table.analyze false).failed = false := by
    rw [Noted.failed_eq, List.any_eq_false]
    exact List.countP_eq_zero.mp (by omega)
  rw [Table.failed_analyze] at hnot
  simpa using hnot

end Grammar

namespace CommandLine

variable {a : Arguments} {args : List String} {input source dir : String} {o : Outcome} {n m : Nat}

/-- The output ends with the line that `n` errors were detected. -/
def Outcome.Detected (o : Outcome) (n : Nat) : Prop :=
  ∃ reports : List String,
    o.output = String.join (reports.map line) ++ line (toString n ++ " errors detected")

/-- The digits at the end of a text whose last line they are. -/
theorem takeWhile_isDigit (reports : List String) (n : Nat) :
    ((String.join (reports.map line)).toList ++ Nat.toDigits 10 n).reverse.takeWhile Char.isDigit =
      (Nat.toDigits 10 n).reverse := by
  have hdigits : ∀ c ∈ (Nat.toDigits 10 n).reverse, c.isDigit = true := fun c hc =>
    Nat.isDigit_of_mem_toDigits (by decide) (by decide) (List.mem_reverse.mp hc)
  have hlines : (String.join (reports.map line)).toList.reverse.takeWhile Char.isDigit = [] := by
    rcases List.eq_nil_or_concat reports with rfl | ⟨l, s, rfl⟩
    · rfl
    · simp [line, String.join_append]
  rw [List.reverse_append, List.takeWhile_append_of_pos hdigits, hlines, List.append_nil]

/-- The number can be read off the output. -/
theorem Outcome.Detected.unique (hn : o.Detected n) (hm : o.Detected m) : n = m := by
  obtain ⟨l, hl⟩ := hn
  obtain ⟨l', hl'⟩ := hm
  have h := congrArg String.toList (hl.symm.trans hl')
  simp only [line, String.toList_append, Nat.toString_eq_repr, Nat.toList_repr,
    ← List.append_assoc] at h
  have h := List.append_cancel_right (List.append_cancel_right h)
  have hd := takeWhile_isDigit l n
  rw [h, takeWhile_isDigit, List.reverse_inj] at hd
  rw [← Nat.ofDigitChars_ten_toDigits (n := n), ← Nat.ofDigitChars_ten_toDigits (n := m), hd]

/-- A run exits with 0 if and only if the text is a grammar and the number of errors that it prints
is 0. -/
theorem exitCode_run_iff (a : Arguments) (source : String) : (run a source).exitCode = 0 ↔
    (∃ g, (Grammar.parse source a.config {}).2 = .ok g) ∧ (run a source).Detected 0 := by
  have hcode : (run a source).exitCode = 0 ↔ (run a source).accepted = true := by
    unfold Outcome.exitCode
    cases (run a source).accepted <;> decide
  rw [hcode]
  rcases hp : Grammar.parse source a.config {} with ⟨log, e | g⟩
  · have hrun : (run a source).accepted = false := by simp only [run, hp]
    simp [hrun]
  · have hrun : (run a source).accepted = (g.analyze log).2.2 := by simp only [run, hp]
    have hdetected : (run a source).Detected (g.analyze log).1.errorCount :=
      ⟨(g.analyze log).1.reports.toList.map Diagnostic.text, by
        simp only [run, hp, List.map_map]
        rfl⟩
    rw [hrun, Grammar.accepted_iff_errorCount]
    exact ⟨fun h => ⟨⟨g, rfl⟩, h ▸ hdetected⟩, fun h => hdetected.unique h.2⟩

/-! ### The program -/

section

variable {α β : Type} {x : IO α} {f : α → IO β} {v : α} {e : IO.Error} {w w' w₁ : Void IO.RealWorld}

theorem bind_of_ok (h : x w = .ok v w₁) : (x >>= f) w = f v w₁ := by
  change EST.bind x f w = _
  unfold EST.bind
  rw [h]

theorem toBaseIO_of_ok (h : x w = .ok v w₁) :
    (x.toBaseIO : IO (Except IO.Error α)) w = .ok (.ok v) w₁ := by
  change (match EIO.toBaseIO x w with | ⟨r, s⟩ => EST.Out.ok r s) = _
  unfold EIO.toBaseIO
  rw [h]

/-- Finds the grammar file and reads it. -/
def load (input : String) : IO (String × String) := do
  let path ← IO.FS.realPath input
  return (path.toString, ← IO.FS.readFile path)

/-- The output is printed, and the trace is written if there is one. -/
def Outcome.Delivered (o : Outcome) (path : String) (w w' : Void IO.RealWorld) : Prop :=
  match o.trace with
  | none => IO.print o.output w = .ok () w'
  | some trace => ∃ w₁ w₂, IO.print o.output w = .ok () w₁ ∧
      IO.FS.writeFile path trace w₁ = .ok () w₂ ∧ IO.print (traceNotice path) w₂ = .ok () w'

theorem finish_of_delivered (h : o.Delivered (a.tracePath dir) w w') :
    finish a dir o w = .ok o.exitCode w' := by
  unfold Outcome.Delivered at h
  unfold finish
  cases ht : o.trace with
  | none =>
    rw [ht] at h
    rw [bind_of_ok h]
    rfl
  | some trace =>
    rw [ht] at h
    obtain ⟨w₁, w₂, hprint, hwrite, hnotice⟩ := h
    rw [bind_of_ok hprint]
    dsimp only
    rw [bind_of_ok (toBaseIO_of_ok hwrite)]
    dsimp only
    rw [bind_of_ok hnotice]
    rfl

/-- If nothing fails, the exit code of the program is that of the run. -/
theorem main_of_delivered {path : String} (hread : read args = .ok (a, input))
    (hload : load input w = .ok (path, source) w₁)
    (h : (run a source).Delivered (a.tracePath (directory path)) w₁ w') :
    main args w = .ok (run a source).exitCode w' := by
  unfold main
  rw [hread]
  exact (bind_of_ok (toBaseIO_of_ok hload)).trans (finish_of_delivered h)

end

end CommandLine

namespace Grammar

open CommandLine

/-- A grammar is accepted if and only if the log holds no error in the end. The program, if it can
read the file and write what it has to, exits with 0 if and only if the text is a grammar and it
prints that 0 errors were detected. If the structural checks turn a grammar down, all errors are of
the kind of the first check that fails. -/
theorem verdict_eq_errorCount :
    (∀ source cfg log g, (Grammar.parse source cfg log).2 = .ok g →
      ((g.analyze (Grammar.parse source cfg log).1).2.2 = true ↔
        (g.analyze (Grammar.parse source cfg log).1).1.errorCount = 0)) ∧
    (∀ args a input path source w w₁ w', CommandLine.read args = .ok (a, input) →
      load input w = .ok (path, source) w₁ →
      (run a source).Delivered (a.tracePath (directory path)) w₁ w' →
      ∃ code, CommandLine.main args w = .ok code w' ∧
        (code = 0 ↔
          (∃ g, (Grammar.parse source a.config {}).2 = .ok g) ∧ (run a source).Detected 0)) ∧
    ∀ t : Table, t.checkStructure.value = false → t.check.value = false ∧
      ∃ k, t.defect? = some k ∧
        ∀ d ∈ t.check.reports, d.isError = true → d.cause.defect? = some k :=
  ⟨fun _ _ _ g _ => g.accepted_iff_errorCount _,
    fun _ a _ _ source _ _ _ hread hload h =>
      ⟨_, main_of_delivered hread hload h, exitCode_run_iff a source⟩,
    fun t h => by
      obtain ⟨k, hk, -, hd⟩ := t.defect_of_mem_reports h
      exact ⟨by simp [Table.check, h], k, hk, fun d hmem _ => (hd d hmem).2⟩⟩

/-- A nonterminal without a production, which the start symbol leads to. -/
def unproduced : String := "COMPILER A\nPRODUCTIONS\nA = \"a\" B.\nEND A."

set_option maxRecDepth 100000 in
theorem checked_unproduced : ∃ g, (Grammar.parse unproduced default {}).2 = .ok g ∧
    (!g.table.computeSets.value.checkStructure.value) = true :=
  exists_ok_of_any (by decide +kernel)

theorem verdict_unproduced : ∃ g, (Grammar.parse unproduced default {}).2 = .ok g ∧
    ((g.analyze (Grammar.parse unproduced default {}).1).2.2 = true ↔
      (g.analyze (Grammar.parse unproduced default {}).1).1.errorCount = 0) ∧
    g.table.computeSets.value.check.value = false ∧
      ∃ k, g.table.computeSets.value.defect? = some k ∧
        ∀ d ∈ g.table.computeSets.value.check.reports, d.isError = true →
          d.cause.defect? = some k := by
  obtain ⟨g, hg, h⟩ := checked_unproduced
  exact ⟨g, hg, verdict_eq_errorCount.1 _ _ _ g hg,
    verdict_eq_errorCount.2.2 _ (by simpa using h)⟩

end Grammar

end Lookahead
