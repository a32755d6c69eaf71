import Lookahead.Config
import Lookahead.Diagnostic

/-!
# The log

Work on a grammar yields a value and the events met on the way. Events do not depend on the
configuration: which of them are shown is decided when they enter a log (`Log.record`), so the
values cannot depend on it either.
-/

namespace Lookahead

inductive Event where
  | report (d : Diagnostic)
  /-- Text that a category shows; the listing of symbols spells tokens with the configured
  prefix. -/
  | listing (k : Category) (text : Config → String)

namespace Event

def report? : Event → Option Diagnostic
  | report d => some d
  | listing _ _ => none

def isError : Event → Bool
  | report d => d.isError
  | listing _ _ => false

end Event

/-- A value and the events met while computing it. -/
structure Noted (α : Type) where
  value : α
  events : List Event

namespace Noted

variable {α β : Type}

instance : Monad Noted where
  pure a := ⟨a, []⟩
  bind x f := ⟨(f x.value).value, x.events ++ (f x.value).events⟩

/-- Meets one event. -/
def emit (e : Event) : Noted Unit := ⟨(), [e]⟩

def report (d : Diagnostic) : Noted Unit := emit (.report d)

def error (c : Cause) (l : Option Location := none) : Noted Unit := report (.error c l)

def warning (c : Cause) (l : Option Location := none) : Noted Unit := report (.warning c l)

/-- Whether an error was met. -/
def failed (x : Noted α) : Bool := x.events.any Event.isError

@[simp] theorem value_pure (a : α) : (pure a : Noted α).value = a := rfl

@[simp] theorem events_pure (a : α) : (pure a : Noted α).events = [] := rfl

@[simp] theorem value_bind (x : Noted α) (f : α → Noted β) :
    (x >>= f).value = (f x.value).value := rfl

@[simp] theorem events_bind (x : Noted α) (f : α → Noted β) :
    (x >>= f).events = x.events ++ (f x.value).events := rfl

@[simp] theorem value_map (f : α → β) (x : Noted α) : (f <$> x).value = f x.value := rfl

@[simp] theorem value_ite (c : Prop) [Decidable c] (x y : Noted α) :
    (if c then x else y).value = if c then x.value else y.value :=
  apply_ite ..

theorem value_foldlM (f : β → α → Noted β) (l : List α) (b : β) :
    (l.foldlM f b).value = l.foldl (fun b a => (f b a).value) b := by
  induction l generalizing b with
  | nil => rfl
  | cons a l ih => exact ih _

@[simp] theorem events_map (f : α → β) (x : Noted α) : (f <$> x).events = x.events :=
  List.append_nil _

end Noted

/-- Reports and the text of the enabled listings, each in the order in which they came. -/
structure Log where
  reports : Array Diagnostic := #[]
  trace : String := ""
deriving DecidableEq, Inhabited

namespace Log

def report (log : Log) (d : Diagnostic) : Log := { log with reports := log.reports.push d }

def write (log : Log) (s : String) : Log := { log with trace := log.trace ++ s }

def errorCount (log : Log) : Nat := log.reports.countP (·.isError)

def warningCount (log : Log) : Nat := log.reports.countP (·.isWarning)

def hasErrors (log : Log) : Bool := log.reports.any (·.isError)

/-- Whether a configuration hides a diagnostic. -/
def hides (cfg : Config) (d : Diagnostic) : Bool :=
  cfg.suppressResolverWarnings && d.cause == .resolverWithoutConflict

def record (cfg : Config) (log : Log) : Event → Log
  | .report d => if hides cfg d then log else log.report d
  | .listing k text => if cfg.tracing.enabled k then log.write (text cfg) else log

def recordAll (cfg : Config) (log : Log) (es : List Event) : Log := es.foldl (record cfg) log

end Log

end Lookahead
