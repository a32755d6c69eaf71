/-!
# Diagnostics

What there is to say about a grammar: a cause, how serious it is, and where it was found.
-/

namespace Lookahead

inductive Severity where
  /-- The grammar is rejected. -/
  | error
  | warning
  | note
deriving DecidableEq, Repr, Inhabited

/-- A line and a column of the grammar text, counted from 1. Column 0 stands for the whole
line. -/
structure Location where
  line : Nat
  col : Nat
deriving DecidableEq, Repr, Inhabited

/-- Why one symbol of lookahead does not decide. -/
inductive Conflict where
  | severalAlternatives
  | deletableAndSuccessor
  | emptyWildcard
  | deletableContent
deriving DecidableEq, Repr, Inhabited

namespace Conflict

def message : Conflict → String
  | severalAlternatives => "start of several alternatives"
  | deletableAndSuccessor => "start & successor of deletable structure"
  | emptyWildcard => "an ANY node that matches no symbol"
  | deletableContent => "contents of [...] or \x7b...\x7d must not be deletable"

end Conflict

/-- Mistakes found while the grammar text is turned into a table. -/
inductive Fault where
  | declaredTwice
  | emptyCharSet
  | undefinedName
  | badCharValue
  | structuredLiteral
  | tokenStringTwice
  | misplacedAction
  | badProductionHead
  | attributeMismatch
  | weakNonterminal
  | badSymbolKind
  | literalAttributes
  | grammarNameMismatch
  | startAttributes
  | missingStart
deriving DecidableEq, Repr, Inhabited

namespace Fault

def message : Fault → String
  | declaredTwice => "name declared twice"
  | emptyCharSet => "character set must not be empty"
  | undefinedName => "undefined name"
  | badCharValue => "unacceptable character value"
  | structuredLiteral => "a literal must not be declared with a structure"
  | tokenStringTwice => "token string declared twice"
  | misplacedAction => "semantic action not allowed here"
  | badProductionHead => "this symbol kind not allowed on left side of production"
  | attributeMismatch => "attribute mismatch between declaration and use of this symbol"
  | weakNonterminal => "only terminals may be weak"
  | badSymbolKind => "this symbol kind is not allowed in a production"
  | literalAttributes => "a literal must not have attributes"
  | grammarNameMismatch => "name does not match grammar name"
  | startAttributes => "grammar symbol must not have attributes"
  | missingStart => "missing production for grammar name"

end Fault

inductive Cause where
  | emptyToken
  | badEscape
  | noProduction (nonterminal : String)
  | unreachable (nonterminal : String)
  | circular (left right : String)
  | underivable (nonterminal : String)
  | deletable (nonterminal : String)
  /-- The symbol is missing where the conflict is not about one terminal. -/
  | ll1 (nonterminal : String) (symbol : Option String) (conflict : Conflict)
  | resolverNeverEvaluated
  | resolverWithoutConflict
  | resolverWithoutAlternative
  | fault (f : Fault)
  /-- A message from outside the library. -/
  | other (message : String)
deriving DecidableEq, Repr, Inhabited

namespace Cause

def message : Cause → String
  | emptyToken => "empty token not allowed"
  | badEscape => "bad escape sequence in string or character"
  | noProduction a => "No production for " ++ a
  | unreachable a => a ++ " cannot be reached"
  | circular a b => a ++ " --> " ++ b
  | underivable a => a ++ " cannot be derived to terminals"
  | deletable a => a ++ " is deletable"
  | ll1 a t k =>
    "LL1 warning in " ++ a ++ ": " ++ (match t with
      | some t => t ++ " is "
      | none => "") ++ k.message
  | resolverNeverEvaluated =>
    "Resolver will never be evaluated. Place it at previous conflicting alternative."
  | resolverWithoutConflict => "Misplaced resolver: no LL(1) conflict."
  | resolverWithoutAlternative => "Misplaced resolver: no alternative."
  | fault f => f.message
  | other m => m

end Cause

structure Diagnostic where
  severity : Severity
  cause : Cause
  location : Option Location := none
deriving DecidableEq, Repr, Inhabited

namespace Diagnostic

def error (c : Cause) (l : Option Location := none) : Diagnostic := ⟨.error, c, l⟩

def warning (c : Cause) (l : Option Location := none) : Diagnostic := ⟨.warning, c, l⟩

def note (c : Cause) : Diagnostic := ⟨.note, c, none⟩

def isError (d : Diagnostic) : Bool := d.severity == .error

def isWarning (d : Diagnostic) : Bool := d.severity == .warning

/-- Only a located warning is marked as such. -/
def text (d : Diagnostic) : String :=
  match d.location with
  | none => "  " ++ d.cause.message
  | some l =>
    "-- line " ++ toString l.line ++ " col " ++ toString l.col ++ ": " ++
      (if d.isWarning then "Warning: " else "") ++ d.cause.message

end Diagnostic

end Lookahead
