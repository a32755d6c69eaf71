import Lookahead.Definition
import Lookahead.Definition.SyntaxError

/-!
# Steps of reading

A step takes tokens from the front of a list. It ends with a value and the tokens that are left,
or stops with an error and with what it had read until then, which may contain faults that are
to be reported as well.
-/

namespace Lookahead

inductive Reading (β α : Type) where
  | done (value : α) (rest : List Token)
  | stopped (part : β) (error : SyntaxError)
deriving Repr

namespace Reading

variable {α β γ : Type}

def andThen : Reading β α → (α → List Token → Reading β γ) → Reading β γ
  | done a ts, f => f a ts
  | stopped b e, _ => stopped b e

def map (f : α → γ) : Reading β α → Reading β γ
  | done a ts => done (f a) ts
  | stopped b e => stopped b e

def mapPart (f : β → γ) : Reading β α → Reading γ α
  | done a ts => done a ts
  | stopped b e => stopped (f b) e

end Reading

/-- The error for tokens that should have started otherwise. -/
def unexpected (what : Expected) : List Token → SyntaxError
  | [] => .unexpectedEnd what
  | t :: _ => if t.kind = .unterminated then .unterminated t.location else .expected what t.location

def expect (k : Token.Kind) (what : Expected) : List Token → Reading Unit Token
  | t :: ts => if t.kind = k then .done t ts else .stopped () (unexpected what (t :: ts))
  | [] => .stopped () (unexpected what [])

/-- Takes a token of the kind if there is one. -/
def accept (k : Token.Kind) : List Token → Option Token × List Token
  | t :: ts => if t.kind = k then (some t, ts) else (none, t :: ts)
  | [] => (none, [])

end Lookahead
