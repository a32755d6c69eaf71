import Lookahead.Token

/-!
# Grammar definitions

A grammar text as a tree. Its leaves are tokens, so that whatever is found wrong with one can be
reported where it stands.
-/

namespace Lookahead

/-- What encloses a group: `( )`, `[ ]`, `{ }`, or `CONTEXT ( )`. -/
inductive Bracket where
  | round
  | square
  | curly
  | context
deriving DecidableEq, Repr, Inhabited

/-- Expressions over atoms `α`. Sequences and alternatives nest to the left, and only a `group` has
an alternative inside a sequence. -/
inductive Expr (α : Type) where
  | empty
  | atom (a : α)
  | seq (e f : Expr α)
  | alt (e f : Expr α)
  | group (b : Bracket) (e : Expr α)
deriving DecidableEq, Repr, Inhabited

namespace Expr

variable {α : Type}

def isAlt : Expr α → Bool
  | alt _ _ => true
  | _ => false

end Expr

/-- The parts of a production. -/
inductive Atom where
  /-- An identifier, string or character, with its attributes. -/
  | symbol (weak : Bool) (name : Token) (attributes : Option Token)
  | any (t : Token)
  | sync (t : Token)
  | action (t : Token)
  | resolver (t : Token)
deriving DecidableEq, Repr, Inhabited

/-- The parts of a token definition. -/
inductive TokenAtom where
  | className (name : Token)
  /-- A string or a character. -/
  | literal (t : Token)
deriving DecidableEq, Repr, Inhabited

namespace Expr

/-- The literal that is all there is, parentheses aside. -/
def literal? : Expr TokenAtom → Option Token
  | atom (.literal t) => some t
  | group .round e => e.literal?
  | _ => none

end Expr

inductive SimpleSet where
  | name (t : Token)
  | string (t : Token)
  | char (t : Token)
  | range (lo hi : Token)
  | any
deriving DecidableEq, Repr, Inhabited

/-- A set that is added to those before it, or taken away from them. -/
structure SetTerm where
  minus : Bool
  set : SimpleSet
deriving DecidableEq, Repr, Inhabited

/-- `name = set .` -/
structure SetDecl where
  name : Token
  terms : List SetTerm
deriving DecidableEq, Repr, Inhabited

/-- `name = body . action`, or a name or literal alone. -/
structure TokenDecl where
  name : Token
  body : Option (Expr TokenAtom)
  action : Option Token
deriving DecidableEq, Repr, Inhabited

/-- `name attributes locals = body .` -/
structure Production where
  name : Token
  attributes : Option Token
  locals : Option Token
  body : Expr Atom
deriving DecidableEq, Repr, Inhabited

/-- The declarations of a grammar text, section by section. -/
structure Sections where
  directives : List Token := []
  sets : List SetDecl := []
  tokens : List TokenDecl := []
  pragmas : List TokenDecl := []
  productions : List Production := []
deriving DecidableEq, Repr, Inhabited

/-- A whole grammar text; `ending` is the name behind `END`. -/
structure Definition where
  name : Token
  sections : Sections
  ending : Token
deriving DecidableEq, Repr, Inhabited

end Lookahead
