import Lookahead.Definition.Reading

/-!
# Reading expressions

Productions and token definitions share the forms of their expressions and differ in what a
factor is and what a term is made of. Groups nest to a limited depth, so a reader is defined by
recursion on the levels that are left, with the reader of the next level as an argument.
-/

namespace Lookahead

/-- How many expressions may be open at a time, the outermost one included. -/
def maxNesting : Nat := 256

namespace Bracket

def ofOpening? : Token.Kind → Option Bracket
  | .lparen => some round
  | .lbracket => some square
  | .lbrace => some curly
  | _ => none

def closing : Bracket → Token.Kind
  | round | context => .rparen
  | square => .rbracket
  | curly => .rbrace

def closingExpected : Bracket → Expected
  | round | context => .rparen
  | square => .rbracket
  | curly => .rbrace

end Bracket

/-- Reads an expression or a part of one. -/
abbrev ExprReader (α : Type) := List Token → Reading (Expr α) (Expr α)

/-- Reads the rest of a group whose opening bracket has been taken. -/
abbrev GroupReader (α : Type) := Token → Bracket → ExprReader α

namespace ExprReader

variable {α : Type}

/-- Appends factors to `e` as long as one starts. Each takes a token, so `fuel` equal to the number
of tokens is enough. -/
def moreFactors (starts : Token.Kind → Bool) (factor : ExprReader α) :
    (fuel : Nat) → Expr α → ExprReader α
  | 0, e, ts => .done e ts
  | _, e, [] => .done e []
  | fuel + 1, e, t :: ts =>
    if starts t.kind then
      match factor (t :: ts) with
      | .done f rest => moreFactors starts factor fuel (.seq e f) rest
      | .stopped f err => .stopped (.seq e f) err
    else .done e (t :: ts)

/-- One factor and all that follow it. -/
def factors (starts : Token.Kind → Bool) (factor : ExprReader α) : ExprReader α := fun ts =>
  (factor ts).andThen fun e rest => moreFactors starts factor rest.length e rest

/-- Appends alternatives to `e` as long as a bar follows. -/
def moreAlternatives (term : ExprReader α) : (fuel : Nat) → Expr α → ExprReader α
  | 0, e, ts => .done e ts
  | _, e, [] => .done e []
  | fuel + 1, e, t :: ts =>
    if t.kind = .bar then
      match term ts with
      | .done f rest => moreAlternatives term fuel (.alt e f) rest
      | .stopped f err => .stopped (.alt e f) err
    else .done e (t :: ts)

def alternatives (term : ExprReader α) : ExprReader α := fun ts =>
  (term ts).andThen fun e rest => moreAlternatives term rest.length e rest

/-- Takes the closing bracket behind the content of a group. -/
def close (b : Bracket) : Reading (Expr α) (Expr α) → Reading (Expr α) (Expr α)
  | .done e rest =>
    match expect b.closing b.closingExpected rest with
    | .done _ rest => .done (.group b e) rest
    | .stopped _ err => .stopped e err
  | .stopped e err => .stopped e err

/-- Groups nested at most `room` deep. -/
def groups (content : GroupReader α → ExprReader α) : (room : Nat) → GroupReader α
  | 0, t, _, _ => .stopped .empty (.tooDeep t.location)
  | room + 1, _, b, ts => close b (content (groups content room) ts)

/-- A whole expression. -/
def whole (content : GroupReader α → ExprReader α) : ExprReader α :=
  content (groups content (maxNesting - 1))

end ExprReader

namespace Atom

/-- The tokens that a factor of a production can start with. -/
def startsFactor : Token.Kind → Bool
  | .ident | .string | .char | .keyword .weak | .keyword .any | .keyword .sync
  | .lparen | .lbracket | .lbrace | .action => true
  | _ => false

/-- An identifier or literal with its attributes. -/
def readSymbol (weak : Bool) : ExprReader Atom
  | t :: ts =>
    if t.kind = .ident ∨ t.kind = .string ∨ t.kind = .char then
      let (attributes, rest) := accept .attributes ts
      .done (.atom (.symbol weak t attributes)) rest
    else .stopped .empty (unexpected .identOrString (t :: ts))
  | [] => .stopped .empty (unexpected .identOrString [])

def readFactor (group : GroupReader Atom) : ExprReader Atom
  | [] => .stopped .empty (unexpected .factor [])
  | t :: ts =>
    match t.kind with
    | .keyword .weak => readSymbol true ts
    | .ident | .string | .char => readSymbol false (t :: ts)
    | .action => .done (.atom (.action t)) ts
    | .keyword .any => .done (.atom (.any t)) ts
    | .keyword .sync => .done (.atom (.sync t)) ts
    | k =>
      match Bracket.ofOpening? k with
      | some b => group t b ts
      | none => .stopped .empty (unexpected .factor (t :: ts))

/-- A resolver needs a factor behind it; without one, a term may be empty. -/
def readTerm (group : GroupReader Atom) : ExprReader Atom
  | [] => .done .empty []
  | t :: ts =>
    if t.kind = .resolver then
      let r : Expr Atom := .atom (.resolver t)
      match readFactor group ts with
      | .done f rest =>
        ExprReader.moreFactors startsFactor (readFactor group) rest.length (.seq r f) rest
      | .stopped f err => .stopped (.seq r f) err
    else if startsFactor t.kind then
      ExprReader.factors startsFactor (readFactor group) (t :: ts)
    else .done .empty (t :: ts)

/-- The right-hand side of a production. -/
def readExpr : ExprReader Atom :=
  ExprReader.whole fun group => ExprReader.alternatives (readTerm group)

end Atom

namespace TokenAtom

def startsFactor : Token.Kind → Bool
  | .ident | .string | .char | .lparen | .lbracket | .lbrace => true
  | _ => false

def readFactor (group : GroupReader TokenAtom) : ExprReader TokenAtom
  | [] => .stopped .empty (unexpected .tokenFactor [])
  | t :: ts =>
    match t.kind with
    | .ident => .done (.atom (.className t)) ts
    | .string | .char => .done (.atom (.literal t)) ts
    | k =>
      match Bracket.ofOpening? k with
      | some b => group t b ts
      | none => .stopped .empty (unexpected .tokenFactor (t :: ts))

/-- The context of a token, if there is one, behind its factors `e`. -/
def readContext (group : GroupReader TokenAtom) (e : Expr TokenAtom) : ExprReader TokenAtom :=
  fun ts =>
    match accept (.keyword .context) ts with
    | (none, rest) => .done e rest
    | (some _, rest) =>
      match expect .lparen .lparen rest with
      | .stopped _ err => .stopped e err
      | .done t rest =>
        match group t .context rest with
        | .done f rest => .done (.seq e f) rest
        | .stopped f err => .stopped (.seq e f) err

def readTerm (group : GroupReader TokenAtom) : ExprReader TokenAtom := fun ts =>
  (ExprReader.factors startsFactor (readFactor group) ts).andThen (readContext group)

/-- The structure of a token. -/
def readExpr : ExprReader TokenAtom :=
  ExprReader.whole fun group => ExprReader.alternatives (readTerm group)

end TokenAtom

end Lookahead
