import Lookahead.Definition.ExprReader
import Lookahead.Token.Scan

/-!
# Reading definitions

From tokens to a `Definition`. Where reading stops, the sections read so far are kept, and what
had been read of the declaration that broke off is a `Fragment`. Tokens behind the final dot are
not looked at.
-/

namespace Lookahead

/-- A declaration as far as it could be read. -/
inductive Fragment where
  | nothing
  /-- The name of a set and the first terms. -/
  | setStart (name : Token) (terms : List SetTerm)
  | set (d : SetDecl)
  | token (name : Token) (body : Expr TokenAtom)
  | pragma (name : Token) (body : Expr TokenAtom)
  | production (p : Production)
  /-- The names behind `COMPILER` and `END`. -/
  | ending (name last : Token)
deriving Repr

/-- A text that stopped being a definition. -/
structure Broken where
  sections : Sections
  last : Fragment
  error : SyntaxError
deriving Repr

namespace SimpleSet

def read : List Token → Reading (List SimpleSet) SimpleSet
  | [] => .stopped [] (unexpected .set [])
  | t :: ts =>
    match t.kind with
    | .ident => .done (.name t) ts
    | .string => .done (.string t) ts
    | .keyword .any => .done .any ts
    | .char =>
      match accept .dotDot ts with
      | (none, rest) => .done (.char t) rest
      | (some _, rest) =>
        match expect .char .char rest with
        | .done u rest => .done (.range t u) rest
        | .stopped _ err => .stopped [.char t] err
    | _ => .stopped [] (unexpected .set (t :: ts))

end SimpleSet

namespace SetTerm

/-- Whether a token starts a further term, and which. -/
def sign? : Token.Kind → Option Bool
  | .plus => some false
  | .minus => some true
  | _ => none

/-- The terms behind a sign. -/
def readFrom (minus : Bool) :
    (fuel : Nat) → List Token → Reading (List SetTerm) (List SetTerm)
  | 0, ts => .done [] ts
  | fuel + 1, ts =>
    match SimpleSet.read ts with
    | .stopped part err => .stopped (part.map fun s => ⟨minus, s⟩) err
    | .done s [] => .done [⟨minus, s⟩] []
    | .done s (t :: rest) =>
      match sign? t.kind with
      | none => .done [⟨minus, s⟩] (t :: rest)
      | some m =>
        ((readFrom m fuel rest).map (⟨minus, s⟩ :: ·)).mapPart (⟨minus, s⟩ :: ·)

/-- Terms with signs between them; the first one is added to the empty set. -/
def readAll (ts : List Token) : Reading (List SetTerm) (List SetTerm) :=
  readFrom false (ts.length + 1) ts

end SetTerm

/-- Reads a declaration behind the token that it starts with. -/
abbrev DeclReader (δ : Type) := Token → List Token → Reading Fragment δ

def SetDecl.read : DeclReader SetDecl := fun name ts =>
  ((expect .equals .equals ts).mapPart fun _ => .setStart name []).andThen fun _ ts =>
  ((SetTerm.readAll ts).mapPart (.setStart name)).andThen fun terms ts =>
  ((expect .dot .dot ts).mapPart fun _ => .set ⟨name, terms⟩).andThen fun _ ts =>
  .done ⟨name, terms⟩ ts

/-- `broken` makes a fragment of the name and what there is of the structure. -/
def TokenDecl.read (broken : Token → Expr TokenAtom → Fragment) : DeclReader TokenDecl :=
  fun name ts =>
    match accept .equals ts with
    | (none, rest) =>
      let (action, rest) := accept .action rest
      .done ⟨name, none, action⟩ rest
    | (some _, rest) =>
      ((TokenAtom.readExpr rest).mapPart (broken name)).andThen fun e rest =>
      ((expect .dot .dot rest).mapPart fun _ => broken name e).andThen fun _ rest =>
      let (action, rest) := accept .action rest
      .done ⟨name, some e, action⟩ rest

def Production.read : DeclReader Production := fun name ts =>
  let (attributes, ts) := accept .attributes ts
  let (locals, ts) := accept .action ts
  let broken (e : Expr Atom) := Fragment.production ⟨name, attributes, locals, e⟩
  ((expect .equals .equals ts).mapPart fun _ => broken .empty).andThen fun _ ts =>
  ((Atom.readExpr ts).mapPart broken).andThen fun e ts =>
  ((expect .dot .dot ts).mapPart fun _ => broken e).andThen fun _ ts =>
  .done ⟨name, attributes, locals, e⟩ ts

/-- Declarations as long as one starts. -/
def readMany {δ : Type} (starts : Token.Kind → Bool) (decl : DeclReader δ) :
    (fuel : Nat) → List Token → Reading (List δ × Fragment) (List δ)
  | 0, ts => .done [] ts
  | _, [] => .done [] []
  | fuel + 1, t :: ts =>
    if starts t.kind then
      match decl t ts with
      | .stopped part err => .stopped ([], part) err
      | .done d rest =>
        ((readMany starts decl fuel rest).map (d :: ·)).mapPart fun p => (d :: p.1, p.2)
    else .done [] (t :: ts)

/-- The declarations behind a keyword; none if the keyword is missing. -/
def readSection {δ : Type} (k : Keyword) (starts : Token.Kind → Bool) (decl : DeclReader δ)
    (ts : List Token) : Reading (List δ × Fragment) (List δ) :=
  match accept (.keyword k) ts with
  | (none, rest) => .done [] rest
  | (some _, rest) => readMany starts decl rest.length rest

namespace Definition

def isName (k : Token.Kind) : Bool := k == .ident

def isNameOrString (k : Token.Kind) : Bool := k == .ident || k == .string

/-- A step at which nothing has been read of a declaration. -/
def between {α β : Type} (s : Sections) (r : Reading β α) : Reading (Sections × Fragment) α :=
  r.mapPart fun _ => (s, .nothing)

def readTokens (ts : List Token) : Reading (Sections × Fragment) Definition :=
  (between {} (expect (.keyword .compiler) .compiler ts)).andThen fun _ ts =>
  (between {} (expect .ident .ident ts)).andThen fun name ts =>
  let s : Sections := { directives := ts.takeWhile (·.kind == .directive) }
  let ts := ts.dropWhile (·.kind == .directive)
  ((readSection .characters isName SetDecl.read ts).mapPart fun p =>
    ({ s with sets := p.1 }, p.2)).andThen fun sets ts =>
  let s := { s with sets := sets }
  ((readSection .tokens isNameOrString (TokenDecl.read .token) ts).mapPart fun p =>
    ({ s with tokens := p.1 }, p.2)).andThen fun tokens ts =>
  let s := { s with tokens := tokens }
  ((readSection .pragmas isNameOrString (TokenDecl.read .pragma) ts).mapPart fun p =>
    ({ s with pragmas := p.1 }, p.2)).andThen fun pragmas ts =>
  let s := { s with pragmas := pragmas }
  (between s (expect (.keyword .productions) .productions ts)).andThen fun _ ts =>
  ((readMany isName Production.read ts.length ts).mapPart fun p =>
    ({ s with productions := p.1 }, p.2)).andThen fun productions ts =>
  let s := { s with productions := productions }
  (between s (expect (.keyword .ending) .ending ts)).andThen fun _ ts =>
  (between s (expect .ident .ident ts)).andThen fun last ts =>
  ((expect .dot .dot ts).mapPart fun _ => (s, .ending name last)).andThen fun _ ts =>
  .done ⟨name, s, last⟩ ts

/-- Reads a grammar text. All of it has to consist of tokens, also behind the final dot. -/
def read (source : String) : Except Broken Definition :=
  let s := Token.read source
  match s.rejected with
  | some p => .error ⟨{}, .nothing, .invalidCharacter ⟨p.line + 1, p.col + 1⟩⟩
  | none =>
    match readTokens s.tokens with
    | .done d _ => .ok d
    | .stopped (sections, last) err => .error ⟨sections, last, err⟩

end Definition

end Lookahead
