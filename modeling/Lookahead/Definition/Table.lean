import Lookahead.Definition.Reader
import Lookahead.Listing

/-!
# The table of a definition

The declarations of a grammar text turn into symbols, character classes and graphs, in the order
in which they stand there, since a name means what has been declared under it so far. Faults are
reported and do not stop the work.
-/

namespace Lookahead

namespace Token

/-- A string as it is written, and a character as the string of one character. -/
def spelling (t : Token) : List Char :=
  if t.kind = .char then
    if t.inner = ['"'] then ['"', '\\', '"', '"'] else '"' :: t.inner ++ ['"']
  else t.chars

/-- The text without its delimiters, which are `opening` and `closing` bytes long. -/
def spanInside (t : Token) (opening closing : Nat) : Span :=
  ⟨t.start.byte + opening, t.stop.byte - closing, t.line, t.location.col⟩

def attributesSpan (t : Token) : Span := t.spanInside 1 1

def actionSpan (t : Token) : Span := t.spanInside 2 2

/-- The condition between the parentheses. -/
def conditionSpan (t : Token) : Span :=
  t.spanInside ((t.chars.takeWhile (· ≠ '(')).length + 1) 1

end Token

/-- Reports a fault at a token. -/
def faultAt (t : Token) (f : Fault) : Noted Unit := Noted.error (.fault f) (some t.location)

/-! ### Character sets -/

/-- The character that a literal stands for; 0 if it is not exactly one. -/
def charValue (t : Token) : Noted Nat := do
  match ← Table.unescapeAt t.line t.inner with
  | [c] => return c.toNat
  | _ =>
    faultAt t .badCharValue
    return 0

namespace SimpleSet

def eval (t : Table) : SimpleSet → Noted CharSet
  | name n =>
    match t.classByName? n.text with
    | some c => return (t.charClass c).set
    | none => do
      faultAt n .undefinedName
      return .empty
  | string s => do return .ofList ((← Table.unescapeAt s.line s.inner).map Char.toNat)
  | char c => do return CharSet.empty.insert (← charValue c)
  | range lo hi => do
    let lo ← charValue lo
    let hi ← charValue hi
    return if lo ≤ hi then CharSet.empty.insertRange lo hi else .empty
  | any => return .full

end SimpleSet

def evalTerms (t : Table) (terms : List SetTerm) : Noted CharSet :=
  terms.foldlM (fun s term => do
    let r ← term.set.eval t
    return if term.minus then s.diff r else s.union r) .empty

/-- A name is free for a class if no class has it yet. -/
def checkClassName (t : Table) (name : Token) : Noted Unit := do
  if (t.classByName? name.text).isSome then faultAt name .declaredTwice

def SetDecl.declare (t : Table) (d : SetDecl) : Noted Table := do
  checkClassName t d.name
  let s ← evalTerms t d.terms
  if s.isEmpty then faultAt d.name .emptyCharSet
  return (t.addClass d.name.text s).1

/-! ### Expressions -/

namespace Expr

variable {α : Type}

/-- Makes a group of a piece. -/
def wrap (t : Table) (p : Piece) : Bracket → Table × Piece
  | .round => (t, p)
  | .square => t.onPiece (·.option p)
  | .curly => t.onPiece (·.iteration p)
  | .context => (t.onGraph (·.markContext (some p.entry)), p)

/-- The graph of an expression, given the graphs of its atoms. Parts are built from left to right,
and the first of several alternatives is wrapped once the second has been built. -/
def build (atoms : Table → α → Noted (Table × Piece)) : Table → Expr α → Noted (Table × Piece)
  | t, empty => return t.addNode .empty 0
  | t, atom a => atoms t a
  | t, seq e f => do
    let (t, p) ← build atoms t e
    let (t, q) ← build atoms t f
    return t.onPiece (·.sequence p q)
  | t, alt e f => do
    let (t, p) ← build atoms t e
    let (t, q) ← build atoms t f
    let (t, p) := if e.isAlt then (t, p) else t.onPiece (·.firstAlternative p)
    return t.onPiece (·.alternative p q)
  | t, group b e => do
    let (t, p) ← build atoms t e
    return wrap t p b

end Expr

/-! ### Tokens and pragmas -/

def TokenAtom.build (t : Table) : TokenAtom → Noted (Table × Piece)
  | className n =>
    match t.classByName? n.text with
    | some c => return t.addNode (.charClass c .normal) n.line
    | none => do
      faultAt n .undefinedName
      let (t, c) := t.addClass n.text .empty
      return t.addNode (.charClass c .normal) n.line
  | literal l => t.addLiteralChars l.spelling l.line

namespace TokenDecl

/-- The symbol of a declaration, a new one unless the name is taken. -/
def declareName (kind : SymbolKind) (t : Table) (name : Token) : Noted (Table × SymbolId) :=
  match t.find? name.text with
  | some s => do
    faultAt name .declaredTwice
    return (t, s)
  | none => t.declare kind name.text name.line

/-- A token that is one literal can be written as that literal. -/
def setBody (t : Table) (s : SymbolId) (name : Token) (e : Expr TokenAtom) : Noted Table := do
  let (t, p) ← e.build TokenAtom.build t
  if name.kind = .string then faultAt name .structuredLiteral
  let t := t.onGraph (·.finish p)
  match e.literal? with
  | some l =>
    let spelling := String.ofList l.spelling
    if (t.literal? spelling).isSome then faultAt name .tokenStringTwice
    return t.addLiteral spelling s
  | none => return t.modifySymbol s fun s => { s with tokenKind := .classes }

def setAction (kind : SymbolKind) (t : Table) (s : SymbolId) (action : Token) : Noted Table := do
  if kind ≠ .pragma then faultAt action .misplacedAction
  return t.modifySymbol s fun s => { s with action := some action.actionSpan }

def declare (kind : SymbolKind) (t : Table) (d : TokenDecl) : Noted Table := do
  let (t, s) ← declareName kind t d.name
  let t ← match d.body with
    | some e => setBody t s d.name e
    | none =>
      pure (if d.name.kind = .string then
        t.modifySymbol s fun s => { s with tokenKind := .literal } else t)
  match d.action with
  | some a => setAction kind t s a
  | none => return t

end TokenDecl

/-! ### Productions -/

/-- A symbol that has been used or declared before agrees with this occurrence in whether it has
attributes. -/
def checkAttributes (t : Table) (s : SymbolId) (name : Token) (attributes : Option Token) :
    Noted Unit := do
  if (t.symbol s).attributes.isSome ≠ attributes.isSome then faultAt name .attributeMismatch

def setAttributes (t : Table) (s : SymbolId) (attributes : Option Token) : Table :=
  t.modifySymbol s fun s => { s with attributes := attributes.map Token.attributesSpan }

namespace Atom

/-- The symbol under a name: a declared symbol, or the token with that literal if the name is no
identifier. -/
def resolve? (t : Table) (name : Token) : Option SymbolId :=
  let spelling := String.ofList name.spelling
  match t.find? spelling with
  | some s => some s
  | none => if name.kind = .ident then none else t.literal? spelling

/-- A symbol for a name that means nothing yet: an identifier stands for a nonterminal, which is
given its line by its production, and a literal for a terminal. -/
def declareUse (t : Table) (name : Token) : Noted (Table × SymbolId) := do
  let spelling := String.ofList name.spelling
  if name.kind = .ident then t.declare .nonterminal spelling 0
  else
    let (t, s) ← t.declare .terminal spelling name.line
    return (t.modifySymbol s fun s => { s with tokenKind := .literal }, s)

/-- The kind of node for a symbol. A pragma is taken for a terminal. -/
def nodeKind (kind : SymbolKind) (weak : Bool) (name : Token) (s : SymbolId) : Noted NodeKind := do
  match kind with
  | .nonterminal =>
    if weak then faultAt name .weakNonterminal
    return .nonterminal s
  | .terminal => return if weak then .weak s else .terminal s
  | .pragma =>
    faultAt name .badSymbolKind
    return .terminal s

/-- A single node with a span. -/
def spanned (t : Table) (k : NodeKind) (line : Nat) (span : Option Span) : Table × Piece :=
  let (t, p) := t.addNode k line
  (t.onGraph (·.setSpan p.entry span), p)

def buildSymbol (t : Table) (weak : Bool) (name : Token) (attributes : Option Token) :
    Noted (Table × Piece) := do
  let found := resolve? t name
  let (t, s) ← match found with
    | some s => pure (t, s)
    | none => declareUse t name
  let k ← nodeKind (t.symbol s).kind weak name s
  let (t, p) := spanned t k name.line (attributes.map Token.attributesSpan)
  match attributes with
  | some a => if name.kind ≠ .ident then faultAt a .literalAttributes
  | none => pure ()
  if found.isSome then
    checkAttributes t s name attributes
    return (t, p)
  else return (setAttributes t s attributes, p)

def build (t : Table) : Atom → Noted (Table × Piece)
  | symbol weak name attributes => buildSymbol t weak name attributes
  | any a => return t.addNode t.newWildcard a.line
  | sync a => return t.addNode (.sync default) a.line
  | action a => return spanned t .action a.line (some a.actionSpan)
  | resolver a => return spanned t .resolver a.line (some a.conditionSpan)

end Atom

namespace Production

/-- The symbol of a production, and whether it was there before. -/
def declareName (t : Table) (name : Token) : Noted ((Table × SymbolId) × Bool) :=
  match t.find? name.text with
  | none => do return (← t.declare .nonterminal name.text name.line, false)
  | some s => do
    if !(t.symbol s).isNonterminal then faultAt name .badProductionHead
    else if (t.symbol s).root.isSome then faultAt name .declaredTwice
    return ((t.modifySymbol s fun s => { s with line := name.line }, s), true)

def declare (t : Table) (d : Production) : Noted Table := do
  let ((t, s), known) ← declareName t d.name
  if known then checkAttributes t s d.name d.attributes
  let t := setAttributes t s d.attributes
  let t := match d.locals with
    | some a => t.modifySymbol s fun s => { s with action := some a.actionSpan }
    | none => t
  let (t, p) ← d.body.build Atom.build t
  let t := t.modifySymbol s fun s => { s with root := some p.entry }
  return t.onGraph (·.finish p)

end Production

/-! ### The whole grammar -/

/-- The start symbol is the nonterminal with the grammar's name. -/
def setStart (t : Table) (name last : Token) : Noted Table := do
  if last.chars ≠ name.chars then faultAt last .grammarNameMismatch
  match t.find? name.text with
  | some s =>
    if (t.symbol s).isNonterminal then
      if (t.symbol s).attributes.isSome then faultAt last .startAttributes
      return { t with start := some s }
    else
      faultAt last .missingStart
      return t
  | none =>
    faultAt last .missingStart
    return t

/-- All declarations. The graphs of tokens are dropped before the productions. -/
def Sections.declare (s : Sections) : Noted Table := do
  let t ← s.sets.foldlM SetDecl.declare .empty
  let t ← s.tokens.foldlM (TokenDecl.declare .terminal) t
  let t ← s.pragmas.foldlM (TokenDecl.declare .pragma) t
  s.productions.foldlM Production.declare t.clearGraph

/-- Ends the productions: declares the invalid token, fills the wildcards and numbers the
pragmas. -/
def Table.endProductions (t : Table) : Noted Table := do
  let (t, s) := t.addSymbol .terminal invalidName 0
  let t := ({ t with invalid := some s } : Table).fillWildcards.numberPragmas
  Noted.emit (.listing .graph fun _ => Listing.nodes t)
  Noted.emit (.listing .charClasses fun _ => Listing.charClasses t)
  return t

namespace Definition

/-- The table of a whole definition. -/
def table (d : Definition) : Noted Table := do
  let t ← d.sections.declare
  let t ← setStart t d.name d.ending
  t.endProductions

def configure (d : Definition) (cfg : Config) : Config :=
  d.sections.directives.foldl (fun cfg t => cfg.applyDirective t.text) cfg

end Definition

/-- What a declaration that broke off adds to the reports. -/
def Fragment.declare (t : Table) : Fragment → Noted Unit
  | nothing => return
  | setStart name terms => do
    checkClassName t name
    let _ ← evalTerms t terms
  | set d => do let _ ← d.declare t
  | token name e => do
    let (t, _) ← TokenDecl.declareName .terminal t name
    let _ ← e.build TokenAtom.build t
  | pragma name e => do
    let (t, _) ← TokenDecl.declareName .pragma t name
    let _ ← e.build TokenAtom.build t
  | production p => do let _ ← p.declare t
  | ending name last => do let _ ← Lookahead.setStart t name last

/-- The reports on a text up to the point where it stopped being a definition. -/
def Broken.events (b : Broken) : List Event :=
  (do b.last.declare (← b.sections.declare) : Noted Unit).events

end Lookahead
