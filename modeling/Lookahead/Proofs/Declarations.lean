import Lookahead.Proofs.Slices
import Lookahead.Proofs.Unbounded

/-!
# Declaring, with everything that has to be there

The declarations of a grammar text, as they turn into symbols, classes and graphs, with nothing that
bounds how long a graph takes to be built. Checked, they break off at a symbol, a class, a node or a
part of a text that is not there, at a range that runs downwards, and where a number would be taken
from a smaller one.
-/

namespace Lookahead

variable (bounds : Bounds)

/-! ### Tables -/

namespace Table

variable (t : Table)

/-- Looks for a name, past the symbols that can be found. -/
def byName? (name : String) : Option (Option SymbolId) := do
  let _ ← t.symbols? bounds (t.terminals.toList ++ t.nonterminals.toList)
  return t.find? name

/-- The letters of generated names are bytes. -/
def addClass? (name : String) (set : CharSet) : Option (Table × ClassId) :=
  bounds.guard (name = "#" → t.nextClassLetter < 255) (t.addClass name set)

/-- Applies an operation on graphs. -/
def onGraph? (f : Graph → Option Graph) : Option Table := do
  return { t with graph := ← f t.graph }

/-- Applies an operation on graphs that yields a piece. -/
def onPiece? (f : Graph → Option (Graph × Piece)) : Option (Table × Piece) := do
  let (g, p) ← f t.graph
  return ({ t with graph := g }, p)

def unescapeAt? (line : Nat) (cs : List Char) : Work (List Char) := do
  let u ← Text.unescapeFrom? bounds cs.toArray 0
  Noted.run ⟨u.chars, List.replicate u.faults (.report (.error .badEscape (some ⟨line, 0⟩)))⟩

def addLiteralChars? (literal : List Char) (line : Nat) : Work (Table × Piece) := do
  let cs ← unescapeAt? bounds line (unquote literal)
  if cs.isEmpty then (Noted.error .emptyToken (some ⟨line, 0⟩)).run
  t.onPiece? fun g => g.chars? bounds line cs

def fillWildcards? : Option Table := do
  let set ← (IndexSet.full t.terminalCount).erase? bounds (← t.symbol? bounds t.eof).index
  return t.onGraph fun g => ⟨g.nodes.map fun n => match n.kind with
    | .any _ => { n with kind := .any set }
    | _ => n⟩

def numberPragmas? : Option Table :=
  t.pragmas.toList.zipIdx.foldlM (fun u p =>
    u.modifySymbol? bounds p.1 fun s => { s with index := t.terminalCount + p.2 }) t

end Table

/-! ### Character sets -/

def charValue? (t : Token) : Work Nat := do
  match ← Table.unescapeAt? bounds t.line (← t.inner? bounds) with
  | [c] => return c.toNat
  | _ =>
    (faultAt t .badCharValue).run
    return 0

namespace SimpleSet

def eval? (t : Table) : SimpleSet → Work CharSet
  | name n =>
    match t.classByName? n.text with
    | some c => do
      let s := (← t.charClass? bounds c).set
      let _ ← CharSet.empty.union? bounds s
      return s
    | none => do
      (faultAt n .undefinedName).run
      return .empty
  | string s => do
    let cs ← Table.unescapeAt? bounds s.line (← s.inner? bounds)
    CharSet.ofList? bounds (cs.map Char.toNat)
  | char c => do
    let n ← charValue? bounds c
    CharSet.empty.insertRange? bounds n n
  | range lo hi => do
    let lo ← charValue? bounds lo
    let hi ← charValue? bounds hi
    if lo ≤ hi then CharSet.empty.insertRange? bounds lo hi else return .empty
  | any => return .full

end SimpleSet

def evalTerms? (t : Table) (terms : List SetTerm) : Work CharSet :=
  terms.foldlM (fun s term => do
    let r ← term.set.eval? bounds t
    if term.minus then s.diff? bounds r else s.union? bounds r) .empty

def SetDecl.declare? (t : Table) (d : SetDecl) : Work Table := do
  (checkClassName t d.name).run
  let s ← evalTerms? bounds t d.terms
  let _ ← s.count? bounds
  if s.isEmpty then (faultAt d.name .emptyCharSet).run
  let (t, _) ← t.addClass? bounds d.name.text s
  return t

/-! ### Expressions -/

namespace Expr

variable {α : Type}

def wrap? (t : Table) (p : Piece) : Bracket → Option (Table × Piece)
  | .round => some (t, p)
  | .square => t.onPiece? (·.option? bounds p)
  | .curly => t.onPiece? (·.iteration? bounds p)
  | .context => do return (← t.onGraph? (·.markContext? bounds (some p.entry)), p)

def build? (atoms : Table → α → Work (Table × Piece)) : Table → Expr α → Work (Table × Piece)
  | t, empty => return t.addNode .empty 0
  | t, atom a => atoms t a
  | t, seq e f => do
    let (t, p) ← build? atoms t e
    let (t, q) ← build? atoms t f
    t.onPiece? (·.sequence? bounds p q)
  | t, alt e f => do
    let (t, p) ← build? atoms t e
    let (t, q) ← build? atoms t f
    let (t, p) ←
      if e.isAlt then pure (t, p) else t.onPiece? (·.firstAlternative? bounds p)
    t.onPiece? (·.alternative? bounds p q)
  | t, group b e => do
    let (t, p) ← build? atoms t e
    wrap? bounds t p b

end Expr

/-! ### Tokens and pragmas -/

def TokenAtom.build? (t : Table) : TokenAtom → Work (Table × Piece)
  | className n =>
    match t.classByName? n.text with
    | some c => return t.addNode (.charClass c .normal) n.line
    | none => do
      (faultAt n .undefinedName).run
      let (t, c) ← t.addClass? bounds n.text .empty
      return t.addNode (.charClass c .normal) n.line
  | literal l => do t.addLiteralChars? bounds (← l.spelling? bounds) l.line

namespace TokenDecl

def declareName? (kind : SymbolKind) (t : Table) (name : Token) : Work (Table × SymbolId) := do
  match ← t.byName? bounds name.text with
  | some s => do
    (faultAt name .declaredTwice).run
    return (t, s)
  | none => (t.declare kind name.text name.line).run

def setBody? (t : Table) (s : SymbolId) (name : Token) (e : Expr TokenAtom) : Work Table := do
  let (t, p) ← e.build? bounds (TokenAtom.build? bounds) t
  if name.kind = .string then (faultAt name .structuredLiteral).run
  let t ← t.onGraph? (·.finish? bounds p)
  match e.literal? with
  | some l =>
    let spelling := String.ofList (← l.spelling? bounds)
    if (t.literal? spelling).isSome then (faultAt name .tokenStringTwice).run
    return t.addLiteral spelling s
  | none => t.modifySymbol? bounds s fun s => { s with tokenKind := .classes }

def setAction? (kind : SymbolKind) (t : Table) (s : SymbolId) (action : Token) : Work Table := do
  if kind ≠ .pragma then (faultAt action .misplacedAction).run
  let span ← action.actionSpan? bounds
  t.modifySymbol? bounds s fun s => { s with action := some span }

def declare? (kind : SymbolKind) (t : Table) (d : TokenDecl) : Work Table := do
  let (t, s) ← declareName? bounds kind t d.name
  let t ← match d.body with
    | some e => setBody? bounds t s d.name e
    | none =>
      if d.name.kind = .string then
        t.modifySymbol? bounds s fun s => { s with tokenKind := .literal }
      else pure t
  match d.action with
  | some a => setAction? bounds kind t s a
  | none => return t

end TokenDecl

/-! ### Productions -/

/-- The position of attributes, if there are any. -/
def attributesSpan? (attributes : Option Token) : Option (Option Span) :=
  match attributes with
  | some a => do return some (← a.attributesSpan? bounds)
  | none => some none

def checkAttributes? (t : Table) (s : SymbolId) (name : Token) (attributes : Option Token) :
    Work Unit := do
  let _ ← t.symbol? bounds s
  (checkAttributes t s name attributes).run

def setAttributes? (t : Table) (s : SymbolId) (attributes : Option Token) : Option Table := do
  let span ← attributesSpan? bounds attributes
  t.modifySymbol? bounds s fun s => { s with attributes := span }

namespace Atom

def find? (t : Table) (name : Token) : Option (Option SymbolId) := do
  let spelling := String.ofList (← name.spelling? bounds)
  match ← t.byName? bounds spelling with
  | some s => return some s
  | none => return if name.kind = .ident then none else t.literal? spelling

def declareUse? (t : Table) (name : Token) : Work (Table × SymbolId) := do
  let spelling := String.ofList (← name.spelling? bounds)
  if name.kind = .ident then (t.declare .nonterminal spelling 0).run
  else
    let (t, s) ← (t.declare .terminal spelling name.line).run
    return (← t.modifySymbol? bounds s fun s => { s with tokenKind := .literal }, s)

/-- A single node with a span. -/
def spanned? (t : Table) (k : NodeKind) (line : Nat) (span : Option Span) :
    Option (Table × Piece) := do
  let (t, p) := t.addNode k line
  return (← t.onGraph? (·.setSpan? bounds p.entry span), p)

def buildSymbol? (t : Table) (weak : Bool) (name : Token) (attributes : Option Token) :
    Work (Table × Piece) := do
  let found ← find? bounds t name
  let (t, s) ← match found with
    | some s => pure (t, s)
    | none => declareUse? bounds t name
  let k ← (nodeKind (← t.symbol? bounds s).kind weak name s).run
  let (t, p) ← spanned? bounds t k name.line (← attributesSpan? bounds attributes)
  match attributes with
  | some a => if name.kind ≠ .ident then (faultAt a .literalAttributes).run
  | none => pure ()
  if found.isSome then
    checkAttributes? bounds t s name attributes
    return (t, p)
  else return (← setAttributes? bounds t s attributes, p)

def build? (t : Table) : Atom → Work (Table × Piece)
  | symbol weak name attributes => buildSymbol? bounds t weak name attributes
  | any a => return t.addNode t.newWildcard a.line
  | sync a => return t.addNode (.sync default) a.line
  | action a => do spanned? bounds t .action a.line (some (← a.actionSpan? bounds))
  | resolver a => do spanned? bounds t .resolver a.line (some (← a.conditionSpan? bounds))

end Atom

namespace Production

def declareName? (t : Table) (name : Token) : Work ((Table × SymbolId) × Bool) := do
  match ← t.byName? bounds name.text with
  | none => return (← (t.declare .nonterminal name.text name.line).run, false)
  | some s =>
    let a ← t.symbol? bounds s
    if !a.isNonterminal then (faultAt name .badProductionHead).run
    else if a.root.isSome then (faultAt name .declaredTwice).run
    return ((← t.modifySymbol? bounds s fun s => { s with line := name.line }, s), true)

def declare? (t : Table) (d : Production) : Work Table := do
  let ((t, s), known) ← declareName? bounds t d.name
  if known then checkAttributes? bounds t s d.name d.attributes
  let t ← setAttributes? bounds t s d.attributes
  let t ← match d.locals with
    | some a => do
      let span ← a.actionSpan? bounds
      t.modifySymbol? bounds s fun s => { s with action := some span }
    | none => pure t
  let (t, p) ← d.body.build? bounds (Atom.build? bounds) t
  let t ← t.modifySymbol? bounds s fun s => { s with root := some p.entry }
  t.onGraph? (·.finish? bounds p)

end Production

/-! ### The whole grammar -/

def setStart? (t : Table) (name last : Token) : Work Table := do
  let found ← t.byName? bounds name.text
  let _ ← t.symbols? bounds found.toList
  (setStart t name last).run

def Sections.declare? (s : Sections) : Work Table := do
  let t ← s.sets.foldlM (SetDecl.declare? bounds) .empty
  let t ← s.tokens.foldlM (TokenDecl.declare? bounds .terminal) t
  let t ← s.pragmas.foldlM (TokenDecl.declare? bounds .pragma) t
  s.productions.foldlM (Production.declare? bounds) t.clearGraph

def Table.endProductions? (t : Table) : Work Table := do
  let (t, s) := t.addSymbol .terminal invalidName 0
  let t ← ({ t with invalid := some s } : Table).fillWildcards? bounds
  let t ← t.numberPragmas? bounds
  t.lookUps? bounds
  (Noted.emit (.listing .graph fun _ => Listing.nodes t)).run
  (Noted.emit (.listing .charClasses fun _ => Listing.charClasses t)).run
  return t

/-- The table of a whole definition. -/
def Definition.table? (d : Definition) : Work Table := do
  let t ← d.sections.declare? bounds
  let t ← setStart? bounds t d.name d.ending
  t.endProductions? bounds

def Fragment.declare? (t : Table) : Fragment → Work Unit
  | nothing => return
  | setStart name terms => do
    (checkClassName t name).run
    let _ ← evalTerms? bounds t terms
  | set d => do let _ ← d.declare? bounds t
  | token name e => do
    let (t, _) ← TokenDecl.declareName? bounds .terminal t name
    let _ ← e.build? bounds (TokenAtom.build? bounds) t
  | pragma name e => do
    let (t, _) ← TokenDecl.declareName? bounds .pragma t name
    let _ ← e.build? bounds (TokenAtom.build? bounds) t
  | production p => do let _ ← p.declare? bounds t
  | ending name last => do let _ ← setStart? bounds t name last

/-- What is done with a text up to the point where it stopped being a definition. -/
def Broken.declare? (b : Broken) : Work Unit := do
  b.last.declare? bounds (← b.sections.declare? bounds)

end Lookahead
