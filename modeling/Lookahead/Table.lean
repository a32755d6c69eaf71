import Lookahead.CharSet
import Lookahead.Graph.Piece
import Lookahead.Graph.Deletable
import Lookahead.Log
import Lookahead.Text.Escape

/-!
# Symbol tables

The symbols, character classes and literals of one grammar, together with its syntax graph. The
operations that can find fault with their arguments return a `Noted` table.
-/

namespace Lookahead

inductive SymbolKind where
  | terminal
  | pragma
  | nonterminal
deriving DecidableEq, Repr, Inhabited

/-- How a terminal is recognized. -/
inductive TokenKind where
  /-- By a fixed string. -/
  | fixed
  /-- By a structure of character classes. -/
  | classes
  /-- By a literal in the productions. -/
  | literal
  /-- By a structure that some literal matches too. -/
  | classesOrLiteral
deriving DecidableEq, Repr, Inhabited

namespace TokenKind

def text : TokenKind → String
  | fixed => "fixedToken"
  | classes => "classToken"
  | literal => "litToken"
  | classesOrLiteral => "classLitToken"

end TokenKind

/-- `index` counts the symbols of one kind; the indices of terminals are the members of the sets
below. -/
structure Symbol where
  kind : SymbolKind
  index : Nat
  name : String
  line : Nat
  tokenKind : TokenKind := .fixed
  attributes : Option Span := none
  /-- Local declarations of a nonterminal, or the action of a pragma. -/
  action : Option Span := none
  /-- Where the production starts. -/
  root : Option NodeId := none
  deletable : Bool := false
  /-- Whether `first` is final. -/
  firstReady : Bool := false
  first : IndexSet := default
  follow : IndexSet := default
  /-- The nonterminals whose follow sets still have to go into this one's. -/
  followSources : IndexSet := default
deriving DecidableEq, Inhabited

namespace Symbol

def isTerminal (s : Symbol) : Bool := s.kind == .terminal

def isNonterminal (s : Symbol) : Bool := s.kind == .nonterminal

end Symbol

structure CharClass where
  name : String
  set : CharSet
deriving DecidableEq, Repr, Inhabited

/-- The lists of identifiers are in the order of declaration, `literals` in the order in which the
spellings were first registered. -/
structure Table where
  symbols : Array Symbol := #[]
  terminals : Array SymbolId := #[]
  pragmas : Array SymbolId := #[]
  nonterminals : Array SymbolId := #[]
  graph : Graph := {}
  classes : Array CharClass := #[]
  literals : Array (String × SymbolId) := #[]
  start : Option SymbolId := none
  /-- The terminal at the end of every input. -/
  eof : SymbolId := 0
  /-- The terminal that stands for an invalid token, once there is one. -/
  invalid : Option SymbolId := none
  /-- The union of all synchronisation sets. -/
  syncs : IndexSet := default
  /-- The code of the letter in the next generated class name. -/
  nextClassLetter : Nat := 'A'.toNat
deriving DecidableEq, Inhabited

namespace Table

/-! ### Symbols -/

def symbol (t : Table) (s : SymbolId) : Symbol := t.symbols.getD s default

def modifySymbol (t : Table) (s : SymbolId) (f : Symbol → Symbol) : Table :=
  { t with symbols := t.symbols.modify s f }

def terminalCount (t : Table) : Nat := t.terminals.size

def nonterminalCount (t : Table) : Nat := t.nonterminals.size

def terminalSymbols (t : Table) : List Symbol := t.terminals.toList.map t.symbol

def pragmaSymbols (t : Table) : List Symbol := t.pragmas.toList.map t.symbol

def nonterminalSymbols (t : Table) : List Symbol := t.nonterminals.toList.map t.symbol

/-- Adds a symbol under any name. A pragma gets its index from `numberPragmas`. -/
def addSymbol (t : Table) (kind : SymbolKind) (name : String) (line : Nat) : Table × SymbolId :=
  let id := t.symbols.size
  let symbols (n : Nat) := t.symbols.push { kind := kind, index := n, name := name, line := line }
  match kind with
  | .terminal =>
    ({ t with symbols := symbols t.terminals.size, terminals := t.terminals.push id }, id)
  | .pragma => ({ t with symbols := symbols 0, pragmas := t.pragmas.push id }, id)
  | .nonterminal =>
    ({ t with symbols := symbols t.nonterminals.size, nonterminals := t.nonterminals.push id }, id)

/-- The table of an empty grammar: only the end of input is declared. -/
def empty : Table := (addSymbol {} .terminal "EOF" 0).1

/-- The name of the invalid token, which also replaces the empty literal. -/
def invalidName : String := "???"

/-- Adds a symbol. The empty literal is rejected and replaced. -/
def declare (t : Table) (kind : SymbolKind) (name : String) (line : Nat) :
    Noted (Table × SymbolId) :=
  if name = "\"\"" then do
    Noted.error .emptyToken (some ⟨line, 0⟩)
    return t.addSymbol kind invalidName line
  else return t.addSymbol kind name line

/-- The terminal or nonterminal of that name; pragmas cannot be found. -/
def find? (t : Table) (name : String) : Option SymbolId :=
  (t.terminals.toList ++ t.nonterminals.toList).find? fun s => (t.symbol s).name == name

def isDeletable (t : Table) (s : SymbolId) : Bool := (t.symbol s).deletable

/-- The pragmas are numbered behind the terminals. -/
def numberPragmas (t : Table) : Table :=
  t.pragmas.toList.zipIdx.foldl (fun u p =>
    u.modifySymbol p.1 fun s => { s with index := t.terminalCount + p.2 }) t

/-! ### Literals -/

def literal? (t : Table) (spelling : String) : Option SymbolId :=
  (t.literals.find? fun p => p.1 == spelling).map (·.2)

/-- A spelling registered again keeps its place. -/
def addLiteral (t : Table) (spelling : String) (s : SymbolId) : Table :=
  match t.literals.findIdx? fun p => p.1 == spelling with
  | some i => { t with literals := t.literals.setIfInBounds i (spelling, s) }
  | none => { t with literals := t.literals.push (spelling, s) }

/-! ### Character classes -/

/-- The name `#` stands for a new name with the next letter. -/
def addClass (t : Table) (name : String) (set : CharSet) : Table × ClassId :=
  if name = "#" then
    ({ t with
        classes := t.classes.push ⟨String.ofList ['#', Char.ofNat t.nextClassLetter], set⟩
        nextClassLetter := t.nextClassLetter + 1 }, t.classes.size)
  else ({ t with classes := t.classes.push ⟨name, set⟩ }, t.classes.size)

def charClass (t : Table) (c : ClassId) : CharClass := t.classes.getD c default

def classByName? (t : Table) (name : String) : Option ClassId :=
  t.classes.findIdx? fun c => c.name == name

def classBySet? (t : Table) (set : CharSet) : Option ClassId :=
  t.classes.findIdx? fun c => c.set == set

/-! ### The graph -/

def node (t : Table) (i : NodeId) : Node := t.graph.node i

def addNode (t : Table) (k : NodeKind) (line : Nat) : Table × Piece :=
  let (g, p) := t.graph.single k line
  ({ t with graph := g }, p)

/-- Applies an operation on graphs. -/
def onGraph (t : Table) (f : Graph → Graph) : Table := { t with graph := f t.graph }

/-- Applies an operation on graphs that yields a piece. -/
def onPiece (t : Table) (f : Graph → Graph × Piece) : Table × Piece :=
  let (g, p) := f t.graph
  ({ t with graph := g }, p)

/-- Drops all nodes but node 0. -/
def clearGraph (t : Table) : Table := { t with graph := {} }

/-- A new wildcard, for all terminals there are so far. -/
def newWildcard (t : Table) : NodeKind := .any (.full t.terminalCount)

/-- Whether everything from `p` on can match nothing. -/
def restDeletable (t : Table) (p : Option NodeId) : Bool := t.graph.restDeletable t.isDeletable p

def groupDeletable (t : Table) (p : Option NodeId) : Bool := t.graph.groupDeletable t.isDeletable p

def nodeDeletable (t : Table) (i : NodeId) : Bool := t.graph.nodeDeletable t.isDeletable i

/-- The text between the quotes, if it has quotes of one kind around it. -/
def unquote (cs : List Char) : List Char :=
  match cs with
  | c :: rest =>
    match rest.getLast? with
    | some d => if (c = '"' ∨ c = '\'') ∧ c = d then rest.dropLast else cs
    | none => cs
  | [] => []

/-- Reads escape sequences in a text on a line, and reports the malformed ones. -/
def unescapeAt (line : Nat) (cs : List Char) : Noted (List Char) :=
  let u := Text.unescape cs
  ⟨u.chars, List.replicate u.faults (.report (.error .badEscape (some ⟨line, 0⟩)))⟩

/-- The characters that a literal denotes, as a piece of graph. -/
def addLiteralChars (t : Table) (literal : List Char) (line : Nat) : Noted (Table × Piece) := do
  let cs ← unescapeAt line (unquote literal)
  if cs.isEmpty then Noted.error .emptyToken (some ⟨line, 0⟩)
  return t.onPiece fun g => g.chars line cs

/-- Every wildcard matches all terminals but the end of input. -/
def fillWildcards (t : Table) : Table :=
  let set := (IndexSet.full t.terminalCount).erase (t.symbol t.eof).index
  t.onGraph fun g => ⟨g.nodes.map fun n => match n.kind with
    | .any _ => { n with kind := .any set }
    | _ => n⟩

end Table

end Lookahead
