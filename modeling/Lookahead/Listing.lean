import Lookahead.Table
import Lookahead.Text.Column

/-!
# Listings

The texts that trace categories show: sets, symbols, the graph, character classes, where symbols
are used, and how many of everything there are.
-/

namespace Lookahead

open Text

/-- Lines stay below this many characters. -/
def lineWidth : Nat := 80

namespace SymbolKind

def listed : SymbolKind → String
  | terminal => "t   "
  | pragma => "pr  "
  | nonterminal => "nt  "

end SymbolKind

namespace NodeKind

def listed : NodeKind → String
  | terminal _ => "t   "
  | pragma _ => "pr  "
  | nonterminal _ => "nt  "
  | weak _ => "wt  "
  | charClass _ _ => "clas"
  | char _ _ => "chr "
  | any _ => "any "
  | empty => "eps "
  | sync _ => "sync"
  | action => "sem "
  | alt _ _ => "alt "
  | iter _ => "iter"
  | opt _ => "opt "
  | resolver => "rslv"

end NodeKind

namespace Listing

def underlined (title : String) (n : Nat) : String :=
  title ++ "\n" ++ String.ofList (List.replicate n '-') ++ "\n"

def number (width n : Nat) : String := flushRight width (toString n)

def flag (b : Bool) : String := if b then " true  " else " false "

/-- Words on lines that start with `indent` columns, each word with a blank behind it. The first
line is already indented; `col` is the column where the next word starts. -/
def wrapWords (indent : Nat) : (col : Nat) → List String → String × Nat
  | col, [] => ("", col)
  | col, w :: ws =>
    if lineWidth ≤ col + w.length then
      let (s, last) := wrapWords indent (indent + w.length + 1) ws
      ("\n" ++ blanks (indent - 1) ++ w ++ " " ++ s, last)
    else
      let (s, last) := wrapWords indent (col + w.length + 1) ws
      (w ++ " " ++ s, last)

/-- The names of the terminals in a set. -/
def terminalSet (t : Table) (s : IndexSet) (indent : Nat) : String :=
  let names := (t.terminalSymbols.filter fun a => s.get a.index).map (·.name)
  let (text, col) := wrapWords indent indent names
  text ++ (if col = indent then "-- empty set --" else "") ++ "\n"

/-- The walk for a first set from a node. -/
def firstStep (t : Table) (p : Option NodeId) (s : IndexSet) : String :=
  "\nFirst: node = " ++ (match p with
    | some i => toString i
    | none => "null") ++ "\n" ++ terminalSet t s 0

def firstAndFollow (t : Table) : String :=
  "\n" ++ underlined "First & follow symbols:" 22 ++ "\n" ++
    String.join (t.nonterminalSymbols.map fun a =>
      a.name ++ "\n" ++ "first:   " ++ terminalSet t a.first 10 ++
        "follow:  " ++ terminalSet t a.follow 10 ++ "\n")

def nodeSet (t : Table) (i : NodeId) (n : Node) : String :=
  match n.kind with
  | .any s | .sync s => number 4 i ++ " " ++ n.kind.listed ++ " " ++ terminalSet t s 11
  | _ => ""

def wildcardsAndSyncs (t : Table) : String :=
  "\n" ++ underlined "ANY and SYNC sets:" 17 ++
    String.join (t.graph.nodes.toList.zipIdx.map fun p => nodeSet t p.2 p.1)

def symbolLine (s : Symbol) : String :=
  number 3 s.index ++ "   " ++ cell 12 s.name ++ " " ++ s.kind.listed ++ flag s.attributes.isSome ++
    (if s.isNonterminal then number 5 (s.root.getD 0) ++ flag s.deletable else blanks 12) ++
    number 5 s.line ++ " " ++ s.tokenKind.text ++ "\n"

def symbols (t : Table) (cfg : Config) : String :=
  underlined "Symbol Table:" 12 ++ "\n" ++
    " nr name          typ  hasAt graph  del    line tokenKind\n" ++
    String.join ((t.terminalSymbols ++ t.pragmaSymbols ++ t.nonterminalSymbols).map symbolLine) ++
    "\n" ++ underlined "Literal Tokens:" 14 ++
    String.join (t.literals.toList.map fun p =>
      cfg.tokenPrefix ++ (t.symbol p.2).name ++ " =  " ++ p.1 ++ ".\n") ++ "\n"

/-- A node as a link names it: 0 for none, and with a minus sign where the link leaves the
group. -/
def link (p : Option NodeId) (up : Bool) : String :=
  match p with
  | none => "0"
  | some i => if up ∧ i ≠ 0 then "-" ++ toString i else toString i

def transition : Transition → Nat
  | .normal => 0
  | .context => 1

def nodeName (t : Table) (k : NodeKind) : String :=
  match k with
  | .charClass c _ => cell 12 (t.charClass c).name ++ " "
  | _ =>
    match k.symbol? with
    | some s => cell 12 (t.symbol s).name ++ " "
    | none => blanks 13

/-- The columns of a node that depend on its kind. -/
def nodeDetails (n : Node) : String :=
  match n.kind with
  | .terminal _ | .nonterminal _ | .weak _ | .action =>
    blanks 13 ++ (match n.span with
      | some s => number 5 s.beg
      | none => blanks 5)
  | .char c code => number 5 c ++ " " ++ number 5 (transition code) ++ blanks 7
  | .charClass _ code => blanks 6 ++ number 5 (transition code) ++ blanks 7
  | .alt sub down =>
    flushRight 5 (link down false) ++ " " ++ flushRight 5 (link (some sub) false) ++ blanks 7
  | .iter sub | .opt sub =>
    number 5 0 ++ " " ++ flushRight 5 (link (some sub) false) ++ blanks 7
  | .empty | .any _ | .sync _ => blanks 18
  | .pragma _ | .resolver => ""

def nodeLine (t : Table) (i : NodeId) (n : Node) : String :=
  number 4 i ++ " " ++ n.kind.listed ++ " " ++ nodeName t n.kind ++
    flushRight 5 (link n.next n.up) ++ " " ++ nodeDetails n ++ number 5 n.line ++ "\n"

def nodes (t : Table) : String :=
  let rule := String.ofList (List.replicate 52 '-') ++ "\n"
  "Graph nodes:\n" ++ rule ++ "   n type name          next  down   sub   pos  line\n" ++
    "                               val  code\n" ++ rule ++
    String.join (t.graph.nodes.toList.zipIdx.map fun p => nodeLine t p.2 p.1) ++ "\n"

def charClasses (t : Table) : String :=
  String.join (t.classes.toList.map fun c => cell 10 c.name ++ ": " ++ c.set.text ++ "\n") ++ "\n"

/-- Numbers in columns of five; `col` is the column where the next one starts. -/
def wrapNumbers : (col : Nat) → List Int → String
  | _, [] => ""
  | col, n :: ns =>
    if lineWidth < col + 5 then
      "\n" ++ blanks 14 ++ flushRight 5 (toString n) ++ wrapNumbers 19 ns
    else flushRight 5 (toString n) ++ wrapNumbers (col + 5) ns

/-- A line number as a signed 64-bit number. -/
def signedLine (n : Nat) : Int := Int.bmod n UInt64.size

/-- The symbols that occur in productions and the lines where they do, in the order of the nodes;
a nonterminal first has the line of its production, as a negative number. -/
def uses (t : Table) : List (SymbolId × List Int) :=
  let nodes := t.graph.nodes.toList.filterMap fun n => match n.kind with
    | .terminal s | .weak s | .nonterminal s => some (s, signedLine n.line)
    | _ => none
  let ids := (t.nonterminals.toList ++ nodes.map (·.1)).eraseDups
  ids.map fun s =>
    ((if t.nonterminals.contains s then [-signedLine (t.symbol s).line] else []) ++
      nodes.filterMap fun u => if u.1 = s then some u.2 else none) |> (s, ·)

/-- The uses of the symbols in the order of their names. -/
def crossReference (t : Table) : String :=
  let name (u : SymbolId × List Int) := (t.symbol u.1).name
  let sorted := (uses t).mergeSort fun u v => decide (name u ≤ name v)
  "\n" ++ underlined "Cross reference list:" 20 ++ "\n" ++
    String.join (sorted.map fun u => "  " ++ cell 12 (name u) ++ wrapNumbers 14 u.2 ++ "\n") ++
    "\n\n"

def statistics (t : Table) : String :=
  let symbols := t.terminalCount + t.pragmas.size + t.nonterminalCount
  "\n" ++ underlined "Statistics:" 11 ++ "\n" ++
    toString t.terminalCount ++ " terminals\n" ++ toString symbols ++ " symbols\n" ++
    toString t.graph.size ++ " nodes\n" ++ toString t.classes.size ++ " character classes\n"

end Listing

end Lookahead
