import Lookahead.IndexSet

/-!
# Trace categories

The listings that an analysis can print, each with a letter and a numbered slot. A trace string
switches categories on by letter, in either case, and slots by digit; a slot that no category
owns can be on as well, and then only `Tracing.isEmpty` shows it.
-/

namespace Lookahead

inductive Category where
  /-- The character classes. -/
  | charClasses
  /-- First and follow sets of all nonterminals. -/
  | sets
  /-- The syntax graph. -/
  | graph
  /-- Every computation of a first set. -/
  | firstSteps
  /-- The sets of wildcards and synchronisation points. -/
  | wildcardsAndSyncs
  | symbols
  | crossReference
  | statistics
deriving DecidableEq, Repr, Inhabited

namespace Category

def letter : Category → Char
  | charClasses => 'A'
  | sets => 'F'
  | graph => 'G'
  | firstSteps => 'I'
  | wildcardsAndSyncs => 'J'
  | symbols => 'S'
  | crossReference => 'X'
  | statistics => 'P'

def slot : Category → Nat
  | charClasses => 0
  | sets => 1
  | graph => 2
  | firstSteps => 3
  | wildcardsAndSyncs => 4
  | symbols => 6
  | crossReference => 7
  | statistics => 8

/-- The categories in the order of their slots. -/
def all : List Category :=
  [charClasses, sets, graph, firstSteps, wildcardsAndSyncs, symbols, crossReference, statistics]

/-- Either case of a category's letter. -/
def ofLetter? (c : Char) : Option Category := all.find? fun k => k.letter == c.toUpper

end Category

/-- Which of the ten slots are on. -/
structure Tracing where
  slots : IndexSet := .empty 10
deriving DecidableEq, Inhabited

namespace Tracing

def enable (t : Tracing) (k : Category) : Tracing := ⟨t.slots.insert k.slot⟩

def enabled (t : Tracing) (k : Category) : Bool := t.slots.get k.slot

def isEmpty (t : Tracing) : Bool := t.slots.isEmpty

/-- A digit switches its slot on, a letter its category, and any other character nothing. -/
def mergeChar (t : Tracing) (c : Char) : Tracing :=
  if c.isDigit then ⟨t.slots.insert (c.toNat - '0'.toNat)⟩
  else match Category.ofLetter? c with
    | some k => t.enable k
    | none => t

def merge (t : Tracing) (s : String) : Tracing := s.toList.foldl mergeChar t

def parse (s : String) : Tracing := merge {} s

/-- The letters of the categories that are on. -/
def text (t : Tracing) : String :=
  String.ofList ((Category.all.filter t.enabled).map Category.letter)

end Tracing

end Lookahead
