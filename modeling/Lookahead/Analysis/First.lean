import Lookahead.Listing

/-!
# First sets

The terminals that a part of the graph can start with. The walk from a node marks the nodes it
passes and stops at marked ones, also where it goes through the production of a nonterminal whose
set is not final yet. Each step marks a node, which bounds the fuel.
-/

namespace Lookahead.Table

/-- The terminals found on the way from `p`, and the marks afterwards. -/
def firstFrom (t : Table) : (fuel : Nat) → Option NodeId → (marks : IndexSet) → IndexSet × IndexSet
  | 0, _, m => (.empty t.terminalCount, m)
  | _, none, m => (.empty t.terminalCount, m)
  | fuel + 1, some i, m =>
    if m.get i then (.empty t.terminalCount, m)
    else
      let n := t.node i
      let none := IndexSet.empty t.terminalCount
      let m := m.insert i
      let (s, m) := match n.kind with
        | .nonterminal a =>
          let a := t.symbol a
          if a.firstReady then (none.union a.first, m) else t.firstFrom fuel a.root m
        | .terminal a | .weak a => (none.insert (t.symbol a).index, m)
        | .any set => (none.union set, m)
        | .alt sub down =>
          let (s, m) := t.firstFrom fuel (some sub) m
          let (r, m) := t.firstFrom fuel down m
          (s.union r, m)
        | .iter sub | .opt sub => t.firstFrom fuel (some sub) m
        | _ => (none, m)
      if t.nodeDeletable i then
        let (r, m) := t.firstFrom fuel n.next m
        (s.union r, m)
      else (s, m)

def firstSet (t : Table) (p : Option NodeId) : IndexSet :=
  (t.firstFrom (t.graph.size + 1) p (.empty t.graph.size)).1

/-- The first set, which can be listed. -/
def first (t : Table) (p : Option NodeId) : Noted IndexSet :=
  let s := t.firstSet p
  ⟨s, [.listing .firstSteps fun _ => Listing.firstStep t p s]⟩

@[simp] theorem value_first (t : Table) (p : Option NodeId) : (t.first p).value = t.firstSet p := rfl

def resetFirst (t : Table) : Table :=
  t.nonterminals.toList.foldl (fun u a => u.modifySymbol a fun s =>
    { s with first := .empty t.terminalCount, firstReady := false }) t

def setFirst (t : Table) (a : SymbolId) : Noted Table := do
  let s ← t.first (t.symbol a).root
  return t.modifySymbol a fun b => { b with first := s, firstReady := true }

/-- The first sets of all nonterminals, in the order of declaration. -/
def computeFirst (t : Table) : Noted Table := t.nonterminals.toList.foldlM setFirst t.resetFirst

/-- The terminals that may come next at `p` in the production of `a`. -/
def expected (t : Table) (p : Option NodeId) (a : SymbolId) : Noted IndexSet := do
  let s ← t.first p
  return if t.restDeletable p then s.union (t.symbol a).follow else s

/-- Nothing is expected where a resolver decides. -/
def expectedUnresolved (t : Table) (p : Option NodeId) (a : SymbolId) : Noted IndexSet :=
  match p.map t.graph.kind with
  | some .resolver => return .empty t.terminalCount
  | _ => t.expected p a

end Lookahead.Table
