import Lookahead.Analysis.First

/-!
# Follow sets

The terminals that can stand behind a nonterminal. What follows its occurrences directly comes
first; where the rest of a production is deletable, the follow set of that production's
nonterminal has to be added, and these additions are carried out along all chains of them.
-/

namespace Lookahead.Table

/-- Adds what follows the nonterminals in the production of `a`, from `p` on, and marks the
nodes. -/
def followFrom (a : SymbolId) :
    (fuel : Nat) → Table × IndexSet → Option NodeId → Noted (Table × IndexSet)
  | 0, r, _ => return r
  | _, r, none => return r
  | fuel + 1, (t, m), some i =>
    if m.get i then return (t, m)
    else do
      let n := t.node i
      let m := m.insert i
      let r ← match n.kind with
        | .nonterminal b => do
          let s ← t.first n.next
          let t := t.modifySymbol b fun b => { b with follow := b.follow.union s }
          let t := if t.restDeletable n.next then
              t.modifySymbol b fun b =>
                { b with followSources := b.followSources.insert (t.symbol a).index }
            else t
          pure (t, m)
        | .opt sub | .iter sub => followFrom a fuel (t, m) (some sub)
        | .alt sub down => do
          let r ← followFrom a fuel (t, m) (some sub)
          followFrom a fuel r down
        | _ => pure (t, m)
      followFrom a fuel r n.next

def followProduction (t : Table) (a : SymbolId) : Noted Table := do
  let r ← followFrom a (t.graph.size + 1) (t, .empty t.graph.size) (t.symbol a).root
  return r.1

/-- Adds to the follow set of `a` those of its sources, and theirs, past the nonterminals that are
already marked. The sources of `root` itself are done with afterwards. -/
def completeFrom (root : SymbolId) : (fuel : Nat) → Table × IndexSet → SymbolId → Table × IndexSet
  | 0, r, _ => r
  | fuel + 1, (t, m), a =>
    let k := (t.symbol a).index
    if m.get k then (t, m)
    else t.nonterminals.toList.foldl (fun (r : Table × IndexSet) b =>
      let j := (r.1.symbol b).index
      if (r.1.symbol a).followSources.get j then
        let (t, m) := completeFrom root fuel r b
        let s := (t.symbol b).follow
        (t.modifySymbol a fun a' =>
          { a' with
            follow := a'.follow.union s
            followSources := if a = root then a'.followSources.erase j else a'.followSources }, m)
      else r) (t, m.insert k)

def completeFollow (t : Table) (a : SymbolId) : Table :=
  (completeFrom a (t.nonterminalCount + 1) (t, .empty t.nonterminalCount) a).1

def resetFollow (t : Table) : Table :=
  let u := t.nonterminals.toList.foldl (fun u a => u.modifySymbol a fun s =>
    { s with
      follow := .empty t.terminalCount
      followSources := .empty t.nonterminalCount }) t
  match t.start with
  | some a => u.modifySymbol a fun s => { s with follow := s.follow.insert (t.symbol t.eof).index }
  | none => u

def computeFollow (t : Table) : Noted Table := do
  let t ← t.nonterminals.toList.foldlM followProduction t.resetFollow
  return t.nonterminals.toList.foldl completeFollow t

end Lookahead.Table
