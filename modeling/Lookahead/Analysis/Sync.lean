import Lookahead.Analysis.First

/-!
# Synchronisation sets

At a synchronisation point a parser skips to a terminal that can come next there, or to the end of
input.
-/

namespace Lookahead.Table

/-- Fills the sets in the production of `a`, from `p` on, and marks the nodes. -/
def syncFrom (a : SymbolId) :
    (fuel : Nat) → Table × IndexSet → Option NodeId → Noted (Table × IndexSet)
  | 0, r, _ => return r
  | _, r, none => return r
  | fuel + 1, (t, m), some i =>
    if m.get i then return (t, m)
    else do
      let n := t.node i
      let m := m.insert i
      let r ← match n.kind with
        | .sync _ => do
          let s ← t.expected n.next a
          let s := s.insert (t.symbol t.eof).index
          let t := { t with syncs := t.syncs.union s }
          pure (t.onGraph fun g => g.setKind i (.sync s), m)
        | .alt sub down => do
          let r ← syncFrom a fuel (t, m) (some sub)
          syncFrom a fuel r down
        | .opt sub | .iter sub => syncFrom a fuel (t, m) (some sub)
        | _ => pure (t, m)
      syncFrom a fuel r n.next

def syncProduction (t : Table) (a : SymbolId) : Noted Table := do
  let r ← syncFrom a (t.graph.size + 1) (t, .empty t.graph.size) (t.symbol a).root
  return r.1

def computeSyncs (t : Table) : Noted Table :=
  let syncs := (IndexSet.empty t.terminalCount).insert (t.symbol t.eof).index
  t.nonterminals.toList.foldlM syncProduction { t with syncs := syncs }

end Lookahead.Table
