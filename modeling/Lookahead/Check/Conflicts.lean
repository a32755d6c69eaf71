import Lookahead.Analysis.First

/-!
# LL(1) conflicts

Wherever a parser has to choose, one symbol of lookahead should decide. The check reports each
terminal that does not, for alternatives that share it and for groups whose successor can start
with it, and also groups whose content is deletable and wildcards that match nothing.
-/

namespace Lookahead.Table

def conflict (t : Table) (a : SymbolId) (terminal : Option SymbolId) (k : Conflict) : Event :=
  .report (.warning (.ll1 (t.symbol a).name (terminal.map fun b => (t.symbol b).name) k))

/-- Reports the terminals that two sets share. -/
def reportOverlap (t : Table) (a : SymbolId) (k : Conflict) (r s : IndexSet) : Noted Unit :=
  ⟨(), (t.terminals.toList.filter fun b =>
    let n := (t.symbol b).index
    r.get n && s.get n).map fun b => t.conflict a (some b) k⟩

/-- The conflicts of the group at `p` in the production of `a`. -/
def conflictsFrom (t : Table) (a : SymbolId) : (fuel : Nat) → Option NodeId → Noted Unit
  | 0, _ => return
  | _, none => return
  | fuel + 1, some i => do
    let n := t.node i
    match n.kind with
    | .alt _ _ =>
      let _ ← (t.graph.alternatives i).foldlM (fun (before : IndexSet) b => do
        let s ← t.expectedUnresolved (some b.1) a
        t.reportOverlap a .severalAlternatives before s
        t.conflictsFrom a fuel (some b.1)
        return before.union s) (.empty t.terminalCount)
    | .opt sub | .iter sub =>
      if t.groupDeletable (some sub) then
        Noted.emit (t.conflict a none .deletableContent)
      else
        let r ← t.expectedUnresolved (some sub) a
        let s ← t.expected n.next a
        t.reportOverlap a .deletableAndSuccessor r s
      t.conflictsFrom a fuel (some sub)
    | .any set => if set.isEmpty then Noted.emit (t.conflict a none .emptyWildcard)
    | _ => pure ()
    if n.up then return else t.conflictsFrom a fuel n.next

def checkConflicts (t : Table) : Noted Unit :=
  t.nonterminals.toList.forM fun a => t.conflictsFrom a (t.graph.size + 1) (t.symbol a).root

end Lookahead.Table
