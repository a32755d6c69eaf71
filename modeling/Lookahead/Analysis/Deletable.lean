import Lookahead.Table

/-!
# Deletable nonterminals

A nonterminal is deletable if it derives the empty string. Rounds over all nonterminals mark those
whose productions are deletable given the marks so far, until a round changes nothing; every
other round marks at least one.
-/

namespace Lookahead.Table

def markDeletable (t : Table) (a : SymbolId) : Table :=
  let s := t.symbol a
  if !s.deletable && s.root.isSome && t.restDeletable s.root then
    t.modifySymbol a fun s => { s with deletable := true }
  else t

def deletableRound (t : Table) : Table := t.nonterminals.toList.foldl markDeletable t

def deletableCount (t : Table) : Nat := t.nonterminalSymbols.countP (·.deletable)

def closeDeletable : (fuel : Nat) → Table → Table
  | 0, t => t
  | fuel + 1, t =>
    let u := t.deletableRound
    if u.deletableCount = t.deletableCount then u else closeDeletable fuel u

/-- Marks the deletable nonterminals and notes each of them. -/
def computeDeletable (t : Table) : Noted Table :=
  let u := closeDeletable (t.nonterminalCount + 1) t
  ⟨u, (u.nonterminalSymbols.filter (·.deletable)).map fun s =>
    .report (.note (.deletable s.name))⟩

end Lookahead.Table
