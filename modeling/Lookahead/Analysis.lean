import Lookahead.Analysis.Deletable
import Lookahead.Analysis.Follow
import Lookahead.Analysis.Sync
import Lookahead.Analysis.Wildcard
import Lookahead.Check.Conflicts
import Lookahead.Check.Resolvers
import Lookahead.Check.Structure

/-!
# The analysis

All sets in the order in which they depend on each other, then the checks. Structural checks stop
at the first that fails, and only a grammar that passes them is looked at for misplaced resolvers
and conflicts.
-/

namespace Lookahead.Table

def list (k : Category) (text : Config → String) : Noted Unit := Noted.emit (.listing k text)

def computeSets (t : Table) : Noted Table := do
  let t ← t.computeDeletable
  let t ← t.computeFirst
  let t ← t.computeWildcards
  let t ← t.computeFollow
  let t ← t.computeSyncs
  list .sets fun _ => Listing.firstAndFollow t
  list .wildcardsAndSyncs fun _ => Listing.wildcardsAndSyncs t
  return t

def checkStructure (t : Table) : Noted Bool := do
  if ← t.checkComplete then
    if ← t.checkReached then
      if ← t.checkNotCircular then
        return ← t.checkTerminating
  return false

/-- Neither resolvers nor conflicts give rise to an error. -/
def checkChoices (t : Table) : Noted Bool :=
  let r : Noted Unit := do
    t.checkResolvers
    t.checkConflicts
  ⟨!r.failed, r.events⟩

/-- Whether the grammar can be used. -/
def check (t : Table) : Noted Bool := do
  if ← t.checkStructure then t.checkChoices else return false

/-- The sets, and whether the grammar is accepted. A grammar in which faults were found before is
not looked at. -/
def analyze (t : Table) (faulty : Bool) : Noted (Table × Bool) := do
  let r ← if faulty then pure (t, false) else do
    let t ← t.computeSets
    list .crossReference fun _ => Listing.crossReference t
    let ok ← t.check
    if ok then list .statistics fun _ => Listing.statistics t
    pure (t, ok)
  list .symbols fun cfg => Listing.symbols r.1 cfg
  return r

end Lookahead.Table
