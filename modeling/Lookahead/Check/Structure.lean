import Lookahead.Table

/-!
# Structural checks

Four properties a grammar needs before lookahead makes sense: every nonterminal has a production,
can be reached from the start symbol, derives itself alone in no way, and derives some string of
terminals. Each check reports every nonterminal that fails it.
-/

namespace Lookahead.Table

/-- Reports the nonterminals that fail a test; true if none does. -/
def reportUnless (t : Table) (ok : Symbol → Bool) (cause : String → Cause) : Noted Bool :=
  let bad := t.nonterminalSymbols.filter fun s => !ok s
  ⟨bad.isEmpty, bad.map fun s => .report (.error (cause s.name))⟩

def checkComplete (t : Table) : Noted Bool := t.reportUnless (·.root.isSome) .noProduction

/-! ### Reachability -/

/-- Marks the nonterminals that the group at `p` mentions, and all that their productions do.
Between two new marks the walk passes no node twice. -/
def reachFrom (t : Table) : (fuel : Nat) → Option NodeId → IndexSet → IndexSet
  | 0, _, m => m
  | _, none, m => m
  | fuel + 1, some i, m =>
    let n := t.node i
    let m := match n.kind with
      | .nonterminal a =>
        let a := t.symbol a
        if m.get a.index then m else t.reachFrom fuel a.root (m.insert a.index)
      | .alt sub down => t.reachFrom fuel down (t.reachFrom fuel (some sub) m)
      | .iter sub | .opt sub => t.reachFrom fuel (some sub) m
      | _ => m
    if n.up then m else t.reachFrom fuel n.next m

/-- The nonterminals that the start symbol leads to. -/
def reached (t : Table) : IndexSet :=
  let m := IndexSet.empty t.nonterminalCount
  match t.start with
  | some a =>
    let a := t.symbol a
    t.reachFrom ((t.nonterminalCount + 1) * (t.graph.size + 1)) a.root (m.insert a.index)
  | none => m

def checkReached (t : Table) : Noted Bool :=
  let m := t.reached
  t.reportUnless (fun s => m.get s.index) .unreachable

/-! ### Circularity -/

/-- The nonterminals that the rest of the production from `p` on can be reduced to, everything
around them being deletable. -/
def singlesFrom (t : Table) : (fuel : Nat) → Option NodeId → List SymbolId
  | 0, _ => []
  | _, none => []
  | fuel + 1, some i =>
    let n := t.node i
    let here :=
      if n.up || t.restDeletable n.next then
        match n.kind with
        | .nonterminal a => [a]
        | .alt sub down => t.singlesFrom fuel (some sub) ++ t.singlesFrom fuel down
        | .iter sub | .opt sub => t.singlesFrom fuel (some sub)
        | _ => []
      else []
    here ++ if !n.up && t.nodeDeletable i then t.singlesFrom fuel n.next else []

def singles (t : Table) (a : SymbolId) : List SymbolId :=
  t.singlesFrom (t.graph.size + 1) (t.symbol a).root

abbrev Step := SymbolId × SymbolId

/-- The steps from a nonterminal to one that it derives alone. -/
def singleSteps (t : Table) : List Step :=
  (t.nonterminals.toList.flatMap fun a => (t.singles a).map fun b => (a, b)).eraseDups

/-- The steps that some step leads to and some step leads on from. -/
def linked (steps : List Step) : List Step :=
  steps.filter fun s => steps.any (fun r => r.1 == s.2) && steps.any fun r => r.2 == s.1

/-- Drops steps that are not linked, until all are. -/
def pruneSteps : (fuel : Nat) → List Step → List Step
  | 0, steps => steps
  | fuel + 1, steps =>
    let rest := linked steps
    if rest.length = steps.length then rest else pruneSteps fuel rest

def circularSteps (t : Table) : List Step :=
  let steps := t.singleSteps
  pruneSteps (steps.length + 1) steps

def checkNotCircular (t : Table) : Noted Bool :=
  let steps := t.circularSteps
  ⟨steps.isEmpty, steps.map fun s =>
    .report (.error (.circular (t.symbol s.1).name (t.symbol s.2).name))⟩

/-! ### Derivability -/

/-- Whether the group at `p` derives terminals alone, given the nonterminals that do. -/
def terminatesFrom (t : Table) (m : IndexSet) : (fuel : Nat) → Option NodeId → Bool
  | 0, _ => false
  | _, none => true
  | fuel + 1, some i =>
    let n := t.node i
    (match n.kind with
      | .nonterminal a => m.get (t.symbol a).index
      | .alt sub down =>
        t.terminatesFrom m fuel (some sub) || (down.isSome && t.terminatesFrom m fuel down)
      | _ => true) &&
    (n.up || t.terminatesFrom m fuel n.next)

def markTerminating (t : Table) (m : IndexSet) (s : Symbol) : IndexSet :=
  if !m.get s.index && t.terminatesFrom m (t.graph.size + 1) s.root then m.insert s.index else m

def closeTerminating (t : Table) : (fuel : Nat) → IndexSet → IndexSet
  | 0, m => m
  | fuel + 1, m =>
    let r := t.nonterminalSymbols.foldl t.markTerminating m
    if r = m then r else t.closeTerminating fuel r

/-- The nonterminals that derive a string of terminals. -/
def terminating (t : Table) : IndexSet :=
  t.closeTerminating (t.nonterminalCount + 1) (.empty t.nonterminalCount)

def checkTerminating (t : Table) : Noted Bool :=
  let m := t.terminating
  t.reportUnless (fun s => m.get s.index) .underivable

end Lookahead.Table
