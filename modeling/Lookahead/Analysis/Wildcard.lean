import Lookahead.Analysis.First

/-!
# Wildcard sets

A wildcard gives way to whatever else can stand in its place: to the terminals that can follow a
group it starts, to those that start other alternatives, and to those that start a deletable part
right before it. Its set is cut down by one of these after the other.
-/

namespace Lookahead.Table

/-- The wildcard that the group at `p` can reach without matching anything before. -/
def leadingWildcardFrom (t : Table) : (fuel : Nat) → Option NodeId → Option NodeId
  | 0, _ => none
  | _, none => none
  | fuel + 1, some i =>
    let n := t.node i
    let a := match n.kind with
      | .any _ => some i
      | .alt sub down =>
        match t.leadingWildcardFrom fuel (some sub) with
        | some a => some a
        | none => t.leadingWildcardFrom fuel down
      | .opt sub | .iter sub => t.leadingWildcardFrom fuel (some sub)
      | _ => none
    if a.isNone && t.nodeDeletable i && !n.up then t.leadingWildcardFrom fuel n.next else a

def leadingWildcard (t : Table) (p : Option NodeId) : Option NodeId :=
  t.leadingWildcardFrom (t.graph.size + 1) p

/-- Takes terminals away from a wildcard. -/
def restrict (t : Table) (a : NodeId) (s : IndexSet) : Table :=
  match t.graph.kind a with
  | .any set => t.onGraph fun g => g.setKind a (.any (set.diff s))
  | _ => t

/-- Takes the terminals that can start at `q` away from the wildcard that `p` leads to. -/
def restrictLeading (t : Table) (p q : Option NodeId) : Noted Table :=
  match t.leadingWildcard p with
  | some a => do
    let s ← t.first q
    return t.restrict a s
  | none => return t

/-- Where the content of a node starts. -/
def content (t : Table) (i : NodeId) : Option NodeId :=
  match t.graph.kind i with
  | .nonterminal a => (t.symbol a).root
  | k => k.sub?

/-- One alternative of a group, given what starts the earlier ones without a wildcard in front. -/
def restrictAlternative (t : Table) (others : IndexSet) (sub : NodeId) (down : Option NodeId) :
    Noted (Table × IndexSet) :=
  match t.leadingWildcard (some sub) with
  | some a => do
    let s ← t.first down
    return (t.restrict a (s.union others), others)
  | none => do
    let s ← t.first (some sub)
    return (t, others.union s)

/-- Cuts down the wildcards of the group at `p`, inner groups first. -/
def restrictFrom : (fuel : Nat) → Table → Option NodeId → Noted Table
  | 0, t, _ => return t
  | _, t, none => return t
  | fuel + 1, t, some i => do
    let n := t.node i
    let t ← match n.kind with
      | .opt sub | .iter sub => do
        let t ← restrictFrom fuel t (some sub)
        t.restrictLeading (some sub) n.next
      | .alt _ _ => do
        let r ← (t.graph.alternatives i).foldlM (fun (r : Table × IndexSet) a => do
          let t ← restrictFrom fuel r.1 (some a.1)
          t.restrictAlternative r.2 a.1 a.2) (t, .empty t.terminalCount)
        pure r.1
      | _ => pure t
    let t ← if t.nodeDeletable i then t.restrictLeading n.next (t.content i) else pure t
    if n.up then return t else restrictFrom fuel t n.next

def restrictProduction (t : Table) (a : SymbolId) : Noted Table :=
  restrictFrom (t.graph.size + 1) t (t.symbol a).root

def computeWildcards (t : Table) : Noted Table :=
  t.nonterminals.toList.foldlM restrictProduction t

end Lookahead.Table
