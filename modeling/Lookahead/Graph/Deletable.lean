import Lookahead.Graph

/-!
# Deletability

Whether parts of a graph can match nothing, given which nonterminals can. A walk through a whole
graph follows `next` to the end; a walk through a group ends at a node marked `up`. No walk that
comes to an end meets a node twice, which bounds the fuel.
-/

namespace Lookahead.Graph

variable (g : Graph) (deletable : SymbolId → Bool)

/-- Whether the group that starts at `p` can match nothing. -/
def groupDeletableFrom : (fuel : Nat) → Option NodeId → Bool
  | 0, _ => false
  | _, none => true
  | fuel + 1, some i =>
    let n := g.node i
    (match n.kind with
      | .nonterminal s => deletable s
      | .alt sub down =>
        groupDeletableFrom fuel (some sub) || (down.isSome && groupDeletableFrom fuel down)
      | .iter _ | .opt _ | .action | .empty | .resolver | .sync _ => true
      | _ => false) &&
    (n.up || groupDeletableFrom fuel n.next)

def groupDeletable (p : Option NodeId) : Bool := g.groupDeletableFrom deletable (g.size + 1) p

def nodeDeletable (i : NodeId) : Bool :=
  match g.kind i with
  | .nonterminal s => deletable s
  | .alt sub down =>
    g.groupDeletable deletable (some sub) || (down.isSome && g.groupDeletable deletable down)
  | .iter _ | .opt _ | .action | .empty | .resolver | .sync _ => true
  | _ => false

def restDeletableFrom : (fuel : Nat) → Option NodeId → Bool
  | 0, _ => false
  | _, none => true
  | fuel + 1, some i => g.nodeDeletable deletable i && restDeletableFrom fuel (g.next i)

/-- Whether everything from `p` to the end can match nothing, enclosing groups included. -/
def restDeletable (p : Option NodeId) : Bool := g.restDeletableFrom deletable (g.size + 1) p

end Lookahead.Graph
