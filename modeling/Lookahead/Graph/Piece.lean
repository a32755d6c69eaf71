import Lookahead.Graph

/-!
# Building graphs

A piece of graph under construction has an entry and open exits. Until a successor is known the
`next` fields of the exits form a list, which starts at `Piece.exits`; joining two pieces consumes
that list and turns its links into edges.
-/

namespace Lookahead

structure Piece where
  entry : NodeId
  exits : NodeId
deriving DecidableEq, Repr, Inhabited

namespace Graph

/-- A piece of one node. -/
def single (g : Graph) (k : NodeKind) (line : Nat) : Graph × Piece :=
  let (g, i) := g.add k line
  (g, ⟨i, i⟩)

/-- Gives every exit on the list from `p` the successor `target`. The list is read before it is
overwritten; a node met again leads to `target`, so no list takes more than two rounds. -/
def redirect (target : Option NodeId) : (fuel : Nat) → Graph → Option NodeId → Graph
  | 0, g, _ => g
  | _, g, none => g
  | fuel + 1, g, some i => redirect target fuel (g.setNext i target) (g.next i)

def redirectExits (g : Graph) (p : NodeId) (target : Option NodeId) : Graph :=
  redirect target (2 * g.size + 1) g (some p)

/-- Where following `step` ends. -/
def follow (step : NodeId → Option NodeId) : (fuel : Nat) → NodeId → NodeId
  | 0, p => p
  | fuel + 1, p =>
    match step p with
    | none => p
    | some q => follow step fuel q

/-- Makes a piece the first alternative of a group. -/
def firstAlternative (g : Graph) (p : Piece) : Graph × Piece :=
  let (g, i) := g.add (.alt p.entry none) (g.node p.entry).line
  ((g.setUp p.exits).setNext i (some p.exits), ⟨i, i⟩)

/-- Adds the alternative `q` behind the last one of `p`. -/
def alternative (g : Graph) (p q : Piece) : Graph × Piece :=
  let (g, i) := g.add (.alt q.entry none) (g.node q.entry).line
  let g := (g.setUp i).setUp q.exits
  let last := follow (fun j => (g.kind j).down?) g.size p.entry
  let g := match g.kind last with
    | .alt sub _ => g.setKind last (.alt sub (some i))
    | _ => g
  let g := g.setNext (follow g.next g.size p.exits) (some i)
  (g.setNext i (some q.exits), p)

/-- Lets `q` follow every open exit of `p`. -/
def sequence (g : Graph) (p q : Piece) : Graph × Piece :=
  (g.redirectExits p.exits (some q.entry), ⟨p.entry, q.exits⟩)

/-- The exits of an iteration's content lead back to the iteration. -/
def iteration (g : Graph) (p : Piece) : Graph × Piece :=
  let (g, i) := g.add (.iter p.entry) (g.node p.entry).line
  ((g.setUp p.exits).redirectExits p.exits (some i), ⟨i, i⟩)

/-- An option is left through itself or through the exits of its content. -/
def option (g : Graph) (p : Piece) : Graph × Piece :=
  let (g, i) := g.add (.opt p.entry) (g.node p.entry).line
  ((g.setUp p.exits).setNext i (some p.exits), ⟨i, i⟩)

/-- Closes a piece: nothing follows its exits. -/
def finish (g : Graph) (p : Piece) : Graph := g.redirectExits p.exits none

/-- One node for each character, in order, behind `p`. -/
def charsAfter (g : Graph) (p : Piece) (line : Nat) : List Char → Graph × Piece
  | [] => (g, p)
  | c :: cs =>
    let (g, i) := g.add (.char c.toNat .normal) line
    (g.setNext p.exits (some i)).charsAfter ⟨p.entry, i⟩ line cs

/-- A chain of characters; the empty node if there are none. -/
def chars (g : Graph) (line : Nat) : List Char → Graph × Piece
  | [] => g.single .empty line
  | c :: cs =>
    let (g, p) := g.single (.char c.toNat .normal) line
    g.charsAfter p line cs

/-- Marks the characters of the group that starts at `p` as context. -/
def markContextFrom : (fuel : Nat) → Graph → Option NodeId → Graph
  | 0, g, _ => g
  | _, g, none => g
  | fuel + 1, g, some i =>
    let n := g.node i
    let g := match n.kind with
      | .alt sub down => markContextFrom fuel (markContextFrom fuel g (some sub)) down
      | .iter sub | .opt sub => markContextFrom fuel g (some sub)
      | k => g.setKind i k.inContext
    if n.up then g else markContextFrom fuel g n.next

def markContext (g : Graph) (p : Option NodeId) : Graph := markContextFrom (g.size + 1) g p

end Graph

end Lookahead
