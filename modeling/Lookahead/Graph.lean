import Lookahead.IndexSet
import Lookahead.Diagnostic

/-!
# The syntax graph

Productions and token definitions as nodes in one array, which refer to each other by index. A
node's `next` is its successor; `up` marks a successor that lies outside the group the node ends.
Node 0 belongs to no production, so that 0 can stand for "none" where graphs are listed.
-/

namespace Lookahead

abbrev NodeId := Nat
abbrev SymbolId := Nat
abbrev ClassId := Nat

/-- A stretch of the grammar text: byte offsets, and the line and column where its token starts,
counted from 1. -/
structure Span where
  beg : Nat
  stop : Nat
  line : Nat
  col : Nat
deriving DecidableEq, Repr, Inhabited

/-- Whether a character belongs to its token or only to what must follow it. -/
inductive Transition where
  | normal
  | context
deriving DecidableEq, Repr, Inhabited

inductive NodeKind where
  | terminal (s : SymbolId)
  | pragma (s : SymbolId)
  | nonterminal (s : SymbolId)
  | weak (s : SymbolId)
  | charClass (c : ClassId) (code : Transition)
  | char (c : Nat) (code : Transition)
  /-- Any terminal of the set. -/
  | any (set : IndexSet)
  | empty
  /-- A point where a parser skips to a terminal of the set after an error. -/
  | sync (set : IndexSet)
  | action
  /-- One alternative; `down` is the next one. -/
  | alt (sub : NodeId) (down : Option NodeId)
  | iter (sub : NodeId)
  | opt (sub : NodeId)
  | resolver
deriving DecidableEq, Inhabited

namespace NodeKind

def symbol? : NodeKind → Option SymbolId
  | terminal s | pragma s | nonterminal s | weak s => some s
  | _ => none

/-- The content of a group. -/
def sub? : NodeKind → Option NodeId
  | alt sub _ | iter sub | opt sub => some sub
  | _ => none

def down? : NodeKind → Option NodeId
  | alt _ down => down
  | _ => none

/-- A character set to be matched in the context only. -/
def inContext : NodeKind → NodeKind
  | charClass c _ => charClass c .context
  | char c _ => char c .context
  | k => k

end NodeKind

structure Node where
  kind : NodeKind
  next : Option NodeId := none
  up : Bool := false
  line : Nat
  /-- Attributes, action or condition. -/
  span : Option Span := none
deriving DecidableEq, Inhabited

namespace Node

def location (n : Node) : Location :=
  match n.span with
  | some s => ⟨s.line, s.col⟩
  | none => ⟨n.line, 0⟩

end Node

structure Graph where
  nodes : Array Node := #[⟨.empty, none, false, 0, none⟩]
deriving DecidableEq

namespace Graph

instance : Inhabited Graph := ⟨{}⟩

def size (g : Graph) : Nat := g.nodes.size

def node (g : Graph) (i : NodeId) : Node := g.nodes.getD i ⟨.empty, none, false, 0, none⟩

def kind (g : Graph) (i : NodeId) : NodeKind := (g.node i).kind

def next (g : Graph) (i : NodeId) : Option NodeId := (g.node i).next

def modify (g : Graph) (i : NodeId) (f : Node → Node) : Graph := ⟨g.nodes.modify i f⟩

def setNext (g : Graph) (i : NodeId) (p : Option NodeId) : Graph :=
  g.modify i fun n => { n with next := p }

def setUp (g : Graph) (i : NodeId) : Graph := g.modify i fun n => { n with up := true }

def setKind (g : Graph) (i : NodeId) (k : NodeKind) : Graph :=
  g.modify i fun n => { n with kind := k }

def setSpan (g : Graph) (i : NodeId) (s : Option Span) : Graph :=
  g.modify i fun n => { n with span := s }

/-- A new node without a successor. -/
def add (g : Graph) (k : NodeKind) (line : Nat) : Graph × NodeId :=
  (⟨g.nodes.push { kind := k, line := line }⟩, g.size)

/-- The content of each alternative, starting with the one at `p`, and the alternative after it. -/
def alternativesFrom (g : Graph) : (fuel : Nat) → NodeId → List (NodeId × Option NodeId)
  | 0, _ => []
  | fuel + 1, p =>
    match g.kind p with
    | .alt sub none => [(sub, none)]
    | .alt sub (some q) => (sub, some q) :: g.alternativesFrom fuel q
    | _ => []

def alternatives (g : Graph) (p : NodeId) : List (NodeId × Option NodeId) :=
  g.alternativesFrom g.size p

/-! ### What the operations change -/

section

variable (g : Graph) (i j : NodeId) (p : Option NodeId) (k : NodeKind) (line : Nat)

theorem node_modify (f : Node → Node) :
    (g.modify i f).node j = if i = j ∧ j < g.size then f (g.node j) else g.node j := by
  simp only [modify, node, size, Array.getD_eq_getD_getElem?, Array.getElem?_modify]
  by_cases hj : j < g.nodes.size <;> by_cases hi : i = j <;> simp [hi, hj]

theorem node_add :
    (g.add k line).1.node j = if j = g.size then { kind := k, line := line } else g.node j := by
  simp only [add, node, size, Array.getD_eq_getD_getElem?, Array.getElem?_push]
  split <;> simp

theorem node_of_size_le {g : Graph} {i : NodeId} (h : g.size ≤ i) :
    g.node i = ⟨.empty, none, false, 0, none⟩ := by
  simp only [node, size, Array.getD_eq_getD_getElem?] at h ⊢
  rw [Array.getElem?_eq_none h]
  rfl

theorem kind_add : (g.add k line).1.kind j = if j = g.size then k else g.kind j := by
  simp only [kind, node_add]
  split <;> rfl

@[simp] theorem next_add : (g.add k line).1.next j = g.next j := by
  simp only [next, node_add]
  split
  · rename_i h
    rw [node_of_size_le (Nat.le_of_eq h.symm)]
  · rfl

@[simp] theorem up_add : ((g.add k line).1.node j).up = (g.node j).up := by
  rw [node_add]
  split
  · rename_i h
    rw [node_of_size_le (Nat.le_of_eq h.symm)]
  · rfl

theorem next_of_size_le {g : Graph} {i : NodeId} (h : g.size ≤ i) : g.next i = none := by
  rw [next, node_of_size_le h]

theorem up_of_size_le {g : Graph} {i : NodeId} (h : g.size ≤ i) : (g.node i).up = false := by
  rw [node_of_size_le h]

@[simp] theorem size_modify (f : Node → Node) : (g.modify i f).size = g.size := by
  simp [modify, size]

@[simp] theorem size_setNext : (g.setNext i p).size = g.size := size_modify ..

@[simp] theorem size_setUp : (g.setUp i).size = g.size := size_modify ..

@[simp] theorem size_setKind : (g.setKind i k).size = g.size := size_modify ..

@[simp] theorem size_add : (g.add k line).1.size = g.size + 1 := by
  simp [add, size]

@[simp] theorem snd_add : (g.add k line).2 = g.size := rfl

theorem node_setNext :
    (g.setNext i p).node j = if i = j ∧ j < g.size then { g.node j with next := p } else g.node j :=
  node_modify ..

theorem node_setUp :
    (g.setUp i).node j = if i = j ∧ j < g.size then { g.node j with up := true } else g.node j :=
  node_modify ..

theorem node_setKind :
    (g.setKind i k).node j = if i = j ∧ j < g.size then { g.node j with kind := k } else g.node j :=
  node_modify ..

@[simp] theorem kind_setNext : (g.setNext i p).kind j = g.kind j := by
  simp only [kind, node_setNext]
  split <;> rfl

@[simp] theorem up_setNext : ((g.setNext i p).node j).up = (g.node j).up := by
  rw [node_setNext]
  split <;> rfl

theorem next_setNext :
    (g.setNext i p).next j = if i = j ∧ j < g.size then p else g.next j := by
  simp only [next, node_setNext]
  split <;> rfl

@[simp] theorem kind_setUp : (g.setUp i).kind j = g.kind j := by
  simp only [kind, node_setUp]
  split <;> rfl

@[simp] theorem next_setUp : (g.setUp i).next j = g.next j := by
  simp only [next, node_setUp]
  split <;> rfl

theorem up_setUp :
    ((g.setUp i).node j).up = if i = j ∧ j < g.size then true else (g.node j).up := by
  rw [node_setUp]
  split <;> rfl

theorem kind_setKind :
    (g.setKind i k).kind j = if i = j ∧ j < g.size then k else g.kind j := by
  simp only [kind, node_setKind]
  split <;> rfl

@[simp] theorem next_setKind : (g.setKind i k).next j = g.next j := by
  simp only [next, node_setKind]
  split <;> rfl

@[simp] theorem up_setKind : ((g.setKind i k).node j).up = (g.node j).up := by
  rw [node_setKind]
  split <;> rfl

end

end Graph

end Lookahead
