import Lookahead.Proofs.MirrorChecks

/-!
# Tables without places

Symbols and nodes come with lines and with stretches of the text. What is left of a table without
them (`Table.unplaced`) is all that names, graphs and classes go by: looking up gives the same, and
what changes a table changes what is left of it in the same way.
-/

namespace Lookahead

/-- That there are attributes, an action or a condition, but not where. -/
def Span.unplaced (s : Option Span) : Option Span := s.map fun _ => default

@[simp] theorem Span.isSome_unplaced (s : Option Span) : (unplaced s).isSome = s.isSome :=
  Option.isSome_map

def Node.unplaced (n : Node) : Node := { n with line := 0, span := Span.unplaced n.span }

def Graph.unplaced (g : Graph) : Graph := ⟨g.nodes.map Node.unplaced⟩

def Symbol.unplaced (s : Symbol) : Symbol :=
  { s with
    line := 0
    attributes := Span.unplaced s.attributes
    action := Span.unplaced s.action }

/-- The table without line numbers and positions. -/
def Table.unplaced (t : Table) : Table :=
  { t with symbols := t.symbols.map Symbol.unplaced, graph := t.graph.unplaced }

theorem map_modify {α β : Type} {f : α → β} {g : α → α} {g' : β → β}
    (h : ∀ a, f (g a) = g' (f a)) (xs : Array α) (i : Nat) :
    (xs.modify i g).map f = (xs.map f).modify i g' := by
  refine Array.ext_getElem? fun j => ?_
  simp only [Array.getElem?_map, Array.getElem?_modify]
  split
  · cases xs[j]? <;> simp [h]
  · rfl

/-! ### Graphs -/

@[simp] theorem Node.kind_unplaced (n : Node) : n.unplaced.kind = n.kind := rfl

@[simp] theorem Node.next_unplaced (n : Node) : n.unplaced.next = n.next := rfl

@[simp] theorem Node.up_unplaced (n : Node) : n.unplaced.up = n.up := rfl

@[simp] theorem Node.line_unplaced (n : Node) : n.unplaced.line = 0 := rfl

namespace Graph

variable (g : Graph) (i j : NodeId) (p q : Option NodeId) (a b : Piece) (n line : Nat)
  (k : NodeKind)

@[simp] theorem size_unplaced : g.unplaced.size = g.size := Array.size_map

@[simp] theorem node_unplaced : g.unplaced.node i = (g.node i).unplaced := by
  simp only [node, unplaced, Array.getD_eq_getD_getElem?, Array.getElem?_map]
  cases g.nodes[i]? <;> rfl

@[simp] theorem kind_unplaced : g.unplaced.kind i = g.kind i := by
  rw [kind, node_unplaced]
  rfl

@[simp] theorem next_unplaced : g.unplaced.next i = g.next i := by
  rw [next, node_unplaced]
  rfl

/-! What changes a graph -/

theorem unplaced_modify {f f' : Node → Node} (h : ∀ n, (f n).unplaced = f' n.unplaced) :
    (g.modify i f).unplaced = g.unplaced.modify i f' :=
  congrArg Graph.mk (map_modify h g.nodes i)

@[simp] theorem unplaced_setNext : (g.setNext i p).unplaced = g.unplaced.setNext i p := by
  refine g.unplaced_modify i ?_
  exact fun _ => rfl

@[simp] theorem unplaced_setUp : (g.setUp i).unplaced = g.unplaced.setUp i := by
  refine g.unplaced_modify i ?_
  exact fun _ => rfl

@[simp] theorem unplaced_setKind : (g.setKind i k).unplaced = g.unplaced.setKind i k := by
  refine g.unplaced_modify i ?_
  exact fun _ => rfl

@[simp] theorem unplaced_setSpan (s : Option Span) :
    (g.setSpan i s).unplaced = g.unplaced.setSpan i (Span.unplaced s) := by
  refine g.unplaced_modify i ?_
  exact fun _ => rfl

@[simp] theorem unplaced_add : (g.add k line).1.unplaced = (g.unplaced.add k 0).1 :=
  congrArg Graph.mk Array.map_push

@[simp] theorem unplaced_redirect :
    (redirect p n g q).unplaced = redirect p n g.unplaced q := by
  induction n generalizing g q with
  | zero => rfl
  | succ n ih => cases q <;> simp [redirect, ih]

@[simp] theorem unplaced_redirectExits :
    (g.redirectExits i p).unplaced = g.unplaced.redirectExits i p := by
  simp [redirectExits]

@[simp] theorem unplaced_finish : (g.finish a).unplaced = g.unplaced.finish a :=
  g.unplaced_redirectExits ..

/-! Building keeps up with itself, also in what it takes for the new piece. -/

@[simp] theorem single_unplaced : g.unplaced.single k 0 =
    ((g.single k line).1.unplaced, (g.single k line).2) := by
  simp [single]

theorem sequence_unplaced : g.unplaced.sequence a b =
    ((g.sequence a b).1.unplaced, (g.sequence a b).2) := by
  simp [sequence]

theorem option_unplaced : g.unplaced.option a = ((g.option a).1.unplaced, (g.option a).2) := by
  simp [option]

theorem iteration_unplaced : g.unplaced.iteration a =
    ((g.iteration a).1.unplaced, (g.iteration a).2) := by
  simp [iteration]

theorem firstAlternative_unplaced : g.unplaced.firstAlternative a =
    ((g.firstAlternative a).1.unplaced, (g.firstAlternative a).2) := by
  simp [firstAlternative]

theorem alternative_unplaced : g.unplaced.alternative a b =
    ((g.alternative a b).1.unplaced, (g.alternative a b).2) := by
  obtain ⟨g₁, h₁⟩ : ∃ g₁, (g.add (.alt b.entry none) (g.node b.entry).line).1 = g₁ := ⟨_, rfl⟩
  have h₁' : (g.unplaced.add (.alt b.entry none) (g.unplaced.node b.entry).line).1 =
      g₁.unplaced := by
    rw [← h₁, unplaced_add]
    simp
  simp only [alternative, snd_add, size_unplaced, h₁, h₁', ← unplaced_setUp, kind_unplaced]
  generalize (g₁.setUp g.size).setUp b.exits = g₂
  generalize follow _ _ a.entry = l
  have hlinks (g : Graph) : g.unplaced.next = g.next := funext g.next_unplaced
  cases g₂.kind l with
  | alt sub down =>
    simp only [← unplaced_setKind, hlinks]
    simp
  | _ => simp [hlinks]

theorem charsAfter_unplaced (cs : List Char) : g.unplaced.charsAfter a 0 cs =
    ((g.charsAfter a line cs).1.unplaced, (g.charsAfter a line cs).2) := by
  induction cs generalizing g a with
  | nil => rfl
  | cons c cs ih =>
    simp only [charsAfter, snd_add, size_unplaced]
    rw [← g.unplaced_add line, ← unplaced_setNext]
    exact ih ..

theorem chars_unplaced (cs : List Char) : g.unplaced.chars 0 cs =
    ((g.chars line cs).1.unplaced, (g.chars line cs).2) := by
  cases cs with
  | nil => exact g.single_unplaced line .empty
  | cons c cs =>
    rw [chars, g.single_unplaced line]
    exact charsAfter_unplaced ..

@[simp] theorem unplaced_markContextFrom :
    (markContextFrom n g p).unplaced = markContextFrom n g.unplaced p := by
  induction n generalizing g p with
  | zero => rfl
  | succ n ih =>
    cases p with
    | none => rfl
    | some i =>
      simp only [markContextFrom, node_unplaced, Node.kind_unplaced, Node.up_unplaced,
        Node.next_unplaced]
      cases (g.node i).kind <;> cases (g.node i).up <;> simp [ih]

@[simp] theorem unplaced_markContext : (g.markContext p).unplaced = g.unplaced.markContext p := by
  simp [markContext]

/-! What a graph tells -/

@[simp] theorem alternatives_unplaced : g.unplaced.alternatives i = g.alternatives i := by
  have hfrom (n : Nat) (i : NodeId) :
      g.unplaced.alternativesFrom n i = g.alternativesFrom n i := by
    induction n generalizing i with
    | zero => rfl
    | succ n ih => simp only [alternativesFrom, kind_unplaced, ih]
  rw [alternatives, hfrom, size_unplaced, alternatives]

variable (deletable : SymbolId → Bool)

@[simp] theorem groupDeletable_unplaced :
    g.unplaced.groupDeletable deletable p = g.groupDeletable deletable p := by
  have hfrom (n : Nat) (p : Option NodeId) :
      g.unplaced.groupDeletableFrom deletable n p = g.groupDeletableFrom deletable n p := by
    induction n generalizing p with
    | zero => rfl
    | succ n ih => cases p <;> simp [groupDeletableFrom, ih]
  rw [groupDeletable, hfrom, size_unplaced, groupDeletable]

@[simp] theorem nodeDeletable_unplaced :
    g.unplaced.nodeDeletable deletable i = g.nodeDeletable deletable i := by
  simp [nodeDeletable]

@[simp] theorem restDeletable_unplaced :
    g.unplaced.restDeletable deletable p = g.restDeletable deletable p := by
  have hfrom (n : Nat) (p : Option NodeId) :
      g.unplaced.restDeletableFrom deletable n p = g.restDeletableFrom deletable n p := by
    induction n generalizing p with
    | zero => rfl
    | succ n ih => cases p <;> simp [restDeletableFrom, ih]
  rw [restDeletable, hfrom, size_unplaced, restDeletable]

end Graph

/-! ### Tables -/

namespace Symbol

variable (s : Symbol)

@[simp] theorem index_unplaced : s.unplaced.index = s.index := rfl

@[simp] theorem name_unplaced : s.unplaced.name = s.name := rfl

@[simp] theorem attributes_unplaced : s.unplaced.attributes = Span.unplaced s.attributes := rfl

@[simp] theorem root_unplaced : s.unplaced.root = s.root := rfl

@[simp] theorem deletable_unplaced : s.unplaced.deletable = s.deletable := rfl

@[simp] theorem firstReady_unplaced : s.unplaced.firstReady = s.firstReady := rfl

@[simp] theorem first_unplaced : s.unplaced.first = s.first := rfl

@[simp] theorem follow_unplaced : s.unplaced.follow = s.follow := rfl

@[simp] theorem followSources_unplaced : s.unplaced.followSources = s.followSources := rfl

end Symbol

namespace Table

variable (t : Table) (a : SymbolId) (i : NodeId) (p : Option NodeId) (name : String)

@[simp] theorem graph_unplaced : t.unplaced.graph = t.graph.unplaced := rfl

@[simp] theorem symbols_unplaced : t.unplaced.symbols.size = t.symbols.size := Array.size_map

@[simp] theorem terminals_unplaced : t.unplaced.terminals = t.terminals := rfl

@[simp] theorem nonterminals_unplaced : t.unplaced.nonterminals = t.nonterminals := rfl

@[simp] theorem terminalCount_unplaced : t.unplaced.terminalCount = t.terminalCount := rfl

@[simp] theorem nonterminalCount_unplaced : t.unplaced.nonterminalCount = t.nonterminalCount := rfl

@[simp] theorem literals_unplaced : t.unplaced.literals = t.literals := rfl

@[simp] theorem start_unplaced : t.unplaced.start = t.start := rfl

@[simp] theorem eof_unplaced : t.unplaced.eof = t.eof := rfl

@[simp] theorem symbol_unplaced : t.unplaced.symbol a = (t.symbol a).unplaced := by
  simp only [symbol, unplaced, Array.getD_eq_getD_getElem?, Array.getElem?_map]
  cases t.symbols[a]? <;> rfl

@[simp] theorem node_unplaced : t.unplaced.node i = (t.node i).unplaced :=
  t.graph.node_unplaced i

@[simp] theorem isDeletable_unplaced : t.unplaced.isDeletable = t.isDeletable := by
  funext a
  rw [isDeletable, symbol_unplaced]
  rfl

@[simp] theorem nodeDeletable_unplaced : t.unplaced.nodeDeletable i = t.nodeDeletable i := by
  simp [nodeDeletable]

@[simp] theorem groupDeletable_unplaced : t.unplaced.groupDeletable p = t.groupDeletable p := by
  simp [groupDeletable]

@[simp] theorem restDeletable_unplaced : t.unplaced.restDeletable p = t.restDeletable p := by
  simp [restDeletable]

@[simp] theorem find?_unplaced : t.unplaced.find? name = t.find? name := by
  simp only [find?, symbol_unplaced, terminals_unplaced, nonterminals_unplaced]
  rfl

@[simp] theorem nonterminalSymbols_unplaced :
    t.unplaced.nonterminalSymbols = t.nonterminalSymbols.map Symbol.unplaced := by
  simp [nonterminalSymbols]

/-- A change of a symbol that has nothing to do with places. -/
theorem unplaced_modifySymbol {f g : Symbol → Symbol} (h : ∀ s, (f s).unplaced = g s.unplaced) :
    (t.modifySymbol a f).unplaced = t.unplaced.modifySymbol a g := by
  simp only [modifySymbol, unplaced, mk.injEq, and_true]
  exact map_modify h t.symbols a

theorem unplaced_foldl {α : Type} {f g : Table → α → Table}
    (h : ∀ t a, (f t a).unplaced = g t.unplaced a) (l : List α) :
    (l.foldl f t).unplaced = l.foldl g t.unplaced :=
  (List.foldl_hom unplaced fun t a => (h t a).symm).symm

/-- The same where something else goes along with the table. -/
theorem unplaced_foldl_prod {α β : Type} {f g : Table × β → α → Table × β}
    (h : ∀ r a, (f r a).map unplaced id = g (r.map unplaced id) a) (l : List α) (r : Table × β) :
    (l.foldl f r).map unplaced id = l.foldl g (r.map unplaced id) :=
  (List.foldl_hom (Prod.map unplaced id) fun r a => (h r a).symm).symm

theorem unplaced_onGraph {f g : Graph → Graph} (h : (f t.graph).unplaced = g t.graph.unplaced) :
    (t.onGraph f).unplaced = t.unplaced.onGraph g := by
  simp only [onGraph, unplaced, mk.injEq, and_true, true_and]
  exact h

end Table

end Lookahead
