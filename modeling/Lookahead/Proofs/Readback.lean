import Lookahead.Proofs.Alternatives
import Lookahead.Proofs.Drawing

/-!
# Reading a production off its graph

A graph is read from the root of a production (`Graph.read`): along `next` to the end of a group,
into the content of options, iterations and alternatives, and along the list of alternatives. What
is read is a list of items, which is also what is left of an expression when the parentheses that
make no difference are taken out (`Expr.items`). The graph of an expression is read as that
expression, with the nodes in the place of its parts (`Expr.Stands.items_shape`,
`Shape.Fits.readFrom_eq`).
-/

namespace Lookahead

/-- What stands in a sequence. -/
inductive Item (α : Type) where
  | leaf (a : α)
  | option (content : List (Item α))
  | iteration (content : List (Item α))
  | choice (alternatives : List (List (Item α)))

namespace Expr

variable {α : Type}

/-- Alternatives as a sequence. One alternative is no choice. -/
def joined : List (List (Item α)) → List (Item α)
  | [l] => l
  | ls => [.choice ls]

/-- The alternatives of an expression, each as a sequence of items. Parentheses around one
alternative and around a whole expression leave no trace. -/
def choices : Expr α → List (List (Item α))
  | empty => [[]]
  | atom a => [[.leaf a]]
  | seq e f => [joined e.choices ++ joined f.choices]
  | alt e f => e.choices ++ [joined f.choices]
  | group .square e => [[.option (joined e.choices)]]
  | group .curly e => [[.iteration (joined e.choices)]]
  | group _ e => [joined e.choices]

/-- An expression as a sequence of items. -/
def items (e : Expr α) : List (Item α) := joined e.choices

end Expr

namespace Graph

variable (g : Graph)

/-- The nodes of a group, along `next` up to the first one that is marked. -/
def group : (fuel : Nat) → Option NodeId → List NodeId
  | 0, _ => []
  | _, none => []
  | fuel + 1, some i => i :: if (g.node i).up then [] else group fuel (g.next i)

/-- The last node of the group that starts at `p`. -/
def groupEnd (p : NodeId) : Option NodeId := (g.group g.size (some p)).getLast?

/-- A node as an item, with the groups inside read by `read`. -/
def item (read : NodeId → List (Item NodeId)) (i : NodeId) : Item NodeId :=
  match g.kind i with
  | .opt sub => .option (read sub)
  | .iter sub => .iteration (read sub)
  | .alt _ _ => .choice ((g.alternatives i).map fun q => read q.1)
  | _ => .leaf i

/-- The group that starts at `p`. Groups are nested no deeper than there are nodes. -/
def readFrom : (fuel : Nat) → NodeId → List (Item NodeId)
  | 0, _ => []
  | fuel + 1, p => (g.group g.size (some p)).map (g.item (readFrom fuel))

def read (p : NodeId) : List (Item NodeId) := g.readFrom g.size p

end Graph

/-! ### Reading a tree -/

namespace Shape

/-- The nodes of the group itself. -/
def row : Shape → List NodeId
  | nil => []
  | node i _ _ _ r => i :: r.row

mutual

/-- The items of the group. -/
def items (g : Graph) : Shape → List (Item NodeId)
  | nil => []
  | node i _ b o r =>
    (match g.kind i with
      | .opt _ => .option (b.items g)
      | .iter _ => .iteration (b.items g)
      | .alt _ _ => .choice (b.items g :: o.branches g)
      | _ => .leaf i) :: r.items g

/-- The alternatives of the group. -/
def branches (g : Graph) : Shape → List (List (Item NodeId))
  | nil => []
  | node _ _ b o _ => b.items g :: o.branches g

end

variable {g : Graph} {up : Bool} {s x : Shape} {i p : NodeId} {q : Option NodeId}

theorem row_sublist (s : Shape) : s.row.Sublist s.nodes := by
  induction s with
  | nil => exact .slnil
  | node i l b o r _ _ ih =>
    exact .cons_cons i ((ih.trans (List.sublist_append_right ..)).trans
      (List.sublist_append_right ..))

theorem getLast?_row (s : Shape) : s.row.getLast? = s.last := by
  induction s with
  | nil => rfl
  | node i l b o r _ _ ih =>
    cases r with
    | nil => rfl
    | node j l' b' o' r' =>
      rw [row, row, List.getLast?_cons_cons, ← row, ih]
      rfl

/-- Following `next` to a marked node or to the end goes through the nodes of the group. -/
theorem Fits.group_eq (hs : s.Fits g (· = q) up) (hne : s ≠ nil) (hq : up = false → q = none)
    {fuel : Nat} (hf : s.row.length ≤ fuel) : g.group fuel s.entry = s.row := by
  induction s generalizing fuel with
  | nil => exact absurd rfl hne
  | node i l b o r _ _ ih =>
    obtain ⟨-, hl, -, -, hr⟩ := hs
    simp only [row, List.length_cons] at hf
    obtain ⟨fuel, rfl⟩ : ∃ n, fuel = n + 1 := ⟨fuel - 1, by omega⟩
    rw [entry, Graph.group, row]
    by_cases hrn : r = nil
    · subst hrn
      obtain ⟨hnext, hup⟩ := hl.of_nil
      cases up with
      | true => simp [hup, row]
      | false =>
        rw [hnext, hq rfl]
        cases fuel <;> simp [Graph.group, row]
    · obtain ⟨hnext, hup⟩ := hl.of_ne hrn
      simp [hup, hnext, ih hr hrn (Nat.le_of_succ_le_succ hf)]

theorem Fits.readFrom_of (hs : s.Fits g (· = q) up) (hq : up = false → q = none)
    (hp : s.entry = some p) (hn : s.nodes.length ≤ g.size) {fuel : Nat}
    (hf : s.nodes.length ≤ fuel)
    (h : ∀ n, s.nodes.length ≤ n + 1 → s.row.map (g.item (g.readFrom n)) = s.items g) :
    g.readFrom fuel p = s.items g := by
  have hne : s ≠ nil := fun hs => by simp [hs, entry] at hp
  have hpos : 0 < s.nodes.length := List.length_pos_of_mem (mem_nodes_of_entry hp)
  obtain ⟨fuel, rfl⟩ : ∃ n, fuel = n + 1 := ⟨fuel - 1, by omega⟩
  rw [Graph.readFrom, ← hp, hs.group_eq hne hq (s.row_sublist.length_le.trans hn), h fuel hf]

/-- The nodes of a group are read as its tree tells, and so are its alternatives. -/
theorem Fits.map_item (hs : s.Fits g (· = q) up) (hn : s.nodes.length ≤ g.size) {fuel : Nat}
    (hf : s.nodes.length ≤ fuel + 1) :
    s.row.map (g.item (g.readFrom fuel)) = s.items g ∧
      (s.IsOther g → s.alternatives.map (fun q => g.readFrom fuel q.1) = s.branches g) := by
  induction s generalizing q up fuel with
  | nil => exact ⟨rfl, fun _ => rfl⟩
  | node i l b o r ihb iho ihr =>
    -- the content has a node less than the tree, so one level of fuel can be spent on it
    have hlen := hf
    have hlen' := hn
    simp only [nodes, List.length_cons, List.length_append] at hlen hlen'
    obtain ⟨hk, -, -, -, hr⟩ := id hs
    have hb := hs.body
    have ho := hs.others
    have hbody (sub : NodeId) (hsub : b.entry = some sub) : g.readFrom fuel sub = b.items g :=
      hb.readFrom_of (by simp) hsub (by omega) (by omega) fun n h => (ihb hb (by omega) h).1
    have hbranches (sub : NodeId) (hsub : b.entry = some sub) (hoo : o.IsOther g) :
        (node i l b o r).alternatives.map (fun q => g.readFrom fuel q.1) =
          b.items g :: o.branches g := by
      have hof : o.nodes.length ≤ fuel + 1 := by omega
      simp [alternatives, hsub, hbody sub hsub, (iho ho (by omega) hof).2 hoo]
    refine ⟨?_, ?_⟩
    · have hrf : r.nodes.length ≤ fuel + 1 := by omega
      rw [row, items, List.map_cons, (ihr hr (by omega) hrf).1, Graph.item]
      congr 1
      cases hki : g.kind i <;> rw [hki] at hk <;> try rfl
      case opt => exact congrArg Item.option (hbody _ hk.2.1)
      case iter => exact congrArg Item.iteration (hbody _ hk.2.1)
      case alt =>
        rw [Graph.alternatives, alternativesFrom_eq hs rfl hki hn]
        exact congrArg Item.choice (hbranches _ hk.2.1 hk.2.2.2)
    · rintro ⟨-, sub, down, hki⟩
      rw [hki] at hk
      exact hbranches _ hk.2.1 hk.2.2.2

/-- A graph is read as its tree tells. -/
theorem Fits.readFrom_eq (hs : s.Fits g (· = q) up) (hq : up = false → q = none)
    (hp : s.entry = some p) (hn : s.nodes.length ≤ g.size) {fuel : Nat}
    (hf : s.nodes.length ≤ fuel) : g.readFrom fuel p = s.items g :=
  hs.readFrom_of hq hp hn hf fun _ h => (hs.map_item hn h).1

theorem items_append (s x : Shape) : (s.append x).items g = s.items g ++ x.items g := by
  induction s with
  | nil => rfl
  | node i l b o r _ _ ih => rw [append, items, ih, items, List.cons_append]

theorem branches_addOther (s x : Shape) :
    (s.addOther x).branches g = s.branches g ++ x.branches g := by
  induction s with
  | nil => rfl
  | node i l b o r _ ih _ => rw [addOther, branches, ih, branches, List.cons_append]

theorem items_of_leaf {l : Bool} (hk : (g.kind i).sub? = none) :
    (node i l nil nil nil).items g = [.leaf i] := by
  rw [items]
  cases h : g.kind i <;> rw [h] at hk <;> first | rfl | cases hk

theorem items_of_alt {sub : NodeId} {down : Option NodeId} {l : Bool} {b o : Shape}
    (hk : g.kind i = .alt sub down) :
    (node i l b o nil).items g = [.choice ((node i l b o nil).branches g)] := by
  rw [items, hk]
  rfl

end Shape

/-! ### The nodes of an expression -/

namespace NodeKind

theorem eq_alt_of_bare {k : NodeKind} (h : k.bare = alt 0 none) : ∃ sub down, k = alt sub down := by
  cases k <;> first | exact ⟨_, _, rfl⟩ | cases h

theorem eq_opt_of_bare {k : NodeKind} (h : k.bare = opt 0) : ∃ sub, k = opt sub := by
  cases k <;> first | exact ⟨_, rfl⟩ | cases h

theorem eq_iter_of_bare {k : NodeKind} (h : k.bare = iter 0) : ∃ sub, k = iter sub := by
  cases k <;> first | exact ⟨_, rfl⟩ | cases h

theorem sub?_of_bare {k l : NodeKind} (h : k.bare = l) (hl : l.sub? = none) : k.sub? = none := by
  subst h
  cases k <;> first | rfl | cases hl

end NodeKind

namespace Atom

theorem sub?_nodeKind (kind : SymbolKind) (weak : Bool) (name : Token) (s : SymbolId) :
    (nodeKind kind weak name s).value.sub? = none := by
  cases kind <;> cases weak <;> rfl

/-- A node that stands for an atom has nothing inside. -/
theorem Stands.sub? {t : Table} {a : Atom} {i : NodeId} (h : a.Stands t i) :
    (t.graph.kind i).sub? = none := by
  cases a with
  | symbol weak name attributes =>
    obtain ⟨s, -, h⟩ := h
    exact NodeKind.sub?_of_bare (congrArg Look.kind h) (sub?_nodeKind ..)
  | _ => exact NodeKind.sub?_of_bare (congrArg Look.kind h) rfl

end Atom

namespace Expr

section

variable {α : Type}

def atoms : Expr α → List α
  | empty => []
  | atom a => [a]
  | seq e f | alt e f => e.atoms ++ f.atoms
  | group _ e => e.atoms

/-- The expression with a node in the place of each part, numbered as in `Expr.shape`. -/
def leaves (n : Nat) : Expr α → Expr NodeId
  | empty | atom _ => atom n
  | seq e f => seq (e.leaves n) (f.leaves (n + e.size))
  | alt e f => alt (e.leaves n) (f.leaves (n + e.size))
  | group b e => group b (e.leaves n)

theorem isAlt_leaves (e : Expr α) (n : Nat) : (e.leaves n).isAlt = e.isAlt := by
  cases e <;> rfl

theorem atoms_leaves_sublist (e : Expr α) (n : Nat) :
    (e.leaves n).atoms.Sublist (List.range' n e.size) := by
  induction e generalizing n with
  | empty | atom _ => exact .refl _
  | seq e f ihe ihf =>
    rw [size, ← List.range'_append_1]
    exact (ihe n).append (ihf _)
  | alt e f ihe ihf =>
    rw [size, ← List.range'_append_1, ← List.range'_append_1]
    exact ((ihe n).append (ihf _)).trans (List.sublist_append_left ..)
  | group b e ih =>
    refine (ih n).trans (List.range'_sublist_right.mpr ?_)
    cases b <;> simp [size]

theorem choices_ne_nil (e : Expr α) : e.choices ≠ [] := by
  cases e with
  | alt e f => simp [choices]
  | group b e => cases b <;> simp [choices]
  | _ => simp [choices]

theorem choices_of_not_isAlt {e : Expr α} (h : e.isAlt = false) : e.choices = [e.items] := by
  cases e with
  | alt e f => cases h
  | group b e => cases b <;> rfl
  | _ => rfl

theorem items_of_isAlt {e : Expr α} (h : e.isAlt = true) : e.items = [.choice e.choices] := by
  cases e with
  | alt e f =>
    obtain ⟨l, ls, he⟩ := List.exists_cons_of_ne_nil e.choices_ne_nil
    simp [items, choices, he, joined]
  | _ => cases h

end

/-- The expression with a node that stands for it in the place of each part. -/
inductive Drawn (t : Table) : Expr Atom → Expr NodeId → Prop
  | empty {i : NodeId} (h : t.graph.look i = ⟨.empty, 0, none⟩) : Drawn t .empty (.atom i)
  | atom {a : Atom} {i : NodeId} (h : a.Stands t i) : Drawn t (.atom a) (.atom i)
  | seq {e f : Expr Atom} {e' f' : Expr NodeId} (he : Drawn t e e') (hf : Drawn t f f') :
      Drawn t (.seq e f) (.seq e' f')
  | alt {e f : Expr Atom} {e' f' : Expr NodeId} (he : Drawn t e e') (hf : Drawn t f f') :
      Drawn t (.alt e f) (.alt e' f')
  | group {b : Bracket} {e : Expr Atom} {e' : Expr NodeId} (he : Drawn t e e') :
      Drawn t (.group b e) (.group b e')

variable {t : Table} {e : Expr Atom} {n i : Nat}

theorem Stands.drawn (h : e.Stands t n) : Drawn t e (e.leaves n) := by
  induction e generalizing n with
  | empty => exact .empty h
  | atom a => exact .atom h
  | seq e f ihe ihf => exact .seq (ihe h.1) (ihf h.2)
  | alt e f ihe ihf => exact .alt (ihe h.1) (ihf h.2.1)
  | group b e ih => exact .group (ih h.1)

/-- The nodes with nothing inside are those that stand for an atom. -/
theorem Stands.mem_atoms_iff (h : e.Stands t n) : i ∈ (e.leaves n).atoms ↔
    (n ≤ i ∧ i < n + e.size) ∧ (t.graph.kind i).sub? = none := by
  induction e generalizing n with
  | empty =>
    have hk := NodeKind.sub?_of_bare (congrArg Look.kind h) rfl
    simp only [leaves, atoms, size, List.mem_singleton]
    grind
  | atom a =>
    have hk := Atom.Stands.sub? h
    simp only [leaves, atoms, size, List.mem_singleton]
    grind
  | seq e f ihe ihf =>
    simp only [leaves, atoms, size, List.mem_append, ihe h.1, ihf h.2]
    grind
  | alt e f ihe ihf =>
    have hk (hi : n + e.size + f.size ≤ i) (hi' : i < n + (alt e f).size) :
        (t.graph.kind i).sub? ≠ none := by
      obtain ⟨sub, down, hk⟩ := NodeKind.eq_alt_of_bare (h.2.2 i hi hi')
      simp [hk, NodeKind.sub?]
    simp only [leaves, atoms, List.mem_append, ihe h.1, ihf h.2.1]
    simp only [size] at hk ⊢
    grind
  | group b e ih =>
    obtain ⟨he, hs, hc⟩ := h
    simp only [leaves, atoms, ih he]
    cases b with
    | square =>
      obtain ⟨sub, hk⟩ := NodeKind.eq_opt_of_bare (hs rfl)
      have hk : (t.graph.kind (n + e.size)).sub? ≠ none := by simp [hk, NodeKind.sub?]
      simp only [size]
      grind
    | curly =>
      obtain ⟨sub, hk⟩ := NodeKind.eq_iter_of_bare (hc rfl)
      have hk : (t.graph.kind (n + e.size)).sub? ≠ none := by simp [hk, NodeKind.sub?]
      simp only [size]
      grind
    | _ => rfl

/-- The tree of several alternatives is a chain of alternatives. -/
theorem Stands.exists_node (h : e.Stands t n) (ha : e.isAlt = true) :
    ∃ i b o, e.shape n = .node i false b o .nil ∧ ∃ sub down, t.graph.kind i = .alt sub down := by
  induction e generalizing n with
  | alt e f ihe _ =>
    rw [shape]
    split
    · rename_i he
      obtain ⟨i, b, o, hs, hk⟩ := ihe h.1 he
      rw [hs]
      exact ⟨i, b, _, rfl, hk⟩
    · rename_i he
      refine ⟨_, _, _, rfl, NodeKind.eq_alt_of_bare (h.2.2 _ le_rfl ?_)⟩
      simp only [size, if_neg he]
      omega
  | _ => cases ha

/-- The tree of an expression is read as the expression, and so are its alternatives. -/
theorem Stands.items_shape (h : e.Stands t n) :
    (e.shape n).items t.graph = (e.leaves n).items ∧
      (e.isAlt = true → (e.shape n).branches t.graph = (e.leaves n).choices) := by
  induction e generalizing n with
  | empty =>
    exact ⟨Shape.items_of_leaf (NodeKind.sub?_of_bare (congrArg Look.kind h) rfl), by simp [isAlt]⟩
  | atom a => exact ⟨Shape.items_of_leaf (Atom.Stands.sub? h), by simp [isAlt]⟩
  | seq e f ihe ihf =>
    refine ⟨?_, by simp [isAlt]⟩
    rw [shape, Shape.items_append, (ihe h.1).1, (ihf h.2).1]
    rfl
  | alt e f ihe ihf =>
    -- a group of alternatives is known by its branches, to which another one is added
    have hb : (shape n (alt e f)).branches t.graph = (leaves n (alt e f)).choices := by
      rw [shape, leaves, choices]
      split
      · rename_i he
        rw [Shape.branches_addOther, (ihe h.1).2 he]
        simp [Shape.branches, (ihf h.2.1).1, items]
      · rename_i he
        have he : (e.leaves n).isAlt = false := by simpa [isAlt_leaves] using he
        rw [Shape.branches, Shape.branches, (ihe h.1).1, (ihf h.2.1).1, choices_of_not_isAlt he]
        rfl
    refine ⟨?_, fun _ => hb⟩
    obtain ⟨i, b, o, hs, sub, down, hk⟩ := Stands.exists_node h rfl
    rw [items_of_isAlt (isAlt_leaves _ _), ← hb, hs, Shape.items_of_alt hk]
  | group b e ih =>
    refine ⟨?_, by simp [isAlt]⟩
    obtain ⟨he, hs, hc⟩ := h
    cases b with
    | square =>
      obtain ⟨sub, hk⟩ := NodeKind.eq_opt_of_bare (hs rfl)
      rw [shape, Shape.items, hk, Shape.items, (ih he).1]
      rfl
    | curly =>
      obtain ⟨sub, hk⟩ := NodeKind.eq_iter_of_bare (hc rfl)
      rw [shape, Shape.items, hk, Shape.items, (ih he).1]
      rfl
    | _ => exact (ih he).1

end Expr

end Lookahead
