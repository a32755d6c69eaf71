import Lookahead.Proofs.HaltingSets
import Lookahead.Proofs.Order

/-!
# What a table refers to is in it

The node of every link of a node is in the graph, for the links of a closed tree stay in the tree
(`Graph.Closed.mem_of_link`) and each production is a closed tree of its own
(`Production.contained_declare`). So everything that the table of a definition refers to is in the
table, whatever faults were found in the definition (`Definition.contained_table`).
-/

namespace Lookahead

open Table

/-! ### Links -/

/-- The node `i` refers to the node `j`. -/
def Graph.Link (g : Graph) (i j : NodeId) : Prop :=
  g.next i = some j ∨ (g.kind i).sub? = some j ∨ (g.kind i).down? = some j

/-- All nodes that are referred to are in the graph. -/
def Graph.Contained (g : Graph) : Prop := ∀ i j, g.Link i j → j < g.size

/-- The links of a tree lead to its nodes, but for those that leave it. -/
theorem Shape.Fits.mem_of_link {g : Graph} {E : Option NodeId → Prop} {up : Bool} {s : Shape}
    {N : List NodeId} (hs : s.Fits g E up) (hE : ∀ j, E (some j) → j ∈ N) (hN : s.nodes ⊆ N) :
    ∀ i ∈ s.nodes, ∀ j, g.Link i j → j ∈ N := by
  induction s generalizing E up with
  | nil => simp [nodes]
  | node i loop b o r ihb iho ihr =>
    obtain ⟨hf, hl, hb, ho, hr⟩ := hs
    simp only [nodes, List.cons_subset, List.append_subset] at hN
    obtain ⟨hi, hbN, hoN, hrN⟩ := hN
    have hafter : ∀ j, r.after E (some j) → j ∈ N := fun j hj => by
      by_cases hn : r = nil
      · subst hn
        exact hE j hj
      · rw [after_of_ne hn] at hj
        exact hrN (mem_nodes_of_entry hj.symm)
    have hbody : ∀ j, (if loop then (· = some i) else r.after E) (some j) → j ∈ N := fun j hj => by
      cases loop with
      | true => exact Option.some.inj hj ▸ hi
      | false => exact hafter j hj
    intro k hk j hj
    simp only [nodes, List.mem_cons, List.mem_append] at hk
    rcases hk with rfl | hk | hk | hk
    · rcases hj with hj | hj | hj
      · exact hafter j (hj ▸ hl.next)
      · exact hbN (mem_nodes_of_entry (hf.entry_body.trans hj))
      · exact hoN (mem_nodes_of_entry (hf.entry_others.trans hj))
    · exact ihb hb hbody hbN k hk j hj
    · exact iho ho hafter hoN k hk j hj
    · exact ihr hr hE hrN k hk j hj

namespace Graph

variable {g h k : Graph} {i j r : NodeId} {s : Shape} {p : Piece} {Q : NodeKind → Prop}

theorem Closed.mem_of_link (hs : Closed g r s) (hi : i ∈ s.nodes) (hj : g.Link i j) :
    j ∈ s.nodes :=
  hs.fits.mem_of_link nofun (List.Subset.refl _) i hi j hj

theorem Link.of_node (hn : h.node i = g.node i) (hj : h.Link i j) : g.Link i j := by
  simpa only [Link, next, kind, hn] using hj

theorem not_link_of_size_le (hi : g.size ≤ i) : ¬g.Link i j := by
  simp [Link, kind, next_of_size_le hi, node_of_size_le hi, NodeKind.sub?, NodeKind.down?]

theorem contained_empty : ({} : Graph).Contained := by
  intro i j hj
  cases i with
  | zero => simp [Link, next, kind, node, NodeKind.sub?, NodeKind.down?] at hj
  | succ i => exact absurd hj (not_link_of_size_le (by simp [size]))

/-- A tree that is built behind a graph has links of its own. -/
theorem Built.contained_finish (hg : g.Contained) (hb : Built Q g h p s) :
    (h.finish p).Contained := by
  have hsize : (h.finish p).size = h.size := size_redirectExits
  intro i j hj
  by_cases hi : i ∈ s.nodes
  · exact hb.piece.finish.lt j (hb.piece.finish.mem_of_link hi hj)
  · have hnode : (h.finish p).node i = h.node i := hb.piece.node_redirect none hi
    have hj := hj.of_node hnode
    by_cases hold : i < g.size
    · exact (hg i j (hj.of_node (hb.adds.node i hold))).trans_le (hsize ▸ hb.adds.size_le)
    · refine absurd hj (not_link_of_size_le ?_)
      by_contra hlt
      exact hi ((hb.mem i).mpr ⟨Nat.le_of_not_lt hold, Nat.lt_of_not_le hlt⟩)

theorem Alike.contained (h : Alike g k) (hg : g.Contained) : k.Contained := by
  intro i j hj
  rw [Link, h.next, h.sub?, h.down?] at hj
  exact (hg i j hj).trans_eq h.size.symm

end Graph

/-! ### Productions -/

theorem Production.contained_declare {t : Table} (ht : Grown t) (hg : t.graph.Contained)
    (p : Production) : (p.declare t).value.graph.Contained := by
  obtain ⟨hc, he⟩ := continues_enter t p
  have hu := ht.of_continues hc he
  obtain ⟨hm, -⟩ := p.body.makes_build hu.registered hu.allows
  rw [value_declare]
  exact hm.built.contained_finish (he ▸ hg)

theorem Sections.contained_declare (s : Sections) : s.declare.value.graph.Contained := by
  obtain ⟨t, ht, -, hs⟩ := exists_front s
  have hall (l : List Production) {u : Table} (hu : Grown u ∧ u.graph.Contained) :
      (l.foldlM Production.declare u).value.graph.Contained := by
    rw [Noted.value_foldlM]
    induction l generalizing u with
    | nil => exact hu.2
    | cons p l ih => exact ih ⟨p.grown_declare hu.1, p.contained_declare hu.1 hu.2⟩
  rw [show s.declare.value = _ from hs s.productions]
  exact hall _ ⟨ht, Graph.contained_empty⟩

/-! ### Tables -/

/-- Whatever the table refers to is in it, and the symbols of nonterminals have a place among the
nonterminals. -/
structure Table.Contained (t : Table) : Prop where
  listed : ∀ k, ∀ a ∈ t.listed k, a < t.symbols.size
  literals : ∀ p ∈ t.literals, p.2 < t.symbols.size
  start : ∀ a ∈ t.start, a < t.symbols.size
  eof : t.eof < t.symbols.size
  invalid : ∀ a ∈ t.invalid, a < t.symbols.size
  roots : ∀ a, ∀ r ∈ (t.symbol a).root, r < t.graph.size
  links : t.graph.Contained
  symbols : ∀ i, ∀ a ∈ (t.graph.kind i).symbol?, a < t.symbols.size
  classes : ∀ i c x, t.graph.kind i = .charClass c x → c < t.classes.size
  nonterminals : ∀ i a, t.graph.kind i = .nonterminal a →
    a ∈ t.nonterminals ∧ (t.symbol a).index < t.nonterminalCount

theorem Table.Formed.contained {t : Table} (ht : t.Formed) (hg : t.graph.Contained)
    (hi : ∀ a ∈ t.invalid, a < t.symbols.size) : t.Contained where
  listed k a ha := ht.registered.lt ha
  literals := ht.registered.literal
  start a ha := ht.lt (ht.registered.start a ha)
  eof := ht.registered.lt (k := .terminal) ht.registered.eof
  invalid := hi
  roots a r hr := by
    obtain ⟨s, hs⟩ := ht.laid a r hr
    exact hs.lt r (Shape.mem_nodes_of_entry hs.entry)
  links := hg
  symbols i a ha := by
    have hk := ht.allows i
    cases hl : t.graph.kind i <;> rw [hl] at hk ha <;> cases ha
    · exact hk.1
    · exact hk.elim
    · exact ht.lt hk
    · exact hk.1
  classes i c x hk := by
    have := ht.allows i
    rw [hk] at this
    exact this.elim
  nonterminals i a hk :=
    ⟨ht.allows_nonterminal hk,
      ht.registered.index_lt_size (k := .nonterminal) (by decide) (ht.allows_nonterminal hk)⟩

theorem Table.invalid_numberPragmas (t : Table) : t.numberPragmas.invalid = t.invalid := by
  unfold numberPragmas
  generalize t.pragmas.toList.zipIdx = l
  generalize t.terminalCount = n
  induction l generalizing t with
  | nil => rfl
  | cons p l ih => exact ih _

/-- Whatever is wrong with a definition, its table refers only to what is in the table. -/
theorem Definition.contained_table (d : Definition) : d.table.value.Contained := by
  obtain ⟨hc, -⟩ := completes_endProductions
    (setStart d.sections.declare.value d.name d.ending).value
    (setStart d.sections.declare.value d.name d.ending).value.start
  refine d.formed_table.1.contained (hc.graph.contained ?_) fun a ha => ?_
  · obtain ⟨s, hs⟩ := exists_setStart d.sections.declare.value d.name d.ending
    rw [hs]
    exact d.sections.contained_declare
  · have hi : d.table.value.invalid = some _ := invalid_numberPragmas _
    rw [hi] at ha
    cases ha
    exact (Nat.lt_succ_self _).trans_eq hc.size.symm

end Lookahead
