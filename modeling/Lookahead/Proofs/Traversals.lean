import Mathlib
import Lookahead.Proofs.Quotes
import Lookahead.Proofs.SyncSets
import Lookahead.Proofs.Trails

/-!
# Two ways to walk through a production

The walks of the checks have no memory and stop at the marked end of a group; those that follow
every link mark the nodes where they have been, and stop there. Both come to the nodes of the
production and to no others, the former to each of them once (`Table.Traversed`). These nodes are
the ones that came with the production when it was declared (`Sections.created`): in the table of a
text without errors each production has its own, and node 0 belongs to none
(`Grammar.traversed_of_parse`).
-/

namespace Lookahead

/-- The nodes that are added for the production `p` when those of `front` have been declared. -/
def Sections.created (s : Sections) (front : List Production) (p : Production) : List NodeId :=
  let t := ({ s with productions := front } : Sections).declare.value
  List.range' t.graph.size ((p.declare t).value.graph.size - t.graph.size)

namespace Table

variable {t u : Table} {a b : SymbolId} {i r : NodeId} {p : Option NodeId} {fuel : Nat}
  {m : IndexSet} {s : Shape} {L : List NodeId}

/-- The walks without a memory pass each of the nodes `L` once in the production of `a`, and those
with marks have marked just these in the end. -/
structure Traversed (t : Table) (a : SymbolId) (L : List NodeId) : Prop where
  rooted : (t.symbol a).root.isSome = true
  conflicts : (t.conflictsTrail a (t.graph.size + 1) (t.symbol a).root).Covers
    (t.conflictsFrom a (t.graph.size + 1) (t.symbol a).root) L
  resolvers : (t.resolversTrail a (t.graph.size + 1) false (t.symbol a).root).Covers
    (t.resolversFrom a (t.graph.size + 1) false (t.symbol a).root) L
  wildcards : (restrictTrail (t.graph.size + 1) t (t.symbol a).root).Covers
    (t.restrictProduction a) L
  reached : ∀ fuel > t.graph.size, ∀ m, (t.reachTrail fuel (t.symbol a).root m).Covers
    (pure (t.reachFrom fuel (t.symbol a).root m)) L
  follow : ∀ i, (followFrom a (t.graph.size + 1) (t, .empty t.graph.size)
    (t.symbol a).root).value.2.get i = true ↔ i ∈ L
  syncs : ∀ i, (syncFrom a (t.graph.size + 1) (t, .empty t.graph.size)
    (t.symbol a).root).value.2.get i = true ↔ i ∈ L

/-! ### Walks with marks -/

/-- Two walks have marked the same nodes of the same graph. -/
structure Abreast (q r : Table × IndexSet) : Prop where
  graph : Graph.Alike q.1.graph r.1.graph
  marks : q.2 = r.2

theorem Abreast.node (ih : ∀ p q r, Abreast q r →
      Abreast (followFrom a fuel q p).value (syncFrom b fuel r p).value)
    (h : Graph.Alike t.graph u.graph) (i : NodeId) (m : IndexSet) :
    Abreast (followNode a fuel t i m) (syncNode b fuel u i m) := by
  have hfill {y : IndexSet} (hy : u.graph.kind i = .sync y) :
      Abreast (t, m) (u.fillSync b i, m) :=
    ⟨h.trans (resynced_fillSync u b hy).alike, rfl⟩
  unfold followNode syncNode
  rcases h.kind_cases i with hk | ⟨x, y, hu, ht⟩ | ⟨x, y, hu, ht⟩
  · rw [hk]
    cases ht : t.graph.kind i with
    | nonterminal c =>
      exact ⟨.trans (by rw [(sameFirst_addFollow t a c _).graph]; exact .refl _) h, rfl⟩
    | sync x => exact hfill (hk.trans ht)
    | opt sub | iter sub => exact ih _ _ _ ⟨h, rfl⟩
    | alt sub down => exact ih _ _ _ (ih _ _ _ ⟨h, rfl⟩)
    | _ => exact ⟨h, rfl⟩
  · rw [hu, ht]
    exact ⟨h, rfl⟩
  · rw [hu, ht]
    exact hfill hu

/-- Walks with marks go the same way, whatever they do at the nodes. -/
theorem Abreast.walk {q r : Table × IndexSet} (h : Abreast q r) :
    Abreast (followFrom a fuel q p).value (syncFrom b fuel r p).value := by
  induction fuel generalizing q r p with
  | zero => exact h
  | succ fuel ih =>
    obtain ⟨t, m⟩ := q
    obtain ⟨u, n⟩ := r
    obtain ⟨hg, rfl⟩ : Graph.Alike t.graph u.graph ∧ m = n := ⟨h.graph, h.marks⟩
    cases p with
    | none => exact h
    | some i =>
      rw [value_followFrom_some, value_syncFrom_some, hg.next]
      split
      · exact h
      · exact ih (.node (fun _ _ _ => ih) hg i _)

/-- In the end all nodes of the production are marked. -/
theorem Formed.marks_syncFrom (ht : t.Formed) (a : SymbolId) (i : NodeId) :
    (syncFrom a (t.graph.size + 1) (t, .empty t.graph.size)
      (t.symbol a).root).value.2.get i = true ↔ t.Within a i := by
  rw [← (synced_production ht (.refl t) a).2 i, IndexSet.Added, IndexSet.get_empty]
  simp

/-! ### One production -/

/-- Both kinds of walks come to the nodes of the tree. -/
theorem Formed.traversed (ht : t.Formed) (hr : (t.symbol a).root = some r)
    (hs : t.graph.Closed r s) (hL : s.nodes.Perm L) : t.Traversed a L := by
  have hlen := Graph.length_le_of_nodup hs.nodup hs.lt
  have htour : t.graph.tour (t.graph.size + 1) (some r) = s.nodes :=
    hs.entry ▸ (hs.fits.tour_eq (fun _ => rfl) hlen (Nat.lt_succ_of_le hlen)).1
  have hmarks (i : NodeId) : t.Within a i ↔ i ∈ L :=
    (within_iff_of_closed hr hs).trans hL.mem_iff
  refine ⟨by rw [hr]; rfl, ⟨result_conflictsTrail .., ?_⟩, ⟨result_resolversTrail .., ?_⟩,
    ⟨result_restrictTrail .., ?_⟩, fun fuel hf m => ⟨result_reachTrail .., ?_⟩, fun i => ?_,
    fun i => (ht.marks_syncFrom a i).trans (hmarks i)⟩
  · rwa [met_conflictsTrail, hr, htour]
  · rwa [met_resolversTrail, hr, htour]
  · rwa [met_restrictTrail, hr, htour]
  · rwa [hr, ← hs.entry, met_reachTrail hs.fits (fun _ => rfl) (hlen.trans_lt hf)]
  · have h : Abreast (t, .empty t.graph.size) (t, .empty t.graph.size) := ⟨.refl _, rfl⟩
    rw [(h.walk (b := a)).marks, ht.marks_syncFrom, hmarks]

end Table

/-! ### All productions -/

namespace Definition

variable {d : Definition} {front mid back : List Production} {p q : Production} {n : Nat}
  {t : Table} {a : SymbolId}

/-- In the table `t` of a definition, and with whatever sets its nodes have, the walks through a
production come to the nodes that were created for it. -/
structure Traversed (d : Definition) (t : Table) : Prop where
  walks : ∀ front p back, d.sections.productions = front ++ p :: back →
    ∃ a ∈ t.nonterminals, (t.symbol a).name = p.name.text ∧
      ∀ u, Table.SameOutline t u → u.Traversed a (d.sections.created front p)
  apart : ∀ front p mid q back, d.sections.productions = front ++ p :: (mid ++ q :: back) →
    (d.sections.created front p).Disjoint (d.sections.created (front ++ p :: mid) q)
  zero : ∀ front p back, d.sections.productions = front ++ p :: back →
    0 ∉ d.sections.created front p

section

variable {source : String} (hd : Definition.read source = .ok d) (h : d.table.reports = [])
include hd h

/-- A production lies where its nodes have been created, behind node 0. -/
theorem lies_created (hsplit : d.sections.productions = front ++ p :: back) :
    ∃ n, 0 < n ∧ d.sections.created front p = List.range' n p.body.size ∧
      p.Lies d.sections.declare.value n := by
  have := Noted.lawfulMonad
  have hw := (worded_of_read hd).productions
  obtain ⟨t, hb, hroot, hfront, hsilent⟩ := exists_base (reports_table_eq_nil.mp h).1
  have hall : d.sections.declare.value =
      (d.sections.productions.foldlM Production.declare t.clearGraph).value :=
    hfront d.sections.productions
  rw [hsplit, List.foldlM_append, Noted.reports_bind, List.append_eq_nil_iff, List.foldlM_cons,
    Noted.reports_bind, List.append_eq_nil_iff] at hsilent
  obtain ⟨hs, hp, hback⟩ := hsilent
  rw [hsplit] at hw hall
  have hold : ∀ q ∈ front, q.Worded := fun q hq => hw q (List.mem_append_left _ hq)
  have hnew : p.Worded := hw p (by simp)
  have hdeclared := Table.declared_productions hb hroot hold hs
  obtain ⟨a, hdraws⟩ := Production.draws hdeclared.grown hnew hp
  refine ⟨(front.foldlM Production.declare t.clearGraph).value.graph.size, ?_, ?_, ?_⟩
  · rw [hdeclared.size]
    exact Nat.lt_add_right _ Nat.one_pos
  · rw [Sections.created, hfront, hdraws.size, Nat.add_sub_cancel_left]
  · rw [hall, List.foldlM_append, Noted.value_bind, List.foldlM_cons]
    rw [List.append_cons] at hw
    exact (hdeclared.declare hold hnew hp).lies_foldlM hw hback (by simp) hdraws.lies

/-- Walks through a production come to the nodes that were created for it. -/
theorem exists_walks (hsplit : d.sections.productions = front ++ p :: back) :
    ∃ a ∈ d.table.value.nonterminals, (d.table.value.symbol a).name = p.name.text ∧
      ∀ u, Table.SameOutline d.table.value u → u.Traversed a (d.sections.created front p) := by
  obtain ⟨-, s, hs⟩ := reports_table_eq_nil.mp h
  have hend := (completes_table hs).1
  obtain ⟨n, -, hcreated, hlies⟩ := lies_created hd h hsplit
  obtain ⟨a, r, ha, hr, hclosed⟩ := hlies.closed
  have hlt := (Table.grown_sections d.sections).registered.lt_of_find ha
  have hformed := (formed_table d).1
  obtain ⟨b, hb, hkind, -⟩ := ((declared_sections hd h).valid p (by rw [hsplit]; simp)).head
  obtain rfl : a = b := Option.some.inj (ha.symm.trans hb)
  have hmem : a ∈ d.table.value.nonterminals :=
    (Table.mem_nonterminals hformed.registered).mpr
      ⟨hend.size ▸ Nat.lt_succ_of_lt hlt, (hend.kind a hlt).trans hkind⟩
  refine ⟨a, hmem, (hend.name a hlt).trans (Table.name_of_find ha), fun u hu => ?_⟩
  refine (hu.formed hformed).traversed ((hu.root a).trans ((hend.root a).trans hr))
    ((hclosed.alike hend.graph).alike hu.graph) ?_
  refine (List.perm_ext_iff_of_nodup hclosed.nodup ?_).mpr fun i => ?_
  · rw [hcreated]
    exact List.nodup_range'
  · rw [hcreated, Expr.mem_nodes_shape, List.mem_range'_1]

theorem traversed_table : d.Traversed d.table.value where
  walks _ _ _ := exists_walks hd h
  apart front p mid q back hsplit i hp hq := by
    have hformed := (formed_table d).1
    have hrefl := (Table.Redrawn.refl d.table.value).outline
    have hsplit' : d.sections.productions = (front ++ p :: mid) ++ q :: back := by simp [hsplit]
    obtain ⟨a, -, ha, hwp⟩ := exists_walks hd h hsplit
    obtain ⟨b, -, hb, hwq⟩ := exists_walks hd h hsplit'
    -- a node of both is one of the productions of one nonterminal
    have hia := (hformed.marks_syncFrom a i).mp (((hwp _ hrefl).syncs i).mpr hp)
    have hib := (hformed.marks_syncFrom b i).mp (((hwq _ hrefl).syncs i).mpr hq)
    obtain rfl := apart_table (worded_of_read hd).productions h a b i hia hib
    have hnames := (declared_sections hd h).names
    rw [hsplit, List.map_append, List.map_cons, List.map_append, List.map_cons, ← ha, hb] at hnames
    simp [List.nodup_append] at hnames
  zero front p back hsplit := by
    obtain ⟨n, hn, hcreated, -⟩ := lies_created hd h hsplit
    rw [hcreated, List.mem_range'_1]
    omega

end

end Definition

namespace Grammar

variable {source : String} {cfg : Config} {log : Log} {g : Grammar}

/-- If a text is read without an error, the walks without a memory and those with marks come to the
same nodes of each production, namely those that were created for it, the former to each of them
once. No node belongs to two productions, and node 0 to none. -/
theorem traversed_of_parse (hg : (Grammar.parse source cfg log).2 = .ok g)
    (hlog : (Grammar.parse source cfg log).1.errorCount = log.errorCount) :
    ∃ d, Definition.read source = .ok d ∧ d.Traversed g.table := by
  obtain ⟨d, hd, rfl⟩ := exists_read hg
  exact ⟨d, hd, Definition.traversed_table hd (reports_of_errorCount_eq hd hlog)⟩

/-- Alternatives, an option and iterations in two productions. -/
def grouped : String :=
  "COMPILER A\nPRODUCTIONS\nA = \x7b \"x\" ( \"y\" | B \x7b \"z\" \x7d | ) \x7d.\n" ++
    "B = \"b\" [ ANY ] | \"c\".\nEND A."

set_option maxRecDepth 100000 in
/-- The first production has the nodes from 1 on, the second one those behind them. -/
theorem traversed_grouped : ∃ g, (Grammar.parse grouped default {}).2 = .ok g ∧
    (Grammar.parse grouped default {}).1.errorCount = Log.errorCount {} ∧
    ∃ d, Definition.read grouped = .ok d ∧ d.Traversed g.table ∧
      ∃ p q, d.sections.productions = [p, q] ∧ d.sections.created [] p = List.range' 1 10 ∧
        d.sections.created [p] q = List.range' 11 6 := by
  obtain ⟨g, hg, -⟩ := exists_ok_of_any (x := (Grammar.parse grouped default {}).2)
    (P := fun _ => true) (by decide +kernel)
  have hlog : (Grammar.parse grouped default {}).1.errorCount = Log.errorCount {} := by
    decide +kernel
  obtain ⟨d, hd, h⟩ := traversed_of_parse hg hlog
  obtain ⟨d', hd', h'⟩ := exists_ok_of_any (x := Definition.read grouped) (P := fun d =>
    decide (d.sections.productions.length = 2 ∧ ∀ p ∈ d.sections.productions[0]?,
      d.sections.created [] p = List.range' 1 10 ∧ ∀ q ∈ d.sections.productions[1]?,
        d.sections.created [p] q = List.range' 11 6)) (by decide +kernel)
  obtain rfl : d = d' := Except.ok.inj (hd.symm.trans hd')
  obtain ⟨hlen, h'⟩ := of_decide_eq_true h'
  obtain ⟨p, q, hpq⟩ := List.length_eq_two.mp hlen
  rw [hpq] at h'
  obtain ⟨hp, hq⟩ := h' p rfl
  exact ⟨g, hg, hlog, d, hd, h, p, q, hpq, hp, hq q rfl⟩

end Grammar

end Lookahead
