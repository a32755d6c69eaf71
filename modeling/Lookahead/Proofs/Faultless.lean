import Lookahead.Proofs.HaltingDeclarations
import Lookahead.Proofs.Unique

/-!
# Texts without faults

A pragma in a production is reported, and its node stands for it as for a terminal all the same. So
in the table of a definition without faults only terminals stand where terminals do
(`Definition.proper_table`): as long as nothing is reported, no production adds a node for a pragma
(`Table.Spares`), and no symbol becomes a pragma any more.
-/

namespace Lookahead

open Lookahead.Graph Table

variable {t u : Table} {l : Array SymbolId}

/-- A node of that kind does not stand for any of the symbols as for a terminal. -/
def NodeKind.Avoids (l : Array SymbolId) : NodeKind → Prop
  | terminal a | weak a => a ∉ l
  | _ => True

theorem NodeKind.allowsGroups_avoids : AllowsGroups (NodeKind.Avoids l) := by
  refine ⟨trivial, fun k hk => ?_⟩
  cases k <;> trivial

theorem NodeKind.avoids_inContext {k : NodeKind} : k.inContext.Avoids l ↔ k.Avoids l := by
  cases k <;> exact Iff.rfl

/-- The symbols are all the pragmas, and no node stands for one of them. -/
structure Table.Spares (l : Array SymbolId) (t : Table) : Prop where
  registered : Registered t
  pragmas : t.pragmas = l
  avoids : ∀ i, (t.graph.kind i).Avoids l

theorem Table.pragmas_declare {k : SymbolKind} (hk : k ≠ .pragma) (name : String) (line : Nat) :
    (t.declare k name line).value.1.pragmas = t.pragmas := by
  unfold Table.declare
  split <;> cases k <;> first | rfl | exact absurd rfl hk

namespace Atom

variable {name : Token}

theorem pragmas_used (t : Table) (name : Token) : (used t name).1.pragmas = t.pragmas := by
  unfold used
  split
  · rfl
  · unfold declareUse
    split
    · exact pragmas_declare (by simp) ..
    · exact pragmas_declare (by simp) ..

theorem pragmas_build (a : Atom) : (a.build t).value.1.pragmas = t.pragmas := by
  cases a with
  | symbol weak name attributes =>
    rw [build, value_buildSymbol]
    dsimp only
    split <;> exact pragmas_used t name
  | _ => rfl

/-- An atom about which nothing is reported is a node for no pragma. -/
theorem built_spares (ht : Registered t) (a : Atom) (h : (a.build t).reports = []) :
    ∃ s, Built (NodeKind.Avoids t.pragmas) t.graph (a.build t).value.1.graph
      (a.build t).value.2 s := by
  cases a with
  | symbol weak name attributes =>
    obtain ⟨hu, hs, hg⟩ := continues_used ht name
    have hkind : ((used t name).1.symbol (used t name).2).kind ≠ .pragma := by
      have hnode : (nodeKind ((used t name).1.symbol (used t name).2).kind weak name
          (used t name).2).reports = [] := by
        unfold used
        cases hr : resolve? t name <;>
          simp only [build, buildSymbol, hr, Noted.reports_bind, List.append_eq_nil_iff] at h <;>
          exact h.2.1
      exact (reports_nodeKind_eq_nil.mp hnode).1
    have havoids : ((nodeKind ((used t name).1.symbol (used t name).2).kind weak name
        (used t name).2).value).Avoids t.pragmas := by
      have hmem : (used t name).2 ∉ t.pragmas := fun hm => by
        rw [← pragmas_used t name] at hm
        exact hkind (((hu.registered ht).mem .pragma _).mp hm).2
      cases hk : ((used t name).1.symbol (used t name).2).kind with
      | terminal => cases weak <;> exact hmem
      | pragma => exact absurd hk hkind
      | nonterminal => cases weak <;> trivial
    have hsingle (k : NodeKind) (hk : k.sub? = none) (ha : k.Avoids t.pragmas) :
        Built (NodeKind.Avoids t.pragmas) (used t name).1.graph
          (spanned (used t name).1 k name.line (attributes.map Token.attributesSpan)).1.graph
          (spanned (used t name).1 k name.line (attributes.map Token.attributesSpan)).2
          (.node (used t name).1.graph.size false .nil .nil .nil) :=
      (Built.single hk ha name.line).setSpan le_rfl _
    have hb := hsingle _ (allows_nodeKind (hu.registered ht) weak name hs).2 havoids
    rw [hg] at hb
    refine ⟨.node t.graph.size false .nil .nil .nil, ?_⟩
    rw [build, value_buildSymbol]
    dsimp only
    split <;> exact hb
  | any a => exact ⟨_, Built.single (l := t.newWildcard) rfl trivial a.line⟩
  | sync a => exact ⟨_, Built.single (l := .sync default) rfl trivial a.line⟩
  | action a => exact ⟨_, (Built.single (l := .action) rfl trivial a.line).setSpan le_rfl _⟩
  | resolver a => exact ⟨_, (Built.single (l := .resolver) rfl trivial a.line).setSpan le_rfl _⟩

theorem makes_spares (l : Array SymbolId) : Expr.Makes (fun ev => ev.report? = none)
    (NodeKind.Avoids l) (fun t => Registered t ∧ t.pragmas = l) Atom.build where
  groups := NodeKind.allowsGroups_avoids
  context _ := NodeKind.avoids_inContext
  onGraph t g ht := ⟨(Continues.onGraph t g).registered ht.1, ht.2⟩
  keeps t a ht := ⟨(makes_build ht.1 a).continues.registered ht.1, (pragmas_build a).trans ht.2⟩
  built t a ht h := by
    obtain ⟨hr, rfl⟩ := ht
    exact built_spares hr a (Noted.reports_eq_nil_iff.mpr h)

end Atom

namespace Production

theorem pragmas_enter (t : Table) (p : Production) : (enter t p).1.pragmas = t.pragmas := by
  have hname : (declareName t p.name).value.1.1.pragmas = t.pragmas := by
    unfold declareName
    split
    · exact pragmas_declare (by simp) ..
    · simp only [Noted.value_bind, Noted.value_ite, Noted.value_pure, ite_self]
      rfl
  unfold enter
  dsimp only
  split <;> exact hname

theorem spares_enter (ht : t.Spares l) (p : Production) : (enter t p).1.Spares l := by
  obtain ⟨hc, hg⟩ := continues_enter t p
  exact ⟨hc.registered ht.registered, (pragmas_enter t p).trans ht.pragmas, hg ▸ ht.avoids⟩

theorem spares_declare (ht : t.Spares l) {p : Production} (h : (p.declare t).reports = []) :
    (p.declare t).value.Spares l := by
  rw [reports_declare, List.append_eq_nil_iff, List.append_eq_nil_iff] at h
  have hs := spares_enter ht p
  obtain ⟨⟨hr, hp⟩, s, hb, -⟩ := p.body.built_build (Atom.makes_spares l)
    ⟨hs.registered, hs.pragmas⟩ (Noted.reports_eq_nil_iff.mp h.2.2)
  rw [value_declare]
  refine ⟨?_, hp, fun i => ?_⟩
  · exact (hr.modifySymbol (enter t p).2 (f := fun s =>
      { s with root := some (p.body.build Atom.build (enter t p).1).value.2.entry })
      (fun _ => rfl) fun _ => rfl).of_same ⟨rfl, rfl, rfl, rfl, rfl⟩
  · show ((Graph.finish _ _).kind i).Avoids l
    rw [Graph.finish, Graph.redirectExits, Graph.kind_redirect]
    by_cases hold : i < (enter t p).1.graph.size
    · rw [Graph.kind, modifySymbol, hb.adds.node i hold]
      exact hs.avoids i
    · by_cases hnew : i < (p.body.build Atom.build (enter t p).1).value.1.graph.size
      · exact hb.adds.kind i (Nat.le_of_not_lt hold) hnew
      · rw [Graph.kind, modifySymbol, node_of_size_le (Nat.le_of_not_lt hnew)]
        trivial

end Production

theorem Sections.spares_declare {s : Sections} (h : s.declare.reports = []) :
    ∃ l, s.declare.value.Spares l := by
  obtain ⟨t, ht, -, hs⟩ := exists_front s
  rw [Definition.reports_sections, hs [], List.append_eq_nil_iff] at h
  refine ⟨t.pragmas, ?_⟩
  rw [show s.declare.value = _ from hs s.productions]
  have hclear : t.clearGraph.Spares t.pragmas := ⟨ht.registered, rfl, fun i => by
    cases i with
    | zero => trivial
    | succ i =>
      rw [Graph.kind, node_of_size_le (by simp [clearGraph, Graph.size])]
      trivial⟩
  exact kept_foldlM (P := Spares t.pragmas) (fun u p _ hu => Production.spares_declare hu) hclear
    h.2

/-- What stands as a terminal is one. -/
theorem Table.Spares.terminal (ht : t.Spares l) (hallows : ∀ i, t.Allows (t.graph.kind i))
    {i : NodeId} {a : SymbolId} (hk : t.graph.kind i = .terminal a ∨ t.graph.kind i = .weak a) :
    a < t.symbols.size ∧ (t.symbol a).kind = .terminal := by
  have ha := ht.avoids i
  have hi := hallows i
  have hmem (ha : a ∉ l) (hi : a < t.symbols.size ∧ (t.symbol a).kind ≠ .nonterminal) :
      a < t.symbols.size ∧ (t.symbol a).kind = .terminal := by
    refine ⟨hi.1, ?_⟩
    cases hkind : (t.symbol a).kind with
    | terminal => rfl
    | pragma => exact absurd (ht.pragmas ▸ (ht.registered.mem .pragma a).mpr ⟨hi.1, hkind⟩) ha
    | nonterminal => exact absurd hkind hi.2
  rcases hk with hk | hk <;> rw [hk] at ha hi <;> exact hmem ha hi

/-- If nothing is wrong with a definition, only terminals stand where terminals do. -/
theorem Definition.proper_table {d : Definition} (h : d.table.reports = []) :
    d.table.value.Proper .checked := by
  have hformed := d.formed_table.1
  refine ⟨hformed, fun _ i a hk => ?_⟩
  obtain ⟨hsilent, s, hs⟩ := Definition.reports_table_eq_nil.mp h
  obtain ⟨l, hl⟩ := Sections.spares_declare hsilent
  obtain ⟨hc, -⟩ := Definition.completes_table hs
  have hbefore : d.sections.declare.value.graph.kind i = .terminal a ∨
      d.sections.declare.value.graph.kind i = .weak a := by
    have ho := hc.graph.kind i
    rcases hk with hk | hk <;> rw [hk] at ho
    · exact .inl (NodeKind.outline_eq_terminal.mp ho.symm)
    · exact .inr (NodeKind.outline_eq_weak.mp ho.symm)
  obtain ⟨hlt, hkind⟩ := hl.terminal (grown_sections d.sections).allows hbefore
  refine (hformed.registered.mem .terminal a).mpr ⟨?_, ?_⟩
  · rw [hc.size]
    exact Nat.lt_succ_of_lt hlt
  · rw [hc.kind a hlt, hkind]

end Lookahead
