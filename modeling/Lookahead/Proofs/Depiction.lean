import Lookahead.Proofs.Readback
import Lookahead.Proofs.Written

/-!
# Productions and their graphs

When a production has been declared, the graph of its symbol shows its right-hand side and nothing
else (`Table.Depicts`): read from the root it is that expression, every part of the expression is
one node, and every exit leads to where a parser goes on. This holds for all productions of a
grammar text that can be read (`Grammar.depicts_of_parse`).
-/

namespace Lookahead

namespace Table

/-- The ends of the groups in the production of `a` lead to where control continues. -/
structure ExitsLead (t : Table) (a : SymbolId) : Prop where
  /-- The content of an iteration leads back to it. -/
  iteration : ∀ i sub, t.Within a i → t.graph.kind i = .iter sub →
    ∃ j, t.graph.groupEnd sub = some j ∧ t.graph.next j = some i
  /-- The content of an option leads to what follows the option. -/
  option : ∀ i sub, t.Within a i → t.graph.kind i = .opt sub →
    ∃ j, t.graph.groupEnd sub = some j ∧ t.graph.next j = t.graph.next i
  /-- From an alternative on, every content and every further alternative leads to what follows the
  first one. -/
  alternative : ∀ i sub down, t.Within a i → t.graph.kind i = .alt sub down →
    ∀ p ∈ t.graph.alternatives i,
      (∃ j, t.graph.groupEnd p.1 = some j ∧ t.graph.next j = t.graph.next i) ∧
        ∀ k ∈ p.2, t.graph.next k = t.graph.next i
  /-- Nothing follows the production. -/
  production : ∀ r, (t.symbol a).root = some r →
    ∃ j, t.graph.groupEnd r = some j ∧ t.graph.next j = none

/-- The graph of the production of `a` represents the expression. -/
structure Depicts (t : Table) (a : SymbolId) (e : Expr Atom) : Prop where
  /-- Read from the root, the graph is the expression with nodes in the place of its parts. These
  are all different, and there are no other nodes but those of groups. -/
  reads : ∃ r f, (t.symbol a).root = some r ∧ e.Drawn t f ∧ t.graph.read r = f.items ∧
    f.atoms.Nodup ∧ ∀ i, i ∈ f.atoms ↔ t.Within a i ∧ (t.graph.kind i).sub? = none
  exits : t.ExitsLead a

end Table

/-! ### Exits -/

namespace Shape

variable {g : Graph} {up : Bool} {s : Shape} {i p : NodeId} {q : Option NodeId}

theorem Fits.exists_groupEnd (hs : s.Fits g (· = q) up) (hq : up = false → q = none)
    (hp : s.entry = some p) (hn : s.nodes.length ≤ g.size) :
    ∃ j, g.groupEnd p = some j ∧ g.next j = q := by
  have hne : s ≠ nil := fun hs => by simp [hs, entry] at hp
  have hg : g.groupEnd p = s.last := by
    rw [Graph.groupEnd, ← hp, hs.group_eq hne hq (s.row_sublist.length_le.trans hn), getLast?_row]
  have hr : s.row ≠ [] := by cases s <;> simp [row] at hne ⊢
  obtain ⟨j, hj⟩ : ∃ j, s.last = some j := by
    rw [← getLast?_row]
    exact ⟨_, List.getLast?_eq_some_getLast hr⟩
  exact ⟨j, hg.trans hj, hs.next_of_mem_exits j (mem_exits_of_last hj)⟩

theorem Fits.next_of_entry (hs : s.Fits g (· = q) up) (ho : s.IsOther g) (hp : s.entry = some p) :
    g.next p = q := by
  cases s with
  | nil => cases hp
  | node i l b o r =>
    cases hp
    obtain ⟨rfl, -⟩ := ho
    exact hs.2.1.of_nil.1

/-- All alternatives lead to what follows the first one. -/
theorem Fits.alternatives_lead (hs : s.Fits g (· = q) up) (hi : s.entry = some i)
    {sub : NodeId} {down : Option NodeId} (hk : g.kind i = .alt sub down)
    (hn : s.nodes.length ≤ g.size) : ∀ p ∈ s.alternatives,
      (∃ j, g.groupEnd p.1 = some j ∧ g.next j = g.next i) ∧ ∀ k ∈ p.2, g.next k = g.next i := by
  induction s generalizing q up i sub down with
  | nil => nofun
  | node j l b o r _ iho _ =>
    cases hi
    have hnext := hs.next_eq
    obtain ⟨hr, -, hb, ho, -⟩ := hs
    rw [hk] at hr
    obtain ⟨rfl, hsub, -, hoo⟩ := hr
    simp only [Bool.false_eq_true, if_false, after_eq, ← hnext] at hb ho
    simp only [nodes, List.length_cons, List.length_append] at hn
    intro p hp
    rw [alternatives, hsub] at hp
    rcases List.mem_append.mp hp with hp | hp
    · obtain rfl : p = (sub, o.entry) := by simpa using hp
      exact ⟨hb.exists_groupEnd (by simp) hsub (by omega), fun k hk => ho.next_of_entry hoo hk⟩
    · -- the further alternatives lead where the next one does, which ends its group
      cases hoe : o.entry with
      | none =>
        rw [entry_eq_none.mp hoe] at hp
        cases hp
      | some k =>
        obtain ⟨e, d, hk⟩ := hoo.kind_of_entry hoe
        rw [← ho.next_of_entry hoo hoe]
        exact iho ho hoe hk (by omega) p hp

end Shape

namespace Table

variable {t : Table} {a : SymbolId} {r : NodeId} {s : Shape}

/-- In a closed tree, exits lead to where control continues. -/
theorem exitsLead_of_closed (hr : (t.symbol a).root = some r) (hs : t.graph.Closed r s) :
    t.ExitsLead a := by
  have hlen : s.nodes.length ≤ t.graph.size := Graph.length_le_of_nodup hs.nodup hs.lt
  have hcontent {i sub : NodeId} (hi : t.Within a i) (hk : (t.graph.kind i).sub? = some sub) :
      ∃ j, t.graph.groupEnd sub = some j ∧ t.graph.next j = t.contentExit i := by
    obtain ⟨l, b, o, x, q, vp, hp⟩ := hs.exists_placed (hi.mem hr hs)
    have hle := hp.sublist.length_le
    simp only [Shape.nodes, List.length_cons, List.length_append] at hle
    rw [contentExit_eq hp]
    exact hp.body.exists_groupEnd (by simp) (hp.refers.entry_body.trans hk) (by omega)
  refine ⟨fun i sub hi hk => ?_, fun i sub hi hk => ?_, fun i sub down hi hk => ?_,
    fun r' hr' => ?_⟩
  · have h := hcontent hi (congrArg NodeKind.sub? hk)
    rwa [contentExit, hk] at h
  · have h := hcontent hi (congrArg NodeKind.sub? hk)
    rwa [contentExit, hk] at h
  · obtain ⟨l, b, o, x, q, vp, hf, hsub, -⟩ := hs.fits.exists_node (hi.mem hr hs)
    have hn := hsub.length_le.trans hlen
    rw [Graph.alternatives, Shape.alternativesFrom_eq hf rfl hk hn]
    exact hf.alternatives_lead rfl hk hn
  · rw [hr] at hr'
    cases hr'
    exact hs.fits.exists_groupEnd (by simp) hs.entry hlen

end Table

/-! ### Declaring a production -/

/-- The names in an expression are words if the tokens are. -/
theorem Writes.worded {l : Level} {e : Expr Atom} {ts : List Token} (h : Writes l e ts)
    (ht : ∀ t ∈ ts, t.isSymbol → t.Worded) : e.All Atom.Worded := by
  induction h with
  | symbol hw hn ha => exact ht _ (by simp) hn
  | any | sync | action | empty => trivial
  | group ho hc he ih => exact ih fun t h => ht t (by simp [h])
  | factor he ih | term he ih => exact ih ht
  | resolved hr he ih => exact ⟨trivial, ih fun t h => ht t (by simp [h])⟩
  | seq he hne hf ihe ihf | alt he hb hf ihe ihf =>
    exact ⟨ihe fun t h => ht t (by simp [h]), ihf fun t h => ht t (by simp [h])⟩

namespace Table

variable {t : Table} {a : SymbolId}

/-- What building the body of a production and closing it comes to. -/
theorem Grown.depicts_declareBody (ht : Grown t) (e : Expr Atom) (hw : e.All Atom.Worded)
    {name : Token} (hn : name.Worded) (ha : t.Means name a) {u : Table}
    (hu : u = ((e.build Atom.build t).value.1.modifySymbol a fun b =>
      { b with root := some (e.build Atom.build t).value.2.entry }).onGraph
        (·.finish (e.build Atom.build t).value.2)) : u.Means name a ∧ u.Depicts a e := by
  obtain ⟨hs, -⟩ := e.makes_build ht.registered ht.allows
  obtain ⟨hk, hst⟩ := e.stands_build ht.registered ht.allows hw
  have hsize := Expr.size_of_makes hs
  generalize (e.build Atom.build t).value = w at hs hk hst hsize hu
  have hw' := hs.continues.registered ht.registered
  have hroot := Keeps.modifySymbol w.1 a (f := fun b => { b with root := some w.2.entry })
    (fun _ => rfl) fun _ => rfl
  have hwu : w.1.Keeps u := hu ▸ hroot.trans (.onGraph _ _)
  have hg : u.graph = w.1.graph.finish w.2 := by
    rw [hu]
    rfl
  have hr : (u.symbol a).root = some w.2.entry := by
    have hlt := (ha.keeps ht.registered hk hn).lt hw'
    rw [hu]
    exact congrArg Symbol.root ((symbol_modifySymbol ..).trans (if_pos ⟨rfl, hlt⟩))
  -- closing the piece redirects its exits only, so that its nodes stand for what they stood for
  have hc : u.graph.Closed w.2.entry (e.shape t.graph.size) := hg ▸ hs.built.piece.finish
  have hst' : e.Stands u t.graph.size :=
    hst.keeps hw' hwu hw fun i _ => by rw [hg, Graph.look_finish]
  have hlen : (e.shape t.graph.size).nodes.length ≤ u.graph.size :=
    Graph.length_le_of_nodup hc.nodup hc.lt
  refine ⟨ha.keeps ht.registered (hk.trans hwu) hn, ⟨w.2.entry, e.leaves t.graph.size, hr,
    hst'.drawn, ?_, ?_, fun i => ?_⟩, exitsLead_of_closed hr hc⟩
  · rw [Graph.read, hc.fits.readFrom_eq (by simp) hc.entry hlen hlen, hst'.items_shape.1]
  · exact (e.atoms_leaves_sublist _).nodup List.nodup_range'
  · rw [hst'.mem_atoms_iff, within_iff_of_closed hr hc, hs.built.mem, hsize]

end Table

namespace Production

open Table

variable {t : Table} {p : Production}

/-- Once a production has been declared, its graph shows its right-hand side. -/
theorem depicts_declare (ht : Grown t) (hn : p.name.kind = .ident) (hw : p.name.Worded)
    (hb : p.body.All Atom.Worded) : ∃ a, (p.declare t).value.find? p.name.text = some a ∧
      (p.declare t).value.Depicts a p.body := by
  obtain ⟨hc, hg⟩ := continues_declareName t p.name
  obtain ⟨-, hm⟩ := keeps_declareName ht.registered hn hw
  have hu := ht.of_continues hc hg
  unfold declare
  rcases hr : (declareName t p.name).value with ⟨⟨u, a⟩, known⟩
  rw [hr] at hm hu
  simp only [Noted.value_bind, hr, Noted.value_ite, Noted.value_pure, ite_self]
  have hattr := Keeps.modifySymbol u a
    (f := fun s => { s with attributes := p.attributes.map Token.attributesSpan }) (fun _ => rfl)
    fun _ => rfl
  have hset := hu.of_continues (continues_setAttributes u a p.attributes) rfl
  refine ⟨a, ?_⟩
  rw [← means_iff_of_ident hn hw]
  split
  · rename_i b _
    have hact := Keeps.modifySymbol (setAttributes u a p.attributes) a
      (f := fun s => { s with action := some b.actionSpan }) (fun _ => rfl) fun _ => rfl
    have hg := hset.of_continues (.modifySymbol (setAttributes u a p.attributes) a
      (f := fun s => { s with action := some b.actionSpan }) fun _ => ⟨rfl, rfl, rfl, rfl⟩) rfl
    exact hg.depicts_declareBody p.body hb hw (hm.keeps hu.registered (hattr.trans hact) hw) rfl
  · exact hset.depicts_declareBody p.body hb hw (hm.keeps hu.registered hattr hw) rfl

end Production

/-! ### Whole texts -/

theorem Production.Written.worded {p : Production} {ts : List Token} (h : p.Written ts)
    (ht : ∀ t ∈ ts, t.isSymbol → t.Worded) :
    p.name.kind = .ident ∧ p.name.Worded ∧ p.body.All Atom.Worded := by
  obtain ⟨hn, -, -, -, hb, -⟩ := h
  exact ⟨hn, ht _ (by simp) (.inl hn), hb.worded fun t h => ht t (by simp [h])⟩

theorem Definition.Written.worded {d : Definition} {ts : List Token} (h : d.Written ts)
    (ht : ∀ t ∈ ts, t.isSymbol → t.Worded) : ∀ p ∈ d.sections.productions,
      p.name.kind = .ident ∧ p.name.Worded ∧ p.body.All Atom.Worded := by
  obtain ⟨front, start, parts, stop, rest, rfl, -, -, hparts⟩ := h
  replace ht : ∀ t ∈ parts.flatten, t.isSymbol → t.Worded := fun t h =>
    ht t (List.mem_append_right _ (List.mem_cons_of_mem _ (List.mem_append_left _ h)))
  generalize d.sections.productions = ps at hparts ⊢
  induction hparts with
  | nil => simp
  | cons hp _ ih =>
    simp only [List.flatten_cons, List.mem_append] at ht
    exact List.forall_mem_cons.mpr ⟨hp.worded fun t h => ht t (.inl h), ih fun t h => ht t (.inr h)⟩

namespace Sections

/-- The productions are declared one after the other. -/
theorem value_declare_append (s : Sections) (l m : List Production) :
    ({ s with productions := l ++ m } : Sections).declare.value =
      (m.foldlM Production.declare
        ({ s with productions := l } : Sections).declare.value).value := by
  simp only [declare, Noted.value_bind, Noted.value_foldlM, List.foldl_append]

end Sections

namespace Grammar

/-- When a production of a grammar text has been declared, its graph shows its right-hand side as
it is written. -/
theorem depicts_of_parse {source : String} {cfg : Config} {log : Log} {g : Grammar}
    (hg : (Grammar.parse source cfg log).2 = .ok g) :
    ∃ d, Definition.read source = .ok d ∧ g.table = d.table.value ∧
      d.Written (Token.read source).tokens ∧
      ∀ before p after, d.sections.productions = before ++ p :: after →
        let t := ({ d.sections with productions := before ++ [p] } : Sections).declare.value
        d.sections.declare.value = (after.foldlM Production.declare t).value ∧
          ∃ a, t.find? p.name.text = some a ∧ t.Depicts a p.body := by
  unfold Grammar.parse at hg
  split at hg
  · rename_i d hd
    cases hg
    have hw := Definition.written_read hd
    refine ⟨d, hd, rfl, hw, fun before p after hp => ⟨?_, ?_⟩⟩
    · rw [← Sections.value_declare_append, List.append_assoc]
      exact congrArg (fun l => ({ d.sections with productions := l } : Sections).declare.value) hp
    · have hworded : ∀ t ∈ (Token.read source).tokens, t.isSymbol → t.Worded := fun _ ht hk =>
        Token.worded_of_read ht hk
      obtain ⟨hn, hname, hbody⟩ := hw.worded hworded p (by simp [hp])
      rw [Sections.value_declare_append]
      exact Production.depicts_declare (Table.grown_sections _) hn hname hbody
  · cases hg

/-- All kinds of groups and of parts in one production, with parentheses that make a difference and
others that make none. -/
def brackets : String :=
  "COMPILER Nested\nPRODUCTIONS\nNested = (\"a\" |) \x7b [ (\"b\") Nested ] (. step .) \x7d " ++
    "(ANY | IF (x) (SYNC \"c\")).\nEND Nested."

set_option maxRecDepth 100000 in
theorem read_brackets : ∃ d, Definition.read brackets = .ok d ∧
    d.sections.productions.length == 1 := exists_ok_of_any (by decide +kernel)

theorem depicts_brackets : ∃ g d p, (Grammar.parse brackets default {}).2 = .ok g ∧
    Definition.read brackets = .ok d ∧ d.sections.productions = [p] ∧
      ∃ a, d.sections.declare.value.find? p.name.text = some a ∧
        d.sections.declare.value.Depicts a p.body := by
  obtain ⟨d, hd, hp⟩ := read_brackets
  have hg : (Grammar.parse brackets default {}).2 = .ok ⟨d.configure default, d.table.value⟩ := by
    simp [Grammar.parse, hd]
  obtain ⟨d', hd', -, -, h⟩ := depicts_of_parse hg
  obtain rfl : d = d' := Except.ok.inj (hd.symm.trans hd')
  obtain ⟨p, hp⟩ := List.length_eq_one_iff.mp (by simpa using hp)
  obtain ⟨ht, a, ha⟩ := h [] p [] hp
  refine ⟨_, d, p, hg, hd, hp, a, ?_⟩
  rw [ht]
  exact ha

set_option maxRecDepth 100000 in
example : (Definition.read brackets).toOption.map (fun d => d.sections.declare.value.graph.read 3) =
    some [.choice [[.leaf 1], [.leaf 2]], .iteration [.option [.leaf 5, .leaf 6], .leaf 8],
      .choice [[.leaf 10], [.leaf 11, .leaf 12, .leaf 13]]] := by
  cbv

end Grammar

end Lookahead
