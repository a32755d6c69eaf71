import Lookahead.Grammar
import Lookahead.Proofs.Pieces
import Lookahead.Proofs.Symbols

/-!
# The productions of a table

`Table.Formed` is what the analysis relies on: the symbols are registered, nodes refer to symbols of
their kind, and every production is the tree of the nodes that its root leads to
(`Graph.Closed`). The table of a definition is formed, whatever faults were found in it
(`Definition.formed_table`), and so is that of every grammar that can be read
(`Grammar.formed_parse`).
-/

namespace Lookahead

/-- The production that starts at `r` is the tree `s`, and nothing follows it. -/
structure Graph.Closed (g : Graph) (r : NodeId) (s : Shape) : Prop where
  fits : s.Fits g (· = none) false
  nodup : s.nodes.Nodup
  lt : ∀ i ∈ s.nodes, i < g.size
  entry : s.entry = some r

namespace Graph

variable {g h : Graph}

/-- The graphs differ in the sets of their nodes, and in lines and texts. -/
structure Alike (g h : Graph) : Prop where
  size : h.size = g.size
  kind : ∀ i, (h.kind i).outline = (g.kind i).outline
  next : ∀ i, h.next i = g.next i
  up : ∀ i, (h.node i).up = (g.node i).up

theorem Alike.refl (g : Graph) : Alike g g := ⟨rfl, fun _ => rfl, fun _ => rfl, fun _ => rfl⟩

theorem Alike.trans {k : Graph} (hg : Alike g h) (hh : Alike h k) : Alike g k where
  size := hh.size.trans hg.size
  kind i := (hh.kind i).trans (hg.kind i)
  next i := (hh.next i).trans (hg.next i)
  up i := (hh.up i).trans (hg.up i)

namespace Alike

variable (hg : Alike g h)
include hg

theorem symm : Alike h g where
  size := hg.size.symm
  kind i := (hg.kind i).symm
  next i := (hg.next i).symm
  up i := (hg.up i).symm

theorem kind_cases (i : NodeId) : h.kind i = g.kind i ∨
    (∃ x y, h.kind i = .any x ∧ g.kind i = .any y) ∨
      ∃ x y, h.kind i = .sync x ∧ g.kind i = .sync y :=
  NodeKind.outline_cases (hg.kind i)

/-- Only a wildcard or a synchronisation point can have changed. -/
theorem kind_iff {i : NodeId} {k : NodeKind} (ha : ∀ x, k ≠ .any x) (hs : ∀ x, k ≠ .sync x) :
    h.kind i = k ↔ g.kind i = k := by
  rcases hg.kind_cases i with hk | ⟨x, y, hh, hk⟩ | ⟨x, y, hh, hk⟩
  · rw [hk]
  · rw [hh, hk]
    exact iff_of_false (ha x).symm (ha y).symm
  · rw [hh, hk]
    exact iff_of_false (hs x).symm (hs y).symm

theorem sub? (i : NodeId) : (h.kind i).sub? = (g.kind i).sub? := by
  rcases hg.kind_cases i with hk | ⟨x, y, hh, hk⟩ | ⟨x, y, hh, hk⟩
  · rw [hk]
  all_goals rw [hh, hk]; rfl

theorem down? (i : NodeId) : (h.kind i).down? = (g.kind i).down? := by
  rcases hg.kind_cases i with hk | ⟨x, y, hh, hk⟩ | ⟨x, y, hh, hk⟩
  · rw [hk]
  all_goals rw [hh, hk]; rfl

theorem alternatives (i : NodeId) : h.alternatives i = g.alternatives i := by
  have hfrom (fuel : Nat) (i : NodeId) : h.alternativesFrom fuel i = g.alternativesFrom fuel i := by
    induction fuel generalizing i with
    | zero => rfl
    | succ fuel ih =>
      simp only [alternativesFrom, ih]
      rcases hg.kind_cases i with hk | ⟨x, y, hh, hk⟩ | ⟨x, y, hh, hk⟩
      · rw [hk]
      all_goals rw [hh, hk]
  rw [Graph.alternatives, hfrom, hg.size, Graph.alternatives]

end Alike

theorem Closed.congr {r : NodeId} {s : Shape} (hs : Closed g r s) (hg : g.size ≤ h.size)
    (hk : ∀ i ∈ s.nodes, (h.kind i).outline = (g.kind i).outline)
    (hn : ∀ i ∈ s.nodes, h.next i = g.next i)
    (hu : ∀ i ∈ s.nodes, (h.node i).up = (g.node i).up) : Closed h r s where
  fits := hs.fits.congr hk hn hu
  nodup := hs.nodup
  lt i hi := (hs.lt i hi).trans_le hg
  entry := hs.entry

theorem Closed.alike {r : NodeId} {s : Shape} (hs : Closed g r s) (hg : Alike g h) :
    Closed h r s :=
  hs.congr hg.size.ge (fun i _ => hg.kind i) (fun i _ => hg.next i) fun i _ => hg.up i

/-- A tree stays closed when a piece is built on top of it and finished. -/
theorem Closed.below {Q : NodeKind → Prop} {p : Piece} {r : NodeId} {s x : Shape}
    (hx : Closed g r x) (hb : Built Q g h p s) : Closed (h.finish p) r x := by
  have hsize : g.size ≤ (h.finish p).size := by
    rw [Graph.finish, size_redirectExits]
    exact hb.adds.size_le
  have hold (i : NodeId) (hi : i ∈ x.nodes) : (h.finish p).node i = g.node i :=
    hb.node_finish (hx.lt i hi)
  refine hx.congr hsize (fun i hi => ?_) (fun i hi => ?_) fun i hi => ?_
  · simp only [kind, hold i hi]
  · simp only [next, hold i hi]
  · rw [hold i hi]

/-- Finishing a piece closes its tree. -/
theorem Open.finish {p : Piece} {s : Shape} (hp : Open g p s) : Closed (g.finish p) p.entry s where
  fits := hp.redirect none
  nodup := hp.nodup
  lt i hi := by
    rw [Graph.finish, size_redirectExits]
    exact hp.lt i hi
  entry := hp.entry

theorem setKind_kind (i : NodeId) : g.setKind i (g.kind i) = g := by
  rcases g with ⟨nodes⟩
  simp only [setKind, modify, kind, node]
  congr 1
  apply Array.ext_getElem?
  intro j
  rw [Array.getElem?_modify]
  by_cases hj : j < nodes.size
  · split
    · rename_i hij
      subst hij
      simp [hj]
    · rfl
  · simp [Array.getElem?_eq_none (Nat.le_of_not_lt hj)]

/-- Where there are no characters, none is marked as context. -/
theorem markContextFrom_eq (hk : ∀ i, (g.kind i).inContext = g.kind i) (fuel : Nat)
    (p : Option NodeId) : markContextFrom fuel g p = g :=
  markContextFrom_preserves (P := (· = g)) (fun h i hh => by rw [hh, hk, setKind_kind]) fuel rfl p

end Graph

namespace Table

/-- A node of some kind can stand in a production, with the symbol it refers to. -/
def Allows (t : Table) : NodeKind → Prop
  | .nonterminal a => a ∈ t.nonterminals
  | .terminal a | .weak a => a < t.symbols.size ∧ (t.symbol a).kind ≠ .nonterminal
  | .pragma _ | .charClass .. | .char .. => False
  | _ => True

variable {t u : Table}

theorem allowsGroups (t : Table) : Graph.AllowsGroups t.Allows := by
  refine ⟨trivial, fun l hl => ?_⟩
  cases l <;> simp_all [NodeKind.sub?, Allows]

theorem allows_outline {k : NodeKind} : t.Allows k.outline ↔ t.Allows k := by
  cases k <;> exact Iff.rfl

theorem Allows.inContext {k : NodeKind} (hk : t.Allows k) : k.inContext = k := by
  cases k <;> first | rfl | exact hk.elim

theorem mem_nonterminals (ht : Registered t) {a : SymbolId} :
    a ∈ t.nonterminals ↔ a < t.symbols.size ∧ (t.symbol a).kind = .nonterminal :=
  ht.mem .nonterminal a

/-- What can stand in a production still can when there are more symbols. -/
theorem Allows.mono (h : Continues t u) (ht : Registered t) {k : NodeKind} (hk : t.Allows k) :
    u.Allows k := by
  have hlt : ∀ a, a < t.symbols.size → a < u.symbols.size := fun a ha =>
    ha.trans_le h.grows.size_le
  cases k <;> try exact hk
  · exact ⟨hlt _ hk.1, by rw [h.grows.kind _ hk.1]; exact hk.2⟩
  · rename_i a
    have ha := (mem_nonterminals ht).mp hk
    exact (mem_nonterminals (h.registered ht)).mpr
      ⟨hlt a ha.1, by rw [h.grows.kind a ha.1]; exact ha.2⟩
  · exact ⟨hlt _ hk.1, by rw [h.grows.kind _ hk.1]; exact hk.2⟩

theorem allows_onGraph (t : Table) (g : Graph) :
    ({ t with graph := g } : Table).Allows = t.Allows := by
  funext k
  cases k <;> rfl

theorem allows_modifySymbol {f : Symbol → Symbol} (hf : ∀ b, (f b).kind = b.kind) (a : SymbolId) :
    (t.modifySymbol a f).Allows = t.Allows := by
  funext k
  cases k
  all_goals
    simp only [Allows, size_modifySymbol, symbol_modifySymbol_congr hf]
    try rfl

theorem graph_declare (t : Table) (k : SymbolKind) (name : String) (line : Nat) :
    (t.declare k name line).value.1.graph = t.graph := by
  unfold Table.declare
  split <;> exact graph_addSymbol

end Table

open Table Lookahead.Graph

/-! ### Atoms -/

namespace Atom

variable {t : Table} {name : Token} {weak : Bool}

/-- An occurrence of a name stands for a symbol, which may be a new one. -/
theorem continues_declareUse (t : Table) (name : Token) :
    Continues t (declareUse t name).value.1 ∧
      (declareUse t name).value.2 < (declareUse t name).value.1.symbols.size ∧
      (declareUse t name).value.1.graph = t.graph := by
  unfold declareUse
  split
  · exact ⟨.declare .., snd_declare_lt .., graph_declare ..⟩
  · rcases hr : (t.declare .terminal (String.ofList name.spelling) name.line).value with ⟨u, s⟩
    have hu : Continues t u := by
      simpa [hr] using Continues.declare t .terminal (String.ofList name.spelling) name.line
    have hs : s < u.symbols.size := by
      simpa [hr] using snd_declare_lt t .terminal (String.ofList name.spelling) name.line
    have hg : u.graph = t.graph := by
      simpa [hr] using graph_declare t .terminal (String.ofList name.spelling) name.line
    simp only [Noted.value_bind, hr]
    refine ⟨hu.trans (.modifySymbol _ _ fun _ => ⟨rfl, rfl, rfl, rfl⟩), ?_, hg⟩
    rw [Noted.value_pure, size_modifySymbol]
    exact hs

theorem lt_of_resolve (ht : Registered t) {s : SymbolId} (hs : resolve? t name = some s) :
    s < t.symbols.size := by
  simp only [resolve?] at hs
  cases hf : t.find? (String.ofList name.spelling) with
  | some a =>
    rw [hf] at hs
    cases hs
    exact ht.lt_of_find hf
  | none =>
    rw [hf] at hs
    dsimp only at hs
    split at hs
    · cases hs
    · exact ht.lt_of_literal hs

theorem allows_nodeKind (ht : Registered t) (weak : Bool) (name : Token) {s : SymbolId}
    (hs : s < t.symbols.size) :
    t.Allows (nodeKind (t.symbol s).kind weak name s).value ∧
      (nodeKind (t.symbol s).kind weak name s).value.sub? = none := by
  unfold nodeKind
  cases hk : (t.symbol s).kind <;>
    simp only [Noted.value_bind, Noted.value_ite, Noted.value_pure, ite_self]
  · split <;> exact ⟨⟨hs, by rw [hk]; nofun⟩, rfl⟩
  · exact ⟨⟨hs, by rw [hk]; nofun⟩, rfl⟩
  · exact ⟨(mem_nonterminals ht).mpr ⟨hs, hk⟩, rfl⟩

/-- What building a part of a production comes to. -/
structure Makes (t u : Table) (p : Piece) (s : Shape) : Prop where
  continues : Continues t u
  built : Built u.Allows t.graph u.graph p s

theorem makes_addNode (t : Table) {k : NodeKind} (hk : t.Allows k) (hs : k.sub? = none)
    (line : Nat) :
    Makes t (t.addNode k line).1 (t.addNode k line).2 (.node t.graph.size false .nil .nil .nil) :=
  ⟨.onGraph _ _, Built.single hs hk line⟩

theorem makes_spanned (t : Table) {k : NodeKind} (hk : t.Allows k) (hs : k.sub? = none)
    (line : Nat) (span : Option Span) :
    Makes t (spanned t k line span).1 (spanned t k line span).2
      (.node t.graph.size false .nil .nil .nil) :=
  ⟨.onGraph _ _, (Built.single hs hk line).setSpan le_rfl span⟩

/-- The table and the symbol that an occurrence of a name stands for. -/
def used (t : Table) (name : Token) : Table × SymbolId :=
  match resolve? t name with
  | some s => (t, s)
  | none => (declareUse t name).value

theorem continues_used (ht : Registered t) (name : Token) :
    Continues t (used t name).1 ∧ (used t name).2 < (used t name).1.symbols.size ∧
      (used t name).1.graph = t.graph := by
  unfold used
  split
  · rename_i s hs
    exact ⟨.refl t, lt_of_resolve ht hs, rfl⟩
  · exact continues_declareUse t name

theorem value_buildSymbol (t : Table) (weak : Bool) (name : Token) (attributes : Option Token) :
    (buildSymbol t weak name attributes).value =
      let r := used t name
      let k := (nodeKind (r.1.symbol r.2).kind weak name r.2).value
      let q := spanned r.1 k name.line (attributes.map Token.attributesSpan)
      if (resolve? t name).isSome then q else (setAttributes q.1 r.2 attributes, q.2) := by
  simp only [buildSymbol, used]
  cases resolve? t name <;> cases attributes <;> simp

theorem makes_buildSymbol (ht : Registered t) (weak : Bool) (name : Token)
    (attributes : Option Token) :
    Makes t (buildSymbol t weak name attributes).value.1
      (buildSymbol t weak name attributes).value.2
      (.node t.graph.size false .nil .nil .nil) := by
  obtain ⟨hu, hs, hg⟩ := continues_used ht name
  rw [value_buildSymbol]
  generalize used t name = r at hu hs hg
  obtain ⟨hk, hsub⟩ := allows_nodeKind (hu.registered ht) weak name hs
  have hm := makes_spanned r.1 hk hsub name.line (attributes.map Token.attributesSpan)
  have hb := hm.built
  rw [hg] at hb
  dsimp only
  split
  · exact ⟨hu.trans hm.continues, hb⟩
  · refine ⟨(hu.trans hm.continues).trans (.modifySymbol _ _ fun _ => ⟨rfl, rfl, rfl, rfl⟩), ?_⟩
    refine hb.mono fun k hk => ?_
    have hc := Continues.modifySymbol (spanned r.1 (nodeKind (r.1.symbol r.2).kind weak name
      r.2).value name.line (attributes.map Token.attributesSpan)).1 r.2
      (f := fun s => { s with attributes := attributes.map Token.attributesSpan })
      fun _ => ⟨rfl, rfl, rfl, rfl⟩
    exact hk.mono hc (hm.continues.registered (hu.registered ht))

theorem makes_build (ht : Registered t) (a : Atom) :
    Makes t (Atom.build t a).value.1 (Atom.build t a).value.2
      (.node t.graph.size false .nil .nil .nil) := by
  cases a with
  | symbol weak name attributes => exact makes_buildSymbol ht weak name attributes
  | any a => exact makes_addNode t (k := t.newWildcard) trivial rfl a.line
  | sync a => exact makes_addNode t (k := .sync default) trivial rfl a.line
  | action a => exact makes_spanned t (k := .action) trivial rfl a.line _
  | resolver a => exact makes_spanned t (k := .resolver) trivial rfl a.line _

end Atom

namespace Atom

variable {t u v : Table} {p q : Piece} {s x : Shape}

theorem Makes.allows (h : Makes t u p s) (ht : Registered t)
    (hk : ∀ i, t.Allows (t.graph.kind i)) (i : NodeId) : u.Allows (u.graph.kind i) := by
  by_cases hi : i < t.graph.size
  · rw [kind, h.built.adds.node i hi]
    exact (hk i).mono h.continues ht
  · by_cases hu : i < u.graph.size
    · exact h.built.adds.kind i (Nat.le_of_not_lt hi) hu
    · rw [kind, node_of_size_le (Nat.le_of_not_lt hu)]
      trivial

/-- What has been built stays so while more is built. -/
theorem Makes.mono (h : Makes t u p s) (hu : Continues u v) (ht : Registered t) :
    Built v.Allows t.graph u.graph p s :=
  h.built.mono fun _ hk => hk.mono hu (h.continues.registered ht)

theorem fst_onPiece (t : Table) (f : Graph → Graph × Piece) :
    (t.onPiece f).1 = { t with graph := (f t.graph).1 } := rfl

theorem snd_onPiece (t : Table) (f : Graph → Graph × Piece) :
    (t.onPiece f).2 = (f t.graph).2 := rfl

/-- An operation on graphs that gives a piece gives a part of a production. -/
theorem Makes.of_built (hc : Continues t u) {f : Graph → Graph × Piece}
    (hb : Built u.Allows t.graph (f u.graph).1 (f u.graph).2 s) :
    Makes t (u.onPiece f).1 (u.onPiece f).2 s := by
  rw [fst_onPiece, snd_onPiece]
  refine ⟨hc.trans (.onGraph _ _), ?_⟩
  rw [allows_onGraph]
  exact hb

theorem Makes.sequence (hs : Makes t u p s) (hx : Makes u v q x) (ht : Registered t) :
    Makes t (v.onPiece (·.sequence p q)).1 (v.onPiece (·.sequence p q)).2 (s.append x) :=
  .of_built (hs.continues.trans hx.continues)
    ((hs.mono hx.continues ht).sequence (allowsGroups _) hx.built)

theorem Makes.addAlternative (hs : Makes t u p s) (hso : s.IsOther u.graph) (hx : Makes u v q x)
    (ht : Registered t) :
    Makes t (v.onPiece (·.alternative p q)).1 (v.onPiece (·.alternative p q)).2
        (s.addOther (.node v.graph.size false x .nil .nil)) ∧
      (s.addOther (.node v.graph.size false x .nil .nil)).IsOther
        (v.onPiece (·.alternative p q)).1.graph := by
  obtain ⟨hb, ho⟩ := (hs.mono hx.continues ht).addAlternative (allowsGroups _) hso hx.built
  refine ⟨.of_built (hs.continues.trans hx.continues) hb, ?_⟩
  rw [fst_onPiece]
  exact ho

theorem Makes.alternatives (hs : Makes t u p s) (hx : Makes u v q x) (ht : Registered t)
    {w : Table} {r : Piece} (hw : v.onPiece (·.firstAlternative p) = (w, r)) :
    Makes t (w.onPiece (·.alternative r q)).1 (w.onPiece (·.alternative r q)).2
        (.node v.graph.size false s (.node (v.graph.size + 1) false x .nil .nil) .nil) ∧
      (Shape.node v.graph.size false s (.node (v.graph.size + 1) false x .nil .nil) .nil).IsOther
        (w.onPiece (·.alternative r q)).1.graph := by
  have hc : Continues t w := by
    rw [show w = (v.onPiece (·.firstAlternative p)).1 by rw [hw]]
    exact (hs.continues.trans hx.continues).trans (.onGraph _ _)
  have hg : v.graph.firstAlternative p = (w.graph, r) :=
    Prod.ext (congrArg (·.1.graph) hw) (congrArg (·.2) hw)
  have ha : v.Allows = w.Allows := by
    rw [show w = (v.onPiece (·.firstAlternative p)).1 by rw [hw], fst_onPiece]
    exact (allows_onGraph v _).symm
  obtain ⟨hb, ho⟩ := (hs.mono hx.continues ht).alternatives (allowsGroups _) hx.built hg
  rw [ha] at hb
  refine ⟨.of_built hc hb, ?_⟩
  rw [fst_onPiece]
  exact ho

end Atom

namespace Expr

open Atom

section

variable {α : Type}

/-- How many nodes an expression has. -/
def size : Expr α → Nat
  | empty | atom _ => 1
  | seq e f => e.size + f.size
  | alt e f => e.size + f.size + if e.isAlt then 1 else 2
  | group .square e | group .curly e => e.size + 1
  | group _ e => e.size

/-- The tree of an expression whose nodes are numbered from `n` on, as they are made: a group has
the number behind its content, and the first alternative the one behind the second's content. -/
def shape (n : Nat) : Expr α → Shape
  | empty | atom _ => .node n false .nil .nil .nil
  | seq e f => (e.shape n).append (f.shape (n + e.size))
  | alt e f =>
    let k := n + e.size + f.size
    let x := f.shape (n + e.size)
    if e.isAlt then (e.shape n).addOther (.node k false x .nil .nil)
    else .node k false (e.shape n) (.node (k + 1) false x .nil .nil) .nil
  | group .square e => .node (n + e.size) false (e.shape n) .nil .nil
  | group .curly e => .node (n + e.size) true (e.shape n) .nil .nil
  | group _ e => e.shape n

theorem length_nodes_shape (e : Expr α) (n : Nat) : (e.shape n).nodes.length = e.size := by
  induction e generalizing n with
  | empty | atom _ => rfl
  | seq e f ihe ihf => rw [shape, Shape.nodes_append, List.length_append, ihe, ihf, size]
  | alt e f ihe ihf =>
    simp only [shape, size]
    split
    · rw [(Shape.nodes_addOther _ _).length_eq]
      simp [Shape.nodes, ihe, ihf]
      omega
    · simp [Shape.nodes, ihe, ihf]
      omega
  | group b e ih => cases b <;> simp [shape, size, Shape.nodes, ih]

end

variable {t : Table}

theorem size_of_makes {e : Expr Atom} {u : Table} {p : Piece}
    (h : Makes t u p (e.shape t.graph.size)) : u.graph.size = t.graph.size + e.size := by
  rw [h.built.size_eq, length_nodes_shape]

/-- The graph of an expression is a tree on top of what was there before. -/
theorem makes_build (e : Expr Atom) (ht : Registered t) (hk : ∀ i, t.Allows (t.graph.kind i)) :
    Makes t (e.build Atom.build t).value.1 (e.build Atom.build t).value.2
        (e.shape t.graph.size) ∧
      (e.isAlt = true → (e.shape t.graph.size).IsOther (e.build Atom.build t).value.1.graph) := by
  induction e generalizing t with
  | empty => exact ⟨makes_addNode t (k := .empty) trivial rfl 0, by simp [isAlt]⟩
  | atom a => exact ⟨Atom.makes_build ht a, by simp [isAlt]⟩
  | seq e f ihe ihf =>
    obtain ⟨hs, -⟩ := ihe ht hk
    obtain ⟨hx, -⟩ := ihf (hs.continues.registered ht) (hs.allows ht hk)
    rw [size_of_makes hs] at hx
    exact ⟨hs.sequence hx ht, by simp [isAlt]⟩
  | alt e f ihe ihf =>
    obtain ⟨hs, hso⟩ := ihe ht hk
    obtain ⟨hx, -⟩ := ihf (hs.continues.registered ht) (hs.allows ht hk)
    have hsize := size_of_makes hx
    rw [size_of_makes hs] at hx hsize
    simp only [build, Noted.value_bind, Noted.value_pure, shape, ← hsize]
    by_cases he : e.isAlt = true
    · rw [if_pos he, if_pos he]
      obtain ⟨hy, ho⟩ := hs.addAlternative (hso he) hx ht
      exact ⟨hy, fun _ => ho⟩
    · rw [if_neg he, if_neg he]
      generalize hw : Table.onPiece _ (·.firstAlternative (e.build Atom.build t).value.2) = w
      obtain ⟨w, r⟩ := w
      obtain ⟨hy, ho⟩ := hs.alternatives hx ht hw
      exact ⟨hy, fun _ => ho⟩
  | group b e ih =>
    obtain ⟨hs, -⟩ := ih ht hk
    have hsize := size_of_makes hs
    refine ⟨?_, by simp [isAlt]⟩
    simp only [build, Noted.value_bind, Noted.value_pure]
    generalize (e.build Atom.build t).value = r at hs hsize ⊢
    cases b with
    | round => exact hs
    | square =>
      rw [shape, ← hsize]
      exact .of_built hs.continues (hs.built.option (allowsGroups _))
    | curly =>
      rw [shape, ← hsize]
      exact .of_built hs.continues (hs.built.iteration (allowsGroups _))
    | context =>
      refine ⟨hs.continues.trans (.onGraph _ _), ?_⟩
      simp only [wrap, onGraph, markContext, allows_onGraph,
        markContextFrom_eq fun i => (hs.allows ht hk i).inContext]
      exact hs.built

end Expr

/-! ### Productions -/

namespace Table

variable {t u : Table}

/-- Every root is where a closed tree starts. -/
def Laid (t : Table) : Prop :=
  ∀ a r, (t.symbol a).root = some r → ∃ s, Closed t.graph r s

/-- What holds of a table while productions are added to it. -/
structure Grown (t : Table) : Prop where
  registered : Registered t
  allows : ∀ i, t.Allows (t.graph.kind i)
  laid : Laid t
  deletable : ∀ s, (t.symbol s).deletable = false

theorem Grown.of_continues (ht : Grown t) (h : Continues t u) (hg : u.graph = t.graph) :
    Grown u where
  registered := h.registered ht.registered
  allows i := by
    rw [hg]
    exact (ht.allows i).mono h ht.registered
  laid a r hr := by
    rw [h.grows.root] at hr
    rw [hg]
    exact ht.laid a r hr
  deletable s := by rw [h.grows.deletable, ht.deletable]

theorem continues_setAttributes (t : Table) (a : SymbolId) (attributes : Option Token) :
    Continues t (setAttributes t a attributes) :=
  .modifySymbol _ _ fun _ => ⟨rfl, rfl, rfl, rfl⟩

/-- A production is a tree of its own behind those before it. -/
theorem Grown.addRoot (ht : Grown t) {p : Piece} {s : Shape} (hs : Atom.Makes t u p s)
    (a : SymbolId) {f : Symbol → Symbol} (hk : ∀ b, (f b).kind = b.kind)
    (hi : ∀ b, (f b).index = b.index) (hr : ∀ b, (f b).root = some p.entry)
    (hd : ∀ b, (f b).deletable = b.deletable) :
    Grown ((u.modifySymbol a f).onGraph (·.finish p)) := by
  have hu := hs.continues.registered ht.registered
  have hkind : ∀ i, (u.graph.finish p).kind i = u.graph.kind i := fun i => kind_redirect i
  refine ⟨?_, fun i => ?_, fun b r hb => ?_, fun b => ?_⟩
  · exact (hu.modifySymbol a hk fun _ => hi _).of_same ⟨rfl, rfl, rfl, rfl, rfl⟩
  · have := hs.allows ht.registered ht.allows i
    rw [← hkind i] at this
    show Allows { u.modifySymbol a f with graph := _ } _
    rw [allows_onGraph, allows_modifySymbol hk]
    exact this
  · have hb : ((u.modifySymbol a f).symbol b).root = some r := hb
    rw [symbol_modifySymbol] at hb
    split at hb
    · rw [hr] at hb
      cases hb
      exact ⟨s, hs.built.piece.finish⟩
    · rw [hs.continues.grows.root] at hb
      obtain ⟨x, hx⟩ := ht.laid b r hb
      exact ⟨x, hx.below hs.built⟩
  · exact (symbol_modifySymbol_congr (p := Symbol.deletable) hd a b).trans
      ((hs.continues.grows.deletable b).trans (ht.deletable b))

theorem Grown.declareBody (ht : Grown t) (a : SymbolId) (e : Expr Atom) :
    Grown (((e.build Atom.build t).value.1.modifySymbol a fun b =>
      { b with root := some (e.build Atom.build t).value.2.entry }).onGraph
        (·.finish (e.build Atom.build t).value.2)) := by
  obtain ⟨hs, -⟩ := Expr.makes_build e ht.registered ht.allows
  exact ht.addRoot hs a (fun _ => rfl) (fun _ => rfl) (fun _ => rfl) fun _ => rfl

end Table

namespace Production

variable {t : Table}

theorem continues_declareName (t : Table) (name : Token) :
    Continues t (declareName t name).value.1.1 ∧
      (declareName t name).value.1.1.graph = t.graph := by
  unfold declareName
  split
  · exact ⟨.declare .., graph_declare ..⟩
  · simp only [Noted.value_bind, Noted.value_ite, Noted.value_pure, ite_self]
    exact ⟨.modifySymbol _ _ fun _ => ⟨rfl, rfl, rfl, rfl⟩, rfl⟩

theorem grown_declare (ht : Grown t) (d : Production) : Grown (d.declare t).value := by
  obtain ⟨hn, hg⟩ := continues_declareName t d.name
  unfold declare
  rcases hr : (declareName t d.name).value with ⟨⟨u, a⟩, known⟩
  rw [hr] at hn hg
  simp only [Noted.value_bind, hr, Noted.value_ite, Noted.value_pure, ite_self]
  refine Grown.declareBody (ht.of_continues (hn.trans ?_) ?_) a d.body
  · split
    · exact (continues_setAttributes u a _).trans
        (.modifySymbol _ _ fun _ => ⟨rfl, rfl, rfl, rfl⟩)
    · exact continues_setAttributes u a _
  · rw [← hg]
    split <;> rfl

end Production

/-! ### Whole definitions -/

namespace Table

variable {t u : Table}

/-- What the analysis relies on. Pragmas have numbers of their own, which are no terminal's. -/
structure Formed (t : Table) : Prop where
  registered : Registered t
  allows : ∀ i, t.Allows (t.graph.kind i)
  laid : Laid t
  pragma : ∀ s ∈ t.pragmas, t.terminalCount ≤ (t.symbol s).index

/-- The terminals that a wildcard matches; other nodes are not wildcards. -/
def wildcardSet (t : Table) (i : NodeId) : IndexSet :=
  match t.graph.kind i with
  | .any set => set
  | _ => .empty t.terminalCount

theorem get_wildcardSet_iff {i : NodeId} {n : Nat} : (t.wildcardSet i).get n = true ↔
    ∃ set, t.graph.kind i = .any set ∧ set.get n = true := by
  unfold wildcardSet
  split
  · rename_i set hk
    simp [hk]
  · rename_i hk
    simp only [IndexSet.get_empty, Bool.false_eq_true, false_iff]
    rintro ⟨set, h, -⟩
    exact hk set h

/-- The tables differ at most in the sets of nodes, and in what does not bear on the places of
nodes in productions. -/
structure SameOutline (t u : Table) : Prop where
  size : u.symbols.size = t.symbols.size
  listed : u.listed = t.listed
  literals : u.literals = t.literals
  start : u.start = t.start
  eof : u.eof = t.eof
  kind : ∀ s, (u.symbol s).kind = (t.symbol s).kind
  index : ∀ s, (u.symbol s).index = (t.symbol s).index
  root : ∀ s, (u.symbol s).root = (t.symbol s).root
  graph : Graph.Alike t.graph u.graph

theorem SameOutline.terminals (h : SameOutline t u) : u.terminals = t.terminals :=
  congrFun h.listed .terminal

theorem SameOutline.nonterminals (h : SameOutline t u) : u.nonterminals = t.nonterminals :=
  congrFun h.listed .nonterminal

theorem SameOutline.terminalCount (h : SameOutline t u) : u.terminalCount = t.terminalCount :=
  congrArg Array.size h.terminals

theorem SameOutline.symm (h : SameOutline t u) : SameOutline u t where
  size := h.size.symm
  listed := h.listed.symm
  literals := h.literals.symm
  start := h.start.symm
  eof := h.eof.symm
  kind s := (h.kind s).symm
  index s := (h.index s).symm
  root s := (h.root s).symm
  graph := h.graph.symm

theorem SameOutline.formed (h : SameOutline t u) (ht : t.Formed) : u.Formed where
  registered :=
    { mem := fun k s => by
        rw [h.listed, h.size, h.kind]
        exact ht.registered.mem k s
      index := fun k hk n s hs => by
        rw [h.listed] at hs
        rw [h.index]
        exact ht.registered.index k hk n s hs
      literal := by
        rw [h.literals, h.size]
        exact ht.registered.literal
      eof := by
        rw [h.eof, h.terminals]
        exact ht.registered.eof
      start := by
        rw [h.start, h.nonterminals]
        exact ht.registered.start }
  allows i := by
    have hi := allows_outline.mpr (ht.allows i)
    rw [← allows_outline, h.graph.kind]
    cases hk : (t.graph.kind i).outline <;> rw [hk] at hi <;> try exact hi
    · exact ⟨by rw [h.size]; exact hi.1, by rw [h.kind]; exact hi.2⟩
    · rw [Allows, h.nonterminals]
      exact hi
    · exact ⟨by rw [h.size]; exact hi.1, by rw [h.kind]; exact hi.2⟩
  laid a r hr := by
    rw [h.root] at hr
    obtain ⟨s, hs⟩ := ht.laid a r hr
    exact ⟨s, hs.alike h.graph⟩
  pragma s hs := by
    have hp : u.pragmas = t.pragmas := congrFun h.listed .pragma
    rw [h.index, h.terminalCount]
    exact ht.pragma s (hp ▸ hs)

/-- Every wildcard matches some terminal. -/
def Wild (t : Table) : Prop :=
  ∀ i set, t.graph.kind i = .any set → ∃ b ∈ t.terminals, set.get (t.symbol b).index = true

/-- Every wildcard matches all terminals but the end of input. -/
def Unrestricted (t : Table) : Prop :=
  ∀ i set, t.graph.kind i = .any set →
    set = (IndexSet.full t.terminalCount).erase (t.symbol t.eof).index

theorem grown_clearGraph (ht : Registered t) (hg : Grows {} t) : Grown t.clearGraph where
  registered := ht.of_same ⟨rfl, rfl, rfl, rfl, rfl⟩
  allows i := by
    rcases i with _ | i
    · trivial
    · rw [kind, node_of_size_le (by simp [clearGraph, size])]
      trivial
  laid a r hr := by
    have : (t.symbol a).root = some r := hr
    rw [hg.root, symbol_of_size_le (Nat.zero_le a)] at this
    cases this
  deletable a := by
    show (t.symbol a).deletable = false
    rw [hg.deletable, symbol_of_size_le (Nat.zero_le a)]
    rfl

theorem grown_productions (l : List Production) (ht : Grown t) :
    Grown (l.foldlM Production.declare t).value := by
  rw [Noted.value_foldlM]
  induction l generalizing t with
  | nil => exact ht
  | cons d l ih => exact ih (Production.grown_declare ht d)

/-- The productions come behind a table of symbols without productions. -/
theorem exists_front (s : Sections) : ∃ t : Table, Grown t.clearGraph ∧
    (∀ a, (t.clearGraph.symbol a).root = none) ∧
    ∀ l, ({ s with productions := l } : Sections).declare.value =
      (l.foldlM Production.declare t.clearGraph).value := by
  have h₁ := continues_foldlM (fun t d _ => SetDecl.continues_declare t d) s.sets registered_empty
  have h₂ := continues_foldlM (fun t d ht => TokenDecl.continues_declare .terminal ht d) s.tokens
    (h₁.registered registered_empty)
  have h₃ := continues_foldlM (fun t d ht => TokenDecl.continues_declare .pragma ht d) s.pragmas
    (h₂.registered (h₁.registered registered_empty))
  have h := (h₁.trans h₂).trans h₃
  have hgrows := grows_empty.trans h.grows
  refine ⟨_, grown_clearGraph (h.registered registered_empty) hgrows, fun a => ?_, fun l => rfl⟩
  exact (hgrows.root a).trans (by rw [symbol_of_size_le (Nat.zero_le a)]; rfl)

theorem grown_sections (s : Sections) : Grown s.declare.value := by
  obtain ⟨t, ht, -, hs⟩ := exists_front s
  rw [hs s.productions]
  exact grown_productions _ ht

theorem grown_setStart (ht : Grown t) (name last : Token) :
    Grown (setStart t name last).value := by
  have hstart (s : SymbolId) (hs : s ∈ t.nonterminals) : Grown { t with start := some s } :=
    { registered := { ht.registered with start := fun a ha => by cases ha; exact hs }
      allows := ht.allows
      laid := ht.laid
      deletable := ht.deletable }
  unfold setStart
  simp only [Noted.value_bind, Noted.value_ite, ite_self]
  split
  · rename_i s hs
    simp only [Noted.value_bind, Noted.value_ite, Noted.value_pure, ite_self]
    split
    · rename_i hk
      refine hstart s ((mem_nonterminals ht.registered).mpr ⟨ht.registered.lt_of_find hs, ?_⟩)
      simpa [Symbol.isNonterminal] using hk
    · exact ht
  · exact ht

theorem Grown.alike (ht : Grown t) {g : Graph} (hg : Alike t.graph g) :
    Grown { t with graph := g } where
  registered := ht.registered.of_same ⟨rfl, rfl, rfl, rfl, rfl⟩
  allows i := by
    rw [allows_onGraph, ← allows_outline, hg.kind, allows_outline]
    exact ht.allows i
  laid a r hr := by
    obtain ⟨s, hs⟩ := ht.laid a r hr
    exact ⟨s, hs.alike hg⟩
  deletable := ht.deletable

theorem node_fillWildcards (t : Table) (i : NodeId) :
    t.fillWildcards.graph.node i = match (t.graph.node i).kind with
      | .any _ => { t.graph.node i with
          kind := .any ((IndexSet.full t.terminalCount).erase (t.symbol t.eof).index) }
      | _ => t.graph.node i := by
  generalize hset : (IndexSet.full t.terminalCount).erase (t.symbol t.eof).index = set
  simp only [fillWildcards, onGraph, Graph.node, Array.getD_eq_getD_getElem?, Array.getElem?_map,
    hset]
  cases t.graph.nodes[i]? <;> rfl

theorem any_fillWildcards {i : NodeId} {set : IndexSet}
    (hk : t.fillWildcards.graph.kind i = .any set) :
    set = (IndexSet.full t.terminalCount).erase (t.symbol t.eof).index := by
  rw [kind, node_fillWildcards] at hk
  split at hk
  · cases hk
    rfl
  · rename_i h
    exact absurd hk (h set)

theorem alike_fillWildcards (t : Table) : Alike t.graph t.fillWildcards.graph := by
  have hnode := node_fillWildcards t
  generalize (IndexSet.full t.terminalCount).erase (t.symbol t.eof).index = set at hnode
  refine ⟨by simp [fillWildcards, onGraph, size], fun i => ?_, fun i => ?_, fun i => ?_⟩
  · simp only [kind, hnode]
    split
    · rename_i h
      rw [h]
      rfl
    · rfl
  · simp only [next, hnode]
    split <;> rfl
  · rw [hnode]
    split <;> rfl

theorem Grown.modifySymbol (ht : Grown t) (a : SymbolId) {f : Symbol → Symbol}
    (hk : ∀ b, (f b).kind = b.kind) (hr : ∀ b, (f b).root = b.root)
    (hd : ∀ b, (f b).deletable = b.deletable)
    (hi : (t.symbol a).kind ≠ .pragma → (f (t.symbol a)).index = (t.symbol a).index) :
    Grown (t.modifySymbol a f) where
  registered := ht.registered.modifySymbol a hk hi
  allows := by
    rw [allows_modifySymbol hk]
    exact ht.allows
  laid b r hb := by
    rw [symbol_modifySymbol_congr hr] at hb
    exact ht.laid b r hb
  deletable b := by
    rw [symbol_modifySymbol_congr hd]
    exact ht.deletable b

/-- Numbering some of the pragmas. -/
theorem grown_numberPragmas (l : List (SymbolId × Nat)) (n : Nat) (ht : Grown t)
    (hl : ∀ p ∈ l, p.1 ∈ t.pragmas) {u : Table}
    (hu : l.foldl (fun u p => u.modifySymbol p.1 fun s => { s with index := n + p.2 }) t = u) :
    Grown u ∧ u.listed = t.listed ∧ u.graph = t.graph ∧
      ∀ s ∈ t.pragmas, s ∈ l.map (·.1) ∨ n ≤ (t.symbol s).index → n ≤ (u.symbol s).index := by
  induction l generalizing t with
  | nil =>
    cases hu
    exact ⟨ht, rfl, rfl, fun s _ h => by simpa using h⟩
  | cons p l ih =>
    have hp := (ht.registered.mem .pragma p.1).mp (hl p (by simp))
    have hg : Grown (t.modifySymbol p.1 fun s => { s with index := n + p.2 }) :=
      ht.modifySymbol p.1 (fun _ => rfl) (fun _ => rfl) (fun _ => rfl) fun h => absurd hp.2 h
    obtain ⟨h₁, h₂, h₃, h₄⟩ := ih hg (fun q hq => hl q (List.mem_cons_of_mem p hq)) hu
    refine ⟨h₁, h₂.trans listed_modifySymbol, h₃, fun s hs hsl => h₄ s hs ?_⟩
    rw [symbol_modifySymbol]
    have hlt := ((ht.registered.mem .pragma s).mp hs).1
    by_cases hps : p.1 = s
    · rw [if_pos ⟨hps, hlt⟩]
      exact .inr (Nat.le_add_right ..)
    · rw [if_neg fun h => hps h.1]
      rw [List.map_cons, List.mem_cons] at hsl
      exact hsl.imp_left fun h => h.resolve_left (Ne.symm hps)

theorem formed_numberPragmas (ht : Grown t) : Formed t.numberPragmas ∧
    (∀ s, (t.numberPragmas.symbol s).deletable = false) ∧ t.numberPragmas.graph = t.graph ∧
      t.numberPragmas.listed = t.listed := by
  obtain ⟨h, hl, hg, hnum⟩ := grown_numberPragmas t.pragmas.toList.zipIdx t.terminalCount ht
    (fun p hp => Array.mem_toList_iff.mp (List.fst_mem_of_mem_zipIdx hp)) rfl
  have hlist (k : SymbolKind) : t.numberPragmas.listed k = t.listed k := congrFun hl k
  have hcount : t.numberPragmas.terminalCount = t.terminalCount :=
    congrArg Array.size (hlist .terminal)
  refine ⟨⟨h.registered, h.allows, h.laid, fun s hs => ?_⟩, h.deletable, hg, hl⟩
  have hs' : s ∈ t.listed .pragma := by
    rw [← hlist]
    exact hs
  rw [hcount]
  refine hnum s hs' (.inl ?_)
  rw [List.zipIdx_map_fst, Array.mem_toList_iff]
  exact hs'

/-- A wildcard that matches all terminals but one matches the last one. -/
theorem wild_of_last {n k : Nat} {s : SymbolId} (ht : Registered t) (hs : t.terminals[n]? = some s)
    (hk : k < n) (hset : ∀ i set, t.graph.kind i = .any set →
      set = (IndexSet.full (n + 1)).erase k) : Wild t := by
  intro i set hi
  refine ⟨s, Array.mem_of_getElem? hs, ?_⟩
  rw [hset i set hi, ht.index .terminal nofun n s hs, IndexSet.erase, IndexSet.get_set,
    if_neg fun h => Nat.ne_of_lt hk h.1, IndexSet.full, IndexSet.get_replicate]
  simp

theorem terminals_addSymbol (t : Table) (name : String) (line : Nat) :
    (t.addSymbol .terminal name line).1.terminals = t.terminals.push t.symbols.size := rfl

/-- The end of input comes before a terminal that is added. -/
theorem Registered.index_eof_lt (ht : Registered t) (name : String) (line : Nat) :
    ((t.addSymbol .terminal name line).1.symbol t.eof).index < t.terminals.size := by
  obtain ⟨k, hk, he⟩ := Array.mem_iff_getElem.mp ht.eof
  have hk' : ((t.addSymbol .terminal name line).1.listed .terminal)[k]? = some t.eof := by
    rw [listed, terminals_addSymbol, Array.getElem?_push_lt hk, he]
  rw [ht.addSymbol.index .terminal (by simp) k t.eof hk']
  exact hk

/-- What reading a definition leaves: a formed table in which nothing is deletable yet. -/
theorem formed_endProductions (ht : Grown t) : Formed t.endProductions.value ∧
    (∀ s, (t.endProductions.value.symbol s).deletable = false) ∧ Wild t.endProductions.value := by
  have h : Grown { (t.addSymbol .terminal invalidName 0).1 with invalid := some t.symbols.size } :=
    (ht.of_continues (.addSymbol t .terminal invalidName 0) graph_addSymbol).of_continues
      (.of_same ⟨rfl, rfl, rfl, rfl, rfl⟩) rfl
  obtain ⟨hf, hd, hg, hl⟩ := formed_numberPragmas (h.alike (alike_fillWildcards _))
  refine ⟨hf, hd, wild_of_last (n := t.terminals.size) (s := t.symbols.size) hf.registered ?_
    (ht.registered.index_eof_lt invalidName 0) fun i set hi => ?_⟩
  · have hpush := congrFun hl .terminal
    change t.endProductions.value.terminals = t.terminals.push t.symbols.size at hpush
    rw [hpush, Array.getElem?_push_size]
  · have hi' := congrArg (Graph.kind · i) hg
    rw [show t.endProductions.value.graph.kind i = _ from hi'] at hi
    rw [any_fillWildcards hi]
    congr 2
    exact Array.size_push ..

theorem eof_numberPragmas (t : Table) : t.numberPragmas.eof = t.eof := by
  unfold numberPragmas
  generalize t.pragmas.toList.zipIdx = l
  generalize t.terminalCount = n
  induction l generalizing t with
  | nil => rfl
  | cons p l ih => exact ih _

/-- Tables with the same lists number what is on them alike. -/
theorem Registered.index_eq (ht : Registered t) (hu : Registered u) (hl : u.listed = t.listed)
    {k : SymbolKind} (hk : k ≠ .pragma) {s : SymbolId} (hs : s ∈ t.listed k) :
    (u.symbol s).index = (t.symbol s).index := by
  obtain ⟨n, hn⟩ := Array.getElem?_of_mem hs
  rw [ht.index k hk n s hn, hu.index k hk n s (hl ▸ hn)]

theorem unrestricted_fillWildcards (t : Table) : Unrestricted t.fillWildcards :=
  fun _ _ => any_fillWildcards

theorem Unrestricted.numberPragmas (h : Unrestricted t) (ht : Grown t) :
    Unrestricted t.numberPragmas := by
  obtain ⟨hf, -, hg, hl⟩ := formed_numberPragmas ht
  have hcount : t.numberPragmas.terminalCount = t.terminalCount :=
    congrArg Array.size (congrFun hl .terminal)
  intro i set hi
  rw [hg] at hi
  rw [hcount, eof_numberPragmas, ht.registered.index_eq hf.registered hl (k := .terminal) (by simp)
    ht.registered.eof]
  exact h i set hi

theorem unrestricted_endProductions (ht : Grown t) : Unrestricted t.endProductions.value := by
  have h : Grown { (t.addSymbol .terminal invalidName 0).1 with invalid := some t.symbols.size } :=
    (ht.of_continues (.addSymbol t .terminal invalidName 0) graph_addSymbol).of_continues
      (.of_same ⟨rfl, rfl, rfl, rfl, rfl⟩) rfl
  exact (unrestricted_fillWildcards _).numberPragmas (h.alike (alike_fillWildcards _))

end Table

theorem Definition.formed_table (d : Definition) : d.table.value.Formed ∧
    (∀ s, (d.table.value.symbol s).deletable = false) ∧ d.table.value.Wild :=
  formed_endProductions (grown_setStart (grown_sections d.sections) d.name d.ending)

theorem Definition.unrestricted_table (d : Definition) : d.table.value.Unrestricted :=
  unrestricted_endProductions (grown_setStart (grown_sections d.sections) d.name d.ending)

namespace Grammar

/-- So is the table of a grammar that can be read. -/
theorem formed_parse {source : String} {cfg : Config} {log : Log} {g : Grammar}
    (hg : (Grammar.parse source cfg log).2 = .ok g) :
    g.table.Formed ∧ (∀ s, (g.table.symbol s).deletable = false) ∧ g.table.Wild := by
  unfold Grammar.parse at hg
  split at hg
  · rename_i d _
    cases hg
    exact d.formed_table
  · cases hg

theorem unrestricted_parse {source : String} {cfg : Config} {log : Log} {g : Grammar}
    (hg : (Grammar.parse source cfg log).2 = .ok g) : g.table.Unrestricted := by
  unfold Grammar.parse at hg
  split at hg
  · rename_i d _
    cases hg
    exact d.unrestricted_table
  · cases hg

theorem exists_ok_of_any {ε α : Type} {x : Except ε α} {P : α → Bool}
    (h : x.toOption.any P = true) : ∃ a, x = .ok a ∧ P a = true := by
  cases x with
  | error e => cases h
  | ok a => exact ⟨a, rfl, h⟩

end Grammar

end Lookahead
