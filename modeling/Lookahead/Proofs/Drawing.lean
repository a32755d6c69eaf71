import Lookahead.Proofs.Names

/-!
# What the nodes of a production stand for

Building a graph links nodes and marks them, and leaves alone what else there is to a node
(`Graph.look`). So a node stands for the part of the right-hand side that it was made for, also
when all of the production has been built (`Expr.stands_build`).
-/

namespace Lookahead

/-- A kind of node without the sets and links that belong to it. -/
def NodeKind.bare : NodeKind → NodeKind
  | any _ => any default
  | sync _ => sync default
  | alt _ _ => alt 0 none
  | iter _ => iter 0
  | opt _ => opt 0
  | k => k

/-- What there is to a node but its place in the graph. -/
structure Look where
  kind : NodeKind
  line : Nat
  span : Option Span := none

namespace Graph

variable {g : Graph} {p q : Piece} {i j : NodeId} {k : NodeKind} {line : Nat}

def look (g : Graph) (i : NodeId) : Look := ⟨(g.kind i).bare, (g.node i).line, (g.node i).span⟩

/-! ### What building leaves alone -/

@[simp] theorem look_setNext (o : Option NodeId) : (g.setNext i o).look j = g.look j := by
  simp only [look, kind, node_setNext]
  split <;> rfl

@[simp] theorem look_setUp : (g.setUp i).look j = g.look j := by
  simp only [look, kind, node_setUp]
  split <;> rfl

theorem look_setKind (hk : k.bare = (g.kind i).bare) : (g.setKind i k).look j = g.look j := by
  simp only [look, kind, node_setKind] at hk ⊢
  split
  · rename_i h
    rw [h.1] at hk
    rw [hk]
  · rfl

theorem look_add : (g.add k line).1.look j =
    if j = g.size then ⟨k.bare, line, none⟩ else g.look j := by
  simp only [look, kind, node_add]
  split <;> rfl

theorem look_redirect {target : Option NodeId} {fuel : Nat} {o : Option NodeId} :
    (redirect target fuel g o).look j = g.look j := by
  induction fuel generalizing g o with
  | zero => simp [redirect]
  | succ fuel ih => cases o <;> simp [redirect, ih]

theorem look_sequence : (g.sequence p q).1.look j = g.look j := look_redirect

theorem look_finish : (g.finish p).look j = g.look j := look_redirect

theorem look_option : (g.option p).1.look j =
    if j = g.size then ⟨.opt 0, (g.node p.entry).line, none⟩ else g.look j := by
  simp only [option, look_setNext, look_setUp, look_add, NodeKind.bare]

theorem look_iteration : (g.iteration p).1.look j =
    if j = g.size then ⟨.iter 0, (g.node p.entry).line, none⟩ else g.look j := by
  simp only [iteration, redirectExits, look_redirect, look_setUp, look_add, NodeKind.bare]

theorem look_firstAlternative : (g.firstAlternative p).1.look j =
    if j = g.size then ⟨.alt 0 none, (g.node p.entry).line, none⟩ else g.look j := by
  simp only [firstAlternative, look_setNext, look_setUp, look_add, NodeKind.bare]

theorem look_alternative : (g.alternative p q).1.look j =
    if j = g.size then ⟨.alt 0 none, (g.node q.entry).line, none⟩ else g.look j := by
  simp only [alternative, look_setNext]
  split
  · rename_i hk
    rw [look_setKind (by rw [hk]; rfl)]
    simp only [look_setUp, look_add, NodeKind.bare]
  · simp only [look_setUp, look_add, NodeKind.bare]

end Graph

/-! ### Parts of a production -/

namespace Atom

/-- The node `i` stands for the atom. -/
def Stands (t : Table) : Atom → NodeId → Prop
  | symbol weak name attributes, i => ∃ s, t.Means name s ∧ t.graph.look i =
      ⟨(nodeKind (t.symbol s).kind weak name s).value, name.line,
        attributes.map Token.attributesSpan⟩
  | any a, i => t.graph.look i = ⟨.any default, a.line, none⟩
  | sync a, i => t.graph.look i = ⟨.sync default, a.line, none⟩
  | action a, i => t.graph.look i = ⟨.action, a.line, some a.actionSpan⟩
  | resolver a, i => t.graph.look i = ⟨.resolver, a.line, some a.conditionSpan⟩

/-- The name in the atom, if there is one, is a word. -/
def Worded : Atom → Prop
  | symbol _ name _ => name.Worded
  | _ => True

variable {t u : Table} {a : Atom} {i : NodeId}

theorem Stands.keeps (ht : Table.Registered t) (h : a.Stands t i) (hk : t.Keeps u) (ha : a.Worded)
    (hl : u.graph.look i = t.graph.look i) : a.Stands u i := by
  cases a with
  | symbol weak name attributes =>
    obtain ⟨s, hs, hi⟩ := h
    refine ⟨s, hs.keeps ht hk ha, ?_⟩
    rw [hl, hi, hk.kind s (hs.lt ht)]
  | _ => exact hl.trans h

end Atom

namespace Expr

variable {α : Type}

/-- All atoms of the expression meet `P`. -/
def All (P : α → Prop) : Expr α → Prop
  | empty => True
  | atom a => P a
  | seq e f | alt e f => e.All P ∧ f.All P
  | group _ e => e.All P

/-- The nodes from `n` on, numbered as in `Expr.shape`, stand for the parts of the expression. -/
def Stands (t : Table) : Expr Atom → Nat → Prop
  | empty, n => t.graph.look n = ⟨.empty, 0, none⟩
  | atom a, n => a.Stands t n
  | seq e f, n => e.Stands t n ∧ f.Stands t (n + e.size)
  | alt e f, n => e.Stands t n ∧ f.Stands t (n + e.size) ∧
      ∀ i, n + e.size + f.size ≤ i → i < n + (alt e f).size → (t.graph.look i).kind = .alt 0 none
  | group b e, n => e.Stands t n ∧ (b = .square → (t.graph.look (n + e.size)).kind = .opt 0) ∧
      (b = .curly → (t.graph.look (n + e.size)).kind = .iter 0)

variable {t u : Table} {e : Expr Atom} {n : Nat}

/-- Nodes stand for a part as long as they keep their looks and names keep their meaning. -/
theorem Stands.keeps (ht : Table.Registered t) (h : e.Stands t n) (hk : t.Keeps u)
    (hw : e.All Atom.Worded) (hl : ∀ i < n + e.size, u.graph.look i = t.graph.look i) :
    e.Stands u n := by
  induction e generalizing n with
  | empty => exact (hl n (by simp [size])).trans h
  | atom a => exact Atom.Stands.keeps ht h hk hw (hl n (by simp [size]))
  | seq e f ihe ihf =>
    simp only [size] at hl
    exact ⟨ihe h.1 hw.1 fun i hi => hl i (by omega), ihf h.2 hw.2 fun i hi => hl i (by omega)⟩
  | alt e f ihe ihf =>
    have hle : e.size + f.size ≤ (alt e f).size := by simp [size]
    refine ⟨ihe h.1 hw.1 fun i hi => hl i (by omega), ihf h.2.1 hw.2 fun i hi => hl i (by omega),
      fun i hi hi' => ?_⟩
    rw [hl i hi']
    exact h.2.2 i hi hi'
  | group b e ih =>
    have hle : e.size ≤ (group b e).size := by cases b <;> simp [size]
    refine ⟨ih h.1 hw fun i hi => hl i (by omega), ?_, ?_⟩
    · rintro rfl
      rw [hl _ (by simp [size])]
      exact h.2.1 rfl
    · rintro rfl
      rw [hl _ (by simp [size])]
      exact h.2.2 rfl

end Expr

/-! ### Building -/

theorem Atom.Makes.look {t u : Table} {p : Piece} {s : Shape} (h : Atom.Makes t u p s) :
    ∀ i < t.graph.size, u.graph.look i = t.graph.look i := by
  intro i hi
  simp only [Graph.look, Graph.kind, h.built.adds.node i hi]

theorem Expr.Stands.onGraph {t : Table} {e : Expr Atom} {n : Nat} {g : Graph}
    (h : e.Stands t n) (ht : Table.Registered t) (hw : e.All Atom.Worded)
    (hl : ∀ i < n + e.size, g.look i = t.graph.look i) : e.Stands { t with graph := g } n :=
  h.keeps ht (.onGraph t g) hw hl

namespace Atom

variable {t : Table} {k : NodeKind} {line : Nat}

theorem look_addNode : (t.addNode k line).1.graph.look t.graph.size = ⟨k.bare, line, none⟩ := by
  simp [Table.addNode, Graph.single, Graph.look_add]

theorem look_spanned (span : Option Span) :
    (spanned t k line span).1.graph.look t.graph.size = ⟨k.bare, line, span⟩ := by
  simp [spanned, Table.addNode, Table.onGraph, Graph.single, Graph.look, Graph.kind,
    Graph.setSpan, Graph.node_modify, Graph.node_add]

theorem keeps_spanned (t : Table) (k : NodeKind) (line : Nat) (span : Option Span) :
    t.Keeps (spanned t k line span).1 := .onGraph t _

theorem bare_nodeKind (kind : SymbolKind) (weak : Bool) (name : Token) (s : SymbolId) :
    (nodeKind kind weak name s).value.bare = (nodeKind kind weak name s).value := by
  cases kind <;> cases weak <;> rfl

/-- An atom becomes a node that stands for it. -/
theorem stands_build (ht : Table.Registered t) (a : Atom) (ha : a.Worded) :
    t.Keeps (build t a).value.1 ∧ a.Stands (build t a).value.1 t.graph.size := by
  cases a with
  | symbol weak name attributes =>
    obtain ⟨hk, hm⟩ := Table.keeps_used ht ha
    obtain ⟨hc, -, hg⟩ := continues_used ht name
    simp only [build]
    rw [value_buildSymbol]
    generalize used t name = r at hk hm hc hg
    have hr := hc.registered ht
    have hs : (symbol weak name attributes).Stands (spanned r.1
        (nodeKind (r.1.symbol r.2).kind weak name r.2).value name.line
          (attributes.map Token.attributesSpan)).1 t.graph.size :=
      ⟨r.2, hm, by rw [← hg, look_spanned, bare_nodeKind]; rfl⟩
    have hk' := hk.trans (keeps_spanned r.1 (nodeKind (r.1.symbol r.2).kind weak name r.2).value
      name.line (attributes.map Token.attributesSpan))
    have hq : Table.Registered (spanned r.1 (nodeKind (r.1.symbol r.2).kind weak name r.2).value
        name.line (attributes.map Token.attributesSpan)).1 :=
      hr.of_same ⟨rfl, rfl, rfl, rfl, rfl⟩
    dsimp only
    split
    · exact ⟨hk', hs⟩
    · have hmod := Table.Keeps.modifySymbol (spanned r.1
        (nodeKind (r.1.symbol r.2).kind weak name r.2).value name.line
          (attributes.map Token.attributesSpan)).1 r.2
        (f := fun s => { s with attributes := attributes.map Token.attributesSpan })
        (fun _ => rfl) fun _ => rfl
      exact ⟨hk'.trans hmod, hs.keeps hq hmod ha rfl⟩
  | any a => exact ⟨.onGraph t _, look_addNode⟩
  | sync a => exact ⟨.onGraph t _, look_addNode⟩
  | action a => exact ⟨.onGraph t _, look_spanned _⟩
  | resolver a => exact ⟨.onGraph t _, look_spanned _⟩

end Atom

namespace Expr

open Table Atom

variable {t : Table}

/-- What is new when an alternative has been added, be it the second one or a further one. -/
theorem exists_addAlternative (t : Table) (p q : Piece) (further : Bool) :
    ∃ g, ((if further then (t, p) else t.onPiece (·.firstAlternative p)).1.onPiece (·.alternative
        (if further then (t, p) else t.onPiece (·.firstAlternative p)).2 q)).1 =
          { t with graph := g } ∧ (∀ i < t.graph.size, g.look i = t.graph.look i) ∧
      ∀ i, t.graph.size ≤ i → i < t.graph.size + (if further then 1 else 2) →
        (g.look i).kind = .alt 0 none := by
  cases further with
  | true =>
    simp only [if_true, fst_onPiece]
    refine ⟨_, rfl, fun i hi => ?_, fun i hi hi' => ?_⟩
    · rw [Graph.look_alternative, if_neg hi.ne]
    · rw [Graph.look_alternative, if_pos (Nat.le_antisymm (Nat.le_of_lt_succ hi') hi)]
  | false =>
    have hg := @Graph.size_firstAlternative t.graph p
    simp only [Bool.false_eq_true, if_false, fst_onPiece, snd_onPiece]
    refine ⟨_, rfl, fun i hi => ?_, fun i hi hi' => ?_⟩
    · have hlt : i < (t.graph.firstAlternative p).1.size := hg ▸ Nat.lt_succ_of_lt hi
      rw [Graph.look_alternative, if_neg hlt.ne, Graph.look_firstAlternative, if_neg hi.ne]
    · rw [Graph.look_alternative, hg]
      split
      · rfl
      · rename_i hne
        have hlt : i < t.graph.size + 1 := Nat.lt_of_le_of_ne (Nat.le_of_lt_succ hi') hne
        rw [Graph.look_firstAlternative, if_pos (Nat.le_antisymm (Nat.le_of_lt_succ hlt) hi)]

/-- The nodes of an expression stand for its parts once it has been built. -/
theorem stands_build (e : Expr Atom) (ht : Registered t) (hk : ∀ i, t.Allows (t.graph.kind i))
    (hw : e.All Atom.Worded) :
    t.Keeps (e.build Atom.build t).value.1 ∧
      e.Stands (e.build Atom.build t).value.1 t.graph.size := by
  induction e generalizing t with
  | empty => exact ⟨.onGraph t _, look_addNode⟩
  | atom a => exact Atom.stands_build ht a hw
  | seq e f ihe ihf =>
    obtain ⟨he, hes⟩ := ihe ht hk hw.1
    obtain ⟨hm, -⟩ := makes_build e ht hk
    have hu := hm.continues.registered ht
    obtain ⟨hf, hfs⟩ := ihf hu (hm.allows ht hk) hw.2
    obtain ⟨hmf, -⟩ := makes_build f hu (hm.allows ht hk)
    have hsize := size_of_makes hm
    refine ⟨(he.trans hf).trans (.onGraph _ _), ?_, ?_⟩
    · refine (hes.keeps hu hf hw.1 fun i hi => hmf.look i (hsize ▸ hi)).onGraph
        (hmf.continues.registered hu) hw.1 fun i _ => Graph.look_sequence
    · rw [hsize] at hfs
      exact hfs.onGraph (hmf.continues.registered hu) hw.2 fun i _ => Graph.look_sequence
  | alt e f ihe ihf =>
    obtain ⟨he, hes⟩ := ihe ht hk hw.1
    obtain ⟨hm, -⟩ := makes_build e ht hk
    have hu := hm.continues.registered ht
    obtain ⟨hf, hfs⟩ := ihf hu (hm.allows ht hk) hw.2
    obtain ⟨hmf, -⟩ := makes_build f hu (hm.allows ht hk)
    have hv := hmf.continues.registered hu
    have hsize := size_of_makes hm
    have hsize' := size_of_makes hmf
    have hes' := hes.keeps hu hf hw.1 fun i hi => hmf.look i (hsize ▸ hi)
    rw [hsize] at hfs hsize'
    obtain ⟨g, hg, hold, hnew⟩ := exists_addAlternative
      (f.build Atom.build (e.build Atom.build t).value.1).value.1 (e.build Atom.build t).value.2
      (f.build Atom.build (e.build Atom.build t).value.1).value.2 e.isAlt
    simp only [build, Noted.value_bind, Noted.value_pure, hg]
    rw [hsize'] at hold hnew
    refine ⟨(he.trans hf).trans (.onGraph _ _), hes'.onGraph hv hw.1 fun i hi => hold i (by omega),
      hfs.onGraph hv hw.2 hold, fun i hi hi' => hnew i hi ?_⟩
    rw [size] at hi'
    omega
  | group b e ih =>
    obtain ⟨he, hes⟩ := ih ht hk hw
    obtain ⟨hm, -⟩ := makes_build e ht hk
    have hsize := size_of_makes hm
    have hu := hm.continues.registered ht
    simp only [build, Noted.value_bind, Noted.value_pure]
    generalize (e.build Atom.build t).value = r at he hes hm hsize hu
    cases b with
    | round => exact ⟨he, hes, by simp, by simp⟩
    | square =>
      simp only [wrap, fst_onPiece]
      refine ⟨he.trans (.onGraph _ _), hes.onGraph hu hw fun i hi => ?_, fun _ => ?_, by simp⟩
      · rw [← hsize] at hi
        rw [Graph.look_option, if_neg hi.ne]
      · rw [Graph.look_option, if_pos hsize.symm]
    | curly =>
      simp only [wrap, fst_onPiece]
      refine ⟨he.trans (.onGraph _ _), hes.onGraph hu hw fun i hi => ?_, by simp, fun _ => ?_⟩
      · rw [← hsize] at hi
        rw [Graph.look_iteration, if_neg hi.ne]
      · rw [Graph.look_iteration, if_pos hsize.symm]
    | context =>
      refine ⟨he.trans (.onGraph _ _), hes.onGraph hu hw fun i hi => ?_, by simp, by simp⟩
      have hin (i : NodeId) : (r.1.graph.kind i).inContext = r.1.graph.kind i :=
        (hm.allows ht hk i).inContext
      exact congrArg (·.look i) (Graph.markContextFrom_eq hin _ _)

end Expr

end Lookahead
