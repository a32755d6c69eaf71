import Lookahead.Proofs.Computed
import Mathlib.Logic.Relator

/-!
# Tables that mirror each other

Two tables mirror each other if their symbols correspond one to one, and the nodes of their
productions correspond so that links lead from corresponding nodes to corresponding nodes
(`Table.Mirrors`). Numbers of symbols and nodes do not matter, and neither does the order in which
they have been declared. What one of the tables spells and derives, the other does with the
corresponding symbols (`Table.Mirrors.spells`, `Table.Mirrors.derives`).
-/

namespace Lookahead

variable {S : SymbolId → SymbolId → Prop} {N : NodeId → NodeId → Prop}

/-- Kinds of nodes that refer to corresponding symbols and nodes. There are no wildcards, and the
sets of synchronisation points do not matter. -/
inductive NodeKind.Like (S : SymbolId → SymbolId → Prop) (N : NodeId → NodeId → Prop) :
    NodeKind → NodeKind → Prop
  | terminal {a b} (h : S a b) : Like S N (.terminal a) (.terminal b)
  | weak {a b} (h : S a b) : Like S N (.weak a) (.weak b)
  | nonterminal {a b} (h : S a b) : Like S N (.nonterminal a) (.nonterminal b)
  | empty : Like S N .empty .empty
  | sync (x y) : Like S N (.sync x) (.sync y)
  | action : Like S N .action .action
  | resolver : Like S N .resolver .resolver
  | alt {i j d e} (hs : N i j) (hd : Option.Rel N d e) : Like S N (.alt i d) (.alt j e)
  | iter {i j} (hs : N i j) : Like S N (.iter i) (.iter j)
  | opt {i j} (hs : N i j) : Like S N (.opt i) (.opt j)

/-- Letters that stand for corresponding symbols. -/
inductive Letter.Like (S : SymbolId → SymbolId → Prop) : Letter → Letter → Prop
  | terminal {a b} (h : S a b) : Like S (.terminal a) (.terminal b)
  | nonterminal {a b} (h : S a b) : Like S (.nonterminal a) (.nonterminal b)

/-- Parts that start at corresponding nodes. -/
inductive Part.Like (N : NodeId → NodeId → Prop) : Part → Part → Prop
  | node {i j} (h : N i j) : Like N (.node i) (.node j)
  | group {p q} (h : Option.Rel N p q) : Like N (.group p) (.group q)
  | rest {p q} (h : Option.Rel N p q) : Like N (.rest p) (.rest q)

abbrev Form.Like (S : SymbolId → SymbolId → Prop) : Form → Form → Prop :=
  List.Forall₂ (Letter.Like S)

theorem Form.Like.of_append {v w x : Form} (h : Form.Like S (v ++ w) x) :
    ∃ y z, x = y ++ z ∧ v.Like S y ∧ w.Like S z := by
  induction v generalizing x with
  | nil => exact ⟨[], x, rfl, .nil, h⟩
  | cons c v ih =>
    obtain _ | ⟨hc, h⟩ := h
    obtain ⟨y, z, rfl, hy, hz⟩ := ih h
    exact ⟨_ :: y, z, rfl, .cons hc hy, hz⟩

namespace Table

/-- The symbols of the tables correspond by `S`, and the nodes of their productions by `N`. -/
structure Mirrors (S : SymbolId → SymbolId → Prop) (N : NodeId → NodeId → Prop) (t u : Table) :
    Prop where
  unique : Relator.BiUnique S
  lt : ∀ a b, S a b → a < t.symbols.size ∧ b < u.symbols.size
  kind : ∀ a b, S a b → (u.symbol b).kind = (t.symbol a).kind
  name : ∀ a b, S a b → (u.symbol b).name = (t.symbol a).name
  named : ∀ a b, (t.symbol a).root.isSome = true → (u.symbol b).root.isSome = true →
    (u.symbol b).name = (t.symbol a).name → S a b
  root : ∀ a b, S a b → Option.Rel N (t.symbol a).root (u.symbol b).root
  left : ∀ a < t.symbols.size, (t.symbol a).kind ≠ .pragma → ∃ b, S a b
  right : ∀ b < u.symbols.size, (u.symbol b).kind ≠ .pragma → ∃ a, S a b
  node : ∀ i j, N i j → NodeKind.Like S N (t.graph.kind i) (u.graph.kind j)
  next : ∀ i j, N i j → Option.Rel N (t.graph.next i) (u.graph.next j)
  up : ∀ i j, N i j → (u.graph.node j).up = (t.graph.node i).up
  within : ∀ i j, N i j →
    ∃ a b, S a b ∧ (t.symbol a).kind = .nonterminal ∧ t.Within a i ∧ u.Within b j
  size : u.graph.size = t.graph.size
  start : Option.Rel S t.start u.start
  eof : S t.eof u.eof

end Table

/-! ### The other way round -/

theorem optionRel_flip {α β : Type} {R : α → β → Prop} {p : Option α} {q : Option β}
    (h : Option.Rel R p q) : Option.Rel (flip R) q p := by
  cases h with
  | some h => exact .some h
  | none => exact .none

theorem exists_of_optionRel {α β : Type} {R : α → β → Prop} {p : Option α} {q : Option β}
    (h : Option.Rel R p q) {a : α} (ha : p = some a) : ∃ b, q = some b ∧ R a b := by
  subst ha
  obtain hab | _ := h
  exact ⟨_, rfl, hab⟩

theorem NodeKind.Like.symm {k l : NodeKind} (h : k.Like S N l) : l.Like (flip S) (flip N) k := by
  cases h with
  | alt hs hd => exact .alt hs (optionRel_flip hd)
  | terminal h | weak h | nonterminal h | iter h | opt h => constructor; exact h
  | empty | sync | action | resolver => constructor

/-- What a kind of node is like. -/
theorem NodeKind.Like.exists_eq {k l : NodeKind} (h : k.Like S N l) : match k with
    | .terminal a => ∃ b, l = .terminal b ∧ S a b
    | .weak a => ∃ b, l = .weak b ∧ S a b
    | .nonterminal a => ∃ b, l = .nonterminal b ∧ S a b
    | .alt i d => ∃ j e, l = .alt j e ∧ N i j ∧ Option.Rel N d e
    | .iter i => ∃ j, l = .iter j ∧ N i j
    | .opt i => ∃ j, l = .opt j ∧ N i j
    | .sync _ => ∃ y, l = .sync y
    | .any _ | .pragma _ | .charClass _ _ | .char _ _ => False
    | k => l = k := by
  cases h <;> simp [*]

theorem NodeKind.Like.rel_sub {k l : NodeKind} (h : k.Like S N l) :
    Option.Rel N k.sub? l.sub? ∧ Option.Rel N k.down? l.down? := by
  cases h with
  | alt hs hd => exact ⟨.some hs, hd⟩
  | iter hs | opt hs => exact ⟨.some hs, .none⟩
  | _ => exact ⟨.none, .none⟩

/-- Sets do not matter. -/
theorem NodeKind.Like.outline {k l k' l' : NodeKind} (h : k.Like S N l)
    (hk : k'.outline = k.outline) (hl : l'.outline = l.outline) : k'.Like S N l' := by
  rcases outline_cases hk with rfl | ⟨x, y, -, rfl⟩ | ⟨x, y, rfl, rfl⟩
  · rcases outline_cases hl with rfl | ⟨x, y, -, rfl⟩ | ⟨x, y, rfl, rfl⟩
    · exact h
    · cases h
    · cases h
      exact .sync _ _
  · cases h
  · cases h
    rcases outline_cases hl with rfl | ⟨x, y, -, h⟩ | ⟨x, y, rfl, -⟩
    · exact .sync _ _
    · cases h
    · exact .sync _ _

theorem Table.Mirrors.symm {t u : Table} (h : Mirrors S N t u) : Mirrors (flip S) (flip N) u t where
  unique := ⟨fun _ _ _ ha hb => h.unique.2 ha hb, fun _ _ _ ha hb => h.unique.1 ha hb⟩
  lt a b hab := (h.lt b a hab).symm
  kind a b hab := (h.kind b a hab).symm
  name a b hab := (h.name b a hab).symm
  named a b ha hb hab := h.named b a hb ha hab.symm
  root a b hab := optionRel_flip (h.root b a hab)
  left := h.right
  right := h.left
  node i j hij := (h.node j i hij).symm
  next i j hij := optionRel_flip (h.next j i hij)
  up i j hij := (h.up j i hij).symm
  within i j hij := by
    obtain ⟨a, b, hab, ha, hi, hj⟩ := h.within j i hij
    exact ⟨b, a, hab, (h.kind a b hab).trans ha, hj, hi⟩
  size := h.size.symm
  start := optionRel_flip h.start
  eof := h.eof

namespace Table

variable {t u t' u' : Table} {a b : SymbolId} {i j : NodeId} {p q : Option NodeId} {v w : Form}
  {P Q : Part} (h : Mirrors S N t u)

/-! ### Symbols -/

section

include h

theorem Mirrors.listed (ht : Registered t) (hu : Registered u) (hab : S a b) {k : SymbolKind} :
    a ∈ t.listed k ↔ b ∈ u.listed k := by
  simp [ht.mem, hu.mem, h.kind a b hab, h.lt a b hab]

theorem Mirrors.exists_listed (ht : Registered t) (hu : Registered u) {k : SymbolKind}
    (hk : k ≠ .pragma) (ha : a ∈ t.listed k) : ∃ b ∈ u.listed k, S a b := by
  obtain ⟨hlt, hka⟩ := (ht.mem k a).mp ha
  obtain ⟨b, hab⟩ := h.left a hlt (hka ▸ hk)
  exact ⟨b, (h.listed ht hu hab).mp ha, hab⟩

/-! ### Nodes -/

/-- Mirroring is about what has been declared. -/
theorem Mirrors.of_same (ht : SameDeclared t t') (hu : SameDeclared u u') : Mirrors S N t' u' where
  unique := h.unique
  lt a b hab := by
    rw [ht.size, hu.size]
    exact h.lt a b hab
  kind a b hab := by rw [ht.kind, hu.kind, h.kind a b hab]
  name a b hab := by rw [ht.name, hu.name, h.name a b hab]
  named a b := by
    rw [ht.root, hu.root, ht.name, hu.name]
    exact h.named a b
  root a b hab := by
    rw [ht.root, hu.root]
    exact h.root a b hab
  left a := by
    rw [ht.size, ht.kind]
    exact h.left a
  right b := by
    rw [hu.size, hu.kind]
    exact h.right b
  node i j hij := (h.node i j hij).outline (ht.graph.kind i) (hu.graph.kind j)
  next i j hij := by
    rw [ht.graph.next, hu.graph.next]
    exact h.next i j hij
  up i j hij := by rw [ht.graph.up, hu.graph.up, h.up i j hij]
  within i j hij := by
    obtain ⟨a, b, hab, ha, hi, hj⟩ := h.within i j hij
    exact ⟨a, b, hab, (ht.kind a).trans ha, ht.toSameOutline.within hi, hu.toSameOutline.within hj⟩
  size := by rw [ht.graph.size, hu.graph.size, h.size]
  start := by
    rw [ht.start, hu.start]
    exact h.start
  eof := by
    rw [ht.eof, hu.eof]
    exact h.eof

theorem Mirrors.like (hij : N i j) {k : NodeKind} (hk : t.graph.kind i = k) :
    k.Like S N (u.graph.kind j) := hk ▸ h.node i j hij

/-- Corresponding productions have corresponding nodes. -/
theorem Mirrors.exists_within (hab : S a b) (hi : t.Within a i) : ∃ j, N i j ∧ u.Within b j := by
  induction hi with
  | root hr =>
    obtain ⟨j, hj, hij⟩ := exists_of_optionRel (h.root a b hab) hr
    exact ⟨j, hij, .root hj⟩
  | next _ hk ih =>
    obtain ⟨j, hij, hj⟩ := ih
    obtain ⟨l, hl, hkl⟩ := exists_of_optionRel (h.next _ _ hij) hk
    exact ⟨l, hkl, hj.next hl⟩
  | sub _ hk ih =>
    obtain ⟨j, hij, hj⟩ := ih
    obtain ⟨l, hl, hkl⟩ := exists_of_optionRel (h.node _ _ hij).rel_sub.1 hk
    exact ⟨l, hkl, hj.sub hl⟩
  | down _ hk ih =>
    obtain ⟨j, hij, hj⟩ := ih
    obtain ⟨l, hl, hkl⟩ := exists_of_optionRel (h.node _ _ hij).rel_sub.2 hk
    exact ⟨l, hkl, hj.down hl⟩

/-! ### What tables derive -/

/-- What a part spells, a corresponding part spells with corresponding symbols. -/
theorem Mirrors.spells (hw : t.Spells P w) (hPQ : P.Like N Q) : ∃ v, w.Like S v ∧ u.Spells Q v := by
  induction hw generalizing Q with
  | terminal hk =>
    obtain ⟨hij⟩ := hPQ
    obtain ⟨b, hb, hab⟩ := (h.like hij hk).exists_eq
    exact ⟨_, .cons (.terminal hab) .nil, .terminal hb⟩
  | weak hk =>
    obtain ⟨hij⟩ := hPQ
    obtain ⟨b, hb, hab⟩ := (h.like hij hk).exists_eq
    exact ⟨_, .cons (.terminal hab) .nil, .weak hb⟩
  | nonterminal hk =>
    obtain ⟨hij⟩ := hPQ
    obtain ⟨b, hb, hab⟩ := (h.like hij hk).exists_eq
    exact ⟨_, .cons (.nonterminal hab) .nil, .nonterminal hb⟩
  | any hk =>
    obtain ⟨hij⟩ := hPQ
    exact (h.like hij hk).exists_eq.elim
  | blank hk =>
    obtain ⟨hij⟩ := hPQ
    refine ⟨[], .nil, .blank ?_⟩
    have hlike := h.node _ _ hij
    generalize t.graph.kind _ = k at hlike hk
    generalize u.graph.kind _ = l at hlike
    cases hlike with
    | empty | sync | action | resolver => rfl
    | _ => cases hk
  | skip hk =>
    obtain ⟨hij⟩ := hPQ
    obtain ⟨s, hs, -⟩ := (h.like hij hk).exists_eq
    exact ⟨[], .nil, .skip hs⟩
  | content hk _ ih =>
    obtain ⟨hij⟩ := hPQ
    obtain ⟨s, hs, hss⟩ := (h.like hij hk).exists_eq
    obtain ⟨v, hv, hsp⟩ := ih (.group (.some hss))
    exact ⟨v, hv, .content hs hsp⟩
  | stop hk =>
    obtain ⟨hij⟩ := hPQ
    obtain ⟨s, hs, -⟩ := (h.like hij hk).exists_eq
    exact ⟨[], .nil, .stop hs⟩
  | again hk _ _ ihu ihv =>
    obtain ⟨hij⟩ := id hPQ
    obtain ⟨s, hs, hss⟩ := (h.like hij hk).exists_eq
    obtain ⟨x, hx, hsx⟩ := ihu (.group (.some hss))
    obtain ⟨y, hy, hsy⟩ := ihv hPQ
    exact ⟨x ++ y, List.rel_append hx hy, .again hs hsx hsy⟩
  | alternative hk _ ih =>
    obtain ⟨hij⟩ := hPQ
    obtain ⟨s, d, hs, hss, -⟩ := (h.like hij hk).exists_eq
    obtain ⟨v, hv, hsp⟩ := ih (.group (.some hss))
    exact ⟨v, hv, .alternative hs hsp⟩
  | other hk _ ih =>
    obtain ⟨hij⟩ := hPQ
    obtain ⟨s, d, hs, -, hd⟩ := (h.like hij hk).exists_eq
    cases hd with
    | some hd =>
      obtain ⟨v, hv, hsp⟩ := ih (.node hd)
      exact ⟨v, hv, .other hs hsp⟩
  | groupEnd =>
    obtain _ | ⟨_ | _⟩ := hPQ
    exact ⟨[], .nil, .groupEnd⟩
  | groupLast hup _ ih =>
    obtain _ | ⟨hij | _⟩ := hPQ
    obtain ⟨v, hv, hsp⟩ := ih (.node hij)
    exact ⟨v, hv, .groupLast ((h.up _ _ hij).trans hup) hsp⟩
  | groupStep hup _ _ ihu ihv =>
    obtain _ | ⟨hij | _⟩ := hPQ
    obtain ⟨x, hx, hsx⟩ := ihu (.node hij)
    obtain ⟨y, hy, hsy⟩ := ihv (.group (h.next _ _ hij))
    exact ⟨x ++ y, List.rel_append hx hy, .groupStep ((h.up _ _ hij).trans hup) hsx hsy⟩
  | restEnd =>
    obtain _ | _ | ⟨_ | _⟩ := hPQ
    exact ⟨[], .nil, .restEnd⟩
  | restStep _ _ ihu ihv =>
    obtain _ | _ | ⟨hij | _⟩ := hPQ
    obtain ⟨x, hx, hsx⟩ := ihu (.node hij)
    obtain ⟨y, hy, hsy⟩ := ihv (.rest (h.next _ _ hij))
    exact ⟨x ++ y, List.rel_append hx hy, .restStep hsx hsy⟩

theorem Mirrors.produces (hab : S a b) (hw : t.Produces a w) :
    ∃ v, w.Like S v ∧ u.Produces b v := by
  obtain ⟨r, hr, hspells⟩ := hw
  obtain ⟨r', hr', hrr⟩ := exists_of_optionRel (h.root a b hab) hr
  obtain ⟨v, hv, hspells⟩ := h.spells hspells (.rest (.some hrr))
  exact ⟨v, hv, r', hr', hspells⟩

theorem Mirrors.rewrites {x : Form} (hr : t.Rewrites v w) (hv : v.Like S x) :
    ∃ y, w.Like S y ∧ u.Rewrites x y := by
  obtain ⟨v₁, v₂, hw⟩ := hr
  obtain ⟨x₁, y₁, rfl, h₁, hrest⟩ := hv.of_append
  obtain _ | ⟨hl, h₂⟩ := hrest
  obtain _ | hab := hl
  obtain ⟨w', hw', hp⟩ := h.produces hab hw
  exact ⟨_, List.rel_append h₁ (List.rel_append hw' h₂), .intro x₁ _ hp⟩

/-- What a form derives, a corresponding form derives with corresponding symbols. -/
theorem Mirrors.derives {x : Form} (hd : t.Derives v w) (hv : v.Like S x) :
    ∃ y, w.Like S y ∧ u.Derives x y := by
  induction hd using Relation.ReflTransGen.head_induction_on generalizing x with
  | refl => exact ⟨x, hv, .refl x⟩
  | head hr _ ih =>
    obtain ⟨y, hy, hxy⟩ := h.rewrites hr hv
    obtain ⟨z, hz, hyz⟩ := ih hy
    exact ⟨z, hz, .head hxy hyz⟩

end

end Table

end Lookahead
