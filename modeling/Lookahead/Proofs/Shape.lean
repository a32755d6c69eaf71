import Lookahead.Graph
import Mathlib.Data.Finset.Card

/-!
# The nodes of a group as a tree

A graph is an array whose nodes refer to each other; a `Shape` is the tree of the nodes that a walk
through one group meets. `Shape.Fits` says that the links of a graph are those of a tree: contents
and further alternatives are entered where the tree says, and every end of a group leads to where
the group is left. A group under construction fits as well, with no condition on what its exits
lead to; giving them all the same successor closes it (`Fits.retarget`).
-/

namespace Lookahead

namespace NodeKind

/-- A kind of node without the set that belongs to it. -/
def outline : NodeKind → NodeKind
  | any _ => any default
  | sync _ => sync default
  | k => k

theorem outline_eq_alt {k : NodeKind} {s : NodeId} {d : Option NodeId} :
    k.outline = alt s d ↔ k = alt s d := by
  cases k <;> simp [outline]

theorem outline_eq_any {k : NodeKind} : k.outline = any default ↔ ∃ set, k = any set := by
  cases k <;> simp [outline]

/-- Kinds with the same outline differ at most in their sets. -/
theorem outline_cases {k l : NodeKind} (h : k.outline = l.outline) :
    k = l ∨ (∃ x y, k = .any x ∧ l = .any y) ∨ ∃ x y, k = .sync x ∧ l = .sync y := by
  cases k <;> cases l <;> first | exact .inl h | cases h
  · exact .inr (.inl ⟨_, _, rfl, rfl⟩)
  · exact .inr (.inr ⟨_, _, rfl, rfl⟩)

end NodeKind

/-- The list `L` of nodes is what following `step` from `p` meets. -/
def Graph.Chain (step : NodeId → Option NodeId) : Option NodeId → List NodeId → Prop
  | p, [] => p = none
  | p, i :: L => p = some i ∧ Chain step (step i) L

/-- A node, its content, the alternatives behind it, and the rest of the group. `loop` tells
whether the content leads back to the node. -/
inductive Shape where
  | nil
  | node (i : NodeId) (loop : Bool) (body others rest : Shape)
deriving Inhabited

namespace Shape

def isNil : Shape → Bool
  | nil => true
  | node .. => false

/-- Where a walk starts. -/
def entry : Shape → Option NodeId
  | nil => none
  | node i .. => some i

/-- The last node of the group itself, not of a group inside. -/
def last : Shape → Option NodeId
  | nil => none
  | node i _ _ _ r => if r.isNil then some i else r.last

def nodes : Shape → List NodeId
  | nil => []
  | node i _ b o r => i :: (b.nodes ++ (o.nodes ++ r.nodes))

/-- The nodes from which the group is left, its last node first. An iteration is left through
itself only. -/
def exits : Shape → List NodeId
  | nil => []
  | node i loop b o r =>
    if r.isNil then i :: ((if loop then [] else b.exits) ++ o.exits) else r.exits

/-- The condition on what follows a node, given the rest of its group and the condition on what
follows the group. -/
def after (E : Option NodeId → Prop) (r : Shape) : Option NodeId → Prop :=
  if r.isNil then E else (· = r.entry)

/-- Either nothing, or an alternative that ends its group. -/
def IsOther (g : Graph) : Shape → Prop
  | nil => True
  | node j _ _ _ r => r = nil ∧ ∃ s d, g.kind j = .alt s d

/-- A node of kind `k` refers to its content and to the alternatives behind it. -/
def Refers (g : Graph) (k : NodeKind) (loop : Bool) (b o : Shape) : Prop :=
  match k with
  | .opt s => loop = false ∧ b.entry = some s ∧ o = nil
  | .iter s => loop = true ∧ b.entry = some s ∧ o = nil
  | .alt s d => loop = false ∧ b.entry = some s ∧ o.entry = d ∧ o.IsOther g
  | _ => loop = false ∧ b = nil ∧ o = nil

/-- A node leads to the rest of its group, and is marked if it ends a marked group. -/
structure Leads (g : Graph) (E : Option NodeId → Prop) (up : Bool) (i : NodeId) (r : Shape) :
    Prop where
  next : r.after E (g.next i)
  up : (g.node i).up = (r.isNil && up)

/-- The links of the graph are those of the tree. What follows the group meets `E`, and `up` tells
whether its last node is marked. -/
def Fits (g : Graph) (E : Option NodeId → Prop) (up : Bool) : Shape → Prop
  | nil => True
  | node i loop b o r =>
    Refers g (g.kind i) loop b o ∧ Leads g E up i r ∧
      b.Fits g (if loop then (· = some i) else r.after E) true ∧
      o.Fits g (r.after E) true ∧ r.Fits g E up

variable {g h : Graph} {E F : Option NodeId → Prop} {up vp loop : Bool} {s b o r : Shape}
  {i : NodeId}

@[simp] theorem isNil_iff : s.isNil = true ↔ s = nil := by
  cases s <;> simp [isNil]

theorem isNil_eq_false : s.isNil = false ↔ s ≠ nil := by
  cases s <;> simp [isNil]

theorem entry_eq_none : s.entry = none ↔ s = nil := by
  cases s <;> simp [entry]

@[simp] theorem after_nil : after E nil = E := rfl

theorem after_of_ne (hr : s ≠ nil) : after E s = (· = s.entry) := by
  simp [after, hr]

theorem mem_nodes_of_entry (hs : s.entry = some i) : i ∈ s.nodes := by
  cases s <;> simp_all [entry, nodes]

theorem exits_sublist : ∀ (s : Shape), s.exits.Sublist s.nodes
  | nil => .slnil
  | node i loop b o r => by
    simp only [exits, nodes]
    split
    · refine .cons_cons i ?_
      split
      · rw [List.nil_append]
        exact ((exits_sublist o).trans (List.sublist_append_left ..)).trans
          (List.sublist_append_right ..)
      · exact (exits_sublist b).append
          ((exits_sublist o).trans (List.sublist_append_left ..))
    · exact .cons i (((exits_sublist r).trans (List.sublist_append_right ..)).trans
        (List.sublist_append_right ..))

theorem exits_subset (s : Shape) : ∀ i ∈ s.exits, i ∈ s.nodes :=
  s.exits_sublist.subset

theorem nodup_node {j : NodeId} : (node j loop b o r).nodes.Nodup ↔
    j ∉ b.nodes ∧ j ∉ o.nodes ∧ j ∉ r.nodes ∧ b.nodes.Nodup ∧ o.nodes.Nodup ∧ r.nodes.Nodup ∧
      b.nodes.Disjoint o.nodes ∧ b.nodes.Disjoint r.nodes ∧ o.nodes.Disjoint r.nodes := by
  simp only [nodes, List.nodup_cons, List.mem_append, List.nodup_append, List.Disjoint]
  grind

/-- The last node is the first of the exits. -/
theorem head_exits : ∀ (s : Shape), s.exits.head? = s.last
  | nil => rfl
  | node i loop b o r => by
    simp only [exits, last]
    split
    · rfl
    · exact head_exits r

theorem mem_exits_of_last (hs : s.last = some i) : i ∈ s.exits := by
  rw [← head_exits] at hs
  exact List.mem_of_mem_head? hs

/-! ### What a tree requires of a graph -/

theorem Leads.of_nil (hl : Leads g E up i nil) : E (g.next i) ∧ (g.node i).up = up :=
  ⟨hl.next, by simpa [isNil] using hl.up⟩

theorem Leads.of_ne (hl : Leads g E up i r) (hr : r ≠ nil) :
    g.next i = r.entry ∧ (g.node i).up = false := by
  refine ⟨by simpa [after_of_ne hr] using hl.next, ?_⟩
  rw [hl.up, isNil_eq_false.mpr hr, Bool.false_and]

/-- The exits meet the condition on what follows the group. -/
theorem Fits.next_of_mem_exits (hs : s.Fits g E up) : ∀ i ∈ s.exits, E (g.next i) := by
  induction s generalizing E up with
  | nil => simp [exits]
  | node j loop b o r ihb iho ihr =>
    obtain ⟨-, hl, hb, ho, hr⟩ := hs
    intro i hi
    simp only [exits] at hi
    split at hi
    · rename_i hn
      rw [isNil_iff] at hn
      subst hn
      simp only [after_nil] at hb ho
      simp only [List.mem_cons, List.mem_append] at hi
      rcases hi with rfl | hi | hi
      · exact hl.of_nil.1
      · cases loop
        · exact ihb (by simpa using hb) i (by simpa using hi)
        · simp at hi
      · exact iho ho i hi
    · exact ihr hr i hi

theorem IsOther.congr (ho : o.IsOther g)
    (hk : ∀ i ∈ o.nodes, (h.kind i).outline = (g.kind i).outline) : o.IsOther h := by
  cases o with
  | nil => trivial
  | node j l b o r =>
    obtain ⟨hn, s, d, hj⟩ := ho
    have hkj := hk j (by simp [nodes])
    rw [hj] at hkj
    exact ⟨hn, s, d, NodeKind.outline_eq_alt.mp hkj⟩

theorem refers_outline {k : NodeKind} : Refers g k.outline loop b o ↔ Refers g k loop b o := by
  cases k <;> exact Iff.rfl

theorem Refers.congr {k l : NodeKind} (hr : Refers g k loop b o) (hl : l.outline = k.outline)
    (hk : ∀ i ∈ o.nodes, (h.kind i).outline = (g.kind i).outline) : Refers h l loop b o := by
  rw [← refers_outline, hl, refers_outline]
  cases k <;> try exact hr
  obtain ⟨h1, h2, h3, h4⟩ := hr
  exact ⟨h1, h2, h3, h4.congr hk⟩

/-- A tree fits where its nodes have the same links. -/
theorem Fits.congr (hs : s.Fits g E up)
    (hk : ∀ i ∈ s.nodes, (h.kind i).outline = (g.kind i).outline)
    (hn : ∀ i ∈ s.nodes, h.next i = g.next i)
    (hu : ∀ i ∈ s.nodes, (h.node i).up = (g.node i).up) : s.Fits h E up := by
  induction s generalizing E up with
  | nil => trivial
  | node j loop b o r ihb iho ihr =>
    obtain ⟨hf, hl, hb, ho, hr⟩ := hs
    simp only [nodes, List.mem_cons, List.mem_append] at hk hn hu
    refine ⟨hf.congr (hk j (by simp)) fun i hi => hk i (by simp [hi]), ⟨?_, ?_⟩, ?_, ?_, ?_⟩
    · rw [hn j (by simp)]
      exact hl.next
    · rw [hu j (by simp)]
      exact hl.up
    · exact ihb hb (fun i hi => hk i (by simp [hi])) (fun i hi => hn i (by simp [hi]))
        fun i hi => hu i (by simp [hi])
    · exact iho ho (fun i hi => hk i (by simp [hi])) (fun i hi => hn i (by simp [hi]))
        fun i hi => hu i (by simp [hi])
    · exact ihr hr (fun i hi => hk i (by simp [hi])) (fun i hi => hn i (by simp [hi]))
        fun i hi => hu i (by simp [hi])

theorem Fits.up_of_last (hs : s.Fits g E up) (hi : s.last = some i) : (g.node i).up = up := by
  induction s generalizing E up with
  | nil => simp [last] at hi
  | node j loop b o r _ _ ihr =>
    obtain ⟨-, hl, -, -, hr⟩ := hs
    simp only [last] at hi
    split at hi
    · rename_i hn
      rw [isNil_iff] at hn
      subst hn
      cases hi
      exact hl.of_nil.2
    · exact ihr hr hi

/-- A tree still fits where the kinds are kept, and also the links and marks of all nodes but those
by which the group is left. -/
theorem Fits.retarget (hs : s.Fits g E up) (hd : s.nodes.Nodup)
    (hk : ∀ i ∈ s.nodes, (h.kind i).outline = (g.kind i).outline)
    (hn : ∀ i ∈ s.nodes, i ∉ s.exits → h.next i = g.next i)
    (hx : ∀ i ∈ s.exits, F (h.next i))
    (hu : ∀ i ∈ s.nodes, s.last ≠ some i → (h.node i).up = (g.node i).up)
    (hl : ∀ i, s.last = some i → (h.node i).up = vp) : s.Fits h F vp := by
  induction s generalizing E F up vp with
  | nil => trivial
  | node j loop b o r ihb iho ihr =>
    obtain ⟨hf, hj, hb, ho, hr⟩ := hs
    have hkb : ∀ i ∈ b.nodes, (h.kind i).outline = (g.kind i).outline :=
      fun i hi => hk i (by simp [nodes, hi])
    have hko : ∀ i ∈ o.nodes, (h.kind i).outline = (g.kind i).outline :=
      fun i hi => hk i (by simp [nodes, hi])
    have hf' : Refers h (h.kind j) loop b o := hf.congr (hk j (by simp [nodes])) hko
    obtain ⟨hjb, hjo, hjr, hdb, hdo, hdr, hbo, hbr, hor⟩ := nodup_node.mp hd
    by_cases hrn : r = nil
    · subst hrn
      simp only [exits, last, isNil, if_true] at hn hx hu hl
      have hne : ∀ i, i ∈ b.nodes ∨ i ∈ o.nodes → (some j : Option NodeId) ≠ some i := by
        rintro i hi h
        cases h
        exact hi.elim hjb hjo
      have hub : ∀ i ∈ b.nodes, (h.node i).up = (g.node i).up :=
        fun i hi => hu i (by simp [nodes, hi]) (hne i (.inl hi))
      have huo : ∀ i ∈ o.nodes, (h.node i).up = (g.node i).up :=
        fun i hi => hu i (by simp [nodes, hi]) (hne i (.inr hi))
      refine ⟨hf', ⟨hx j (by simp), by simpa [isNil] using hl j rfl⟩, ?_, ?_, trivial⟩
      · cases loop with
        | true =>
          refine hb.congr hkb (fun i hi => hn i (by simp [nodes, hi]) ?_) hub
          simp only [if_true, List.nil_append, List.mem_cons, not_or]
          exact ⟨fun h => hjb (h ▸ hi), fun h => hbo hi (exits_subset o i h)⟩
        | false =>
          refine ihb hb hdb hkb (fun i hi hni => hn i (by simp [nodes, hi]) ?_)
            (fun i hi => hx i (by simp [hi])) (fun i hi _ => hub i hi)
            fun i hi => (hub i (exits_subset b i (mem_exits_of_last hi))).trans (hb.up_of_last hi)
          simp only [Bool.false_eq_true, if_false, List.mem_cons, List.mem_append, not_or]
          exact ⟨fun h => hjb (h ▸ hi), hni, fun h => hbo hi (exits_subset o i h)⟩
      · refine iho ho hdo hko (fun i hi hni => hn i (by simp [nodes, hi]) ?_)
          (fun i hi => hx i (by simp [hi])) (fun i hi _ => huo i hi)
          fun i hi => (huo i (exits_subset o i (mem_exits_of_last hi))).trans (ho.up_of_last hi)
        simp only [List.mem_cons, List.mem_append, not_or]
        refine ⟨fun h => hjo (h ▸ hi), fun h => ?_, hni⟩
        split at h
        · simp at h
        · exact hbo (exits_subset b i h) hi
    · have hxe : (node j loop b o r).exits = r.exits := by simp [exits, hrn]
      have hle : (node j loop b o r).last = r.last := by simp [last, hrn]
      rw [hxe] at hn hx
      rw [hle] at hu hl
      have hout : ∀ i, i ∉ r.nodes → i ∉ r.exits ∧ r.last ≠ some i := fun i hi =>
        ⟨fun h => hi (exits_subset r i h), fun h => hi (exits_subset r i (mem_exits_of_last h))⟩
      have hnr : ∀ i, i ∈ (node j loop b o r).nodes → i ∉ r.nodes →
          h.next i = g.next i ∧ (h.node i).up = (g.node i).up := fun i hi hr =>
        ⟨hn i hi (hout i hr).1, hu i hi (hout i hr).2⟩
      have hjs := hnr j (by simp [nodes]) hjr
      have hbs : ∀ i ∈ b.nodes, h.next i = g.next i ∧ (h.node i).up = (g.node i).up :=
        fun i hi => hnr i (by simp [nodes, hi]) (hbr hi)
      have hos : ∀ i ∈ o.nodes, h.next i = g.next i ∧ (h.node i).up = (g.node i).up :=
        fun i hi => hnr i (by simp [nodes, hi]) (hor hi)
      have hrs : r.Fits h F vp := ihr hr hdr (fun i hi => hk i (by simp [nodes, hi]))
        (fun i hi => hn i (by simp [nodes, hi])) hx (fun i hi => hu i (by simp [nodes, hi])) hl
      have hbs' := hb.congr hkb (fun i hi => (hbs i hi).1) fun i hi => (hbs i hi).2
      have hos' := ho.congr hko (fun i hi => (hos i hi).1) fun i hi => (hos i hi).2
      rw [after_of_ne hrn] at hbs' hos'
      refine ⟨hf', ⟨?_, ?_⟩, by rwa [after_of_ne hrn], by rwa [after_of_ne hrn], hrs⟩
      · rw [after_of_ne hrn, hjs.1]
        exact (hj.of_ne hrn).1
      · rw [hjs.2, (hj.of_ne hrn).2, isNil_eq_false.mpr hrn, Bool.false_and]

/-! ### Sequences -/

/-- A group with another one behind it. -/
def append : Shape → Shape → Shape
  | nil, t => t
  | node i l b o r, t => node i l b o (r.append t)

theorem append_nil (s : Shape) : s.append nil = s := by
  induction s with
  | nil => rfl
  | node i l b o r _ _ ih => rw [append, ih]

theorem append_assoc (s t x : Shape) : (s.append t).append x = s.append (t.append x) := by
  induction s with
  | nil => rfl
  | node i l b o r _ _ ih => rw [append, append, append, ih]

theorem nodes_append (s t : Shape) : (s.append t).nodes = s.nodes ++ t.nodes := by
  induction s with
  | nil => rfl
  | node i l b o r _ _ ih => simp [append, nodes, ih]

theorem entry_append (hs : s ≠ nil) (t : Shape) : (s.append t).entry = s.entry := by
  cases s with
  | nil => exact absurd rfl hs
  | node i l b o r => rfl

theorem append_ne_nil {t : Shape} (ht : t ≠ nil) : s.append t ≠ nil := by
  cases s <;> simp_all [append]

theorem exits_append {t : Shape} (ht : t ≠ nil) : (s.append t).exits = t.exits := by
  induction s with
  | nil => rfl
  | node i l b o r _ _ ih =>
    rw [append, exits, if_neg (by simpa using append_ne_nil ht), ih]

theorem Fits.append {t : Shape} (ht : t ≠ nil) (hs : s.Fits g (· = t.entry) false)
    (hf : t.Fits g E up) : (s.append t).Fits g E up := by
  induction s with
  | nil => exact hf
  | node i l b o r _ _ ih =>
    obtain ⟨h1, h2, h3, h4, h5⟩ := hs
    have hne : r.append t ≠ nil := append_ne_nil ht
    have hafter : after E (r.append t) = after (· = t.entry) r := by
      rw [after_of_ne hne]
      by_cases hr : r = nil
      · subst hr
        rfl
      · rw [after_of_ne hr, entry_append hr]
    refine ⟨h1, ⟨?_, ?_⟩, by rwa [hafter], by rwa [hafter], ih h5⟩
    · rw [hafter]
      exact h2.next
    · rw [h2.up, isNil_eq_false.mpr hne, Bool.and_false, Bool.false_and]

/-- The next `n` nodes from `i` on, one behind the other. -/
def stretch (i : NodeId) : (n : Nat) → Shape
  | 0 => nil
  | n + 1 => node i false nil nil (stretch (i + 1) n)

/-! ### Alternatives -/

/-- A group of alternatives with another one behind them. -/
def addOther : Shape → Shape → Shape
  | nil, x => x
  | node i l b o r, x => node i l b (o.addOther x) r

theorem IsOther.addOther {x : Shape} (ho : s.IsOther g) (hx : x.IsOther h)
    (hk : ∀ i ∈ s.nodes, ∀ c d, g.kind i = .alt c d → ∃ c d, h.kind i = .alt c d) :
    (s.addOther x).IsOther h := by
  cases s with
  | nil => exact hx
  | node i l b o r =>
    obtain ⟨rfl, c, d, hi⟩ := ho
    exact ⟨rfl, hk i (by simp [nodes]) c d hi⟩

/-- The nodes of a group of alternatives, one for each of them. -/
def heads : Shape → List NodeId
  | nil => []
  | node i _ _ o _ => i :: o.heads

theorem heads_ne_nil (hs : s ≠ nil) : s.heads ≠ [] := by
  cases s <;> simp_all [heads]

theorem heads_sublist (s : Shape) : s.heads.Sublist s.nodes := by
  induction s with
  | nil => exact .slnil
  | node i l b o r _ ih _ =>
    exact .cons_cons i ((ih.trans (List.sublist_append_left ..)).trans
      (List.sublist_append_right ..))

theorem nodes_addOther (s x : Shape) : (s.addOther x).nodes.Perm (s.nodes ++ x.nodes) := by
  induction s with
  | nil => exact .refl _
  | node i l b o r _ ih _ =>
    simp only [addOther, nodes, List.cons_append, List.append_assoc]
    refine .cons i (.append_left _ ?_)
    refine (ih.append_right _).trans ?_
    simp only [List.append_assoc]
    exact .append_left _ List.perm_append_comm

theorem entry_addOther (hs : s ≠ nil) (x : Shape) : (s.addOther x).entry = s.entry := by
  cases s with
  | nil => exact absurd rfl hs
  | node i l b o r => rfl

theorem Fits.exits_addOther (hs : s.Fits g E up) (ho : s.IsOther g) (x : Shape) :
    (s.addOther x).exits = s.exits ++ x.exits := by
  induction s generalizing E up with
  | nil => rfl
  | node i l b o r _ ih _ =>
    obtain ⟨rfl, a, d, hk⟩ := ho
    obtain ⟨hf, -, -, hfo, -⟩ := hs
    rw [hk] at hf
    simp [addOther, exits, isNil, ih hfo hf.2.2.2]

/-- The alternatives of a group are below each other. -/
theorem Fits.chain_heads (hs : s.Fits g E up) (ho : s.IsOther g) :
    Graph.Chain (fun j => (g.kind j).down?) s.entry s.heads := by
  induction s generalizing E up with
  | nil => rfl
  | node i l b o r _ ih _ =>
    obtain ⟨rfl, a, d, hk⟩ := ho
    obtain ⟨hf, -, -, hfo, -⟩ := hs
    rw [hk] at hf
    refine ⟨rfl, ?_⟩
    have := ih hfo hf.2.2.2
    rw [hf.2.2.1] at this
    simpa [hk, NodeKind.down?] using this

theorem Fits.kind_of_mem_heads (hs : s.Fits g E up) (ho : s.IsOther g) :
    ∀ i ∈ s.heads, ∃ c d, g.kind i = .alt c d := by
  induction s generalizing E up with
  | nil => simp [Shape.heads]
  | node i l b o r _ ih _ =>
    obtain ⟨rfl, c, d, hk⟩ := ho
    obtain ⟨hf, -, -, hfo, -⟩ := hs
    rw [hk] at hf
    intro j hj
    rcases List.mem_cons.mp hj with rfl | hj
    · exact ⟨c, d, hk⟩
    · exact ih hfo hf.2.2.2 j hj

/-- An alternative is added by letting the last one refer to it. -/
theorem Fits.addOther {x : Shape} (hs : s.Fits g E up) (ho : s.IsOther g) (hne : s.heads ≠ [])
    (hx : x.Fits g E true) (hxo : x.IsOther g) (hd : s.nodes.Nodup)
    (hdx : ∀ i ∈ s.nodes, i ∉ x.nodes)
    (hk : ∀ i, i ≠ s.heads.getLast hne → h.kind i = g.kind i)
    (hl : ∀ a d, g.kind (s.heads.getLast hne) = .alt a d →
      h.kind (s.heads.getLast hne) = .alt a x.entry)
    (hn : ∀ i, h.next i = g.next i) (hu : ∀ i, (h.node i).up = (g.node i).up) :
    (s.addOther x).Fits h E up := by
  induction s generalizing E up with
  | nil => exact absurd rfl hne
  | node i l b o r _ ih _ =>
    obtain ⟨rfl, a, d, hki⟩ := ho
    obtain ⟨hf, hj, hfb, hfo, -⟩ := hs
    rw [hki] at hf
    obtain ⟨rfl, hba, hod, hoo⟩ := hf
    simp only [after_nil, Bool.false_eq_true, if_false] at hfb hfo
    obtain ⟨hib, hio, -, -, hdo, -, hbo, -, -⟩ := nodup_node.mp hd
    have hlead : Leads h E up i nil := ⟨by rw [hn]; exact hj.next, by rw [hu]; exact hj.up⟩
    have keep : ∀ {y : Shape} {F vp}, y.Fits g F vp → (∀ k ∈ y.nodes, h.kind k = g.kind k) →
        y.Fits h F vp := fun hy hky =>
      hy.congr (fun k hk' => by rw [hky k hk']) (fun k _ => hn k) fun k _ => hu k
    by_cases hon : o = nil
    · subst hon
      rw [show (node i false b nil nil).heads.getLast hne = i from rfl] at hk hl
      have hkx : ∀ k ∈ x.nodes, h.kind k = g.kind k := fun k hkx =>
        hk k fun he => hdx i (by simp [nodes]) (he ▸ hkx)
      refine ⟨?_, hlead, keep hfb fun k hkb => hk k fun he => hib (he ▸ hkb), keep hx hkx, trivial⟩
      rw [show h.kind i = .alt a x.entry from hl a d hki]
      exact ⟨rfl, hba, rfl, hxo.congr fun k hk' => by rw [hkx k hk']⟩
    · have hne' : o.heads ≠ [] := heads_ne_nil hon
      have hlast : (node i false b o nil).heads.getLast hne = o.heads.getLast hne' :=
        List.getLast_cons hne'
      rw [hlast] at hk hl
      have hmem : o.heads.getLast hne' ∈ o.nodes := o.heads_sublist.subset (List.getLast_mem _)
      refine ⟨?_, hlead, keep hfb fun k hkb => hk k fun he => hbo hkb (he ▸ hmem), ?_, trivial⟩
      · rw [hk i fun he => hio (he ▸ hmem), hki]
        refine ⟨rfl, hba, by rw [entry_addOther hon, hod], ?_⟩
        cases o with
        | nil => exact absurd rfl hon
        | node j l' b' o' r' =>
          obtain ⟨hr, a', d', hkj⟩ := hoo
          refine ⟨hr, ?_⟩
          by_cases hjl : j = (node j l' b' o' r').heads.getLast hne'
          · refine ⟨a', x.entry, ?_⟩
            rw [hjl] at hkj ⊢
            exact hl a' d' hkj
          · exact ⟨a', d', by rw [hk j hjl, hkj]⟩
      · exact ih hfo hoo hne' hx hdo (fun k hk' => hdx k (by simp [nodes, hk'])) hk hl

end Shape

end Lookahead
