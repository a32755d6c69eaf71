import Lookahead.Proofs.HaltingDeclarations

/-!
# Building in any order

Pieces of graph are put together in any order, each of them used once (`Site.step`). A `Handle` has
with its piece the tree that its history makes of it. Whatever has been done, the open ends of each
tree are what its piece has on its list, no list runs into another one, and an operation gives a
successor to those ends only that it is there for (`Site.lists_of_run`).
-/

namespace Lookahead

/-! ### Where the nodes of a tree lead -/

namespace Shape

/-- Where each node leads, if the group leads to `p`. -/
def successors : (p : Option NodeId) → Shape → List (NodeId × Option NodeId)
  | _, nil => []
  | p, node i loop b o r =>
    let q := if r.isNil then p else r.entry
    (i, q) :: (b.successors (if loop then some i else q) ++ (o.successors q ++ r.successors p))

variable {g : Graph} {E : Option NodeId → Prop} {up : Bool} {s : Shape} {p q : Option NodeId}
  {i : NodeId}

/-- The exits are the nodes for which it is open where they lead. -/
theorem mem_exits_iff : i ∈ s.exits ∧ p = none ↔ (i, none) ∈ s.successors p := by
  induction s generalizing p with
  | nil => simp [exits, successors]
  | node j loop b o r ihb iho ihr =>
    simp only [exits, successors, List.mem_cons, List.mem_append, Prod.mk.injEq]
    by_cases hr : r = nil
    · subst hr
      rw [← ihb, ← iho]
      cases loop
      · simp only [isNil, if_true, List.mem_cons, List.mem_append, successors, List.not_mem_nil]
        grind
      · simp only [isNil, if_true, List.mem_cons, List.mem_append, successors, List.not_mem_nil]
        grind
    · have he : r.entry ≠ none := fun h => hr (entry_eq_none.mp h)
      rw [isNil_eq_false.mpr hr, ← ihb, ← iho, ← ihr]
      cases loop <;> simp [he, he.symm]

/-- The links of a graph that a tree fits are those of the tree, as far as they are not open. -/
theorem Fits.next_of_mem_successors (hs : s.Fits g E up) (hE : p = none ∨ ∀ q, E q → q = p)
    (hi : (i, q) ∈ s.successors p) (hq : q ≠ none) : g.next i = q := by
  induction s generalizing E up p with
  | nil => simp [successors] at hi
  | node j loop b o r ihb iho ihr =>
    obtain ⟨-, hl, hb, ho, hr⟩ := hs
    have hafter : (if r.isNil then p else r.entry) = none ∨
        ∀ q, r.after E q → q = if r.isNil then p else r.entry := by
      by_cases hn : r = nil
      · subst hn
        simpa [isNil] using hE
      · rw [after_of_ne hn, isNil_eq_false.mpr hn]
        exact .inr fun q h => h
    simp only [successors, List.mem_cons, List.mem_append, Prod.mk.injEq] at hi
    rcases hi with ⟨rfl, rfl⟩ | hi | hi | hi
    · exact (hafter.resolve_left hq) _ hl.next
    · refine ihb hb ?_ hi
      cases loop
      · simpa using hafter
      · exact .inr fun q h => h
    · exact iho ho hafter hi
    · exact ihr hr hE hi

theorem length_nodes_stretch (i : NodeId) (n : Nat) : (stretch i n).nodes.length = n := by
  induction n generalizing i with
  | zero => rfl
  | succ n ih => simp [stretch, nodes, ih]

end Shape

/-! ### Sites -/

/-- A piece in use. -/
structure Handle where
  piece : Piece
  /-- What has been built, from the operations that built it. -/
  tree : Shape
  /-- Whether it was made a group of alternatives, and has since been given further ones only. -/
  isGroup : Bool
deriving Inhabited

/-- An operation on pieces, which go by numbers. -/
inductive BuildStep where
  /-- Groups have operations of their own. -/
  | node (a : Nat) (k : NodeKind) (hk : k.sub? = none) (line : Nat)
  | literal (a : Nat) (spelling : List Char) (line : Nat)
  | firstAlternative (a : Nat)
  | alternative (a b : Nat)
  | sequence (a b : Nat)
  | iteration (a : Nat)
  | option (a : Nat)
  | finish (a : Nat)

/-- A table, and the pieces of its graph that are in use. -/
structure Site where
  table : Table
  handles : Nat → Option Handle := fun _ => none

namespace Site

abbrev graph (s : Site) : Graph := s.table.graph

def hold (s : Site) (a : Nat) (r : Table × Piece) (tree : Shape) (isGroup : Bool := false) : Site :=
  ⟨r.1, Function.update s.handles a (some ⟨r.2, tree, isGroup⟩)⟩

def drop (s : Site) (a : Nat) : Site := { s with handles := Function.update s.handles a none }

/-- A new piece has a number that is free. All others are in use; the second of two is used up, and
so is a piece that is finished. Alternatives are added to groups only. -/
def step (s : Site) : BuildStep → Option Site
  | .node a k _ line =>
    if (s.handles a).isSome then none
    else some (s.hold a (s.table.addNode k line) (.node s.graph.size false .nil .nil .nil))
  | .literal a spelling line =>
    let r := (s.table.addLiteralChars spelling line).value
    if (s.handles a).isSome then none
    else some (s.hold a r (.stretch s.graph.size (r.1.graph.size - s.graph.size)))
  | .firstAlternative a =>
    (s.handles a).map fun x => s.hold a (s.table.onPiece (·.firstAlternative x.piece))
      (.node s.graph.size false x.tree .nil .nil) true
  | .alternative a b =>
    match s.handles a, s.handles b with
    | some x, some y =>
      if a ≠ b ∧ x.isGroup then
        some ((s.drop b).hold a (s.table.onPiece (·.alternative x.piece y.piece))
          (x.tree.addOther (.node s.graph.size false y.tree .nil .nil)) true)
      else none
    | _, _ => none
  | .sequence a b =>
    match s.handles a, s.handles b with
    | some x, some y =>
      if a ≠ b then
        some ((s.drop b).hold a (s.table.onPiece (·.sequence x.piece y.piece))
          (x.tree.append y.tree))
      else none
    | _, _ => none
  | .iteration a =>
    (s.handles a).map fun x => s.hold a (s.table.onPiece (·.iteration x.piece))
      (.node s.graph.size true x.tree .nil .nil)
  | .option a =>
    (s.handles a).map fun x => s.hold a (s.table.onPiece (·.option x.piece))
      (.node s.graph.size false x.tree .nil .nil)
  | .finish a =>
    (s.handles a).map fun x => { s.drop a with table := s.table.onGraph (·.finish x.piece) }

/-- The operations one after the other, if each of them can be done. -/
def run (s : Site) (ops : List BuildStep) : Option Site := ops.foldlM step s

/-- Without any piece. -/
def start (t : Table) : Site := { table := t }

end Site

/-! ### What a step keeps -/

/-- The piece of the handle holds its tree. -/
structure Handle.Sound (g : Graph) (x : Handle) : Prop where
  piece : Graph.Open g x.piece x.tree
  group : x.isGroup = true → x.tree.IsOther g

/-- All pieces in use hold their trees, and no two trees have a node in common. -/
structure Site.Sound (s : Site) : Prop where
  handle : ∀ a x, s.handles a = some x → x.Sound s.graph
  disjoint : ∀ a b x y, a ≠ b → s.handles a = some x → s.handles b = some y →
    ∀ i ∈ x.tree.nodes, i ∉ y.tree.nodes

theorem Handle.Sound.congr {g h : Graph} {x : Handle} (hx : x.Sound g) (hs : g.size ≤ h.size)
    (hn : ∀ i ∈ x.tree.nodes, h.node i = g.node i) : x.Sound h where
  piece := hx.piece.congr hs hn
  group hg := (hx.group hg).congr fun i hi => by rw [Graph.kind, hn i hi, Graph.kind]

namespace Site

variable {s s' : Site} {a b : Nat} {x y : Handle} {r : Table × Piece} {tree : Shape}
  {isGroup : Bool}

@[simp] theorem graph_hold : (s.hold a r tree isGroup).graph = r.1.graph := rfl

@[simp] theorem graph_drop : (s.drop a).graph = s.graph := rfl

theorem handles_hold {c : Nat} : (s.hold a r tree isGroup).handles c =
    if c = a then some ⟨r.2, tree, isGroup⟩ else s.handles c :=
  Function.update_apply ..

theorem handles_drop {c : Nat} : (s.drop a).handles c = if c = a then none else s.handles c :=
  Function.update_apply ..

/-- The other pieces stay as they are where only nodes of the used ones change. -/
theorem Sound.change {L : List NodeId} {U : List Nat} (hs : s.Sound)
    (hsize : s.graph.size ≤ s'.graph.size)
    (hnode : ∀ i < s.graph.size, i ∉ L → s'.graph.node i = s.graph.node i)
    (hL : ∀ i ∈ L, ∃ c ∈ U, ∃ x, s.handles c = some x ∧ i ∈ x.tree.nodes)
    (hother : ∀ c ∉ U, s'.handles c = s.handles c)
    (hnew : ∀ c ∈ U, ∀ y, s'.handles c = some y → c = a ∧ y.Sound s'.graph ∧
      ∀ i ∈ y.tree.nodes, s.graph.size ≤ i ∨ i ∈ L) : s'.Sound := by
  -- the nodes of a piece that is not used are old, and none of those that change
  have hout (c : Nat) (x : Handle) (hc : c ∉ U) (hx : s.handles c = some x) (i : NodeId)
      (hi : i ∈ x.tree.nodes) : i < s.graph.size ∧ i ∉ L := by
    refine ⟨(hs.handle c x hx).piece.lt i hi, fun hiL => ?_⟩
    obtain ⟨d, hd, y, hy, hiy⟩ := hL i hiL
    exact hs.disjoint c d x y (fun h => hc (h ▸ hd)) hx hy i hi hiy
  have hapart (c d : Nat) (x y : Handle) (hc : c ∈ U) (hd : d ∉ U)
      (hx : s'.handles c = some x) (hy : s'.handles d = some y) (i : NodeId)
      (hix : i ∈ x.tree.nodes) (hiy : i ∈ y.tree.nodes) : False := by
    obtain ⟨hlt, hiL⟩ := hout d y hd (hother d hd ▸ hy) i hiy
    exact ((hnew c hc x hx).2.2 i hix).elim hlt.not_ge hiL
  refine ⟨fun c x hx => ?_, fun c d x y hcd hx hy i hix hiy => ?_⟩
  · by_cases hc : c ∈ U
    · exact (hnew c hc x hx).2.1
    · rw [hother c hc] at hx
      exact (hs.handle c x hx).congr hsize fun i hi =>
        hnode i (hout c x hc hx i hi).1 (hout c x hc hx i hi).2
  · by_cases hc : c ∈ U <;> by_cases hd : d ∈ U
    · exact hcd ((hnew c hc x hx).1.trans (hnew d hd y hy).1.symm)
    · exact hapart c d x y hc hd hx hy i hix hiy
    · exact hapart d c y x hd hc hy hx i hiy hix
    · rw [hother c hc] at hx
      rw [hother d hd] at hy
      exact hs.disjoint c d x y hcd hx hy i hix hiy

/-- A piece that is made from nothing. -/
theorem Sound.holdNew (hs : s.Sound) {Q : NodeKind → Prop}
    (hb : Graph.Built Q s.graph r.1.graph r.2 tree) : (s.hold a r tree).Sound := by
  refine hs.change (L := []) (U := [a]) (a := a) hb.adds.size_le (fun i hi _ => hb.adds.node i hi)
    nofun (fun c hc => ?_) fun c hc y hy => ?_
  · rw [handles_hold, if_neg (by simpa using hc)]
  · obtain rfl : c = a := by simpa using hc
    rw [handles_hold, if_pos rfl, Option.some.injEq] at hy
    subst hy
    exact ⟨rfl, ⟨hb.piece, nofun⟩, fun i hi => .inl ((hb.mem i).mp hi).1⟩

/-- A piece that is made from one other, by a change to that alone. -/
theorem Sound.holdOne (hs : s.Sound) (ha : s.handles a = some x)
    (hext : Graph.Extends s.graph r.1.graph x.tree.nodes)
    (hy : Handle.Sound r.1.graph ⟨r.2, tree, isGroup⟩)
    (hn : ∀ i ∈ tree.nodes, i = s.graph.size ∨ i ∈ x.tree.nodes) :
    (s.hold a r tree isGroup).Sound := by
  refine hs.change (U := [a]) (a := a) hext.size_le hext.node
    (fun i hi => ⟨a, .head _, x, ha, hi⟩) (fun c hc => ?_) fun c hc y hy' => ?_
  · rw [handles_hold, if_neg (by simpa using hc)]
  · obtain rfl : c = a := by simpa using hc
    rw [handles_hold, if_pos rfl, Option.some.injEq] at hy'
    subst hy'
    exact ⟨rfl, hy, fun i hi => (hn i hi).imp_left Eq.ge⟩

/-- A piece that is made from two others, of which the second is used up. -/
theorem Sound.holdTwo (hs : s.Sound) (ha : s.handles a = some x) (hb : s.handles b = some y)
    (hext : Graph.Extends s.graph r.1.graph (x.tree.nodes ++ y.tree.nodes))
    (hz : Handle.Sound r.1.graph ⟨r.2, tree, isGroup⟩)
    (hn : ∀ i ∈ tree.nodes, i = s.graph.size ∨ i ∈ x.tree.nodes ++ y.tree.nodes) :
    ((s.drop b).hold a r tree isGroup).Sound := by
  refine hs.change (U := [a, b]) (a := a) hext.size_le hext.node (fun i hi => ?_) (fun c hc => ?_)
    fun c hc z hz' => ?_
  · rcases List.mem_append.mp hi with hi | hi
    · exact ⟨a, .head _, x, ha, hi⟩
    · exact ⟨b, .tail _ (.head _), y, hb, hi⟩
  · simp only [List.mem_cons, List.not_mem_nil, or_false, not_or] at hc
    rw [handles_hold, if_neg hc.1, handles_drop, if_neg hc.2]
  · rw [handles_hold] at hz'
    split at hz'
    · rename_i hca
      rw [Option.some.injEq] at hz'
      subst hz'
      exact ⟨hca, hz, fun i hi => (hn i hi).imp_left Eq.ge⟩
    · rename_i hca
      rw [handles_drop, if_pos (by simpa [hca] using hc)] at hz'
      cases hz'

theorem value_addLiteralChars (t : Table) (spelling : List Char) (line : Nat) :
    ∃ cs, (t.addLiteralChars spelling line).value = t.onPiece fun g => g.chars line cs := by
  simp only [Table.addLiteralChars, Noted.value_bind, Noted.value_ite, Noted.value_pure, ite_self]
  exact ⟨_, rfl⟩

/-- The characters of a literal are all that is new, one behind the other. -/
theorem built_addLiteralChars (t : Table) (spelling : List Char) (line : Nat) :
    let r := (t.addLiteralChars spelling line).value
    Graph.Built (fun _ => True) t.graph r.1.graph r.2
      (.stretch t.graph.size (r.1.graph.size - t.graph.size)) := by
  obtain ⟨cs, hr⟩ := value_addLiteralChars t spelling line
  intro r
  obtain ⟨-, hb⟩ : t.graph.chars? .unchecked line cs = _ ∧ _ := Graph.built_chars t.graph line cs
  have hlen := hb.size_eq
  simp only [r, hr, Table.onPiece]
  rw [hlen, Shape.length_nodes_stretch, Nat.add_sub_cancel_left]
  exact hb

theorem step_alternative (h : s.step (.alternative a b) = some s') : ∃ x y,
    s.handles a = some x ∧ s.handles b = some y ∧ a ≠ b ∧ x.isGroup = true ∧
      s' = (s.drop b).hold a (s.table.onPiece (·.alternative x.piece y.piece))
        (x.tree.addOther (.node s.graph.size false y.tree .nil .nil)) true := by
  simp only [step] at h
  split at h
  · rename_i x y hx hy
    obtain ⟨⟨hab, hg⟩, hs⟩ := Option.ite_none_right_eq_some.mp h
    exact ⟨x, y, hx, hy, hab, hg, (Option.some.inj hs).symm⟩
  · cases h

theorem step_sequence (h : s.step (.sequence a b) = some s') : ∃ x y,
    s.handles a = some x ∧ s.handles b = some y ∧ a ≠ b ∧
      s' = (s.drop b).hold a (s.table.onPiece (·.sequence x.piece y.piece))
        (x.tree.append y.tree) := by
  simp only [step] at h
  split at h
  · rename_i x y hx hy
    obtain ⟨hab, hs⟩ := Option.ite_none_right_eq_some.mp h
    exact ⟨x, y, hx, hy, hab, (Option.some.inj hs).symm⟩
  · cases h

/-- One step. -/
theorem Sound.step {op : BuildStep} (hs : s.Sound) (h : s.step op = some s') : s'.Sound := by
  cases op with
  | node a k hk line =>
    simp only [Site.step, Option.ite_none_left_eq_some, Option.some.injEq] at h
    obtain ⟨-, rfl⟩ := h
    exact hs.holdNew (Graph.Built.single (Q := fun _ => True) hk trivial line)
  | literal a spelling line =>
    simp only [Site.step, Option.ite_none_left_eq_some, Option.some.injEq] at h
    obtain ⟨-, rfl⟩ := h
    exact hs.holdNew (built_addLiteralChars s.table spelling line)
  | firstAlternative a =>
    obtain ⟨x, hx, rfl⟩ := Option.map_eq_some_iff.mp h
    have hp := (hs.handle a x hx).piece
    refine hs.holdOne hx hp.extends_firstAlternative ⟨hp.firstAlternative, fun _ => ?_⟩ ?_
    · exact ⟨rfl, x.piece.entry, none, by
        simp [Table.onPiece, Graph.firstAlternative, Graph.kind_add]⟩
    · simp [Shape.nodes]
  | alternative a b =>
    obtain ⟨x, y, hx, hy, hab, hg, rfl⟩ := step_alternative h
    have hp := (hs.handle a x hx).piece
    have hq := (hs.handle b y hy).piece
    have ho := (hs.handle a x hx).group hg
    obtain ⟨hr, hro⟩ := hp.alternative ho hq (hs.disjoint a b x y hab hx hy)
    refine hs.holdTwo hx hy (hp.extends_alternative ho hq) ⟨hr, fun _ => hro⟩ fun i hi => ?_
    have := (Shape.nodes_addOther _ _).subset hi
    simp only [Shape.nodes, List.append_nil, List.mem_append, List.mem_cons] at this ⊢
    tauto
  | sequence a b =>
    obtain ⟨x, y, hx, hy, hab, rfl⟩ := step_sequence h
    have hp := (hs.handle a x hx).piece
    have hq := (hs.handle b y hy).piece
    refine hs.holdTwo hx hy ((hp.extends_redirect _).subset (List.subset_append_left ..))
      ⟨hp.sequence hq (hs.disjoint a b x y hab hx hy), fun h => absurd h Bool.false_ne_true⟩
      fun i hi => .inr ?_
    rwa [Shape.nodes_append] at hi
  | iteration a =>
    obtain ⟨x, hx, rfl⟩ := Option.map_eq_some_iff.mp h
    have hp := (hs.handle a x hx).piece
    exact hs.holdOne hx hp.extends_iteration
      ⟨hp.iteration, fun h => absurd h Bool.false_ne_true⟩ (by simp [Shape.nodes])
  | option a =>
    obtain ⟨x, hx, rfl⟩ := Option.map_eq_some_iff.mp h
    have hp := (hs.handle a x hx).piece
    exact hs.holdOne hx hp.extends_option
      ⟨hp.option, fun h => absurd h Bool.false_ne_true⟩ (by simp [Shape.nodes])
  | finish a =>
    obtain ⟨x, hx, rfl⟩ := Option.map_eq_some_iff.mp h
    have hext := (hs.handle a x hx).piece.extends_redirect none
    refine hs.change (U := [a]) (a := a) hext.size_le hext.node
      (fun i hi => ⟨a, .head _, x, hx, hi⟩) (fun c hc => ?_) fun c hc y hy => ?_
    · exact handles_drop.trans (if_neg (by simpa using hc))
    · have hnone := handles_drop (s := s) (a := a) (c := c)
      rw [if_pos (by simpa using hc)] at hnone
      cases hnone.symm.trans hy

theorem sound_start (t : Table) : (start t).Sound := ⟨nofun, nofun⟩

/-- Any number of steps. -/
theorem Sound.run {ops : List BuildStep} (hs : s.Sound) (h : s.run ops = some s') : s'.Sound := by
  induction ops generalizing s with
  | nil =>
    cases h
    exact hs
  | cons op ops ih =>
    obtain ⟨u, hu, h⟩ := Option.bind_eq_some_iff.mp (List.foldlM_cons.symm.trans h)
    exact ih (hs.step hu) h

/-! ### What a step changes -/

end Site

namespace Graph

variable {g : Graph} {a b : Piece} {s t : Shape}

theorem Chain.step_getLast {step : NodeId → Option NodeId} {p : Option NodeId} {L : List NodeId}
    {l : NodeId} (hc : Chain step p L) (hl : l ∈ L.getLast?) : step l = none := by
  induction L generalizing p with
  | nil => cases hl
  | cons i L ih =>
    cases L with
    | nil =>
      cases hl
      exact hc.2
    | cons j L => exact ih hc.2 (by simpa using hl)

namespace Open

theorem next_iteration (hp : Open g a s) (i : NodeId) : (g.iteration a).1.next i =
    if i ∈ s.exits then some g.size else g.next i := by
  obtain ⟨g₁, hg⟩ : ∃ g₁, (g.add (.iter a.entry) (g.node a.entry).line).1.setUp a.exits = g₁ :=
    ⟨_, rfl⟩
  have hc : Chain g₁.next (some a.exits) s.exits := hp.chain.congr fun j _ => by simp [← hg]
  have hb : ∀ j ∈ s.exits, j < g₁.size := fun j hj => by
    rw [← hg, size_setUp, size_add]
    exact Nat.lt_succ_of_lt (hp.exits_lt j hj)
  simp only [Graph.iteration, snd_add, hg]
  rw [next_redirectExits hc hp.exits_nodup hb, ← hg, next_setUp, next_add]

/-- A new alternative is what the last one of the group refers to. -/
theorem kind_alternative (ha : Open g a s) (hs : s.IsOther g) (b : Piece) : ∃ l sub,
    g.kind l = .alt sub none ∧
      ∀ i < g.size, (g.alternative a b).1.kind i =
        if i = l then .alt sub (some g.size) else g.kind i := by
  obtain ⟨l, hl, e, he, sub, d, hk, halt⟩ := ha.exists_alternative hs b
  have hd : (g.kind l).down? = none := (ha.fits.chain_heads hs).step_getLast hl
  rw [hk] at hd
  obtain rfl : d = none := hd
  refine ⟨l, sub, hk, fun i hi => ?_⟩
  have hlt := ha.heads_lt l (List.mem_of_mem_getLast? hl)
  rw [halt]
  simp only [kind_setNext, kind_setKind, kind_setUp, kind_add, size_setUp, size_setNext, size_add]
  grind

end Open

end Graph

namespace Site

variable {s s' : Site} {op : BuildStep}

/-- The piece whose list of ends is used up by a step, and where it lets them lead. -/
def target? (s : Site) : BuildStep → Option (Handle × Option NodeId)
  | .sequence a b => do
    let x ← s.handles a
    let y ← s.handles b
    return (x, some y.piece.entry)
  | .iteration a => (s.handles a).map fun x => (x, some s.graph.size)
  | .finish a => (s.handles a).map fun x => (x, none)
  | _ => none

theorem Sound.next_step {x : Handle} {p : Option NodeId} (hs : s.Sound) (h : s.step op = some s')
    (hx : s.target? op = some (x, p)) (i : NodeId) :
    s'.graph.next i = if i ∈ x.tree.exits then p else s.graph.next i := by
  cases op with
  | node | literal | firstAlternative | alternative | option => cases hx
  | sequence a b =>
    obtain ⟨y, z, hy, hz, -, rfl⟩ := step_sequence h
    simp only [target?, hy, hz] at hx
    cases hx
    have hp := (hs.handle a x hy).piece
    exact Graph.next_redirectExits hp.chain hp.exits_nodup hp.exits_lt i
  | iteration a =>
    obtain ⟨y, hy, rfl⟩ := Option.map_eq_some_iff.mp h
    simp only [target?, hy] at hx
    cases hx
    exact (hs.handle a x hy).piece.next_iteration i
  | finish a =>
    obtain ⟨y, hy, rfl⟩ := Option.map_eq_some_iff.mp h
    simp only [target?, hy] at hx
    cases hx
    have hp := (hs.handle a x hy).piece
    exact Graph.next_redirectExits hp.chain hp.exits_nodup hp.exits_lt i

/-- The nodes that there are keep their kinds, but for one that may be given a next alternative. -/
theorem Sound.kind_step (hs : s.Sound) (h : s.step op = some s') :
    (∀ i < s.graph.size, s'.graph.kind i = s.graph.kind i) ∨
      (∃ a b, op = .alternative a b) ∧ ∃ l sub, s.graph.kind l = .alt sub none ∧
        ∀ i < s.graph.size, s'.graph.kind i =
          if i = l then .alt sub (some s.graph.size) else s.graph.kind i := by
  cases op with
  | node a k hk line =>
    simp only [Site.step, Option.ite_none_left_eq_some, Option.some.injEq] at h
    obtain ⟨-, rfl⟩ := h
    refine .inl fun i hi => ?_
    exact (Graph.kind_add ..).trans (if_neg hi.ne)
  | literal a spelling line =>
    simp only [Site.step, Option.ite_none_left_eq_some, Option.some.injEq] at h
    obtain ⟨-, rfl⟩ := h
    refine .inl fun i hi => ?_
    exact congrArg Node.kind ((built_addLiteralChars s.table spelling line).adds.node i hi)
  | firstAlternative a | option a =>
    obtain ⟨x, hx, rfl⟩ := Option.map_eq_some_iff.mp h
    refine .inl fun i hi => ?_
    simp [Table.onPiece, Graph.firstAlternative, Graph.option, Graph.kind_add, hi.ne]
  | alternative a b =>
    obtain ⟨x, y, hx, hy, hab, hg, rfl⟩ := step_alternative h
    have hp := (hs.handle a x hx).piece
    exact .inr ⟨⟨a, b, rfl⟩, hp.kind_alternative ((hs.handle a x hx).group hg) y.piece⟩
  | sequence a b =>
    obtain ⟨x, y, -, -, -, rfl⟩ := step_sequence h
    exact .inl fun i hi => Graph.kind_redirect i
  | iteration a =>
    obtain ⟨x, hx, rfl⟩ := Option.map_eq_some_iff.mp h
    refine .inl fun i hi => ?_
    simp [Table.onPiece, Graph.iteration, Graph.redirectExits, Graph.kind_redirect, Graph.kind_add,
      hi.ne]
  | finish a =>
    obtain ⟨x, hx, rfl⟩ := Option.map_eq_some_iff.mp h
    exact .inl fun i hi => Graph.kind_redirect i

theorem size_le_step (h : s.step op = some s') : s.graph.size ≤ s'.graph.size := by
  cases op with
  | node a k hk line =>
    simp only [Site.step, Option.ite_none_left_eq_some, Option.some.injEq] at h
    obtain ⟨-, rfl⟩ := h
    simp [Table.addNode]
  | literal a spelling line =>
    simp only [Site.step, Option.ite_none_left_eq_some, Option.some.injEq] at h
    obtain ⟨-, rfl⟩ := h
    exact (built_addLiteralChars s.table spelling line).adds.size_le
  | firstAlternative a | option a | iteration a =>
    obtain ⟨x, -, rfl⟩ := Option.map_eq_some_iff.mp h
    simp [Table.onPiece]
  | alternative a b =>
    obtain ⟨x, y, -, -, -, -, rfl⟩ := step_alternative h
    simp [Table.onPiece]
  | sequence a b =>
    obtain ⟨x, y, -, -, -, rfl⟩ := step_sequence h
    simp [Table.onPiece]
  | finish a =>
    obtain ⟨x, -, rfl⟩ := Option.map_eq_some_iff.mp h
    exact Graph.size_redirectExits.ge

end Site

/-! ### Lists of open ends -/

/-- The list of the piece has just those nodes of its tree for which it is open where they lead. All
others lead where they do in the tree. -/
structure Handle.Listed (g : Graph) (x : Handle) : Prop where
  fits : x.tree.Fits g (fun _ => True) false
  entry : x.tree.entry = some x.piece.entry
  chain : Graph.Chain g.next (some x.piece.exits) x.tree.exits
  nodup : x.tree.exits.Nodup
  mem : ∀ i, i ∈ x.tree.exits ↔ (i, none) ∈ x.tree.successors none
  next : ∀ i q, (i, some q) ∈ x.tree.successors none → g.next i = some q

namespace Site

/-- The lists of all pieces are right and have no nodes in common. Whatever is done next, what is
redirected are the nodes on the list that is used up; no node is lost, and none becomes another one,
but for one alternative that another one is put behind. -/
structure Listed (s : Site) : Prop where
  listed : ∀ a x, s.handles a = some x → x.Listed s.graph
  disjoint : ∀ a b x y, a ≠ b → s.handles a = some x → s.handles b = some y →
    x.tree.exits.Disjoint y.tree.exits
  redirected : ∀ op s' x p, s.step op = some s' → s.target? op = some (x, p) →
    ∀ i, s'.graph.next i = if i ∈ x.tree.exits then p else s.graph.next i
  size_le : ∀ op s', s.step op = some s' → s.graph.size ≤ s'.graph.size
  kind : ∀ op s', s.step op = some s' →
    (∀ i < s.graph.size, s'.graph.kind i = s.graph.kind i) ∨
      (∃ a b, op = .alternative a b) ∧ ∃ l sub, s.graph.kind l = .alt sub none ∧
        ∀ i < s.graph.size, s'.graph.kind i =
          if i = l then .alt sub (some s.graph.size) else s.graph.kind i

variable {s : Site} {t : Table} {ops : List BuildStep}

theorem lists_of_run (h : (start t).run ops = some s) : s.Listed := by
  have hs := (sound_start t).run h
  refine ⟨fun a x hx => ?_, fun a b x y hab hx hy i hix hiy => ?_,
    fun op s' x p hstep hx => hs.next_step hstep hx, fun op s' => size_le_step,
    fun op s' => hs.kind_step⟩
  · have hp := (hs.handle a x hx).piece
    refine ⟨hp.fits, hp.entry, hp.chain, hp.exits_nodup, fun i => ?_, fun i q hi => ?_⟩
    · rw [← Shape.mem_exits_iff, and_iff_left rfl]
    · exact hp.fits.next_of_mem_successors (.inl rfl) hi nofun
  · exact hs.disjoint a b x y hab hx hy i (x.tree.exits_subset i hix) (y.tree.exits_subset i hiy)

/-- A literal as an alternative to an option, an iteration behind that group, and another option. -/
def groupsInTurn : List BuildStep :=
  [.node 0 (.terminal 1) rfl 1, .node 1 (.nonterminal 2) rfl 1, .option 0, .node 2 .empty rfl 2,
    .firstAlternative 0, .literal 3 ['"', 'a', 'b', '"'] 2, .iteration 1, .option 2,
    .alternative 0 3, .sequence 2 0, .node 4 .resolver rfl 3, .sequence 4 1]

theorem lists_groupsInTurn : ∃ s, (start default).run groupsInTurn = some s ∧
    (s.handles 2).map (·.tree.exits) = some [5, 3, 1, 10, 7] ∧ s.Listed := by
  have h : ((start default).run groupsInTurn).any
      (fun s => (s.handles 2).map (·.tree.exits) = some [5, 3, 1, 10, 7]) = true := by
    decide +kernel
  obtain ⟨s, hs, hx⟩ := (Option.any_eq_true ..).mp h
  exact ⟨s, hs, by simpa using hx, lists_of_run hs⟩

end Site

end Lookahead
