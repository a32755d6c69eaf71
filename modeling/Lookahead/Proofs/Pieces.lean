import Lookahead.Graph.Piece
import Lookahead.Proofs.Shape

/-!
# What the building operations build

`Open g p s`: the piece `p` of the graph `g` holds the tree `s`, whose exits are linked into a list
and lead nowhere yet. Each building operation turns the trees of its arguments into the tree that
its name says (`Open.single`, `Open.option`, `Open.iteration`, `Open.firstAlternative`,
`Open.alternative`, `Open.sequence`), and changes no node outside of them. Finishing closes a tree
(`Open.finish`).
-/

namespace Lookahead

namespace Graph

variable {g h : Graph} {step step' : NodeId → Option NodeId} {p q : Option NodeId}
  {L M : List NodeId}

theorem Chain.congr (hc : Chain step p L) (hs : ∀ i ∈ L, step' i = step i) : Chain step' p L := by
  induction L generalizing p with
  | nil => exact hc
  | cons i L ih =>
    refine ⟨hc.1, ?_⟩
    rw [hs i (by simp)]
    exact ih hc.2 fun j hj => hs j (by simp [hj])

/-- A chain goes on where its last node leads. -/
theorem Chain.append (hc : Chain step p L) (hd : L.Nodup) (hne : L ≠ [])
    (hs : ∀ i ∈ L, i ≠ L.getLast hne → step' i = step i) (hq : step' (L.getLast hne) = q)
    (hm : Chain step' q M) : Chain step' p (L ++ M) := by
  induction L generalizing p with
  | nil => exact absurd rfl hne
  | cons i L ih =>
    rw [List.nodup_cons] at hd
    refine ⟨hc.1, ?_⟩
    rcases L with _ | ⟨j, L⟩
    · rw [show step' i = q from hq]
      exact hm
    · have hij : i ≠ (j :: L).getLast (by simp) := fun h => hd.1 (h ▸ List.getLast_mem _)
      rw [hs i (by simp) (by rwa [List.getLast_cons (by simp)])]
      refine ih hc.2 hd.2 (by simp) (fun k hk hl => hs k (by simp [hk]) ?_) ?_
      · rwa [List.getLast_cons (by simp)]
      · rwa [List.getLast_cons (by simp)] at hq

theorem follow_eq_getLast {i : NodeId} {fuel : Nat} (hc : Chain step (some i) L)
    (hf : L.length ≤ fuel + 1) (hne : L ≠ []) : follow step fuel i = L.getLast hne := by
  induction L generalizing i fuel with
  | nil => exact absurd rfl hne
  | cons j L ih =>
    obtain ⟨hi, hc⟩ := hc
    cases hi
    rcases L with _ | ⟨k, L⟩
    · cases fuel <;> simp_all [follow, Chain]
    · obtain ⟨fuel, rfl⟩ : ∃ n, fuel = n + 1 := ⟨fuel - 1, by simp at hf; omega⟩
      obtain ⟨hk, hc⟩ := hc
      rw [follow, hk, List.getLast_cons (List.cons_ne_nil k L)]
      exact ih ⟨rfl, hc⟩ (by simpa using hf) (List.cons_ne_nil k L)

/-- Redirecting along a chain gives its nodes the new successor and changes nothing else. -/
theorem node_redirect {fuel : Nat} {target : Option NodeId} (hc : Chain g.next p L) (hd : L.Nodup)
    (hb : ∀ i ∈ L, i < g.size) (hf : L.length < fuel) (j : NodeId) :
    (redirect target fuel g p).node j =
      if j ∈ L then { g.node j with next := target } else g.node j := by
  induction L generalizing g p fuel with
  | nil =>
    rw [show p = none from hc]
    cases fuel <;> simp [redirect]
  | cons i L ih =>
    obtain ⟨rfl, hc⟩ := hc
    obtain ⟨fuel, rfl⟩ : ∃ n, fuel = n + 1 := ⟨fuel - 1, by simp at hf; omega⟩
    rw [List.nodup_cons] at hd
    rw [redirect]
    have hc' : Chain (g.setNext i target).next (g.next i) L := by
      refine hc.congr fun k hk => ?_
      rw [next_setNext, if_neg]
      rintro ⟨rfl, -⟩
      exact hd.1 hk
    rw [ih hc' hd.2 (fun k hk => by simpa using hb k (by simp [hk])) (by simpa using hf)]
    rw [node_setNext]
    by_cases hij : i = j
    · subst hij
      simp [hd.1, hb i (by simp)]
    · have : j ≠ i := fun h => hij h.symm
      simp [hij, this]

@[simp] theorem size_redirect {fuel : Nat} {target : Option NodeId} :
    (redirect target fuel g p).size = g.size := by
  induction fuel generalizing g p with
  | zero => simp [redirect]
  | succ fuel ih =>
    cases p
    · simp [redirect]
    · simp [redirect, ih]

theorem length_le_of_nodup (hd : L.Nodup) (hb : ∀ i ∈ L, i < g.size) : L.length ≤ g.size := by
  have : L.length ≤ (List.range g.size).length :=
    (hd.subperm fun i hi => List.mem_range.mpr (hb i hi)).length_le
  simpa using this

section

variable {i : NodeId} {target : Option NodeId} (hc : Chain g.next (some i) L) (hd : L.Nodup)
  (hb : ∀ i ∈ L, i < g.size) (j : NodeId)

include hc hd hb

theorem node_redirectExits : (g.redirectExits i target).node j =
    if j ∈ L then { g.node j with next := target } else g.node j := by
  have := length_le_of_nodup hd hb
  exact node_redirect hc hd hb (by omega) j

theorem kind_redirectExits : (g.redirectExits i target).kind j = g.kind j := by
  simp only [kind, node_redirectExits hc hd hb]
  split <;> rfl

theorem up_redirectExits : ((g.redirectExits i target).node j).up = (g.node j).up := by
  rw [node_redirectExits hc hd hb]
  split <;> rfl

theorem next_redirectExits : (g.redirectExits i target).next j =
    if j ∈ L then target else g.next j := by
  simp only [next, node_redirectExits hc hd hb]
  split <;> rfl

end

@[simp] theorem size_redirectExits {i : NodeId} {target : Option NodeId} :
    (g.redirectExits i target).size = g.size := size_redirect

/-! ## Order of changes -/

theorem modify_comm {i j : NodeId} {f f' : Node → Node}
    (hf : i ≠ j ∨ ∀ n, f (f' n) = f' (f n)) :
    (g.modify i f).modify j f' = (g.modify j f').modify i f := by
  simp only [modify]
  congr 1
  apply Array.ext_getElem?
  intro k
  simp only [Array.getElem?_modify]
  grind

theorem setUp_setUp (i j : NodeId) : (g.setUp i).setUp j = (g.setUp j).setUp i :=
  modify_comm (.inr fun _ => rfl)

theorem setNext_setUp (i j : NodeId) (p : Option NodeId) :
    (g.setNext i p).setUp j = (g.setUp j).setNext i p :=
  modify_comm (.inr fun _ => rfl)

theorem setNext_setKind (i j : NodeId) (p : Option NodeId) (k : NodeKind) :
    (g.setNext i p).setKind j k = (g.setKind j k).setNext i p :=
  modify_comm (.inr fun _ => rfl)

theorem setNext_setNext {i j : NodeId} (hij : i ≠ j) (p q : Option NodeId) :
    (g.setNext i p).setNext j q = (g.setNext j q).setNext i p :=
  modify_comm (.inl hij)

/-- What adding an alternative comes to, once the last alternative and the last exit are known. -/
theorem alternative_eq {a b : Piece} {g₁ : Graph} {l e sub : NodeId} {d : Option NodeId}
    (hg : (g.add (.alt b.entry none) (g.node b.entry).line).1 = g₁)
    (hl : follow (fun j => (g₁.kind j).down?) g₁.size a.entry = l) (hk : g₁.kind l = .alt sub d)
    (he : follow g₁.next g₁.size a.exits = e) (hne : e ≠ g.size) :
    g.alternative a b =
      (((((g₁.setUp b.exits).setNext g.size (some b.exits)).setUp g.size).setKind l
        (.alt sub (some g.size))).setNext e (some g.size), a) := by
  have hn : (((g₁.setUp g.size).setUp b.exits).setKind l (.alt sub (some g.size))).next =
      g₁.next := funext fun i => by simp
  simp only [alternative, snd_add, hg, kind_setUp, size_setUp, hl, hk, size_setKind, hn, he]
  rw [setNext_setUp, setNext_setKind, setNext_setNext hne.symm, setUp_setUp]

/-! ## Pieces -/

/-- The piece holds the tree, and its exits are linked into a list. -/
structure Open (g : Graph) (p : Piece) (s : Shape) : Prop where
  fits : s.Fits g (fun _ => True) false
  nodup : s.nodes.Nodup
  lt : ∀ i ∈ s.nodes, i < g.size
  entry : s.entry = some p.entry
  chain : Chain g.next (some p.exits) s.exits

variable {a b : Piece} {s t : Shape}

namespace Open

theorem last (hp : Open g a s) : s.last = some a.exits := by
  rw [← Shape.head_exits]
  have := hp.chain
  rcases hx : s.exits with _ | ⟨i, L⟩ <;> rw [hx] at this
  · simp [Chain] at this
  · obtain ⟨hi, -⟩ := this
    simp [hi]

theorem ne_nil (hp : Open g a s) : s ≠ .nil := by
  rintro rfl
  exact absurd hp.entry (by simp [Shape.entry])

theorem exits_nodup (hp : Open g a s) : s.exits.Nodup :=
  hp.nodup.sublist s.exits_sublist

theorem exits_lt (hp : Open g a s) : ∀ i ∈ s.exits, i < g.size :=
  fun i hi => hp.lt i (s.exits_subset i hi)

theorem exits_mem (hp : Open g a s) : a.exits ∈ s.nodes :=
  s.exits_subset _ (Shape.mem_exits_of_last hp.last)

/-- A tree stays open where its nodes stay the same. -/
theorem congr (hp : Open g a s) (hs : g.size ≤ h.size) (hn : ∀ i ∈ s.nodes, h.node i = g.node i) :
    Open h a s where
  fits := hp.fits.congr (fun i hi => by simp only [kind, hn i hi])
    (fun i hi => by simp only [next, hn i hi]) fun i hi => by rw [hn i hi]
  nodup := hp.nodup
  lt i hi := Nat.lt_of_lt_of_le (hp.lt i hi) hs
  entry := hp.entry
  chain := hp.chain.congr fun i hi => by simp only [next, hn i (s.exits_subset i hi)]

/-- A tree is closed where the last exit of its piece leads up. -/
theorem closed {E : Option NodeId → Prop} (hp : Open g a s)
    (hk : ∀ i ∈ s.nodes, h.kind i = g.kind i)
    (hn : ∀ i ∈ s.nodes, i ∉ s.exits → h.next i = g.next i) (hx : ∀ i ∈ s.exits, E (h.next i))
    (hu : ∀ i ∈ s.nodes, (h.node i).up = if a.exits = i then true else (g.node i).up) :
    s.Fits h E true := by
  refine hp.fits.retarget hp.nodup (fun i hi => by rw [hk i hi]) hn hx ?_ ?_
  · rw [hp.last]
    intro i hi hne
    rw [hu i hi, if_neg fun h => hne (congrArg some h)]
  · rw [hp.last]
    rintro i ⟨⟩
    rw [hu _ hp.exits_mem, if_pos rfl]

theorem single {k : NodeKind} (hk : k.sub? = none) (line : Nat) :
    Open (g.single k line).1 (g.single k line).2 (.node g.size false .nil .nil .nil) where
  fits := by
    refine ⟨?_, ⟨trivial, ?_⟩, trivial, trivial, trivial⟩
    · have hg : (g.single k line).1.kind g.size = k := by simp [Graph.single, kind, node_add]
      rw [hg]
      cases k <;> first | exact ⟨rfl, rfl, rfl⟩ | simp [NodeKind.sub?] at hk
    · simp [Graph.single, node_add]
  nodup := by simp [Shape.nodes]
  lt := by simp [Shape.nodes, Graph.single]
  entry := rfl
  chain := by simp [Shape.exits, Chain, Shape.isNil, Graph.single, next, node_add]

/-- A new node around a piece, which is left through the new node or through the exits of the
piece. -/
theorem enclose (hp : Open g a s) {k : NodeKind} (hk : ∀ h, Shape.Refers h k false s .nil)
    (line : Nat) :
    Open (((g.add k line).1.setUp a.exits).setNext g.size (some a.exits)) ⟨g.size, g.size⟩
      (.node g.size false s .nil .nil) := by
  generalize hh : ((g.add k line).1.setUp a.exits).setNext g.size (some a.exits) = h
  have hlt := hp.lt _ hp.exits_mem
  have hsize : h.size = g.size + 1 := by simp [← hh]
  have hkind : ∀ i, h.kind i = if i = g.size then k else g.kind i := by simp [← hh, kind_add]
  have hnext : ∀ i, h.next i = if g.size = i then some a.exits else g.next i := by
    simp only [← hh, next_setNext, size_setUp, size_add, next_setUp, next_add]
    intro i
    grind
  have hup : ∀ i, (h.node i).up = if a.exits = i then true else (g.node i).up := by
    simp only [← hh, up_setNext, up_setUp, size_add, up_add]
    intro i
    grind
  have hne : ∀ i ∈ s.nodes, i ≠ g.size := fun i hi => (hp.lt i hi).ne
  refine ⟨⟨?_, ⟨trivial, ?_⟩, ?_, trivial, trivial⟩, ?_, ?_, rfl, ?_, ?_⟩
  · rw [hkind, if_pos rfl]
    exact hk h
  · rw [hup, if_neg hlt.ne, up_of_size_le le_rfl]
    rfl
  · exact hp.closed (fun i hi => by rw [hkind, if_neg (hne i hi)])
      (fun i hi _ => by rw [hnext, if_neg (hne i hi).symm]) (fun _ _ => trivial) fun i _ => hup i
  · simp only [Shape.nodes, List.append_nil, List.nodup_cons]
    exact ⟨fun h => hne _ h rfl, hp.nodup⟩
  · simp only [Shape.nodes, List.append_nil, List.mem_cons, hsize]
    rintro i (rfl | hi)
    · exact Nat.lt_succ_self _
    · exact Nat.lt_succ_of_lt (hp.lt i hi)
  · rfl
  · simp only [Shape.exits, Bool.false_eq_true, if_false, List.append_nil]
    rw [hnext, if_pos rfl]
    exact hp.chain.congr fun i hi => by
      rw [hnext, if_neg (hne i (s.exits_subset i hi)).symm]

theorem option (hp : Open g a s) :
    Open (g.option a).1 (g.option a).2 (.node g.size false s .nil .nil) :=
  hp.enclose (k := .opt a.entry) (fun _ => ⟨rfl, hp.entry, rfl⟩) _

theorem firstAlternative (hp : Open g a s) :
    Open (g.firstAlternative a).1 (g.firstAlternative a).2 (.node g.size false s .nil .nil) :=
  hp.enclose (k := .alt a.entry none) (fun _ => ⟨rfl, hp.entry, rfl, trivial⟩) _

theorem iteration (hp : Open g a s) :
    Open (g.iteration a).1 (g.iteration a).2 (.node g.size true s .nil .nil) := by
  generalize hg' : ((g.add (.iter a.entry) (g.node a.entry).line).1.setUp a.exits) = g'
  generalize hh : g'.redirectExits a.exits (some g.size) = h
  have hlt := hp.lt _ hp.exits_mem
  have hne : ∀ i ∈ s.nodes, i ≠ g.size := fun i hi => (hp.lt i hi).ne
  have hsize : g'.size = g.size + 1 := by simp [← hg']
  have hc : Chain g'.next (some a.exits) s.exits := hp.chain.congr fun i _ => by simp [← hg']
  have hb : ∀ i ∈ s.exits, i < g'.size := fun i hi => by
    rw [hsize]
    exact Nat.lt_succ_of_lt (hp.exits_lt i hi)
  have hkind : ∀ i, h.kind i = if i = g.size then .iter a.entry else g.kind i := by
    intro i
    rw [← hh, kind_redirectExits hc hp.exits_nodup hb, ← hg', kind_setUp, kind_add]
  have hnext : ∀ i, h.next i = if i ∈ s.exits then some g.size else g.next i := by
    intro i
    rw [← hh, next_redirectExits hc hp.exits_nodup hb, ← hg', next_setUp, next_add]
  have hup : ∀ i, (h.node i).up = if a.exits = i then true else (g.node i).up := by
    intro i
    rw [← hh, up_redirectExits hc hp.exits_nodup hb, ← hg', up_setUp, size_add, up_add]
    grind
  have hf : (Shape.node g.size true s .nil .nil).Fits h (fun _ => True) false := by
    refine ⟨?_, ⟨trivial, ?_⟩, ?_, trivial, trivial⟩
    · rw [hkind, if_pos rfl]
      exact ⟨rfl, hp.entry, rfl⟩
    · rw [hup, if_neg hlt.ne, up_of_size_le le_rfl]
      rfl
    · exact hp.closed (fun i hi => by rw [hkind, if_neg (hne i hi)])
        (fun i _ hi => by rw [hnext, if_neg hi]) (fun i hi => by rw [hnext, if_pos hi]; rfl)
        fun i _ => hup i
  have hlt' : ∀ i ∈ (Shape.node g.size true s .nil .nil).nodes, i < h.size := by
    simp only [Shape.nodes, List.append_nil, List.mem_cons, ← hh, size_redirectExits, hsize]
    rintro i (rfl | hi)
    · exact Nat.lt_succ_self _
    · exact Nat.lt_succ_of_lt (hp.lt i hi)
  have hgoal : Open h ⟨g.size, g.size⟩ (.node g.size true s .nil .nil) := by
    refine ⟨hf, ?_, hlt', rfl, ?_⟩
    · simp only [Shape.nodes, List.append_nil, List.nodup_cons]
      exact ⟨fun h => hne _ h rfl, hp.nodup⟩
    · refine ⟨rfl, ?_⟩
      rw [hnext, if_neg fun h => hne _ (s.exits_subset _ h) rfl, next_of_size_le le_rfl]
      rfl
  rw [← hh, ← hg'] at hgoal
  exact hgoal

/-- A tree whose exits get a successor. -/
theorem redirect (hp : Open g a s) (target : Option NodeId) :
    s.Fits (g.redirectExits a.exits target) (· = target) false := by
  refine hp.fits.retarget hp.nodup
    (fun i _ => by rw [kind_redirectExits hp.chain hp.exits_nodup hp.exits_lt])
    (fun i _ hi => by rw [next_redirectExits hp.chain hp.exits_nodup hp.exits_lt, if_neg hi])
    (fun i hi => by rw [next_redirectExits hp.chain hp.exits_nodup hp.exits_lt, if_pos hi])
    (fun i _ _ => up_redirectExits hp.chain hp.exits_nodup hp.exits_lt i) fun i hi => ?_
  rw [up_redirectExits hp.chain hp.exits_nodup hp.exits_lt, hp.fits.up_of_last hi]

/-- Redirecting the exits of a piece leaves all other nodes alone. -/
theorem node_redirect (hp : Open g a s) (target : Option NodeId) {i : NodeId} (hi : i ∉ s.nodes) :
    (g.redirectExits a.exits target).node i = g.node i := by
  rw [node_redirectExits hp.chain hp.exits_nodup hp.exits_lt,
    if_neg fun h => hi (s.exits_subset i h)]

theorem sequence (ha : Open g a s) (hb : Open g b t) (hd : ∀ i ∈ s.nodes, i ∉ t.nodes) :
    Open (g.sequence a b).1 (g.sequence a b).2 (s.append t) := by
  have hb' : Open (g.redirectExits a.exits (some b.entry)) b t :=
    hb.congr size_redirectExits.ge fun i hi => ha.node_redirect _ fun h => hd i h hi
  refine ⟨.append hb.ne_nil ?_ hb'.fits, ?_, ?_, ?_, ?_⟩
  · rw [hb.entry]
    exact ha.redirect _
  · rw [Shape.nodes_append]
    exact ha.nodup.append hb.nodup fun i hi => hd i hi
  · rw [Shape.nodes_append]
    intro i hi
    exact (List.mem_append.mp hi).elim (fun h => by simpa [Graph.sequence] using ha.lt i h)
      fun h => hb'.lt i h
  · rw [Shape.entry_append ha.ne_nil, ha.entry]
    rfl
  · rw [Shape.exits_append hb.ne_nil]
    exact hb'.chain

theorem heads_lt (hp : Open g a s) : ∀ i ∈ s.heads, i < g.size :=
  fun i hi => hp.lt i (s.heads_sublist.subset hi)

theorem exits_ne_nil (hp : Open g a s) : s.exits ≠ [] :=
  List.ne_nil_of_mem (Shape.mem_exits_of_last hp.last)

/-- A piece of one alternative is put behind a group of them: the last of these refers to it, and
its exits come behind theirs. -/
theorem attach {c : Piece} {x : Shape} {sub l e : NodeId} {d : Option NodeId} (ha : Open g a s)
    (hs : s.IsOther g) (hc : Open g c x) (hx : x.IsOther g) (hd : ∀ i ∈ s.nodes, i ∉ x.nodes)
    (hl : l ∈ s.heads.getLast?) (he : e ∈ s.exits.getLast?) (hk : g.kind l = .alt sub d) :
    Open (((g.setUp c.exits).setKind l (.alt sub (some c.entry))).setNext e (some c.exits)) a
        (s.addOther x) ∧
      (s.addOther x).IsOther
        (((g.setUp c.exits).setKind l (.alt sub (some c.entry))).setNext e (some c.exits)) := by
  have hcx : ∀ i ∈ s.nodes, c.exits ≠ i := fun i hi he => hd i hi (he ▸ hc.exits_mem)
  obtain ⟨hne, hlast⟩ := List.mem_getLast?_eq_getLast hl
  obtain ⟨hxne, hexit⟩ := List.mem_getLast?_eq_getLast he
  have hlt := ha.heads_lt l (List.mem_of_mem_getLast? hl)
  have hem : e ∈ s.exits := List.mem_of_mem_getLast? he
  let g₁ := g.setUp c.exits
  let g₂ := g₁.setKind l (.alt sub (some c.entry))
  have hkind : ∀ i, g₂.kind i = if l = i then .alt sub (some c.entry) else g.kind i := by
    intro i
    simp only [g₁, g₂, kind_setKind, size_setUp, kind_setUp]
    grind
  have hup : ∀ i ∈ s.nodes, (g₁.node i).up = (g.node i).up := fun i hi => by
    rw [up_setUp, if_neg fun h => hcx i hi h.1]
  have hs₁ : s.Fits g₁ (fun _ => True) false :=
    ha.fits.congr (fun i _ => by rw [kind_setUp]) (fun i _ => next_setUp ..) hup
  have hx₁ : x.Fits g₁ (fun _ => True) true := by
    refine hc.closed (fun i _ => kind_setUp ..) (fun i _ _ => next_setUp ..)
      (fun _ _ => trivial) fun i hi => ?_
    rw [up_setUp]
    simp only [hc.lt i hi, and_true]
  have hso : s.IsOther g₁ := hs.congr fun i _ => by rw [kind_setUp]
  have hxo : x.IsOther g₁ := hx.congr fun i _ => by rw [kind_setUp]
  have hfit : (s.addOther x).Fits g₂ (fun _ => True) false := by
    refine hs₁.addOther hso hne hx₁ hxo ha.nodup hd (fun i hi => ?_) (fun a' d' hl' => ?_)
      (fun i => next_setKind ..) fun i => up_setKind ..
    · rw [← hlast] at hi
      rw [hkind, if_neg hi.symm, kind_setUp]
    · rw [← hlast] at hl' ⊢
      rw [kind_setUp, hk] at hl'
      cases hl'
      rw [hkind, if_pos rfl, hc.entry]
  have hnodup : (s.addOther x).nodes.Nodup :=
    (s.nodes_addOther x).nodup_iff.mpr (ha.nodup.append hc.nodup fun i hi => hd i hi)
  have hxe := hs₁.exits_addOther hso x
  have hnext : ∀ i, (g₂.setNext e (some c.exits)).next i =
      if e = i then some c.exits else g.next i := by
    intro i
    have := ha.exits_lt e hem
    simp only [g₁, g₂, next_setNext, size_setKind, size_setUp, next_setKind, next_setUp]
    grind
  have hes : e ∈ s.nodes := s.exits_subset e hem
  refine ⟨⟨?_, hnodup, ?_, ?_, ?_⟩, ?_⟩
  · refine hfit.retarget hnodup (fun i _ => by rw [kind_setNext]) (fun i _ hi => ?_)
      (fun _ _ => trivial) (fun i _ _ => up_setNext ..) fun i hi => ?_
    · rw [next_setNext, if_neg]
      rintro ⟨rfl, -⟩
      exact hi (by rw [hxe]; exact List.mem_append_left _ hem)
    · rw [up_setNext, hfit.up_of_last hi]
  · intro i hi
    rw [size_setNext, size_setKind, size_setUp]
    exact (List.mem_append.mp ((s.nodes_addOther x).subset hi)).elim (ha.lt i) (hc.lt i)
  · rw [Shape.entry_addOther ha.ne_nil, ha.entry]
  · rw [hxe]
    refine ha.chain.append ha.exits_nodup ha.exits_ne_nil (fun i _ hi => ?_) ?_
      (hc.chain.congr fun i hi => ?_)
    · rw [← hexit] at hi
      rw [hnext, if_neg hi.symm]
    · rw [← hexit, hnext, if_pos rfl]
    · rw [hnext, if_neg]
      rintro rfl
      exact hd _ hes (x.exits_subset _ hi)
  · refine hso.addOther (hxo.congr fun i hi => ?_) fun i _ c' d' hi => ?_
    · have hlm := s.heads_sublist.subset (List.mem_of_mem_getLast? hl)
      have hil : l ≠ i := fun h => hd l hlm (h ▸ hi)
      rw [kind_setNext, hkind, if_neg hil, kind_setUp]
    · rw [kind_setUp] at hi
      rw [kind_setNext, hkind]
      split
      · exact ⟨_, _, rfl⟩
      · exact ⟨_, _, hi⟩

/-- An alternative goes behind the last one of its group, and its exits behind the last exit. -/
theorem exists_alternative (ha : Open g a s) (hs : s.IsOther g) (b : Piece) :
    ∃ l ∈ s.heads.getLast?, ∃ e ∈ s.exits.getLast?, ∃ sub d, g.kind l = .alt sub d ∧
      g.alternative a b =
        ((((((g.add (.alt b.entry none) (g.node b.entry).line).1.setUp b.exits).setNext g.size
          (some b.exits)).setUp g.size).setKind l (.alt sub (some g.size))).setNext e
            (some g.size), a) := by
  obtain ⟨g₁, hg⟩ : ∃ g₁, (g.add (.alt b.entry none) (g.node b.entry).line).1 = g₁ := ⟨_, rfl⟩
  have hsize : g₁.size = g.size + 1 := by rw [← hg, size_add]
  have ha₁ : Open g₁ a s := ha.congr (by omega) fun i hi => by
    rw [← hg, node_add, if_neg (ha.lt i hi).ne]
  have hkind : ∀ i ∈ s.nodes, g₁.kind i = g.kind i := fun i hi => by
    rw [← hg, kind_add, if_neg (ha.lt i hi).ne]
  have hs₁ : s.IsOther g₁ := hs.congr fun i hi => by rw [hkind i hi]
  have hne : s.heads ≠ [] := Shape.heads_ne_nil ha.ne_nil
  have hl : follow (fun j => (g₁.kind j).down?) g₁.size a.entry = s.heads.getLast hne := by
    have hc := ha₁.fits.chain_heads hs₁
    rw [ha.entry] at hc
    have := length_le_of_nodup (ha.nodup.sublist s.heads_sublist) ha₁.heads_lt
    exact follow_eq_getLast hc (by omega) hne
  have he : follow g₁.next g₁.size a.exits = s.exits.getLast ha.exits_ne_nil := by
    have := length_le_of_nodup ha.exits_nodup ha₁.exits_lt
    exact follow_eq_getLast ha₁.chain (by omega) ha.exits_ne_nil
  obtain ⟨sub, d, hk⟩ := ha.fits.kind_of_mem_heads hs _ (List.getLast_mem hne)
  have hk₁ := hkind _ (s.heads_sublist.subset (List.getLast_mem hne))
  have hlt := ha.exits_lt _ (List.getLast_mem ha.exits_ne_nil)
  refine ⟨_, List.getLast_mem_getLast? hne, _, List.getLast_mem_getLast? ha.exits_ne_nil, sub, d,
    hk, ?_⟩
  rw [alternative_eq hg hl (hk₁.trans hk) he hlt.ne, hg]

theorem alternative (ha : Open g a s) (hs : s.IsOther g) (hb : Open g b t)
    (hd : ∀ i ∈ s.nodes, i ∉ t.nodes) :
    Open (g.alternative a b).1 a (s.addOther (.node g.size false t .nil .nil)) ∧
      (s.addOther (.node g.size false t .nil .nil)).IsOther (g.alternative a b).1 := by
  obtain ⟨l, hl, e, he, sub, d, hk, halt⟩ := ha.exists_alternative hs b
  rw [halt]
  -- the new alternative is a piece of its own before it is attached
  have hc := hb.enclose (k := .alt b.entry none) (fun _ => ⟨rfl, hb.entry, rfl, trivial⟩)
    (g.node b.entry).line
  have hnode : ∀ i ∈ s.nodes,
      (((g.add (.alt b.entry none) (g.node b.entry).line).1.setUp b.exits).setNext g.size
        (some b.exits)).node i = g.node i := fun i hi => by
    have hbi : b.exits ≠ i := fun h => hd i hi (h ▸ hb.exits_mem)
    rw [node_setNext, if_neg fun h => (ha.lt i hi).ne' h.1, node_setUp,
      if_neg fun h => hbi h.1, node_add, if_neg (ha.lt i hi).ne]
  have hkind := kind_add g g.size (.alt b.entry none) (g.node b.entry).line
  rw [if_pos rfl, ← kind_setUp _ b.exits, ← kind_setNext _ g.size _ (some b.exits)] at hkind
  generalize ((g.add (.alt b.entry none) (g.node b.entry).line).1.setUp b.exits).setNext g.size
    (some b.exits) = g₁ at hc hnode hkind ⊢
  have ha₁ : Open g₁ a s := ha.congr (Nat.le_of_lt (hc.lt _ hc.exits_mem)) hnode
  have hs₁ : s.IsOther g₁ := hs.congr fun i hi => by rw [kind, hnode i hi, kind]
  have hdx : ∀ i ∈ s.nodes, i ∉ (Shape.node g.size false t .nil .nil).nodes := fun i hi => by
    simp only [Shape.nodes, List.append_nil, List.mem_cons, not_or]
    exact ⟨(ha.lt i hi).ne, hd i hi⟩
  have hlm : l ∈ s.nodes := s.heads_sublist.subset (List.mem_of_mem_getLast? hl)
  have hres := ha₁.attach hs₁ hc ⟨rfl, b.entry, none, hkind⟩ hdx hl he
    (by rw [kind, hnode l hlm, ← kind, hk])
  dsimp only at hres ⊢
  exact hres

end Open

/-! ## What the operations leave alone -/

/-- The graph `h` has the nodes of `g`, all but those in `L` as they were. The kinds that are new
are kinds of groups. -/
structure Extends (g h : Graph) (L : List NodeId) : Prop where
  size_le : g.size ≤ h.size
  node : ∀ i < g.size, i ∉ L → h.node i = g.node i
  kind : ∀ i, h.kind i = g.kind i ∨ (h.kind i).sub? ≠ none

theorem Extends.enclose {k : NodeKind} {line : Nat} (hk : k.sub? ≠ none) (e : NodeId) :
    Extends g (((g.add k line).1.setUp e).setNext g.size (some e)) [e] where
  size_le := by simp
  node i hi he := by
    rw [node_setNext, if_neg fun h => hi.ne' h.1, node_setUp,
      if_neg fun h => he (List.mem_singleton.mpr h.1.symm), node_add, if_neg hi.ne]
  kind i := by
    rw [kind_setNext, kind_setUp, kind_add]
    split
    · exact .inr hk
    · exact .inl rfl

theorem kind_redirect {fuel : Nat} {target : Option NodeId} (i : NodeId) :
    (redirect target fuel g p).kind i = g.kind i := by
  induction fuel generalizing g p with
  | zero => rfl
  | succ fuel ih =>
    cases p
    · rfl
    · rw [redirect, ih, kind_setNext]

theorem Extends.subset (hgh : Extends g h L) (hs : L ⊆ M) : Extends g h M where
  size_le := hgh.size_le
  node i hi hm := hgh.node i hi fun h => hm (hs h)
  kind := hgh.kind

namespace Open

theorem extends_option (hp : Open g a s) : Extends g (g.option a).1 s.nodes :=
  (Extends.enclose (by simp [NodeKind.sub?]) a.exits).subset (by simpa using hp.exits_mem)

theorem extends_firstAlternative (hp : Open g a s) : Extends g (g.firstAlternative a).1 s.nodes :=
  (Extends.enclose (by simp [NodeKind.sub?]) a.exits).subset (by simpa using hp.exits_mem)

theorem extends_redirect (hp : Open g a s) (target : Option NodeId) :
    Extends g (g.redirectExits a.exits target) s.nodes where
  size_le := size_redirectExits.ge
  node _ _ hi := hp.node_redirect target hi
  kind i := .inl (kind_redirect i)


theorem extends_iteration (hp : Open g a s) : Extends g (g.iteration a).1 s.nodes where
  size_le := by simp [Graph.iteration]
  node i hi hs := by
    obtain ⟨g₁, hg⟩ : ∃ g₁, (g.add (.iter a.entry) (g.node a.entry).line).1.setUp a.exits = g₁ :=
      ⟨_, rfl⟩
    have hn : ∀ j < g.size, j ≠ a.exits → g₁.node j = g.node j := fun j hj hja => by
      rw [← hg, node_setUp, if_neg fun h => hja h.1.symm, node_add, if_neg hj.ne]
    have hc : Chain g₁.next (some a.exits) s.exits := hp.chain.congr fun j _ => by simp [← hg]
    have hb : ∀ j ∈ s.exits, j < g₁.size := fun j hj => by
      rw [← hg, size_setUp, size_add]
      exact Nat.lt_succ_of_lt (hp.exits_lt j hj)
    simp only [Graph.iteration, snd_add, hg]
    rw [node_redirectExits hc hp.exits_nodup hb, if_neg fun h => hs (s.exits_subset i h)]
    exact hn i hi fun h => hs (h ▸ hp.exits_mem)
  kind i := by
    simp only [Graph.iteration, redirectExits, kind_redirect, kind_setUp, kind_add]
    split
    · exact .inr (by simp [NodeKind.sub?])
    · exact .inl rfl

theorem extends_alternative (ha : Open g a s) (hs : s.IsOther g) (hb : Open g b t) :
    Extends g (g.alternative a b).1 (s.nodes ++ t.nodes) := by
  obtain ⟨l, hl, e, he, sub, d, hk, halt⟩ := ha.exists_alternative hs b
  rw [halt]
  have hls : l ∈ s.nodes := s.heads_sublist.subset (List.mem_of_mem_getLast? hl)
  have hes : e ∈ s.nodes := s.exits_subset e (List.mem_of_mem_getLast? he)
  have hbt := hb.exits_mem
  refine ⟨by simp, fun i hi hni => ?_, fun i => ?_⟩
  · rw [List.mem_append, not_or] at hni
    have hei : e ≠ i := fun h => hni.1 (h ▸ hes)
    have hli : l ≠ i := fun h => hni.1 (h ▸ hls)
    have hbi : b.exits ≠ i := fun h => hni.2 (h ▸ hbt)
    rw [node_setNext, if_neg fun h => hei h.1, node_setKind, if_neg fun h => hli h.1, node_setUp,
      if_neg fun h => hi.ne' h.1, node_setNext, if_neg fun h => hi.ne' h.1, node_setUp,
      if_neg fun h => hbi h.1, node_add, if_neg hi.ne]
  · simp only [kind_setNext, kind_setKind, kind_setUp, kind_add]
    split
    · exact .inr (by simp [NodeKind.sub?])
    · split
      · exact .inr (by simp [NodeKind.sub?])
      · exact .inl rfl

theorem setSpan (hp : Open g a s) (i : NodeId) (sp : Option Span) : Open (g.setSpan i sp) a s := by
  have hk : ∀ j, (g.setSpan i sp).kind j = g.kind j := fun j => by
    simp only [kind, Graph.setSpan, node_modify]
    split <;> rfl
  have hn : ∀ j, (g.setSpan i sp).next j = g.next j := fun j => by
    simp only [next, Graph.setSpan, node_modify]
    split <;> rfl
  refine ⟨hp.fits.congr (fun j _ => by rw [hk]) (fun j _ => hn j) fun j _ => ?_, hp.nodup,
    fun j hj => ?_, hp.entry, hp.chain.congr fun j _ => hn j⟩
  · rw [Graph.setSpan, node_modify]
    split <;> rfl
  · rw [Graph.setSpan, size_modify]
    exact hp.lt j hj

end Open

/-! ## Pieces built on top of a graph -/

@[simp] theorem size_single {k : NodeKind} {line : Nat} :
    (g.single k line).1.size = g.size + 1 := by
  simp [single]

@[simp] theorem size_option : (g.option a).1.size = g.size + 1 := by
  simp [option]

@[simp] theorem size_iteration : (g.iteration a).1.size = g.size + 1 := by
  simp [iteration]

@[simp] theorem size_firstAlternative : (g.firstAlternative a).1.size = g.size + 1 := by
  simp [firstAlternative]

@[simp] theorem size_sequence : (g.sequence a b).1.size = g.size := by
  simp [sequence]

@[simp] theorem size_alternative : (g.alternative a b).1.size = g.size + 1 := by
  unfold alternative
  simp only [size_setNext]
  split <;> simp

@[simp] theorem snd_alternative : (g.alternative a b).2 = a := rfl

/-- The graph `h` has the nodes of `g`, and behind them nodes of kinds that meet `Q`. -/
structure Adds (Q : NodeKind → Prop) (g h : Graph) : Prop where
  size_le : g.size ≤ h.size
  node : ∀ i < g.size, h.node i = g.node i
  kind : ∀ i, g.size ≤ i → i < h.size → Q (h.kind i)

/-- The piece holds a tree of all the nodes that `h` has and `g` has not. -/
structure Built (Q : NodeKind → Prop) (g h : Graph) (p : Piece) (s : Shape) : Prop where
  adds : Adds Q g h
  piece : Open h p s
  mem : ∀ i, i ∈ s.nodes ↔ g.size ≤ i ∧ i < h.size

section

variable {Q R : NodeKind → Prop} {k : Graph}

theorem Adds.trans (hgh : Adds Q g h) (hhk : Adds Q h k) : Adds Q g k where
  size_le := hgh.size_le.trans hhk.size_le
  node i hi := by rw [hhk.node i (hi.trans_le hgh.size_le), hgh.node i hi]
  kind i hg hk := by
    by_cases hi : i < h.size
    · rw [Graph.kind, hhk.node i hi]
      exact hgh.kind i hg hi
    · exact hhk.kind i (Nat.le_of_not_lt hi) hk

theorem Adds.mono (hQ : ∀ l, Q l → R l) (hgh : Adds Q g h) : Adds R g h :=
  ⟨hgh.size_le, hgh.node, fun i hg hh => hQ _ (hgh.kind i hg hh)⟩

theorem Built.mono (hQ : ∀ l, Q l → R l) (hb : Built Q g h a s) : Built R g h a s :=
  ⟨hb.adds.mono hQ, hb.piece, hb.mem⟩

theorem Built.size_eq (hb : Built Q g h a s) : h.size = g.size + s.nodes.length := by
  have hp : s.nodes.Perm (List.range' g.size (h.size - g.size)) :=
    (List.perm_ext_iff_of_nodup hb.piece.nodup List.nodup_range').mpr fun i => by
      have := hb.adds.size_le
      rw [hb.mem, List.mem_range'_1]
      grind
  rw [hp.length_eq, List.length_range', Nat.add_sub_cancel' hb.adds.size_le]

/-- Whether a kind of node is fit for a production can be told without the groups in it. -/
def AllowsGroups (Q : NodeKind → Prop) : Prop := Q .empty ∧ ∀ l, l.sub? ≠ none → Q l

theorem Adds.extend (hQ : AllowsGroups Q) (hgh : Adds Q g h) {L : List NodeId}
    (hhk : Extends h k L) (hL : ∀ i ∈ L, g.size ≤ i) : Adds Q g k where
  size_le := hgh.size_le.trans hhk.size_le
  node i hi := by
    rw [hhk.node i (hi.trans_le hgh.size_le) fun h => absurd (hL i h) (Nat.not_le_of_lt hi),
      hgh.node i hi]
  kind i hg hk := by
    rcases hhk.kind i with hi | hi
    · rw [hi]
      by_cases hh : i < h.size
      · exact hgh.kind i hg hh
      · rw [Graph.kind, node_of_size_le (Nat.le_of_not_lt hh)]
        exact hQ.1
    · exact hQ.2 _ hi

theorem Built.single {l : NodeKind} (hl : l.sub? = none) (hQ : Q l) (line : Nat) :
    Built Q g (g.single l line).1 (g.single l line).2 (.node g.size false .nil .nil .nil) := by
  have hp := Open.single (g := g) hl line
  refine ⟨⟨by simp, fun i hi => ?_, fun i hg hh => ?_⟩, hp, fun i => ?_⟩
  · simp only [Graph.single, node_add, if_neg hi.ne]
  · have : i = g.size := by rw [size_single] at hh; grind
    simp only [Graph.single, kind_add, if_pos this]
    exact hQ
  · simp only [Shape.nodes, List.append_nil, List.mem_singleton, size_single]
    grind

theorem Built.setSpan (hb : Built Q g h a s) {i : NodeId} (hi : g.size ≤ i) (sp : Option Span) :
    Built Q g (h.setSpan i sp) a s := by
  refine ⟨⟨?_, fun j hj => ?_, fun j hg hh => ?_⟩, hb.piece.setSpan i sp, ?_⟩
  · rw [Graph.setSpan, size_modify]
    exact hb.adds.size_le
  · have hij : i ≠ j := (hj.trans_le hi).ne'
    rw [Graph.setSpan, node_modify, if_neg fun h => hij h.1]
    exact hb.adds.node j hj
  · rw [Graph.setSpan, size_modify] at hh
    have : (h.setSpan i sp).kind j = h.kind j := by
      simp only [Graph.kind, Graph.setSpan, node_modify]
      split <;> rfl
    rw [this]
    exact hb.adds.kind j hg hh
  · rw [Graph.setSpan, size_modify]
    exact hb.mem

theorem Built.option (hQ : AllowsGroups Q) (hb : Built Q g h a s) :
    Built Q g (h.option a).1 (h.option a).2 (.node h.size false s .nil .nil) where
  adds := hb.adds.extend hQ hb.piece.extends_option fun i hi => ((hb.mem i).mp hi).1
  piece := hb.piece.option
  mem i := by
    have := hb.adds.size_le
    simp only [Shape.nodes, List.append_nil, List.mem_cons, hb.mem, size_option]
    grind

theorem Built.iteration (hQ : AllowsGroups Q) (hb : Built Q g h a s) :
    Built Q g (h.iteration a).1 (h.iteration a).2 (.node h.size true s .nil .nil) where
  adds := hb.adds.extend hQ hb.piece.extends_iteration fun i hi => ((hb.mem i).mp hi).1
  piece := hb.piece.iteration
  mem i := by
    have := hb.adds.size_le
    simp only [Shape.nodes, List.append_nil, List.mem_cons, hb.mem, size_iteration]
    grind

/-- What was there before a piece stays as it is when that is finished. -/
theorem Built.node_finish (hb : Built Q g h a s) {i : NodeId} (hi : i < g.size) :
    (h.finish a).node i = g.node i := by
  have hnot : i ∉ s.nodes := fun hm => absurd ((hb.mem i).mp hm).1 (Nat.not_le_of_lt hi)
  rw [Graph.finish, (hb.piece.extends_redirect none).node i (hi.trans_le hb.adds.size_le) hnot,
    hb.adds.node i hi]

/-- A piece that is built on top of another one leaves that one as it is. -/
theorem Built.keeps (ha : Built Q g h a s) (hb : Built Q h k b t) :
    Open k a s ∧ ∀ i ∈ s.nodes, i ∉ t.nodes := by
  refine ⟨ha.piece.congr hb.adds.size_le fun i hi => hb.adds.node i (ha.piece.lt i hi),
    fun i hi ht => ?_⟩
  exact absurd ((hb.mem i).mp ht).1 (Nat.not_le_of_lt (ha.piece.lt i hi))

theorem Built.sequence (hQ : AllowsGroups Q) (ha : Built Q g h a s) (hb : Built Q h k b t) :
    Built Q g (k.sequence a b).1 (k.sequence a b).2 (s.append t) := by
  obtain ⟨ha', hd⟩ := ha.keeps hb
  refine ⟨?_, ha'.sequence hb.piece hd, fun i => ?_⟩
  · exact (ha.adds.trans hb.adds).extend hQ (ha'.extends_redirect _)
      fun i hi => ((ha.mem i).mp hi).1
  · have h₁ := ha.adds.size_le
    have h₂ := hb.adds.size_le
    rw [Shape.nodes_append, List.mem_append, ha.mem, hb.mem, size_sequence]
    grind

/-- An alternative is put behind a group of alternatives. -/
theorem Built.addAlternative (hQ : AllowsGroups Q) (ha : Built Q g h a s) (hs : s.IsOther h)
    (hb : Built Q h k b t) :
    Built Q g (k.alternative a b).1 (k.alternative a b).2
        (s.addOther (.node k.size false t .nil .nil)) ∧
      (s.addOther (.node k.size false t .nil .nil)).IsOther (k.alternative a b).1 := by
  obtain ⟨ha', hd⟩ := ha.keeps hb
  have hs' : s.IsOther k := hs.congr fun i hi => by
    rw [Graph.kind, hb.adds.node i (ha.piece.lt i hi), Graph.kind]
  obtain ⟨hp, ho⟩ := ha'.alternative hs' hb.piece hd
  rw [snd_alternative]
  refine ⟨⟨?_, hp, fun i => ?_⟩, ho⟩
  · refine (ha.adds.trans hb.adds).extend hQ (ha'.extends_alternative hs' hb.piece) fun i hi => ?_
    rcases List.mem_append.mp hi with hi | hi
    · exact ((ha.mem i).mp hi).1
    · exact ha.adds.size_le.trans ((hb.mem i).mp hi).1
  · have h₁ := ha.adds.size_le
    have h₂ := hb.adds.size_le
    rw [(Shape.nodes_addOther _ _).mem_iff]
    simp only [Shape.nodes, List.append_nil, List.mem_append, List.mem_cons, ha.mem, hb.mem,
      size_alternative]
    grind

/-- Two pieces become a group of two alternatives. -/
theorem Built.alternatives (hQ : AllowsGroups Q) (ha : Built Q g h a s) (hb : Built Q h k b t)
    {k' : Graph} {a' : Piece} (hk' : k.firstAlternative a = (k', a')) :
    Built Q g (k'.alternative a' b).1 (k'.alternative a' b).2
        (.node k.size false s (.node (k.size + 1) false t .nil .nil) .nil) ∧
      (Shape.node k.size false s (.node (k.size + 1) false t .nil .nil) .nil).IsOther
        (k'.alternative a' b).1 := by
  obtain ⟨ha₁, hd⟩ := ha.keeps hb
  have hext := ha₁.extends_firstAlternative
  have hfst := ha₁.firstAlternative
  have hother : (Shape.node k.size false s .nil .nil).IsOther (k.firstAlternative a).1 :=
    ⟨rfl, a.entry, none, by simp [firstAlternative, kind_add]⟩
  have hsize : k'.size = k.size + 1 := by
    rw [← size_firstAlternative (g := k) (a := a), hk']
  rw [hk'] at hext hfst hother
  have hb' : Open k' b t := hb.piece.congr hext.size_le fun i hi =>
    hext.node i (hb.piece.lt i hi) fun hs => hd i hs hi
  have hd' : ∀ i ∈ (Shape.node k.size false s .nil .nil).nodes, i ∉ t.nodes := by
    simp only [Shape.nodes, List.append_nil, List.mem_cons]
    rintro i (rfl | hi)
    · exact fun h => (hb.piece.lt _ h).ne rfl
    · exact hd i hi
  obtain ⟨hp, ho⟩ := hfst.alternative hother hb' hd'
  rw [hsize] at hp ho
  rw [snd_alternative]
  refine ⟨⟨?_, hp, fun i => ?_⟩, ho⟩
  · have h₁ : Adds Q g k' := (ha.adds.trans hb.adds).extend hQ hext fun i hi =>
      ((ha.mem i).mp hi).1
    refine h₁.extend hQ (hfst.extends_alternative hother hb') fun i hi => ?_
    simp only [Shape.nodes, List.append_nil, List.mem_append, List.mem_cons] at hi
    rcases hi with (rfl | hi) | hi
    · exact ha.adds.size_le.trans hb.adds.size_le
    · exact ((ha.mem i).mp hi).1
    · exact ha.adds.size_le.trans ((hb.mem i).mp hi).1
  · have h₁ := ha.adds.size_le
    have h₂ := hb.adds.size_le
    simp only [Shape.nodes, List.append_nil, List.mem_append, List.mem_cons, ha.mem, hb.mem,
      size_alternative, hsize]
    grind

end

/-! ## Marking a context -/

/-- Marks what lies inside of a node, or its characters. -/
def markInside (n : Nat) (g : Graph) (i : NodeId) : Graph :=
  match g.kind i with
  | .alt sub down => markContextFrom n (markContextFrom n g (some sub)) down
  | .iter sub | .opt sub => markContextFrom n g (some sub)
  | k => g.setKind i k.inContext

theorem markContextFrom_some (n : Nat) (g : Graph) (i : NodeId) :
    markContextFrom (n + 1) g (some i) =
      if (g.node i).up then g.markInside n i
      else markContextFrom n (g.markInside n i) (g.next i) :=
  rfl

section

variable {P : Graph → Prop} (hP : ∀ g i, P g → P (g.setKind i (g.kind i).inContext))
include hP

theorem markInside_preserves {n : Nat} (hn : ∀ {g}, P g → ∀ p, P (markContextFrom n g p))
    (hg : P g) (i : NodeId) : P (g.markInside n i) := by
  unfold markInside
  split
  · exact hn (hn hg _) _
  · exact hn hg _
  · exact hn hg _
  · exact hP g i hg

/-- What holds of a graph goes on to hold if it does when a single node is marked. -/
theorem markContextFrom_preserves (n : Nat) (hg : P g) (p : Option NodeId) :
    P (markContextFrom n g p) := by
  induction n generalizing g p with
  | zero => exact hg
  | succ n ih =>
    cases p with
    | none => exact hg
    | some i =>
      have hin : P (g.markInside n i) := markInside_preserves hP ih hg i
      rw [markContextFrom_some]
      split
      · exact hin
      · exact ih hin _

end

end Graph

end Lookahead
