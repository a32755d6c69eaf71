import Lookahead.Proofs.Productions

/-!
# Walks through a production

A walk of the analysis knows only the node where it stands. For a node of a closed tree
`Graph.Placed` says what the links of that node mean: where its content and the other alternatives
start, what they lead back to, and what follows. A walk along `next` leaves group after group and
never comes back (`Graph.Closed.exists_chain`). The nodes of a production are those that its root
leads to (`Table.Formed.within_iff`).
-/

namespace Lookahead

namespace Shape

variable {g : Graph} {up loop : Bool} {s b o r : Shape} {i : NodeId} {p q : Option NodeId}

/-- What follows a node, given the rest of its group and what follows the group. -/
def exitTo (r : Shape) (q : Option NodeId) : Option NodeId := if r.isNil then q else r.entry

theorem after_eq (r : Shape) (q : Option NodeId) : r.after (· = q) = (· = r.exitTo q) := by
  unfold after exitTo
  split <;> rfl

theorem Fits.next_eq (hs : (node i loop b o r).Fits g (· = q) up) : g.next i = r.exitTo q := by
  have := hs.2.1.next
  rwa [after_eq] at this

/-- Behind the content of a node comes the node again, or what comes behind the node. -/
theorem Fits.body (hs : (node i loop b o r).Fits g (· = q) up) :
    b.Fits g (· = if loop then some i else r.exitTo q) true := by
  have hb := hs.2.2.1
  rw [after_eq] at hb
  cases loop <;> simpa using hb

/-- Behind the other alternatives comes what comes behind the node. -/
theorem Fits.others (hs : (node i loop b o r).Fits g (· = q) up) :
    o.Fits g (· = r.exitTo q) true := by
  have ho := hs.2.2.2.1
  rwa [after_eq] at ho

theorem Refers.entry_body {k : NodeKind} (hr : Refers g k loop b o) : b.entry = k.sub? := by
  cases k <;> first | exact hr.2.1 | exact entry_eq_none.mpr hr.2.1

theorem Refers.entry_others {k : NodeKind} (hr : Refers g k loop b o) : o.entry = k.down? := by
  cases k <;> first | exact hr.2.2.1 | exact entry_eq_none.mpr hr.2.2

/-- Every node of a tree is the first node of a tree. -/
theorem Fits.exists_node (hs : s.Fits g (· = q) up) (hi : i ∈ s.nodes) :
    ∃ l b o r p vp, (node i l b o r).Fits g (· = p) vp ∧
      (node i l b o r).nodes.Sublist s.nodes ∧ (vp = false → p = q ∧ up = false) := by
  induction s generalizing q up with
  | nil => simp [nodes] at hi
  | node j l b o r ihb iho ihr =>
    obtain ⟨-, -, -, -, hr⟩ := id hs
    simp only [nodes, List.mem_cons, List.mem_append] at hi
    have hsub : b.nodes.Sublist (node j l b o r).nodes ∧ o.nodes.Sublist (node j l b o r).nodes ∧
        r.nodes.Sublist (node j l b o r).nodes := by
      refine ⟨.cons _ (List.sublist_append_left ..), .cons _ ?_, .cons _ ?_⟩
      · exact (List.sublist_append_left ..).trans (List.sublist_append_right ..)
      · exact (List.sublist_append_right ..).trans (List.sublist_append_right ..)
    rcases hi with rfl | hi | hi | hi
    · exact ⟨l, b, o, r, q, up, hs, .refl _, fun h => ⟨rfl, h⟩⟩
    · obtain ⟨l', b', o', r', p, vp, hf, hn, hv⟩ := ihb hs.body hi
      exact ⟨l', b', o', r', p, vp, hf, hn.trans hsub.1, fun h => absurd (hv h).2 (by simp)⟩
    · obtain ⟨l', b', o', r', p, vp, hf, hn, hv⟩ := iho hs.others hi
      exact ⟨l', b', o', r', p, vp, hf, hn.trans hsub.2.1, fun h => absurd (hv h).2 (by simp)⟩
    · obtain ⟨l', b', o', r', p, vp, hf, hn, hv⟩ := ihr hr hi
      exact ⟨l', b', o', r', p, vp, hf, hn.trans hsub.2.2, hv⟩

/-- From every node of a group, following `next` leads on without repetition to what follows the
group. -/
theorem Fits.exists_chain (hs : s.Fits g (· = q) up) (hd : s.nodes.Nodup) {K : List NodeId}
    (hK : Graph.Chain g.next q K) (hKd : K.Nodup) (hdis : s.nodes.Disjoint K) (hi : i ∈ s.nodes) :
    ∃ L, Graph.Chain g.next (some i) L ∧ L.Nodup ∧ ∀ j ∈ L, j ∈ s.nodes ∨ j ∈ K := by
  induction s generalizing q up K i with
  | nil => simp [nodes] at hi
  | node j l b o r ihb iho ihr =>
    have hnext := hs.next_eq
    obtain ⟨-, -, hb, ho, hr⟩ := hs
    rw [after_eq] at hb ho
    obtain ⟨hjb, hjo, hjr, hdb, hdo, hdr, hbo, hbr, hor⟩ := nodup_node.mp hd
    have hmem : ∀ {k}, k ∈ (node j l b o r).nodes ↔
        k = j ∨ k ∈ b.nodes ∨ k ∈ o.nodes ∨ k ∈ r.nodes := by
      simp [nodes]
    have hjK : j ∉ K := hdis (hmem.mpr (.inl rfl))
    have hrK : r.nodes.Disjoint K := fun k hk => hdis (hmem.mpr (.inr (.inr (.inr hk))))
    -- the walk that goes on behind the first node
    have hM : ∃ M, Graph.Chain g.next (r.exitTo q) M ∧ M.Nodup ∧
        ∀ k ∈ M, k ∈ r.nodes ∨ k ∈ K := by
      cases r with
      | nil => exact ⟨K, hK, hKd, fun k hk => .inr hk⟩
      | node e l' b' o' r' => exact ihr hr hdr hK hKd hrK (i := e) (by simp [nodes])
    obtain ⟨M, hMc, hMd, hMs⟩ := hM
    have hjM : j ∉ M := fun h => (hMs j h).elim hjr hjK
    have hcons : Graph.Chain g.next (some j) (j :: M) := ⟨rfl, by rwa [hnext]⟩
    have hinM : ∀ k ∈ M, k ∈ (node j l b o r).nodes ∨ k ∈ K := fun k hk =>
      (hMs k hk).imp_left fun h => hmem.mpr (.inr (.inr (.inr h)))
    have hbM : b.nodes.Disjoint M := fun k hk hkM => (hMs k hkM).elim (hbr hk)
      (hdis (hmem.mpr (.inr (.inl hk))))
    have hoM : o.nodes.Disjoint M := fun k hk hkM => (hMs k hkM).elim (hor hk)
      (hdis (hmem.mpr (.inr (.inr (.inl hk)))))
    rcases hmem.mp hi with rfl | hib | hio | hir
    · refine ⟨i :: M, hcons, List.nodup_cons.mpr ⟨hjM, hMd⟩, fun k hk => ?_⟩
      rcases List.mem_cons.mp hk with rfl | hk
      · exact .inl (hmem.mpr (.inl rfl))
      · exact hinM k hk
    · cases l with
      | true =>
        obtain ⟨L, hL, hLd, hLs⟩ := ihb (q := some j) (by simpa using hb) hdb hcons
          (List.nodup_cons.mpr ⟨hjM, hMd⟩)
          (List.disjoint_cons_right.mpr ⟨hjb, hbM⟩) hib
        refine ⟨L, hL, hLd, fun k hk => ?_⟩
        rcases hLs k hk with h | h
        · exact .inl (hmem.mpr (.inr (.inl h)))
        · rcases List.mem_cons.mp h with rfl | h
          · exact .inl (hmem.mpr (.inl rfl))
          · exact hinM k h
      | false =>
        obtain ⟨L, hL, hLd, hLs⟩ := ihb (q := r.exitTo q) (by simpa using hb) hdb hMc hMd hbM hib
        exact ⟨L, hL, hLd, fun k hk => (hLs k hk).elim
          (fun h => .inl (hmem.mpr (.inr (.inl h)))) (hinM k)⟩
    · obtain ⟨L, hL, hLd, hLs⟩ := iho ho hdo hMc hMd hoM hio
      exact ⟨L, hL, hLd, fun k hk => (hLs k hk).elim
        (fun h => .inl (hmem.mpr (.inr (.inr (.inl h))))) (hinM k)⟩
    · obtain ⟨L, hL, hLd, hLs⟩ := ihr hr hdr hK hKd hrK hir
      exact ⟨L, hL, hLd, fun k hk => (hLs k hk).imp_left
        fun h => hmem.mpr (.inr (.inr (.inr h)))⟩

end Shape

namespace Graph

variable {g : Graph} {i r : NodeId} {s : Shape}

theorem Chain.mem_next {step : NodeId → Option NodeId} {L : List NodeId} {j : NodeId}
    (hL : Chain step (some i) L) (hj : step i = some j) : j ∈ L := by
  rcases L with _ | ⟨k, L⟩
  · cases hL
  · obtain ⟨hk, hL⟩ := hL
    cases hk
    rcases L with _ | ⟨l, L⟩
    · rw [hj] at hL
      cases hL
    · rw [hj] at hL
      cases hL.1
      simp

/-- A node among the nodes `N` of a production, with its content `b`, the alternatives `o` behind
it and the rest `x` of its group, which `q` follows. -/
structure Placed (g : Graph) (N : List NodeId) (i : NodeId) (loop : Bool) (b o x : Shape)
    (q : Option NodeId) (vp : Bool) : Prop where
  refers : Shape.Refers g (g.kind i) loop b o
  next : g.next i = x.exitTo q
  up : (g.node i).up = (x.isNil && vp)
  body : b.Fits g (· = if loop then some i else g.next i) true
  others : o.Fits g (· = g.next i) true
  rest : x.Fits g (· = q) vp
  last : vp = false → q = none
  sublist : (Shape.node i loop b o x).nodes.Sublist N

theorem Closed.exists_placed (hs : Closed g r s) (hi : i ∈ s.nodes) :
    ∃ loop b o x q vp, Placed g s.nodes i loop b o x q vp := by
  obtain ⟨l, b, o, x, q, vp, hf, hn, hv⟩ := hs.fits.exists_node hi
  have hnext := hf.next_eq
  have hb := hf.body
  have ho := hf.others
  obtain ⟨hr, hl, -, -, hx⟩ := hf
  rw [← hnext] at hb ho
  exact ⟨l, b, o, x, q, vp, hr, hnext, hl.up, hb, ho, hx, fun h => (hv h).1, hn⟩

/-- Following `next` leads to the end of the production. -/
theorem Closed.exists_chain (hs : Closed g r s) (hi : i ∈ s.nodes) :
    ∃ L, Chain g.next (some i) L ∧ L.Nodup ∧ ∀ j ∈ L, j ∈ s.nodes := by
  obtain ⟨L, hL, hd, hm⟩ := hs.fits.exists_chain hs.nodup (K := []) rfl .nil (by simp) hi
  exact ⟨L, hL, hd, fun j hj => by simpa using hm j hj⟩

end Graph

namespace Table

/-- The nodes of the production of `a`. -/
inductive Within (t : Table) (a : SymbolId) : NodeId → Prop
  | root {r} (h : (t.symbol a).root = some r) : Within t a r
  | next {i j} (hi : Within t a i) (hj : t.graph.next i = some j) : Within t a j
  | sub {i j} (hi : Within t a i) (hj : (t.graph.kind i).sub? = some j) : Within t a j
  | down {i j} (hi : Within t a i) (hj : (t.graph.kind i).down? = some j) : Within t a j

/-- No node belongs to two productions. -/
def Apart (t : Table) : Prop := ∀ a b i, t.Within a i → t.Within b i → a = b

variable {t : Table} {a : SymbolId} {i r : NodeId} {s : Shape}

/-- What the root of a tree leads to is in the tree. -/
theorem Within.mem (hi : t.Within a i) (hr : (t.symbol a).root = some r)
    (hs : t.graph.Closed r s) : i ∈ s.nodes := by
  induction hi with
  | root h =>
    rw [hr] at h
    cases h
    exact Shape.mem_nodes_of_entry hs.entry
  | next _ hj ih =>
    obtain ⟨L, hL, -, hm⟩ := hs.exists_chain ih
    exact hm _ (hL.mem_next hj)
  | sub _ hj ih =>
    obtain ⟨l, b, o, x, q, vp, hp⟩ := hs.exists_placed ih
    refine hp.sublist.subset (List.mem_cons_of_mem _ (List.mem_append_left _ ?_))
    exact Shape.mem_nodes_of_entry (hp.refers.entry_body.trans hj)
  | down _ hj ih =>
    obtain ⟨l, b, o, x, q, vp, hp⟩ := hs.exists_placed ih
    refine hp.sublist.subset (List.mem_cons_of_mem _ (List.mem_append_right _ ?_))
    exact List.mem_append_left _ (Shape.mem_nodes_of_entry (hp.refers.entry_others.trans hj))

/-- All nodes of a tree can be reached from its root. -/
theorem Within.of_fits {E : Option NodeId → Prop} {up : Bool} (hs : s.Fits t.graph E up)
    (he : ∀ e, s.entry = some e → t.Within a e) : ∀ i ∈ s.nodes, t.Within a i := by
  induction s generalizing E up with
  | nil => simp [Shape.nodes]
  | node j l b o x ihb iho ihx =>
    obtain ⟨hf, hl, hb, ho, hx⟩ := hs
    have hj := he j rfl
    intro i hi
    simp only [Shape.nodes, List.mem_cons, List.mem_append] at hi
    rcases hi with rfl | hi | hi | hi
    · exact hj
    · exact ihb hb (fun e h => hj.sub (by rw [← hf.entry_body, h])) i hi
    · exact iho ho (fun e h => hj.down (by rw [← hf.entry_others, h])) i hi
    · refine ihx hx (fun e h => hj.next ?_) i hi
      have hne : x ≠ .nil := fun hn => by simp [hn, Shape.entry] at h
      rw [(hl.of_ne hne).1, h]

/-- The nodes of a production are those of its tree. -/
theorem within_iff_of_closed (hr : (t.symbol a).root = some r) (hs : t.graph.Closed r s) :
    t.Within a i ↔ i ∈ s.nodes :=
  ⟨fun hi => hi.mem hr hs,
    Within.of_fits hs.fits (fun _ he => .root (hr.trans (hs.entry.symm.trans he))) i⟩

theorem Laid.within_iff (ht : t.Laid) : t.Within a i ↔
    ∃ r s, (t.symbol a).root = some r ∧ t.graph.Closed r s ∧ i ∈ s.nodes := by
  refine ⟨?_, ?_⟩
  · intro hi
    have : ∃ r, (t.symbol a).root = some r := by
      induction hi with
      | root h => exact ⟨_, h⟩
      | next _ _ ih => exact ih
      | sub _ _ ih => exact ih
      | down _ _ ih => exact ih
    obtain ⟨r, hr⟩ := this
    obtain ⟨s, hs⟩ := ht a r hr
    exact ⟨r, s, hr, hs, (within_iff_of_closed hr hs).mp hi⟩
  · rintro ⟨r, s, hr, hs, hi⟩
    exact (within_iff_of_closed hr hs).mpr hi

theorem Formed.within_iff (ht : t.Formed) : t.Within a i ↔
    ∃ r s, (t.symbol a).root = some r ∧ t.graph.Closed r s ∧ i ∈ s.nodes :=
  ht.laid.within_iff

theorem SameOutline.within {u : Table} (h : SameOutline t u) (hi : t.Within a i) :
    u.Within a i := by
  induction hi with
  | root hr => exact .root ((h.root a).trans hr)
  | next _ hj ih => exact ih.next ((h.graph.next _).trans hj)
  | sub _ hj ih => exact ih.sub ((h.graph.sub? _).trans hj)
  | down _ hj ih => exact ih.down ((h.graph.down? _).trans hj)

theorem SameOutline.within_iff {u : Table} (h : SameOutline t u) : u.Within a i ↔ t.Within a i :=
  ⟨h.symm.within, h.within⟩

theorem SameOutline.apart {u : Table} (h : SameOutline t u) (ht : t.Apart) : u.Apart :=
  fun a b i ha hb => ht a b i (h.within_iff.mp ha) (h.within_iff.mp hb)

end Table

end Lookahead
