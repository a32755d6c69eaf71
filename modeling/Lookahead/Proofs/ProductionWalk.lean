import Lookahead.Proofs.FirstWalk

/-!
# Walks through a production

A walk that marks a node, goes into what the node has inside and then on behind it passes all nodes
of a production (`Table.added_iff_within`). What such a walk does to a table on its way is the same
argument for every one of them (`Table.Touring`): from what is done at one node by itself, what is
done on the whole way (`Table.Touring.tour`).
-/

namespace Lookahead

namespace Table

variable {d t : Table} {a : SymbolId} {i j : NodeId} {p x : Option NodeId} {m n : IndexSet}
  {q r s : Table × IndexSet} {fuel : Nat}

/-- Where a walk through a production goes on from a node. -/
inductive Link (t : Table) (i j : NodeId) : Prop
  | next (h : t.graph.next i = some j)
  | sub (h : (t.graph.kind i).sub? = some j)
  | down (h : (t.graph.kind i).down? = some j)

theorem Within.link (hi : t.Within a i) (h : t.Link i j) : t.Within a j := by
  cases h with
  | next h => exact hi.next h
  | sub h => exact hi.sub h
  | down h => exact hi.down h

/-- A walk from the root passes all nodes of the production. -/
theorem added_iff_within (h : IndexSet.Marking d.Link (d.Within a) none m n)
    (hr : ∀ i ∈ (d.symbol a).root, n.get i = true) (hm : ∀ j, m.get j = false) :
    IndexSet.Added m n j ↔ d.Within a j := by
  refine ⟨fun hj => (h.sound j hj.1).resolve_left (by simp [hm]), fun hj => ⟨?_, hm j⟩⟩
  have step {i k} (hi : n.get i = true) (hl : d.Link i k) : n.get k = true :=
    h.closed i k ⟨hi, hm i⟩ nofun hl
  induction hj with
  | root h₁ => exact hr _ h₁
  | next _ h₁ ih => exact step ih (.next h₁)
  | sub _ h₁ ih => exact step ih (.sub h₁)
  | down _ h₁ ih => exact step ih (.down h₁)

/-- What the walk `W` does inside of a node, from what has been done at the node by itself. -/
def inside (d : Table) (W : Table × IndexSet → Option NodeId → Table × IndexSet)
    (q : Table × IndexSet) (i : NodeId) : Table × IndexSet :=
  match d.graph.kind i with
  | .opt sub | .iter sub => W q (some sub)
  | .alt sub down => W (W q (some sub)) down
  | _ => q

/-- The walk `W` goes through the production of `a` over tables that keep `S`. What is done on the
way from `q` to `r`, by a walk that is through with all it has marked except `x`, is `R x q r`. -/
structure Touring (d : Table) (a : SymbolId) (S : Table → Prop)
    (R : Option NodeId → Table × IndexSet → Table × IndexSet → Prop)
    (W : Nat → Table × IndexSet → Option NodeId → Table × IndexSet) : Prop where
  same : ∀ {x q r}, R x q r → S r.1
  walk : ∀ {x q r}, R x q r → IndexSet.Marking d.Link (d.Within a) x q.2 r.2
  refl : ∀ {t m}, S t → R none (t, m) (t, m)
  trans : ∀ {x q r s}, R x q r → R none r s → R x q s
  close : ∀ {i q r}, R (some i) q r → (∀ k, d.Link i k → r.2.get k = true) → R none q r
  stop : ∀ {n q}, W (n + 1) q none = q
  met : ∀ {n t m i}, m.get i = true → W (n + 1) (t, m) (some i) = (t, m)
  step : ∀ {n t m i}, S t → d.Within a i → i < m.size → m.get i = false →
    ∃ q, R (some i) (t, m) q ∧
      W (n + 1) (t, m) (some i) = W n (d.inside (W n) q i) (d.graph.next i)

namespace Touring

variable {S : Table → Prop} {R : Option NodeId → Table × IndexSet → Table × IndexSet → Prop}
  {W : Nat → Table × IndexSet → Option NodeId → Table × IndexSet}

/-- The walk inside of a node goes where the node leads to. -/
theorem inside (h : Touring d a S R W) (hq : R (some i) (t, m) q)
    (hwalk : ∀ {q p}, R (some i) (t, m) q → (∀ k ∈ p, d.Link i k) →
      R none q (W fuel q p) ∧ ∀ k ∈ p, (W fuel q p).2.get k = true) :
    R (some i) (t, m) (d.inside (W fuel) q i) ∧
      ∀ k, (d.graph.kind i).sub? = some k ∨ (d.graph.kind i).down? = some k →
        (d.inside (W fuel) q i).2.get k = true := by
  unfold Table.inside
  cases hk : d.graph.kind i with
  | opt sub | iter sub =>
    have hsub := hwalk (p := some sub) hq fun k h => .sub (by rw [hk]; exact h)
    refine ⟨h.trans hq hsub.1, ?_⟩
    rintro k (h | h)
    · exact hsub.2 k h
    · cases h
  | alt sub down =>
    have hsub := hwalk (p := some sub) hq fun k h => .sub (by rw [hk]; exact h)
    have hr := h.trans hq hsub.1
    have hdown := hwalk (p := down) hr fun k h => .down (by rw [hk]; exact h)
    refine ⟨h.trans hr hdown.1, ?_⟩
    rintro k (hk | hk)
    · exact (h.walk hdown.1).mono k (hsub.2 k hk)
    · exact hdown.2 k hk
  | _ => exact ⟨hq, by simp [NodeKind.sub?, NodeKind.down?]⟩

/-- The walk marks where it starts and all it is led to from there. -/
theorem tour (h : Touring d a S R W) (hd : d.Formed) (hs : S q.1)
    (hm : q.2.size = d.graph.size) (hf : IndexSet.unmarked q.2 < fuel)
    (hp : ∀ i ∈ p, d.Within a i) :
    R none q (W fuel q p) ∧ ∀ i ∈ p, (W fuel q p).2.get i = true := by
  induction fuel generalizing p q with
  | zero => exact absurd hf (Nat.not_lt_zero _)
  | succ fuel ih =>
    obtain ⟨t, m⟩ := q
    cases p with
    | none =>
      rw [h.stop]
      exact ⟨h.refl hs, nofun⟩
    | some i =>
      have hi := hp i rfl
      cases hn : m.get i with
      | true =>
        rw [h.met hn]
        exact ⟨h.refl hs, by simpa using hn⟩
      | false =>
        have hlt : i < m.size := hm ▸ Inside.lt hd ⟨a, hi⟩
        obtain ⟨q, hq, hstep⟩ := h.step (n := fuel) hs hi hlt hn
        have hwalk {q p} (hq : R (some i) (t, m) q) (hp : ∀ k ∈ p, d.Within a k) :=
          ih (h.same hq) ((h.walk hq).size.trans hm)
            (((h.walk hq).unmarked_lt hlt hn).trans_le (Nat.le_of_lt_succ hf)) hp
        obtain ⟨hr, hsub⟩ := h.inside hq fun hq hp => hwalk hq fun k hk => hi.link (hp k hk)
        rw [hstep]
        generalize d.inside (W fuel) q i = r at hr hsub
        have hnext := hwalk hr fun k hk => hi.next hk
        refine ⟨h.close (h.trans hr hnext.1) fun k hk => ?_, fun k hk => ?_⟩
        · cases hk with
          | next hk => exact hnext.2 k hk
          | sub hk => exact (h.walk hnext.1).mono k (hsub k (.inl hk))
          | down hk => exact (h.walk hnext.1).mono k (hsub k (.inr hk))
        · cases hk
          exact (h.walk hnext.1).mono i ((h.walk hr).marked i rfl)

/-- The walk from the root, with no mark to start with. -/
theorem production (h : Touring d a S R W) (hd : d.Formed) (hs : S t)
    (hg : t.graph.size = d.graph.size) :
    R none (t, .empty t.graph.size)
        (W (t.graph.size + 1) (t, .empty t.graph.size) (d.symbol a).root) ∧
      ∀ i ∈ (d.symbol a).root,
        (W (t.graph.size + 1) (t, .empty t.graph.size) (d.symbol a).root).2.get i = true := by
  refine h.tour hd hs (by rw [IndexSet.size_empty, hg]) ?_ fun i hi => .root hi
  have := IndexSet.unmarked_le_size (.empty t.graph.size)
  rw [IndexSet.size_empty] at this
  exact Nat.lt_succ_of_le this

end Touring

end Table

end Lookahead
