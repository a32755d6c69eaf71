import Lookahead.IndexSet
import Mathlib.Data.Finset.Card

/-!
# Marks

Depth-first walks mark what they pass and turn back at marks. `IndexSet.Marking` says where such a
walk has been: it relates the marks before to the marks after. Walks are put together from it, and
`IndexSet.unmarked` bounds how deep they can go.
-/

namespace Lookahead

theorem countP_lt_countP {α : Type} {f g : α → Bool} {l : List α} {x : α}
    (h : ∀ y ∈ l, f y = true → g y = true) (hx : x ∈ l) (hf : f x = false) (hg : g x = true) :
    l.countP f < l.countP g := by
  obtain ⟨l₁, l₂, rfl⟩ := List.append_of_mem hx
  have h₁ : l₁.countP f ≤ l₁.countP g :=
    List.countP_mono_left fun y hy => h y (List.mem_append_left _ hy)
  have h₂ : l₂.countP f ≤ l₂.countP g :=
    List.countP_mono_left fun y hy => h y (List.mem_append_right _ (List.mem_cons_of_mem _ hy))
  rw [List.countP_append, List.countP_append, List.countP_cons_of_neg (by simp [hf]),
    List.countP_cons_of_pos hg]
  omega

namespace IndexSet

variable {E : Nat → Nat → Prop} {P Q : Nat → Prop} {x : Option Nat} {m n l : IndexSet} {i j : Nat}

/-- How many indices are not marked. -/
def unmarked (m : IndexSet) : Nat := (List.range m.size).countP fun i => !m.get i

theorem unmarked_le (hs : n.size = m.size) (h : ∀ i, m.get i = true → n.get i = true) :
    unmarked n ≤ unmarked m := by
  unfold unmarked
  rw [hs]
  refine List.countP_mono_left fun i _ hi => ?_
  by_contra hn
  simp_all

theorem unmarked_le_size (m : IndexSet) : unmarked m ≤ m.size := by
  unfold unmarked
  exact List.countP_le_length.trans_eq List.length_range

theorem get_insert_iff (hi : i < m.size) :
    (m.insert i).get j = true ↔ i = j ∨ m.get j = true := by
  by_cases hj : j < m.size
  · simp [get_insert hj]
  · have hle := Nat.le_of_not_lt hj
    rw [get_of_size_le hle, get_of_size_le (size_insert.trans_le hle)]
    simp only [Bool.false_eq_true, or_false, false_iff]
    rintro rfl
    exact hj hi

theorem unmarked_insert (hi : i < m.size) (h : m.get i = false) :
    unmarked (m.insert i) < unmarked m := by
  unfold unmarked
  rw [size_insert]
  refine countP_lt_countP (fun j _ hn => ?_) (List.mem_range.mpr hi) ?_ (by simp [h])
  · have hj : m.get j ≠ true := fun hj => by simp [(get_insert_iff hi).mpr (.inr hj)] at hn
    simpa using hj
  · simp [get_insert_iff hi]

/-- The index has been marked on the way from `m` to `n`. -/
def Added (m n : IndexSet) (j : Nat) : Prop := n.get j = true ∧ m.get j = false

theorem not_added_self : ¬ Added m m j := by
  rintro ⟨h, h'⟩
  simp [h] at h'

theorem added_insert (hi : i < m.size) (h : m.get i = false) : Added m (m.insert i) j ↔ j = i := by
  unfold Added
  rw [get_insert_iff hi]
  refine ⟨?_, ?_⟩
  · rintro ⟨rfl | hj, hn⟩
    · rfl
    · simp [hj] at hn
  · rintro rfl
    exact ⟨.inl rfl, h⟩

theorem added_trans (hm : ∀ j, m.get j = true → n.get j = true)
    (hn : ∀ j, n.get j = true → l.get j = true) :
    Added m l j ↔ Added m n j ∨ Added n l j := by
  unfold Added
  refine ⟨?_, ?_⟩
  · rintro ⟨hl, hm⟩
    cases h : n.get j with
    | true => exact .inl ⟨rfl, hm⟩
    | false => exact .inr ⟨hl, rfl⟩
  · rintro (⟨h, hj⟩ | ⟨h, hj⟩)
    · exact ⟨hn j h, hj⟩
    · refine ⟨h, ?_⟩
      by_contra hc
      rw [hm j (by simpa using hc)] at hj
      cases hj

theorem get_insert_of_get (i : Nat) (hj : m.get j = true) : (m.insert i).get j = true := by
  rw [get_insert (lt_of_get hj), hj, Bool.or_true]

/-- A walk along `E` has gone from the marks `m` to the marks `n`, through what meets `P`. It is
through with all it has marked except `x`. -/
structure Marking (E : Nat → Nat → Prop) (P : Nat → Prop) (x : Option Nat) (m n : IndexSet) :
    Prop where
  size : n.size = m.size
  mono : ∀ j, m.get j = true → n.get j = true
  marked : ∀ j ∈ x, n.get j = true
  sound : ∀ j, n.get j = true → m.get j = true ∨ P j
  closed : ∀ j k, Added m n j → some j ≠ x → E j k → n.get k = true

namespace Marking

theorem refl (m : IndexSet) : Marking E P none m m :=
  ⟨rfl, fun _ => id, nofun, fun _ => .inl, fun _ _ h => absurd h not_added_self⟩

theorem imp (h : Marking E P x m n) (hPQ : ∀ j, P j → Q j) : Marking E Q x m n :=
  { h with sound := fun j hj => (h.sound j hj).imp_right (hPQ j) }

/-- One walk after the other. -/
theorem trans (h : Marking E P x m n) (h' : Marking E P none n l) : Marking E P x m l where
  size := h'.size.trans h.size
  mono j hj := h'.mono j (h.mono j hj)
  marked j hj := h'.mono j (h.marked j hj)
  sound j hj := (h'.sound j hj).elim (h.sound j) .inr
  closed j k hj hx he := by
    rcases (added_trans h.mono h'.mono).mp hj with hj | hj
    · exact h'.mono k (h.closed j k hj hx he)
    · exact h'.closed j k hj nofun he

/-- A new mark. -/
theorem mark (hi : i < m.size) (hm : m.get i = false) (hP : P i) :
    Marking E P (some i) m (m.insert i) where
  size := size_insert
  mono _ := get_insert_of_get i
  marked j hj := by
    cases hj
    exact (get_insert_iff hi).mpr (.inl rfl)
  sound j hj := by
    rcases (get_insert_iff hi).mp hj with rfl | hj
    · exact .inr hP
    · exact .inl hj
  closed j k hj hx _ := absurd (congrArg some ((added_insert hi hm).mp hj)) hx

/-- The walk is through with an index when it has been to all it leads to. -/
theorem close (h : Marking E P (some i) m n) (he : ∀ k, E i k → n.get k = true) :
    Marking E P none m n :=
  { h with
    marked := nofun
    closed := fun j k hj _ hedge => by
      by_cases hij : j = i
      · exact he k (hij ▸ hedge)
      · exact h.closed j k hj (fun hx => hij (Option.some.inj hx)) hedge }

theorem unmarked_le (h : Marking E P x m n) : unmarked n ≤ unmarked m :=
  IndexSet.unmarked_le h.size h.mono

/-- A walk that has started with a new mark leaves less to be marked. -/
theorem unmarked_lt (hi : i < m.size) (hm : m.get i = false) (h : Marking E P (some i) m n) :
    unmarked n < unmarked m := by
  refine (IndexSet.unmarked_le (h.size.trans size_insert.symm) fun j hj => ?_).trans_lt
    (unmarked_insert hi hm)
  rcases (get_insert_iff hi).mp hj with rfl | hj
  · exact h.marked _ rfl
  · exact h.mono j hj

end Marking

end IndexSet

end Lookahead
