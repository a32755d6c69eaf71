import Mathlib
import Lookahead.Proofs.Slices

/-!
# Canonical character sets

The ranges of a canonical set ascend, and no two of them touch (`CharSet.Canonical`). The operations
keep sets canonical and do with the values what they do with sets. What is read off the ranges of a
canonical set is therefore about its values: inclusion (`CharSet.Canonical.includes_iff`), equality
(`CharSet.Canonical.ext`), size and least value.
-/

namespace Lookahead

namespace CharRange

variable {r s p q : CharRange} {c : Nat}

/-- There is a value between the end of `r` and the start of `q`. -/
def Below (r q : CharRange) : Prop := r.hi + 1 < q.lo

theorem contains_iff : r.contains c = true ↔ r.lo ≤ c ∧ c ≤ r.hi := by
  simp [contains]

theorem within_of_mem_without (hp : p ∈ r.without s) : r.lo ≤ p.lo ∧ p.hi ≤ r.hi := by
  unfold without at hp
  split at hp
  · rw [List.mem_singleton] at hp
    exact hp ▸ ⟨le_rfl, le_rfl⟩
  · rename_i hd
    rcases List.mem_append.mp hp with hp | hp <;> split at hp <;> simp at hp <;> subst hp <;>
      simp only <;> omega

theorem pairwise_without (hs : s.lo ≤ s.hi) : (r.without s).Pairwise Below := by
  unfold without
  split
  · exact List.pairwise_singleton ..
  · rw [List.pairwise_append]
    refine ⟨?_, ?_, fun p hp q hq => ?_⟩
    · split <;> simp
    · split <;> simp
    · split at hp <;> split at hq <;> simp at hp hq
      subst hp hq
      show s.lo - 1 + 1 < s.hi + 1
      rw [Nat.sub_add_cancel (Nat.one_le_of_lt ‹r.lo < s.lo›)]
      exact Nat.lt_succ_of_le hs

theorem contains_without (r s : CharRange) (c : Nat) :
    (r.without s).any (·.contains c) = (r.contains c && !s.contains c) := by
  rw [Bool.eq_iff_iff]
  simp only [List.any_eq_true, Bool.and_eq_true, Bool.not_eq_true', ← Bool.not_eq_true,
    contains_iff]
  unfold without
  split
  · simp only [List.mem_singleton, exists_eq_left]
    omega
  · have hlow : (∃ p ∈ (if r.lo < s.lo then [⟨r.lo, s.lo - 1⟩] else [] : List CharRange),
        p.lo ≤ c ∧ c ≤ p.hi) ↔ r.lo ≤ c ∧ c < s.lo := by
      split
      · simp
        omega
      · simp
        omega
    have hhigh : (∃ p ∈ (if s.hi < r.hi then [⟨s.hi + 1, r.hi⟩] else [] : List CharRange),
        p.lo ≤ c ∧ c ≤ p.hi) ↔ s.hi < c ∧ c ≤ r.hi := by
      split
      · simp
      · simp
        omega
    simp only [List.mem_append, or_and_right, exists_or, hlow, hhigh]
    omega

end CharRange

namespace CharSet

open CharRange

variable {s t : CharSet} {lo hi c : Nat} {r p : CharRange} {qs rs : List CharRange}

theorem contains_iff : s.contains c = true ↔ ∃ r ∈ s.ranges, r.lo ≤ c ∧ c ≤ r.hi := by
  simp only [contains, List.any_eq_true, CharRange.contains_iff]

/-- The ranges run upwards, and each ends more than one below the start of the next. -/
structure Canonical (s : CharSet) : Prop where
  ordered : s.Ordered
  apart : s.ranges.Pairwise Below

theorem canonical_empty : Canonical .empty := ⟨ordered_empty, .nil⟩

theorem canonical_full : Canonical .full := ⟨ordered_full, List.pairwise_singleton ..⟩

theorem contains_full : full.contains c = true ↔ c ≤ maxChar := by
  simp [full, contains_iff]

/-! ### Ranges put in -/

theorem below_of_mem_place (hr : p.Below r) (hq : ∀ q ∈ qs, p.Below q) {x : CharRange}
    (hx : x ∈ place r qs) : p.Below x := by
  induction qs generalizing r with
  | nil =>
    rw [place, List.mem_singleton] at hx
    exact hx ▸ hr
  | cons q qs ih =>
    obtain ⟨hpq, hqs⟩ := List.forall_mem_cons.mp hq
    rw [place] at hx
    split at hx
    · rcases List.mem_cons.mp hx with rfl | hx
      · exact hpq
      · exact ih hr hqs hx
    split at hx
    · rcases List.mem_cons.mp hx with rfl | hx
      · exact hr
      · exact hq x hx
    · have hmin : p.Below ⟨min r.lo q.lo, max r.hi q.hi⟩ := lt_min hr hpq
      exact ih hmin hqs hx

theorem pairwise_place (hr : r.lo ≤ r.hi) (hq : ∀ q ∈ qs, q.lo ≤ q.hi) (h : qs.Pairwise Below) :
    (place r qs).Pairwise Below := by
  induction qs generalizing r with
  | nil => exact List.pairwise_singleton ..
  | cons q qs ih =>
    obtain ⟨hle, hqs⟩ := List.forall_mem_cons.mp hq
    obtain ⟨hbelow, hapart⟩ := List.pairwise_cons.mp h
    rw [place]
    split
    · exact List.pairwise_cons.mpr ⟨fun _ => below_of_mem_place ‹_› hbelow, ih hr hqs hapart⟩
    split
    · rename_i hlt
      refine List.pairwise_cons.mpr ⟨List.forall_mem_cons.mpr ⟨hlt, fun x hx => ?_⟩, h⟩
      have : q.hi + 1 < x.lo := hbelow x hx
      show r.hi + 1 < x.lo
      omega
    · exact ih (by simp only; omega) hqs hapart

theorem Canonical.insertRange (hs : s.Canonical) (h : lo ≤ hi) :
    (s.insertRange lo hi).Canonical :=
  ⟨hs.ordered.insertRange h, pairwise_place h hs.ordered hs.apart⟩

theorem Ordered.contains_insertRange (hs : s.Ordered) (h : lo ≤ hi) :
    (s.insertRange lo hi).contains c = true ↔ (lo ≤ c ∧ c ≤ hi) ∨ s.contains c = true := by
  rw [contains, CharSet.insertRange, contains_place ⟨lo, hi⟩ h _ hs, Bool.or_eq_true,
    CharRange.contains_iff, contains]

/-- Puts in ranges one after another. -/
def insertRanges (s : CharSet) (rs : List CharRange) : CharSet :=
  rs.foldl (fun s r => s.insertRange r.lo r.hi) s

theorem ofList_eq (cs : List Nat) : ofList cs = insertRanges .empty (cs.map fun c => ⟨c, c⟩) :=
  (List.foldl_map (f := fun c => CharRange.mk c c)
    (g := fun s r => CharSet.insertRange s r.lo r.hi)).symm

theorem Canonical.insertRanges (hs : s.Canonical) (h : ∀ r ∈ rs, r.lo ≤ r.hi) :
    (s.insertRanges rs).Canonical :=
  List.foldlRecOn rs _ hs fun _ hb r hr => hb.insertRange (h r hr)

theorem Ordered.contains_insertRanges (hs : s.Ordered) (h : ∀ r ∈ rs, r.lo ≤ r.hi) :
    (s.insertRanges rs).contains c = true ↔
      s.contains c = true ∨ ∃ r ∈ rs, r.lo ≤ c ∧ c ≤ r.hi := by
  induction rs generalizing s with
  | nil => simp [CharSet.insertRanges]
  | cons r rs ih =>
    obtain ⟨hr, hrs⟩ := List.forall_mem_cons.mp h
    rw [CharSet.insertRanges, List.foldl_cons]
    refine (ih (hs.insertRange hr) hrs).trans ?_
    rw [hs.contains_insertRange hr, List.exists_mem_cons_iff]
    tauto

theorem canonical_ofList (cs : List Nat) : (ofList cs).Canonical :=
  ofList_eq cs ▸ canonical_empty.insertRanges (by simp)

theorem contains_ofList {cs : List Nat} : (ofList cs).contains c = true ↔ c ∈ cs := by
  rw [ofList_eq, ordered_empty.contains_insertRanges (by simp)]
  simp [contains, empty, ← le_antisymm_iff]

/-! ### Union, intersection and difference -/

theorem Canonical.union (hs : s.Canonical) (ht : t.Ordered) : (s.union t).Canonical :=
  hs.insertRanges ht

theorem Ordered.contains_union (hs : s.Ordered) (ht : t.Ordered) :
    (s.union t).contains c = true ↔ s.contains c = true ∨ t.contains c = true := by
  rw [contains_iff (s := t)]
  exact hs.contains_insertRanges ht

/-- What two sets have in common, range by range. -/
def common (s t : CharSet) : List CharRange :=
  s.ranges.flatMap fun a => t.ranges.filterMap fun b =>
    if max a.lo b.lo ≤ min a.hi b.hi then some ⟨max a.lo b.lo, min a.hi b.hi⟩ else none

theorem mem_common : r ∈ common s t ↔ ∃ a ∈ s.ranges, ∃ b ∈ t.ranges,
    max a.lo b.lo ≤ min a.hi b.hi ∧ r = ⟨max a.lo b.lo, min a.hi b.hi⟩ := by
  simp only [common, List.mem_flatMap, List.mem_filterMap, Option.ite_none_right_eq_some,
    Option.some.injEq, eq_comm (b := r)]

theorem le_of_mem_common (hr : r ∈ common s t) : r.lo ≤ r.hi := by
  obtain ⟨a, -, b, -, h, rfl⟩ := mem_common.mp hr
  exact h

theorem canonical_inter (s t : CharSet) : (s.inter t).Canonical :=
  canonical_empty.insertRanges fun _ => le_of_mem_common

theorem contains_inter : (s.inter t).contains c = true ↔
    s.contains c = true ∧ t.contains c = true := by
  have hcommon : ∀ r ∈ common s t, r.lo ≤ r.hi := fun _ => le_of_mem_common
  refine (ordered_empty.contains_insertRanges hcommon).trans ?_
  rw [contains_iff, contains_iff, contains_iff]
  constructor
  · rintro (⟨r, hr, -⟩ | ⟨r, hr, hlo, hhi⟩)
    · cases hr
    · obtain ⟨a, ha, b, hb, -, rfl⟩ := mem_common.mp hr
      rw [max_le_iff] at hlo
      rw [le_min_iff] at hhi
      exact ⟨⟨a, ha, hlo.1, hhi.1⟩, b, hb, hlo.2, hhi.2⟩
  · rintro ⟨⟨a, ha, halo, hahi⟩, b, hb, hblo, hbhi⟩
    have hlo := max_le halo hblo
    have hhi := le_min hahi hbhi
    exact .inr ⟨_, mem_common.mpr ⟨a, ha, b, hb, hlo.trans hhi, rfl⟩, hlo, hhi⟩

/-- What is left of a range when the values of the ranges on a list go. -/
def rest (a : CharRange) (bs : List CharRange) : List CharRange :=
  bs.foldl (fun ps b => ps.flatMap (·.without b)) [a]

/-- Pieces of one range stay within it and apart from one another. -/
structure Pieces (a : CharRange) (ps : List CharRange) : Prop extends Canonical ⟨ps⟩ where
  within : ∀ p ∈ ps, a.lo ≤ p.lo ∧ p.hi ≤ a.hi

theorem Pieces.without {a b : CharRange} {ps : List CharRange} (hp : Pieces a ps)
    (hb : b.lo ≤ b.hi) : Pieces a (ps.flatMap (·.without b)) where
  within q hq := by
    obtain ⟨p, hp', hq⟩ := List.mem_flatMap.mp hq
    have hout := hp.within p hp'
    have hin := within_of_mem_without hq
    exact ⟨hout.1.trans hin.1, hin.2.trans hout.2⟩
  ordered q hq := by
    obtain ⟨p, hp', hq⟩ := List.mem_flatMap.mp hq
    exact le_of_mem_without (hp.ordered p hp') hq
  apart := by
    refine List.pairwise_flatMap.mpr ⟨fun p _ => pairwise_without hb, hp.apart.imp ?_⟩
    intro p q hpq x hx y hy
    have hx := within_of_mem_without hx
    have hy := within_of_mem_without hy
    unfold Below at hpq ⊢
    omega

theorem pieces_rest {a : CharRange} {bs : List CharRange} (ha : a.lo ≤ a.hi)
    (hb : ∀ b ∈ bs, b.lo ≤ b.hi) : Pieces a (rest a bs) :=
  List.foldlRecOn bs _ ⟨⟨by simpa [Ordered] using ha, List.pairwise_singleton ..⟩, by simp⟩
    fun _ hp b hb' => hp.without (hb b hb')

theorem contains_foldl_without (bs ps : List CharRange) :
    (bs.foldl (fun ps b => ps.flatMap (·.without b)) ps).any (·.contains c) =
      (ps.any (·.contains c) && !bs.any (·.contains c)) := by
  induction bs generalizing ps with
  | nil => simp
  | cons b bs ih =>
    have hone : (ps.flatMap (·.without b)).any (·.contains c) =
        (ps.any (·.contains c) && !b.contains c) := by
      rw [List.any_flatMap]
      simp only [contains_without]
      induction ps with
      | nil => rfl
      | cons p ps ih => rw [List.any_cons, ih, List.any_cons, ← Bool.and_or_distrib_right]
    rw [List.foldl_cons, ih, hone, List.any_cons, Bool.not_or, Bool.and_assoc]

theorem Canonical.diff (hs : s.Canonical) (ht : t.Ordered) : (s.diff t).Canonical where
  ordered := hs.ordered.diff t
  apart := by
    have hpieces (a : CharRange) (ha : a ∈ s.ranges) : Pieces a (rest a t.ranges) :=
      pieces_rest (hs.ordered a ha) ht
    refine List.pairwise_flatMap.mpr ⟨fun a ha => (hpieces a ha).apart, ?_⟩
    refine hs.apart.imp_of_mem fun {a b} ha hb hab x hx y hy => ?_
    have hx := ((hpieces a ha).within x hx).2
    have hy := ((hpieces b hb).within y hy).1
    unfold Below at hab ⊢
    omega

theorem contains_diff : (s.diff t).contains c = true ↔
    s.contains c = true ∧ t.contains c = false := by
  rw [CharSet.diff, contains, List.any_flatMap]
  simp only [contains_foldl_without, List.any_cons, List.any_nil, Bool.or_false]
  rw [← Bool.not_eq_true (t.contains c)]
  simp only [contains, List.any_eq_true, Bool.and_eq_true, Bool.not_eq_true', ← Bool.not_eq_true]
  tauto

/-! ### What is read off the ranges -/

namespace Canonical

theorem eq_or_below (hs : s.Canonical) {a b : CharRange} (ha : a ∈ s.ranges) (hb : b ∈ s.ranges) :
    a = b ∨ a.Below b ∨ b.Below a := by
  by_cases hab : a = b
  · exact .inl hab
  · let _ : Std.Symm fun a b : CharRange => a.Below b ∨ b.Below a := ⟨fun _ _ => Or.symm⟩
    have hapart : s.ranges.Pairwise fun a b => a.Below b ∨ b.Below a := hs.apart.imp .inl
    exact .inr (hapart.forall ha hb hab)

/-- Two ranges of the set that have a value in common are one. -/
theorem eq_of_mem (hs : s.Canonical) {a b : CharRange} (ha : a ∈ s.ranges) (hb : b ∈ s.ranges)
    (hac : a.lo ≤ c ∧ c ≤ a.hi) (hbc : b.lo ≤ c ∧ c ≤ b.hi) : a = b := by
  rcases hs.eq_or_below ha hb with h | h | h
  · exact h
  all_goals
    unfold Below at h
    omega

/-- Values in a row lie in one range: the value behind its end is in no other. -/
theorem exists_range (hs : s.Canonical) (hle : lo ≤ hi)
    (h : ∀ c, lo ≤ c → c ≤ hi → s.contains c = true) :
    ∃ a ∈ s.ranges, a.lo ≤ lo ∧ hi ≤ a.hi := by
  obtain ⟨a, ha, hlo, hhi⟩ := contains_iff.mp (h lo le_rfl hle)
  refine ⟨a, ha, hlo, ?_⟩
  by_contra hlt
  obtain ⟨b, hb, hblo, hbhi⟩ := contains_iff.mp (h (a.hi + 1) (by omega) (by omega))
  rcases hs.eq_or_below ha hb with rfl | h | h
  · omega
  all_goals
    unfold Below at h
    omega

theorem includes_iff (hs : s.Canonical) (ht : t.Ordered) :
    s.includes t = true ↔ ∀ c, t.contains c = true → s.contains c = true := by
  simp only [includes, List.all_eq_true, List.any_eq_true, Bool.and_eq_true, decide_eq_true_eq]
  constructor
  · intro h c hc
    obtain ⟨b, hb, hlo, hhi⟩ := contains_iff.mp hc
    obtain ⟨a, ha, halo, hahi⟩ := h b hb
    exact contains_iff.mpr ⟨a, ha, halo.trans hlo, hhi.trans hahi⟩
  · intro h b hb
    exact hs.exists_range (ht b hb) fun c hlo hhi => h c (contains_iff.mpr ⟨b, hb, hlo, hhi⟩)

theorem mem_ranges_of_contains (hs : s.Canonical) (ht : t.Canonical)
    (h : ∀ c, s.contains c = t.contains c) {a : CharRange} (ha : a ∈ s.ranges) :
    a ∈ t.ranges := by
  have hle := hs.ordered a ha
  obtain ⟨b, hb, hblo, hbhi⟩ := ht.exists_range hle fun c hlo hhi =>
    h c ▸ contains_iff.mpr ⟨a, ha, hlo, hhi⟩
  obtain ⟨d, hd, hdlo, hdhi⟩ := hs.exists_range (ht.ordered b hb) fun c hlo hhi =>
    (h c).symm ▸ contains_iff.mpr ⟨b, hb, hlo, hhi⟩
  obtain rfl := hs.eq_of_mem ha hd ⟨le_rfl, hle⟩ ⟨hdlo.trans hblo, hle.trans (hbhi.trans hdhi)⟩
  have hab : a = b := by
    cases a
    cases b
    simp only [CharRange.mk.injEq] at *
    omega
  exact hab ▸ hb

/-- A canonical set is known by its values. -/
theorem ext (hs : s.Canonical) (ht : t.Canonical) (h : ∀ c, s.contains c = t.contains c) :
    s = t := by
  have hlt {u : CharSet} (hu : u.Canonical) : u.ranges.Pairwise fun a b => a.lo < b.lo :=
    hu.apart.imp_of_mem fun {a b} ha _ hab => by
      have := hu.ordered a ha
      unfold Below at hab
      omega
  let _ : Std.Irrefl fun a b : CharRange => a.lo < b.lo := ⟨fun a => lt_irrefl a.lo⟩
  let _ : Std.Antisymm fun a b : CharRange => a.lo < b.lo :=
    ⟨fun _ _ h h' => absurd h' (lt_asymm h)⟩
  have hranges := (hlt hs).eq_of_mem_iff (hlt ht) fun a =>
    ⟨hs.mem_ranges_of_contains ht h, ht.mem_ranges_of_contains hs fun c => (h c).symm⟩
  cases s
  cases t
  exact congrArg CharSet.mk hranges

theorem isLeast_of_min?_eq (hs : s.Canonical) {m : Nat} (h : s.min? = some m) :
    IsLeast {c | s.contains c = true} m := by
  obtain ⟨a, ha, rfl⟩ := Option.map_eq_some_iff.mp h
  obtain ⟨rs, hrs⟩ := List.head?_eq_some_iff.mp ha
  have hmem : a ∈ s.ranges := hrs ▸ List.mem_cons_self
  have hle := hs.ordered a hmem
  refine ⟨contains_iff.mpr ⟨a, hmem, le_rfl, hle⟩, fun c hc => ?_⟩
  obtain ⟨b, hb, hlo, -⟩ := contains_iff.mp hc
  rcases List.mem_cons.mp (hrs ▸ hb) with rfl | hb'
  · exact hlo
  · have hbelow := (List.pairwise_cons.mp (hrs ▸ hs.apart)).1 b hb'
    unfold Below at hbelow
    omega

end Canonical

theorem Ordered.intersects_iff (hs : s.Ordered) (ht : t.Ordered) :
    s.intersects t = true ↔ ∃ c, s.contains c = true ∧ t.contains c = true := by
  simp only [intersects, List.any_eq_true, Bool.and_eq_true, decide_eq_true_eq]
  constructor
  · rintro ⟨a, ha, b, hb, hlo, hhi⟩
    have hale := hs a ha
    have hble := ht b hb
    exact ⟨max a.lo b.lo, contains_iff.mpr ⟨a, ha, by omega, by omega⟩,
      contains_iff.mpr ⟨b, hb, by omega, by omega⟩⟩
  · rintro ⟨c, hac, hbc⟩
    obtain ⟨a, ha, halo, hahi⟩ := contains_iff.mp hac
    obtain ⟨b, hb, hblo, hbhi⟩ := contains_iff.mp hbc
    exact ⟨a, ha, b, hb, by omega, by omega⟩

theorem Ordered.min?_eq_none_iff (hs : s.Ordered) :
    s.min? = none ↔ ∀ c, s.contains c = false := by
  rw [min?, Option.map_eq_none_iff, List.head?_eq_none_iff]
  constructor
  · intro h c
    rw [contains, h, List.any_nil]
  · intro h
    refine List.eq_nil_iff_forall_not_mem.mpr fun a ha => ?_
    have := contains_iff.mpr ⟨a, ha, le_rfl, hs a ha⟩
    rw [h] at this
    cases this

/-- The values of the set, range by range. -/
def values (s : CharSet) : List Nat := s.ranges.flatMap fun r => List.range' r.lo r.count

theorem Ordered.mem_values (hs : s.Ordered) : c ∈ s.values ↔ s.contains c = true := by
  rw [values, List.mem_flatMap, contains_iff]
  refine exists_congr fun r => and_congr_right fun hr => ?_
  have := hs r hr
  rw [List.mem_range'_1, CharRange.count]
  omega

theorem length_values (s : CharSet) : s.values.length = s.count := by
  rw [values, List.length_flatMap, CharSet.count, List.sum_eq_foldl, List.foldl_map]
  simp only [List.length_range']

theorem Canonical.nodup_values (hs : s.Canonical) : s.values.Nodup := by
  refine List.pairwise_flatMap.mpr ⟨fun _ _ => List.nodup_range', hs.apart.imp_of_mem ?_⟩
  intro a b ha _ hab x hx y hy
  have hle := hs.ordered a ha
  rw [List.mem_range'_1] at hx hy
  unfold Below at hab
  unfold CharRange.count at hx
  omega

end CharSet

end Lookahead
