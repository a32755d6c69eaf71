import Mathlib
import Lookahead.Proofs.Canonical

/-!
# Character sets in words

Character sets as they are stored, with ranges of words of 32 bits. A word is only added to or
taken from another where the result is a word, and where a range ends with the greatest word, the
one that would come next is that word again. A `History` is how a set has come about; its words are
those of the canonical set of its values (`History.words_canonical`).
-/

namespace Lookahead

/-! ### Words -/

namespace Word

def add? (a b : UInt32) : Option UInt32 :=
  if a.toNat + b.toNat < UInt32.size then some (a + b) else none

def sub? (a b : UInt32) : Option UInt32 := if b ≤ a then some (a - b) else none

/-- The word after `a`, where there is one. -/
def succ (a : UInt32) : UInt32 := (add? a 1).getD a

variable {a b : UInt32}

theorem toNat_lt_size (a : UInt32) : a.toNat < UInt32.size := a.toNat_lt

theorem add?_one (h : a < b) : ∃ c, add? a 1 = some c ∧ c.toNat = a.toNat + 1 := by
  have hlt := UInt32.lt_iff_toNat_lt.mp h
  have hsum : a.toNat + (1 : UInt32).toNat < UInt32.size :=
    Nat.lt_of_le_of_lt hlt (toNat_lt_size b)
  exact ⟨a + 1, if_pos hsum, (UInt32.toNat_add a 1).trans (Nat.mod_eq_of_lt hsum)⟩

theorem sub?_one (h : a < b) : ∃ c, sub? b 1 = some c ∧ c.toNat = b.toNat - 1 := by
  have hlt := UInt32.lt_iff_toNat_lt.mp h
  have hle : (1 : UInt32) ≤ b := UInt32.le_iff_toNat_le.mpr (Nat.one_le_of_lt hlt)
  exact ⟨b - 1, if_pos hle, UInt32.toNat_sub_of_le b 1 hle⟩

/-- That the greatest word has no next one makes no difference: nothing is above it. -/
theorem succ_lt_iff : succ a < b ↔ a.toNat + 1 < b.toNat := by
  have hb := toNat_lt_size b
  rw [UInt32.lt_iff_toNat_lt, succ, add?, show (1 : UInt32).toNat = 1 from rfl]
  split
  · rename_i h
    rw [Option.getD_some, UInt32.toNat_add, show (1 : UInt32).toNat = 1 from rfl,
      Nat.mod_eq_of_lt h]
  · rw [Option.getD_none]
    have ha := toNat_lt_size a
    omega

end Word

/-- A range as it is stored. -/
structure WordRange where
  lo : UInt32
  hi : UInt32
deriving DecidableEq

namespace WordRange

open Word

def range (w : WordRange) : CharRange := ⟨w.lo.toNat, w.hi.toNat⟩

@[simp] theorem range_lo (w : WordRange) : w.range.lo = w.lo.toNat := rfl

@[simp] theorem range_hi (w : WordRange) : w.range.hi = w.hi.toNat := rfl

/-- What is left of `p` below `b`. -/
def below? (p b : WordRange) : Option (List WordRange) :=
  if p.lo < b.lo then do return [⟨p.lo, ← sub? b.lo 1⟩] else return []

/-- What is left of `p` above `b`. -/
def above? (p b : WordRange) : Option (List WordRange) :=
  if b.hi < p.hi then do return [⟨← add? b.hi 1, p.hi⟩] else return []

def without? (p b : WordRange) : Option (List WordRange) :=
  if b.hi < p.lo ∨ p.hi < b.lo then return [p]
  else do return (← p.below? b) ++ (← p.above? b)

theorem below?_spec (p b : WordRange) : ∃ ps, p.below? b = some ps ∧ ps.map range =
    if p.range.lo < b.range.lo then [⟨p.range.lo, b.range.lo - 1⟩] else [] := by
  unfold below?
  split
  · rename_i h
    obtain ⟨c, hc, hn⟩ := sub?_one h
    refine ⟨[⟨p.lo, c⟩], by rw [hc]; rfl, ?_⟩
    rw [range_lo, range_lo, if_pos (UInt32.lt_iff_toNat_lt.mp h), ← hn]
    rfl
  · rename_i h
    exact ⟨[], rfl, (if_neg fun h' => h (UInt32.lt_iff_toNat_lt.mpr h')).symm⟩

theorem above?_spec (p b : WordRange) : ∃ ps, p.above? b = some ps ∧ ps.map range =
    if b.range.hi < p.range.hi then [⟨b.range.hi + 1, p.range.hi⟩] else [] := by
  unfold above?
  split
  · rename_i h
    obtain ⟨c, hc, hn⟩ := add?_one h
    refine ⟨[⟨c, p.hi⟩], by rw [hc]; rfl, ?_⟩
    rw [range_hi, range_hi, if_pos (UInt32.lt_iff_toNat_lt.mp h), ← hn]
    rfl
  · rename_i h
    exact ⟨[], rfl, (if_neg fun h' => h (UInt32.lt_iff_toNat_lt.mpr h')).symm⟩

theorem without?_spec (p b : WordRange) :
    ∃ ps, p.without? b = some ps ∧ ps.map range = p.range.without b.range := by
  have hiff : (b.hi < p.lo ∨ p.hi < b.lo) ↔ b.range.hi < p.range.lo ∨ p.range.hi < b.range.lo :=
    or_congr UInt32.lt_iff_toNat_lt UInt32.lt_iff_toNat_lt
  unfold without? CharRange.without
  split
  · rename_i h
    exact ⟨[p], rfl, (if_pos (hiff.mp h)).symm⟩
  · rename_i h
    obtain ⟨ps, hps, hp⟩ := p.below?_spec b
    obtain ⟨qs, hqs, hq⟩ := p.above?_spec b
    rw [if_neg fun h' => h (hiff.mpr h'), hps, hqs, ← hp, ← hq]
    exact ⟨ps ++ qs, rfl, List.map_append ..⟩

end WordRange

/-! ### A range put in -/

/-- How far a range has been put in: the ranges so far, and the range that grows by those it
touches until it is placed among them. -/
structure Insertion where
  merged : List WordRange
  range : WordRange
  placed : Bool

namespace Insertion

open Word

def step (x : Insertion) (r : WordRange) : Insertion :=
  if succ r.hi < x.range.lo then { x with merged := x.merged ++ [r] }
  else if succ x.range.hi < r.lo then
    if x.placed then { x with merged := x.merged ++ [r] }
    else { x with merged := x.merged ++ [x.range] ++ [r], placed := true }
  else { x with range := ⟨min x.range.lo r.lo, max x.range.hi r.hi⟩ }

def finish (x : Insertion) : List WordRange :=
  if x.placed then x.merged else x.merged ++ [x.range]

variable {x : Insertion} {rs : List WordRange}

/-- Once the range is placed, what comes after it is kept as it is. -/
theorem finish_of_placed (hp : x.placed = true) (h : ∀ r ∈ rs, x.range.range.Below r.range) :
    (rs.foldl step x).finish = x.merged ++ rs := by
  induction rs generalizing x with
  | nil => rw [List.foldl_nil, finish, if_pos hp, List.append_nil]
  | cons r rs ih =>
    obtain ⟨hr, hrs⟩ := List.forall_mem_cons.mp h
    have hstep : x.step r = { x with merged := x.merged ++ [r] } := by
      rw [step, if_pos (succ_lt_iff.mpr hr), if_pos hp, ite_self]
    rw [List.foldl_cons, hstep]
    refine (ih (x := { x with merged := x.merged ++ [r] }) hp hrs).trans ?_
    rw [List.append_assoc, List.singleton_append]

/-- One pass over ranges that stand apart places the range as `CharSet.place` does. -/
theorem map_finish (hp : x.placed = false) (hle : x.range.lo ≤ x.range.hi)
    (hrs : CharSet.Canonical ⟨rs.map WordRange.range⟩) :
    (rs.foldl step x).finish.map WordRange.range =
      x.merged.map WordRange.range ++ CharSet.place x.range.range (rs.map WordRange.range) := by
  induction rs generalizing x with
  | nil => simp [finish, hp, CharSet.place]
  | cons r rs ih =>
    obtain ⟨hr, hordered⟩ := List.forall_mem_cons.mp hrs.ordered
    obtain ⟨hbelow, hapart⟩ := List.pairwise_cons.mp hrs.apart
    rw [List.foldl_cons, List.map_cons, CharSet.place]
    by_cases hlt : r.range.hi + 1 < x.range.range.lo
    · have hstep : x.step r = { x with merged := x.merged ++ [r] } := if_pos (succ_lt_iff.mpr hlt)
      rw [hstep, if_pos hlt]
      refine (ih (x := { x with merged := x.merged ++ [r] }) hp hle ⟨hordered, hapart⟩).trans ?_
      rw [List.map_append, List.append_assoc]
      rfl
    rw [step, if_neg fun h => hlt (succ_lt_iff.mp h), if_neg hlt]
    by_cases hlt' : x.range.range.hi + 1 < r.range.lo
    · have hafter : ∀ q ∈ rs, x.range.range.Below q.range := fun q hq => by
        have hrq : r.range.hi + 1 < q.range.lo := hbelow _ (List.mem_map_of_mem hq)
        show x.range.range.hi + 1 < q.range.lo
        omega
      rw [if_pos (succ_lt_iff.mpr hlt'), if_neg (hp ▸ Bool.false_ne_true), if_pos hlt',
        finish_of_placed (x := ⟨x.merged ++ [x.range] ++ [r], x.range, true⟩) rfl hafter]
      simp only [List.map_append, List.append_assoc]
      rfl
    · have hmin : (min x.range.lo r.lo).toNat = min x.range.range.lo r.range.lo :=
        UInt32.toNat_min ..
      have hmax : (max x.range.hi r.hi).toNat = max x.range.range.hi r.range.hi :=
        UInt32.toNat_max ..
      have hle' : min x.range.lo r.lo ≤ max x.range.hi r.hi := by
        have : x.range.range.lo ≤ x.range.range.hi := UInt32.le_iff_toNat_le.mp hle
        rw [UInt32.le_iff_toNat_le, hmin, hmax]
        omega
      rw [if_neg fun h => hlt' (succ_lt_iff.mp h), if_neg hlt', ← hmin, ← hmax]
      exact ih (x := { x with range := ⟨min x.range.lo r.lo, max x.range.hi r.hi⟩ }) hp hle'
        ⟨hordered, hapart⟩

end Insertion

/-! ### The operations -/

namespace Words

def insertRange? (ws : List WordRange) (lo hi : UInt32) : Option (List WordRange) :=
  if lo ≤ hi then some (ws.foldl Insertion.step ⟨[], ⟨lo, hi⟩, false⟩).finish else none

def ofList? (cs : List UInt32) : Option (List WordRange) :=
  cs.foldlM (fun ws c => insertRange? ws c c) []

def union? (ws vs : List WordRange) : Option (List WordRange) :=
  vs.foldlM (fun ws v => insertRange? ws v.lo v.hi) ws

def inter? (ws vs : List WordRange) : Option (List WordRange) :=
  ws.foldlM (fun us a => vs.foldlM (fun us b =>
    let lo := max a.lo b.lo
    let hi := min a.hi b.hi
    if lo ≤ hi then insertRange? us lo hi else some us) us) []

def diff? (ws vs : List WordRange) : Option (List WordRange) := do
  let rest ← ws.mapM fun a => vs.foldlM (fun ps b => do
    return (← ps.mapM (·.without? b)).flatten) [a]
  return rest.flatten

def full : List WordRange := [⟨0, 0xFFFF⟩]

/-- The words of a canonical set. -/
structure Stores (ws : List WordRange) (s : CharSet) : Prop where
  ranges : ws.map WordRange.range = s.ranges
  canonical : s.Canonical

variable {ws vs : List WordRange} {s t : CharSet}

namespace Stores

theorem nil : Stores [] .empty := ⟨rfl, CharSet.canonical_empty⟩

theorem full : Stores Words.full .full := ⟨rfl, CharSet.canonical_full⟩

theorem insertRange? (h : Stores ws s) {lo hi : UInt32} (hle : lo ≤ hi) :
    ∃ us, Words.insertRange? ws lo hi = some us ∧ Stores us (s.insertRange lo.toNat hi.toNat) := by
  refine ⟨_, if_pos hle, ?_, h.canonical.insertRange (UInt32.le_iff_toNat_le.mp hle)⟩
  have hws : CharSet.Canonical ⟨ws.map WordRange.range⟩ := by
    rw [h.ranges]
    exact h.canonical
  rw [Insertion.map_finish rfl hle hws, h.ranges]
  rfl

/-- A loop keeps words with their set if its body does. -/
theorem foldlM {α : Type} {l : List α} {f : List WordRange → α → Option (List WordRange)}
    {g : CharSet → α → CharSet}
    (hf : ∀ ws s, Stores ws s → ∀ a ∈ l, ∃ us, f ws a = some us ∧ Stores us (g s a))
    (h : Stores ws s) : ∃ us, l.foldlM f ws = some us ∧ Stores us (l.foldl g s) := by
  induction l generalizing ws s with
  | nil => exact ⟨ws, rfl, h⟩
  | cons a l ih =>
    obtain ⟨us, hus, hs⟩ := hf ws s h a List.mem_cons_self
    rw [List.foldlM_cons, hus]
    exact ih (fun ws s h b hb => hf ws s h b (List.mem_cons_of_mem _ hb)) hs

theorem ofList? (cs : List UInt32) :
    ∃ us, Words.ofList? cs = some us ∧ Stores us (.ofList (cs.map UInt32.toNat)) := by
  rw [CharSet.ofList, List.foldl_map]
  exact nil.foldlM fun _ _ h c _ => h.insertRange? (UInt32.le_refl c)

theorem le_of_mem (h : Stores vs t) {v : WordRange} (hv : v ∈ vs) : v.lo ≤ v.hi :=
  UInt32.le_iff_toNat_le.mpr (h.canonical.ordered v.range (h.ranges ▸ List.mem_map_of_mem hv))

theorem union? (h : Stores ws s) (ht : Stores vs t) :
    ∃ us, Words.union? ws vs = some us ∧ Stores us (s.union t) := by
  rw [CharSet.union, ← ht.ranges, List.foldl_map]
  exact h.foldlM fun _ _ h _ hv => h.insertRange? (ht.le_of_mem hv)

theorem inter? (h : Stores ws s) (ht : Stores vs t) :
    ∃ us, Words.inter? ws vs = some us ∧ Stores us (s.inter t) := by
  rw [CharSet.inter, CharSet.ofRanges, ← h.ranges, ← ht.ranges, List.foldl_flatMap,
    List.foldl_map]
  refine nil.foldlM fun _ _ h a _ => ?_
  rw [List.foldl_filterMap, List.foldl_map]
  refine h.foldlM fun us u hu b _ => ?_
  have hmax : (max a.lo b.lo).toNat = max a.lo.toNat b.lo.toNat := UInt32.toNat_max ..
  have hmin : (min a.hi b.hi).toNat = min a.hi.toNat b.hi.toNat := UInt32.toNat_min ..
  simp only [WordRange.range, ← hmax, ← hmin, ← UInt32.le_iff_toNat_le]
  split
  · exact hu.insertRange? ‹_›
  · exact ⟨us, rfl, hu⟩

end Stores

/-- A loop over ranges that may break off, if it does not do so for any of them. -/
theorem flatten_mapM {f : WordRange → Option (List WordRange)}
    {g : CharRange → List CharRange} (ps : List WordRange)
    (hf : ∀ p ∈ ps, ∃ qs, f p = some qs ∧ qs.map WordRange.range = g p.range) :
    ∃ qs, (do return (← ps.mapM f).flatten : Option (List WordRange)) = some qs ∧
      qs.map WordRange.range = (ps.map WordRange.range).flatMap g := by
  choose! h hh using hf
  refine ⟨(ps.map h).flatten, ?_, ?_⟩
  · rw [mapM_eq_some fun p hp => (hh p hp).1]
    rfl
  · rw [List.map_flatten, List.map_map, List.flatMap_map, List.flatMap_def]
    exact congrArg List.flatten (List.map_congr_left fun p hp => (hh p hp).2)

theorem foldlM_without (ps bs : List WordRange) :
    ∃ qs, bs.foldlM (fun ps b => do return (← ps.mapM (·.without? b)).flatten) ps = some qs ∧
      qs.map WordRange.range = (bs.map WordRange.range).foldl
        (fun ps b => ps.flatMap (·.without b)) (ps.map WordRange.range) := by
  induction bs generalizing ps with
  | nil => exact ⟨ps, rfl, rfl⟩
  | cons b bs ih =>
    obtain ⟨qs, hqs, hq⟩ := flatten_mapM (g := (·.without b.range)) ps fun p _ => p.without?_spec b
    rw [List.foldlM_cons, hqs, List.map_cons, List.foldl_cons, ← hq]
    exact ih qs

theorem Stores.diff? (h : Stores ws s) (ht : Stores vs t) :
    ∃ us, Words.diff? ws vs = some us ∧ Stores us (s.diff t) := by
  obtain ⟨us, hus, hu⟩ := flatten_mapM
    (g := fun a => CharSet.rest a (vs.map WordRange.range)) ws fun a _ => foldlM_without [a] vs
  refine ⟨us, hus, hu.trans ?_, h.canonical.diff ht.canonical.ordered⟩
  rw [h.ranges, ht.ranges]
  rfl

end Words

/-! ### Histories -/

/-- How a set has come about. -/
inductive History where
  | empty
  | ofList (cs : List UInt32)
  | insert (h : History) (c : UInt32)
  | insertRange (h : History) (lo hi : UInt32) (le : lo ≤ hi)
  | union (h g : History)
  | inter (h g : History)
  | diff (h g : History)
  /-- Filled, whatever it was before. -/
  | fill (h : History)

namespace History

/-- The set that comes about. -/
def set : History → CharSet
  | empty => .empty
  | ofList cs => .ofList (cs.map UInt32.toNat)
  | insert h c => h.set.insert c.toNat
  | insertRange h lo hi _ => h.set.insertRange lo.toNat hi.toNat
  | union h g => h.set.union g.set
  | inter h g => h.set.inter g.set
  | diff h g => h.set.diff g.set
  | fill _ => .full

/-- The words in which the set is stored, unless work on words breaks off on the way. -/
def words? : History → Option (List WordRange)
  | empty => return []
  | ofList cs => Words.ofList? cs
  | insert h c => do Words.insertRange? (← h.words?) c c
  | insertRange h lo hi _ => do Words.insertRange? (← h.words?) lo hi
  | union h g => do Words.union? (← h.words?) (← g.words?)
  | inter h g => do Words.inter? (← h.words?) (← g.words?)
  | diff h g => do Words.diff? (← h.words?) (← g.words?)
  | fill h => do
    let _ ← h.words?
    return Words.full

/-- The values that the set is meant to have. -/
def values : History → Set UInt32
  | empty => ∅
  | ofList cs => {c | c ∈ cs}
  | insert h c => Set.insert c h.values
  | insertRange h lo hi _ => {c | lo ≤ c ∧ c ≤ hi} ∪ h.values
  | union h g => h.values ∪ g.values
  | inter h g => h.values ∩ g.values
  | diff h g => h.values \ g.values
  | fill _ => {c | c.toNat ≤ maxChar}

theorem exists_stores (h : History) : ∃ ws, h.words? = some ws ∧ Words.Stores ws h.set := by
  induction h with
  | empty => exact ⟨[], rfl, .nil⟩
  | ofList cs => exact Words.Stores.ofList? cs
  | insert h c ih =>
    obtain ⟨ws, hw, hs⟩ := ih
    rw [words?, hw]
    exact hs.insertRange? (UInt32.le_refl c)
  | insertRange h lo hi le ih =>
    obtain ⟨ws, hw, hs⟩ := ih
    rw [words?, hw]
    exact hs.insertRange? le
  | union h g ihh ihg =>
    obtain ⟨ws, hw, hs⟩ := ihh
    obtain ⟨vs, hv, ht⟩ := ihg
    rw [words?, hw, hv]
    exact hs.union? ht
  | inter h g ihh ihg =>
    obtain ⟨ws, hw, hs⟩ := ihh
    obtain ⟨vs, hv, ht⟩ := ihg
    rw [words?, hw, hv]
    exact hs.inter? ht
  | diff h g ihh ihg =>
    obtain ⟨ws, hw, hs⟩ := ihh
    obtain ⟨vs, hv, ht⟩ := ihg
    rw [words?, hw, hv]
    exact hs.diff? ht
  | fill h ih =>
    obtain ⟨ws, hw, -⟩ := ih
    rw [words?, hw]
    exact ⟨Words.full, rfl, .full⟩

theorem canonical_set (h : History) : h.set.Canonical := by
  obtain ⟨ws, -, hs⟩ := h.exists_stores
  exact hs.canonical

theorem contains_set (h : History) (c : UInt32) :
    h.set.contains c.toNat = true ↔ c ∈ h.values := by
  induction h with
  | empty => simp [set, values, CharSet.contains, CharSet.empty]
  | ofList cs =>
    rw [set, CharSet.contains_ofList, values, Set.mem_ofPred_eq,
      List.mem_map_of_injective fun _ _ => UInt32.toNat_inj.mp]
  | insert h d ih =>
    rw [set, CharSet.insert, h.canonical_set.ordered.contains_insertRange le_rfl, ih,
      ← le_antisymm_iff, UInt32.toNat_inj, eq_comm]
    rfl
  | insertRange h lo hi le ih =>
    rw [set, h.canonical_set.ordered.contains_insertRange (UInt32.le_iff_toNat_le.mp le), ih,
      ← UInt32.le_iff_toNat_le, ← UInt32.le_iff_toNat_le]
    rfl
  | union h g ihh ihg =>
    rw [set, h.canonical_set.ordered.contains_union g.canonical_set.ordered, ihh, ihg]
    rfl
  | inter h g ihh ihg =>
    rw [set, CharSet.contains_inter, ihh, ihg]
    rfl
  | diff h g ihh ihg =>
    rw [set, CharSet.contains_diff, ← Bool.not_eq_true, ihh, ihg]
    rfl
  | fill h => exact CharSet.contains_full

/-- However a set comes about, its ranges ascend and do not touch, no work on words breaks off, and
it has the values it is meant to have. -/
theorem words_canonical (h : History) : h.set.Canonical ∧
    (∃ ws, h.words? = some ws ∧ ws.map WordRange.range = h.set.ranges) ∧
    ∀ c : UInt32, h.set.contains c.toNat = true ↔ c ∈ h.values := by
  obtain ⟨ws, hw, hs⟩ := h.exists_stores
  exact ⟨hs.canonical, ⟨ws, hw, hs.ranges⟩, h.contains_set⟩

end History

end Lookahead
