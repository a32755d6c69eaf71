/-!
# Index sets

A set of indices below a length that never changes. Sets of different lengths may be combined: an
operation then acts on the indices below both lengths and leaves the rest of its first argument
as it is. The lemmas say what each operation does to `get` and `size`.
-/

namespace Lookahead

/-- One Boolean for each index below the length. -/
structure IndexSet where
  bits : Array Bool
deriving DecidableEq, Inhabited

namespace IndexSet

/-- The number of indices the set ranges over, members or not. -/
def size (s : IndexSet) : Nat := s.bits.size

def replicate (n : Nat) (b : Bool) : IndexSet := ⟨Array.replicate n b⟩

/-- No index below `n`. -/
def empty (n : Nat) : IndexSet := replicate n false

/-- Every index below `n`. -/
def full (n : Nat) : IndexSet := replicate n true

def get (s : IndexSet) (i : Nat) : Bool := s.bits.getD i false

def set (s : IndexSet) (i : Nat) (b : Bool) : IndexSet := ⟨s.bits.setIfInBounds i b⟩

def insert (s : IndexSet) (i : Nat) : IndexSet := s.set i true

def erase (s : IndexSet) (i : Nat) : IndexSet := s.set i false

def fill (s : IndexSet) (b : Bool) : IndexSet := replicate s.size b

def complement (s : IndexSet) : IndexSet := ⟨s.bits.map (!·)⟩

/-- Combines the two sets below both lengths and keeps `s` beyond. -/
def combine (f : Bool → Bool → Bool) (s t : IndexSet) : IndexSet :=
  ⟨s.bits.mapIdx fun i b => match t.bits[i]? with
    | some c => f b c
    | .none => b⟩

def union (s t : IndexSet) : IndexSet := combine (· || ·) s t

def inter (s t : IndexSet) : IndexSet := combine (· && ·) s t

def diff (s t : IndexSet) : IndexSet := combine (fun b c => b && !c) s t

def symmDiff (s t : IndexSet) : IndexSet := combine (· ^^ ·) s t

def isEmpty (s : IndexSet) : Bool := !s.bits.any id

/-- Whether some index belongs to both sets. -/
def overlaps (s t : IndexSet) : Bool := (s.bits.zip t.bits).any fun p => p.1 && p.2

/-- The members in ascending order. -/
def toList (s : IndexSet) : List Nat := (List.range s.size).filter s.get

def count (s : IndexSet) : Nat := s.bits.countP id

/-- One digit for each index. -/
def digits (s : IndexSet) : String :=
  String.ofList (s.bits.toList.map fun b => if b then '1' else '0')

def describe (s : IndexSet) : String := "BitArray(" ++ toString s.size ++ ")[" ++ s.digits ++ "]"

theorem size_combine (f : Bool → Bool → Bool) (s t : IndexSet) : (combine f s t).size = s.size := by
  simp [combine, size]

theorem size_set (s : IndexSet) (i : Nat) (b : Bool) : (s.set i b).size = s.size := by
  simp [set, size]

theorem get_replicate (n : Nat) (b : Bool) (i : Nat) :
    (replicate n b).get i = (decide (i < n) && b) := by
  by_cases h : i < n <;> simp [replicate, get, Array.getD, h]

theorem get_set (s : IndexSet) (i j : Nat) (b : Bool) :
    (s.set i b).get j = if i = j ∧ j < s.size then b else s.get j := by
  simp only [set, get, size, Array.getD_eq_getD_getElem?, Array.getElem?_setIfInBounds]
  grind

theorem get_combine (f : Bool → Bool → Bool) (s t : IndexSet) (i : Nat) (hs : i < s.size) :
    (combine f s t).get i = if i < t.size then f (s.get i) (t.get i) else s.get i := by
  simp only [size] at hs
  by_cases ht : i < t.bits.size <;>
    simp [combine, get, size, hs, ht]

variable {s t : IndexSet} {i j : Nat}

@[simp] theorem size_empty (n : Nat) : (empty n).size = n := Array.size_replicate

@[simp] theorem get_empty (n i : Nat) : (empty n).get i = false := by
  rw [empty, get_replicate, Bool.and_false]

theorem get_of_size_le (h : s.size ≤ i) : s.get i = false := by
  simp only [size] at h
  simp [get, h]

theorem lt_of_get (h : s.get i = true) : i < s.size := by
  by_cases hi : i < s.size
  · exact hi
  · rw [get_of_size_le (Nat.le_of_not_lt hi)] at h
    cases h

@[simp] theorem size_insert : (s.insert i).size = s.size := size_set ..

theorem get_insert (hj : j < s.size) : (s.insert i).get j = (decide (i = j) || s.get j) := by
  rw [insert, get_set]
  by_cases hij : i = j <;> simp [hij, hj]

@[simp] theorem size_union : (s.union t).size = s.size := size_combine ..

theorem get_union (hi : i < s.size) : (s.union t).get i = (s.get i || t.get i) := by
  rw [union, get_combine _ _ _ _ hi]
  by_cases ht : i < t.size
  · rw [if_pos ht]
  · rw [if_neg ht, get_of_size_le (Nat.le_of_not_lt ht), Bool.or_false]

theorem ext_get (hs : s.size = t.size) (h : ∀ i < s.size, s.get i = t.get i) : s = t := by
  rcases s with ⟨s⟩
  rcases t with ⟨t⟩
  congr 1
  refine Array.ext hs fun i hi hj => ?_
  have := h i hi
  simpa [get, Array.getD, hi, hj] using this

end IndexSet

end Lookahead
