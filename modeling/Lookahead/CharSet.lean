/-!
# Character sets

A set of character values as ascending ranges, no two of which touch. Only `insertRange` builds
ranges out of others, and it merges whatever it touches, so two sets with the same members have
the same ranges.
-/

namespace Lookahead

/-- The greatest value in the set of all characters. -/
def maxChar : Nat := 0xFFFF

/-- The values from `lo` to `hi`, both included. -/
structure CharRange where
  lo : Nat
  hi : Nat
deriving DecidableEq, Repr, Inhabited

namespace CharRange

def contains (r : CharRange) (c : Nat) : Bool := decide (r.lo ≤ c) && decide (c ≤ r.hi)

def count (r : CharRange) : Nat := r.hi - r.lo + 1

/-- What is left of `r` when the values of `s` go. -/
def without (r s : CharRange) : List CharRange :=
  if s.hi < r.lo ∨ r.hi < s.lo then [r]
  else
    (if r.lo < s.lo then [⟨r.lo, s.lo - 1⟩] else []) ++
      if s.hi < r.hi then [⟨s.hi + 1, r.hi⟩] else []

end CharRange

structure CharSet where
  ranges : List CharRange
deriving DecidableEq, Repr, Inhabited

namespace CharSet

def empty : CharSet := ⟨[]⟩

/-- Every character. -/
def full : CharSet := ⟨[⟨0, maxChar⟩]⟩

def contains (s : CharSet) (c : Nat) : Bool := s.ranges.any (·.contains c)

/-- Walks the ascending ranges with the range still to be placed, which grows by every range that
it touches. -/
def place (r : CharRange) : List CharRange → List CharRange
  | [] => [r]
  | q :: qs =>
    if q.hi + 1 < r.lo then q :: place r qs
    else if r.hi + 1 < q.lo then r :: q :: qs
    else place ⟨min r.lo q.lo, max r.hi q.hi⟩ qs

def insertRange (s : CharSet) (lo hi : Nat) : CharSet := ⟨place ⟨lo, hi⟩ s.ranges⟩

def insert (s : CharSet) (c : Nat) : CharSet := s.insertRange c c

def ofList (cs : List Nat) : CharSet := cs.foldl insert empty

def ofRanges (rs : List CharRange) : CharSet := rs.foldl (fun s r => s.insertRange r.lo r.hi) empty

def union (s t : CharSet) : CharSet := t.ranges.foldl (fun s r => s.insertRange r.lo r.hi) s

def inter (s t : CharSet) : CharSet :=
  ofRanges <| s.ranges.flatMap fun a => t.ranges.filterMap fun b =>
    let lo := max a.lo b.lo
    let hi := min a.hi b.hi
    if lo ≤ hi then some ⟨lo, hi⟩ else none

def diff (s t : CharSet) : CharSet :=
  ⟨s.ranges.flatMap fun a => t.ranges.foldl (fun ps b => ps.flatMap (·.without b)) [a]⟩

/-- Whether every value of `t` belongs to `s`; the ranges of `s` do not touch, so each range of
`t` has to lie within one of them. -/
def includes (s t : CharSet) : Bool :=
  t.ranges.all fun b => s.ranges.any fun a => decide (a.lo ≤ b.lo) && decide (b.hi ≤ a.hi)

def intersects (s t : CharSet) : Bool :=
  s.ranges.any fun a => t.ranges.any fun b => decide (a.lo ≤ b.hi) && decide (b.lo ≤ a.hi)

def count (s : CharSet) : Nat := s.ranges.foldl (fun n r => n + r.count) 0

def isEmpty (s : CharSet) : Bool := s.ranges.isEmpty

def min? (s : CharSet) : Option Nat := s.ranges.head?.map (·.lo)

/-- A printable character stands between quotes; a quote, a backslash and every other value are
shown as a number. -/
def charText (c : Nat) : String :=
  if 0x20 ≤ c ∧ c < 0x7F ∧ c ≠ '\''.toNat ∧ c ≠ '\\'.toNat then
    String.ofList ['\'', Char.ofNat c, '\'']
  else toString c

def rangeText (r : CharRange) : String :=
  if r.lo < r.hi then charText r.lo ++ " .. " ++ charText r.hi ++ " " else charText r.lo ++ " "

/-- Each range is followed by a blank. -/
def text (s : CharSet) : String := String.join (s.ranges.map rangeText)

theorem contains_place (r : CharRange) (hr : r.lo ≤ r.hi) (qs : List CharRange)
    (hq : ∀ q ∈ qs, q.lo ≤ q.hi) (c : Nat) :
    (place r qs).any (·.contains c) = (r.contains c || qs.any (·.contains c)) := by
  induction qs generalizing r with
  | nil => simp [place]
  | cons q qs ih =>
    have hq' := hq q (by simp)
    have hqs : ∀ p ∈ qs, p.lo ≤ p.hi := fun p hp => hq p (by simp [hp])
    simp only [place]
    split
    · simp only [List.any_cons, ih r hr hqs]
      cases r.contains c <;> cases q.contains c <;> simp
    · split
      · simp
      · rw [ih _ (by simp only; omega) hqs]
        simp only [List.any_cons, CharRange.contains]
        rw [← Bool.or_assoc]
        congr 1
        rw [Bool.eq_iff_iff]
        simp only [Bool.and_eq_true, Bool.or_eq_true, decide_eq_true_eq]
        omega

end CharSet

end Lookahead
