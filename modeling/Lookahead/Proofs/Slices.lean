import Mathlib
import Lookahead.Proofs.Access

/-!
# Slices, ranges and differences

The places in the handling of texts and of character sets where something has to be there: a slice
starts and stops at whole characters, digits are those of a number of 32 bits, no number is taken
from a smaller one, and a range runs upwards. Checked, these come out as the operations that take it
for granted do (`Text.unescapeFrom?_eq`, `Token.inner?_eq`, `CharSet.Ordered.union?_eq` and
`CharSet.Ordered.diff?_eq`).
-/

namespace Lookahead

variable {bounds : Bounds}

/-! ### Texts -/

namespace Text

def byteLength (cs : List Char) : Nat := (cs.map Char.utf8Size).sum

/-- The text behind the first `n` bytes, if those are whole characters. -/
def dropBytes? : List Char → (n : Nat) → Option (List Char)
  | cs, 0 => some cs
  | [], _ + 1 => none
  | c :: cs, n => if c.utf8Size ≤ n then dropBytes? cs (n - c.utf8Size) else none

/-- The first `n` bytes, if they are whole characters. -/
def takeBytes? : List Char → (n : Nat) → Option (List Char)
  | _, 0 => some []
  | [], _ + 1 => none
  | c :: cs, n =>
    if c.utf8Size ≤ n then do return c :: (← takeBytes? cs (n - c.utf8Size)) else none

/-- The text from one offset in bytes to another. -/
def slice? (cs : List Char) (start stop : Nat) : Option (List Char) :=
  if start ≤ stop then do takeBytes? (← dropBytes? cs start) (stop - start) else none

theorem byteLength_append (cs ds : List Char) :
    byteLength (cs ++ ds) = byteLength cs + byteLength ds := by
  simp [byteLength]

theorem byteLength_cons (c : Char) (cs : List Char) :
    byteLength (c :: cs) = c.utf8Size + byteLength cs := by
  simp [byteLength]

theorem length_le_byteLength (cs : List Char) : cs.length ≤ byteLength cs := by
  induction cs with
  | nil => exact Nat.le_refl 0
  | cons c cs ih =>
    have := c.utf8Size_pos
    rw [byteLength_cons, List.length_cons]
    omega

theorem dropBytes?_append (cs ds : List Char) :
    dropBytes? (cs ++ ds) (byteLength cs) = some ds := by
  induction cs with
  | nil => simp [byteLength, dropBytes?]
  | cons c cs ih =>
    obtain ⟨n, hn⟩ : ∃ n, byteLength (c :: cs) = n + 1 :=
      ⟨byteLength (c :: cs) - 1, by have := c.utf8Size_pos; rw [byteLength_cons]; omega⟩
    rw [List.cons_append, hn, dropBytes?, ← hn, byteLength_cons, if_pos (Nat.le_add_right ..),
      Nat.add_sub_cancel_left, ih]
    exact Nat.succ_ne_zero n

theorem takeBytes?_append (cs ds : List Char) :
    takeBytes? (cs ++ ds) (byteLength cs) = some cs := by
  induction cs with
  | nil => simp [byteLength, takeBytes?]
  | cons c cs ih =>
    obtain ⟨n, hn⟩ : ∃ n, byteLength (c :: cs) = n + 1 :=
      ⟨byteLength (c :: cs) - 1, by have := c.utf8Size_pos; rw [byteLength_cons]; omega⟩
    rw [List.cons_append, hn, takeBytes?, ← hn, byteLength_cons, if_pos (Nat.le_add_right ..),
      Nat.add_sub_cancel_left, ih]
    · rfl
    · exact Nat.succ_ne_zero n

theorem slice?_append (cs ds es : List Char) :
    slice? (cs ++ ds ++ es) (byteLength cs) (byteLength cs + byteLength ds) = some ds := by
  rw [slice?, if_pos (Nat.le_add_right ..), List.append_assoc, dropBytes?_append, some_bind,
    Nat.add_sub_cancel_left, takeBytes?_append]

/-! ### Escape sequences -/

variable (bounds) in
/-- The number that digits denote behind others that denote `n`, in 32 bits. -/
def hexValueFrom? (n : Nat) : List Char → Option (Option Nat)
  | [] => some (some n)
  | c :: cs =>
    match hexDigit? c with
    | some d => do hexValueFrom? (← bounds.guard (16 * n + d < 2 ^ 32) (16 * n + d)) cs
    | none => some none

variable (bounds) in
/-- The character that the digits denote, if it is one. -/
def readHex? (cs : List Char) : Option (Option Char) := do
  let n ← hexValueFrom? bounds 0 cs
  return n.bind fun n => if n < maxChar ∧ n.isValidChar then some (Char.ofNat n) else none

variable (bounds) in
/-- Reads escape sequences from a place in a text. -/
def unescapeFrom? (cs : Array Char) (i : Nat) : Option Unescaped := do
  if i < cs.size then
    let c ← bounds.guard (i < cs.size) (cs.getD i default)
    if c ≠ '\\' then return (← unescapeFrom? cs (i + 1)).cons c
    else
      match cs[i + 1]? with
      | none => return (← unescapeFrom? cs (i + 2)).fault
      | some e =>
        match namedEscape? e with
        | some c => return (← unescapeFrom? cs (i + 2)).cons c
        | none =>
          if e = 'u' ∨ e = 'x' then
            if i + 6 ≤ cs.size then
              let ds ← bounds.guard (i + 2 ≤ i + 6 ∧ i + 6 ≤ cs.size)
                (cs.extract (i + 2) (i + 6)).toList
              match ← readHex? bounds ds with
              | some c => return (← unescapeFrom? cs (i + 6)).cons c
              | none => return (← unescapeFrom? cs (i + 6)).fault
            else return (← unescapeFrom? cs cs.size).fault
          else return (← unescapeFrom? cs (i + 2)).fault
  else return ⟨[], 0⟩
termination_by cs.size - i

theorem lt_of_hexDigit {c : Char} {d : Nat} (h : hexDigit? c = some d) : d < 16 := by
  have hle {a b : Char} : a ≤ b → a.toNat ≤ b.toNat := fun h => UInt32.le_iff_toNat_le.mp h
  have h0 : '0'.toNat = 48 := rfl
  have h9 : '9'.toNat = 57 := rfl
  have ha : 'a'.toNat = 97 := rfl
  have hf : 'f'.toNat = 102 := rfl
  have hA : 'A'.toNat = 65 := rfl
  have hF : 'F'.toNat = 70 := rfl
  unfold hexDigit? at h
  split at h
  · rename_i hc
    have := hle hc.2
    cases h
    omega
  split at h
  · rename_i hc
    have := hle hc.2
    cases h
    omega
  split at h
  · rename_i hc
    have := hle hc.2
    cases h
    omega
  · cases h

/-- Up to eight digits are a number of 32 bits. -/
theorem hexValueFrom?_eq {n k : Nat} {cs : List Char} (hn : n < 16 ^ k) (hk : k + cs.length ≤ 8) :
    hexValueFrom? bounds n cs =
      some (cs.foldlM (fun n c => (hexDigit? c).map (16 * n + ·)) n) := by
  induction cs generalizing n k with
  | nil => rfl
  | cons c cs ih =>
    rw [List.length_cons] at hk
    rw [hexValueFrom?, List.foldlM_cons]
    cases hd : hexDigit? c with
    | none => rfl
    | some d =>
      have hd := lt_of_hexDigit hd
      have hlt : 16 * n + d < 16 ^ (k + 1) := by
        rw [Nat.pow_succ]
        omega
      have h32 : 16 * n + d < 2 ^ 32 :=
        Nat.lt_of_lt_of_le hlt (Nat.pow_le_pow_right (by decide) (by omega : k + 1 ≤ 8))
      dsimp only
      rw [Bounds.guard_eq fun _ => h32, some_bind]
      exact ih hlt (by omega)

theorem readHex?_eq {cs : List Char} (h : cs.length ≤ 8) :
    readHex? bounds cs = some (hexChar? cs) := by
  rw [readHex?, hexValueFrom?_eq (k := 0) Nat.one_pos (by omega)]
  rfl

theorem of_drop_eq_cons {cs : Array Char} {i : Nat} {c : Char} {l : List Char}
    (h : cs.toList.drop i = c :: l) :
    i < cs.size ∧ cs.getD i default = c ∧ cs.toList.drop (i + 1) = l := by
  have hlt : i < cs.toList.length := Nat.lt_of_not_le fun hi => by
    rw [List.drop_eq_nil_of_le hi] at h
    cases h
  rw [List.drop_eq_getElem_cons hlt, List.cons.injEq] at h
  rw [Array.length_toList] at hlt
  refine ⟨hlt, ?_, h.2⟩
  rw [Array.getD_eq_getD_getElem?, Array.getElem?_eq_getElem hlt]
  exact h.1

theorem unescapeFrom?_of_size_le {cs : Array Char} {i : Nat} (hi : cs.size ≤ i) :
    unescapeFrom? bounds cs i = some ⟨[], 0⟩ := by
  rw [unescapeFrom?, if_neg (Nat.not_lt_of_le hi)]
  rfl

theorem unescapeFrom?_of_cons {cs : Array Char} {i : Nat} {c : Char} {l : List Char}
    (h : cs.toList.drop i = c :: l) (hc : c ≠ '\\') :
    unescapeFrom? bounds cs i = do return (← unescapeFrom? bounds cs (i + 1)).cons c := by
  obtain ⟨hi, hd, -⟩ := of_drop_eq_cons h
  rw [unescapeFrom?, if_pos hi, Bounds.guard_eq fun _ => hi, some_bind, hd, if_pos hc]

/-- Behind a backslash, digits are only looked for where there are four characters. -/
theorem unescapeFrom?_of_escape {cs : Array Char} {i : Nat} {e : Char} {l : List Char}
    (h : cs.toList.drop i = '\\' :: e :: l) :
    unescapeFrom? bounds cs i = match namedEscape? e with
      | some c => do return (← unescapeFrom? bounds cs (i + 2)).cons c
      | none =>
        if e = 'u' ∨ e = 'x' then
          if 4 ≤ l.length then
            match hexChar? (l.take 4) with
            | some c => do return (← unescapeFrom? bounds cs (i + 6)).cons c
            | none => do return (← unescapeFrom? bounds cs (i + 6)).fault
          else some ⟨[], 1⟩
        else do return (← unescapeFrom? bounds cs (i + 2)).fault := by
  obtain ⟨hi, hd, h⟩ := of_drop_eq_cons h
  obtain ⟨hi', hd', h⟩ := of_drop_eq_cons h
  have he : cs[i + 1]? = some e := by
    rw [Array.getD_eq_getD_getElem?, Array.getElem?_eq_getElem hi'] at hd'
    rw [Array.getElem?_eq_getElem hi']
    exact congrArg some hd'
  have hlen : cs.size - (i + 2) = l.length := by
    rw [← h, List.length_drop, Array.length_toList]
  rw [unescapeFrom?, if_pos hi, Bounds.guard_eq fun _ => hi, some_bind, hd,
    if_neg (not_not_intro rfl), he]
  dsimp only
  cases namedEscape? e with
  | some c => rfl
  | none =>
    dsimp only
    by_cases hfour : 4 ≤ l.length
    · have hsix : i + 6 ≤ cs.size := by omega
      have hdigits : (cs.extract (i + 2) (i + 6)).toList = l.take 4 := by
        rw [Array.toList_extract, List.extract_eq_take_drop, h, Nat.add_sub_add_left]
      have hread : readHex? bounds (l.take 4) = some (hexChar? (l.take 4)) :=
        readHex?_eq (by rw [List.length_take]; omega)
      rw [if_pos hsix, if_pos hfour, Bounds.guard_eq fun _ => ⟨by omega, hsix⟩, some_bind, hdigits,
        hread, some_bind]
    · rw [if_neg hfour, if_neg (by omega : ¬i + 6 ≤ cs.size),
        unescapeFrom?_of_size_le (Nat.le_refl _)]
      rfl

theorem unescape_of_escape (e : Char) (l : List Char) :
    unescape ('\\' :: e :: l) = match namedEscape? e with
      | some c => (unescape l).cons c
      | none =>
        if e = 'u' ∨ e = 'x' then
          if 4 ≤ l.length then
            match hexChar? (l.take 4) with
            | some c => (unescape (l.drop 4)).cons c
            | none => (unescape (l.drop 4)).fault
          else ⟨[], 1⟩
        else (unescape l).fault := by
  rw [unescape.eq_def]
  cases hn : namedEscape? e with
  | some c => simp [hn]
  | none =>
    rcases l with _ | ⟨h₁, _ | ⟨h₂, _ | ⟨h₃, _ | ⟨h₄, l⟩⟩⟩⟩
    case cons.cons.cons.cons => cases hx : hexChar? [h₁, h₂, h₃, h₄] <;> simp [hn, hx]
    all_goals simp [hn]

theorem unescape_of_ne {c : Char} (hc : c ≠ '\\') (l : List Char) :
    unescape (c :: l) = (unescape l).cons c := by
  rw [unescape.eq_def]
  split <;> simp_all

/-- Every character that reading comes upon is there, and so are the digits behind a backslash. -/
theorem unescapeFrom?_eq (cs : Array Char) (i : Nat) :
    unescapeFrom? bounds cs i = some (unescape (cs.toList.drop i)) := by
  induction hn : cs.size - i using Nat.strongRecOn generalizing i with
  | ind n ih =>
    have hskip {l : List Char} (k : Nat) (h : cs.toList.drop i = l) (hk : 0 < k)
        (hi : i < cs.size) :
        unescapeFrom? bounds cs (i + k) = some (unescape (l.drop k)) := by
      rw [ih _ (by omega) (i + k) rfl, ← h, List.drop_drop]
    cases hx : cs.toList.drop i with
    | nil => exact unescapeFrom?_of_size_le (by simpa using hx)
    | cons c l =>
      obtain ⟨hi, hd, hr⟩ := of_drop_eq_cons hx
      by_cases hc : c = '\\'
      · subst hc
        cases l with
        | nil =>
          have hend : cs.size = i + 1 := by
            have := congrArg List.length hr
            simp at this
            omega
          rw [unescapeFrom?, if_pos hi, Bounds.guard_eq fun _ => hi, some_bind, hd,
            if_neg (not_not_intro rfl), Array.getElem?_eq_none (Nat.le_of_eq hend)]
          dsimp only
          rw [unescapeFrom?_of_size_le (by omega)]
          rfl
        | cons e l =>
          rw [unescapeFrom?_of_escape hx, unescape_of_escape, hskip 2 hx (by omega) hi,
            hskip 6 hx (by omega) hi]
          cases namedEscape? e with
          | some c => rfl
          | none =>
            dsimp only
            split
            · split
              · rw [show ('\\' :: e :: l).drop 6 = l.drop 4 from rfl]
                split <;> rfl
              · rfl
            · rfl
      · rw [unescapeFrom?_of_cons hx hc, hskip 1 hx (by omega) hi, unescape_of_ne hc]
        rfl

end Text

/-! ### Literals and positions -/

variable (bounds) in
/-- `a` without `b`, which `a` has to be at least. -/
def Bounds.sub (a b : Nat) : Option Nat := bounds.guard (b ≤ a) (a - b)

theorem Bounds.sub_eq {a b : Nat} (h : bounds = .checked → b ≤ a) :
    bounds.sub a b = some (a - b) :=
  Bounds.guard_eq h _

namespace Token

open Text

variable {t : Token}

/-- The text starts and stops with a character of one byte. -/
def Quoted (t : Token) : Prop :=
  ∃ q cs r, t.chars = q :: cs ++ [r] ∧ q.utf8Size = 1 ∧ r.utf8Size = 1

section

variable (bounds) (t)

/-- The text of a literal without its quotes, as a slice. -/
def inner? : Option (List Char) :=
  match bounds with
  | .checked => do slice? t.chars 1 (← bounds.sub (byteLength t.chars) 1)
  | .unchecked => some t.inner

def spelling? : Option (List Char) := do
  if t.kind = .char then
    let cs ← t.inner? bounds
    return if cs = ['"'] then ['"', '\\', '"', '"'] else '"' :: cs ++ ['"']
  else return t.chars

def spanInside? (opening closing : Nat) : Option Span := do
  return ⟨t.start.byte + opening, ← bounds.sub t.stop.byte closing, t.line, t.location.col⟩

def attributesSpan? : Option Span := t.spanInside? bounds 1 1

def actionSpan? : Option Span := t.spanInside? bounds 2 2

def conditionSpan? : Option Span :=
  t.spanInside? bounds ((t.chars.takeWhile (· ≠ '(')).length + 1) 1

end

theorem inner?_eq (h : bounds = .checked → t.Quoted) : t.inner? bounds = some t.inner := by
  cases bounds with
  | unchecked => rfl
  | checked =>
    obtain ⟨q, cs, r, ht, hq, hr⟩ := h rfl
    have hlen : byteLength t.chars = byteLength [q] + byteLength cs + 1 := by
      rw [ht, byteLength_append, byteLength_cons, byteLength_cons, byteLength_cons]
      simp [byteLength, hr]
    have hslice := slice?_append [q] cs [r]
    rw [show byteLength [q] = 1 by simp [byteLength, hq]] at hslice hlen
    rw [inner?, Bounds.sub_eq fun _ => by omega, some_bind, hlen, Nat.add_sub_cancel, ht]
    refine hslice.trans ?_
    simp [inner, ht]

theorem spelling?_eq (h : bounds = .checked → t.kind = .char → t.Quoted) :
    t.spelling? bounds = some t.spelling := by
  unfold spelling? spelling
  split
  · rename_i hk
    rw [inner?_eq fun hb => h hb hk]
    rfl
  · rfl

section

variable {n : Nat} (h : bounds = .checked → n ≤ t.stop.byte)
include h

theorem spanInside?_eq (opening : Nat) :
    t.spanInside? bounds opening n = some (t.spanInside opening n) := by
  rw [spanInside?, Bounds.sub_eq h]
  rfl

end

theorem attributesSpan?_eq (h : bounds = .checked → 1 ≤ t.stop.byte) :
    t.attributesSpan? bounds = some t.attributesSpan :=
  spanInside?_eq h 1

theorem actionSpan?_eq (h : bounds = .checked → 2 ≤ t.stop.byte) :
    t.actionSpan? bounds = some t.actionSpan :=
  spanInside?_eq h 2

theorem conditionSpan?_eq (h : bounds = .checked → 1 ≤ t.stop.byte) :
    t.conditionSpan? bounds = some t.conditionSpan :=
  spanInside?_eq h _

end Token

/-! ### Character sets -/

namespace CharRange

section

variable (bounds) (r s : CharRange)

def without? : Option (List CharRange) := do
  if s.hi < r.lo ∨ r.hi < s.lo then return [r]
  else
    let below ← if r.lo < s.lo then do pure [⟨r.lo, ← bounds.sub s.lo 1⟩] else pure []
    return below ++ if s.hi < r.hi then [⟨s.hi + 1, r.hi⟩] else []

def count? : Option Nat := do return (← bounds.sub r.hi r.lo) + 1

end

variable {r s p : CharRange}

theorem without?_eq (r s : CharRange) : r.without? bounds s = some (r.without s) := by
  have hsub (h : r.lo < s.lo) : bounds.sub s.lo 1 = some (s.lo - 1) :=
    Bounds.sub_eq fun _ => Nat.one_le_of_lt h
  unfold without? without
  split
  · rfl
  · by_cases h : r.lo < s.lo
    · rw [if_pos h, if_pos h, hsub h]
      rfl
    · rw [if_neg h, if_neg h]
      rfl

theorem count?_eq (h : r.lo ≤ r.hi) : r.count? bounds = some r.count := by
  rw [count?, Bounds.sub_eq fun _ => h]
  rfl

theorem le_of_mem_without (h : r.lo ≤ r.hi) (hp : p ∈ r.without s) : p.lo ≤ p.hi := by
  unfold without at hp
  split at hp
  · rw [List.mem_singleton] at hp
    exact hp ▸ h
  · rename_i hd
    rw [List.mem_append] at hp
    rcases hp with hp | hp <;> split at hp <;> simp at hp <;> subst hp <;> simp only <;> omega

end CharRange

namespace CharSet

section

variable (bounds) (s t : CharSet)

def insertRange? (lo hi : Nat) : Option CharSet := bounds.guard (lo ≤ hi) (s.insertRange lo hi)

def ofList? (cs : List Nat) : Option CharSet :=
  cs.foldlM (fun s c => s.insertRange? bounds c c) .empty

def union? : Option CharSet := t.ranges.foldlM (fun s r => s.insertRange? bounds r.lo r.hi) s

def diff? : Option CharSet := do
  let ranges ← s.ranges.mapM fun a => t.ranges.foldlM (fun ps b => do
    return (← ps.mapM (·.without? bounds b)).flatten) [a]
  return ⟨ranges.flatten⟩

def count? : Option Nat := s.ranges.foldlM (fun n r => do return n + (← r.count? bounds)) 0

end

/-- The ranges of the set run upwards. -/
def Ordered (s : CharSet) : Prop := ∀ r ∈ s.ranges, r.lo ≤ r.hi

variable {s t : CharSet} {lo hi : Nat}

theorem ordered_empty : Ordered .empty := nofun

theorem ordered_full : Ordered .full := by
  simp [Ordered, full]

theorem le_of_mem_place {r p : CharRange} {qs : List CharRange} (hr : r.lo ≤ r.hi)
    (hq : ∀ q ∈ qs, q.lo ≤ q.hi) (hp : p ∈ place r qs) : p.lo ≤ p.hi := by
  induction qs generalizing r with
  | nil =>
    rw [place, List.mem_singleton] at hp
    exact hp ▸ hr
  | cons q qs ih =>
    obtain ⟨hle, hqs⟩ := List.forall_mem_cons.mp hq
    rw [place] at hp
    split at hp
    · rcases List.mem_cons.mp hp with rfl | hp
      · exact hle
      · exact ih hr hqs hp
    split at hp
    · rcases List.mem_cons.mp hp with rfl | hp
      · exact hr
      · exact hq p hp
    · exact ih (by simp only; omega) hqs hp

theorem Ordered.insertRange (hs : s.Ordered) (h : lo ≤ hi) : (s.insertRange lo hi).Ordered :=
  fun _ hp => le_of_mem_place h hs hp

theorem insertRange?_eq (h : lo ≤ hi) :
    s.insertRange? bounds lo hi = some (s.insertRange lo hi) :=
  Bounds.guard_eq (fun _ => h) _

theorem ofList?_eq (cs : List Nat) : ofList? bounds cs = some (ofList cs) ∧ (ofList cs).Ordered :=
  foldlM_eq_some (fun _ hs _ _ => ⟨insertRange?_eq (Nat.le_refl _),
    hs.insertRange (Nat.le_refl _)⟩) ordered_empty

theorem Ordered.union?_eq (hs : s.Ordered) (ht : t.Ordered) :
    s.union? bounds t = some (s.union t) ∧ (s.union t).Ordered :=
  foldlM_eq_some (fun _ hs r hr => ⟨insertRange?_eq (ht r hr), hs.insertRange (ht r hr)⟩) hs

theorem diff?_eq (s t : CharSet) : s.diff? bounds t = some (s.diff t) := by
  have hranges : (s.ranges.mapM fun a => t.ranges.foldlM (fun ps b => do
      return (← ps.mapM (·.without? bounds b)).flatten) [a]) =
      some (s.ranges.map fun a => t.ranges.foldl (fun ps b => ps.flatMap (·.without b)) [a]) := by
    refine mapM_eq_some fun a _ => (foldlM_eq_some (P := fun _ => True) (fun ps _ b _ => ?_)
      trivial).1
    rw [mapM_eq_some fun p _ => p.without?_eq b, some_bind, ← List.flatMap_def]
    exact ⟨rfl, trivial⟩
  rw [diff?, hranges, some_bind, ← List.flatMap_def]
  rfl

theorem Ordered.diff (hs : s.Ordered) (t : CharSet) : (s.diff t).Ordered := by
  intro p hp
  obtain ⟨a, ha, hp⟩ := List.mem_flatMap.mp hp
  have hall : ∀ ps : List CharRange, (∀ q ∈ ps, q.lo ≤ q.hi) →
      ∀ p ∈ t.ranges.foldl (fun ps b => ps.flatMap (·.without b)) ps, p.lo ≤ p.hi := by
    induction t.ranges with
    | nil => exact fun _ h => h
    | cons b l ih =>
      refine fun ps h => ih _ fun q hq => ?_
      obtain ⟨r, hr, hq⟩ := List.mem_flatMap.mp hq
      exact CharRange.le_of_mem_without (h r hr) hq
  exact hall [a] (by simpa using hs a ha) p hp

theorem Ordered.count?_eq (hs : s.Ordered) : s.count? bounds = some s.count :=
  (foldlM_eq_some (P := fun _ => True) (fun n _ r hr => by
    rw [CharRange.count?_eq (hs r hr)]
    exact ⟨rfl, trivial⟩) trivial).1

end CharSet

end Lookahead
