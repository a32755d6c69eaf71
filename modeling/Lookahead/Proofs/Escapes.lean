import Lookahead.Proofs.Slices

/-!
# Reading what has been escaped

Escaped text is read without a fault. Printable characters, tabs and line ends come back as they
were; every other character is written behind the escape of the character with the code zero, so it
is read as that one, an `x` and the digits of its code (`unescape_escape`). So text comes back if and
only if all its characters are `Kept`, and not even a text of a single character below the greatest
one of a set need do so (`lost_escape`).
-/

namespace Lookahead.Text

/-- The characters that come back when an escaped text is read. -/
def Kept (c : Char) : Prop := c ∈ ['\t', '\r', '\n'] ∨ 0x20 ≤ c.toNat ∧ c.toNat ≤ 0x7F

instance : DecidablePred Kept := fun _ => inferInstanceAs (Decidable (_ ∨ _ ∧ _))

/-- What a character comes back as. -/
def reread (c : Char) : List Char := if Kept c then [c] else '\x00' :: 'x' :: hexDigits c.toNat

theorem ne_backslash_of_mem_toDigits {n : Nat} {c : Char} (hc : c ∈ Nat.toDigits 16 n) :
    c ≠ '\\' := by
  induction n using Nat.strongRecOn with
  | ind n ih =>
    by_cases hn : n < 16
    · rw [Nat.toDigits_of_lt_base hn, List.mem_singleton] at hc
      simp [hc]
    · rw [Nat.toDigits_of_base_le (by decide) (Nat.le_of_not_lt hn), List.mem_append,
        List.mem_singleton] at hc
      rcases hc with hc | rfl
      · exact ih (n / 16) (by omega) hc
      · simp

theorem ne_backslash_of_mem_hexDigits {n : Nat} {c : Char} (hc : c ∈ hexDigits n) : c ≠ '\\' := by
  rcases List.mem_append.mp hc with hc | hc
  · simp [List.eq_of_mem_replicate hc]
  · exact ne_backslash_of_mem_toDigits hc

/-- Without backslashes a text stands for itself. -/
theorem unescape_append {cs : List Char} (h : ∀ c ∈ cs, c ≠ '\\') (l : List Char) :
    unescape (cs ++ l) = ⟨cs ++ (unescape l).chars, (unescape l).faults⟩ := by
  induction cs with
  | nil => rfl
  | cons c cs ih =>
    rw [List.cons_append, unescape_of_ne (h c List.mem_cons_self),
      ih fun d hd => h d (List.mem_cons_of_mem c hd)]
    rfl

theorem unescape_of_named {e c : Char} (h : namedEscape? e = some c) (l : List Char) :
    unescape ('\\' :: e :: l) = (unescape l).cons c := by
  rw [unescape_of_escape, h]

/-- A character is escaped by its name, by the name of the code zero and its own code, or not at
all. -/
theorem escapeChar_cases (c : Char) :
    (∃ e, escapeChar c = ['\\', e] ∧ namedEscape? e = some c ∧ Kept c) ∨
      (escapeChar c = '\\' :: '0' :: 'x' :: hexDigits c.toNat ∧ ¬Kept c) ∨
      (escapeChar c = [c] ∧ c ≠ '\\' ∧ Kept c) := by
  by_cases hnamed : c ∈ ['\\', '\'', '"', '\t', '\r', '\n']
  · left
    simp only [List.mem_cons, List.not_mem_nil, or_false] at hnamed
    rcases hnamed with rfl | rfl | rfl | rfl | rfl | rfl <;> exact ⟨_, rfl, rfl, by decide⟩
  right
  simp only [List.mem_cons, List.not_mem_nil, or_false, not_or] at hnamed
  obtain ⟨hbackslash, hsingle, hdouble, htab, hcr, hlf⟩ := hnamed
  rw [escapeChar, if_neg hbackslash, if_neg hsingle, if_neg hdouble, if_neg htab, if_neg hcr,
    if_neg hlf]
  have hkept : Kept c ↔ 0x20 ≤ c.toNat ∧ c.toNat ≤ 0x7F := by
    simp [Kept, htab, hcr, hlf]
  split
  · exact .inl ⟨rfl, by rw [hkept]; omega⟩
  · exact .inr ⟨rfl, hbackslash, by rw [hkept]; omega⟩

theorem unescape_escapeChar (c : Char) (l : List Char) :
    unescape (escapeChar c ++ l) =
      ⟨reread c ++ (unescape l).chars, (unescape l).faults⟩ := by
  rcases escapeChar_cases c with ⟨e, he, hn, hk⟩ | ⟨he, hk⟩ | ⟨he, hc, hk⟩
  · rw [he, reread, if_pos hk]
    exact unescape_of_named hn l
  · have hdigits : ∀ d ∈ 'x' :: hexDigits c.toNat, d ≠ '\\' := by
      rintro d (_ | ⟨_, hd⟩)
      · decide
      · exact ne_backslash_of_mem_hexDigits hd
    rw [he, reread, if_neg hk, List.cons_append, List.cons_append, unescape_of_named rfl,
      unescape_append hdigits]
    rfl
  · rw [he, reread, if_pos hk]
    exact unescape_of_ne hc l

theorem one_le_length_reread (c : Char) : 1 ≤ (reread c).length := by
  unfold reread
  split <;> simp

theorem kept_of_length_reread {c : Char} (h : (reread c).length ≤ 1) : Kept c := by
  unfold reread at h
  split at h
  · assumption
  · simp at h

/-- A text that comes back has grown nowhere. -/
theorem flatMap_reread_eq_self_iff {cs : List Char} :
    cs.flatMap reread = cs ↔ ∀ c ∈ cs, Kept c := by
  constructor
  · intro h
    have hlength (l : List Char) : l.length ≤ (l.flatMap reread).length := by
      induction l with
      | nil => exact Nat.le_refl 0
      | cons c l ih =>
        have := one_le_length_reread c
        rw [List.flatMap_cons, List.length_append, List.length_cons]
        omega
    intro c hc
    obtain ⟨l, r, rfl⟩ := List.append_of_mem hc
    have hsum := congrArg List.length h
    have hl := hlength l
    have hr := hlength r
    simp only [List.flatMap_append, List.flatMap_cons, List.length_append, List.length_cons]
      at hsum
    exact kept_of_length_reread (by omega)
  · intro h
    induction cs with
    | nil => rfl
    | cons c cs ih =>
      obtain ⟨hc, hcs⟩ := List.forall_mem_cons.mp h
      rw [List.flatMap_cons, ih hcs, reread, if_pos hc]
      rfl

/-- Escaped text is read without a fault, and it comes back if and only if it is printable but for
tabs and line ends. -/
theorem unescape_escape (cs : List Char) :
    unescape (escape cs) = ⟨cs.flatMap reread, 0⟩ ∧
      (unescape (escape cs) = ⟨cs, 0⟩ ↔ ∀ c ∈ cs, Kept c) := by
  have hread : unescape (escape cs) = ⟨cs.flatMap reread, 0⟩ := by
    induction cs with
    | nil => rfl
    | cons c cs ih =>
      rw [escape, List.flatMap_cons, unescape_escapeChar, ← escape, ih]
      rfl
  refine ⟨hread, ?_⟩
  rw [hread, Unescaped.mk.injEq, and_iff_left rfl]
  exact flatMap_reread_eq_self_iff

/-- A character of a set that comes back as six others. -/
theorem lost_escape :
    ¬∀ cs : List Char, (∀ c ∈ cs, c.toNat < maxChar) → unescape (escape cs) = ⟨cs, 0⟩ := by
  intro h
  have hread : unescape (escape ['é']) = ⟨['\x00', 'x', '0', '0', 'e', '9'], 0⟩ := by decide
  have hsmall : ∀ c ∈ ['é'], c.toNat < maxChar := List.forall_mem_singleton.mpr (by decide)
  have := hread.symm.trans (h ['é'] hsmall)
  simp at this

end Lookahead.Text
