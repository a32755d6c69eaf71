import Mathlib
import Lookahead.Proofs.Classes

/-!
# How far classes reach

The set of all characters ends with `maxChar`, and so do escape sequences, but a character that
stands in a literal as itself may lie behind it. So a class has values up to `maxChar`, and beyond
that only what is written in a term that adds to a set (`Grammar.bounded_of_parse`): operations on
sets make up no values, and a name stands for values that are there already. Where nothing beyond
`maxChar` is written, the set of all characters includes every class.
-/

namespace Lookahead

/-- The value is one of the characters of a string, a single character, or between the bounds of a
range. -/
def SimpleSet.Writes (n : Nat) : SimpleSet → Prop
  | name _ | any => False
  | string s => ∃ c ∈ (Text.unescape s.inner).chars, c.toNat = n
  | char c => (charValue c).value = n
  | range lo hi => (charValue lo).value ≤ n ∧ n ≤ (charValue hi).value

/-- The value is written in a term that adds to the set. -/
def SetDecl.Writes (d : SetDecl) (n : Nat) : Prop :=
  ∃ term ∈ d.terms, term.minus = false ∧ term.set.Writes n

namespace CharSet

/-- The set is well-formed, and its values beyond `maxChar` meet `W`. -/
structure Bounded (W : Nat → Prop) (s : CharSet) : Prop where
  canonical : s.Canonical
  le_or : ∀ n, s.contains n = true → n ≤ maxChar ∨ W n

variable {W V : Nat → Prop} {s t : CharSet}

theorem contains_empty {n : Nat} : ¬ empty.contains n = true := by
  simp [contains_iff, empty]

theorem bounded_empty : Bounded W .empty :=
  ⟨canonical_empty, fun _ hn => absurd hn contains_empty⟩

theorem bounded_full : Bounded W .full :=
  ⟨canonical_full, fun _ hn => .inl (contains_full.mp hn)⟩

theorem Bounded.mono (hs : s.Bounded W) (h : ∀ n, W n → V n) : s.Bounded V :=
  ⟨hs.canonical, fun n hn => (hs.le_or n hn).imp_right (h n)⟩

theorem Bounded.union (hs : s.Bounded W) (ht : t.Bounded W) : (s.union t).Bounded W where
  canonical := hs.canonical.union ht.canonical.ordered
  le_or n hn := by
    rcases (hs.canonical.ordered.contains_union ht.canonical.ordered).mp hn with hn | hn
    · exact hs.le_or n hn
    · exact ht.le_or n hn

/-- What is taken away may be any set. -/
theorem Bounded.diff (hs : s.Bounded W) (ht : t.Bounded V) : (s.diff t).Bounded W where
  canonical := hs.canonical.diff ht.canonical.ordered
  le_or n hn := hs.le_or n (contains_diff.mp hn).1

theorem bounded_ofList {cs : List Nat} (h : ∀ n ∈ cs, W n) : (ofList cs).Bounded W :=
  ⟨canonical_ofList cs, fun n hn => .inr (h n (contains_ofList.mp hn))⟩

theorem bounded_insertRange {lo hi : Nat} (hle : lo ≤ hi) (h : ∀ n, lo ≤ n → n ≤ hi → W n) :
    (empty.insertRange lo hi).Bounded W where
  canonical := canonical_empty.insertRange hle
  le_or n hn := by
    rcases (canonical_empty.ordered.contains_insertRange hle).mp hn with ⟨hlo, hhi⟩ | hn
    · exact .inr (h n hlo hhi)
    · exact absurd hn contains_empty

theorem Bounded.full_includes_iff (hs : s.Bounded W) :
    full.includes s = true ↔ ∀ n, s.contains n = true → n ≤ maxChar := by
  rw [canonical_full.includes_iff hs.canonical.ordered]
  simp only [contains_full]

end CharSet

open CharSet

variable {W : Nat → Prop} {t : Table}

/-- A set has the values of the classes declared before, and those that are written in it. -/
theorem SimpleSet.bounded_eval (ht : t.Classed (Bounded W)) (s : SimpleSet) :
    (s.eval t).value.Bounded fun n => W n ∨ s.Writes n := by
  cases s with
  | name n =>
    unfold eval
    dsimp only
    split
    · rename_i c hc
      obtain ⟨hlt, -⟩ := Array.findIdx?_eq_some_iff_getElem.mp hc
      have hclass : (t.charClass c).set.Bounded W := by
        rw [Table.charClass, Array.getD_eq_getD_getElem?, Array.getElem?_eq_getElem hlt]
        exact ht _ (Array.getElem_mem hlt)
      exact hclass.mono fun _ => .inl
    · exact bounded_empty
  | string s =>
    refine bounded_ofList fun n hn => .inr ?_
    obtain ⟨c, hc, rfl⟩ := List.mem_map.mp hn
    exact ⟨c, hc, rfl⟩
  | char c =>
    simp only [eval, Noted.value_bind, Noted.value_pure]
    exact bounded_insertRange le_rfl fun n hlo hhi => .inr (le_antisymm hlo hhi)
  | range lo hi =>
    simp only [eval, Noted.value_bind, Noted.value_pure]
    split
    · rename_i hle
      exact bounded_insertRange hle fun n hlo hhi => .inr ⟨hlo, hhi⟩
    · exact bounded_empty
  | any => exact bounded_full

/-- Terms are put together from left to right, and those that take away add nothing. -/
theorem bounded_evalTerms (ht : t.Classed (Bounded W)) (terms : List SetTerm)
    (hW : ∀ term ∈ terms, term.minus = false → ∀ n, term.set.Writes n → W n) :
    (evalTerms t terms).value.Bounded W := by
  rw [evalTerms, Noted.value_foldlM]
  refine List.foldlRecOn terms _ bounded_empty fun s hs term hterm => ?_
  simp only [Noted.value_bind, Noted.value_pure]
  have hr := term.set.bounded_eval ht
  cases hm : term.minus with
  | true => exact hs.diff hr
  | false => exact hs.union (hr.mono fun n hn => hn.elim id (hW term hterm hm n))

theorem Definition.bounded_table (d : Definition) :
    d.table.value.Classed (Bounded fun n => ∃ c ∈ d.sections.sets, c.Writes n) :=
  d.classed_table bounded_empty fun c hc _ ht => bounded_evalTerms ht c.terms
    fun term hterm hm _ hn => ⟨c, hc, term, hterm, hm, hn⟩

namespace Grammar

variable {source : String} {cfg : Config} {log : Log} {g : Grammar}

/-- The classes of a grammar have values up to `maxChar`, and beyond that only what is written in
its sets. If nothing beyond is written, the set of all characters includes them all. -/
theorem bounded_of_parse (hg : (Grammar.parse source cfg log).2 = .ok g) :
    ∃ d, Definition.read source = .ok d ∧
      (∀ k ∈ g.table.classes,
        (∀ n, k.set.contains n = true → n ≤ maxChar ∨ ∃ c ∈ d.sections.sets, c.Writes n) ∧
        (CharSet.full.includes k.set = true ↔ ∀ n, k.set.contains n = true → n ≤ maxChar)) ∧
      ((∀ c ∈ d.sections.sets, ∀ n, c.Writes n → n ≤ maxChar) →
        ∀ k ∈ g.table.classes, CharSet.full.includes k.set = true) := by
  obtain ⟨d, hd, rfl⟩ := exists_read hg
  have hbounded := d.bounded_table
  refine ⟨d, hd, fun k hk => ⟨(hbounded k hk).le_or, (hbounded k hk).full_includes_iff⟩, ?_⟩
  intro hwritten k hk
  refine (hbounded k hk).full_includes_iff.mpr fun n hn => ?_
  rcases (hbounded k hk).le_or n hn with hle | ⟨c, hc, hw⟩
  · exact hle
  · exact hwritten c hc n hw

/-- A character beyond `maxChar` alone, and in a range that is taken away. -/
def beyond : String :=
  "COMPILER A\nCHARACTERS\nc = \"😀\".\nd = ANY + c - 'a' .. '😀' + \"é\\u4e2d\".\n" ++
    "PRODUCTIONS\nA = \"t\".\nEND A."

set_option maxRecDepth 100000 in
theorem parse_beyond : ∃ g, (Grammar.parse beyond default {}).2 = .ok g ∧
    ((g.table.charClass 0).set.contains 0x1F600 &&
      !(g.table.charClass 1).set.contains 0x1F600 && g.table.classes.size == 2) = true :=
  exists_ok_of_any (by decide +kernel)

theorem bounded_beyond : ∃ g, (Grammar.parse beyond default {}).2 = .ok g ∧
    ∃ d, Definition.read beyond = .ok d ∧
      ∀ k ∈ g.table.classes, ∀ n, k.set.contains n = true →
        n ≤ maxChar ∨ ∃ c ∈ d.sections.sets, c.Writes n := by
  obtain ⟨g, hg, -⟩ := parse_beyond
  obtain ⟨d, hd, h, -⟩ := bounded_of_parse hg
  exact ⟨g, hg, d, hd, fun k hk => (h k hk).1⟩

set_option maxRecDepth 100000 in
/-- The first class is the character itself, and nothing is reported. -/
theorem excess_beyond : ∃ g, (Grammar.parse beyond default {}).2 = .ok g ∧
    (Grammar.parse beyond default {}).1.errorCount = Log.errorCount {} ∧
    ∃ k ∈ g.table.classes, k.set.contains 0x1F600 = true ∧ maxChar < 0x1F600 ∧
      CharSet.full.includes k.set = false := by
  obtain ⟨g, hg, h⟩ := exists_ok_of_any (x := (Grammar.parse beyond default {}).2)
    (P := fun g => g.table.classes.any fun k =>
      k.set.contains 0x1F600 && !CharSet.full.includes k.set) (by decide +kernel)
  obtain ⟨k, hk, h⟩ := Array.any_eq_true'.mp h
  simp only [Bool.and_eq_true, Bool.not_eq_true'] at h
  exact ⟨g, hg, by decide +kernel, k, hk, h.1, by decide, h.2⟩

end Grammar

end Lookahead
