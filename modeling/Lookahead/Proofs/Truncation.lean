import Mathlib.Data.Finset.Sort
import Mathlib.Logic.Function.Basic
import Lookahead.Proofs.MirrorSets
import Lookahead.Proofs.Narrowing

/-!
# Sets of different lengths

An index set is stored as a set that knows no length, with the length beside it (`Bits`). So every
operation on two of them has to see to it that nothing gets in beyond the length of the first one,
and that nothing of the first one is lost beyond the length of the second. Commands work on sets in
registers. Each of them keeps to what is stored for index sets (`Command.exists_run?`), and so does
every run of commands that sets no index beyond a length (`Command.pointwise_of_lawful`).
-/

namespace Lookahead

/-! ### What the operations do to the bits -/

namespace IndexSet

variable {s t : IndexSet} {i : Nat}

@[simp] theorem size_complement : s.complement.size = s.size := Array.size_map

theorem get_complement : s.complement.get i = (decide (i < s.size) && !s.get i) := by
  by_cases hi : i < s.bits.size <;> simp [complement, get, size, hi]

theorem mem_toList : i ∈ s.toList ↔ s.get i = true := by
  rw [toList, List.mem_filter, List.mem_range]
  exact ⟨And.right, fun hi => ⟨lt_of_get hi, hi⟩⟩

theorem pairwise_toList (s : IndexSet) : s.toList.Pairwise (· < ·) :=
  List.pairwise_lt_range.filter _

theorem isEmpty_iff : s.isEmpty = true ↔ ∀ i, s.get i = false := by
  rw [isEmpty, Bool.not_eq_true', Array.any_eq_false]
  refine ⟨fun h i => ?_, fun h i hi => ?_⟩
  · by_cases hi : i < s.bits.size
    · have hbit : s.bits[i] ≠ true := h i hi
      simpa [get, hi] using hbit
    · exact get_of_size_le (Nat.le_of_not_lt hi)
  · have hbit : s.get i ≠ true := by rw [h i]; exact Bool.false_ne_true
    simpa [get, hi] using hbit

/-- As many indices are counted as are listed. -/
theorem length_toList (s : IndexSet) : s.toList.length = s.count := by
  have hmap : s.bits.toList = (List.range s.size).map s.get := by
    refine List.ext_getElem (by simp [size]) fun i hi hi' => ?_
    have hlt : i < s.bits.size := by simpa using hi
    simp [get, hlt]
  rw [toList, ← List.countP_eq_length_filter, count, ← Array.countP_toList, hmap, List.countP_map]
  rfl

end IndexSet

/-! ### What is stored -/

/-- A set of numbers that knows no length, and the length that is kept beside it. -/
structure Bits where
  size : Nat
  members : Finset Nat

namespace Bits

def replicate (n : Nat) (b : Bool) : Bits := ⟨n, if b then Finset.range n else ∅⟩

def set (x : Bits) (i : Nat) (b : Bool) : Bits :=
  { x with members := if b then insert i x.members else x.members.erase i }

def fill (x : Bits) (b : Bool) : Bits := replicate x.size b

def complement (x : Bits) : Bits := { x with members := Finset.range x.size \ x.members }

/-- The members in ascending order. -/
def toList (x : Bits) : List Nat := x.members.sort

/-- The members below `n`. Nothing is cut off where no member is expected beyond. -/
def operand (x : Bits) (n : Nat) : Finset Nat :=
  if x.size ≤ n then x.members else (x.toList.takeWhile (· < n)).toFinset

/-- What lies beyond both lengths is put aside first. -/
def inter (x y : Bits) : Bits :=
  let n := min x.size y.size
  let rest := x.members.filter (n ≤ ·)
  { x with members := x.members ∩ y.operand n ∪ rest }

def diff (x y : Bits) : Bits :=
  { x with members := x.members \ y.operand (min x.size y.size) }

def union (x y : Bits) : Bits :=
  { x with members := x.members ∪ y.operand (min x.size y.size) }

def symmDiff (x y : Bits) : Bits :=
  let o := y.operand (min x.size y.size)
  { x with members := (x.members \ o) ∪ (o \ x.members) }

def isEmpty (x : Bits) : Bool := decide (x.members = ∅)

def count (x : Bits) : Nat := x.members.card

def get (x : Bits) (i : Nat) : Bool := decide (i ∈ x.members)

/-- The lengths are equal, and each set is within the other. -/
def equal (x y : Bits) : Bool :=
  x.size == y.size && decide (x.members ⊆ y.members) && decide (y.members ⊆ x.members)

def overlaps (x y : Bits) : Bool := !decide (Disjoint x.members y.members)

/-- The set has the length and the members that are stored. -/
structure Stores (x : Bits) (s : IndexSet) : Prop where
  size : x.size = s.size
  mem : ∀ i, i ∈ x.members ↔ s.get i = true

namespace Stores

variable {x y : Bits} {s t : IndexSet} {i n : Nat} {b : Bool}

theorem lt (h : x.Stores s) (hi : i ∈ x.members) : i < x.size :=
  h.size ▸ IndexSet.lt_of_get ((h.mem i).mp hi)

theorem replicate (n : Nat) (b : Bool) : (Bits.replicate n b).Stores (.replicate n b) where
  size := Array.size_replicate.symm
  mem i := by
    rw [IndexSet.get_replicate]
    cases b <;> simp [Bits.replicate]

theorem set (h : x.Stores s) (hi : i < s.size) (b : Bool) : (x.set i b).Stores (s.set i b) where
  size := h.size.trans (s.size_set i b).symm
  mem j := by
    have hj := @IndexSet.lt_of_get s j
    rw [IndexSet.get_set]
    by_cases hij : i = j
    · subst hij
      cases b <;> simp [Bits.set, hi]
    · cases b <;> simp [Bits.set, h.mem, hij, Ne.symm hij]

theorem fill (h : x.Stores s) (b : Bool) : (x.fill b).Stores (s.fill b) := by
  rw [Bits.fill, h.size]
  exact replicate s.size b

theorem complement (h : x.Stores s) : x.complement.Stores s.complement where
  size := h.size.trans IndexSet.size_complement.symm
  mem i := by
    rw [IndexSet.get_complement, Bits.complement, Finset.mem_sdiff, Finset.mem_range, h.mem, h.size]
    simp

/-- In ascending order the members below a bound come first. -/
theorem mem_takeWhile {l : List Nat} (hl : l.Pairwise (· < ·)) :
    i ∈ l.takeWhile (· < n) ↔ i ∈ l ∧ i < n := by
  induction l with
  | nil => simp
  | cons a l ih =>
    obtain ⟨hal, hl⟩ := List.pairwise_cons.mp hl
    by_cases han : a < n
    · rw [List.takeWhile_cons_of_pos (by simpa using han), List.mem_cons, List.mem_cons, ih hl]
      constructor
      · rintro (rfl | ⟨hi, hin⟩)
        · exact ⟨.inl rfl, han⟩
        · exact ⟨.inr hi, hin⟩
      · rintro ⟨rfl | hi, hin⟩
        · exact .inl rfl
        · exact .inr ⟨hi, hin⟩
    · rw [List.takeWhile_cons_of_neg (by simpa using han)]
      have hbeyond : ∀ j ∈ a :: l, n ≤ j := by
        intro j hj
        rcases List.mem_cons.mp hj with rfl | hj
        · omega
        · have := hal j hj
          omega
      simp only [List.not_mem_nil, false_iff, not_and, Nat.not_lt]
      exact hbeyond i

/-- An operand holds what is stored below the bound, whether it is cut or not. -/
theorem mem_operand (h : y.Stores t) : i ∈ y.operand n ↔ i < n ∧ t.get i = true := by
  rw [operand]
  split
  · next hn =>
    rw [← h.mem]
    exact ⟨fun hi => ⟨Nat.lt_of_lt_of_le (h.lt hi) hn, hi⟩, And.right⟩
  · next hn =>
    rw [List.mem_toFinset, toList, mem_takeWhile (Finset.sortedLT_sort _).pairwise,
      Finset.mem_sort, h.mem, and_comm]

end Stores

end Bits

/-! ### Operations on two sets -/

/-- The operations that change their first set. -/
inductive Operation
  | union
  | inter
  | diff
  | symmDiff
deriving DecidableEq

namespace Operation

/-- What becomes of two bits. -/
def bit : Operation → Bool → Bool → Bool
  | .union, b, c => b || c
  | .inter, b, c => b && c
  | .diff, b, c => b && !c
  | .symmDiff, b, c => b ^^ c

def apply : Operation → IndexSet → IndexSet → IndexSet
  | .union => IndexSet.union
  | .inter => IndexSet.inter
  | .diff => IndexSet.diff
  | .symmDiff => IndexSet.symmDiff

def onBits : Operation → Bits → Bits → Bits
  | .union => Bits.union
  | .inter => Bits.inter
  | .diff => Bits.diff
  | .symmDiff => Bits.symmDiff

variable {x y : Bits} {s t : IndexSet} {i : Nat}

theorem apply_eq (op : Operation) : op.apply s t = IndexSet.combine op.bit s t := by
  cases op <;> rfl

@[simp] theorem size_apply (op : Operation) : (op.apply s t).size = s.size := by
  rw [apply_eq, IndexSet.size_combine]

/-- Beyond one of the lengths a bit stays what it is. -/
theorem get_apply (op : Operation) : (op.apply s t).get i =
    if i < min s.size t.size then op.bit (s.get i) (t.get i) else s.get i := by
  rw [apply_eq]
  by_cases hi : i < s.size
  · rw [IndexSet.get_combine _ _ _ _ hi]
    congr 1
    rw [lt_min_iff, eq_iff_iff]
    exact ⟨fun ht => ⟨hi, ht⟩, And.right⟩
  · have hbeyond : ∀ r : IndexSet, r.size = s.size → r.get i = false := fun r hr =>
      IndexSet.get_of_size_le (hr ▸ Nat.le_of_not_lt hi)
    rw [if_neg (by omega), hbeyond _ (IndexSet.size_combine ..), hbeyond s rfl]

/-- What is stored for two sets is combined to what is stored for their combination. -/
theorem stores (op : Operation) (hx : x.Stores s) (hy : y.Stores t) :
    (op.onBits x y).Stores (op.apply s t) where
  size := by
    rw [size_apply, ← hx.size]
    cases op <;> rfl
  mem i := by
    have hi : s.get i = true → i < s.size := IndexSet.lt_of_get
    have ht : t.get i = true → i < t.size := IndexSet.lt_of_get
    rw [get_apply]
    cases op <;>
      simp only [onBits, Bits.union, Bits.inter, Bits.diff, Bits.symmDiff, bit, Finset.mem_union,
        Finset.mem_inter, Finset.mem_sdiff, Finset.mem_filter, hy.mem_operand, hx.mem, hx.size,
        hy.size] <;>
      grind

/-- The third set is what becomes of the first one when the operation combines it with the second:
it is as long as the first, and beyond the length of the second nothing has changed. -/
structure Combines (op : Operation) (s t r : IndexSet) : Prop where
  size : r.size = s.size
  below : ∀ i < min s.size t.size, r.get i = op.bit (s.get i) (t.get i)
  above : ∀ i, min s.size t.size ≤ i → i < s.size → r.get i = s.get i

theorem combines (op : Operation) (s t : IndexSet) : op.Combines s t (op.apply s t) where
  size := op.size_apply
  below _ hi := op.get_apply.trans (if_pos hi)
  above _ hi _ := op.get_apply.trans (if_neg (Nat.not_lt.mpr hi))

end Operation

/-! ### What is read off -/

/-- What is read off a set that is stored: only the bits below its length count, and every one of
them does. -/
structure Bits.Reads (x : Bits) (s : IndexSet) : Prop where
  size : x.size = s.size
  get : ∀ i, x.get i = s.get i
  beyond : ∀ i, s.size ≤ i → x.get i = false
  count : x.count = s.count ∧ x.count = ((Finset.range s.size).filter (s.get · = true)).card
  isEmpty : x.isEmpty = s.isEmpty ∧ (x.isEmpty = true ↔ x.count = 0)
  toList : x.toList = s.toList ∧ x.toList.Pairwise (· < ·) ∧
    ∀ i, i ∈ x.toList ↔ i < s.size ∧ s.get i = true

/-- What is read off two sets that are stored. -/
structure Bits.Compares (x y : Bits) (s t : IndexSet) : Prop where
  equal : x.equal y = (s == t) ∧
    (x.equal y = true ↔ s.size = t.size ∧ ∀ i < s.size, s.get i = t.get i)
  overlaps : x.overlaps y = s.overlaps t ∧
    (x.overlaps y = true ↔ ∃ i, s.get i = true ∧ t.get i = true)

namespace Bits.Stores

variable {x y : Bits} {s t : IndexSet}

theorem members_eq (h : x.Stores s) :
    x.members = (Finset.range s.size).filter (s.get · = true) := by
  ext i
  rw [h.mem, Finset.mem_filter, Finset.mem_range]
  exact ⟨fun hi => ⟨IndexSet.lt_of_get hi, hi⟩, And.right⟩

theorem toList_eq (h : x.Stores s) : x.toList = s.toList := by
  have hs : s.toList.toFinset = x.members := by
    ext i
    rw [List.mem_toFinset, IndexSet.mem_toList, h.mem]
  rw [toList, ← hs]
  exact (List.toFinset_sort (· ≤ ·) s.pairwise_toList.nodup).mpr
    (s.pairwise_toList.imp Nat.le_of_lt)

theorem reads (h : x.Stores s) : x.Reads s where
  size := h.size
  get i := by rw [Bits.get, Bool.eq_iff_iff, decide_eq_true_iff, h.mem]
  beyond i hi := by
    rw [Bits.get, decide_eq_false_iff_not, h.mem, IndexSet.get_of_size_le hi]
    exact Bool.false_ne_true
  count := by
    refine ⟨?_, congrArg Finset.card h.members_eq⟩
    rw [← s.length_toList, ← h.toList_eq, Bits.toList, Finset.length_sort, Bits.count]
  isEmpty := by
    refine ⟨?_, by rw [Bits.isEmpty, decide_eq_true_iff, Bits.count, Finset.card_eq_zero]⟩
    rw [Bits.isEmpty, Bool.eq_iff_iff, decide_eq_true_iff, IndexSet.isEmpty_iff,
      Finset.eq_empty_iff_forall_notMem]
    exact forall_congr' fun i => by rw [h.mem, Bool.not_eq_true]
  toList := by
    refine ⟨h.toList_eq, h.toList_eq ▸ s.pairwise_toList, fun i => ?_⟩
    rw [h.toList_eq, IndexSet.mem_toList]
    exact ⟨fun hi => ⟨IndexSet.lt_of_get hi, hi⟩, And.right⟩

theorem equal_iff (hx : x.Stores s) (hy : y.Stores t) : x.equal y = true ↔ s = t := by
  rw [equal, Bool.and_eq_true, Bool.and_eq_true, beq_iff_eq, decide_eq_true_iff,
    decide_eq_true_iff, hx.size, hy.size]
  constructor
  · rintro ⟨⟨hsize, hxy⟩, hyx⟩
    refine IndexSet.ext_get hsize fun i _ => ?_
    rw [Bool.eq_iff_iff, ← hx.mem, ← hy.mem]
    exact ⟨fun hi => hxy hi, fun hi => hyx hi⟩
  · rintro rfl
    exact ⟨⟨rfl, fun i hi => (hy.mem i).mpr ((hx.mem i).mp hi)⟩,
      fun i hi => (hx.mem i).mpr ((hy.mem i).mp hi)⟩

theorem overlaps_iff (hx : x.Stores s) (hy : y.Stores t) :
    x.overlaps y = true ↔ ∃ i, s.get i = true ∧ t.get i = true := by
  rw [overlaps, Bool.not_eq_true', decide_eq_false_iff_not, Finset.not_disjoint_iff]
  exact exists_congr fun i => by rw [hx.mem, hy.mem]

theorem compares (hx : x.Stores s) (hy : y.Stores t) : x.Compares y s t where
  equal := by
    refine ⟨by rw [Bool.eq_iff_iff, hx.equal_iff hy, beq_iff_eq], (hx.equal_iff hy).trans ?_⟩
    exact ⟨fun h => h ▸ ⟨rfl, fun _ _ => rfl⟩, fun h => IndexSet.ext_get h.1 h.2⟩
  overlaps := by
    refine ⟨?_, hx.overlaps_iff hy⟩
    rw [Bool.eq_iff_iff, hx.overlaps_iff hy, IndexSet.overlaps_iff]

end Bits.Stores

/-! ### Commands on sets in registers -/

/-- What can be done with sets in registers. The register that changes comes first. -/
inductive Command
  | make (r n : Nat) (b : Bool)
  | copy (r q : Nat)
  | set (r i : Nat) (b : Bool)
  | fill (r : Nat) (b : Bool)
  | complement (r : Nat)
  | change (op : Operation) (r q : Nat)
  | combine (op : Operation) (r p q : Nat)

namespace Command

open Function (update)

/-- The register that the command changes. -/
def target : Command → Nat
  | make r .. | copy r _ | set r .. | fill r _ | complement r | change _ r _ | combine _ r .. => r

/-- Runs the command on index sets. -/
def run (regs : Nat → IndexSet) : Command → Nat → IndexSet
  | make r n b => update regs r (.replicate n b)
  | copy r q => update regs r (regs q)
  | set r i b => update regs r ((regs r).set i b)
  | fill r b => update regs r ((regs r).fill b)
  | complement r => update regs r (regs r).complement
  | change op r q => update regs r (op.apply (regs r) (regs q))
  | combine op r p q => update regs r (op.apply (regs p) (regs q))

/-- Runs the command on what is stored. A bit is only set below the length. -/
def run? (mem : Nat → Bits) : Command → Option (Nat → Bits)
  | make r n b => some (update mem r (.replicate n b))
  | copy r q => some (update mem r (mem q))
  | set r i b => if i < (mem r).size then some (update mem r ((mem r).set i b)) else none
  | fill r b => some (update mem r ((mem r).fill b))
  | complement r => some (update mem r (mem r).complement)
  | change op r q => some (update mem r (op.onBits (mem r) (mem q)))
  | combine op r p q => some (update mem r (op.onBits (mem p) (mem q)))

/-- A bit that is set lies below the length. -/
def Allowed (regs : Nat → IndexSet) : Command → Prop
  | set r i _ => i < (regs r).size
  | _ => True

instance (regs : Nat → IndexSet) (c : Command) : Decidable (c.Allowed regs) := by
  cases c <;> unfold Allowed <;> infer_instance

/-- What the command does to the register that it changes, bit by bit. -/
def Effect (regs : Nat → IndexSet) (res : IndexSet) : Command → Prop
  | make _ n b => res.size = n ∧ ∀ i < n, res.get i = b
  | copy _ q => res = regs q
  | set r i b => res.size = (regs r).size ∧
    ∀ j < res.size, res.get j = if j = i then b else (regs r).get j
  | fill r b => res.size = (regs r).size ∧ ∀ i < res.size, res.get i = b
  | complement r => res.size = (regs r).size ∧ ∀ i < res.size, res.get i = !(regs r).get i
  | change op r q => op.Combines (regs r) (regs q) res
  | combine op _ p q => op.Combines (regs p) (regs q) res

variable {regs : Nat → IndexSet} {mem : Nat → Bits} {c : Command} {r : Nat}

theorem run_of_ne (hr : r ≠ c.target) : c.run regs r = regs r := by
  cases c <;> exact Function.update_of_ne hr ..

theorem effect_run (regs : Nat → IndexSet) (c : Command) :
    c.Effect regs (c.run regs c.target) := by
  cases c <;> simp only [run, target, Function.update_self, Effect]
  case make r n b =>
    refine ⟨Array.size_replicate, fun i hi => ?_⟩
    rw [IndexSet.get_replicate, decide_eq_true hi, Bool.true_and]
  case set r i b =>
    refine ⟨IndexSet.size_set .., fun j hj => ?_⟩
    rw [IndexSet.size_set] at hj
    rw [IndexSet.get_set]
    congr 1
    exact propext ⟨fun h => h.1.symm, fun h => ⟨h.symm, hj⟩⟩
  case fill r b =>
    have hsize : ((regs r).fill b).size = (regs r).size := Array.size_replicate
    refine ⟨hsize, fun i hi => ?_⟩
    rw [IndexSet.fill, IndexSet.get_replicate, decide_eq_true (hsize ▸ hi), Bool.true_and]
  case complement r =>
    refine ⟨IndexSet.size_complement, fun i hi => ?_⟩
    rw [IndexSet.size_complement] at hi
    rw [IndexSet.get_complement, decide_eq_true hi, Bool.true_and]
  case change op r q => exact op.combines ..
  case combine op r p q => exact op.combines ..

/-- Every register holds what is stored for it. -/
def StoresAll (mem : Nat → Bits) (regs : Nat → IndexSet) : Prop := ∀ r, (mem r).Stores (regs r)

theorem StoresAll.update {x : Bits} {s : IndexSet} (h : StoresAll mem regs) (hx : x.Stores s)
    (r : Nat) : StoresAll (update mem r x) (update regs r s) := by
  intro q
  by_cases hq : q = r
  · subst hq
    simpa using hx
  · simpa [hq] using h q

/-- A command that is allowed keeps to what is stored. -/
theorem exists_run? (h : StoresAll mem regs) (hc : c.Allowed regs) :
    ∃ mem', c.run? mem = some mem' ∧ StoresAll mem' (c.run regs) := by
  cases c with
  | make r n b => exact ⟨_, rfl, h.update (.replicate n b) r⟩
  | copy r q => exact ⟨_, rfl, h.update (h q) r⟩
  | set r i b =>
    have hi : i < (mem r).size := (h r).size ▸ hc
    exact ⟨_, if_pos hi, h.update ((h r).set hc b) r⟩
  | fill r b => exact ⟨_, rfl, h.update ((h r).fill b) r⟩
  | complement r => exact ⟨_, rfl, h.update (h r).complement r⟩
  | change op r q => exact ⟨_, rfl, h.update (op.stores (h r) (h q)) r⟩
  | combine op r p q => exact ⟨_, rfl, h.update (op.stores (h p) (h q)) r⟩

/-! ### Runs -/

/-- Before the first command no set has an index. -/
def blank : Nat → IndexSet := fun _ => .empty 0

def blankBits : Nat → Bits := fun _ => .replicate 0 false

def runAll (cs : List Command) (regs : Nat → IndexSet) : Nat → IndexSet := cs.foldl run regs

def runAll? (cs : List Command) (mem : Nat → Bits) : Option (Nat → Bits) := cs.foldlM run? mem

/-- Every command is allowed when its turn comes. -/
def Lawful : List Command → (Nat → IndexSet) → Prop
  | [], _ => True
  | c :: cs, regs => c.Allowed regs ∧ Lawful cs (c.run regs)

instance decidableLawful : ∀ (cs : List Command) (regs : Nat → IndexSet), Decidable (Lawful cs regs)
  | [], _ => .isTrue trivial
  | c :: cs, regs =>
    have := decidableLawful cs (c.run regs)
    inferInstanceAs (Decidable (c.Allowed regs ∧ Lawful cs (c.run regs)))

variable {cs : List Command}

theorem exists_runAll? (h : StoresAll mem regs) (hcs : Lawful cs regs) :
    ∃ mem', runAll? cs mem = some mem' ∧ StoresAll mem' (runAll cs regs) := by
  induction cs generalizing mem regs with
  | nil => exact ⟨mem, rfl, h⟩
  | cons c cs ih =>
    obtain ⟨mem', hrun, hmem'⟩ := exists_run? h hcs.1
    rw [runAll?, List.foldlM_cons, hrun]
    exact ih hmem' hcs.2

theorem eq_of_run? {mem' : Nat → Bits} (h : c.run? mem = some mem') (hr : r ≠ c.target) :
    mem' r = mem r := by
  cases c <;> simp only [run?, target, Option.some.injEq, Option.ite_none_right_eq_some] at h hr
  case set => exact h.2 ▸ Function.update_of_ne hr ..
  all_goals exact h ▸ Function.update_of_ne hr ..

/-- What any run of commands has stored is read as index sets, and what one more command does is
said bit by bit. -/
theorem pointwise_of_lawful (h : Lawful cs blank) : ∃ mem, runAll? cs blankBits = some mem ∧
    (∀ r, (mem r).Reads (runAll cs blank r)) ∧
    (∀ r q, (mem r).Compares (mem q) (runAll cs blank r) (runAll cs blank q)) ∧
    ∀ c : Command, c.Allowed (runAll cs blank) → ∃ mem', c.run? mem = some mem' ∧
      (∀ r, (mem' r).Reads (c.run (runAll cs blank) r)) ∧
      c.Effect (runAll cs blank) (c.run (runAll cs blank) c.target) ∧
      ∀ r ≠ c.target, mem' r = mem r ∧ c.run (runAll cs blank) r = runAll cs blank r := by
  obtain ⟨mem, hrun, hmem⟩ := exists_runAll? (fun _ => .replicate 0 false) h
  refine ⟨mem, hrun, fun r => (hmem r).reads, fun r q => (hmem r).compares (hmem q), fun c hc => ?_⟩
  obtain ⟨mem', hrun', hmem'⟩ := exists_run? hmem hc
  exact ⟨mem', hrun', fun r => (hmem' r).reads, effect_run _ c, fun r hr =>
    ⟨eq_of_run? hrun' hr, run_of_ne hr⟩⟩

/-- Of twelve indices the first four meet a set of length four, and the tenth one is out of its
reach. -/
def mismatched : List Command :=
  [make 0 12 false, set 0 0 true, set 0 1 true, set 0 10 true, make 1 4 false, set 1 1 true,
    change .inter 0 1]

theorem pointwise_of_lawful_mismatched : Lawful mismatched blank ∧
    ∃ mem, runAll? mismatched blankBits = some mem ∧ (mem 0).toList = [1, 10] ∧
      (mem 0).size = 12 := by
  have hlawful : Lawful mismatched blank := by decide
  obtain ⟨mem, hrun, hreads, -⟩ := pointwise_of_lawful hlawful
  exact ⟨hlawful, mem, hrun, (hreads 0).toList.1.trans (by decide),
    (hreads 0).size.trans (by decide)⟩

end Command

end Lookahead
