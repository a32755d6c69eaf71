import Lookahead.Proofs.Acceptance
import Lookahead.Proofs.Brackets
import Mathlib.Data.List.TakeWhile

/-!
# How deep groups may be nested

A reader of expressions counts the groups that are open, and the expression itself as one more. So
it stops where `maxNesting` groups are inside one another, and gets past everything that is less
deep (`Outcome`). What is open in one right-hand side makes no difference to the next one: a text
whose tokens are a sentence is read to its end unless one of its right-hand sides is nested that
deep in itself (`Grammar.tooDeep_of_sentence`).
-/

namespace Lookahead

namespace Token.Kind

def opens : Kind → Bool
  | lparen | lbracket | lbrace => true
  | _ => false

def closes : Kind → Bool
  | rparen | rbracket | rbrace => true
  | _ => false

/-- Neither a bracket nor what stands at the ends of a right-hand side. -/
def plain (k : Kind) : Bool := !k.opens && !k.closes && k != equals && k != dot

end Token.Kind

open Token.Kind

/-- The greatest number of brackets that are open at a time, if `d` are open before the word. -/
def depthFrom : (d : Nat) → List Token.Kind → Nat
  | d, [] => d
  | d, k :: w => max d (depthFrom (if k.opens then d + 1 else if k.closes then d - 1 else d) w)

/-- How many groups of a word are nested inside one another. -/
def nesting (w : List Token.Kind) : Nat := depthFrom 0 w

/-- The right-hand sides in a word: what stands between an equals sign and the next dot. Those of
sets are among them, but have no groups. -/
def bodies : List Token.Kind → List (List Token.Kind)
  | [] => []
  | k :: w => if k = .equals then w.takeWhile (· ≠ .dot) :: bodies w else bodies w

/-! ### Words with groups -/

/-- A part of a right-hand side where at most `n` groups are inside one another. -/
inductive Nested : Nat → List Token.Kind → Prop
  | nil {n : Nat} : Nested n []
  | plain {n : Nat} {k : Token.Kind} {w : List Token.Kind} (hk : k.plain = true)
      (hw : Nested n w) : Nested n (k :: w)
  | group {n : Nat} {o c : Token.Kind} {u w : List Token.Kind} (ho : o.opens = true)
      (hc : c.closes = true) (hu : Nested n u) (hw : Nested (n + 1) w) :
      Nested (n + 1) (o :: (u ++ c :: w))

/-- In the right-hand side that goes on with these kinds, a group is opened inside `n` others. -/
inductive Deep : Nat → List Token.Kind → Prop
  | here {o : Token.Kind} {w : List Token.Kind} (ho : o.opens = true) : Deep 0 (o :: w)
  | plain {n : Nat} {k : Token.Kind} {w : List Token.Kind} (hk : k.plain = true) (hw : Deep n w) :
      Deep n (k :: w)
  | inside {n : Nat} {o : Token.Kind} {w : List Token.Kind} (ho : o.opens = true)
      (hw : Deep n w) : Deep (n + 1) (o :: w)
  | behind {n : Nat} {o c : Token.Kind} {u w : List Token.Kind} (ho : o.opens = true)
      (hc : c.closes = true) (hu : Nested n u) (hw : Deep (n + 1) w) :
      Deep (n + 1) (o :: (u ++ c :: w))

section

variable {n d : Nat} {k o c : Token.Kind} {u v w : List Token.Kind}

theorem Nested.append (hu : Nested n u) (hw : Nested n w) : Nested n (u ++ w) := by
  induction hu with
  | nil => exact hw
  | plain hk _ ih => exact .plain hk (ih hw)
  | group ho hc hu _ _ ih =>
    rw [List.cons_append, List.append_assoc, List.cons_append]
    exact .group ho hc hu (ih hw)

theorem Nested.append_deep (hu : Nested n u) (hw : Deep n w) : Deep n (u ++ w) := by
  induction hu with
  | nil => exact hw
  | plain hk _ ih => exact .plain hk (ih hw)
  | group ho hc hu _ _ ih =>
    rw [List.cons_append, List.append_assoc, List.cons_append]
    exact .behind ho hc hu (ih hw)

theorem ne_of_opens (h : k.opens = true) : k ≠ .equals ∧ k ≠ .dot := by
  cases k <;> simp [opens] at h ⊢

theorem ne_of_closes (h : k.closes = true) : k ≠ .equals ∧ k ≠ .dot := by
  cases k <;> simp [closes] at h ⊢

theorem ne_of_plain (h : k.plain = true) : k ≠ .equals ∧ k ≠ .dot := by
  simp only [Token.Kind.plain, Bool.and_eq_true, bne_iff_ne] at h
  exact ⟨h.1.2, h.2⟩

/-- There is no end of a right-hand side in it. -/
theorem Nested.ne_of_mem (hu : Nested n u) : ∀ k ∈ u, k ≠ .equals ∧ k ≠ .dot := by
  induction hu with
  | nil => nofun
  | plain hk _ ih => exact List.forall_mem_cons.mpr ⟨ne_of_plain hk, ih⟩
  | group ho hc _ _ ihu ihw =>
    simp only [List.forall_mem_cons, List.forall_mem_append]
    exact ⟨ne_of_opens ho, ihu, ne_of_closes hc, ihw⟩

/-! ### Counting brackets -/

theorem le_depthFrom (d : Nat) (w : List Token.Kind) : d ≤ depthFrom d w := by
  cases w with
  | nil => exact le_rfl
  | cons k w => exact le_max_left ..

theorem depthFrom_plain (hk : k.plain = true) : depthFrom d (k :: w) = depthFrom d w := by
  have h : k.opens = false ∧ k.closes = false := by
    cases k <;> simp [Token.Kind.plain, opens, closes] at hk ⊢
  simp [depthFrom, h, le_depthFrom]

theorem depthFrom_opens (ho : o.opens = true) :
    depthFrom d (o :: w) = depthFrom (d + 1) w := by
  have := le_depthFrom (d + 1) w
  simp only [depthFrom, ho, if_true]
  omega

theorem depthFrom_closes (hc : c.closes = true) :
    depthFrom (d + 1) (c :: w) = max (d + 1) (depthFrom d w) := by
  have h : c.opens = false := by
    cases c <;> simp [closes, opens] at hc ⊢
  simp [depthFrom, h, hc]

/-- Behind a part of a right-hand side, as many groups are open as before. -/
theorem Nested.depthFrom_append (hu : Nested n u) (d : Nat) (v : List Token.Kind) :
    depthFrom d (u ++ v) = max (depthFrom d u) (depthFrom d v) := by
  induction hu generalizing d v with
  | nil => simp [depthFrom, le_depthFrom]
  | plain hk _ ih => rw [List.cons_append, depthFrom_plain hk, ih, depthFrom_plain hk]
  | @group n o c u w ho hc _ _ ihu ihw =>
    calc depthFrom d (o :: (u ++ c :: w) ++ v)
        = depthFrom (d + 1) (u ++ c :: (w ++ v)) := by
          rw [List.cons_append, depthFrom_opens ho, List.append_assoc, List.cons_append]
      _ = max (depthFrom (d + 1) u) (max (d + 1) (max (depthFrom d w) (depthFrom d v))) := by
          rw [ihu, depthFrom_closes hc, ihw]
      _ = max (depthFrom d (o :: (u ++ c :: w))) (depthFrom d v) := by
          rw [depthFrom_opens ho, ihu, depthFrom_closes hc]
          omega

theorem Nested.depthFrom_le (hu : Nested n u) (d : Nat) : depthFrom d u ≤ d + n := by
  induction hu generalizing d with
  | nil => exact Nat.le_add_right ..
  | plain hk _ ih => exact (depthFrom_plain hk).trans_le (ih d)
  | group ho hc hu _ ihu ihw =>
    rw [depthFrom_opens ho, hu.depthFrom_append, depthFrom_closes hc]
    have := ihu (d + 1)
    have := ihw d
    omega

theorem Nested.nesting_le (hu : Nested n u) : nesting u ≤ n :=
  (hu.depthFrom_le 0).trans_eq (Nat.zero_add n)

theorem takeWhile_cons_of_ne (hk : k ≠ .dot) :
    (k :: w).takeWhile (· ≠ .dot) = k :: w.takeWhile (· ≠ .dot) := by
  simp [hk]

theorem Nested.takeWhile_append (hu : Nested n u) (w : List Token.Kind) :
    (u ++ w).takeWhile (· ≠ .dot) = u ++ w.takeWhile (· ≠ .dot) :=
  List.takeWhile_append_of_pos fun k hk => by simpa using (hu.ne_of_mem k hk).2

/-- The group that is too deep stands in the same right-hand side. -/
theorem Deep.lt_depthFrom (hw : Deep n w) (d : Nat) :
    d + n < depthFrom d (w.takeWhile (· ≠ .dot)) := by
  induction hw generalizing d with
  | here ho =>
    rw [takeWhile_cons_of_ne (ne_of_opens ho).2, depthFrom_opens ho]
    exact le_depthFrom ..
  | plain hk _ ih =>
    rw [takeWhile_cons_of_ne (ne_of_plain hk).2, depthFrom_plain hk]
    exact ih d
  | inside ho _ ih =>
    rw [takeWhile_cons_of_ne (ne_of_opens ho).2, depthFrom_opens ho]
    have := ih (d + 1)
    omega
  | behind ho hc hu _ ih =>
    rw [takeWhile_cons_of_ne (ne_of_opens ho).2, depthFrom_opens ho, hu.takeWhile_append,
      takeWhile_cons_of_ne (ne_of_closes hc).2, hu.depthFrom_append, depthFrom_closes hc]
    have := ih d
    omega

theorem Deep.lt_nesting (hw : Deep n w) : n < nesting (w.takeWhile (· ≠ .dot)) :=
  (Nat.zero_add n).symm.trans_lt (hw.lt_depthFrom 0)

/-! ### Right-hand sides -/

theorem bodies_append_of_ne (hu : ∀ k ∈ u, k ≠ .equals) : bodies (u ++ v) = bodies v := by
  induction u with
  | nil => rfl
  | cons k u ih =>
    obtain ⟨hk, hu⟩ := List.forall_mem_cons.mp hu
    rw [List.cons_append, bodies, if_neg hk, ih hu]

theorem mem_bodies_append {b : List Token.Kind} (u : List Token.Kind) (hb : b ∈ bodies v) :
    b ∈ bodies (u ++ v) := by
  induction u with
  | nil => exact hb
  | cons k u ih =>
    rw [List.cons_append, bodies]
    split
    · exact .tail _ ih
    · exact ih

/-- The word has a right-hand side with more than `n` groups inside one another. -/
def HasDeep (n : Nat) (w : List Token.Kind) : Prop := ∃ b ∈ bodies w, n < nesting b

/-- The word adds only right-hand sides with at most `n` groups inside one another. -/
def Shallow (n : Nat) (w : List Token.Kind) : Prop :=
  ∀ v, ∀ b ∈ bodies (w ++ v), b ∈ bodies v ∨ nesting b ≤ n

theorem shallow_of_ne (hw : ∀ k ∈ w, k ≠ .equals) : Shallow n w := fun _ _ hb =>
  .inl (bodies_append_of_ne hw ▸ hb)

theorem Shallow.append (hu : Shallow n u) (hw : Shallow n w) : Shallow n (u ++ w) := by
  intro v b hb
  rw [List.append_assoc] at hb
  exact (hu _ b hb).elim (hw v b) .inr

theorem Nested.shallow_body (hu : Nested n u) : Shallow n (.equals :: (u ++ [.dot])) := by
  intro v b hb
  have hbody : (u ++ .dot :: v).takeWhile (· ≠ .dot) = u := by
    rw [hu.takeWhile_append]
    simp
  have hrest : bodies (u ++ .dot :: v) = bodies v := by
    rw [bodies_append_of_ne fun k hk => (hu.ne_of_mem k hk).1, bodies, if_neg nofun]
  rw [List.cons_append, List.append_assoc, List.singleton_append, bodies, if_pos rfl, hbody,
    hrest] at hb
  rcases List.mem_cons.mp hb with rfl | hb
  · exact .inr hu.nesting_le
  · exact .inl hb

theorem Deep.hasDeep_body (hw : Deep n w) : HasDeep n (.equals :: w) := by
  refine ⟨w.takeWhile (· ≠ .dot), ?_, hw.lt_nesting⟩
  rw [bodies, if_pos rfl]
  exact .head _

end

/-! ### What readers come to -/

variable {α β γ δ : Type}

/-- What is read of the tokens meets `D`; if they are nested too deep, they meet `T`. -/
inductive Outcome (D T : List Token.Kind → Prop) (ts : List Token) : Reading β α → Prop
  | done {a : α} {us rest : List Token} (hts : ts = us ++ rest) (hD : D (kinds us)) :
      Outcome D T ts (.done a rest)
  | tooDeep {b : β} {l : Location} (hT : T (kinds ts)) : Outcome D T ts (.stopped b (.tooDeep l))
  | stopped {b : β} {e : SyntaxError} (he : ∀ l, e ≠ .tooDeep l) :
      Outcome D T ts (.stopped b e)

/-- What meets `D` can be put together, and in front of what meets `T`. -/
structure Composes (D T : List Token.Kind → Prop) : Prop where
  nil : D []
  append {u w : List Token.Kind} : D u → D w → D (u ++ w)
  behind {u w : List Token.Kind} : D u → T w → T (u ++ w)

theorem composes_nested (n : Nat) : Composes (Nested n) (Deep n) where
  nil := .nil
  append := .append
  behind := fun hu hw => hu.append_deep hw

theorem composes_shallow (n : Nat) : Composes (Shallow n) (HasDeep n) where
  nil := shallow_of_ne nofun
  append := .append
  behind := fun {u _} _ ⟨b, hb, hlt⟩ => ⟨b, mem_bodies_append u hb, hlt⟩

theorem unexpected_ne_tooDeep (what : Expected) (ts : List Token) (l : Location) :
    unexpected what ts ≠ .tooDeep l := by
  unfold unexpected
  split
  · nofun
  · split <;> nofun

theorem expect_eq_stopped {k : Token.Kind} {what : Expected} {ts : List Token} {b : Unit}
    {e : SyntaxError} (h : expect k what ts = .stopped b e) : e = unexpected what ts := by
  cases ts with
  | nil =>
    cases h
    rfl
  | cons t ts =>
    simp only [expect] at h
    split at h
    · cases h
    · cases h
      rfl

namespace Outcome

variable {D T : List Token.Kind → Prop} {ts us : List Token} {t : Token} {k : Token.Kind}
  {x : Reading β α}

theorem mapPart (h : Outcome D T ts x) (f : β → δ) : Outcome D T ts (x.mapPart f) := by
  cases h with
  | done hts hD => exact .done hts hD
  | tooDeep hT => exact .tooDeep hT
  | stopped he => exact .stopped he

theorem map (h : Outcome D T ts x) (f : α → γ) : Outcome D T ts (x.map f) := by
  cases h with
  | done hts hD => exact .done hts hD
  | tooDeep hT => exact .tooDeep hT
  | stopped he => exact .stopped he

theorem unexpected {b : β} {what : Expected} {us : List Token} :
    Outcome D T ts (.stopped b (Lookahead.unexpected what us) : Reading β α) :=
  .stopped (unexpected_ne_tooDeep what us)

section

variable (hc : Composes D T)
include hc

/-- Nothing is read. -/
theorem pure {a : α} : Outcome D T ts (.done a ts : Reading β α) :=
  .done (List.nil_append ts).symm hc.nil

/-- What is read behind other tokens. -/
theorem behind (hD : D (kinds us)) (h : Outcome D T ts x) : Outcome D T (us ++ ts) x := by
  cases h with
  | @done a vs rest hts hD' =>
    subst hts
    rw [← List.append_assoc]
    refine .done rfl ?_
    rw [kinds, List.map_append]
    exact hc.append hD hD'
  | tooDeep hT =>
    refine .tooDeep ?_
    rw [kinds, List.map_append]
    exact hc.behind hD hT
  | stopped he => exact .stopped he

theorem cons (hD : D [t.kind]) (h : Outcome D T ts x) : Outcome D T (t :: ts) x := by
  rw [← List.singleton_append]
  exact h.behind hc hD

theorem andThen {f : α → List Token → Reading β γ} (h : Outcome D T ts x)
    (hf : ∀ a rest, Outcome D T rest (f a rest)) : Outcome D T ts (x.andThen f) := by
  cases h with
  | done hts hD =>
    subst hts
    exact (hf _ _).behind hc hD
  | tooDeep hT => exact .tooDeep hT
  | stopped he => exact .stopped he

theorem accept {a : α} (hk : D [k]) :
    Outcome D T ts (.done a (Lookahead.accept k ts).2 : Reading β α) := by
  cases ts with
  | nil => exact pure hc
  | cons t ts =>
    simp only [Lookahead.accept]
    split
    · rename_i ht
      exact (pure hc).cons hc (ht ▸ hk)
    · exact pure hc

theorem expect {what : Expected} (hk : D [k]) : Outcome D T ts (Lookahead.expect k what ts) := by
  cases ts with
  | nil => exact unexpected
  | cons t ts =>
    simp only [Lookahead.expect]
    split
    · rename_i ht
      exact (pure hc).cons hc (ht ▸ hk)
    · exact unexpected

end

end Outcome

/-- A loop comes to what its rounds come to. -/
theorem Repeats.outcome {ε σ : Type} {loop : (fuel : Nat) → σ → List Token → Reading β α}
    {starts : Token.Kind → Bool} {body : σ → List Token → Reading β ε} {next : ε → σ}
    {last : σ → α} {more : ε → α → α} {morePart : ε → β → β} {D T : List Token.Kind → Prop}
    (h : Repeats loop starts body next last more morePart) (hc : Composes D T)
    (hstop : ∀ fuel s ts, (fuel = 0 ∨ ∀ t ∈ ts.head?, starts t.kind = false) →
      Outcome D T ts (loop fuel s ts))
    (hbody : ∀ s t ts, starts t.kind = true → Outcome D T (t :: ts) (body s (t :: ts)))
    (fuel : Nat) (s : σ) (ts : List Token) : Outcome D T ts (loop fuel s ts) := by
  induction fuel generalizing s ts with
  | zero => exact hstop 0 s ts (.inl rfl)
  | succ fuel ih =>
    cases ts with
    | nil => exact hstop _ s [] (.inr nofun)
    | cons t ts =>
      obtain ht | ht := Bool.eq_false_or_eq_true (starts t.kind)
      · rw [h.step ht]
        exact (hbody s t ts ht).andThen hc fun e rest => ((ih (next e) rest).map _).mapPart _
      · exact hstop _ s (t :: ts) (.inr (by simpa using ht))

/-! ### Expressions -/

theorem nested_plain {n : Nat} {k : Token.Kind} (hk : k.plain = true) : Nested n [k] :=
  .plain hk .nil

variable {n : Nat} {ts : List Token}

/-- The outcome of reading a part of a right-hand side. -/
abbrev NestedOutcome (n : Nat) (ts : List Token) (x : Reading β α) : Prop :=
  Outcome (Nested n) (Deep n) ts x

/-- The outcome of reading the rest of a group counts its opening bracket. -/
def GroupOutcome (n : Nat) (g : GroupReader α) : Prop :=
  ∀ t b ts, t.kind.opens = true → NestedOutcome n (t :: ts) (g t b ts)

namespace ExprReader

variable {starts : Token.Kind → Bool} {factor term : ExprReader α}

theorem outcome_moreFactors (hfactor : ∀ ts, NestedOutcome n ts (factor ts)) (fuel : Nat)
    (e : Expr α) (ts : List Token) : NestedOutcome n ts (moreFactors starts factor fuel e ts) := by
  have hc := composes_nested n
  refine repeats_moreFactors.outcome hc (fun fuel e ts hstop => ?_)
    (fun e t ts _ => ((hfactor _).map _).mapPart _) fuel e ts
  have hr : moreFactors starts factor fuel e ts = .done e ts := by
    cases fuel <;> cases ts <;> simp_all [moreFactors]
  rw [hr]
  exact .pure hc

theorem outcome_moreAlternatives (hterm : ∀ ts, NestedOutcome n ts (term ts)) (fuel : Nat)
    (e : Expr α) (ts : List Token) : NestedOutcome n ts (moreAlternatives term fuel e ts) := by
  have hc := composes_nested n
  refine repeats_moreAlternatives.outcome hc (fun fuel e ts hstop => ?_) (fun e t ts ht => ?_)
    fuel e ts
  · have hr : moreAlternatives term fuel e ts = .done e ts := by
      cases fuel <;> cases ts <;> simp_all [moreAlternatives]
    rw [hr]
    exact .pure hc
  · exact (((hterm ts).map _).mapPart _).cons hc (nested_plain (beq_iff_eq.mp ht ▸ rfl))

theorem outcome_factors (hfactor : ∀ ts, NestedOutcome n ts (factor ts)) (ts : List Token) :
    NestedOutcome n ts (factors starts factor ts) :=
  (hfactor ts).andThen (composes_nested n) fun e rest => outcome_moreFactors hfactor _ e rest

theorem outcome_alternatives (hterm : ∀ ts, NestedOutcome n ts (term ts)) (ts : List Token) :
    NestedOutcome n ts (alternatives term ts) :=
  (hterm ts).andThen (composes_nested n) fun e rest => outcome_moreAlternatives hterm _ e rest

theorem closes_closing (b : Bracket) : b.closing.closes = true := by
  cases b <;> rfl

/-- Where there is room for `n` groups, at most `n` are read inside one another. -/
theorem outcome_groups {content : GroupReader α → ExprReader α}
    (hcontent : ∀ n g, GroupOutcome n g → ∀ ts, NestedOutcome n ts (content g ts)) (room : Nat) :
    GroupOutcome room (groups content room) := by
  induction room with
  | zero => exact fun t b ts ht => .tooDeep (.here ht)
  | succ room ih =>
    intro t b ts ht
    rw [groups]
    have hread := hcontent room _ ih ts
    generalize content (groups content room) ts = x at hread ⊢
    cases hread with
    | @done e us rest hts hD =>
      subst hts
      simp only [close]
      cases hclose : expect b.closing b.closingExpected rest with
      | done c rest' =>
        obtain ⟨rfl, hk⟩ := expect_eq_done.mp hclose
        have hts : t :: (us ++ c :: rest') = t :: (us ++ [c]) ++ rest' := by simp
        refine .done hts ?_
        rw [kinds, List.map_cons, List.map_append]
        exact .group ht (hk ▸ closes_closing b) hD .nil
      | stopped _ err =>
        rw [expect_eq_stopped hclose]
        exact .unexpected
    | tooDeep hT => exact .tooDeep (.inside ht hT)
    | stopped he => exact .stopped he

end ExprReader

theorem opens_of_ofOpening {k : Token.Kind} {b : Bracket} (h : Bracket.ofOpening? k = some b) :
    k.opens = true := by
  unfold Bracket.ofOpening? at h
  split at h <;> first | rfl | cases h

namespace Atom

variable {group : GroupReader Atom}

theorem outcome_readSymbol (weak : Bool) (ts : List Token) :
    NestedOutcome n ts (readSymbol weak ts) := by
  have hc := composes_nested n
  cases ts with
  | nil => exact .unexpected
  | cons t ts =>
    simp only [readSymbol]
    split
    · rename_i ht
      refine (Outcome.accept hc (nested_plain rfl)).cons hc (nested_plain ?_)
      rcases ht with ht | ht | ht <;> rw [ht] <;> rfl
    · exact .unexpected

theorem outcome_readFactor (hg : GroupOutcome n group) (ts : List Token) :
    NestedOutcome n ts (readFactor group ts) := by
  have hc := composes_nested n
  cases ts with
  | nil => exact .unexpected
  | cons t ts =>
    simp only [readFactor]
    split
    · rename_i ht
      exact (outcome_readSymbol true ts).cons hc (nested_plain (ht ▸ rfl))
    iterate 3 exact outcome_readSymbol false (t :: ts)
    iterate 3
      rename_i ht
      exact (Outcome.pure hc).cons hc (nested_plain (ht ▸ rfl))
    · split
      · rename_i b hb
        exact hg t b ts (opens_of_ofOpening hb)
      · exact .unexpected

theorem outcome_readTerm (hg : GroupOutcome n group) (ts : List Token) :
    NestedOutcome n ts (readTerm group ts) := by
  have hc := composes_nested n
  have hfactor := outcome_readFactor hg
  cases ts with
  | nil => exact .pure hc
  | cons t ts =>
    simp only [readTerm]
    split
    · rename_i ht
      refine Outcome.cons hc (nested_plain (ht ▸ rfl)) ?_
      have h := hfactor ts
      cases hr : readFactor group ts with
      | done f rest =>
        rw [hr] at h
        exact h.andThen hc (f := fun f rest => ExprReader.moreFactors startsFactor
          (readFactor group) rest.length (.seq (.atom (.resolver t)) f) rest)
          fun f rest => ExprReader.outcome_moreFactors hfactor _ _ rest
      | stopped f err =>
        rw [hr] at h
        exact h.mapPart (Expr.seq (.atom (.resolver t)))
    · split
      · exact ExprReader.outcome_factors hfactor _
      · exact .pure hc

/-- The right-hand side of a production. -/
theorem outcome_readExpr (ts : List Token) : NestedOutcome (maxNesting - 1) ts (readExpr ts) := by
  have hcontent (n : Nat) (g : GroupReader Atom) (hg : GroupOutcome n g) (ts : List Token) :
      NestedOutcome n ts (ExprReader.alternatives (readTerm g) ts) :=
    ExprReader.outcome_alternatives (outcome_readTerm hg) ts
  exact hcontent _ _ (ExprReader.outcome_groups hcontent _) ts

end Atom

namespace TokenAtom

variable {group : GroupReader TokenAtom}

theorem outcome_readFactor (hg : GroupOutcome n group) (ts : List Token) :
    NestedOutcome n ts (readFactor group ts) := by
  have hc := composes_nested n
  cases ts with
  | nil => exact .unexpected
  | cons t ts =>
    simp only [readFactor]
    split
    iterate 3
      rename_i ht
      exact (Outcome.pure hc).cons hc (nested_plain (ht ▸ rfl))
    · split
      · rename_i b hb
        exact hg t b ts (opens_of_ofOpening hb)
      · exact .unexpected

/-- The parentheses of a context count as a group. -/
theorem outcome_readContext (hg : GroupOutcome n group) (e : Expr TokenAtom) (ts : List Token) :
    NestedOutcome n ts (readContext group e ts) := by
  have hc := composes_nested n
  rcases hts : accept (.keyword .context) ts with ⟨o, ts'⟩
  obtain ⟨rfl, hk⟩ := accept_eq hts
  cases o with
  | none =>
    simp only [readContext, hts]
    exact .pure hc
  | some k =>
    simp only [readContext, hts]
    refine Outcome.cons hc (nested_plain (hk k rfl ▸ rfl)) ?_
    cases hopen : expect .lparen .lparen ts' with
    | stopped _ err =>
      rw [expect_eq_stopped hopen]
      exact .unexpected
    | done t rest =>
      obtain ⟨rfl, ht⟩ := expect_eq_done.mp hopen
      have h := hg t .context rest (ht ▸ rfl)
      cases hr : group t .context rest with
      | done f rest' =>
        rw [hr] at h
        simp only [hr]
        exact h.map (Expr.seq e)
      | stopped f err =>
        rw [hr] at h
        simp only [hr]
        exact h.mapPart (Expr.seq e)

theorem outcome_readTerm (hg : GroupOutcome n group) (ts : List Token) :
    NestedOutcome n ts (readTerm group ts) :=
  (ExprReader.outcome_factors (outcome_readFactor hg) ts).andThen (composes_nested n)
    fun e rest => outcome_readContext hg e rest

/-- The structure of a token. -/
theorem outcome_readExpr (ts : List Token) : NestedOutcome (maxNesting - 1) ts (readExpr ts) := by
  have hcontent (n : Nat) (g : GroupReader TokenAtom) (hg : GroupOutcome n g) (ts : List Token) :
      NestedOutcome n ts (ExprReader.alternatives (readTerm g) ts) :=
    ExprReader.outcome_alternatives (outcome_readTerm hg) ts
  exact hcontent _ _ (ExprReader.outcome_groups hcontent _) ts

end TokenAtom

/-! ### Declarations -/

/-- The outcome of reading parts with whole right-hand sides. -/
abbrev ShallowOutcome (n : Nat) (ts : List Token) (x : Reading β α) : Prop :=
  Outcome (Shallow n) (HasDeep n) ts x

theorem shallow_single {k : Token.Kind} (hk : k ≠ .equals) : Shallow n [k] :=
  shallow_of_ne fun _ hj => List.mem_singleton.mp hj ▸ hk

namespace Outcome

theorem expectOther {k : Token.Kind} {what : Expected} (hk : k ≠ .equals) :
    ShallowOutcome n ts (Lookahead.expect k what ts) :=
  .expect (composes_shallow n) (shallow_single hk)

/-- What is read behind a token that may be missing. -/
theorem behindAccept {k : Token.Kind} (hk : k ≠ .equals)
    {f : Option Token → List Token → Reading β α}
    (hf : ∀ o rest, ShallowOutcome n rest (f o rest)) :
    ShallowOutcome n ts (f (Lookahead.accept k ts).1 (Lookahead.accept k ts).2) := by
  have hc := composes_shallow n
  have h : ShallowOutcome n ts (.done (Lookahead.accept k ts).1 (Lookahead.accept k ts).2 :
      Reading β (Option Token)) := .accept hc (shallow_single hk)
  exact h.andThen hc hf

/-- A right-hand side up to its dot. -/
theorem body {x : Reading β α} (h : NestedOutcome n ts x) {t : Token} (ht : t.kind = .equals)
    (p : α → β) {f : α → List Token → Reading β γ}
    (hf : ∀ a rest, ShallowOutcome n rest (f a rest)) :
    ShallowOutcome n (t :: ts) (x.andThen fun a rest =>
      ((Lookahead.expect .dot .dot rest).mapPart fun _ => p a).andThen fun _ rest => f a rest) := by
  have hc := composes_shallow n
  cases h with
  | @done a us rest hts hD =>
    subst hts
    simp only [Reading.andThen]
    cases hdot : Lookahead.expect .dot .dot rest with
    | stopped _ err =>
      rw [expect_eq_stopped hdot]
      exact .unexpected
    | done u rest' =>
      obtain ⟨rfl, hu⟩ := expect_eq_done.mp hdot
      have hbody : Shallow n (kinds (t :: (us ++ [u]))) := by
        simpa [kinds, ht, hu] using hD.shallow_body
      rw [show t :: (us ++ u :: rest') = t :: (us ++ [u]) ++ rest' by simp]
      exact (hf a rest').behind hc hbody
  | tooDeep hT =>
    refine .tooDeep ?_
    rw [kinds, List.map_cons, ht]
    exact hT.hasDeep_body
  | stopped he => exact .stopped he

/-- A right-hand side with its equals sign. -/
theorem definition {read : List Token → Reading β α} (h : ∀ ts, NestedOutcome n ts (read ts))
    (b : β) (p : α → β) {f : α → List Token → Reading β γ}
    (hf : ∀ a rest, ShallowOutcome n rest (f a rest)) :
    ShallowOutcome n ts (((Lookahead.expect .equals .equals ts).mapPart fun _ => b).andThen
      fun _ ts => (read ts).andThen fun a rest =>
      ((Lookahead.expect .dot .dot rest).mapPart fun _ => p a).andThen fun _ rest => f a rest) := by
  cases hequals : Lookahead.expect .equals .equals ts with
  | stopped _ err =>
    rw [expect_eq_stopped hequals]
    exact .unexpected
  | done t rest =>
    obtain ⟨rfl, ht⟩ := expect_eq_done.mp hequals
    exact (h rest).body ht p hf

end Outcome

theorem SimpleSet.outcome_read (ts : List Token) : NestedOutcome n ts (SimpleSet.read ts) := by
  have hc := composes_nested n
  cases ts with
  | nil => exact .unexpected
  | cons t ts =>
    simp only [SimpleSet.read]
    split
    iterate 3
      rename_i ht
      exact (Outcome.pure hc).cons hc (nested_plain (ht ▸ rfl))
    · rename_i ht
      refine Outcome.cons hc (nested_plain (ht ▸ rfl)) ?_
      rcases hts : accept .dotDot ts with ⟨o, ts'⟩
      obtain ⟨rfl, hk⟩ := accept_eq hts
      cases o with
      | none => exact .pure hc
      | some k =>
        refine Outcome.cons hc (nested_plain (hk k rfl ▸ rfl)) ?_
        dsimp only
        cases hchar : expect .char .char ts' with
        | done u rest =>
          obtain ⟨rfl, hu⟩ := expect_eq_done.mp hchar
          exact (Outcome.pure hc).cons hc (nested_plain (hu ▸ rfl))
        | stopped _ err =>
          rw [expect_eq_stopped hchar]
          exact .unexpected
    · exact .unexpected

namespace SetTerm

theorem plain_of_sign {k : Token.Kind} {minus : Bool} (h : sign? k = some minus) :
    k.plain = true := by
  cases k <;> simp_all [sign?, Token.Kind.plain, opens, closes]

theorem outcome_readTerm (minus : Bool) (ts : List Token) :
    NestedOutcome n ts (readTerm minus ts) :=
  ((SimpleSet.outcome_read ts).map _).mapPart _

theorem outcome_readMore (fuel : Nat) (ts : List Token) :
    NestedOutcome n ts (readMore fuel ts) := by
  have hc := composes_nested n
  refine repeats_readMore.outcome hc (fun fuel _ ts hstop => ?_) (fun _ t ts ht => ?_) fuel () ts
  · cases ts with
    | nil => exact .pure hc
    | cons t ts =>
      simp only [readMore]
      split
      · exact .pure hc
      · rename_i minus hm
        obtain rfl : fuel = 0 := hstop.resolve_right fun h => by simpa [hm] using h t rfl
        exact (Outcome.pure hc).cons hc (nested_plain (plain_of_sign hm))
  · obtain ⟨minus, hm⟩ := Option.isSome_iff_exists.mp ht
    exact (outcome_readTerm _ ts).cons hc (nested_plain (plain_of_sign hm))

theorem outcome_readAll (ts : List Token) : NestedOutcome n ts (readAll ts) := by
  rw [readAll, readFrom_succ]
  exact (outcome_readTerm false ts).andThen (composes_nested n)
    fun s rest => ((outcome_readMore _ rest).map _).mapPart _

end SetTerm

theorem SetDecl.outcome_read (name : Token) (ts : List Token) :
    ShallowOutcome n ts (SetDecl.read name ts) :=
  .definition (fun ts => (SetTerm.outcome_readAll ts).mapPart (Fragment.setStart name))
    (.setStart name []) (fun terms => .set ⟨name, terms⟩)
    (f := fun terms => .done (⟨name, terms⟩ : SetDecl)) fun _ _ => .pure (composes_shallow n)

theorem TokenDecl.outcome_read (broken : Token → Expr TokenAtom → Fragment) (name : Token)
    (ts : List Token) : ShallowOutcome (maxNesting - 1) ts (TokenDecl.read broken name ts) := by
  have hc := composes_shallow (maxNesting - 1)
  have haction (e : Option (Expr TokenAtom)) (ts : List Token) :
      ShallowOutcome (maxNesting - 1) ts (.done ⟨name, e, (accept .action ts).1⟩
        (accept .action ts).2 : Reading Fragment TokenDecl) := .accept hc (shallow_single nofun)
  rcases hts : accept .equals ts with ⟨o, rest⟩
  obtain ⟨rfl, hk⟩ := accept_eq hts
  cases o with
  | none =>
    simp only [TokenDecl.read, hts]
    exact haction none rest
  | some t =>
    simp only [TokenDecl.read, hts]
    exact ((TokenAtom.outcome_readExpr rest).mapPart (broken name)).body (hk t rfl) (broken name)
      fun e rest => haction (some e) rest

theorem Production.outcome_read (name : Token) (ts : List Token) :
    ShallowOutcome (maxNesting - 1) ts (Production.read name ts) := by
  have hbody (attributes locals : Option Token) (ts : List Token) :
      ShallowOutcome (maxNesting - 1) ts _ :=
    .definition (fun ts => (Atom.outcome_readExpr ts).mapPart
      fun e => Fragment.production ⟨name, attributes, locals, e⟩)
      (.production ⟨name, attributes, locals, .empty⟩)
      (fun e => .production ⟨name, attributes, locals, e⟩)
      (f := fun e => .done (⟨name, attributes, locals, e⟩ : Production))
      fun _ _ => .pure (composes_shallow _)
  exact .behindAccept (k := .attributes) nofun fun attributes _ =>
    .behindAccept (k := .action) nofun fun locals ts => hbody attributes locals ts

/-! ### Sections -/

section

variable {starts : Token.Kind → Bool} {decl : DeclReader δ}

theorem outcome_readMany (hdecl : ∀ t ts, ShallowOutcome n ts (decl t ts))
    (hstarts : ∀ k, starts k = true → k ≠ .equals) (fuel : Nat) (ts : List Token) :
    ShallowOutcome n ts (readMany starts decl fuel ts) := by
  have hc := composes_shallow n
  refine repeats_readMany.outcome hc (fun fuel _ ts hstop => ?_) (fun _ t ts ht => ?_) fuel () ts
  · have hr : readMany starts decl fuel ts = .done [] ts := by
      cases fuel <;> cases ts <;> simp_all [readMany]
    rw [hr]
    exact .pure hc
  · exact ((hdecl t ts).mapPart _).cons hc (shallow_single (hstarts _ ht))

theorem outcome_readSection {k : Keyword} (hdecl : ∀ t ts, ShallowOutcome n ts (decl t ts))
    (hstarts : ∀ k, starts k = true → k ≠ .equals) (ts : List Token) :
    ShallowOutcome n ts (readSection k starts decl ts) := by
  have hc := composes_shallow n
  rcases hts : accept (.keyword k) ts with ⟨o, rest⟩
  obtain ⟨rfl, hk⟩ := accept_eq hts
  cases o with
  | none =>
    simp only [readSection, hts]
    exact .pure hc
  | some t =>
    simp only [readSection, hts]
    refine (outcome_readMany hdecl hstarts _ rest).cons hc (shallow_single fun h => ?_)
    cases (hk t rfl).symm.trans h

end

namespace Definition

theorem outcome_directives (ts : List Token) : ShallowOutcome n ts
    (.done (ts.takeWhile (·.kind == .directive)) (ts.dropWhile (·.kind == .directive)) :
      Reading β (List Token)) := by
  refine .done (List.takeWhile_append_dropWhile ..).symm (shallow_of_ne fun k hk => ?_)
  obtain ⟨t, ht, rfl⟩ := List.mem_map.mp hk
  have ht : t.kind = .directive := by simpa using List.mem_takeWhile_imp ht
  exact ht ▸ nofun

theorem outcome_readSections (name : Token) (directives ts : List Token) :
    ShallowOutcome (maxNesting - 1) ts (readSections name directives ts) := by
  have hc := composes_shallow (maxNesting - 1)
  have hname (k : Token.Kind) (hk : isName k = true) : k ≠ .equals := by
    rintro rfl
    cases hk
  have hstring (k : Token.Kind) (hk : isNameOrString k = true) : k ≠ .equals := by
    rintro rfl
    cases hk
  refine Outcome.andThen hc ((outcome_readSection SetDecl.outcome_read hname ts).mapPart _)
    fun sets ts => ?_
  refine Outcome.andThen hc
    ((outcome_readSection (TokenDecl.outcome_read _) hstring ts).mapPart _) fun tokens ts => ?_
  refine Outcome.andThen hc
    ((outcome_readSection (TokenDecl.outcome_read _) hstring ts).mapPart _) fun pragmas ts => ?_
  refine Outcome.andThen hc ((Outcome.expectOther (by decide)).mapPart _) fun _ ts => ?_
  refine Outcome.andThen hc ((outcome_readMany Production.outcome_read hname _ ts).mapPart _)
    fun productions ts => ?_
  refine Outcome.andThen hc ((Outcome.expectOther (by decide)).mapPart _) fun _ ts => ?_
  refine Outcome.andThen hc ((Outcome.expectOther (by decide)).mapPart _) fun last ts => ?_
  exact Outcome.andThen hc ((Outcome.expectOther (by decide)).mapPart _) fun _ ts => .pure hc

theorem outcome_readTokens (ts : List Token) :
    ShallowOutcome (maxNesting - 1) ts (readTokens ts) := by
  have hc := composes_shallow (maxNesting - 1)
  rw [readTokens_eq_andThen]
  refine Outcome.andThen hc ((Outcome.expectOther (by decide)).mapPart _) fun _ ts => ?_
  refine Outcome.andThen hc ((Outcome.expectOther (by decide)).mapPart _) fun name ts => ?_
  exact (outcome_directives ts).andThen hc fun directives ts =>
    outcome_readSections name directives ts

end Definition

/-! ### Whole texts -/

/-- All of the text is tokens of these kinds. -/
def Token.Reads (cs : List Char) (w : List Token.Kind) : Prop :=
  (read (String.ofList cs)).rejected = none ∧ kinds (read (String.ofList cs)).tokens = w

instance (cs : List Char) (w : List Token.Kind) : Decidable (Token.Reads cs w) :=
  inferInstanceAs (Decidable (_ ∧ _))

theorem Token.Reads.behind {s rest : List Char} {o : Option Token.Kind} {w : List Token.Kind}
    (hr : Reads rest w) (h : scan (s ++ rest) = .ok (o, s.length)) :
    Reads (s ++ rest) (o.toList ++ w) := by
  obtain ⟨hrejected, rfl⟩ := hr
  rw [Reads, read_append h]
  refine ⟨by simp [Stream.after, Stream.behind, hrejected], ?_⟩
  cases o <;> simp [Stream.after, Stream.behind, made, kinds, Token.behind, Function.comp_def]

namespace Grammar

variable {source : String} {cfg : Config} {log : Log}

/-- A sentence leaves nothing unread. -/
theorem read_of_sentence {ts : List Token} (hs : Definition.Sentence (kinds ts)) :
    (∃ d, Definition.readTokens ts = .done d []) ∨
      ∃ part l, Definition.readTokens ts = .stopped part (.tooDeep l) := by
  have hread := Definition.recognizes_readTokens ts
  cases hread with
  | @done d us rest hL hK hr =>
    have hrest : kinds rest = [] := by
      refine hK 1 nofun (kinds rest) rfl ?_
      rw [mul_one, kinds, kinds, ← List.map_append]
      exact hs
    obtain rfl : rest = [] := by simpa [kinds] using hrest
    exact .inl ⟨d, hr [] (.refl _ _)⟩
  | @stopped part what us vs hL hK hr =>
    refine absurd ?_ (hK 1 nofun (kinds vs) rfl)
    rw [mul_one, kinds, kinds, ← List.map_append]
    exact hs
  | @tooDeep part l _ hr => exact .inr ⟨part, l, hr⟩

theorem lt_of_done {ts : List Token} {d : Definition}
    (h : Definition.readTokens ts = .done d []) :
    ∀ w ∈ bodies (kinds ts), nesting w < maxNesting := by
  have hout := Definition.outcome_readTokens ts
  rw [h] at hout
  cases hout with
  | @done _ us _ hts hD =>
    obtain rfl : ts = us := by simpa using hts
    intro w hw
    rcases hD [] w (by simpa using hw) with hw | hw
    · cases hw
    · exact Nat.lt_of_le_pred (by decide) hw

theorem exists_of_tooDeep {ts : List Token} {part : Sections × Fragment} {l : Location}
    (h : Definition.readTokens ts = .stopped part (.tooDeep l)) :
    ∃ w ∈ bodies (kinds ts), maxNesting ≤ nesting w := by
  have hout := Definition.outcome_readTokens ts
  rw [h] at hout
  cases hout with
  | tooDeep hT =>
    obtain ⟨w, hw, hlt⟩ := hT
    exact ⟨w, hw, Nat.le_of_pred_lt hlt⟩
  | stopped he => exact absurd rfl (he l)

/-- A sentence is read to its end if no right-hand side of it is nested too deep in itself, and is
refused for that if one is. -/
theorem tooDeep_of_sentence (hlex : (Token.read source).rejected = none)
    (hs : Definition.Sentence (kinds (Token.read source).tokens)) :
    ((∃ l, (parse source cfg log).2 = .error (.tooDeep l)) ↔
      ∃ w ∈ bodies (kinds (Token.read source).tokens), maxNesting ≤ nesting w) ∧
    ((∃ g, (parse source cfg log).2 = .ok g) ↔
      ∀ w ∈ bodies (kinds (Token.read source).tokens), nesting w < maxNesting) := by
  rw [parse_eq hlex]
  rcases read_of_sentence hs with ⟨d, hr⟩ | ⟨part, l, hr⟩
  · have hlt := lt_of_done hr
    rw [hr]
    refine ⟨⟨nofun, ?_⟩, fun _ => hlt, fun _ => ⟨_, rfl⟩⟩
    rintro ⟨w, hw, hle⟩
    exact absurd (hlt w hw) hle.not_gt
  · obtain ⟨w, hw, hle⟩ := exists_of_tooDeep hr
    rw [hr]
    exact ⟨⟨fun _ => ⟨w, hw, hle⟩, fun _ => ⟨l, rfl⟩⟩, nofun,
      fun hlt => absurd (hlt w hw) hle.not_gt⟩

/-- A literal inside `n` pairs of parentheses. -/
def parentheses : (n : Nat) → List Char
  | 0 => ['"', 'a', '"']
  | n + 1 => '(' :: (parentheses n ++ [')'])

/-- A grammar with that as the right-hand side of its production. -/
def parenthesized (n : Nat) : String :=
  String.ofList ("COMPILER A\nPRODUCTIONS\nA = ".toList ++ (parentheses n ++ ".\nEND A.".toList))

def parenthesesKinds : (n : Nat) → List Token.Kind
  | 0 => [.string]
  | n + 1 => .lparen :: (parenthesesKinds n ++ [.rparen])

def parenthesizedKinds (n : Nat) : List Token.Kind :=
  [.keyword .compiler, .ident, .keyword .productions, .ident, .equals] ++
    (parenthesesKinds n ++ [.dot, .keyword .ending, .ident, .dot])

theorem derives_parentheses (n : Nat) : (Rule.phrase .expr).Derives (parenthesesKinds n) := by
  -- one factor is an expression
  have hexpr {w : List Token.Kind} (h : (Rule.phrase .factor).Derives w) :
      (Rule.phrase .expr).Derives w := by
    have := Rule.Derives.phrase (p := .expr)
      ((Rule.Derives.phrase (p := .term) (.seq .none (.cons h .nil))).seq .nil)
    simpa using this
  induction n with
  | zero =>
    refine hexpr (.phrase ?_)
    exact .left (.left (.left (.left (.left (.left
      (.seq (.seq .none (.left (.right (.token .string)))) .none))))))
  | succ n ih =>
    refine hexpr (.phrase ?_)
    exact .left (.left (.left (.left (.left (.right
      (.seq (.seq (.token .lparen) ih) (.token .rparen)))))))

theorem sentence_parenthesized (n : Nat) : Definition.Sentence (parenthesizedKinds n) := by
  have hident := Rule.Derives.token .ident
  have hproduction : Rule.production.Derives
      ([.ident, .equals] ++ parenthesesKinds n ++ [.dot]) :=
    .seq (.seq (.seq (.seq (.seq hident .none) .none) (.token .equals)) (derives_parentheses n))
      (.token .dot)
  have hdefinition : (Rule.phrase .definition).Derives _ := .phrase (.seq (.seq (.seq (.seq (.seq
    (.seq (.seq (.seq (.seq (.seq (.token (.keyword .compiler)) hident) .nil) .none) .none) .none)
    (.token (.keyword .productions))) (.cons hproduction .nil)) (.token (.keyword .ending))) hident)
    (.token .dot))
  simpa [Definition.Sentence, parenthesizedKinds] using hdefinition

theorem reads_parentheses {rest : List Char} {w : List Token.Kind} (h : Token.Reads rest w)
    (n : Nat) : Token.Reads (parentheses n ++ rest) (parenthesesKinds n ++ w) := by
  induction n generalizing rest w with
  | zero => exact h.behind (s := ['"', 'a', '"']) (o := some .string) rfl
  | succ n ih =>
    have hclose := h.behind (s := [')']) (o := some .rparen) rfl
    have hopen : Token.scan (['('] ++ (parentheses n ++ ([')'] ++ rest))) =
        .ok (some .lparen, ['('].length) := by
      cases n <;> rfl
    simpa [parentheses, parenthesesKinds] using (ih hclose).behind hopen

theorem reads_parenthesized (n : Nat) : (Token.read (parenthesized n)).rejected = none ∧
    kinds (Token.read (parenthesized n)).tokens = parenthesizedKinds n := by
  have hend : Token.Reads ".\nEND A.".toList [.dot, .keyword .ending, .ident, .dot] := by
    decide +kernel
  have hbody := reads_parentheses hend n
  have hequals := (hbody.behind (s := [' ']) (o := none) (by cases n <;> rfl)).behind
    (s := ['=']) (o := some .equals) rfl
  have hname := (hequals.behind (s := [' ']) (o := none) rfl).behind (s := ['A'])
    (o := some .ident) rfl
  have hproductions := (hname.behind (s := ['\n']) (o := none) rfl).behind
    (s := "PRODUCTIONS".toList) (o := some (.keyword .productions)) rfl
  have hident := (hproductions.behind (s := ['\n']) (o := none) rfl).behind
    (s := ['A']) (o := some .ident) rfl
  exact (hident.behind (s := [' ']) (o := none) rfl).behind
    (s := "COMPILER".toList) (o := some (.keyword .compiler)) rfl

theorem tooDeep_iff_parenthesized :
    (Token.read (parenthesized maxNesting)).rejected = none ∧
    Definition.Sentence (kinds (Token.read (parenthesized maxNesting)).tokens) ∧
    ((∃ l, (parse (parenthesized maxNesting) default {}).2 = .error (.tooDeep l)) ↔
      ∃ w ∈ bodies (kinds (Token.read (parenthesized maxNesting)).tokens),
        maxNesting ≤ nesting w) ∧
    ((∃ g, (parse (parenthesized maxNesting) default {}).2 = .ok g) ↔
      ∀ w ∈ bodies (kinds (Token.read (parenthesized maxNesting)).tokens),
        nesting w < maxNesting) := by
  obtain ⟨hlex, hkinds⟩ := reads_parenthesized maxNesting
  have hs := sentence_parenthesized maxNesting
  rw [← hkinds] at hs
  exact ⟨hlex, hs, tooDeep_of_sentence hlex hs⟩

/-- As many groups as the limit are too many already. -/
theorem tooDeep_parenthesized :
    (Token.read (parenthesized maxNesting)).rejected = none ∧
    Definition.Sentence (kinds (Token.read (parenthesized maxNesting)).tokens) ∧
    (∀ w ∈ bodies (kinds (Token.read (parenthesized maxNesting)).tokens),
      nesting w ≤ maxNesting) ∧
    ∃ l, (parse (parenthesized maxNesting) default {}).2 = .error (.tooDeep l) := by
  obtain ⟨hlex, hkinds⟩ := reads_parenthesized maxNesting
  have hs := sentence_parenthesized maxNesting
  rw [← hkinds] at hs
  refine ⟨hlex, hs, ?_, ?_⟩
  · rw [hkinds]
    decide +kernel
  · rw [parse_eq hlex]
    rcases read_of_sentence hs with ⟨d, hr⟩ | ⟨part, l, hr⟩
    · have hlt := lt_of_done hr
      rw [hkinds] at hlt
      exact absurd hlt (by decide +kernel)
    · exact ⟨l, by rw [hr]⟩

end Grammar

end Lookahead
