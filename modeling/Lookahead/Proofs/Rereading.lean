import Lookahead.Proofs.Written

/-!
# Reading the same words elsewhere

Readers look at kinds of tokens, and at no token behind the first one they cannot take. So two
lists of tokens that begin with the same words are read alike up to a token that ends both
beginnings (`Seam.Blind`), whatever stands behind it: a production wherever it stands in a text
(`Production.read_agree`), and what comes before the productions whatever these are
(`Definition.readTokens_eq_readBody`).
-/

namespace Lookahead

namespace Token

/-- The token without its place. -/
def word (t : Token) : Token := { t with start := default, stop := default }

@[simp] theorem kind_word (t : Token) : t.word.kind = t.kind := rfl

end Token

namespace Expr

variable {α β γ : Type}

def map (f : α → β) : Expr α → Expr β
  | empty => empty
  | atom a => atom (f a)
  | seq e g => seq (e.map f) (g.map f)
  | alt e g => alt (e.map f) (g.map f)
  | group b e => group b (e.map f)

theorem map_id (e : Expr α) : e.map id = e := by
  induction e <;> simp_all [map]

end Expr

def Atom.map (f : Token → Token) : Atom → Atom
  | symbol weak name attributes => symbol weak (f name) (attributes.map f)
  | any t => any (f t)
  | sync t => sync (f t)
  | action t => action (f t)
  | resolver t => resolver (f t)

def Production.map (f : Token → Token) (p : Production) : Production :=
  ⟨f p.name, p.attributes.map f, p.locals.map f, p.body.map (Atom.map f)⟩

/-- The ends of two lists of tokens that begin alike, as far as `keep` tells. Both ends start with a
token of one kind, which is not found before. -/
structure Seam where
  keep : Token → Token
  kind_keep : ∀ t, (keep t).kind = t.kind
  mark : Token
  mark' : Token
  kind_mark : mark'.kind = mark.kind
  rest : List Token
  rest' : List Token

namespace Seam

variable (S : Seam) {α β β' γ γ' δ : Type}

/-- What may stand at the same place before the seam. -/
structure Same (t t' : Token) : Prop where
  keep : S.keep t = S.keep t'
  before : t.kind ≠ S.mark.kind

/-- What stands before the seam. -/
abbrev Fronts : List Token → List Token → Prop := List.Forall₂ S.Same

/-- Both readings are done before the seam, with at most `n` tokens left, or both have stopped. -/
inductive Agree (f : α → γ) (n : Nat) : Reading β α → Reading β' α → Prop
  | done {a a' : α} {xs xs' : List Token} (hf : f a = f a') (hx : S.Fronts xs xs')
      (hn : xs.length ≤ n) :
      Agree f n (.done a (xs ++ S.mark :: S.rest)) (.done a' (xs' ++ S.mark' :: S.rest'))
  | stopped {b : β} {b' : β'} {e e' : SyntaxError} : Agree f n (.stopped b e) (.stopped b' e')

/-- The readers agree on what stands before the seam. -/
def Blind (f : α → γ) (r r' : List Token → Reading β α) : Prop :=
  ∀ xs xs', S.Fronts xs xs' →
    S.Agree f xs.length (r (xs ++ S.mark :: S.rest)) (r' (xs' ++ S.mark' :: S.rest'))

/-- The same for readers that take a token at least. -/
def Strict (f : α → γ) (r r' : List Token → Reading β α) : Prop :=
  ∀ xs xs', S.Fronts xs xs' →
    S.Agree f (xs.length - 1) (r (xs ++ S.mark :: S.rest)) (r' (xs' ++ S.mark' :: S.rest'))

variable {S}

theorem Same.kind {t t' : Token} (h : S.Same t t') : t'.kind = t.kind := by
  rw [← S.kind_keep t', ← h.keep, S.kind_keep]

theorem Fronts.length {xs xs' : List Token} (h : S.Fronts xs xs') : xs'.length = xs.length :=
  (List.Forall₂.length_eq h).symm

/-! ### Steps -/

section

variable {f : α → γ} {r : Reading β α} {r' : Reading β' α} {m n : Nat}

theorem Agree.mono (h : S.Agree f m r r') (hmn : m ≤ n) : S.Agree f n r r' := by
  cases h with
  | done hf hx hm => exact .done hf hx (Nat.le_trans hm hmn)
  | stopped => exact .stopped

theorem Agree.andThen {g : δ → γ'} {k : α → List Token → Reading β δ}
    {k' : α → List Token → Reading β' δ} (h : S.Agree f m r r')
    (hk : ∀ a a', f a = f a' → ∀ xs xs', S.Fronts xs xs' → xs.length ≤ m →
      S.Agree g n (k a (xs ++ S.mark :: S.rest)) (k' a' (xs' ++ S.mark' :: S.rest'))) :
    S.Agree g n (r.andThen k) (r'.andThen k') := by
  cases h with
  | done hf hx hm => exact hk _ _ hf _ _ hx hm
  | stopped => exact .stopped

theorem Agree.map {g : δ → γ'} {k k' : α → δ} (h : S.Agree f n r r')
    (hk : ∀ a a', f a = f a' → g (k a) = g (k' a')) : S.Agree g n (r.map k) (r'.map k') := by
  cases h with
  | done hf hx hn => exact .done (hk _ _ hf) hx hn
  | stopped => exact .stopped

theorem Agree.mapPart {ε ε' : Type} {k : β → ε} {k' : β' → ε'} (h : S.Agree f n r r') :
    S.Agree f n (r.mapPart k) (r'.mapPart k') := by
  cases h with
  | done hf hx hn => exact .done hf hx hn
  | stopped => exact .stopped

end

theorem Agree.atSeam {f : α → γ} {a a' : α} (n : Nat) (h : f a = f a') :
    S.Agree f n (.done a (S.mark :: S.rest) : Reading β α)
      (.done a' (S.mark' :: S.rest') : Reading β' α) :=
  have hx : S.Fronts [] [] := .nil
  .done h hx (Nat.zero_le n)

theorem Agree.beforeSeam {f : α → γ} {a a' : α} {t t' : Token} {xs xs' : List Token}
    (h : f a = f a') (ht : S.Same t t') (hx : S.Fronts xs xs') :
    S.Agree f (xs.length + 1) (.done a (t :: (xs ++ S.mark :: S.rest)) : Reading β α)
      (.done a' (t' :: (xs' ++ S.mark' :: S.rest')) : Reading β' α) :=
  have hx : S.Fronts (t :: xs) (t' :: xs') := .cons ht hx
  .done h hx (Nat.le_refl _)

theorem Strict.blind {f : α → γ} {r r' : List Token → Reading β α} (h : S.Strict f r r') :
    S.Blind f r r' :=
  fun xs xs' hx => (h xs xs' hx).mono (Nat.sub_le ..)

theorem strict_expect {k : Token.Kind} (hk : k ≠ S.mark.kind) (what : Expected) :
    S.Strict S.keep (expect k what) (expect k what) := by
  rintro _ _ (_ | ⟨ht, hx⟩)
  · simp only [List.nil_append, expect, S.kind_mark, hk.symm, if_false]
    exact .stopped
  · simp only [List.cons_append, expect, ht.kind]
    split
    · exact .done ht.keep hx (Nat.le_refl _)
    · exact .stopped

theorem fronts_accept {k : Token.Kind} (hk : k ≠ S.mark.kind) {xs xs' : List Token}
    (hx : S.Fronts xs xs') : ∃ o o' ys ys',
      accept k (xs ++ S.mark :: S.rest) = (o, ys ++ S.mark :: S.rest) ∧
      accept k (xs' ++ S.mark' :: S.rest') = (o', ys' ++ S.mark' :: S.rest') ∧
      o.map S.keep = o'.map S.keep ∧ S.Fronts ys ys' ∧ ys.length ≤ xs.length := by
  obtain _ | @⟨t, t', xs, xs', ht, hx⟩ := hx
  · refine ⟨none, none, [], [], ?_, ?_, rfl, .nil, (Nat.le_refl _)⟩
    · simp [accept, hk.symm]
    · simp [accept, S.kind_mark, hk.symm]
  · simp only [List.cons_append, accept, ht.kind]
    split
    · exact ⟨some t, some t', xs, xs', rfl, rfl, by simp [ht.keep], hx, by simp⟩
    · exact ⟨none, none, t :: xs, t' :: xs', rfl, rfl, rfl, .cons ht hx, (Nat.le_refl _)⟩

/-! ### Expressions -/

section

variable {f : α → γ} {starts : Token.Kind → Bool} {factor factor' term term' : ExprReader α}

theorem agree_moreFactors (hF : S.Strict (Expr.map f) factor factor')
    (hm : starts S.mark.kind = false) {xs xs' : List Token} (hx : S.Fronts xs xs') {n n' : Nat}
    (hn : xs.length ≤ n) (hn' : xs.length ≤ n') {e e' : Expr α} (he : e.map f = e'.map f) :
    S.Agree (Expr.map f) xs.length
      (ExprReader.moreFactors starts factor n e (xs ++ S.mark :: S.rest))
      (ExprReader.moreFactors starts factor' n' e' (xs' ++ S.mark' :: S.rest')) := by
  induction n generalizing xs xs' n' e e' with
  | zero =>
    obtain rfl := List.eq_nil_of_length_eq_zero (Nat.le_zero.mp hn)
    cases hx
    cases n' <;> simpa [ExprReader.moreFactors, S.kind_mark, hm] using Agree.atSeam 0 he
  | succ n ih =>
    obtain _ | @⟨t, t', xs, xs', ht, hx'⟩ := hx
    · cases n' <;> simpa [ExprReader.moreFactors, S.kind_mark, hm] using Agree.atSeam 0 he
    · simp only [List.length_cons] at hn hn'
      obtain ⟨n', rfl⟩ : ∃ m, n' = m + 1 := ⟨n' - 1, by omega⟩
      have hft := hF _ _ (.cons ht hx')
      simp only [List.cons_append, ExprReader.moreFactors, ht.kind] at hft ⊢
      split
      · generalize factor (t :: (xs ++ S.mark :: S.rest)) = r at hft
        generalize factor' (t' :: (xs' ++ S.mark' :: S.rest')) = r' at hft
        cases hft with
        | done hg hy hl =>
          simp only [List.length_cons, Nat.add_sub_cancel] at hl
          exact (ih hy (by omega) (by omega) (by simp [Expr.map, he, hg])).mono (by simp; omega)
        | stopped => exact .stopped
      · exact .beforeSeam he ht hx'

theorem strict_factors (hF : S.Strict (Expr.map f) factor factor')
    (hm : starts S.mark.kind = false) : S.Strict (Expr.map f)
      (ExprReader.factors starts factor) (ExprReader.factors starts factor') := by
  intro xs xs' hx
  refine (hF xs xs' hx).andThen fun e e' he ys ys' hy hl => ?_
  exact (agree_moreFactors hF hm hy (by simp) (by simp [hy.length]) he).mono hl

theorem agree_moreAlternatives (hT : S.Blind (Expr.map f) term term')
    (hm : S.mark.kind ≠ .bar) {xs xs' : List Token} (hx : S.Fronts xs xs') {n n' : Nat}
    (hn : xs.length ≤ n) (hn' : xs.length ≤ n') {e e' : Expr α} (he : e.map f = e'.map f) :
    S.Agree (Expr.map f) xs.length
      (ExprReader.moreAlternatives term n e (xs ++ S.mark :: S.rest))
      (ExprReader.moreAlternatives term' n' e' (xs' ++ S.mark' :: S.rest')) := by
  induction n generalizing xs xs' n' e e' with
  | zero =>
    obtain rfl := List.eq_nil_of_length_eq_zero (Nat.le_zero.mp hn)
    cases hx
    cases n' <;> simpa [ExprReader.moreAlternatives, S.kind_mark, hm] using Agree.atSeam 0 he
  | succ n ih =>
    obtain _ | @⟨t, t', xs, xs', ht, hx'⟩ := hx
    · cases n' <;> simpa [ExprReader.moreAlternatives, S.kind_mark, hm] using Agree.atSeam 0 he
    · simp only [List.length_cons] at hn hn'
      obtain ⟨n', rfl⟩ : ∃ m, n' = m + 1 := ⟨n' - 1, by omega⟩
      have hft := hT _ _ hx'
      simp only [List.cons_append, ExprReader.moreAlternatives, ht.kind]
      split
      · generalize term (xs ++ S.mark :: S.rest) = r at hft
        generalize term' (xs' ++ S.mark' :: S.rest') = r' at hft
        cases hft with
        | done hg hy hl =>
          exact (ih hy (by omega) (by omega) (by simp [Expr.map, he, hg])).mono (by simp; omega)
        | stopped => exact .stopped
      · exact .beforeSeam he ht hx'

theorem blind_alternatives (hT : S.Blind (Expr.map f) term term') (hm : S.mark.kind ≠ .bar) :
    S.Blind (Expr.map f) (ExprReader.alternatives term) (ExprReader.alternatives term') := by
  intro xs xs' hx
  refine (hT xs xs' hx).andThen fun e e' he ys ys' hy hl => ?_
  exact (agree_moreAlternatives hT hm hy (by simp) (by simp [hy.length]) he).mono hl

/-- The readers of groups agree, whatever tokens have opened them. -/
def BlindGroup (S : Seam) (f : α → γ) (g g' : GroupReader α) : Prop :=
  ∀ t t' b, S.Blind (Expr.map f) (g t b) (g' t' b)

theorem blindGroup_groups {content : GroupReader α → ExprReader α}
    (hC : ∀ g g', S.BlindGroup f g g' → S.Blind (Expr.map f) (content g) (content g'))
    (hm : ∀ b : Bracket, b.closing ≠ S.mark.kind) (room : Nat) :
    S.BlindGroup f (ExprReader.groups content room) (ExprReader.groups content room) := by
  induction room with
  | zero => exact fun t t' b xs xs' hx => .stopped
  | succ room ih =>
    intro t t' b xs xs' hx
    have hc := hC _ _ ih xs xs' hx
    simp only [ExprReader.groups]
    generalize content (ExprReader.groups content room) (xs ++ S.mark :: S.rest) = r at hc
    generalize content (ExprReader.groups content room) (xs' ++ S.mark' :: S.rest') = r' at hc
    cases hc with
    | @done e e' ys ys' he hy hl =>
      have hclose := strict_expect (hm b) b.closingExpected ys ys' hy
      simp only [ExprReader.close]
      generalize expect b.closing b.closingExpected (ys ++ S.mark :: S.rest) = q at hclose
      generalize expect b.closing b.closingExpected (ys' ++ S.mark' :: S.rest') = q' at hclose
      cases hclose with
      | done _ hz hl' => exact .done (by simp [Expr.map, he]) hz (by omega)
      | stopped => exact .stopped
    | stopped => exact .stopped

theorem blind_whole {content : GroupReader α → ExprReader α}
    (hC : ∀ g g', S.BlindGroup f g g' → S.Blind (Expr.map f) (content g) (content g'))
    (hm : ∀ b : Bracket, b.closing ≠ S.mark.kind) :
    S.Blind (Expr.map f) (ExprReader.whole content) (ExprReader.whole content) :=
  hC _ _ (blindGroup_groups hC hm _)

end

/-! ### Right-hand sides of productions -/

section

variable (hd : S.mark.kind = .dot)
include hd

theorem strict_readSymbol (weak : Bool) :
    S.Strict (Expr.map (Atom.map S.keep)) (Atom.readSymbol weak) (Atom.readSymbol weak) := by
  rintro _ _ (_ | ⟨ht, hx⟩)
  · simpa [Atom.readSymbol, S.kind_mark, hd] using Agree.stopped
  · simp only [List.cons_append, Atom.readSymbol, ht.kind]
    split
    · obtain ⟨o, o', ys, ys', ho, ho', hoo, hy, hl⟩ :=
        fronts_accept (k := .attributes) (by simp [hd]) hx
      rw [ho, ho']
      exact .done (by simp [Expr.map, Atom.map, ht.keep, hoo]) hy (by simpa using hl)
    · exact .stopped

theorem strict_readFactor {g g' : GroupReader Atom} (hg : S.BlindGroup (Atom.map S.keep) g g') :
    S.Strict (Expr.map (Atom.map S.keep)) (Atom.readFactor g) (Atom.readFactor g') := by
  intro xs xs' hx
  obtain _ | @⟨t, t', xs, xs', ht, hx'⟩ := hx
  · simpa [Atom.readFactor, S.kind_mark, hd, Bracket.ofOpening?] using Agree.stopped
  · have hs := strict_readSymbol hd false _ _ (.cons ht hx')
    have hw := ((strict_readSymbol hd true).blind _ _ hx')
    have hk := ht.kind
    simp only [List.cons_append, Atom.readFactor] at hs ⊢
    generalize t.kind = k at hk ⊢
    rw [hk]
    split
    · exact hw
    · exact hs
    · exact hs
    · exact hs
    · exact .done (by simp [Expr.map, Atom.map, ht.keep]) hx' (Nat.le_refl _)
    · exact .done (by simp [Expr.map, Atom.map, ht.keep]) hx' (Nat.le_refl _)
    · exact .done (by simp [Expr.map, Atom.map, ht.keep]) hx' (Nat.le_refl _)
    · split
      · exact hg _ _ _ _ _ hx'
      · exact .stopped

theorem blind_readTerm {g g' : GroupReader Atom} (hg : S.BlindGroup (Atom.map S.keep) g g') :
    S.Blind (Expr.map (Atom.map S.keep)) (Atom.readTerm g) (Atom.readTerm g') := by
  have hF := strict_readFactor hd hg
  have hm : Atom.startsFactor S.mark.kind = false := by rw [hd]; rfl
  intro xs xs' hx
  obtain _ | @⟨t, t', xs, xs', ht, hx'⟩ := hx
  · simpa [Atom.readTerm, S.kind_mark, hd, Atom.startsFactor] using Agree.atSeam 0 rfl
  · have hf := strict_factors hF hm _ _ (.cons ht hx')
    simp only [List.cons_append, Atom.readTerm, ht.kind] at hf ⊢
    split
    · have hr := hF _ _ hx'
      generalize Atom.readFactor g (xs ++ S.mark :: S.rest) = r at hr
      generalize Atom.readFactor g' (xs' ++ S.mark' :: S.rest') = r' at hr
      cases hr with
      | done he hy hl =>
        refine (agree_moreFactors hF hm hy (by simp) (by simp [hy.length]) ?_).mono
          (by simp; omega)
        simp [Expr.map, Atom.map, ht.keep, he]
      | stopped => exact .stopped
    · split
      · exact hf.mono (Nat.sub_le ..)
      · exact .beforeSeam rfl ht hx'

theorem blind_readExpr : S.Blind (Expr.map (Atom.map S.keep)) Atom.readExpr Atom.readExpr := by
  refine blind_whole (fun g g' hg => ?_) fun b => ?_
  · exact blind_alternatives (blind_readTerm hd hg) (by simp [hd])
  · cases b <;> simp [Bracket.closing, hd]

end

end Seam

/-- A production is read up to its first dot, and the same words give the same production. -/
theorem Production.read_agree {S : Seam} (hd : S.mark.kind = .dot) {name name' : Token}
    (hn : S.keep name = S.keep name') {xs xs' : List Token} (hx : S.Fronts xs xs')
    {p : Production} {rest : List Token}
    (h : Production.read name (xs ++ S.mark :: S.rest) = .done p rest) : rest = S.rest ∧
      ∃ p', Production.read name' (xs' ++ S.mark' :: S.rest') = .done p' S.rest' ∧
        p'.map S.keep = p.map S.keep := by
  obtain ⟨a, a', ys, ys', ha, ha', haa, hy, -⟩ :=
    Seam.fronts_accept (k := .attributes) (by simp [hd]) hx
  obtain ⟨l, l', zs, zs', hl, hl', hll, hz, -⟩ :=
    Seam.fronts_accept (k := .action) (by simp [hd]) hy
  simp only [Production.read, ha, hl, Reading.andThen_eq_done, Reading.mapPart_eq_done] at h
  obtain ⟨q, us, hq, e, vs, he, dot, ws, hdot, hp⟩ := h
  cases hp
  have hequals := Seam.strict_expect (S := S) (k := .equals) (by simp [hd]) .equals zs zs' hz
  rw [hq] at hequals
  generalize hq' : expect .equals .equals (zs' ++ S.mark' :: S.rest') = r at hequals
  obtain ⟨-, hu, -⟩ := hequals
  rename_i us us'
  have hbody := Seam.blind_readExpr hd us us' hu
  rw [he] at hbody
  generalize he' : Atom.readExpr (us' ++ S.mark' :: S.rest') = r at hbody
  obtain ⟨hee, hv, -⟩ := hbody
  rename_i e' vs vs'
  cases hv with
  | nil =>
    obtain ⟨h, -⟩ := expect_eq_done.mp hdot
    simp only [List.nil_append, List.cons.injEq] at h
    refine ⟨h.2.symm, ⟨name', a', l', e'⟩, ?_, ?_⟩
    · have hdot' : expect .dot .dot (S.mark' :: S.rest') = .done S.mark' S.rest' :=
        expect_eq_done.mpr ⟨rfl, S.kind_mark.trans hd⟩
      simp [Production.read, ha', hl', hq', he', hdot', Reading.andThen, Reading.mapPart]
    · simp [Production.map, hn, haa, hll, hee]
  | cons ht _ =>
    obtain ⟨h, hk⟩ := expect_eq_done.mp hdot
    simp only [List.cons_append, List.cons.injEq] at h
    exact absurd (h.1 ▸ hk) (hd ▸ ht.before)

/-! ### Declarations before the productions -/

namespace Seam

/-- The same tokens in front of different ones. -/
def of (mark : Token) (rest rest' : List Token) : Seam where
  keep := id
  kind_keep _ := rfl
  mark := mark
  mark' := mark
  kind_mark := rfl
  rest := rest
  rest' := rest'

variable {mark : Token} {rest rest' : List Token}

theorem fronts_of_iff {xs xs' : List Token} :
    (of mark rest rest').Fronts xs xs' ↔ xs = xs' ∧ ∀ t ∈ xs, t.kind ≠ mark.kind := by
  refine ⟨fun h => ?_, ?_⟩
  · induction h with
    | nil => exact ⟨rfl, nofun⟩
    | cons ht _ ih =>
      obtain ⟨rfl, ih⟩ := ih
      obtain ⟨rfl, hk⟩ := ht
      exact ⟨rfl, List.forall_mem_cons.mpr ⟨hk, ih⟩⟩
  · rintro ⟨rfl, h⟩
    exact List.forall₂_same.mpr fun t ht => ⟨rfl, h t ht⟩

variable (hm : mark.kind = .keyword .productions)
include hm

theorem ne_mark {k : Token.Kind} (hk : k ≠ .keyword .productions) :
    k ≠ (of mark rest rest').mark.kind := by
  simpa [of, hm] using hk

/-- What is accepted before the seam is the same token. -/
theorem exists_accept {k : Token.Kind} (hk : k ≠ .keyword .productions) {xs xs' : List Token}
    (hx : (of mark rest rest').Fronts xs xs') : ∃ o ys ys',
      accept k (xs ++ (of mark rest rest').mark :: (of mark rest rest').rest) =
        (o, ys ++ (of mark rest rest').mark :: (of mark rest rest').rest) ∧
      accept k (xs' ++ (of mark rest rest').mark' :: (of mark rest rest').rest') =
        (o, ys' ++ (of mark rest rest').mark' :: (of mark rest rest').rest') ∧
      (of mark rest rest').Fronts ys ys' ∧ ys.length ≤ xs.length := by
  obtain ⟨o, o', ys, ys', ho, ho', hoo, hy, hl⟩ := fronts_accept (ne_mark hm hk) hx
  obtain rfl : o = o' := by simpa [of] using hoo
  exact ⟨o, ys, ys', ho, ho', hy, hl⟩

theorem strict_expect_of {k : Token.Kind} (hk : k ≠ .keyword .productions) (what : Expected) :
    (of mark rest rest').Strict id (expect k what) (expect k what) :=
  strict_expect (ne_mark hm hk) what

theorem strict_simpleSet :
    (of mark rest rest').Strict id SimpleSet.read SimpleSet.read := by
  intro xs xs' hx
  obtain ⟨rfl, -⟩ := fronts_of_iff.mp hx
  obtain _ | ⟨ht, hx⟩ := hx
  · simpa [SimpleSet.read, of, hm] using Agree.stopped
  · rename_i t xs
    simp only [List.cons_append, SimpleSet.read]
    split
    iterate 3 exact .done rfl hx (Nat.le_refl _)
    · obtain ⟨o, ys, ys', ho, ho', hy, hl⟩ := exists_accept hm (k := .dotDot) (by simp) hx
      rw [ho, ho']
      cases o with
      | none => exact .done rfl hy hl
      | some _ =>
        have hc := strict_expect_of hm (k := .char) (by simp) .char ys ys' hy
        dsimp only
        generalize expect .char .char (ys ++ (of mark rest rest').mark :: (of mark rest rest').rest)
          = r at hc
        generalize expect .char .char
          (ys' ++ (of mark rest rest').mark' :: (of mark rest rest').rest') = r' at hc
        cases hc with
        | done hu hz hl' => exact .done (congrArg (SimpleSet.range t) hu) hz (by simp; omega)
        | stopped => exact .stopped
    · exact .stopped

theorem agree_setTerms (minus : Bool) {xs xs' : List Token}
    (hx : (of mark rest rest').Fronts xs xs') {n n' : Nat} (hn : xs.length < n)
    (hn' : xs.length < n') : (of mark rest rest').Agree id xs.length
      (SetTerm.readFrom minus n (xs ++ mark :: rest))
      (SetTerm.readFrom minus n' (xs' ++ mark :: rest')) := by
  induction n generalizing minus xs xs' n' with
  | zero => exact absurd hn (Nat.not_lt_zero _)
  | succ n ih =>
    obtain ⟨n', rfl⟩ : ∃ m, n' = m + 1 := ⟨n' - 1, by omega⟩
    have hs := strict_simpleSet hm xs xs' hx
    simp only [SetTerm.readFrom, of] at hs ⊢
    generalize SimpleSet.read (xs ++ mark :: rest) = r at hs
    generalize SimpleSet.read (xs' ++ mark :: rest') = r' at hs
    cases hs with
    | stopped => exact .stopped
    | done he hy hl =>
      cases he
      have hall := hy
      obtain _ | ⟨ht, hy⟩ := hy
      · simpa [hm, SetTerm.sign?] using Agree.atSeam _ rfl
      · cases ht.keep
        simp only [List.cons_append]
        simp only [List.length_cons] at hl
        split
        · exact .done rfl hall (by simp; omega)
        · refine (((ih _ hy (by omega) (by omega)).mono (n := xs.length) (by omega)).map ?_).mapPart
          rintro _ _ ⟨⟩
          rfl

theorem blind_setDecl (name : Token) :
    (of mark rest rest').Blind id (SetDecl.read name) (SetDecl.read name) := by
  intro xs xs' hx
  refine ((strict_expect_of hm (by simp) _).blind xs xs' hx).mapPart.andThen
    fun _ _ _ ys ys' hy hly => ?_
  have hlt (ys rest : List Token) : ys.length < (ys ++ mark :: rest).length + 1 := by
    rw [List.length_append]
    omega
  refine (((agree_setTerms hm false hy (hlt ys rest) (hy.length ▸ hlt ys' rest')).mono
    hly).mapPart).andThen fun terms _ he zs zs' hz hlz => ?_
  cases he
  refine (((strict_expect_of hm (by simp) _).blind zs zs' hz).mapPart).andThen
    fun _ _ _ us us' hu hlu => ?_
  exact .done rfl hu (by omega)

theorem blind_tokenExpr :
    (of mark rest rest').Blind (Expr.map id) TokenAtom.readExpr TokenAtom.readExpr := by
  have hstarts : TokenAtom.startsFactor mark.kind = false := by rw [hm]; rfl
  have hfactor (g g' : GroupReader TokenAtom) (hg : (of mark rest rest').BlindGroup id g g') :
      (of mark rest rest').Strict (Expr.map id) (TokenAtom.readFactor g)
        (TokenAtom.readFactor g') := by
    intro xs xs' hx
    obtain ⟨rfl, -⟩ := fronts_of_iff.mp hx
    obtain _ | ⟨ht, hx⟩ := hx
    · simpa [TokenAtom.readFactor, of, hm, Bracket.ofOpening?] using Agree.stopped
    · simp only [List.cons_append, TokenAtom.readFactor]
      split
      iterate 3 exact .done rfl hx (Nat.le_refl _)
      split
      · exact hg _ _ _ _ _ hx
      · exact .stopped
  have hcontext (g g' : GroupReader TokenAtom) (hg : (of mark rest rest').BlindGroup id g g')
      {e e' : Expr TokenAtom} (he : e.map id = e'.map id) : (of mark rest rest').Blind (Expr.map id)
        (TokenAtom.readContext g e) (TokenAtom.readContext g' e') := by
    intro xs xs' hx
    obtain ⟨o, ys, ys', ho, ho', hy, hl⟩ :=
      exists_accept hm (k := .keyword .context) (by simp) hx
    simp only [TokenAtom.readContext, ho, ho']
    cases o with
    | none => exact .done he hy hl
    | some _ =>
      have hopen := strict_expect_of hm (k := .lparen) (by simp) .lparen ys ys' hy
      dsimp only
      generalize expect .lparen .lparen _ = r at hopen
      generalize expect .lparen .lparen _ = r' at hopen
      cases hopen with
      | stopped => exact .stopped
      | @done t t' zs zs' _ hz hlz =>
        have hgroup := hg t t' .context zs zs' hz
        dsimp only
        generalize g t .context _ = q at hgroup
        generalize g' t' .context _ = q' at hgroup
        cases hgroup with
        | stopped => exact .stopped
        | done hf hu hlu => exact .done (by simp only [Expr.map, he, hf]) hu (by omega)
  refine blind_whole (fun g g' hg => ?_) fun b => ne_mark hm (by cases b <;> simp [Bracket.closing])
  refine blind_alternatives (fun xs xs' hx => ?_) (ne_mark hm (by simp)).symm
  refine ((strict_factors (hfactor g g' hg) hstarts).blind xs xs' hx).andThen
    fun e e' he ys ys' hy hl => ?_
  exact (hcontext g g' hg he ys ys' hy).mono hl

theorem agree_action (name : Token) (body : Option (Expr TokenAtom)) {n : Nat}
    {ys ys' : List Token} (hy : (of mark rest rest').Fronts ys ys') (hl : ys.length ≤ n) :
    (of mark rest rest').Agree id n
      (let (action, rest) := accept .action
        (ys ++ (of mark rest rest').mark :: (of mark rest rest').rest)
      .done ⟨name, body, action⟩ rest : Reading Fragment TokenDecl)
      (let (action, rest) := accept .action
        (ys' ++ (of mark rest rest').mark' :: (of mark rest rest').rest')
      .done ⟨name, body, action⟩ rest : Reading Fragment TokenDecl) := by
  obtain ⟨o, zs, zs', ho, ho', hz, hlz⟩ := exists_accept hm (k := .action) (by simp) hy
  rw [ho, ho']
  exact .done rfl hz (by omega)

theorem blind_tokenDecl (broken : Token → Expr TokenAtom → Fragment) (name : Token) :
    (of mark rest rest').Blind id (TokenDecl.read broken name) (TokenDecl.read broken name) := by
  intro xs xs' hx
  obtain ⟨o, ys, ys', ho, ho', hy, hl⟩ := exists_accept hm (k := .equals) (by simp) hx
  simp only [TokenDecl.read, ho, ho']
  cases o with
  | none => exact agree_action hm name none hy hl
  | some _ =>
    refine (blind_tokenExpr hm ys ys' hy).mapPart.andThen fun e e' he zs zs' hz hlz => ?_
    obtain rfl : e = e' := by simpa only [Expr.map_id] using he
    refine ((strict_expect_of hm (by simp) .dot).blind zs zs' hz).mapPart.andThen
      fun _ _ _ us us' hu hlu => ?_
    exact agree_action hm name (some e) hu (by omega)

variable {δ : Type} {starts : Token.Kind → Bool} {decl : DeclReader δ}

theorem agree_readMany (hs : starts (.keyword .productions) = false)
    (hd : ∀ name, (of mark rest rest').Blind id (decl name) (decl name)) {xs xs' : List Token}
    (hx : (of mark rest rest').Fronts xs xs') {n n' : Nat} (hn : xs.length ≤ n)
    (hn' : xs.length ≤ n') : (of mark rest rest').Agree id xs.length
      (readMany starts decl n (xs ++ mark :: rest))
      (readMany starts decl n' (xs' ++ mark :: rest')) := by
  have hend : (of mark rest rest').Agree id 0
      (.done [] (mark :: rest) : Reading (List δ × Fragment) (List δ))
      (.done [] (mark :: rest') : Reading (List δ × Fragment) (List δ)) := .atSeam 0 rfl
  induction n generalizing xs xs' n' with
  | zero =>
    obtain rfl := List.eq_nil_of_length_eq_zero (Nat.le_zero.mp hn)
    cases hx
    cases n' <;> simpa [readMany, hm, hs] using hend
  | succ n ih =>
    have hall := hx
    obtain ⟨rfl, -⟩ := fronts_of_iff.mp hx
    obtain _ | ⟨ht, hx⟩ := hx
    · cases n' <;> simpa [readMany, hm, hs] using hend
    · rename_i t xs
      simp only [List.length_cons] at hn hn'
      obtain ⟨n', rfl⟩ : ∃ m, n' = m + 1 := ⟨n' - 1, by omega⟩
      have hdecl := hd t xs xs hx
      simp only [List.cons_append, readMany, of] at hdecl ⊢
      split
      · generalize decl t (xs ++ mark :: rest) = r at hdecl
        generalize decl t (xs ++ mark :: rest') = r' at hdecl
        cases hdecl with
        | stopped => exact .stopped
        | done he hy hl =>
          cases he
          refine (((ih hy (by omega) (by omega)).mono (by simp; omega)).map ?_).mapPart
          rintro _ _ ⟨⟩
          rfl
      · exact .done rfl hall (Nat.le_refl _)

theorem blind_readSection {k : Keyword} (hk : k ≠ .productions)
    (hs : starts (.keyword .productions) = false)
    (hd : ∀ name, (of mark rest rest').Blind id (decl name) (decl name)) :
    (of mark rest rest').Blind id (readSection k starts decl) (readSection k starts decl) := by
  intro xs xs' hx
  obtain ⟨o, ys, ys', ho, ho', hy, hl⟩ := exists_accept hm (k := .keyword k) (by simp [hk]) hx
  simp only [readSection, ho, ho']
  cases o with
  | none => exact .done rfl hy hl
  | some _ =>
    exact (agree_readMany hm hs hd hy (by simp) (by simp [hy.length])).mono hl

end Seam

namespace Definition

/-- Reads what comes before `PRODUCTIONS`. -/
def readFront (ts : List Token) : Reading (Sections × Fragment) (Token × Sections) :=
  (between {} (expect (.keyword .compiler) .compiler ts)).andThen fun _ ts =>
  (between {} (expect .ident .ident ts)).andThen fun name ts =>
  let s : Sections := { directives := ts.takeWhile (·.kind == .directive) }
  let ts := ts.dropWhile (·.kind == .directive)
  ((readSection .characters isName SetDecl.read ts).mapPart fun p =>
    ({ s with sets := p.1 }, p.2)).andThen fun sets ts =>
  let s := { s with sets := sets }
  ((readSection .tokens isNameOrString (TokenDecl.read .token) ts).mapPart fun p =>
    ({ s with tokens := p.1 }, p.2)).andThen fun tokens ts =>
  let s := { s with tokens := tokens }
  ((readSection .pragmas isNameOrString (TokenDecl.read .pragma) ts).mapPart fun p =>
    ({ s with pragmas := p.1 }, p.2)).andThen fun pragmas ts =>
  .done (name, { s with pragmas := pragmas }) ts

/-- Reads what comes behind `PRODUCTIONS`, given the name and the other declarations. -/
def readBody (name : Token) (s : Sections) (ts : List Token) :
    Reading (Sections × Fragment) Definition :=
  ((readMany isName Production.read ts.length ts).mapPart fun p =>
    ({ s with productions := p.1 }, p.2)).andThen fun productions ts =>
  let s := { s with productions := productions }
  (between s (expect (.keyword .ending) .ending ts)).andThen fun _ ts =>
  (between s (expect .ident .ident ts)).andThen fun last ts =>
  ((expect .dot .dot ts).mapPart fun _ => (s, .ending name last)).andThen fun _ ts =>
  .done ⟨name, s, last⟩ ts

theorem readTokens_eq (ts : List Token) : readTokens ts = (readFront ts).andThen fun p ts =>
    (between p.2 (expect (.keyword .productions) .productions ts)).andThen fun _ ts =>
    readBody p.1 p.2 ts := by
  have hassoc {α β γ δ : Type} (r : Reading β α) (f : α → List Token → Reading β γ)
      (g : γ → List Token → Reading β δ) :
      (r.andThen f).andThen g = r.andThen fun a ts => (f a ts).andThen g := by
    cases r <;> rfl
  simp only [readTokens, readFront, hassoc]
  rfl

variable {mark : Token} {rest rest' : List Token}

theorem takeWhile_append_cons {p : Token → Bool} (xs : List Token) (hp : p mark = false) :
    (xs ++ mark :: rest).takeWhile p = xs.takeWhile p := by
  induction xs with
  | nil => simp [hp]
  | cons x xs ih => simp [List.takeWhile_cons, ih]

theorem dropWhile_append_cons {p : Token → Bool} (xs : List Token) (hp : p mark = false) :
    (xs ++ mark :: rest).dropWhile p = xs.dropWhile p ++ mark :: rest := by
  induction xs with
  | nil => simp [hp]
  | cons x xs ih =>
    simp only [List.cons_append, List.dropWhile_cons, ih]
    split <;> rfl

theorem blind_readFront (hm : mark.kind = .keyword .productions) :
    (Seam.of mark rest rest').Blind id readFront readFront := by
  intro xs xs' hx
  refine ((Seam.strict_expect_of hm (by simp) .compiler).blind xs xs' hx).mapPart.andThen
    fun _ _ _ ys ys' hy hl => ?_
  refine ((Seam.strict_expect_of hm (by simp) .ident).blind ys ys' hy).mapPart.andThen
    fun name _ hn zs zs' hz hl' => ?_
  cases hn
  obtain ⟨rfl, hmark⟩ := Seam.fronts_of_iff.mp hz
  have hp : (mark.kind == .directive) = false := by simp [hm]
  simp only [Seam.of, takeWhile_append_cons (p := (·.kind == .directive)) _ hp,
    dropWhile_append_cons (p := (·.kind == .directive)) _ hp]
  generalize hds : zs.takeWhile (·.kind == .directive) = ds
  have hus : (Seam.of mark rest rest').Fronts (zs.dropWhile (·.kind == .directive))
      (zs.dropWhile (·.kind == .directive)) :=
    Seam.fronts_of_iff.mpr ⟨rfl, fun t ht => hmark t ((List.dropWhile_sublist _).subset ht)⟩
  have hlu := (List.dropWhile_sublist (l := zs) (·.kind == .directive)).length_le
  generalize zs.dropWhile (·.kind == .directive) = us at hus hlu
  refine (Seam.blind_readSection (k := .characters) hm (by simp)
    (show isName (.keyword .productions) = false from rfl)
    (Seam.blind_setDecl hm) us us
    hus).mapPart.andThen fun sets _ hs vs vs' hv hl₁ => ?_
  cases hs
  refine (Seam.blind_readSection (k := .tokens) hm (by simp)
    (show isNameOrString (.keyword .productions) = false from rfl)
    (Seam.blind_tokenDecl hm _) vs vs'
    hv).mapPart.andThen fun tokens _ hs ws ws' hw hl₂ => ?_
  cases hs
  refine (Seam.blind_readSection (k := .pragmas) hm (by simp)
    (show isNameOrString (.keyword .productions) = false from rfl)
    (Seam.blind_tokenDecl hm _) ws ws'
    hw).mapPart.andThen fun pragmas _ hs ts ts' ht hl₃ => ?_
  cases hs
  exact .done rfl ht (by omega)

/-- What comes before the productions does not depend on them. -/
theorem readTokens_eq_readBody {front : List Token} (hm : mark.kind = .keyword .productions)
    (hf : ∀ t ∈ front, t.kind ≠ .keyword .productions) {d : Definition} {left : List Token}
    (h : readTokens (front ++ mark :: rest) = .done d left) : ∃ name s,
      readBody name s rest = .done d left ∧
        ∀ rest', readTokens (front ++ mark :: rest') = readBody name s rest' := by
  have hexpect (t : Token) (ht : t.kind = .keyword .productions) (s : Sections)
      (ts : List Token) :
        between s (expect (.keyword .productions) .productions (t :: ts)) = .done t ts :=
    between_eq_done.mpr (expect_eq_done.mpr ⟨rfl, ht⟩)
  rw [readTokens_eq, Reading.andThen_eq_done] at h
  obtain ⟨⟨name, s⟩, ts, hfront, h⟩ := h
  obtain ⟨t, us, hmark, hbody⟩ := Reading.andThen_eq_done.mp h
  obtain ⟨rfl, ht⟩ := expect_eq_done.mp (between_eq_done.mp hmark)
  have hblind (rest' : List Token) : (Seam.of mark rest rest').Blind id readFront readFront :=
    blind_readFront hm
  have hagree (rest' : List Token) := hblind rest' front front
    (Seam.fronts_of_iff.mpr ⟨rfl, by simpa [hm] using hf⟩)
  simp only [Seam.of, hfront] at hagree
  -- the first token of the kind is the one that is taken
  have hrest (rest' : List Token) :
      readFront (front ++ mark :: rest') = .done (name, s) (mark :: rest') ∧ us = rest := by
    have h := hagree rest'
    generalize hus : t :: us = l at h
    generalize readFront (front ++ mark :: rest') = r at h
    cases h with
    | done hp hx hl =>
      cases hp
      cases hx with
      | nil =>
        cases hus
        exact ⟨rfl, rfl⟩
      | cons hx _ =>
        cases hus
        exact absurd (ht.trans hm.symm) hx.before
  obtain ⟨-, rfl⟩ := hrest []
  refine ⟨name, s, hbody, fun rest' => ?_⟩
  rw [readTokens_eq, (hrest rest').1, Reading.andThen, hexpect mark hm]
  rfl

end Definition

end Lookahead
