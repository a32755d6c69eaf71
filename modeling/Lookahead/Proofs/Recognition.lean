import Lookahead.Proofs.Written
import Lookahead.Proofs.Sentences

/-!
# Reading with one token of lookahead

A reader is right for a language if it takes a word of the language off the front of any list of
tokens, looks at no token behind the first one it leaves, and stops at the first token that no word
goes on with (`Parses`). This is kept by reading one thing after another (`Parses.andThen`), by
deciding on the first token (`Parses.head`), and by repetition (`Parses.repeat`), as long as what a
reader leaves to the next one cannot be mistaken for more of its own (`Clear`).
-/

namespace Lookahead

open Rule Computability

variable {α β γ δ ε : Type}

abbrev kinds (ts : List Token) : List Token.Kind := ts.map Token.kind

/-- No word begins with one of these kinds. -/
def Clear (C : List Token.Kind) (K : Language Token.Kind) : Prop := ∀ k ∈ C, ∀ w, k :: w ∉ K

/-- What the words that begin with `k` go on with. -/
def tails (k : Token.Kind) (L : Language Token.Kind) : Language Token.Kind := {w | k :: w ∈ L}

/-- Behind the same words, `ts'` cannot be taken for more of them if `ts` was not: it begins with
the same kind, or else with none of `C`. -/
def Alike (C : List Token.Kind) (ts ts' : List Token) : Prop :=
  (kinds ts').head? = (kinds ts).head? ∨ ∀ k ∈ (kinds ts').head?, k ∉ C

/-- On these tokens the reader does what is right for the language `L`, if what is to come behind a
word of `L` is clear of `C`. What it leaves of the words of `L * K` are words of `K`, as far as can
be seen from the first kind that is left. -/
inductive Parses (r : List Token → Reading β α) (L : Language Token.Kind) (C : List Token.Kind) :
    List Token → Prop
  | done {a : α} {u v : List Token} (hL : kinds u ∈ L)
      (hK : ∀ K, Clear C K → ∀ y, y.head? = (kinds v).head? → kinds u ++ y ∈ L * K → y ∈ K)
      (hr : ∀ v', Alike C v v' → r (u ++ v') = .done a v') : Parses r L C (u ++ v)
  | stopped {b : β} {e : Expected} {u v : List Token} (hL : ∃ w, kinds u ++ w ∈ L)
      (hK : ∀ K, Clear C K → ∀ y, y.head? = (kinds v).head? → kinds u ++ y ∉ L * K)
      (hr : r (u ++ v) = .stopped b (unexpected e v)) : Parses r L C (u ++ v)
  | tooDeep {b : β} {l : Location} {ts : List Token} (hr : r ts = .stopped b (.tooDeep l)) :
      Parses r L C ts

/-- On any tokens, for the words of a rule. -/
def Recognizes (r : List Token → Reading β α) (R : Rule) (C : List Token.Kind) : Prop :=
  ∀ ts, Parses r R.language C ts

/-- What follows the rule can be told from more of what comes before it: that begins with none of
`C`, if what comes behind the rule begins with none of `C'`. -/
def Rule.Separates (R : Rule) (C C' : List Token.Kind) : Prop :=
  ∀ k ∈ C, k ∉ R.starts ∧ (R.nullable = true → k ∈ C')

instance {R : Rule} {C C' : List Token.Kind} : Decidable (R.Separates C C') :=
  inferInstanceAs (Decidable (∀ k ∈ C, _ ∧ _))

/-! ### Words that are to come -/

section

variable {C C' : List Token.Kind} {K L M : Language Token.Kind} {k : Token.Kind}

theorem Clear.mul {R : Rule} (hK : Clear C' K) (h : R.Separates C C') :
    Clear C (R.language * K) := by
  rintro k hk w ⟨u, hu, v, hv, huv⟩
  obtain ⟨hstarts, hnullable⟩ := h k hk
  rcases List.append_eq_cons_iff.mp huv with ⟨rfl, rfl⟩ | ⟨u, rfl, -⟩
  · exact hK k (hnullable (Derives.nullable hu rfl)) w hv
  · exact hstarts (Derives.mem_starts hu rfl)

theorem nil_notMem_language {R : Rule} (h : R.nullable = false) : [] ∉ R.language :=
  fun hR => Bool.false_ne_true (h.symm.trans (Derives.nullable hR rfl))

theorem tails_eq_zero {R : Rule} (h : k ∉ R.starts) : tails k R.language = 0 := by
  ext w
  exact iff_of_false (fun hw => h (Derives.mem_starts hw rfl)) (Language.notMem_zero w)

theorem tails_one : tails k 1 = 0 := by
  ext w
  exact iff_of_false nofun (Language.notMem_zero w)

theorem tails_one_add : tails k (1 + L) = tails k L :=
  (congrArg (· + tails k L) tails_one).trans (zero_add _)

theorem tails_mul (hL : [] ∉ L) : tails k (L * M) = tails k L * M := by
  ext w
  refine ⟨?_, ?_⟩
  · rintro ⟨u, hu, v, hv, h⟩
    rcases List.append_eq_cons_iff.mp h with ⟨rfl, -⟩ | ⟨u, rfl, rfl⟩
    · exact absurd hu hL
    · exact Language.append_mem_mul hu hv
  · rintro ⟨u, hu, v, hv, rfl⟩
    exact Language.append_mem_mul (a := k :: u) hu hv

@[simp] theorem tails_token (j : Token.Kind) :
    tails k (token j).language = if k = j then 1 else 0 := by
  split
  · rename_i h
    subst h
    ext w
    refine ⟨fun hw => ?_, ?_⟩
    · cases hw
      rfl
    · rintro rfl
      exact .token k
  · rename_i h
    exact tails_eq_zero (by simpa [Rule.starts] using h)

@[simp] theorem tails_token_mul (j : Token.Kind) (R : Rule) :
    tails k (token j * R).language = if k = j then R.language else 0 := by
  rw [language_mul, tails_mul (nil_notMem_language rfl), tails_token]
  split <;> simp

@[simp] theorem tails_add (R S : Rule) :
    tails k (R + S).language = tails k R.language + tails k S.language := by
  rw [language_add]
  rfl

@[simp] theorem tails_add_mul (R S T : Rule) :
    tails k ((R + S) * T).language = tails k (R * T).language + tails k (S * T).language := by
  rw [language_mul, language_add, add_mul, ← language_mul, ← language_mul]
  rfl

@[simp] theorem tails_opt (R : Rule) : tails k (opt R).language = tails k R.language := by
  rw [language_opt, tails_one_add]

@[simp] theorem tails_opt_mul (R S : Rule) :
    tails k (opt R * S).language = tails k S.language + tails k (R * S).language := by
  rw [language_opt_mul]
  rfl

theorem tails_many_token : tails k (many (token k)).language = (many (token k)).language := by
  rw [language_many_eq, tails_one_add, tails_token_mul, if_pos rfl, ← language_many_eq]

@[simp] theorem tails_mul_mul (R S T : Rule) :
    tails k (R * S * T).language = tails k (R * (S * T)).language := by
  simp only [language_mul, mul_assoc]

end

/-! ### Combining readers -/

section

variable {C C' : List Token.Kind} {K L M : Language Token.Kind} {r : List Token → Reading β α}
  {ts : List Token} {t : Token}

theorem Parses.mapPart (h : Parses r L C ts) (g : β → δ) :
    Parses (fun ts => (r ts).mapPart g) L C ts := by
  cases h with
  | done hL hK hr => exact .done hL hK fun rest' h => by rw [hr rest' h]; rfl
  | stopped hL hK hr => exact .stopped hL hK (by rw [hr]; rfl)
  | tooDeep hr => exact .tooDeep (by rw [hr]; rfl)

theorem Parses.map (h : Parses r L C ts) (g : α → γ) :
    Parses (fun ts => (r ts).map g) L C ts := by
  cases h with
  | done hL hK hr => exact .done hL hK fun rest' h => by rw [hr rest' h]; rfl
  | stopped hL hK hr => exact .stopped hL hK (by rw [hr]; rfl)
  | tooDeep hr => exact .tooDeep (by rw [hr]; rfl)

theorem head?_append_of_head? {us vs : List Token} {y : List Token.Kind}
    (h : y.head? = (kinds vs).head?) : (kinds us ++ y).head? = (kinds (us ++ vs)).head? := by
  cases us <;> simp [h]

theorem exists_cons_of_head? {ts' : List Token}
    (h : (kinds ts').head? = (kinds (t :: ts)).head?) :
    ∃ t' us, ts' = t' :: us ∧ t'.kind = t.kind := by
  cases ts' with
  | nil => cases h
  | cons t' us => exact ⟨t', us, rfl, by simpa using h⟩

theorem Alike.refl (C : List Token.Kind) (ts : List Token) : Alike C ts ts := .inl rfl

theorem Alike.mono {ts' : List Token} (h : Alike C' ts ts') (hC : C ⊆ C') : Alike C ts ts' :=
  h.imp_right fun h k hk hkC => h k hk (hC hkC)

theorem Alike.notMem {S : List Token.Kind} {ts' : List Token} (h : Alike C ts ts') (hS : S ⊆ C)
    (ht : ∀ t ∈ ts.head?, t.kind ∉ S) : ∀ t ∈ ts'.head?, t.kind ∉ S := by
  intro t' ht'
  rw [Option.mem_def] at ht'
  rcases h with h | h
  · obtain ⟨t, hts, hk⟩ : ∃ t, ts.head? = some t ∧ t.kind = t'.kind := by
      simpa [ht', eq_comm] using h
    exact hk ▸ ht t hts
  · exact fun hk => h t'.kind (by simp [ht']) (hS hk)

/-- Two readers that agree on lists with the same first kind, and on what may stand behind an empty
word. -/
theorem Parses.congr {r' : List Token → Reading β α} (h : Parses r' L C ts)
    (hr : ∀ ts', (kinds ts').head? = (kinds ts).head? → r ts' = r' ts')
    (hnil : [] ∈ L → ∀ ts', (∀ k ∈ (kinds ts').head?, k ∉ C) → r ts' = r' ts') :
    Parses r L C ts := by
  cases h with
  | @done a us rest hL hK hr' =>
    refine .done hL hK fun rest' h => Eq.trans ?_ (hr' _ h)
    obtain _ | ⟨u, us⟩ := us
    · exact h.elim (hr _) (hnil hL _)
    · exact hr _ rfl
  | stopped hL hK hr' => exact .stopped hL hK ((hr _ rfl).trans hr')
  | tooDeep hr' => exact .tooDeep ((hr _ rfl).trans hr')

/-- One thing after another. -/
theorem Parses.andThen {f : α → List Token → Reading β γ} (h : Parses r L C ts)
    (hf : ∀ a us rest, ts = us ++ rest → r ts = .done a rest → Parses (f a) M C' rest)
    (hM : ∃ w, w ∈ M) (hC : ∀ K, Clear C' K → Clear C (M * K)) :
    Parses (fun ts => (r ts).andThen f) (L * M) C' ts := by
  cases h with
  | @done a us rest hL hK hr =>
    have hfa := hf a us rest rfl (hr rest (.refl _ _))
    cases hfa with
    | @done c us₂ rest₂ hL₂ hK₂ hr₂ =>
      rw [← List.append_assoc]
      refine .done (a := c) ?_ (fun K hCK y hy hw => ?_) fun rest' hrest => ?_
      · simpa using Language.append_mem_mul hL hL₂
      · rw [mul_assoc] at hw
        refine hK₂ K hCK y hy (hK _ (hC K hCK) _ (head?_append_of_head? hy) ?_)
        simpa using hw
      · simp only [List.append_assoc]
        rw [hr _ ?_]
        · exact hr₂ rest' hrest
        · obtain _ | ⟨u, us₂⟩ := us₂
          · refine hrest.imp_right fun hrest k hk hkC => ?_
            -- a word that begins with `k` may follow at once
            have hclear : Clear C (M * {[k]}) := hC _ fun j hj w hw => by
              cases hw
              exact hrest _ hk hj
            exact hclear k hkC [] (Language.append_mem_mul hL₂ (Set.mem_singleton _))
          · exact .inl rfl
    | @stopped b what us₂ vs hL₂ hK₂ hr₂ =>
      rw [← List.append_assoc]
      refine .stopped (b := b) (e := what) ?_ (fun K hCK y hy hw => ?_) ?_
      · obtain ⟨w, hw⟩ := hL₂
        exact ⟨w, by simpa using Language.append_mem_mul hL hw⟩
      · rw [mul_assoc] at hw
        refine hK₂ K hCK y hy (hK _ (hC K hCK) _ (head?_append_of_head? hy) ?_)
        simpa using hw
      · simp only [List.append_assoc]
        rw [hr _ (.refl _ _)]
        exact hr₂
    | tooDeep hr₂ => exact .tooDeep (by rw [hr _ (.refl _ _)]; exact hr₂)
  | stopped hL hK hr =>
    refine .stopped ?_ (fun K hCK y hy hw => ?_) (by rw [hr]; rfl)
    · obtain ⟨w, hw⟩ := hL
      obtain ⟨v, hv⟩ := hM
      exact ⟨w ++ v, by simpa using Language.append_mem_mul hw hv⟩
    · rw [mul_assoc] at hw
      exact hK _ (hC K hCK) y hy hw
  | tooDeep hr => exact .tooDeep (by rw [hr]; rfl)

/-- What is read behind the first token. -/
theorem Parses.head (h : Parses (fun ts => r (t :: ts)) (tails t.kind L) C ts)
    (hC : [] ∈ L → t.kind ∈ C) : Parses r L C (t :: ts) := by
  have hmul {K : Language Token.Kind} {us : List Token} {y : List Token.Kind} (hK : Clear C K)
      (h : kinds (t :: us) ++ y ∈ L * K) : kinds us ++ y ∈ tails t.kind L * K := by
    obtain ⟨u, hu, v, hv, huv⟩ := h
    rcases List.append_eq_cons_iff.mp huv with ⟨rfl, rfl⟩ | ⟨w, rfl, hw⟩
    · exact absurd hv (hK _ (hC hu) _)
    · exact ⟨w, hu, v, hv, hw.symm⟩
  cases h with
  | done hL hK hr =>
    exact .done (u := t :: _) hL (fun K hCK y hy hw => hK K hCK y hy (hmul hCK hw)) hr
  | stopped hL hK hr =>
    exact .stopped (u := t :: _) hL (fun K hCK y hy hw => hK K hCK y hy (hmul hCK hw)) hr
  | tooDeep hr => exact .tooDeep hr

/-- Nothing is taken if no word goes on with the first token. -/
theorem Parses.leave {a : α} (hL : [] ∈ L) (ht : ∀ t ∈ ts.head?, tails t.kind L = 0)
    (hr : ∀ ts', Alike C ts ts' → r ts' = .done a ts') : Parses r L C ts := by
  refine .done (u := []) hL (fun K hCK y hy hw => ?_) hr
  obtain ⟨u, hu, v, hv, rfl⟩ := hw
  obtain _ | ⟨k, u⟩ := u
  · exact hv
  · obtain _ | ⟨t, ts⟩ := ts
    · cases hy
    · obtain rfl : k = t.kind := by simpa using hy
      have hu : u ∈ tails t.kind L := hu
      rw [ht t rfl] at hu
      exact absurd hu (Language.notMem_zero _)

/-- If no word begins with the first token, this is where the reader has to stop. -/
theorem Parses.refuse {b : β} {e : Expected} (hL : [] ∉ L) (hw : ∃ w, w ∈ L)
    (ht : ∀ t ∈ ts.head?, tails t.kind L = 0) (hr : r ts = .stopped b (unexpected e ts)) :
    Parses r L C ts := by
  refine .stopped (u := []) hw (fun K hCK y hy h => ?_) hr
  obtain ⟨u, hu, v, hv, rfl⟩ := h
  obtain _ | ⟨k, u⟩ := u
  · exact hL hu
  · obtain _ | ⟨t, ts⟩ := ts
    · cases hy
    · obtain rfl : k = t.kind := by simpa using hy
      have hu : u ∈ tails t.kind L := hu
      rw [ht t rfl] at hu
      exact absurd hu (Language.notMem_zero _)

/-- What may be left out begins with the first token. -/
theorem Parses.orSkip (h : Parses r L C (t :: ts)) (ht : t.kind ∈ C) :
    Parses r (1 + L) C (t :: ts) := by
  generalize hl : t :: ts = l at h
  have hmul {K : Language Token.Kind} {us vs : List Token} {y : List Token.Kind}
      (hus : t :: ts = us ++ vs) (hK : Clear C K) (hy : y.head? = (kinds vs).head?)
      (h : kinds us ++ y ∈ (1 + L) * K) : kinds us ++ y ∈ L * K := by
    rw [add_mul, one_mul] at h
    refine h.resolve_left fun hw => ?_
    have hhead : (kinds us ++ y).head? = (kinds (us ++ vs)).head? := head?_append_of_head? hy
    rw [← hus] at hhead
    obtain ⟨w, hw'⟩ : ∃ w, kinds us ++ y = t.kind :: w := List.head?_eq_some_iff.mp hhead
    exact hK _ ht w (hw' ▸ hw)
  cases h with
  | done hL hK hr =>
    exact .done (.inr hL) (fun K hCK y hy hw => hK K hCK y hy (hmul hl hCK hy hw)) hr
  | stopped hL hK hr =>
    obtain ⟨w, hw⟩ := hL
    exact .stopped ⟨w, .inr hw⟩ (fun K hCK y hy hw => hK K hCK y hy (hmul hl hCK hy hw)) hr
  | tooDeep hr => exact .tooDeep hr

/-- What there is does not begin like the words of `M`. -/
theorem Parses.orOther (h : Parses r L C ts) (hM : [] ∉ M)
    (ht : ∀ t ∈ ts.head?, tails t.kind M = 0) : Parses r (L + M) C ts := by
  have hmul {K : Language Token.Kind} {w : List Token.Kind} (hw : w.head? = (kinds ts).head?)
      (h : w ∈ (L + M) * K) : w ∈ L * K := by
    obtain ⟨u, hu | hu, v, hv, rfl⟩ := h
    · exact ⟨u, hu, v, hv, rfl⟩
    · obtain _ | ⟨k, u⟩ := u
      · exact absurd hu hM
      · obtain _ | ⟨t, ts⟩ := ts
        · cases hw
        · obtain rfl : k = t.kind := by simpa using hw
          have hu : u ∈ tails t.kind M := hu
          rw [ht t rfl] at hu
          exact absurd hu (Language.notMem_zero _)
  cases h with
  | done hL hK hr =>
    exact .done (.inl hL)
      (fun K hCK y hy hw => hK K hCK y hy (hmul (head?_append_of_head? hy) hw)) hr
  | stopped hL hK hr =>
    obtain ⟨w, hw⟩ := hL
    exact .stopped ⟨w, .inl hw⟩
      (fun K hCK y hy hw => hK K hCK y hy (hmul (head?_append_of_head? hy) hw)) hr
  | tooDeep hr => exact .tooDeep hr

theorem Parses.length_lt (h : Parses r L C ts) (hL : [] ∉ L) {a : α} {rest : List Token}
    (hr : r ts = .done a rest) : rest.length < ts.length := by
  cases h with
  | @done a' us rest' hw hK hr' =>
    obtain ⟨rfl, rfl⟩ := Reading.done.inj ((hr' rest' (.refl _ _)).symm.trans hr)
    obtain _ | ⟨u, us⟩ := us
    · exact absurd hw hL
    · simp only [List.cons_append, List.length_cons, List.length_append]
      omega
  | stopped _ _ hr' => exact absurd (hr'.symm.trans hr) (by simp)
  | tooDeep hr' => exact absurd (hr'.symm.trans hr) (by simp)

end

/-! ### Combining readers for rules -/

section

variable {C C' : List Token.Kind} {R S : Rule} {r : List Token → Reading β α}

theorem Recognizes.mono (h : Recognizes r R C) (hC : C ⊆ C') : Recognizes r R C' := by
  intro ts
  have hclear {K : Language Token.Kind} (hK : Clear C' K) : Clear C K := fun k hk => hK k (hC hk)
  cases h ts with
  | done hL hK hr =>
    exact .done hL (fun K hCK => hK K (hclear hCK)) fun rest' h => hr rest' (h.mono hC)
  | stopped hL hK hr => exact .stopped hL (fun K hCK => hK K (hclear hCK)) hr
  | tooDeep hr => exact .tooDeep hr

theorem Recognizes.phrase {p : Phrase} (h : Recognizes r p.rule C) : Recognizes r (phrase p) C := by
  intro ts
  rw [language_phrase]
  exact h ts

theorem Recognizes.of_language_eq (h : Recognizes r R C) (hL : R.language = S.language) :
    Recognizes r S C := fun ts => hL ▸ h ts

theorem Recognizes.mapPart (h : Recognizes r R C) (g : β → δ) :
    Recognizes (fun ts => (r ts).mapPart g) R C := fun ts => (h ts).mapPart g

theorem Recognizes.map (h : Recognizes r R C) (g : α → γ) :
    Recognizes (fun ts => (r ts).map g) R C := fun ts => (h ts).map g

/-- The last step only puts things together. -/
theorem Recognizes.finish (h : Recognizes r R C) (g : α → γ) :
    Recognizes (fun ts => (r ts).andThen fun a rest => .done (g a) rest) R C := by
  have hmap : (fun ts => (r ts).andThen fun a rest => .done (g a) rest) = fun ts => (r ts).map g :=
    funext fun ts => by cases r ts <;> rfl
  rw [hmap]
  exact h.map g

theorem Recognizes.andThen {f : α → List Token → Reading β γ} (h : Recognizes r R C)
    (hf : ∀ a, Recognizes (f a) S C') (hS : S.Separates C C' := by decide) :
    Recognizes (fun ts => (r ts).andThen f) (R * S) C' := by
  intro ts
  rw [language_mul]
  exact (h ts).andThen (fun a _ rest _ _ => hf a rest) S.exists_derives fun K hK => hK.mul hS

end

/-! ### Repetition -/

section

variable {σ : Type} {loop : (fuel : Nat) → σ → List Token → Reading β α}
  {starts : Token.Kind → Bool} {body : σ → List Token → Reading β ε} {next : ε → σ}
  {last : σ → α} {more : ε → α → α} {morePart : ε → β → β} {R : Rule} {C C' : List Token.Kind}

/-- The loop reads another round as long as one starts, and has fuel enough for one round a token.
What a round yields goes into the state of the next rounds, or is added to what they yield. -/
structure Repeats (loop : (fuel : Nat) → σ → List Token → Reading β α)
    (starts : Token.Kind → Bool) (body : σ → List Token → Reading β ε) (next : ε → σ)
    (last : σ → α) (more : ε → α → α) (morePart : ε → β → β) : Prop where
  stop {fuel : Nat} {s : σ} {ts : List Token} (hfuel : ts.length ≤ fuel)
    (ht : ∀ t ∈ ts.head?, starts t.kind = false) : loop fuel s ts = .done (last s) ts
  step {fuel : Nat} {s : σ} {t : Token} {ts : List Token} (ht : starts t.kind = true) :
    loop (fuel + 1) s (t :: ts) = (body s (t :: ts)).andThen fun e rest =>
      ((loop fuel (next e) rest).map (more e)).mapPart (morePart e)

namespace Repeats

variable (h : Repeats loop starts body next last more morePart)
include h

theorem fuel_irrelevant
    (hlen : ∀ s t ts e rest, starts t.kind = true → body s (t :: ts) = .done e rest →
      rest.length ≤ ts.length) {m n : Nat} {s : σ} {ts : List Token} (hm : ts.length ≤ m)
    (hn : ts.length ≤ n) : loop m s ts = loop n s ts := by
  induction m generalizing n s ts with
  | zero =>
    obtain rfl : ts = [] := by simpa using hm
    rw [h.stop hm nofun, h.stop hn nofun]
  | succ m ih =>
    obtain _ | ⟨t, ts⟩ := ts
    · rw [h.stop hm nofun, h.stop hn nofun]
    · obtain ht | ht := Bool.eq_false_or_eq_true (starts t.kind)
      · obtain ⟨n, rfl⟩ : ∃ n', n = n' + 1 := ⟨n - 1, by simp at hn; omega⟩
        rw [h.step ht, h.step ht]
        cases hb : body s (t :: ts) with
        | stopped b e => rfl
        | done e rest =>
          have hle := hlen _ _ _ _ _ ht hb
          simp only [List.length_cons] at hm hn
          simp only [Reading.andThen]
          rw [ih (n := n) (by omega) (by omega)]
      · rw [h.stop hm (by simpa using ht), h.stop hn (by simpa using ht)]

/-- A loop is right for any number of what one round is right for. -/
theorem recognizes
    (hbody : ∀ s t ts, starts t.kind = true → Parses (body s) R.language C (t :: ts))
    (hR : R.nullable = false) (hstarts : ∀ k, starts k = decide (k ∈ R.starts))
    (hC' : R.starts ⊆ C') (hS : (many R).Separates C C') (s : σ) :
    Recognizes (fun ts => loop ts.length s ts) (many R) C' := by
  have hlen (s : σ) (t : Token) (ts : List Token) (e : ε) (rest : List Token)
      (ht : starts t.kind = true) (he : body s (t :: ts) = .done e rest) :
      rest.length ≤ ts.length :=
    Nat.lt_succ_iff.mp ((hbody s t ts ht).length_lt (nil_notMem_language hR) he)
  intro ts
  generalize hn : ts.length = n
  induction n using Nat.strong_induction_on generalizing s ts with
  | _ n ih =>
    have hleave (ht : ∀ t ∈ ts.head?, starts t.kind = false) :
        Parses (fun ts => loop ts.length s ts) (many R).language C' ts := by
      have ht (t : Token) (h : t ∈ ts.head?) : t.kind ∉ R.starts := by
        simpa [hstarts] using ht t h
      refine .leave .nil (fun t h => tails_eq_zero (ht t h)) fun ts' hts =>
        h.stop le_rfl fun t h => ?_
      simpa [hstarts] using hts.notMem hC' ht t h
    obtain _ | ⟨t, ts⟩ := ts
    · exact hleave (by simp)
    · obtain ht | ht := Bool.eq_false_or_eq_true (starts t.kind)
      · have hk : t.kind ∈ R.starts := by simpa [hstarts] using ht
        have hround : Parses (fun ts => (body s ts).andThen fun e rest =>
            ((loop rest.length (next e) rest).map (more e)).mapPart (morePart e))
            (R * many R).language C' (t :: ts) := by
          rw [language_mul]
          refine (hbody s t ts ht).andThen (fun e us rest hts he => ?_) ⟨[], .nil⟩
            fun K hK => hK.mul hS
          have hle := hlen _ _ _ _ _ ht he
          simp only [List.length_cons] at hn
          exact ((ih rest.length (by omega) (next e) rest rfl).map _).mapPart _
        rw [language_many_eq]
        refine (hround.congr (fun ts' hts => ?_) fun hw => ?_).orSkip (hC' hk)
        · obtain ⟨t', ts', rfl, ht'⟩ := exists_cons_of_head? hts
          rw [← ht'] at ht
          rw [List.length_cons, h.step ht]
          cases hb : body s (t' :: ts') with
          | stopped b e => rfl
          | done e rest =>
            simp only [Reading.andThen]
            rw [h.fuel_irrelevant hlen (hlen _ _ _ _ _ ht hb) le_rfl]
        · exact absurd hw (nil_notMem_language (by simp [Rule.nullable, hR]))
      · exact hleave (by simpa using ht)

end Repeats

end

/-! ### Single tokens -/

section

variable {C : List Token.Kind} (k : Token.Kind)

theorem parses_done (a : α) (ts : List Token) :
    Parses (fun ts => (.done a ts : Reading β α)) 1 C ts :=
  .leave rfl (fun _ _ => tails_one) fun _ _ => rfl

theorem recognizes_expect (what : Expected) : Recognizes (expect k what) (token k) C := by
  rintro (_ | ⟨t, ts⟩)
  · exact .refuse (nil_notMem_language rfl) ⟨_, .token k⟩ (by simp) rfl
  · by_cases ht : t.kind = k
    · refine .head ?_ fun h => absurd h (nil_notMem_language rfl)
      rw [tails_token, if_pos ht]
      simpa [expect, ht] using parses_done t ts
    · refine .refuse (b := ()) (e := what) (nil_notMem_language rfl) ⟨_, .token k⟩
        (fun u hu => ?_) (by simp [expect, ht])
      cases hu
      rw [tails_token, if_neg ht]

/-- Takes a token of the kind if there is one. -/
def Reading.optional (ts : List Token) : Reading β (Option Token) :=
  .done (accept k ts).1 (accept k ts).2

theorem recognizes_optional :
    Recognizes (Reading.optional k : List Token → Reading β (Option Token)) (opt (token k))
      [k] := by
  have hleave {ts : List Token} (h : ∀ t ∈ ts.head?, t.kind ∉ [k]) :
      (Reading.optional k ts : Reading β (Option Token)) = .done none ts := by
    obtain _ | ⟨t, ts⟩ := ts
    · rfl
    · have ht : t.kind ≠ k := by simpa using h
      simp [Reading.optional, accept, ht]
  rintro (_ | ⟨t, ts⟩)
  · exact .leave .none (by simp) fun ts' h =>
      hleave (h.notMem (List.Subset.refl _) (by simp))
  · by_cases ht : t.kind = k
    · refine .head ?_ fun _ => by simp [ht]
      rw [tails_opt, tails_token, if_pos ht]
      simpa [Reading.optional, accept, ht] using parses_done (some t) ts
    · refine .leave .none (fun u hu => ?_) fun ts' h =>
        hleave (h.notMem (List.Subset.refl _) (by simpa using ht))
      cases hu
      rw [tails_opt, tails_token, if_neg ht]

/-- Goes on in one of two ways, depending on whether there is a token of the kind. -/
theorem parses_accept {r p : List Token → Reading β α} {q : Token → List Token → Reading β α}
    {L : Language Token.Kind} {R : Rule}
    (hnone : ∀ ts, accept k ts = (none, ts) → r ts = p ts)
    (hsome : ∀ t ts, accept k (t :: ts) = (some t, ts) → r (t :: ts) = q t ts)
    (hp : ∀ ts, Parses p L C ts) (hq : ∀ t, Recognizes (q t) R C) (hL : tails k L = 0)
    (hk : k ∈ C) (ts : List Token) : Parses r (L + (token k * R).language) C ts := by
  have haccept {ts : List Token} (h : (kinds ts).head? ≠ some k) : accept k ts = (none, ts) := by
    cases ts with
    | nil => rfl
    | cons t ts =>
      have ht : t.kind ≠ k := by simpa using h
      simp [accept, ht]
  have hother (h : (kinds ts).head? ≠ some k) : Parses r (L + (token k * R).language) C ts := by
    refine ((hp ts).orOther (nil_notMem_language rfl) fun t ht => ?_).congr
      (fun ts' hts => hnone _ (haccept (hts ▸ h)))
      fun _ ts' hts => hnone _ (haccept fun h => hts k h hk)
    have ht : t.kind ≠ k := by
      rw [Option.mem_def] at ht
      simpa [ht] using h
    rw [tails_token_mul, if_neg ht]
  obtain _ | ⟨t, ts⟩ := ts
  · exact hother (by simp)
  · by_cases ht : t.kind = k
    · refine .head ?_ fun _ => ht ▸ hk
      have htails : tails t.kind (L + (token k * R).language) = R.language := by
        subst ht
        exact (congrArg₂ (· + ·) hL ((tails_token_mul _ _).trans (if_pos rfl))).trans (zero_add _)
      rw [htails]
      simpa only [hsome t _ (by simp [accept, ht])] using hq t ts
    · exact hother (by simpa using ht)

end

end Lookahead
