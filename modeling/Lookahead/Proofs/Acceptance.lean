import Lookahead.Grammar
import Lookahead.Proofs.Productions
import Lookahead.Proofs.Recognition

/-!
# Which texts are definitions

Each reader is right for the rule of what it reads, from factors up to whole definitions
(`Definition.recognizes_readTokens`). So a text is a grammar if its tokens start with a sentence,
and what is reported otherwise is where they stop being the start of one
(`Grammar.sentence_of_parse`).
What stands behind the sentence makes no difference (`Grammar.unread_of_parse`).
-/

namespace Lookahead

open Rule

/-! ### Expressions -/

section

variable {α : Type} {starts : Token.Kind → Bool} {factor term : ExprReader α} {R : Rule}
  {C C' : List Token.Kind}

namespace ExprReader

theorem repeats_moreFactors :
    Repeats (moreFactors starts factor) starts
      (fun e ts => ((factor ts).map (.seq e)).mapPart (.seq e)) id id (fun _ => id)
      fun _ => id where
  stop {fuel e ts} hfuel ht := by
    cases fuel <;> cases ts <;> simp_all [moreFactors]
  step {fuel e t ts} ht := by
    simp only [moreFactors, ht, if_true]
    cases factor (t :: ts) with
    | done f rest =>
      simp only [Reading.map, Reading.mapPart, Reading.andThen, id]
      cases moreFactors starts factor fuel (.seq e f) rest <;> rfl
    | stopped f err => rfl

theorem repeats_moreAlternatives :
    Repeats (moreAlternatives term) (· == .bar)
      (fun e ts => ((term ts.tail).map (.alt e)).mapPart (.alt e)) id id (fun _ => id)
      fun _ => id where
  stop {fuel e ts} hfuel ht := by
    cases fuel <;> cases ts <;> simp_all [moreAlternatives]
  step {fuel e t ts} ht := by
    simp only [moreAlternatives, beq_iff_eq.mp ht, if_true, List.tail_cons]
    cases term ts with
    | done f rest =>
      simp only [Reading.map, Reading.mapPart, Reading.andThen, id]
      cases moreAlternatives term fuel (.alt e f) rest <;> rfl
    | stopped f err => rfl

theorem recognizes_moreFactors (h : Recognizes factor R C) (hR : R.nullable = false)
    (hstarts : ∀ k, starts k = decide (k ∈ R.starts)) (hC' : R.starts ⊆ C')
    (hS : (many R).Separates C C') (e : Expr α) :
    Recognizes (fun ts => moreFactors starts factor ts.length e ts) (many R) C' :=
  repeats_moreFactors.recognizes (fun _ _ _ _ => ((h _).map _).mapPart _) hR hstarts hC' hS e

theorem recognizes_factors (h : Recognizes factor R C) (hR : R.nullable = false)
    (hstarts : ∀ k, starts k = decide (k ∈ R.starts)) (hC' : R.starts ⊆ C')
    (hS : (many R).Separates C C') : Recognizes (factors starts factor) (R * many R) C' :=
  h.andThen (recognizes_moreFactors h hR hstarts hC' hS) hS

theorem recognizes_alternatives (h : Recognizes term R C) (hC' : .bar ∈ C')
    (hS : (many (token .bar * R)).Separates C C') :
    Recognizes (alternatives term) (R * many (token .bar * R)) C' := by
  have hbar : (token .bar * R).starts = [.bar] := rfl
  refine h.andThen (fun e => repeats_moreAlternatives.recognizes (C := C) (fun e t ts ht => ?_) rfl
    (fun k => ?_) (by simpa [hbar] using hC') hS e) hS
  · refine .head ?_ fun h => absurd h (nil_notMem_language rfl)
    rw [tails_token_mul, if_pos (beq_iff_eq.mp ht)]
    exact ((h ts).map _).mapPart _
  · rw [hbar, Bool.eq_iff_iff]
    simp

theorem recognizes_close {content : ExprReader α} (h : Recognizes content R C) (b : Bracket)
    (hC : b.closing ∉ C) :
    Recognizes (fun ts => close b (content ts)) (R * token b.closing) [] := by
  have hclose : (fun ts => close b (content ts)) = fun ts => (content ts).andThen fun e rest =>
      ((expect b.closing b.closingExpected rest).mapPart fun _ => e).map fun _ => .group b e := by
    funext ts
    cases content ts with
    | stopped e err => rfl
    | done e rest =>
      simp only [close, Reading.andThen]
      cases expect b.closing b.closingExpected rest <;> rfl
  rw [hclose]
  refine h.andThen (fun e => ((recognizes_expect _ _).mapPart _).map _) fun k hk =>
    ⟨?_, by simp [Rule.nullable]⟩
  rintro (_ | ⟨_, ⟨⟩⟩)
  exact hC hk

/-- Groups are read if their contents are, to any depth. -/
theorem recognizes_groups {content : GroupReader α → ExprReader α}
    (hcontent : ∀ g, (∀ t b, Recognizes (g t b) (R * token b.closing) []) →
      Recognizes (content g) R C)
    (hC : ∀ b : Bracket, b.closing ∉ C) (room : Nat) :
    ∀ t b, Recognizes (groups content room t b) (R * token b.closing) [] := by
  induction room with
  | zero => exact fun t b ts => .tooDeep rfl
  | succ room ih => exact fun t b => recognizes_close (hcontent _ ih) b (hC b)

end ExprReader

end

namespace Atom

theorem startsFactor_eq (k : Token.Kind) :
    startsFactor k = decide (k ∈ (phrase .factor).starts) := by
  cases k with
  | keyword k => cases k <;> rfl
  | _ => rfl

theorem parses_readSymbol {weak : Bool} {t : Token}
    (ht : t.kind = .ident ∨ t.kind = .string ∨ t.kind = .char) (ts : List Token) :
    Parses (fun ts => readSymbol weak (t :: ts)) (opt (token .attributes)).language [.attributes]
      ts := by
  simp only [readSymbol, ht, if_true]
  exact (recognizes_optional .attributes).finish (fun a => Expr.atom (symbol weak t a)) ts

theorem recognizes_readSymbol (weak : Bool) :
    Recognizes (readSymbol weak)
      ((token .ident + token .string + token .char) * opt (token .attributes)) [.attributes] := by
  rintro (_ | ⟨t, ts⟩)
  · exact .refuse (nil_notMem_language rfl) (exists_derives _) (by simp) rfl
  · by_cases ht : t.kind = .ident ∨ t.kind = .string ∨ t.kind = .char
    · refine .head ?_ fun h => absurd h (nil_notMem_language rfl)
      rcases ht with ht | ht | ht <;> simpa [ht] using parses_readSymbol (by simp [ht]) ts
    · refine .refuse (b := .empty) (e := .identOrString) (nil_notMem_language rfl)
        (exists_derives _) (fun u hu => ?_) (by simp [readSymbol, ht])
      cases hu
      exact tails_eq_zero (by simpa [Rule.starts, Rule.nullable] using ht)

variable {group : GroupReader Atom}

theorem recognizes_readFactor
    (hg : ∀ t b, Recognizes (group t b) (phrase .expr * token b.closing) []) :
    Recognizes (readFactor group) (phrase .factor) [.attributes] := by
  have hgroup (t : Token) (b : Bracket) := (hg t b).mono (List.nil_subset [.attributes])
  have hstop (t : Token) (ts : List Token) (ht : startsFactor t.kind = false) :
      readFactor group (t :: ts) = .stopped .empty (unexpected .factor (t :: ts)) := by
    rcases hk : t.kind with _ | _ <;> simp_all [readFactor, startsFactor, Bracket.ofOpening?]
    split <;> simp_all
  refine .phrase ?_
  rintro (_ | ⟨t, ts⟩)
  · exact .refuse (nil_notMem_language rfl) (exists_derives _) (by simp) rfl
  · obtain ht | ht := Bool.eq_false_or_eq_true (startsFactor t.kind)
    · refine .head ?_ fun h => absurd h (nil_notMem_language rfl)
      rw [startsFactor_eq, decide_eq_true_iff] at ht
      simp only [Rule.starts, Phrase.starts, List.mem_cons, List.not_mem_nil, or_false] at ht
      rcases ht with ht | ht | ht | ht | ht | ht | ht | ht | ht | ht
      · simpa [Phrase.rule, readFactor, ht] using recognizes_readSymbol true ts
      iterate 3
        simpa [Phrase.rule, readFactor, ht] using parses_readSymbol (by simp [ht]) ts
      · simpa [Phrase.rule, readFactor, Bracket.ofOpening?, Bracket.closing, ht] using
          hgroup t .round ts
      · simpa [Phrase.rule, readFactor, Bracket.ofOpening?, Bracket.closing, ht] using
          hgroup t .square ts
      · simpa [Phrase.rule, readFactor, Bracket.ofOpening?, Bracket.closing, ht] using
          hgroup t .curly ts
      iterate 3
        simpa [Phrase.rule, readFactor, ht] using parses_done _ ts
    · refine .refuse (nil_notMem_language rfl) (exists_derives _) (fun u hu => ?_) (hstop t ts ht)
      cases hu
      refine tails_eq_zero fun h => ?_
      rw [startsFactor_eq, decide_eq_false_iff_not] at ht
      exact ht (starts_rule _ _ h)

/-- What a term cannot be followed by. -/
def guards : List Token.Kind := .attributes :: (phrase .term).starts

theorem recognizes_readTerm
    (hg : ∀ t b, Recognizes (group t b) (phrase .expr * token b.closing) []) :
    Recognizes (readTerm group) (phrase .term) guards := by
  have hfactor := recognizes_readFactor hg
  have hmore (e : Expr Atom) : Recognizes (fun ts =>
      ExprReader.moreFactors startsFactor (readFactor group) ts.length e ts)
      (many (phrase .factor)) guards :=
    ExprReader.recognizes_moreFactors hfactor rfl startsFactor_eq (by decide) (by decide) e
  have hfactors : Recognizes (ExprReader.factors startsFactor (readFactor group))
      (phrase .factor * many (phrase .factor)) guards :=
    ExprReader.recognizes_factors hfactor rfl startsFactor_eq (by decide) (by decide)
  have hleave {ts : List Token} (h : ∀ t ∈ ts.head?, t.kind ∉ (phrase .term).starts) :
      readTerm group ts = .done .empty ts := by
    obtain _ | ⟨t, ts⟩ := ts
    · rfl
    · simp_all [readTerm, startsFactor_eq, Rule.starts, Phrase.starts]
  refine .phrase ?_
  rintro (_ | ⟨t, ts⟩)
  · exact .leave (.seq .none .nil) (by simp) fun ts' h =>
      hleave (h.notMem (List.subset_cons_self _ _) (by simp))
  · by_cases hr : t.kind = .resolver
    · refine .head ?_ fun _ => by simp [hr, guards, Rule.starts, Phrase.starts]
      have htails : tails t.kind Phrase.term.rule.language =
          (phrase .factor * many (phrase .factor)).language := by
        have hmany : tails Token.Kind.resolver (many (phrase .factor)).language = 0 :=
          tails_eq_zero (by decide)
        simp [Phrase.rule, hr, hmany]
      have hread : (fun ts => readTerm group (t :: ts)) = fun ts =>
          (((readFactor group ts).map (.seq (.atom (.resolver t)))).mapPart
            (.seq (.atom (.resolver t)))).andThen fun e rest =>
              ExprReader.moreFactors startsFactor (readFactor group) rest.length e rest := by
        funext ts
        simp only [readTerm, hr, if_true]
        cases readFactor group ts <;> rfl
      rw [htails, hread]
      exact ((hfactor.map _).mapPart _).andThen hmore (by decide) ts
    · rw [Phrase.rule, language_opt_mul]
      refine .orOther ?_ (nil_notMem_language rfl) fun u hu => by
        cases hu
        simp [hr]
      rw [language_many_eq]
      obtain hs | hs := Bool.eq_false_or_eq_true (startsFactor t.kind)
      · have hk : t.kind ∈ (phrase .factor).starts := by simpa [startsFactor_eq] using hs
        refine ((hfactors _).congr (fun ts' hts => ?_) fun hw => ?_).orSkip (.tail _ (.tail _ hk))
        · obtain ⟨t', ts', rfl, ht'⟩ := exists_cons_of_head? hts
          rw [← ht'] at hr hs
          simp [readTerm, hr, hs]
        · exact absurd hw (nil_notMem_language rfl)
      · have ht : t.kind ∉ (phrase .term).starts := by
          simp_all [startsFactor_eq, Rule.starts, Phrase.starts]
        refine .leave (a := .empty) (.inl rfl) (fun u hu => ?_) fun ts' hts => hleave ?_
        · cases hu
          rw [← language_many_eq]
          exact tails_eq_zero fun h => ht (.tail _ h)
        · exact hts.notMem (List.subset_cons_self _ _) (by simpa using ht)

/-- The right-hand side of a production. -/
theorem recognizes_readExpr : Recognizes readExpr (phrase .expr) (.bar :: guards) := by
  have hcontent (g : GroupReader Atom)
      (hg : ∀ t b, Recognizes (g t b) (phrase .expr * token b.closing) []) :
      Recognizes (ExprReader.alternatives (readTerm g)) (phrase .expr) (.bar :: guards) :=
    .phrase (ExprReader.recognizes_alternatives (recognizes_readTerm hg) (.head _) (by decide))
  exact hcontent _ (ExprReader.recognizes_groups hcontent (by rintro (_ | _) <;> decide) _)

end Atom

namespace TokenAtom

theorem startsFactor_eq (k : Token.Kind) :
    startsFactor k = decide (k ∈ (phrase .tokenFactor).starts) := by
  cases k with
  | keyword k => cases k <;> rfl
  | _ => rfl

variable {group : GroupReader TokenAtom}

theorem recognizes_readFactor
    (hg : ∀ t b, Recognizes (group t b) (phrase .tokenExpr * token b.closing) []) :
    Recognizes (readFactor group) (phrase .tokenFactor) [] := by
  have hstop (t : Token) (ts : List Token) (ht : startsFactor t.kind = false) :
      readFactor group (t :: ts) = .stopped .empty (unexpected .tokenFactor (t :: ts)) := by
    rcases hk : t.kind with _ | _ <;> simp_all [readFactor, startsFactor, Bracket.ofOpening?]
  refine .phrase ?_
  rintro (_ | ⟨t, ts⟩)
  · exact .refuse (nil_notMem_language rfl) (exists_derives _) (by simp) rfl
  · obtain ht | ht := Bool.eq_false_or_eq_true (startsFactor t.kind)
    · refine .head ?_ fun h => absurd h (nil_notMem_language rfl)
      rw [startsFactor_eq, decide_eq_true_iff] at ht
      simp only [Rule.starts, Phrase.starts, List.mem_cons, List.not_mem_nil, or_false] at ht
      rcases ht with ht | ht | ht | ht | ht | ht
      iterate 3
        simpa [Phrase.rule, readFactor, ht] using parses_done _ ts
      · simpa [Phrase.rule, readFactor, Bracket.ofOpening?, Bracket.closing, ht] using
          hg t .round ts
      · simpa [Phrase.rule, readFactor, Bracket.ofOpening?, Bracket.closing, ht] using
          hg t .square ts
      · simpa [Phrase.rule, readFactor, Bracket.ofOpening?, Bracket.closing, ht] using
          hg t .curly ts
    · refine .refuse (nil_notMem_language rfl) (exists_derives _) (fun u hu => ?_) (hstop t ts ht)
      cases hu
      refine tails_eq_zero fun h => ?_
      rw [startsFactor_eq, decide_eq_false_iff_not] at ht
      exact ht (starts_rule _ _ h)

/-- The context of a token, if it has one. -/
abbrev contextRule : Rule :=
  opt (keyword .context * token .lparen * phrase .tokenExpr * token .rparen)

theorem recognizes_readContext
    (hg : ∀ t b, Recognizes (group t b) (phrase .tokenExpr * token b.closing) [])
    (e : Expr TokenAtom) : Recognizes (readContext group e) contextRule [.keyword .context] := by
  have hgroup : Recognizes (fun ts =>
      ((expect .lparen .lparen ts).mapPart fun _ => e).andThen fun t rest =>
        ((group t .context rest).map (Expr.seq e)).mapPart (Expr.seq e))
      (token .lparen * (phrase .tokenExpr * token .rparen)) [] :=
    ((recognizes_expect (C := []) .lparen .lparen).mapPart _).andThen
      fun t => ((hg t .context).map _).mapPart _
  refine Recognizes.of_language_eq (R := opt (keyword .context * (token .lparen *
    (phrase .tokenExpr * token .rparen)))) ?_ (by simp only [language_opt, language_mul, mul_assoc])
  intro ts
  rw [language_opt]
  refine parses_accept _ (q := fun _ => _) (fun ts h => ?_) (fun t ts h => ?_)
    (parses_done e) (fun t => hgroup.mono (List.nil_subset _)) tails_one (.head _) ts
  · simp [readContext, h]
  · simp only [readContext, h]
    cases expect .lparen .lparen ts with
    | stopped b err => rfl
    | done t rest =>
      simp only [Reading.mapPart, Reading.andThen]
      cases group t .context rest <;> rfl

/-- What a term of a token cannot be followed by. -/
def guards : List Token.Kind := .keyword .context :: (phrase .tokenFactor).starts

theorem recognizes_readTerm
    (hg : ∀ t b, Recognizes (group t b) (phrase .tokenExpr * token b.closing) []) :
    Recognizes (readTerm group) (phrase .tokenTerm) guards := by
  have hfactors : Recognizes (ExprReader.factors startsFactor (readFactor group))
      (phrase .tokenFactor * many (phrase .tokenFactor)) (phrase .tokenFactor).starts :=
    ExprReader.recognizes_factors (recognizes_readFactor hg) rfl startsFactor_eq (by decide)
      (by decide)
  exact .phrase (hfactors.andThen
    (fun e => (recognizes_readContext hg e).mono (by decide)) (by decide))

/-- The structure of a token. -/
theorem recognizes_readExpr : Recognizes readExpr (phrase .tokenExpr) (.bar :: guards) := by
  have hcontent (g : GroupReader TokenAtom)
      (hg : ∀ t b, Recognizes (g t b) (phrase .tokenExpr * token b.closing) []) :
      Recognizes (ExprReader.alternatives (readTerm g)) (phrase .tokenExpr) (.bar :: guards) :=
    .phrase (ExprReader.recognizes_alternatives (recognizes_readTerm hg) (.head _) (by decide))
  exact hcontent _ (ExprReader.recognizes_groups hcontent (by rintro (_ | _) <;> decide) _)

end TokenAtom

/-! ### Sets -/

theorem SimpleSet.recognizes_read : Recognizes read (phrase .simpleSet) [.dotDot] := by
  refine .phrase ?_
  rintro (_ | ⟨t, ts⟩)
  · exact .refuse (nil_notMem_language rfl) (exists_derives _) (by simp) rfl
  · by_cases ht : t.kind ∈ (phrase .simpleSet).starts
    · refine .head ?_ fun h => absurd h (nil_notMem_language rfl)
      simp only [Rule.starts, Phrase.starts, List.mem_cons, List.not_mem_nil, or_false] at ht
      rcases ht with ht | ht | ht | ht
      iterate 2
        simpa [Phrase.rule, read, ht] using parses_done _ ts
      · have hrange (ts : List Token) := parses_accept (C := [.dotDot]) .dotDot
          (r := fun ts => read (t :: ts))
          (q := fun _ ts => ((expect .char .char ts).mapPart fun _ => [.char t]).map (.range t))
          (fun ts h => by simp [read, ht, h])
          (fun u ts h => by
            simp only [read, ht, h]
            cases expect .char .char ts <;> rfl)
          (parses_done (.char t)) (fun _ => ((recognizes_expect _ _).mapPart _).map _) tails_one
          (.head _) ts
        simpa [Phrase.rule, ht, language_opt] using hrange ts
      · simpa [Phrase.rule, read, ht] using parses_done _ ts
    · refine .refuse (b := []) (e := .set) (nil_notMem_language rfl) (exists_derives _)
        (fun u hu => ?_) ?_
      · cases hu
        exact tails_eq_zero fun h => ht (starts_rule _ _ h)
      · rcases hk : t.kind with _ | _ <;> simp_all [read, Rule.starts, Phrase.starts]

namespace SetTerm

/-- The set behind a sign. -/
def readTerm (minus : Bool) (ts : List Token) : Reading (List SetTerm) SetTerm :=
  ((SimpleSet.read ts).map fun s => ⟨minus, s⟩).mapPart (·.map fun s => ⟨minus, s⟩)

/-- Further terms, each with its sign. -/
def readMore (fuel : Nat) : List Token → Reading (List SetTerm) (List SetTerm)
  | [] => .done [] []
  | t :: ts =>
    match sign? t.kind with
    | none => .done [] (t :: ts)
    | some minus => readFrom minus fuel ts

theorem readFrom_succ (minus : Bool) (fuel : Nat) (ts : List Token) :
    readFrom minus (fuel + 1) ts = (readTerm minus ts).andThen fun s rest =>
      ((readMore fuel rest).map (s :: ·)).mapPart (s :: ·) := by
  rw [readFrom, readTerm]
  rcases SimpleSet.read ts with ⟨s, _ | ⟨t, rest⟩⟩ | ⟨part, err⟩
  · rfl
  · simp only [Reading.map, Reading.mapPart, Reading.andThen, readMore]
    cases sign? t.kind <;> rfl
  · rfl

theorem recognizes_readTerm (minus : Bool) :
    Recognizes (readTerm minus) (phrase .simpleSet) [.dotDot] :=
  (SimpleSet.recognizes_read.map _).mapPart _

/-- Whether the tokens start with a minus sign. -/
def startsMinus (ts : List Token) : Bool := ts.head?.any (·.kind == .minus)

theorem repeats_readMore :
    Repeats (fun fuel (_ : Unit) => readMore fuel) (fun k => (sign? k).isSome)
      (fun _ ts => readTerm (startsMinus ts) ts.tail) (fun _ => ()) (fun _ => [])
      (fun s ss => s :: ss) fun s ss => s :: ss where
  stop {fuel _ ts} _ ht := by
    cases ts <;> simp_all [readMore]
  step {fuel _ t ts} ht := by
    obtain ⟨minus, hm⟩ := Option.isSome_iff_exists.mp ht
    have hminus : startsMinus (t :: ts) = minus := by
      rcases hk : t.kind <;> simp_all [sign?, startsMinus]
    simp only [readMore, hm, readFrom_succ, hminus, List.tail_cons]

theorem recognizes_readMore :
    Recognizes (fun ts => readMore ts.length ts)
      (many ((token .plus + token .minus) * phrase .simpleSet)) [.dotDot, .plus, .minus] := by
  refine repeats_readMore.recognizes (C := [.dotDot]) (fun _ t ts ht => ?_) rfl (fun k => ?_)
    (by decide) (by decide) ()
  · refine .head ?_ fun h => absurd h (nil_notMem_language rfl)
    have htails : tails t.kind ((token .plus + token .minus) * phrase .simpleSet).language =
        (phrase .simpleSet).language := by
      rcases hk : t.kind <;> simp_all [sign?]
    rw [htails]
    exact recognizes_readTerm _ ts
  · cases k <;> rfl

theorem recognizes_readAll : Recognizes readAll (phrase .set) [.dotDot, .plus, .minus] := by
  have hread : readAll = fun ts => (readTerm false ts).andThen fun s rest =>
      ((readMore rest.length rest).map (s :: ·)).mapPart (s :: ·) := by
    funext ts
    rw [readAll, readFrom_succ]
    cases hs : readTerm false ts with
    | stopped => rfl
    | done s rest =>
      have hle := (recognizes_readTerm false ts).length_lt (nil_notMem_language rfl) hs
      simp only [Reading.andThen]
      rw [repeats_readMore.fuel_irrelevant (s := ()) (fun _ t ts s rest _ h =>
        ((recognizes_readTerm _ ts).length_lt (nil_notMem_language rfl) h).le) hle.le le_rfl]
  rw [hread]
  exact .phrase ((recognizes_readTerm false).andThen
    fun s => (recognizes_readMore.map _).mapPart _)

end SetTerm

/-! ### Declarations -/

theorem SetDecl.recognizes_read (name : Token) :
    Recognizes (SetDecl.read name) (token .equals * (phrase .set * token .dot)) [] :=
  ((recognizes_expect (C := []) _ _).mapPart _).andThen fun _ =>
    (SetTerm.recognizes_readAll.mapPart _).andThen fun _ =>
      ((recognizes_expect _ _).mapPart _).finish _

theorem TokenDecl.recognizes_read (broken : Token → Expr TokenAtom → Fragment) (name : Token) :
    Recognizes (TokenDecl.read broken name)
      (opt (token .equals * phrase .tokenExpr * token .dot) * opt (token .action))
      [.equals, .action] := by
  have haction {β : Type} (e : Option (Expr TokenAtom)) :
      Recognizes (fun ts => (.done ⟨name, e, (accept .action ts).1⟩ (accept .action ts).2 :
        Reading β TokenDecl)) (opt (token .action)) [.equals, .action] :=
    ((recognizes_optional .action).finish fun a => (⟨name, e, a⟩ : TokenDecl)).mono (by decide)
  have hbody := (TokenAtom.recognizes_readExpr.mapPart (broken name)).andThen fun e =>
    ((recognizes_expect (C := []) .dot .dot).mapPart fun _ => broken name e).andThen fun _ =>
      haction (some e)
  have hL : (opt (token .equals * phrase .tokenExpr * token .dot) * opt (token .action)).language =
      (opt (token .action)).language + (token .equals * (phrase .tokenExpr * (token .dot *
        opt (token .action)))).language := by
    rw [language_opt_mul]
    simp only [language_mul, mul_assoc]
  intro ts
  rw [hL]
  refine parses_accept .equals (q := fun _ => _) (fun ts h => ?_) (fun t ts h => ?_)
    (haction none) (fun _ => hbody) (tails_eq_zero (by decide)) (.head _) ts
  · simp [TokenDecl.read, h]
  · simp [TokenDecl.read, h]

theorem Production.recognizes_read (name : Token) :
    Recognizes (Production.read name) (opt (token .attributes) * (opt (token .action) *
      (token .equals * (phrase .expr * token .dot)))) [] := by
  have hbody (attributes locals : Option Token) : Recognizes (fun ts =>
      ((expect .equals .equals ts).mapPart fun _ =>
        Fragment.production ⟨name, attributes, locals, .empty⟩).andThen fun _ ts =>
      ((Atom.readExpr ts).mapPart fun e => .production ⟨name, attributes, locals, e⟩).andThen
        fun e ts =>
      ((expect .dot .dot ts).mapPart fun _ => .production ⟨name, attributes, locals, e⟩).andThen
        fun _ ts => .done (⟨name, attributes, locals, e⟩ : Production) ts)
      (token .equals * (phrase .expr * token .dot)) [] :=
    ((recognizes_expect (C := []) _ _).mapPart _).andThen fun _ =>
      (Atom.recognizes_readExpr.mapPart _).andThen fun _ =>
        ((recognizes_expect _ _).mapPart _).finish _
  exact (recognizes_optional .attributes).andThen fun attributes =>
    (recognizes_optional .action).andThen fun locals => hbody attributes locals

/-! ### Sections -/

section

variable {δ : Type} {starts : Token.Kind → Bool} {decl : DeclReader δ} {R : Rule}
  {C C' : List Token.Kind}

/-- One declaration. -/
def readOne (decl : DeclReader δ) : List Token → Reading (List δ × Fragment) δ
  | [] => .stopped ([], .nothing) (unexpected .ident [])
  | t :: ts => (decl t ts).mapPart fun part => ([], part)

theorem repeats_readMany :
    Repeats (fun fuel (_ : Unit) => readMany starts decl fuel) starts (fun _ => readOne decl)
      (fun _ => ()) (fun _ => []) (fun d ds => d :: ds) fun d p => (d :: p.1, p.2) where
  stop {fuel _ ts} hfuel ht := by
    cases fuel <;> cases ts <;> simp_all [readMany]
  step {fuel _ t ts} ht := by
    simp only [readMany, ht, if_true, readOne]
    cases decl t ts <;> rfl

theorem recognizes_readMany
    (hdecl : ∀ t ts, starts t.kind = true → Parses (decl t) (tails t.kind R.language) C ts)
    (hR : R.nullable = false) (hstarts : ∀ k, starts k = decide (k ∈ R.starts))
    (hC' : R.starts ⊆ C') (hS : (many R).Separates C C') :
    Recognizes (fun ts => readMany starts decl ts.length ts) (many R) C' := by
  refine repeats_readMany.recognizes (fun _ t ts ht => ?_) hR hstarts hC' hS ()
  exact .head ((hdecl t ts ht).mapPart _) fun h => absurd h (nil_notMem_language hR)

theorem recognizes_readSection {k : Keyword}
    (h : Recognizes (fun ts => readMany starts decl ts.length ts) (many R) C)
    (hk : .keyword k ∈ C) :
    Recognizes (readSection k starts decl) (opt (keyword k * many R)) C := by
  intro ts
  rw [language_opt]
  refine parses_accept (.keyword k) (q := fun _ => _) (fun ts h => ?_) (fun t ts h => ?_)
    (parses_done []) (fun _ => h) tails_one hk ts
  · simp [readSection, h]
  · simp [readSection, h]

end

namespace Definition

theorem recognizes_directives {β : Type} :
    Recognizes (fun ts => (.done (ts.takeWhile (·.kind == .directive))
      (ts.dropWhile (·.kind == .directive)) : Reading β (List Token)))
      (many (token .directive)) [.directive] := by
  have hleave {ts : List Token} (h : ∀ t ∈ ts.head?, t.kind ∉ [Token.Kind.directive]) :
      (.done (ts.takeWhile (·.kind == .directive)) (ts.dropWhile (·.kind == .directive)) :
        Reading β (List Token)) = .done [] ts := by
    cases ts <;> simp_all
  intro ts
  induction ts with
  | nil => exact .leave .nil (by simp) fun ts' h =>
      hleave (h.notMem (List.Subset.refl _) (by simp))
  | cons t ts ih =>
    by_cases ht : t.kind = .directive
    · refine .head ?_ fun _ => by simp [ht]
      rw [ht, tails_many_token]
      simpa [ht, Reading.map] using ih.map (t :: ·)
    · refine .leave .nil (fun u hu => ?_) fun ts' h =>
        hleave (h.notMem (List.Subset.refl _) (by simpa using ht))
      cases hu
      exact tails_eq_zero (by simpa [Rule.starts] using ht)

/-- What there is behind the directives. -/
def readSections (name : Token) (directives : List Token) :
    List Token → Reading (Sections × Fragment) Definition := fun ts =>
  let s : Sections := { directives := directives }
  ((readSection .characters isName SetDecl.read ts).mapPart fun p =>
    ({ s with sets := p.1 }, p.2)).andThen fun sets ts =>
  let s := { s with sets := sets }
  ((readSection .tokens isNameOrString (TokenDecl.read .token) ts).mapPart fun p =>
    ({ s with tokens := p.1 }, p.2)).andThen fun tokens ts =>
  let s := { s with tokens := tokens }
  ((readSection .pragmas isNameOrString (TokenDecl.read .pragma) ts).mapPart fun p =>
    ({ s with pragmas := p.1 }, p.2)).andThen fun pragmas ts =>
  let s := { s with pragmas := pragmas }
  (between s (expect (.keyword .productions) .productions ts)).andThen fun _ ts =>
  ((readMany isName Production.read ts.length ts).mapPart fun p =>
    ({ s with productions := p.1 }, p.2)).andThen fun productions ts =>
  let s := { s with productions := productions }
  (between s (expect (.keyword .ending) .ending ts)).andThen fun _ ts =>
  (between s (expect .ident .ident ts)).andThen fun last ts =>
  ((expect .dot .dot ts).mapPart fun _ => (s, .ending name last)).andThen fun _ ts =>
  .done ⟨name, s, last⟩ ts

theorem readTokens_eq_andThen : readTokens = fun ts =>
    (between {} (expect (.keyword .compiler) .compiler ts)).andThen fun _ ts =>
    (between {} (expect .ident .ident ts)).andThen fun name ts =>
    (.done (ts.takeWhile (·.kind == .directive)) (ts.dropWhile (·.kind == .directive)) :
      Reading (Sections × Fragment) (List Token)).andThen fun directives ts =>
    readSections name directives ts := rfl

theorem recognizes_sets :
    Recognizes (readSection .characters isName SetDecl.read)
      (opt (keyword .characters * many setDecl)) [.keyword .characters, .ident] := by
  refine recognizes_readSection (recognizes_readMany (C := []) (fun t ts ht => ?_) rfl
    (fun k => ?_) (by decide) (by decide)) (.head _)
  · have ht : t.kind = .ident := by simpa [isName] using ht
    simpa [setDecl, ht] using SetDecl.recognizes_read t ts
  · cases k <;> rfl

theorem recognizes_tokenDecls (k : Keyword) (broken : Token → Expr TokenAtom → Fragment) :
    Recognizes (readSection k isNameOrString (TokenDecl.read broken))
      (opt (keyword k * many (phrase .tokenDecl)))
      [.keyword k, .ident, .string, .equals, .action] := by
  refine recognizes_readSection (recognizes_readMany (C := [.equals, .action]) (fun t ts ht => ?_)
    rfl (fun k => ?_) ?_ ?_) (.head _)
  · have ht : t.kind = .ident ∨ t.kind = .string := by simpa [isNameOrString] using ht
    rw [language_phrase]
    rcases ht with ht | ht <;> simpa [Phrase.rule, ht] using TokenDecl.recognizes_read broken t ts
  · cases k <;> rfl
  · simp [Rule.starts, Phrase.starts]
  · simp [Separates, Rule.starts, Phrase.starts, Rule.nullable]

theorem recognizes_productions :
    Recognizes (fun ts => readMany isName Production.read ts.length ts) (many production)
      [.ident] := by
  refine recognizes_readMany (C := []) (fun t ts ht => ?_) rfl (fun k => ?_) (by decide) (by decide)
  · have ht : t.kind = .ident := by simpa [isName] using ht
    simpa [production, ht] using Production.recognizes_read t ts
  · cases k <;> rfl

theorem recognizes_readSections (name : Token) (directives : List Token) :
    Recognizes (readSections name directives)
      (opt (keyword .characters * many setDecl) *
        (opt (keyword .tokens * many (phrase .tokenDecl)) *
          (opt (keyword .pragmas * many (phrase .tokenDecl)) *
            (keyword .productions * (many production *
              (keyword .ending * (token .ident * token .dot))))))) [] :=
  (recognizes_sets.mapPart _).andThen fun _ =>
    ((recognizes_tokenDecls _ _).mapPart _).andThen fun _ =>
      ((recognizes_tokenDecls _ _).mapPart _).andThen fun _ =>
        ((recognizes_expect (C := []) _ _).mapPart _).andThen fun _ =>
          (recognizes_productions.mapPart _).andThen fun _ =>
            ((recognizes_expect (C := []) _ _).mapPart _).andThen fun _ =>
              ((recognizes_expect (C := []) _ _).mapPart _).andThen fun _ =>
                ((recognizes_expect _ _).mapPart _).finish _

/-- Definitions are read as the grammar has them. -/
theorem recognizes_readTokens : Recognizes readTokens (phrase .definition) [] := by
  have h : Recognizes readTokens (keyword .compiler * (token .ident * (many (token .directive) *
      (opt (keyword .characters * many setDecl) *
        (opt (keyword .tokens * many (phrase .tokenDecl)) *
          (opt (keyword .pragmas * many (phrase .tokenDecl)) *
            (keyword .productions * (many production *
              (keyword .ending * (token .ident * token .dot)))))))))) [] := by
    rw [readTokens_eq_andThen]
    exact ((recognizes_expect (C := []) _ _).mapPart _).andThen fun _ =>
      ((recognizes_expect (C := []) _ _).mapPart _).andThen fun name =>
        recognizes_directives.andThen (recognizes_readSections name)
  exact .phrase (h.of_language_eq (by simp only [Phrase.rule, language_mul, mul_assoc]))

/-- A sentence stops behind the name that follows `END`. -/
theorem Sentence.exists_ending {w : List Token.Kind} (h : Sentence w) :
    ∃ v, w = v ++ [.keyword .ending, .ident, .dot] := by
  obtain _ | ⟨h⟩ := h
  obtain _ | _ | @⟨_, _, _, _, h, ⟨⟩⟩ := h
  obtain _ | _ | @⟨_, _, _, _, h, ⟨⟩⟩ := h
  obtain _ | _ | @⟨_, _, v, _, h, ⟨⟩⟩ := h
  exact ⟨v, by simp⟩

end Definition

/-! ### Texts -/

/-- The error is at the first of the tokens with which they stop being the start of a sentence, or
at their end if it is sentences that they start. -/
def SyntaxError.AtFirst (e : SyntaxError) (ts : List Token) : Prop :=
  ∃ front rest, ts = front ++ rest ∧ (∃ w, Definition.Sentence (kinds front ++ w)) ∧
    match rest with
    | [] => ∃ what, e = .unexpectedEnd what
    | t :: _ => (∀ w, ¬ Definition.Sentence (kinds front ++ t.kind :: w)) ∧
        if t.kind = .unterminated then e = .unterminated t.location
        else ∃ what, e = .expected what t.location

theorem SyntaxError.atFirst_unexpected {what : Expected} {front rest : List Token}
    (hfront : ∃ w, Definition.Sentence (kinds front ++ w))
    (hrest : ∀ t ∈ rest.head?, ∀ w, ¬ Definition.Sentence (kinds front ++ t.kind :: w)) :
    (unexpected what rest).AtFirst (front ++ rest) := by
  refine ⟨front, rest, rfl, hfront, ?_⟩
  obtain _ | ⟨t, rest⟩ := rest
  · exact ⟨what, rfl⟩
  · refine ⟨hrest t rfl, ?_⟩
    simp only [unexpected]
    split
    · rfl
    · exact ⟨what, rfl⟩

namespace Grammar

variable {source : String} {cfg : Config} {log : Log}

/-- Nothing but the tokens of a text counts. -/
theorem parse_eq (hlex : (Token.read source).rejected = none) :
    parse source cfg log = match Definition.readTokens (Token.read source).tokens with
      | .done d _ =>
        (log.recordAll (d.configure cfg) d.table.events, .ok ⟨d.configure cfg, d.table.value⟩)
      | .stopped (sections, last) err =>
        (log.recordAll cfg (Broken.events ⟨sections, last, err⟩), .error err) := by
  simp only [parse, Definition.read, hlex]
  rcases Definition.readTokens (Token.read source).tokens with ⟨d, rest⟩ | ⟨⟨sections, last⟩, err⟩
  · rfl
  · rfl

/-- A text is a grammar if it starts with a sentence; otherwise the error is where it stops being
the start of one. -/
theorem sentence_of_parse (hlex : (Token.read source).rejected = none)
    (hdeep : ∀ l, (parse source cfg log).2 ≠ .error (.tooDeep l)) :
    ((∃ g, (parse source cfg log).2 = .ok g) ↔
      ∃ ts, ts <+: (Token.read source).tokens ∧ Definition.Sentence (kinds ts)) ∧
    ∀ e, (parse source cfg log).2 = .error e → e.AtFirst (Token.read source).tokens := by
  rw [parse_eq hlex] at hdeep ⊢
  have h := Definition.recognizes_readTokens (Token.read source).tokens
  generalize (Token.read source).tokens = ts at h hdeep
  cases h with
  | @done d us rest hL hK hr =>
    simp only [hr rest (.refl _ _)]
    exact ⟨⟨fun _ => ⟨us, List.prefix_append .., hL⟩, fun _ => ⟨_, rfl⟩⟩, nofun⟩
  | @stopped part what us vs hL hK hr =>
    simp only [hr]
    refine ⟨⟨nofun, ?_⟩, fun e he => ?_⟩
    · rintro ⟨ts, ⟨rest, hts⟩, hs⟩
      refine absurd ?_ (hK ⊤ nofun (kinds vs) rfl)
      have hkinds : kinds us ++ kinds vs = kinds ts ++ kinds rest := by
        simp [kinds, ← List.map_append, hts]
      rw [hkinds]
      exact Language.append_mem_mul hs trivial
    · cases he
      refine SyntaxError.atFirst_unexpected hL fun t ht w hs => ?_
      refine hK 1 nofun (t.kind :: w) ?_ (by rw [mul_one]; exact hs)
      rw [Option.mem_def] at ht
      simp [ht]
  | @tooDeep part l _ hr =>
    simp only [hr] at hdeep
    exact absurd rfl (hdeep l)

/-- A literal without an end in a group without an end. -/
def unclosed : String :=
  "COMPILER A\nPRODUCTIONS\nA = [\"a\" (A | \"b].\nEND A."

set_option maxRecDepth 100000 in
theorem unterminated_unclosed :
    (match (parse unclosed default {}).2 with
      | .error (.unterminated _) => true
      | _ => false) = true := by decide +kernel

set_option maxRecDepth 100000 in
theorem sentence_unclosed :
    ((∃ g, (parse unclosed default {}).2 = .ok g) ↔
      ∃ ts, ts <+: (Token.read unclosed).tokens ∧ Definition.Sentence (kinds ts)) ∧
    ∀ e, (parse unclosed default {}).2 = .error e → e.AtFirst (Token.read unclosed).tokens :=
  sentence_of_parse (by decide +kernel) fun l h => by
    have hu := unterminated_unclosed
    rw [h] at hu
    cases hu

/-- What a grammar is read from stops with its last dot. All of it is a sentence, and whatever
tokens follow make no difference. -/
theorem unread_of_parse {g : Grammar} (h : (parse source cfg log).2 = .ok g) :
    ∃ used rest, (Token.read source).tokens = used ++ rest ∧ Definition.Sentence (kinds used) ∧
      (∃ w, kinds used = w ++ [.keyword .ending, .ident, .dot]) ∧
      ∀ other rest', (Token.read other).rejected = none →
        (Token.read other).tokens = used ++ rest' →
          parse other cfg log = parse source cfg log := by
  have hlex : (Token.read source).rejected = none := by
    rcases hlex : (Token.read source).rejected with _ | p
    · rfl
    · simp [parse, Definition.read, hlex] at h
  have hread := Definition.recognizes_readTokens (Token.read source).tokens
  rw [parse_eq hlex] at h ⊢
  generalize (Token.read source).tokens = ts at h hread
  cases hread with
  | @done d us rest hL hK hr =>
    refine ⟨us, rest, rfl, hL, Definition.Sentence.exists_ending hL, ?_⟩
    intro other rest' hother htokens
    rw [parse_eq hother, htokens, hr rest (.refl _ _), hr rest' (.inr nofun)]
  | stopped hL hK hr => simp [hr] at h
  | tooDeep hr => simp [hr] at h

/-- A grammar with a name behind its last dot. -/
def continued : String :=
  "COMPILER A\nPRODUCTIONS\nA = \"a\".\nEND A. A"

set_option maxRecDepth 100000 in
theorem exists_continued : ∃ g, (parse continued default {}).2 = .ok g ∧ g.table.start.isSome :=
  exists_ok_of_any (by decide +kernel)

theorem unread_continued : ∃ g, (parse continued default {}).2 = .ok g ∧
    ∃ used rest, (Token.read continued).tokens = used ++ rest ∧
      Definition.Sentence (kinds used) ∧
      (∃ w, kinds used = w ++ [.keyword .ending, .ident, .dot]) ∧
      ∀ other rest', (Token.read other).rejected = none →
        (Token.read other).tokens = used ++ rest' →
          parse other default {} = parse continued default {} := by
  obtain ⟨g, hg, -⟩ := exists_continued
  exact ⟨g, hg, unread_of_parse hg⟩

set_option maxRecDepth 100000 in
/-- The name behind the dot is the last token, and it is ignored. -/
theorem ignored_continued : (∃ g, (parse continued default {}).2 = .ok g) ∧
    (Token.read continued).tokens.getLast?.map Token.kind = some .ident := by
  obtain ⟨g, hg, -⟩ := exists_continued
  exact ⟨⟨g, hg⟩, by decide +kernel⟩

end Grammar

end Lookahead
