import Lookahead.Proofs.Written

/-!
# Reading related tokens

Readers look at nothing but the kinds of tokens. So two lists of tokens that are related one by one,
by a relation between tokens of one kind (`Token.Alike`), are read in the same way: as related
definitions, or with the same complaint and related parts (`Definition.related_readTokens`). On the
diagonal this says that what is known of all tokens of a text is known of the tokens in what is read
from it, and that these have the kinds that stand at their places.
-/

namespace Lookahead

/-- Related tokens are of one kind. -/
def Token.Alike (R : Token → Token → Prop) : Prop := ∀ t u, R t u → u.kind = t.kind

/-! ### Related trees -/

inductive Expr.Related {α β : Type} (A : α → β → Prop) : Expr α → Expr β → Prop
  | empty : Related A .empty .empty
  | atom {a : α} {b : β} (h : A a b) : Related A (.atom a) (.atom b)
  | seq {e f : Expr α} {e' f' : Expr β} (he : Related A e e') (hf : Related A f f') :
      Related A (.seq e f) (.seq e' f')
  | alt {e f : Expr α} {e' f' : Expr β} (he : Related A e e') (hf : Related A f f') :
      Related A (.alt e f) (.alt e' f')
  | group (b : Bracket) {e : Expr α} {e' : Expr β} (he : Related A e e') :
      Related A (.group b e) (.group b e')

/-- An optional token of some kind. -/
def Token.Optional (R : Token → Token → Prop) (k : Token.Kind) :
    Option Token → Option Token → Prop :=
  Option.Rel fun t u => R t u ∧ t.kind = k

section

variable (R : Token → Token → Prop)

inductive SimpleSet.Related : SimpleSet → SimpleSet → Prop
  | name {t u : Token} (h : R t u) (hk : t.kind = .ident) : Related (.name t) (.name u)
  | string {t u : Token} (h : R t u) (hk : t.kind = .string) : Related (.string t) (.string u)
  | char {t u : Token} (h : R t u) (hk : t.kind = .char) : Related (.char t) (.char u)
  | range {lo lo' hi hi' : Token} (hl : R lo lo') (hh : R hi hi') (hlk : lo.kind = .char)
      (hhk : hi.kind = .char) : Related (.range lo hi) (.range lo' hi')
  | any : Related .any .any

structure SetTerm.Related (s s' : SetTerm) : Prop where
  minus : s'.minus = s.minus
  set : s.set.Related R s'.set

structure SetDecl.Related (d d' : SetDecl) : Prop where
  name : R d.name d'.name
  kind : d.name.kind = .ident
  terms : List.Forall₂ (SetTerm.Related R) d.terms d'.terms

inductive TokenAtom.Related : TokenAtom → TokenAtom → Prop
  | className {t u : Token} (h : R t u) (hk : t.kind = .ident) :
      Related (.className t) (.className u)
  | literal {t u : Token} (h : R t u) (hk : t.kind = .string ∨ t.kind = .char) :
      Related (.literal t) (.literal u)

structure TokenDecl.Related (d d' : TokenDecl) : Prop where
  name : R d.name d'.name
  kind : d.name.kind = .ident ∨ d.name.kind = .string
  body : Option.Rel (Expr.Related (TokenAtom.Related R)) d.body d'.body
  action : Token.Optional R .action d.action d'.action

inductive Atom.Related : Atom → Atom → Prop
  | symbol {weak : Bool} {t u : Token} {a a' : Option Token} (h : R t u)
      (hk : t.kind = .ident ∨ t.kind = .string ∨ t.kind = .char)
      (ha : Token.Optional R .attributes a a') : Related (.symbol weak t a) (.symbol weak u a')
  | any {t u : Token} (h : R t u) : Related (.any t) (.any u)
  | sync {t u : Token} (h : R t u) : Related (.sync t) (.sync u)
  | action {t u : Token} (h : R t u) (hk : t.kind = .action) : Related (.action t) (.action u)
  | resolver {t u : Token} (h : R t u) (hk : t.kind = .resolver) :
      Related (.resolver t) (.resolver u)

structure Production.Related (p p' : Production) : Prop where
  name : R p.name p'.name
  kind : p.name.kind = .ident
  attributes : Token.Optional R .attributes p.attributes p'.attributes
  locals : Token.Optional R .action p.locals p'.locals
  body : Expr.Related (Atom.Related R) p.body p'.body

structure Sections.Related (s s' : Sections) : Prop where
  directives : List.Forall₂ R s.directives s'.directives
  sets : List.Forall₂ (SetDecl.Related R) s.sets s'.sets
  tokens : List.Forall₂ (TokenDecl.Related R) s.tokens s'.tokens
  pragmas : List.Forall₂ (TokenDecl.Related R) s.pragmas s'.pragmas
  productions : List.Forall₂ (Production.Related R) s.productions s'.productions

structure Definition.Related (d d' : Definition) : Prop where
  name : R d.name d'.name
  nameKind : d.name.kind = .ident
  sections : d.sections.Related R d'.sections
  ending : R d.ending d'.ending
  endingKind : d.ending.kind = .ident

inductive Fragment.Related : Fragment → Fragment → Prop
  | nothing : Related .nothing .nothing
  | setStart {t u : Token} {l l' : List SetTerm} (h : R t u) (hk : t.kind = .ident)
      (hl : List.Forall₂ (SetTerm.Related R) l l') : Related (.setStart t l) (.setStart u l')
  | set {d d' : SetDecl} (h : d.Related R d') : Related (.set d) (.set d')
  | token {t u : Token} {e e' : Expr TokenAtom} (h : R t u)
      (hk : t.kind = .ident ∨ t.kind = .string) (he : Expr.Related (TokenAtom.Related R) e e') :
      Related (.token t e) (.token u e')
  | pragma {t u : Token} {e e' : Expr TokenAtom} (h : R t u)
      (hk : t.kind = .ident ∨ t.kind = .string) (he : Expr.Related (TokenAtom.Related R) e e') :
      Related (.pragma t e) (.pragma u e')
  | production {p p' : Production} (h : p.Related R p') : Related (.production p) (.production p')
  | ending {t u v w : Token} (h : R t u) (hk : t.kind = .ident) (hv : R v w)
      (hvk : v.kind = .ident) : Related (.ending t v) (.ending u w)

/-- What there is of two texts that stopped being definitions. -/
abbrev Fragment.Parts : Sections × Fragment → Sections × Fragment → Prop := fun p p' =>
  p.1.Related R p'.1 ∧ p.2.Related R p'.2

end

/-- The error without the place where it was found. -/
def SyntaxError.bare : SyntaxError → SyntaxError
  | invalidCharacter _ => invalidCharacter default
  | expected what _ => expected what default
  | unterminated _ => unterminated default
  | unexpectedEnd what => unexpectedEnd what
  | tooDeep _ => tooDeep default

/-! ### Related readings -/

variable {α α' β β' γ γ' δ δ' : Type} {R : Token → Token → Prop} {A : α → α' → Prop}
  {B : β → β' → Prop} {C : γ → γ' → Prop} {D : δ → δ' → Prop} {ts us : List Token}

namespace Reading

/-- Both readings are done, with related values and tokens left, or both have stopped, with related
parts and the same complaint. -/
inductive Related (R : Token → Token → Prop) (B : β → β' → Prop) (A : α → α' → Prop) :
    Reading β α → Reading β' α' → Prop
  | done {a : α} {a' : α'} {ts us : List Token} (ha : A a a') (hr : List.Forall₂ R ts us) :
      Related R B A (.done a ts) (.done a' us)
  | stopped {b : β} {b' : β'} {e e' : SyntaxError} (hb : B b b') (he : e'.bare = e.bare) :
      Related R B A (.stopped b e) (.stopped b' e')

variable {r : Reading β α} {r' : Reading β' α'}

theorem Related.andThen {k : α → List Token → Reading β γ} {k' : α' → List Token → Reading β' γ'}
    (h : Related R B A r r') (hk : ∀ a a' ts us, A a a' → List.Forall₂ R ts us →
      Related R B C (k a ts) (k' a' us)) : Related R B C (r.andThen k) (r'.andThen k') := by
  cases h with
  | done ha hr => exact hk _ _ _ _ ha hr
  | stopped hb he => exact .stopped hb he

theorem Related.map {k : α → γ} {k' : α' → γ'} (h : Related R B A r r')
    (hk : ∀ a a', A a a' → C (k a) (k' a')) : Related R B C (r.map k) (r'.map k') := by
  cases h with
  | done ha hr => exact .done (hk _ _ ha) hr
  | stopped hb he => exact .stopped hb he

theorem Related.mapPart {k : β → γ} {k' : β' → γ'} (h : Related R B A r r')
    (hk : ∀ b b', B b b' → C (k b) (k' b')) : Related R C A (r.mapPart k) (r'.mapPart k') := by
  cases h with
  | done ha hr => exact .done ha hr
  | stopped hb he => exact .stopped (hk _ _ hb) he

end Reading

/-- The readers take related tokens to related readings. -/
def Follows (R : Token → Token → Prop) (B : β → β' → Prop) (A : α → α' → Prop)
    (r : List Token → Reading β α) (r' : List Token → Reading β' α') : Prop :=
  ∀ ts us, List.Forall₂ R ts us → Reading.Related R B A (r ts) (r' us)

section

variable (hR : Token.Alike R)
include hR

theorem bare_unexpected (what : Expected) (h : List.Forall₂ R ts us) :
    (unexpected what us).bare = (unexpected what ts).bare := by
  cases h with
  | nil => rfl
  | cons ht _ =>
    simp only [unexpected, hR _ _ ht]
    split <;> rfl

theorem follows_expect (k : Token.Kind) (what : Expected) :
    Follows R (fun _ _ => True) (fun t u => R t u ∧ t.kind = k) (expect k what)
      (expect k what) := by
  intro ts us h
  have hbare := bare_unexpected hR what h
  cases h with
  | nil => exact .stopped trivial rfl
  | cons ht hr =>
    simp only [expect, hR _ _ ht]
    split
    · rename_i hk
      exact .done ⟨ht, hk⟩ hr
    · exact .stopped trivial hbare

theorem related_accept (k : Token.Kind) (h : List.Forall₂ R ts us) :
    Token.Optional R k (accept k ts).1 (accept k us).1 ∧
      List.Forall₂ R (accept k ts).2 (accept k us).2 := by
  cases h with
  | nil => exact ⟨.none, .nil⟩
  | cons ht hr =>
    simp only [accept, hR _ _ ht]
    split
    · rename_i hk
      exact ⟨.some ⟨ht, hk⟩, hr⟩
    · exact ⟨.none, .cons ht hr⟩

/-! ### Expressions -/

variable (starts : Token.Kind → Bool) {factor term : ExprReader α} {factor' term' : ExprReader α'}

theorem related_moreFactors
    (hF : Follows R (Expr.Related A) (Expr.Related A) factor factor') (n : Nat) {e : Expr α}
    {e' : Expr α'} (he : e.Related A e') :
    Follows R (Expr.Related A) (Expr.Related A) (ExprReader.moreFactors starts factor n e)
      (ExprReader.moreFactors starts factor' n e') := by
  induction n generalizing e e' with
  | zero => exact fun ts us h => .done he h
  | succ n ih =>
    rintro _ _ (_ | ⟨ht, hr⟩)
    · exact .done he .nil
    · have hf := hF _ _ (.cons ht hr)
      simp only [ExprReader.moreFactors, hR _ _ ht]
      split
      · generalize factor _ = r at hf
        generalize factor' _ = r' at hf
        cases hf with
        | done hg hr => exact ih (.seq he hg) _ _ hr
        | stopped hg hb => exact .stopped (.seq he hg) hb
      · exact .done he (.cons ht hr)

theorem follows_factors (hF : Follows R (Expr.Related A) (Expr.Related A) factor factor') :
    Follows R (Expr.Related A) (Expr.Related A) (ExprReader.factors starts factor)
      (ExprReader.factors starts factor') := by
  intro ts us h
  refine (hF _ _ h).andThen fun e e' ts us he hr => ?_
  rw [hr.length_eq]
  exact related_moreFactors hR starts hF _ he _ _ hr

theorem related_moreAlternatives (hT : Follows R (Expr.Related A) (Expr.Related A) term term')
    (n : Nat) {e : Expr α} {e' : Expr α'} (he : e.Related A e') :
    Follows R (Expr.Related A) (Expr.Related A) (ExprReader.moreAlternatives term n e)
      (ExprReader.moreAlternatives term' n e') := by
  induction n generalizing e e' with
  | zero => exact fun ts us h => .done he h
  | succ n ih =>
    rintro _ _ (_ | ⟨ht, hr⟩)
    · exact .done he .nil
    · have hf := hT _ _ hr
      simp only [ExprReader.moreAlternatives, hR _ _ ht]
      split
      · generalize term _ = r at hf
        generalize term' _ = r' at hf
        cases hf with
        | done hg hr => exact ih (.alt he hg) _ _ hr
        | stopped hg hb => exact .stopped (.alt he hg) hb
      · exact .done he (.cons ht hr)

theorem follows_alternatives (hT : Follows R (Expr.Related A) (Expr.Related A) term term') :
    Follows R (Expr.Related A) (Expr.Related A) (ExprReader.alternatives term)
      (ExprReader.alternatives term') := by
  intro ts us h
  refine (hT _ _ h).andThen fun e e' ts us he hr => ?_
  rw [hr.length_eq]
  exact related_moreAlternatives hR hT _ he _ _ hr

/-- The readers of groups take related tokens to related readings, whatever tokens have opened the
groups. -/
def FollowsGroup (R : Token → Token → Prop) (A : α → α' → Prop) (g : GroupReader α)
    (g' : GroupReader α') : Prop :=
  ∀ t u b, Follows R (Expr.Related A) (Expr.Related A) (g t b) (g' u b)

variable {content : GroupReader α → ExprReader α} {content' : GroupReader α' → ExprReader α'}

theorem followsGroup_groups (hC : ∀ g g', FollowsGroup R A g g' →
      Follows R (Expr.Related A) (Expr.Related A) (content g) (content' g')) (room : Nat) :
    FollowsGroup R A (ExprReader.groups content room) (ExprReader.groups content' room) := by
  induction room with
  | zero => exact fun t u b ts us h => .stopped .empty rfl
  | succ room ih =>
    intro t u b ts us h
    have hc := hC _ _ ih _ _ h
    simp only [ExprReader.groups]
    generalize content _ ts = r at hc
    generalize content' _ us = r' at hc
    cases hc with
    | @done e e' xs ys he hr =>
      have hclose := follows_expect hR b.closing b.closingExpected _ _ hr
      simp only [ExprReader.close]
      generalize expect b.closing b.closingExpected xs = q at hclose
      generalize expect b.closing b.closingExpected ys = q' at hclose
      cases hclose with
      | done _ hr => exact .done (.group b he) hr
      | stopped _ hb => exact .stopped he hb
    | stopped he hb => exact .stopped he hb

theorem follows_whole (hC : ∀ g g', FollowsGroup R A g g' →
      Follows R (Expr.Related A) (Expr.Related A) (content g) (content' g')) :
    Follows R (Expr.Related A) (Expr.Related A) (ExprReader.whole content)
      (ExprReader.whole content') :=
  hC _ _ (followsGroup_groups hR hC _)

end

/-! ### Right-hand sides of productions -/

namespace Atom

variable (hR : Token.Alike R) {g g' : GroupReader Atom}
include hR

theorem follows_readSymbol (weak : Bool) :
    Follows R (Expr.Related (Atom.Related R)) (Expr.Related (Atom.Related R)) (readSymbol weak)
      (readSymbol weak) := by
  intro ts us h
  have hbare := bare_unexpected hR .identOrString h
  cases h with
  | nil => exact .stopped .empty rfl
  | @cons t u ts us ht hr =>
    obtain ⟨ha, hrest⟩ := related_accept hR .attributes hr
    simp only [readSymbol, hR _ _ ht]
    split
    · rename_i hk
      exact .done (.atom (.symbol ht hk ha)) hrest
    · exact .stopped .empty hbare

theorem follows_readFactor (hg : FollowsGroup R (Atom.Related R) g g') :
    Follows R (Expr.Related (Atom.Related R)) (Expr.Related (Atom.Related R)) (readFactor g)
      (readFactor g') := by
  intro ts us h
  have hbare := bare_unexpected hR .factor h
  have hname := follows_readSymbol hR false _ _ h
  cases h with
  | nil => exact .stopped .empty rfl
  | @cons t u ts us ht hr =>
    have hk := hR _ _ ht
    simp only [readFactor]
    generalize hkt : t.kind = k at hk
    rw [hk]
    split
    · exact follows_readSymbol hR true _ _ hr
    iterate 3 exact hname
    · exact .done (.atom (.action ht hkt)) hr
    · exact .done (.atom (.any ht)) hr
    · exact .done (.atom (.sync ht)) hr
    · split
      · exact hg _ _ _ _ _ hr
      · exact .stopped .empty hbare

theorem follows_readTerm (hg : FollowsGroup R (Atom.Related R) g g') :
    Follows R (Expr.Related (Atom.Related R)) (Expr.Related (Atom.Related R)) (readTerm g)
      (readTerm g') := by
  have hF := follows_readFactor hR hg
  intro ts us h
  have hfactors := follows_factors hR startsFactor hF _ _ h
  cases h with
  | nil => exact .done .empty .nil
  | @cons t u ts us ht hr =>
    simp only [readTerm, hR _ _ ht] at hfactors ⊢
    split
    · rename_i hk
      have hf := hF _ _ hr
      generalize readFactor g ts = r at hf
      generalize readFactor g' us = r' at hf
      cases hf with
      | done he hr =>
        dsimp only
        rw [hr.length_eq]
        exact related_moreFactors hR startsFactor hF _ (.seq (.atom (.resolver ht hk)) he) _ _ hr
      | stopped he hb => exact .stopped (.seq (.atom (.resolver ht hk)) he) hb
    · split
      · exact hfactors
      · exact .done .empty (.cons ht hr)

theorem follows_readExpr :
    Follows R (Expr.Related (Atom.Related R)) (Expr.Related (Atom.Related R)) readExpr readExpr :=
  follows_whole hR fun _ _ hg => follows_alternatives hR (follows_readTerm hR hg)

end Atom

/-! ### Structures of tokens -/

namespace TokenAtom

variable (hR : Token.Alike R) {g g' : GroupReader TokenAtom}
include hR

theorem follows_readFactor (hg : FollowsGroup R (TokenAtom.Related R) g g') :
    Follows R (Expr.Related (TokenAtom.Related R)) (Expr.Related (TokenAtom.Related R))
      (readFactor g) (readFactor g') := by
  intro ts us h
  have hbare := bare_unexpected hR .tokenFactor h
  cases h with
  | nil => exact .stopped .empty rfl
  | @cons t u ts us ht hr =>
    have hk := hR _ _ ht
    simp only [readFactor]
    generalize hkt : t.kind = k at hk
    rw [hk]
    split
    · exact .done (.atom (.className ht hkt)) hr
    · exact .done (.atom (.literal ht (.inl hkt))) hr
    · exact .done (.atom (.literal ht (.inr hkt))) hr
    · split
      · exact hg _ _ _ _ _ hr
      · exact .stopped .empty hbare

theorem follows_readContext (hg : FollowsGroup R (TokenAtom.Related R) g g')
    {e e' : Expr TokenAtom} (he : e.Related (TokenAtom.Related R) e') :
    Follows R (Expr.Related (TokenAtom.Related R)) (Expr.Related (TokenAtom.Related R))
      (readContext g e) (readContext g' e') := by
  intro ts us h
  obtain ⟨ho, hr⟩ := related_accept hR (.keyword .context) h
  simp only [readContext]
  generalize accept (.keyword .context) ts = p at ho hr
  generalize accept (.keyword .context) us = p' at ho hr
  obtain ⟨o, xs⟩ := p
  obtain ⟨o', ys⟩ := p'
  cases ho with
  | none => exact .done he hr
  | some _ =>
    have hopen := follows_expect hR .lparen .lparen _ _ hr
    dsimp only
    generalize expect .lparen .lparen xs = q at hopen
    generalize expect .lparen .lparen ys = q' at hopen
    cases hopen with
    | stopped _ hb => exact .stopped he hb
    | @done t u xs ys _ hr =>
      have hgroup := hg t u .context _ _ hr
      dsimp only
      generalize g t .context xs = q at hgroup
      generalize g' u .context ys = q' at hgroup
      cases hgroup with
      | done hf hr => exact .done (.seq he hf) hr
      | stopped hf hb => exact .stopped (.seq he hf) hb

theorem follows_readExpr :
    Follows R (Expr.Related (TokenAtom.Related R)) (Expr.Related (TokenAtom.Related R)) readExpr
      readExpr := by
  refine follows_whole hR fun g g' hg => follows_alternatives hR fun ts us h => ?_
  exact (follows_factors hR _ (follows_readFactor hR hg) _ _ h).andThen fun e e' ts us he hr =>
    follows_readContext hR hg he _ _ hr

end TokenAtom

/-! ### Declarations -/

section

variable (hR : Token.Alike R)
include hR

theorem SimpleSet.follows_read :
    Follows R (List.Forall₂ (SimpleSet.Related R)) (SimpleSet.Related R) SimpleSet.read
      SimpleSet.read := by
  intro ts us h
  have hbare := bare_unexpected hR .set h
  cases h with
  | nil => exact .stopped .nil rfl
  | @cons t u ts us ht hr =>
    have hk := hR _ _ ht
    simp only [SimpleSet.read]
    generalize hkt : t.kind = k at hk
    rw [hk]
    split
    · exact .done (.name ht hkt) hr
    · exact .done (.string ht hkt) hr
    · exact .done .any hr
    · obtain ⟨ho, hr⟩ := related_accept hR .dotDot hr
      generalize accept .dotDot ts = p at ho hr
      generalize accept .dotDot us = p' at ho hr
      obtain ⟨o, xs⟩ := p
      obtain ⟨o', ys⟩ := p'
      cases ho with
      | none => exact .done (.char ht hkt) hr
      | some _ =>
        have hhi := follows_expect hR .char .char _ _ hr
        dsimp only
        generalize expect .char .char xs = q at hhi
        generalize expect .char .char ys = q' at hhi
        cases hhi with
        | done hv hr => exact .done (.range ht hv.1 hkt hv.2) hr
        | stopped _ hb => exact .stopped (.cons (.char ht hkt) .nil) hb
    · exact .stopped .nil hbare

theorem SetTerm.follows_readFrom (minus : Bool) (n : Nat) :
    Follows R (List.Forall₂ (SetTerm.Related R)) (List.Forall₂ (SetTerm.Related R))
      (SetTerm.readFrom minus n) (SetTerm.readFrom minus n) := by
  induction n generalizing minus with
  | zero => exact fun ts us h => .done .nil h
  | succ n ih =>
    intro ts us h
    have hs := SimpleSet.follows_read hR _ _ h
    simp only [SetTerm.readFrom]
    generalize SimpleSet.read ts = r at hs
    generalize SimpleSet.read us = r' at hs
    cases hs with
    | stopped hl hb =>
      refine .stopped ?_ hb
      rw [List.forall₂_map_left_iff, List.forall₂_map_right_iff]
      exact hl.imp fun _ _ hs => ⟨rfl, hs⟩
    | done hs hr =>
      cases hr with
      | nil => exact .done (.cons ⟨rfl, hs⟩ .nil) .nil
      | cons ht hr =>
        simp only [hR _ _ ht]
        split
        · exact .done (.cons ⟨rfl, hs⟩ .nil) (.cons ht hr)
        · rename_i m _
          exact ((ih m _ _ hr).map fun _ _ hl => .cons ⟨rfl, hs⟩ hl).mapPart
            fun _ _ hl => .cons ⟨rfl, hs⟩ hl

theorem SetDecl.follows_read {t u : Token} (h : R t u) (hk : t.kind = .ident) :
    Follows R (Fragment.Related R) (SetDecl.Related R) (SetDecl.read t) (SetDecl.read u) := by
  intro ts us hr
  refine ((follows_expect hR .equals .equals _ _ hr).mapPart fun _ _ _ =>
    .setStart h hk .nil).andThen fun _ _ ts us _ hr => ?_
  have hterms := SetTerm.follows_readFrom hR false (ts.length + 1) _ _ hr
  rw [SetTerm.readAll, SetTerm.readAll, ← hr.length_eq]
  refine (hterms.mapPart fun _ _ hl => .setStart h hk hl).andThen fun l l' ts us hl hr => ?_
  refine ((follows_expect hR .dot .dot _ _ hr).mapPart fun _ _ _ =>
    .set ⟨h, hk, hl⟩).andThen fun _ _ ts us _ hr => ?_
  exact .done ⟨h, hk, hl⟩ hr

theorem TokenDecl.follows_read {broken : Token → Expr TokenAtom → Fragment} {t u : Token}
    (h : R t u) (hk : t.kind = .ident ∨ t.kind = .string)
    (hb : ∀ e e', e.Related (TokenAtom.Related R) e' → (broken t e).Related R (broken u e')) :
    Follows R (Fragment.Related R) (TokenDecl.Related R) (TokenDecl.read broken t)
      (TokenDecl.read broken u) := by
  intro ts us hr
  obtain ⟨ho, hr⟩ := related_accept hR .equals hr
  simp only [TokenDecl.read]
  generalize accept .equals ts = p at ho hr
  generalize accept .equals us = p' at ho hr
  obtain ⟨o, xs⟩ := p
  obtain ⟨o', ys⟩ := p'
  cases ho with
  | none =>
    obtain ⟨ha, hr⟩ := related_accept hR .action hr
    exact .done ⟨h, hk, .none, ha⟩ hr
  | some _ =>
    refine ((TokenAtom.follows_readExpr hR _ _ hr).mapPart hb).andThen
      fun e e' ts us he hr => ?_
    refine ((follows_expect hR .dot .dot _ _ hr).mapPart fun _ _ _ => hb _ _ he).andThen
      fun _ _ ts us _ hr => ?_
    obtain ⟨ha, hr⟩ := related_accept hR .action hr
    exact .done ⟨h, hk, .some he, ha⟩ hr

theorem Production.follows_read {t u : Token} (h : R t u) (hk : t.kind = .ident) :
    Follows R (Fragment.Related R) (Production.Related R) (Production.read t)
      (Production.read u) := by
  intro ts us hr
  obtain ⟨ha, hr⟩ := related_accept hR .attributes hr
  obtain ⟨hl, hr⟩ := related_accept hR .action hr
  have hpart {e e' : Expr Atom} (he : e.Related (Atom.Related R) e') :
      Production.Related R ⟨t, _, _, e⟩ ⟨u, _, _, e'⟩ := ⟨h, hk, ha, hl, he⟩
  refine ((follows_expect hR .equals .equals _ _ hr).mapPart fun _ _ _ =>
    .production (hpart .empty)).andThen fun _ _ ts us _ hr => ?_
  refine ((Atom.follows_readExpr hR _ _ hr).mapPart fun _ _ he =>
    .production (hpart he)).andThen fun e e' ts us he hr => ?_
  refine ((follows_expect hR .dot .dot _ _ hr).mapPart fun _ _ _ =>
    .production (hpart he)).andThen fun _ _ ts us _ hr => ?_
  exact .done (hpart he) hr

variable (starts : Token.Kind → Bool) {decl : DeclReader δ} {decl' : DeclReader δ'}
  (hd : ∀ t u, R t u → starts t.kind = true →
    Follows R (Fragment.Related R) D (decl t) (decl' u))
include hd

theorem follows_readMany (n : Nat) :
    Follows R (fun p p' => List.Forall₂ D p.1 p'.1 ∧ p.2.Related R p'.2) (List.Forall₂ D)
      (readMany starts decl n) (readMany starts decl' n) := by
  induction n with
  | zero => exact fun ts us h => .done .nil h
  | succ n ih =>
    rintro _ _ (_ | @⟨t, u, ts, us, ht, hr⟩)
    · exact .done .nil .nil
    · simp only [readMany, hR _ _ ht]
      split
      · rename_i hs
        have hdecl := hd t u ht hs _ _ hr
        generalize decl t ts = r at hdecl
        generalize decl' u us = r' at hdecl
        cases hdecl with
        | stopped hp hb => exact .stopped ⟨.nil, hp⟩ hb
        | done hdd hr =>
          exact ((ih _ _ hr).map fun _ _ hl => .cons hdd hl).mapPart
            fun _ _ hp => ⟨.cons hdd hp.1, hp.2⟩
      · exact .done .nil (.cons ht hr)

theorem follows_readSection (k : Keyword) :
    Follows R (fun p p' => List.Forall₂ D p.1 p'.1 ∧ p.2.Related R p'.2) (List.Forall₂ D)
      (readSection k starts decl) (readSection k starts decl') := by
  intro ts us h
  obtain ⟨ho, hr⟩ := related_accept hR (.keyword k) h
  simp only [readSection]
  generalize accept (.keyword k) ts = p at ho hr
  generalize accept (.keyword k) us = p' at ho hr
  obtain ⟨o, xs⟩ := p
  obtain ⟨o', ys⟩ := p'
  cases ho with
  | none => exact .done .nil hr
  | some _ =>
    dsimp only
    rw [hr.length_eq]
    exact follows_readMany hR starts hd _ _ _ hr

end

/-! ### Whole texts -/

theorem forall₂_takeWhile (hR : Token.Alike R) (p : Token.Kind → Bool)
    (h : List.Forall₂ R ts us) :
    List.Forall₂ R (ts.takeWhile fun t => p t.kind) (us.takeWhile fun t => p t.kind) ∧
      List.Forall₂ R (ts.dropWhile fun t => p t.kind) (us.dropWhile fun t => p t.kind) := by
  induction h with
  | nil => exact ⟨.nil, .nil⟩
  | cons ht hr ih =>
    simp only [List.takeWhile_cons, List.dropWhile_cons, hR _ _ ht]
    split
    · exact ⟨.cons ht ih.1, ih.2⟩
    · exact ⟨.nil, .cons ht hr⟩

namespace Definition

theorem related_between {s s' : Sections} (hs : s.Related R s') {r : Reading β α}
    {r' : Reading β' α'} (h : Reading.Related R B A r r') :
    Reading.Related R (Fragment.Parts R) A (between s r) (between s' r') :=
  h.mapPart fun _ _ _ => ⟨hs, .nothing⟩

/-- Related tokens are read as related definitions, or up to related points. -/
theorem related_readTokens (hR : Token.Alike R) :
    Follows R (Fragment.Parts R) (Definition.Related R) readTokens readTokens := by
  intro ts us hr
  refine (related_between ⟨.nil, .nil, .nil, .nil, .nil⟩ (follows_expect hR _ _ _ _ hr)).andThen
    fun _ _ ts us _ hr => ?_
  refine (related_between ⟨.nil, .nil, .nil, .nil, .nil⟩ (follows_expect hR _ _ _ _ hr)).andThen
    fun name name' ts us hname hr => ?_
  obtain ⟨hdir, hr⟩ := forall₂_takeWhile hR (· == .directive) hr
  have hisName {t u : Token} (_ : R t u) (hk : isName t.kind = true) : t.kind = .ident := by
    simpa [isName] using hk
  have hisNameOrString {t u : Token} (_ : R t u) (hk : isNameOrString t.kind = true) :
      t.kind = .ident ∨ t.kind = .string := by
    simpa [isNameOrString] using hk
  refine ((follows_readSection hR isName (fun t u ht hk =>
    SetDecl.follows_read hR ht (hisName ht hk)) .characters _ _ hr).mapPart fun _ _ hp =>
      ⟨⟨hdir, hp.1, .nil, .nil, .nil⟩, hp.2⟩).andThen fun sets sets' ts us hsets hr => ?_
  refine ((follows_readSection hR isNameOrString (fun t u ht hk =>
    TokenDecl.follows_read hR ht (hisNameOrString ht hk) fun _ _ he =>
      .token ht (hisNameOrString ht hk) he) .tokens _ _ hr).mapPart fun _ _ hp =>
      ⟨⟨hdir, hsets, hp.1, .nil, .nil⟩, hp.2⟩).andThen fun tokens tokens' ts us htokens hr => ?_
  refine ((follows_readSection hR isNameOrString (fun t u ht hk =>
    TokenDecl.follows_read hR ht (hisNameOrString ht hk) fun _ _ he =>
      .pragma ht (hisNameOrString ht hk) he) .pragmas _ _ hr).mapPart fun _ _ hp =>
      ⟨⟨hdir, hsets, htokens, hp.1, .nil⟩, hp.2⟩).andThen
        fun pragmas pragmas' ts us hpragmas hr => ?_
  refine (related_between ⟨hdir, hsets, htokens, hpragmas, .nil⟩
    (follows_expect hR _ _ _ _ hr)).andThen fun _ _ ts us _ hr => ?_
  have hproductions := follows_readMany hR isName (fun t u ht hk =>
    Production.follows_read hR ht (hisName ht hk)) ts.length _ _ hr
  rw [← hr.length_eq]
  refine (hproductions.mapPart fun _ _ hp =>
    ⟨⟨hdir, hsets, htokens, hpragmas, hp.1⟩, hp.2⟩).andThen
      fun productions productions' ts us hproductions hr => ?_
  have hsections : Sections.Related R ⟨_, sets, tokens, pragmas, productions⟩
      ⟨_, sets', tokens', pragmas', productions'⟩ :=
    ⟨hdir, hsets, htokens, hpragmas, hproductions⟩
  refine (related_between hsections (follows_expect hR _ _ _ _ hr)).andThen
    fun _ _ ts us _ hr => ?_
  refine (related_between hsections (follows_expect hR _ _ _ _ hr)).andThen
    fun last last' ts us hlast hr => ?_
  refine ((follows_expect hR _ _ _ _ hr).mapPart fun _ _ _ =>
    ⟨hsections, .ending hname.1 hname.2 hlast.1 hlast.2⟩).andThen fun _ _ ts us _ hr => ?_
  exact .done ⟨hname.1, hname.2, hsections, hlast.1, hlast.2⟩ hr

section

variable {source : String} (hR : Token.Alike R) (h : ∀ t ∈ (Token.read source).tokens, R t t)
include hR h

/-- If every token of a text is related to itself, so is the definition in it. -/
theorem related_of_read {d : Definition} (hd : Definition.read source = .ok d) :
    d.Related R d := by
  have hread := related_readTokens hR _ _ (List.forall₂_same.mpr h)
  unfold Definition.read at hd
  dsimp only at hd
  split at hd
  · cases hd
  · generalize readTokens (Token.read source).tokens = r at hd hread
    cases hread with
    | done hd' hr =>
      cases hd
      exact hd'
    | stopped hb he => cases hd

/-- So is what there is of a text that stopped being one. -/
theorem parts_of_read {b : Broken} (hb : Definition.read source = .error b) :
    Fragment.Parts R (b.sections, b.last) (b.sections, b.last) := by
  have hread := related_readTokens hR _ _ (List.forall₂_same.mpr h)
  unfold Definition.read at hb
  dsimp only at hb
  split at hb
  · cases hb
    exact ⟨⟨.nil, .nil, .nil, .nil, .nil⟩, .nothing⟩
  · generalize readTokens (Token.read source).tokens = r at hb hread
    cases hread with
    | done hd hr => cases hb
    | stopped hp he =>
      cases hb
      exact hp

end

end Definition

/-- The same token, about which something is known. -/
def Token.Known (P : Token → Prop) (t u : Token) : Prop := t = u ∧ P t

theorem Token.alike_known (P : Token → Prop) : Token.Alike (Token.Known P) := by
  rintro t _ ⟨rfl, -⟩
  rfl

end Lookahead
