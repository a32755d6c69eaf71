import Lookahead.Token
import Mathlib.Computability.Language

/-!
# The grammar of definitions

The grammar that definitions are written in, as a table of rules (`Phrase.rule`) over the kinds of
tokens, and the sentences of it (`Rule.Derives`). One token of lookahead is enough for it: `starts`
and `nullable` tell what the words of a rule begin with (`Rule.Derives.mem_starts`), and whether
there is an empty one among them (`Rule.Derives.nullable`).
-/

namespace Lookahead

/-- What a definition is made of, as far as it has a rule of its own. -/
inductive Phrase where
  | definition
  | set
  | simpleSet
  | tokenDecl
  | tokenExpr
  | tokenTerm
  | tokenFactor
  | expr
  | term
  | factor
deriving DecidableEq, Repr

/-- The right-hand side of a rule. -/
inductive Rule where
  | token (k : Token.Kind)
  | phrase (p : Phrase)
  | seq (r s : Rule)
  | alt (r s : Rule)
  | opt (r : Rule)
  | many (r : Rule)
deriving DecidableEq, Repr

namespace Rule

instance : Mul Rule := ⟨seq⟩

instance : Add Rule := ⟨alt⟩

abbrev keyword (k : Keyword) : Rule := token (.keyword k)

/-- `name = set .` -/
def setDecl : Rule := token .ident * token .equals * phrase .set * token .dot

/-- `name attributes locals = body .` -/
def production : Rule :=
  token .ident * opt (token .attributes) * opt (token .action) * token .equals * phrase .expr *
    token .dot

end Rule

open Rule in
def Phrase.rule : Phrase → Rule
  | definition =>
    keyword .compiler * token .ident * many (token .directive) *
      opt (keyword .characters * many setDecl) *
      opt (keyword .tokens * many (phrase tokenDecl)) *
      opt (keyword .pragmas * many (phrase tokenDecl)) *
      keyword .productions * many production *
      keyword .ending * token .ident * token .dot
  | set => phrase simpleSet * many ((token .plus + token .minus) * phrase simpleSet)
  | simpleSet =>
    token .ident + token .string + token .char * opt (token .dotDot * token .char) + keyword .any
  | tokenDecl =>
    (token .ident + token .string) * opt (token .equals * phrase tokenExpr * token .dot) *
      opt (token .action)
  | tokenExpr => phrase tokenTerm * many (token .bar * phrase tokenTerm)
  | tokenTerm =>
    phrase tokenFactor * many (phrase tokenFactor) *
      opt (keyword .context * token .lparen * phrase tokenExpr * token .rparen)
  | tokenFactor =>
    token .ident + token .string + token .char + token .lparen * phrase tokenExpr * token .rparen +
      token .lbracket * phrase tokenExpr * token .rbracket +
      token .lbrace * phrase tokenExpr * token .rbrace
  | expr => phrase term * many (token .bar * phrase term)
  | term => opt (token .resolver * phrase factor) * many (phrase factor)
  | factor =>
    opt (keyword .weak) * (token .ident + token .string + token .char) * opt (token .attributes) +
      token .lparen * phrase expr * token .rparen +
      token .lbracket * phrase expr * token .rbracket +
      token .lbrace * phrase expr * token .rbrace + token .action + keyword .any + keyword .sync

namespace Rule

/-- The words of a rule, down to the kinds of tokens. -/
inductive Derives : Rule → List Token.Kind → Prop
  | token (k : Token.Kind) : Derives (.token k) [k]
  | phrase {p : Phrase} {w : List Token.Kind} (h : Derives p.rule w) : Derives (.phrase p) w
  | seq {r s : Rule} {v w : List Token.Kind} (hr : Derives r v) (hs : Derives s w) :
      Derives (.seq r s) (v ++ w)
  | left {r s : Rule} {w : List Token.Kind} (h : Derives r w) : Derives (.alt r s) w
  | right {r s : Rule} {w : List Token.Kind} (h : Derives s w) : Derives (.alt r s) w
  | none {r : Rule} : Derives (.opt r) []
  | some {r : Rule} {w : List Token.Kind} (h : Derives r w) : Derives (.opt r) w
  | nil {r : Rule} : Derives (.many r) []
  | cons {r : Rule} {v w : List Token.Kind} (hr : Derives r v) (hs : Derives (.many r) w) :
      Derives (.many r) (v ++ w)

end Rule

/-- The kinds of tokens that a whole definition is written with. -/
def Definition.Sentence (w : List Token.Kind) : Prop := (Rule.phrase .definition).Derives w

/-! ### What words begin with -/

/-- The kinds that a phrase can begin with. -/
def Phrase.starts : Phrase → List Token.Kind
  | definition => [.keyword .compiler]
  | set | simpleSet => [.ident, .string, .char, .keyword .any]
  | tokenDecl => [.ident, .string]
  | tokenExpr | tokenTerm | tokenFactor => [.ident, .string, .char, .lparen, .lbracket, .lbrace]
  | expr =>
    [.resolver, .keyword .weak, .ident, .string, .char, .lparen, .lbracket, .lbrace, .action,
      .keyword .any, .keyword .sync, .bar]
  | term =>
    [.resolver, .keyword .weak, .ident, .string, .char, .lparen, .lbracket, .lbrace, .action,
      .keyword .any, .keyword .sync]
  | factor =>
    [.keyword .weak, .ident, .string, .char, .lparen, .lbracket, .lbrace, .action, .keyword .any,
      .keyword .sync]

def Phrase.nullable : Phrase → Bool
  | expr | term => true
  | _ => false

namespace Rule

def nullable : Rule → Bool
  | token _ => false
  | phrase p => p.nullable
  | seq r s => r.nullable && s.nullable
  | alt r s => r.nullable || s.nullable
  | opt _ | many _ => true

def starts : Rule → List Token.Kind
  | token k => [k]
  | phrase p => p.starts
  | seq r s => r.starts ++ if r.nullable then s.starts else []
  | alt r s => r.starts ++ s.starts
  | opt r | many r => r.starts

theorem nullable_rule (p : Phrase) : p.rule.nullable = p.nullable := by
  cases p <;> rfl

theorem starts_rule (p : Phrase) : ∀ k ∈ p.rule.starts, k ∈ p.starts := by
  cases p <;> decide

theorem Derives.nullable {r : Rule} {w : List Token.Kind} (h : r.Derives w) (hw : w = []) :
    r.nullable = true := by
  induction h with
  | token k => cases hw
  | phrase _ ih => exact (nullable_rule _).symm.trans (ih hw)
  | seq _ _ ihr ihs =>
    obtain ⟨hv, hw⟩ := List.append_eq_nil_iff.mp hw
    simp [Rule.nullable, ihr hv, ihs hw]
  | left _ ih => simp [Rule.nullable, ih hw]
  | right _ ih => simp [Rule.nullable, ih hw]
  | none | some | nil | cons => rfl

theorem Derives.mem_starts {r : Rule} {w : List Token.Kind} (h : r.Derives w) {k : Token.Kind}
    {v : List Token.Kind} (hw : w = k :: v) : k ∈ r.starts := by
  induction h generalizing v with
  | token j =>
    cases hw
    simp [starts]
  | phrase _ ih => exact starts_rule _ _ (ih hw)
  | @seq r s u w hr hs ihr ihs =>
    rcases List.append_eq_cons_iff.mp hw with ⟨rfl, hw⟩ | ⟨u, hu, -⟩
    · simp [starts, hr.nullable rfl, ihs hw]
    · simp [starts, ihr hu]
  | left _ ih => simp [starts, ih hw]
  | right _ ih => simp [starts, ih hw]
  | none | nil => cases hw
  | some _ ih => exact ih hw
  | @cons r u w hr hs ihr ihs =>
    rcases List.append_eq_cons_iff.mp hw with ⟨rfl, hw⟩ | ⟨u, hu, -⟩
    · exact ihs hw
    · exact ihr hu

/-- No rule is without words. -/
theorem exists_derives (r : Rule) : ∃ w, r.Derives w := by
  -- a word for each phrase, those that others are made of first
  have hident : (token .ident).Derives [.ident] := .token _
  have hfactor : (phrase .tokenFactor).Derives [.ident] :=
    .phrase (.left (.left (.left (.left (.left hident)))))
  have hterm : (phrase .tokenTerm).Derives [.ident] := .phrase (.seq (.seq hfactor .nil) .none)
  have hsimple : (phrase .simpleSet).Derives [.ident] := .phrase (.left (.left (.left hident)))
  induction r with
  | token k => exact ⟨_, .token k⟩
  | phrase p =>
    cases p with
    | definition =>
      have hsections := ((((Derives.token (.keyword .compiler)).seq hident).seq (.nil (r :=
        token .directive))).seq (.none (r := keyword .characters * many setDecl))).seq
        (.none (r := keyword .tokens * many (phrase .tokenDecl)))
      exact ⟨_, .phrase (.seq (.seq (.seq (.seq (.seq (.seq hsections .none) (.token _)) .nil)
        (.token _)) hident) (.token _))⟩
    | set => exact ⟨_, .phrase (.seq hsimple .nil)⟩
    | simpleSet => exact ⟨_, hsimple⟩
    | tokenDecl => exact ⟨_, .phrase (.seq (.seq (.left hident) .none) .none)⟩
    | tokenExpr => exact ⟨_, .phrase (.seq hterm .nil)⟩
    | tokenTerm => exact ⟨_, hterm⟩
    | tokenFactor => exact ⟨_, hfactor⟩
    | expr => exact ⟨_, .phrase (.seq (.phrase (.seq .none .nil)) .nil)⟩
    | term => exact ⟨_, .phrase (.seq .none .nil)⟩
    | factor => exact ⟨_, .phrase (.left (.left (.left (.left (.left (.left (.seq (.seq .none
        (.left (.left hident))) .none)))))))⟩
  | seq r s ihr ihs =>
    obtain ⟨v, hv⟩ := ihr
    obtain ⟨w, hw⟩ := ihs
    exact ⟨_, .seq hv hw⟩
  | alt r s ihr ihs =>
    obtain ⟨v, hv⟩ := ihr
    exact ⟨_, .left hv⟩
  | opt r _ => exact ⟨_, .none⟩
  | many r _ => exact ⟨_, .nil⟩

/-! ### The words of a rule as a language -/

def language (r : Rule) : Language Token.Kind := {w | r.Derives w}

variable {r s : Rule} {w : List Token.Kind}

theorem mem_language : w ∈ r.language ↔ r.Derives w := Iff.rfl

theorem language_token (k : Token.Kind) : (token k).language = {[k]} := by
  ext w
  refine ⟨fun h => ?_, ?_⟩
  · cases h
    rfl
  · rintro rfl
    exact .token k

theorem language_mul : (r * s).language = r.language * s.language := by
  ext w
  refine ⟨fun h => ?_, ?_⟩
  · cases h with
    | seq hr hs => exact Language.append_mem_mul hr hs
  · rintro ⟨u, hu, v, hv, rfl⟩
    exact .seq hu hv

theorem language_add : (r + s).language = r.language + s.language := by
  ext w
  refine ⟨fun h => ?_, ?_⟩
  · cases h with
    | left h => exact .inl h
    | right h => exact .inr h
  · rintro (h | h)
    · exact .left h
    · exact .right h

theorem language_opt : (opt r).language = 1 + r.language := by
  ext w
  refine ⟨fun h => ?_, ?_⟩
  · cases h with
    | none => exact .inl rfl
    | some h => exact .inr h
  · rintro (h | h)
    · obtain rfl : w = [] := h
      exact .none
    · exact .some h

theorem language_many : (many r).language = KStar.kstar r.language := by
  ext w
  rw [Language.mem_kstar, mem_language]
  refine ⟨fun h => ?_, ?_⟩
  · generalize hm : many r = m at h
    induction h with
    | nil => exact ⟨[], rfl, nofun⟩
    | cons hv _ _ ih =>
      cases hm
      obtain ⟨vs, rfl, hvs⟩ := ih rfl
      exact ⟨_ :: vs, rfl, List.forall_mem_cons.mpr ⟨hv, hvs⟩⟩
    | _ => cases hm
  · rintro ⟨vs, rfl, hvs⟩
    induction vs with
    | nil => exact .nil
    | cons v vs ih =>
      obtain ⟨hv, hvs⟩ := List.forall_mem_cons.mp hvs
      exact .cons hv (ih hvs)

theorem language_opt_mul : (opt r * s).language = s.language + (r * s).language := by
  rw [language_mul, language_opt, add_mul, one_mul, ← language_mul]

theorem language_many_eq : (many r).language = 1 + (r * many r).language := by
  rw [language_mul, language_many, Language.one_add_self_mul_kstar_eq_kstar]

theorem language_phrase (p : Phrase) : (phrase p).language = p.rule.language := by
  ext w
  refine ⟨fun h => ?_, .phrase⟩
  cases h with
  | phrase h => exact h

end Rule

end Lookahead
