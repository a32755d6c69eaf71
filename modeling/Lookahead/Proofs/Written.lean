import Lookahead.Definition.Reader
import Mathlib.Data.List.Forall2

/-!
# How productions are written

The grammar of the right-hand sides of productions as a relation between expressions and tokens
(`Writes`). What the readers take from the front of a list of tokens is written that way
(`Atom.reads_readExpr`), so the productions of a definition are those that its text has between
`PRODUCTIONS` and `END` (`Definition.written_read`).
-/

namespace Lookahead

/-- What an expression is read as. -/
inductive Level where
  | expression
  | term
  | factor

/-- The tokens write the expression. -/
inductive Writes : Level → Expr Atom → List Token → Prop
  | symbol {weak attributes : Option Token} {name : Token}
      (hw : ∀ t ∈ weak, t.kind = .keyword .weak)
      (hn : name.kind = .ident ∨ name.kind = .string ∨ name.kind = .char)
      (ha : ∀ t ∈ attributes, t.kind = .attributes) :
      Writes .factor (.atom (.symbol weak.isSome name attributes))
        (weak.toList ++ name :: attributes.toList)
  | any {t : Token} (ht : t.kind = .keyword .any) : Writes .factor (.atom (.any t)) [t]
  | sync {t : Token} (ht : t.kind = .keyword .sync) : Writes .factor (.atom (.sync t)) [t]
  | action {t : Token} (ht : t.kind = .action) : Writes .factor (.atom (.action t)) [t]
  | group {b : Bracket} {e : Expr Atom} {ts : List Token} {opening closing : Token}
      (ho : Bracket.ofOpening? opening.kind = some b) (hc : closing.kind = b.closing)
      (he : Writes .expression e ts) : Writes .factor (.group b e) (opening :: (ts ++ [closing]))
  | empty : Writes .term .empty []
  | factor {e : Expr Atom} {ts : List Token} (he : Writes .factor e ts) : Writes .term e ts
  /-- A resolver stands in front of the first factor. -/
  | resolved {t : Token} {e : Expr Atom} {ts : List Token} (ht : t.kind = .resolver)
      (he : Writes .factor e ts) : Writes .term (.seq (.atom (.resolver t)) e) (t :: ts)
  | seq {e f : Expr Atom} {ts us : List Token} (he : Writes .term e ts) (hne : ts ≠ [])
      (hf : Writes .factor f us) : Writes .term (.seq e f) (ts ++ us)
  | term {e : Expr Atom} {ts : List Token} (he : Writes .term e ts) : Writes .expression e ts
  | alt {e f : Expr Atom} {ts us : List Token} {bar : Token} (he : Writes .expression e ts)
      (hb : bar.kind = .bar) (hf : Writes .term f us) :
      Writes .expression (.alt e f) (ts ++ bar :: us)

/-- The tokens write the production. -/
inductive Production.Written : Production → List Token → Prop
  | intro {name equals dot : Token} {attributes locals : Option Token} {e : Expr Atom}
      {ts : List Token} (hn : name.kind = .ident) (ha : ∀ t ∈ attributes, t.kind = .attributes)
      (hl : ∀ t ∈ locals, t.kind = .action) (he : equals.kind = .equals)
      (hb : Writes .expression e ts) (hd : dot.kind = .dot) :
      Written ⟨name, attributes, locals, e⟩
        (name :: (attributes.toList ++ (locals.toList ++ equals :: (ts ++ [dot]))))

/-- The productions of the definition, one by one, are what the tokens write between `PRODUCTIONS`
and `END`. -/
def Definition.Written (d : Definition) (ts : List Token) : Prop :=
  ∃ front start parts stop rest, ts = front ++ start :: (parts.flatten ++ stop :: rest) ∧
    start.kind = .keyword .productions ∧ stop.kind = .keyword .ending ∧
    List.Forall₂ Production.Written d.sections.productions parts

/-! ### Steps -/

section

variable {α β γ : Type} {r : Reading β α} {ts rest : List Token} {k : Token.Kind}
  {what : Expected} {t : Token}

namespace Reading

theorem andThen_eq_done {f : α → List Token → Reading β γ} {c : γ} :
    r.andThen f = .done c rest ↔ ∃ a ts, r = .done a ts ∧ f a ts = .done c rest := by
  cases r <;> simp [andThen, and_assoc]

theorem mapPart_eq_done {f : β → γ} {a : α} :
    r.mapPart f = .done a rest ↔ r = .done a rest := by
  cases r <;> simp [mapPart]

theorem map_eq_done {f : α → γ} {c : γ} :
    r.map f = .done c rest ↔ ∃ a, r = .done a rest ∧ f a = c := by
  cases r <;> simp [map, and_comm]

end Reading

theorem expect_eq_done : expect k what ts = .done t rest ↔ ts = t :: rest ∧ t.kind = k := by
  cases ts with
  | nil => simp [expect]
  | cons u us =>
    simp only [expect, List.cons.injEq]
    split
    · rename_i hu
      simp only [Reading.done.injEq]
      refine ⟨?_, fun h => h.1⟩
      rintro ⟨rfl, rfl⟩
      exact ⟨⟨rfl, rfl⟩, hu⟩
    · rename_i hu
      simp only [reduceCtorEq, false_iff]
      rintro ⟨⟨rfl, -⟩, h⟩
      exact hu h

theorem accept_eq {o : Option Token} (h : accept k ts = (o, rest)) :
    ts = o.toList ++ rest ∧ ∀ t ∈ o, t.kind = k := by
  cases ts with
  | nil =>
    cases h
    exact ⟨rfl, nofun⟩
  | cons u us =>
    simp only [accept] at h
    split at h
    · rename_i hu
      cases h
      exact ⟨rfl, by simpa using hu⟩
    · cases h
      exact ⟨rfl, nofun⟩

end

/-! ### Expressions -/

section

variable {α : Type} {T F : Expr α → List Token → Prop} {starts : Token.Kind → Bool}
  {factor term : ExprReader α}

/-- What the reader takes from the front is written as `W` tells. -/
def Reads (r : ExprReader α) (W : Expr α → List Token → Prop) : Prop :=
  ∀ ts e rest, r ts = .done e rest → ∃ us, ts = us ++ rest ∧ W e us

/-- The same for the rest of a group whose opening bracket meets `O`. -/
def ReadsGroup (O : Token → Bracket → Prop) (r : GroupReader α)
    (W : Expr α → List Token → Prop) : Prop :=
  ∀ t b, O t b → Reads (r t b) fun e us => W e (t :: us)

theorem reads_moreFactors (hF : Reads factor F)
    (hT : ∀ e f us vs, T e us → F f vs → T (.seq e f) (us ++ vs)) (fuel : Nat) {e : Expr α}
    {us : List Token} (he : T e us) :
    Reads (ExprReader.moreFactors starts factor fuel e) fun f vs => T f (us ++ vs) := by
  induction fuel generalizing e us with
  | zero =>
    rintro ts f rest ⟨⟩
    exact ⟨[], rfl, by simpa using he⟩
  | succ fuel ih =>
    rintro (_ | ⟨t, ts⟩) f rest h
    · cases h
      exact ⟨[], rfl, by simpa using he⟩
    · simp only [ExprReader.moreFactors] at h
      split at h
      · split at h
        · rename_i g ts' hg
          obtain ⟨vs, hvs, hgw⟩ := hF _ _ _ hg
          obtain ⟨ws, rfl, hf⟩ := ih (hT _ _ _ _ he hgw) _ _ _ h
          exact ⟨vs ++ ws, by simpa using hvs, by simpa using hf⟩
        · cases h
      · cases h
        exact ⟨[], rfl, by simpa using he⟩

theorem reads_moreAlternatives {E : Expr α → List Token → Prop} (hT : Reads term T)
    (hE : ∀ e f us t vs, E e us → t.kind = .bar → T f vs → E (.alt e f) (us ++ t :: vs))
    (fuel : Nat) {e : Expr α} {us : List Token} (he : E e us) :
    Reads (ExprReader.moreAlternatives term fuel e) fun f vs => E f (us ++ vs) := by
  induction fuel generalizing e us with
  | zero =>
    rintro ts f rest ⟨⟩
    exact ⟨[], rfl, by simpa using he⟩
  | succ fuel ih =>
    rintro (_ | ⟨t, ts⟩) f rest h
    · cases h
      exact ⟨[], rfl, by simpa using he⟩
    · simp only [ExprReader.moreAlternatives] at h
      split at h
      · rename_i hbar
        split at h
        · rename_i g ts' hg
          obtain ⟨vs, rfl, hgw⟩ := hT _ _ _ hg
          obtain ⟨ws, rfl, hf⟩ := ih (hE _ _ _ _ _ he hbar hgw) _ _ _ h
          exact ⟨t :: (vs ++ ws), by simp, by simpa using hf⟩
        · cases h
      · cases h
        exact ⟨[], rfl, by simpa using he⟩

theorem reads_alternatives {E : Expr α → List Token → Prop} (hT : Reads term T)
    (hTE : ∀ e us, T e us → E e us)
    (hE : ∀ e f us t vs, E e us → t.kind = .bar → T f vs → E (.alt e f) (us ++ t :: vs)) :
    Reads (ExprReader.alternatives term) E := by
  intro ts e rest h
  obtain ⟨f, ts', hf, h⟩ := Reading.andThen_eq_done.mp h
  obtain ⟨us, hus, hu⟩ := hT _ _ _ hf
  obtain ⟨vs, rfl, hv⟩ := reads_moreAlternatives hT hE _ (hTE _ _ hu) _ _ _ h
  exact ⟨us ++ vs, by simpa using hus, hv⟩

/-- Groups nested to any depth are written as groups, if their contents are expressions. -/
theorem readsGroup_groups {O : Token → Bracket → Prop} {E : Expr α → List Token → Prop}
    {content : GroupReader α → ExprReader α} (hC : ∀ g, ReadsGroup O g F → Reads (content g) E)
    (hF : ∀ b e o us c, O o b → c.kind = b.closing → E e us →
      F (.group b e) (o :: (us ++ [c]))) (room : Nat) :
    ReadsGroup O (ExprReader.groups content room) F := by
  induction room with
  | zero => exact fun t b _ ts e rest h => nomatch h
  | succ room ih =>
    intro t b hb ts e rest h
    simp only [ExprReader.groups, ExprReader.close] at h
    split at h
    · rename_i f ts' hf
      obtain ⟨us, rfl, hu⟩ := hC _ ih _ _ _ hf
      split at h
      · rename_i c ts'' hc
        obtain ⟨rfl, hk⟩ := expect_eq_done.mp hc
        cases h
        exact ⟨us ++ [c], by simp, hF _ _ _ _ _ hb hk hu⟩
      · cases h
    · cases h

end

/-- A factor is written with one token at least. -/
theorem Writes.ne_nil {e : Expr Atom} {ts : List Token} (h : Writes .factor e ts) : ts ≠ [] := by
  cases h <;> simp

namespace Atom

variable {group : GroupReader Atom}

/-- The bracket that a token opens. -/
abbrev Opens (t : Token) (b : Bracket) : Prop := Bracket.ofOpening? t.kind = some b

theorem reads_readSymbol {w : Option Token} (hw : ∀ t ∈ w, t.kind = .keyword .weak) :
    Reads (readSymbol w.isSome) fun e us => Writes .factor e (w.toList ++ us) := by
  rintro (_ | ⟨t, ts⟩) e rest h
  · cases h
  · simp only [readSymbol] at h
    split at h
    · rename_i hn
      rcases hts : accept .attributes ts with ⟨attributes, ts'⟩
      rw [hts] at h
      obtain ⟨rfl, ha⟩ := accept_eq hts
      cases h
      exact ⟨t :: attributes.toList, rfl, .symbol hw hn ha⟩
    · cases h

theorem reads_readFactor (hg : ReadsGroup Opens group (Writes .factor)) :
    Reads (readFactor group) (Writes .factor) := by
  rintro (_ | ⟨t, ts⟩) e rest h
  · cases h
  · simp only [readFactor] at h
    split at h
    · rename_i hk
      obtain ⟨us, rfl, hu⟩ := reads_readSymbol (w := some t) (by simpa using hk) _ _ _ h
      exact ⟨t :: us, rfl, hu⟩
    iterate 3 exact reads_readSymbol (w := none) nofun _ _ _ h
    · rename_i hk
      cases h
      exact ⟨[t], rfl, .action hk⟩
    · rename_i hk
      cases h
      exact ⟨[t], rfl, .any hk⟩
    · rename_i hk
      cases h
      exact ⟨[t], rfl, .sync hk⟩
    · split at h
      · rename_i b hb
        obtain ⟨us, rfl, hu⟩ := hg t b hb _ _ _ h
        exact ⟨t :: us, rfl, hu⟩
      · cases h

theorem reads_readTerm (hg : ReadsGroup Opens group (Writes .factor)) :
    Reads (readTerm group) (Writes .term) := by
  have hfactor := reads_readFactor hg
  -- a term that takes more factors must have taken a token
  have hmore (starts : Token.Kind → Bool) (fuel : Nat) {e : Expr Atom} {us : List Token}
      (he : Writes .term e us) (hne : us ≠ []) :
      Reads (ExprReader.moreFactors starts (readFactor group) fuel e)
        fun f vs => Writes .term f (us ++ vs) ∧ us ++ vs ≠ [] :=
    reads_moreFactors (T := fun e us => Writes .term e us ∧ us ≠ []) hfactor
      (fun e f us vs he hf => ⟨.seq he.1 he.2 hf, by simp [he.2]⟩) fuel ⟨he, hne⟩
  rintro (_ | ⟨t, ts⟩) e rest h
  · cases h
    exact ⟨[], rfl, .empty⟩
  · simp only [readTerm] at h
    split at h
    · rename_i hk
      split at h
      · rename_i f ts' hf
        obtain ⟨us, rfl, hu⟩ := hfactor _ _ _ hf
        obtain ⟨vs, rfl, hv, -⟩ := hmore _ _ (.resolved hk hu) (by simp) _ _ _ h
        exact ⟨t :: (us ++ vs), by simp, hv⟩
      · cases h
    · split at h
      · obtain ⟨f, ts', hf, h⟩ := Reading.andThen_eq_done.mp h
        obtain ⟨us, hus, hu⟩ := hfactor _ _ _ hf
        obtain ⟨vs, rfl, hv, -⟩ := hmore _ _ (.factor hu) hu.ne_nil _ _ _ h
        exact ⟨us ++ vs, by simpa using hus, hv⟩
      · cases h
        exact ⟨[], rfl, .empty⟩

/-- The right-hand side of a production is read as it is written. -/
theorem reads_readExpr : Reads readExpr (Writes .expression) := by
  have hcontent (g : GroupReader Atom) (hg : ReadsGroup Opens g (Writes .factor)) :
      Reads (ExprReader.alternatives (readTerm g)) (Writes .expression) :=
    reads_alternatives (reads_readTerm hg) (fun _ _ => .term) fun _ _ _ _ _ => .alt
  exact hcontent _ (readsGroup_groups hcontent (fun _ _ _ _ _ => .group) _)

end Atom

/-! ### Declarations -/

/-- A declaration is written as `P` tells, the token that it starts with included. -/
def ReadsDecl {δ : Type} (r : DeclReader δ) (starts : Token.Kind → Bool)
    (P : δ → List Token → Prop) : Prop :=
  ∀ t ts d rest, starts t.kind = true → r t ts = .done d rest →
    ∃ us, ts = us ++ rest ∧ P d (t :: us)

theorem Production.readsDecl_read :
    ReadsDecl Production.read Definition.isName Production.Written := by
  intro name ts d rest hn h
  unfold Production.read at h
  rcases hts : accept .attributes ts with ⟨attributes, ts₁⟩
  rw [hts] at h
  rcases hts₁ : accept .action ts₁ with ⟨locals, ts₂⟩
  simp only [hts₁, Reading.andThen_eq_done, Reading.mapPart_eq_done, expect_eq_done] at h
  obtain ⟨eq, us, ⟨rfl, heq⟩, e, vs, he, dot, ws, ⟨rfl, hdot⟩, h⟩ := h
  cases h
  obtain ⟨rfl, ha⟩ := accept_eq hts
  obtain ⟨rfl, hl⟩ := accept_eq hts₁
  obtain ⟨bs, rfl, hb⟩ := Atom.reads_readExpr _ _ _ he
  exact ⟨_, by simp, .intro (by simpa [Definition.isName] using hn) ha hl heq hb hdot⟩

section

variable {δ : Type} {starts : Token.Kind → Bool} {decl : DeclReader δ}
  {P : δ → List Token → Prop} {ts rest : List Token} {ds : List δ}

theorem reads_readMany (hd : ReadsDecl decl starts P) (fuel : Nat)
    (h : readMany starts decl fuel ts = .done ds rest) :
    ∃ parts, ts = parts.flatten ++ rest ∧ List.Forall₂ P ds parts := by
  induction fuel generalizing ts ds with
  | zero =>
    cases h
    exact ⟨[], rfl, .nil⟩
  | succ fuel ih =>
    cases ts with
    | nil =>
      cases h
      exact ⟨[], rfl, .nil⟩
    | cons t ts =>
      simp only [readMany] at h
      split at h
      · rename_i ht
        split at h
        · cases h
        · rename_i d ts' hdecl
          obtain ⟨ds', hds, rfl⟩ := Reading.map_eq_done.mp (Reading.mapPart_eq_done.mp h)
          obtain ⟨us, rfl, hu⟩ := hd _ _ _ _ ht hdecl
          obtain ⟨parts, rfl, hparts⟩ := ih hds
          exact ⟨(t :: us) :: parts, by simp, .cons hu hparts⟩
      · cases h
        exact ⟨[], rfl, .nil⟩

theorem suffix_readSection {k : Keyword} (hd : ReadsDecl decl starts P)
    (h : readSection k starts decl ts = .done ds rest) : rest <:+ ts := by
  rcases hts : accept (.keyword k) ts with ⟨o, ts'⟩
  simp only [readSection, hts] at h
  obtain ⟨rfl, -⟩ := accept_eq hts
  cases o with
  | none =>
    cases h
    exact List.suffix_append ..
  | some t =>
    obtain ⟨parts, rfl, -⟩ := reads_readMany hd _ h
    exact (List.suffix_append ..).trans (List.suffix_append ..)

end

/-! ### Sections without productions -/

theorem SetTerm.suffix_readFrom (minus : Bool) (fuel : Nat) {ts rest : List Token}
    {terms : List SetTerm} (h : SetTerm.readFrom minus fuel ts = .done terms rest) :
    rest <:+ ts := by
  have hset {ts rest : List Token} {set : SimpleSet} (h : SimpleSet.read ts = .done set rest) :
      rest <:+ ts := by
    cases ts with
    | nil => cases h
    | cons t ts =>
      simp only [SimpleSet.read] at h
      split at h
      iterate 3
        cases h
        exact List.suffix_cons ..
      · rcases hts : accept .dotDot ts with ⟨o, ts'⟩
        obtain ⟨rfl, -⟩ := accept_eq hts
        rw [hts] at h
        refine .trans ?_ ((List.suffix_append o.toList ts').trans (List.suffix_cons t _))
        cases o with
        | none =>
          cases h
          exact List.suffix_rfl
        | some u =>
          dsimp only at h
          split at h
          · rename_i hc
            obtain ⟨rfl, -⟩ := expect_eq_done.mp hc
            cases h
            exact List.suffix_cons ..
          · cases h
      · cases h
  induction fuel generalizing minus ts terms with
  | zero =>
    cases h
    exact List.suffix_rfl
  | succ fuel ih =>
    simp only [SetTerm.readFrom] at h
    split at h
    · cases h
    · rename_i hs
      cases h
      exact hset hs
    · rename_i set t ts' hs
      refine .trans ?_ (hset hs)
      split at h
      · cases h
        exact List.suffix_rfl
      · obtain ⟨terms', hterms, -⟩ := Reading.map_eq_done.mp (Reading.mapPart_eq_done.mp h)
        exact (ih _ hterms).trans (List.suffix_cons ..)

theorem SetDecl.readsDecl_read (starts : Token.Kind → Bool) :
    ReadsDecl SetDecl.read starts fun _ _ => True := by
  intro name ts d rest _ h
  simp only [SetDecl.read, Reading.andThen_eq_done, Reading.mapPart_eq_done, expect_eq_done] at h
  obtain ⟨eq, us, ⟨rfl, -⟩, terms, vs, hterms, dot, ws, ⟨rfl, -⟩, h⟩ := h
  cases h
  obtain ⟨us, rfl⟩ := SetTerm.suffix_readFrom _ _ hterms
  exact ⟨eq :: (us ++ [dot]), by simp, trivial⟩

/-- No part of the expression is empty. -/
def Expr.Solid {α : Type} : Expr α → Prop
  | empty => False
  | atom _ => True
  | seq e f | alt e f => e.Solid ∧ f.Solid
  | group _ e => e.Solid

namespace TokenAtom

/-- How structures of tokens are written does not matter here, but they are read from the front,
and no part of them is empty. -/
theorem reads_readExpr : Reads readExpr fun e _ => e.Solid := by
  have hfactor (g : GroupReader TokenAtom)
      (hg : ReadsGroup (fun _ _ => True) g fun e _ => e.Solid) :
      Reads (readFactor g) fun e _ => e.Solid := by
    rintro (_ | ⟨t, ts⟩) e rest h
    · cases h
    · simp only [readFactor] at h
      split at h
      iterate 3
        cases h
        exact ⟨[t], rfl, trivial⟩
      split at h
      · rename_i b hb
        obtain ⟨us, rfl, hu⟩ := hg t b trivial _ _ _ h
        exact ⟨t :: us, rfl, hu⟩
      · cases h
  have hcontext (g : GroupReader TokenAtom)
      (hg : ReadsGroup (fun _ _ => True) g fun e _ => e.Solid) (e : Expr TokenAtom)
      (he : e.Solid) : Reads (readContext g e) fun e _ => e.Solid := by
    intro ts f rest h
    rcases hts : accept (.keyword .context) ts with ⟨o, ts'⟩
    obtain ⟨rfl, -⟩ := accept_eq hts
    simp only [readContext, hts] at h
    cases o with
    | none =>
      cases h
      exact ⟨[], rfl, he⟩
    | some k =>
      dsimp only at h
      split at h
      · cases h
      · rename_i t ts'' hopen
        obtain ⟨rfl, -⟩ := expect_eq_done.mp hopen
        split at h
        · rename_i f ts₃ hf
          obtain ⟨us, rfl, hu⟩ := hg t .context trivial _ _ _ hf
          cases h
          exact ⟨k :: t :: us, by simp, he, hu⟩
        · cases h
  have hterm (g : GroupReader TokenAtom)
      (hg : ReadsGroup (fun _ _ => True) g fun e _ => e.Solid) :
      Reads (readTerm g) fun e _ => e.Solid := by
    intro ts e rest h
    obtain ⟨f, ts', hf, h⟩ := Reading.andThen_eq_done.mp h
    obtain ⟨f', ts'', hf', hf⟩ := Reading.andThen_eq_done.mp hf
    obtain ⟨us, hus, hu⟩ := hfactor g hg _ _ _ hf'
    obtain ⟨vs, rfl, hv⟩ := @reads_moreFactors _ (fun e _ => e.Solid) _ _ _ (hfactor g hg)
      (fun _ _ _ _ he hf => ⟨he, hf⟩) _ f' [] hu _ _ _ hf
    obtain ⟨ws, rfl, hw⟩ := hcontext g hg f hv _ _ _ h
    exact ⟨us ++ (vs ++ ws), by simpa using hus, hw⟩
  have hcontent (g : GroupReader TokenAtom)
      (hg : ReadsGroup (fun _ _ => True) g fun e _ => e.Solid) :
      Reads (ExprReader.alternatives (readTerm g)) fun e _ => e.Solid :=
    reads_alternatives (hterm g hg) (fun _ _ => id) fun _ _ _ _ _ he _ hf => ⟨he, hf⟩
  exact hcontent _ (readsGroup_groups hcontent (fun _ _ _ _ _ _ _ => id) _)

end TokenAtom

theorem TokenDecl.readsDecl_read (broken : Token → Expr TokenAtom → Fragment)
    (starts : Token.Kind → Bool) :
    ReadsDecl (TokenDecl.read broken) starts fun d _ => ∀ e ∈ d.body, e.Solid := by
  intro name ts d rest _ h
  rcases hts : accept .equals ts with ⟨o, ts'⟩
  obtain ⟨rfl, -⟩ := accept_eq hts
  simp only [TokenDecl.read, hts] at h
  cases o with
  | none =>
    rcases hts' : accept .action ts' with ⟨action, ts''⟩
    obtain ⟨rfl, -⟩ := accept_eq hts'
    simp only [hts'] at h
    cases h
    exact ⟨action.toList, by simp, nofun⟩
  | some eq =>
    simp only [Reading.andThen_eq_done, Reading.mapPart_eq_done, expect_eq_done] at h
    obtain ⟨e, us, he, dot, vs, ⟨rfl, -⟩, h⟩ := h
    obtain ⟨bs, rfl, hsolid⟩ := TokenAtom.reads_readExpr _ _ _ he
    rcases hvs : accept .action vs with ⟨action, ws⟩
    obtain ⟨rfl, -⟩ := accept_eq hvs
    simp only [hvs] at h
    cases h
    exact ⟨eq :: (bs ++ dot :: action.toList), by simp, by simpa using hsolid⟩

namespace Definition

theorem between_eq_done {α β : Type} {s : Sections} {r : Reading β α} {a : α} {rest : List Token} :
    between s r = .done a rest ↔ r = .done a rest := Reading.mapPart_eq_done

/-- A definition has the productions that are written in the text. -/
theorem written_readTokens {ts rest : List Token} {d : Definition}
    (h : readTokens ts = .done d rest) : d.Written ts := by
  simp only [readTokens, Reading.andThen_eq_done, Reading.mapPart_eq_done, between_eq_done,
    expect_eq_done] at h
  obtain ⟨compiler, ts₁, ⟨rfl, -⟩, name, ts₂, ⟨rfl, -⟩, sets, ts₃, hsets, tokens, ts₄, htokens,
    pragmas, ts₅, hpragmas, start, ts₆, ⟨rfl, hstart⟩, productions, ts₇, hproductions, stop, ts₈,
    ⟨rfl, hstop⟩, last, ts₉, ⟨rfl, -⟩, dot, ts₁₀, ⟨rfl, -⟩, h⟩ := h
  cases h
  obtain ⟨parts, rfl, hparts⟩ := reads_readMany Production.readsDecl_read _ hproductions
  have hsuffix := (suffix_readSection (TokenDecl.readsDecl_read _ _) hpragmas).trans
    ((suffix_readSection (TokenDecl.readsDecl_read _ _) htokens).trans
      (suffix_readSection (SetDecl.readsDecl_read _) hsets))
  obtain ⟨front, hfront⟩ := hsuffix.trans (List.dropWhile_suffix _)
  refine ⟨compiler :: name :: front, start, parts, stop, last :: dot :: rest, ?_, hstart, hstop,
    hparts⟩
  simp [← hfront]

/-- So has a definition that is the whole text. -/
theorem written_read {source : String} {d : Definition}
    (h : read source = .ok d) : d.Written (Token.read source).tokens := by
  unfold read at h
  dsimp only at h
  split at h
  · cases h
  · split at h
    · rename_i hr
      cases h
      exact written_readTokens hr
    · cases h

end Definition

end Lookahead
