import Lookahead.Proofs.Recording
import Lookahead.Proofs.Unique

/-!
# Attributes that do not match

A symbol remembers whether it has attributes from the first place that names it, or from its
production, and each further place is compared with what it remembers. As long as no mismatch has
been reported, all places that a symbol stands for agree with the symbol (`Table.Agrees`), and the
first mismatch is one between two places (`Table.Clashes`). One place keeps this
(`Table.Meets.compares`), and so does everything that is built from places, up to whole texts
(`Grammar.mismatch_iff_clash`).
-/

namespace Lookahead

open Table

/-! ### Occurrences -/

/-- A name in the productions, and whether attributes stand behind it. -/
structure Occurrence where
  name : Token
  attributed : Bool

def Atom.occurrences : Atom → List Occurrence
  | symbol _ name attributes => [⟨name, attributes.isSome⟩]
  | _ => []

def Expr.occurrences : Expr Atom → List Occurrence
  | empty => []
  | atom a => a.occurrences
  | seq e f | alt e f => e.occurrences ++ f.occurrences
  | group _ e => e.occurrences

/-- The head of a production and the uses behind it. -/
def Production.occurrences (p : Production) : List Occurrence :=
  ⟨p.name, p.attributes.isSome⟩ :: p.body.occurrences

namespace Sections

def occurrences (s : Sections) : List Occurrence := s.productions.flatMap Production.occurrences

/-- The table before the productions. Its symbols are the end of input, the tokens and the
pragmas. -/
def front (s : Sections) : Table := ({ s with productions := [] } : Sections).declare.value

end Sections

namespace Table

variable {t u v : Table} {n : Nat} {ps os os' : List Occurrence} {o : Occurrence} {s : SymbolId}
  {b : Bool}

/-- The symbol occurs with attributes, or without. Symbols below `n` count as occurring once
without attributes. -/
def OccursAs (t : Table) (n : Nat) (os : List Occurrence) (s : SymbolId) (b : Bool) : Prop :=
  s < n ∧ b = false ∨ ∃ o ∈ os, Atom.resolve? t o.name = some s ∧ o.attributed = b

/-- Some symbol occurs with attributes as well as without. -/
def Clashes (t : Table) (n : Nat) (os : List Occurrence) : Prop :=
  ∃ s, t.OccursAs n os s true ∧ t.OccursAs n os s false

/-- Each symbol has attributes if and only if they stand wherever it occurs. -/
structure Agrees (n : Nat) (os : List Occurrence) (t : Table) : Prop where
  worded : ∀ o ∈ os, o.name.Worded
  le : n ≤ t.symbols.size
  literal : ∀ p ∈ t.literals, p.2 < n
  means : ∀ o ∈ os, ∃ s, t.Means o.name s
  attributes : ∀ s b, t.OccursAs n os s b → (t.symbol s).attributes.isSome = b
  /-- No symbol but those of empty literals is there without an occurrence. -/
  occurs : ∀ s, n ≤ s → s < t.symbols.size → (t.symbol s).name ≠ invalidName →
    ∃ b, t.OccursAs n os s b

theorem OccursAs.mono (h : t.OccursAs n os s b) (hos : ∀ o ∈ os, o ∈ os') : t.OccursAs n os' s b :=
  h.imp_right fun ⟨o, ho, hs⟩ => ⟨o, hos o ho, hs⟩

theorem OccursAs.keeps (h : t.OccursAs n os s b) (hk : Keeps t u) (hw : ∀ o ∈ os, o.name.Worded) :
    u.OccursAs n os s b :=
  h.imp_right fun ⟨o, ho, hs, hb⟩ => ⟨o, ho, hk.resolve _ s (hw o ho) hs, hb⟩

theorem Clashes.keeps (h : t.Clashes n os) (hk : Keeps t u) (hw : ∀ o ∈ os, o.name.Worded)
    (hos : ∀ o ∈ os, o ∈ os') : u.Clashes n os' :=
  let ⟨s, ht, hf⟩ := h
  ⟨s, (ht.keeps hk hw).mono hos, (hf.keeps hk hw).mono hos⟩

/-- A name that has a meaning gets no other one. -/
theorem Means.resolve_of_keeps {name : Token} {r : SymbolId} (h : t.Means name r)
    (hk : Keeps t u) (hw : name.Worded) (hs : Atom.resolve? u name = some s) :
    Atom.resolve? t name = some s := by
  unfold Means at h
  split at h
  · rename_i q hq
    exact hq.trans ((hk.resolve _ _ hw hq).symm.trans hs)
  · rename_i hq
    exact absurd (hk.unresolved _ h.1 hq) (by simp [hs])

namespace Agrees

theorem occurs_of_keeps (h : Agrees n os t) (hk : Keeps t u) (ho : u.OccursAs n os s b) :
    t.OccursAs n os s b :=
  ho.imp_right fun ⟨o, ho, hs, hb⟩ =>
    let ⟨_, hm⟩ := h.means o ho
    ⟨o, ho, hm.resolve_of_keeps hk (h.worded o ho) hs, hb⟩

/-- Symbols that agree with their occurrences do not clash, now or later. -/
theorem not_clashes (h : Agrees n os t) (hk : Keeps t u) : ¬u.Clashes n os := by
  rintro ⟨s, ht, hf⟩
  have htrue := h.attributes s true (h.occurs_of_keeps hk ht)
  have hfalse := h.attributes s false (h.occurs_of_keeps hk hf)
  simp [htrue] at hfalse

theorem lt_of_occurs (ht : Registered t) (h : Agrees n os t) (ho : t.OccursAs n os s b) :
    s < t.symbols.size := by
  rcases ho with ⟨hs, -⟩ | ⟨o, -, hs, -⟩
  · exact hs.trans_le h.le
  · exact Atom.lt_of_resolve ht hs

/-- What a name stands for has occurred before. -/
theorem exists_occurs (ht : Registered t) (h : Agrees n os t) {name : Token} (hw : name.Worded)
    (hs : Atom.resolve? t name = some s) : ∃ b, t.OccursAs n os s b := by
  by_cases hlt : s < n
  · exact ⟨false, .inl ⟨hlt, rfl⟩⟩
  refine h.occurs s (Nat.le_of_not_lt hlt) (Atom.lt_of_resolve ht hs) ?_
  simp only [Atom.resolve?] at hs
  split at hs
  · rename_i r hf
    obtain rfl := Option.some.inj hs
    rw [name_of_find hf]
    exact hw.valid
  · split at hs
    · cases hs
    · obtain ⟨p, hp, rfl⟩ := Option.map_eq_some_iff.mp hs
      exact absurd (h.literal p (Array.mem_of_find?_eq_some hp)) hlt

end Agrees

/-! ### One more occurrence -/

/-- The table `u` is `t` after an occurrence of a name, which stands for `s` and may have been
declared for it. -/
structure Meets (t u : Table) (name : Token) (s : SymbolId) : Prop where
  registered : Registered u
  keeps : Keeps t u
  means : u.Means name s
  literals : u.literals = t.literals
  fresh : Atom.resolve? t name = none → s = t.symbols.size
  only : ∀ r, t.symbols.size ≤ r → r < u.symbols.size → r = s
  others : ∀ r < t.symbols.size, r ≠ s →
    (u.symbol r).attributes.isSome = (t.symbol r).attributes.isSome

namespace Meets

variable {name : Token} {f : Symbol → Symbol}

theorem refl (ht : Registered t) (hs : Atom.resolve? t name = some s) : Meets t t name s where
  registered := ht
  keeps := .refl t
  means := means_of_resolve hs
  literals := rfl
  fresh hn := by simp [hs] at hn
  only _ hle hlt := absurd hlt (Nat.not_lt_of_le hle)
  others _ _ _ := rfl

theorem onGraph (h : Meets t u name s) (g : Graph) : Meets t { u with graph := g } name s where
  registered := (Continues.onGraph u g).registered h.registered
  keeps := h.keeps.trans (.onGraph u g)
  means := h.means
  literals := h.literals
  fresh := h.fresh
  only := h.only
  others := h.others

theorem modifySymbol (hw : name.Worded) (h : Meets t u name s)
    (hf : ∀ b, (f b).name = b.name ∧ (f b).kind = b.kind ∧ (f b).index = b.index) :
    Meets t (u.modifySymbol s f) name s := by
  have hk := Keeps.modifySymbol u s (fun b => (hf b).1) fun b => (hf b).2.1
  exact
    { registered := h.registered.modifySymbol s (fun b => (hf b).2.1) fun _ => (hf _).2.2
      keeps := h.keeps.trans hk
      means := h.means.keeps h.registered hk hw
      literals := h.literals
      fresh := h.fresh
      only := fun r hle hlt => h.only r hle (size_modifySymbol ▸ hlt)
      others := fun r hr hne => by
        rw [symbol_modifySymbol, if_neg fun h => hne h.1.symm]
        exact h.others r hr hne }

/-- A name without a meaning is declared. -/
theorem declare (ht : Registered t) (hw : name.Worded) (hr : Atom.resolve? t name = none)
    {k : SymbolKind} (hk : k ≠ .pragma) (line : Nat) :
    Meets t (t.declare k (String.ofList name.spelling) line).value.1 name
      (t.declare k (String.ofList name.spelling) line).value.2 := by
  obtain ⟨hkeeps, hmeans⟩ := keeps_declare ht hw hr hk line
  have hreg := (Continues.declare t k (String.ofList name.spelling) line).registered ht
  obtain ⟨m, hm⟩ : ∃ m, (t.declare k (String.ofList name.spelling) line).value =
      t.addSymbol k m line := by
    unfold Table.declare
    split <;> exact ⟨_, rfl⟩
  rw [hm] at hkeeps hmeans hreg ⊢
  obtain ⟨j, -, hsym⟩ := symbol_addSymbol t k m line
  refine ⟨hreg, hkeeps, hmeans, literals_addSymbol, fun _ => snd_addSymbol, fun r hle hlt => ?_,
    fun r hr _ => by rw [hsym, if_neg hr.ne]⟩
  rw [size_addSymbol] at hlt
  rw [snd_addSymbol]
  exact Nat.le_antisymm (Nat.le_of_lt_succ hlt) hle

theorem declareUse (ht : Registered t) (hw : name.Worded) (hr : Atom.resolve? t name = none) :
    Meets t (Atom.declareUse t name).value.1 name (Atom.declareUse t name).value.2 := by
  unfold Atom.declareUse
  split
  · exact declare ht hw hr (by simp) 0
  · exact (declare ht hw hr (by simp) name.line).modifySymbol hw fun _ => ⟨rfl, rfl, rfl⟩

theorem declareName (ht : Registered t) (hn : name.kind = .ident) (hw : name.Worded) :
    Meets t (Production.declareName t name).value.1.1 name
      (Production.declareName t name).value.1.2 := by
  unfold Production.declareName
  split
  · rename_i hf
    have h := declare ht hw ((resolve?_of_ident hn).trans hf) (k := .nonterminal) (by simp)
      name.line
    rwa [text_of_ident hn] at h
  · rename_i s hf
    simp only [Noted.value_bind, Noted.value_ite, Noted.value_pure, ite_self]
    exact (refl ht ((resolve?_of_ident hn).trans hf)).modifySymbol hw fun _ => ⟨rfl, rfl, rfl⟩

/-- The symbol gets the attributes of the occurrence. -/
theorem setAttributes (hw : name.Worded) (h : Meets t u name s) (attributes : Option Token) :
    Meets t (setAttributes u s attributes) name s ∧
      ((Lookahead.setAttributes u s attributes).symbol s).attributes.isSome =
        attributes.isSome := by
  refine ⟨h.modifySymbol hw fun _ => ⟨rfl, rfl, rfl⟩, ?_⟩
  rw [Lookahead.setAttributes, symbol_modifySymbol, if_pos ⟨rfl, h.means.lt h.registered⟩,
    Option.isSome_map]

end Meets

end Table

/-- There is a mismatch among the reports. -/
def Mismatched (l : List Diagnostic) : Prop := ∃ d ∈ l, d.cause = .fault .attributeMismatch

@[simp] theorem not_mismatched_nil : ¬Mismatched [] := nofun

theorem mismatched_append {l l' : List Diagnostic} :
    Mismatched (l ++ l') ↔ Mismatched l ∨ Mismatched l' := by
  simp only [Mismatched, List.mem_append, or_and_right, exists_or]

theorem Noted.Only.not_mismatched {α : Type} {x : Noted α} (h : x.Only Diagnostic.NoMismatch) :
    ¬Mismatched x.reports :=
  fun ⟨d, hd, hc⟩ => (h d hd).2 hc

theorem mismatched_checkAttributes {t : Table} {s : SymbolId} {name : Token}
    {attributes : Option Token} : Mismatched (checkAttributes t s name attributes).reports ↔
      (t.symbol s).attributes.isSome ≠ attributes.isSome := by
  unfold checkAttributes
  split <;> simp [Mismatched, faultAt, Diagnostic.error, *]

namespace Table

variable {t u v : Table} {n : Nat} {ps os os' : List Occurrence} {l l' : List Diagnostic}

/-- On the way from `t` to `u` the occurrences have been met and compared with those before, and
the diagnostics reported. -/
structure Compares (t : Table) (os : List Occurrence) (l : List Diagnostic) (u : Table) :
    Prop where
  registered : Registered u
  keeps : Keeps t u
  worded : ∀ o ∈ os, o.name.Worded
  agrees : ∀ {n ps}, Agrees n ps t → ¬Mismatched l → Agrees n (ps ++ os) u
  clashes : ∀ {n ps}, Agrees n ps t → Mismatched l → u.Clashes n (ps ++ os)

namespace Compares

theorem refl (ht : Registered t) : Compares t [] [] t where
  registered := ht
  keeps := .refl t
  worded _ ho := absurd ho List.not_mem_nil
  agrees h _ := by rwa [List.append_nil]
  clashes _ := nofun

theorem trans (h : Compares t os l u) (h' : Compares u os' l' v) :
    Compares t (os ++ os') (l ++ l') v where
  registered := h'.registered
  keeps := h.keeps.trans h'.keeps
  worded := List.forall_mem_append.mpr ⟨h.worded, h'.worded⟩
  agrees hps hl := by
    rw [mismatched_append, not_or] at hl
    rw [← List.append_assoc]
    exact h'.agrees (h.agrees hps hl.1) hl.2
  clashes {n ps} hps hl := by
    rw [← List.append_assoc]
    by_cases hm : Mismatched l
    · exact (h.clashes hps hm).keeps h'.keeps
        (List.forall_mem_append.mpr ⟨hps.worded, h.worded⟩)
        fun o ho => List.mem_append_left os' ho
    · exact h'.clashes (h.agrees hps hm) ((mismatched_append.mp hl).resolve_left hm)

/-- Changes that concern neither names nor attributes do not matter. -/
theorem of_keeps (h : Compares t os l u) (hv : Registered v) (hk : Keeps u v)
    (hsize : v.symbols.size = u.symbols.size) (hlit : v.literals = u.literals)
    (hattr : ∀ s, (v.symbol s).attributes = (u.symbol s).attributes) : Compares t os l v where
  registered := hv
  keeps := h.keeps.trans hk
  worded := h.worded
  agrees hps hl := by
    have hu := h.agrees hps hl
    exact
      { worded := hu.worded
        le := hsize ▸ hu.le
        literal := hlit ▸ hu.literal
        means := fun o ho =>
          let ⟨s, hs⟩ := hu.means o ho
          ⟨s, hs.keeps h.registered hk (hu.worded o ho)⟩
        attributes := fun s b ho => by
          rw [hattr]
          exact hu.attributes s b (hu.occurs_of_keeps hk ho)
        occurs := fun s hn hs hname => by
          rw [hsize] at hs
          rw [hk.name s hs] at hname
          obtain ⟨b, hb⟩ := hu.occurs s hn hs hname
          exact ⟨b, hb.keeps hk hu.worded⟩ }
  clashes hps hl := (h.clashes hps hl).keeps hk
    (List.forall_mem_append.mpr ⟨hps.worded, h.worded⟩) fun _ ho => ho

theorem onGraph (h : Compares t os l u) (g : Graph) : Compares t os l { u with graph := g } :=
  h.of_keeps ((Continues.onGraph u g).registered h.registered) (.onGraph u g) rfl rfl fun _ => rfl

theorem modifySymbol (h : Compares t os l u) (s : SymbolId) {f : Symbol → Symbol}
    (hf : ∀ b, (f b).name = b.name ∧ (f b).kind = b.kind ∧ (f b).index = b.index ∧
      (f b).attributes = b.attributes) : Compares t os l (u.modifySymbol s f) :=
  h.of_keeps (h.registered.modifySymbol s (fun b => (hf b).2.1) fun _ => (hf _).2.2.1)
    (.modifySymbol u s (fun b => (hf b).1) fun b => (hf b).2.1) size_modifySymbol rfl
    fun c => symbol_modifySymbol_congr (p := Symbol.attributes) (fun b => (hf b).2.2.2) s c

end Compares

namespace Meets

variable {n : Nat} {ps : List Occurrence} {o : Occurrence} {s r : SymbolId} {b : Bool}

/-- A symbol that has occurred before keeps its attributes, if they are those of the occurrence. -/
theorem attributes_of_occurs (ht : Registered t) (hw : o.name.Worded) (h : Meets t u o.name s)
    (hps : Agrees n ps t)
    (hsame : ∀ q, Atom.resolve? t o.name = some q → (t.symbol q).attributes.isSome = o.attributed)
    (hself : (u.symbol s).attributes.isSome = o.attributed) (hr : t.OccursAs n ps r b) :
    (u.symbol r).attributes.isSome = b := by
  have hb := hps.attributes r b hr
  by_cases hrs : r = s
  · subst hrs
    -- the symbol is not a new one, so that it has been compared
    cases hres : Atom.resolve? t o.name with
    | none => exact absurd (h.fresh hres) (hps.lt_of_occurs ht hr).ne
    | some q =>
      obtain rfl : q = r := by
        have hmeans := h.means
        rwa [Means, h.keeps.resolve _ q hw hres] at hmeans
      rw [hself, ← hsame q hres, hb]
  · rw [h.others r (hps.lt_of_occurs ht hr) hrs, hb]

/-- No symbol is there but for an occurrence. -/
theorem exists_occurs (h : Meets t u o.name s) (hps : Agrees n ps t) (hn : n ≤ r)
    (hr : r < u.symbols.size) (hname : (u.symbol r).name ≠ invalidName) :
    ∃ b, u.OccursAs n (ps ++ [o]) r b := by
  by_cases hlt : r < t.symbols.size
  · rw [h.keeps.name r hlt] at hname
    obtain ⟨b, hb⟩ := hps.occurs r hn hlt hname
    exact ⟨b, (hb.keeps h.keeps hps.worded).mono fun p hp => List.mem_append_left _ hp⟩
  · obtain rfl := h.only r (Nat.le_of_not_lt hlt) hr
    have hmeans := h.means
    unfold Means at hmeans
    split at hmeans
    · rename_i q hq
      exact ⟨o.attributed, .inr ⟨o, by simp, hmeans ▸ hq, rfl⟩⟩
    · exact absurd hmeans.2 hname

/-- An occurrence is compared with what its symbol remembers. -/
theorem compares (ht : Registered t) (hw : o.name.Worded) (h : Meets t u o.name s)
    (hl : Mismatched l ↔ ∃ r, Atom.resolve? t o.name = some r ∧
      (t.symbol r).attributes.isSome ≠ o.attributed)
    (hself : ¬Mismatched l → (u.symbol s).attributes.isSome = o.attributed) :
    Compares t [o] l u where
  registered := h.registered
  keeps := h.keeps
  worded := by simpa using hw
  agrees {n ps} hps hm := by
    have hsame (q : SymbolId) (hq : Atom.resolve? t o.name = some q) :
        (t.symbol q).attributes.isSome = o.attributed := by
      by_contra hne
      exact hm (hl.mpr ⟨q, hq, hne⟩)
    have hold {r : SymbolId} {b : Bool} (hr : t.OccursAs n ps r b) :=
      h.attributes_of_occurs ht hw hps hsame (hself hm) hr
    refine ⟨List.forall_mem_append.mpr ⟨hps.worded, by simpa using hw⟩,
      hps.le.trans h.keeps.size_le, h.literals ▸ hps.literal,
      List.forall_mem_append.mpr ⟨fun p hp => ?_, by simpa using ⟨s, h.means⟩⟩, fun r b hr => ?_,
      fun r hn hr hname => h.exists_occurs hps hn hr hname⟩
    · obtain ⟨q, hq⟩ := hps.means p hp
      exact ⟨q, hq.keeps ht h.keeps (hps.worded p hp)⟩
    · rcases hr with hr | ⟨p, hp, hres, rfl⟩
      · exact hold (.inl hr)
      · rcases List.mem_append.mp hp with hp | hp
        · exact hold (hps.occurs_of_keeps h.keeps (.inr ⟨p, hp, hres, rfl⟩))
        · obtain rfl := List.mem_singleton.mp hp
          obtain rfl : r = s := by
            have hmeans := h.means
            rwa [Means, hres] at hmeans
          exact hself hm
  clashes {n ps} hps hm := by
    obtain ⟨r, hres, hne⟩ := hl.mp hm
    obtain ⟨b, hb⟩ := hps.exists_occurs ht hw hres
    have hold : u.OccursAs n (ps ++ [o]) r b :=
      (hb.keeps h.keeps hps.worded).mono fun p hp => List.mem_append_left _ hp
    have hnew : u.OccursAs n (ps ++ [o]) r o.attributed :=
      .inr ⟨o, by simp, h.keeps.resolve _ r hw hres, rfl⟩
    rw [hps.attributes r b hb, ← Bool.eq_not_iff] at hne
    rw [← Bool.not_eq_eq_eq_not.mpr hne] at hnew
    cases b with
    | true => exact ⟨r, hold, hnew⟩
    | false => exact ⟨r, hnew, hold⟩

end Meets

end Table

/-! ### Productions -/

namespace Atom

variable {t : Table} {weak : Bool} {name : Token} {attributes : Option Token}

theorem mismatched_buildSymbol : Mismatched (buildSymbol t weak name attributes).reports ↔
    ∃ r, resolve? t name = some r ∧ (t.symbol r).attributes.isSome ≠ attributes.isSome := by
  have hkind (k : SymbolKind) (s : SymbolId) :=
    (noMismatch_nodeKind k weak name s).not_mismatched
  have hliteral (a : Token) : ¬Mismatched (faultAt a .literalAttributes).reports :=
    Noted.Only.not_mismatched (by simp)
  have huse := (noMismatch_declareUse t name).not_mismatched
  have hspanned (k : NodeKind) (line : Nat) (span : Option Span) :
      (spanned t k line span).1.symbol = t.symbol := rfl
  unfold buildSymbol
  cases resolve? t name with
  | some s =>
    cases attributes with
    | none => simp [mismatched_append, mismatched_checkAttributes, hkind, hspanned]
    | some a =>
      by_cases hn : name.kind = .ident <;>
        simp [hn, mismatched_append, mismatched_checkAttributes, hkind, hspanned, hliteral]
  | none =>
    cases attributes with
    | none => simp [mismatched_append, hkind, huse]
    | some a =>
      by_cases hn : name.kind = .ident <;> simp [hn, mismatched_append, hkind, huse, hliteral]

/-- A name in a right-hand side. -/
theorem compares_buildSymbol (ht : Registered t) (hw : name.Worded) :
    Compares t [⟨name, attributes.isSome⟩] (buildSymbol t weak name attributes).reports
      (buildSymbol t weak name attributes).value.1 := by
  have hl : Mismatched (buildSymbol t weak name attributes).reports ↔ _ := mismatched_buildSymbol
  rw [value_buildSymbol]
  cases hr : resolve? t name with
  | some s =>
    have hused : used t name = (t, s) := by rw [used, hr]
    simp only [hused, Option.isSome_some, if_true]
    refine ((Meets.refl ht hr).onGraph _).compares ht hw hl fun hm => ?_
    by_contra hne
    exact hm (hl.mpr ⟨s, hr, hne⟩)
  | none =>
    have hused : used t name = (declareUse t name).value := by rw [used, hr]
    simp only [hused, Option.isSome_none, Bool.false_eq_true, if_false]
    obtain ⟨hmeets, hself⟩ :=
      (((Meets.declareUse ht hw hr).onGraph _).setAttributes hw attributes)
    exact hmeets.compares ht hw hl fun _ => hself

theorem compares_build (ht : Registered t) (a : Atom) (ha : a.Worded) :
    Compares t a.occurrences (a.build t).reports (a.build t).value.1 := by
  cases a with
  | symbol weak name attributes => exact compares_buildSymbol ht ha
  | _ => exact (Compares.refl ht).onGraph _

end Atom

theorem Expr.compares_build {t : Table} (ht : Registered t) (e : Expr Atom)
    (hw : e.All Atom.Worded) :
    Compares t e.occurrences (e.build Atom.build t).reports (e.build Atom.build t).value.1 := by
  induction e generalizing t with
  | empty => exact (Compares.refl ht).onGraph _
  | atom a => exact Atom.compares_build ht a hw
  | seq e f ihe ihf =>
    have he := ihe ht hw.1
    obtain ⟨g, hg⟩ := exists_build_seq t e f
    rw [reports_build_seq, hg]
    exact (he.trans (ihf he.registered hw.2)).onGraph g
  | alt e f ihe ihf =>
    have he := ihe ht hw.1
    obtain ⟨g, hg⟩ := exists_build_alt t e f
    rw [reports_build_alt, hg]
    exact (he.trans (ihf he.registered hw.2)).onGraph g
  | group b e ih =>
    obtain ⟨g, hg⟩ := exists_build_group t b e
    rw [reports_build_group, hg]
    exact (ih ht hw).onGraph g

namespace Production

variable {t : Table} {p : Production}

/-- What is reported of the head of a production. -/
def headReports (t : Table) (p : Production) : List Diagnostic :=
  (declareName t p.name).reports ++ (if (declareName t p.name).value.2 then
    checkAttributes (declareName t p.name).value.1.1 (declareName t p.name).value.1.2 p.name
      p.attributes else pure () : Noted Unit).reports

theorem mismatched_headReports (hn : p.name.kind = .ident) : Mismatched (headReports t p) ↔
    ∃ r, Atom.resolve? t p.name = some r ∧
      (t.symbol r).attributes.isSome ≠ p.attributes.isSome := by
  rw [headReports, mismatched_append,
    iff_false_intro (noMismatch_declareName t p.name).not_mismatched, false_or,
    resolve?_of_ident hn]
  unfold declareName
  cases t.find? p.name.text with
  | none => simp [Mismatched]
  | some s =>
    simp only [Noted.value_bind, Noted.value_ite, Noted.value_pure, ite_self, if_true,
      mismatched_checkAttributes, Option.some.injEq, exists_eq_left']
    rw [symbol_modifySymbol_congr (p := Symbol.attributes)
      (f := fun s => { s with line := p.name.line }) fun _ => rfl]

theorem compares_enter (ht : Registered t) (hp : p.Worded) :
    Compares t [⟨p.name, p.attributes.isSome⟩] (headReports t p) (enter t p).1 := by
  have hl := mismatched_headReports (t := t) hp.ident
  obtain ⟨hmeets, hself⟩ := (Meets.declareName ht hp.ident hp.name).setAttributes hp.name
    p.attributes
  have hset := hmeets.compares (o := ⟨p.name, p.attributes.isSome⟩) ht hp.name hl fun _ => hself
  unfold enter
  cases p.locals with
  | none => exact hset
  | some a => exact hset.modifySymbol _ fun _ => ⟨rfl, rfl, rfl, rfl⟩

/-- A whole production. -/
theorem compares_declare (ht : Registered t) (hp : p.Worded) :
    Compares t p.occurrences (p.declare t).reports (p.declare t).value := by
  have hhead := compares_enter ht hp
  have hbody := hhead.trans (p.body.compares_build hhead.registered hp.body)
  have hroot := hbody.modifySymbol (enter t p).2 (f := fun s =>
    { s with root := some (p.body.build Atom.build (enter t p).1).value.2.entry }) fun _ =>
      ⟨rfl, rfl, rfl, rfl⟩
  rw [value_declare, reports_declare, ← List.append_assoc]
  exact hroot.onGraph _

end Production

/-- All productions, one after the other. -/
theorem Table.compares_productions {t : Table} {l : List Production} (ht : Registered t)
    (hl : ∀ p ∈ l, p.Worded) : Compares t (l.flatMap Production.occurrences)
      (l.foldlM Production.declare t).reports (l.foldlM Production.declare t).value := by
  induction l generalizing t with
  | nil => exact .refl ht
  | cons p l ih =>
    have hp := Production.compares_declare ht (hl p (by simp))
    rw [List.foldlM_cons, Noted.reports_bind, Noted.value_bind, List.flatMap_cons]
    exact hp.trans (ih hp.registered fun q hq => hl q (by simp [hq]))

/-! ### The table before the productions -/

namespace Table

variable {t u v : Table} {s : SymbolId} {f : Symbol → Symbol}

/-- The symbols of `u` are those of `t`, under the same names and with the same attributes. -/
structure SameLabels (t u : Table) : Prop where
  size : u.symbols.size = t.symbols.size
  name : ∀ s, (u.symbol s).name = (t.symbol s).name
  attributes : ∀ s, (u.symbol s).attributes = (t.symbol s).attributes

namespace SameLabels

theorem of_symbols (h : u.symbols = t.symbols) : SameLabels t u where
  size := by rw [h]
  name s := by rw [Table.symbol, h, Table.symbol]
  attributes s := by rw [Table.symbol, h, Table.symbol]

theorem refl (t : Table) : SameLabels t t := of_symbols rfl

theorem trans (h : SameLabels t u) (h' : SameLabels u v) : SameLabels t v where
  size := h'.size.trans h.size
  name s := (h'.name s).trans (h.name s)
  attributes s := (h'.attributes s).trans (h.attributes s)

theorem modifySymbol (h : SameLabels t u) (s : SymbolId)
    (hf : ∀ b, (f b).name = b.name ∧ (f b).attributes = b.attributes) :
    SameLabels t (u.modifySymbol s f) where
  size := size_modifySymbol.trans h.size
  name c := (symbol_modifySymbol_congr (p := Symbol.name) (fun b => (hf b).1) s c).trans (h.name c)
  attributes c := (symbol_modifySymbol_congr (p := Symbol.attributes) (fun b => (hf b).2) s c).trans
    (h.attributes c)

theorem addClass (t : Table) (c : String) (set : CharSet) : SameLabels t (t.addClass c set).1 := by
  refine of_symbols ?_
  unfold Table.addClass
  split <;> rfl

end SameLabels

/-- The symbols have these names, which are not the empty literal, and none has attributes. -/
structure Lists (names : List String) (t : Table) : Prop where
  mem : ∀ n, (∃ s < t.symbols.size, (t.symbol s).name = n) ↔ n ∈ names
  nonempty : "\"\"" ∉ names
  attributes : ∀ s, (t.symbol s).attributes = none

namespace Lists

variable {names : List String} {k : SymbolKind} {n : String} {line : Nat}

theorem of_sameLabels (ht : t.Lists names) (h : SameLabels t u) : u.Lists names where
  mem n := by
    rw [← ht.mem]
    simp only [h.size, h.name]
  nonempty := ht.nonempty
  attributes s := (h.attributes s).trans (ht.attributes s)

theorem addSymbol (ht : t.Lists names) (hn : n ≠ "\"\"") :
    (t.addSymbol k n line).1.Lists (names ++ [n]) := by
  obtain ⟨i, -, hsym⟩ := symbol_addSymbol t k n line
  refine ⟨fun m => ?_, by simp [ht.nonempty, hn.symm], fun s => ?_⟩
  · rw [List.mem_append, List.mem_singleton, ← ht.mem, size_addSymbol]
    refine ⟨fun ⟨s, hs, hm⟩ => ?_, fun h => ?_⟩
    · rw [hsym] at hm
      split at hm
      · exact .inr hm.symm
      · rename_i hne
        exact .inl ⟨s, Nat.lt_of_le_of_ne (Nat.le_of_lt_succ hs) hne, hm⟩
    · rcases h with ⟨s, hs, hm⟩ | rfl
      · exact ⟨s, Nat.lt_succ_of_lt hs, by rw [hsym, if_neg hs.ne, hm]⟩
      · exact ⟨t.symbols.size, Nat.lt_succ_self _, by rw [hsym, if_pos rfl]⟩
  · rw [hsym]
    split
    · rfl
    · exact ht.attributes s

/-- A name that is there already can be listed once more. -/
theorem append_self (ht : t.Lists names) (hn : n ∈ names) : t.Lists (names ++ [n]) where
  mem m := by
    rw [List.mem_append, List.mem_singleton, ht.mem, iff_self_or]
    rintro rfl
    exact hn
  nonempty := by
    rw [List.mem_append, List.mem_singleton, not_or]
    exact ⟨ht.nonempty, fun he => ht.nonempty (he ▸ hn)⟩
  attributes := ht.attributes

end Lists

theorem lists_empty : empty.Lists ["EOF"] := by
  have h : ({} : Table).Lists [] :=
    ⟨fun n => by simp, List.not_mem_nil,
      fun s => congrArg Symbol.attributes (symbol_of_size_le (Nat.zero_le s))⟩
  exact h.addSymbol (by decide)

end Table

theorem SetDecl.sameLabels_declare (t : Table) (d : SetDecl) :
    SameLabels t (d.declare t).value := by
  simp only [SetDecl.declare, Noted.value_bind, Noted.value_ite, Noted.value_pure, ite_self]
  exact .addClass _ _ _

namespace TokenDecl

variable {t : Table} {k : SymbolKind} {names : List String}

/-- The name of the symbol that a declaration is for. -/
def symbolName (d : TokenDecl) : String :=
  if d.name.text = "\"\"" then invalidName else d.name.text

theorem sameLabels_setBody (t : Table) (s : SymbolId) (name : Token) (e : Expr TokenAtom) :
    SameLabels t (setBody t s name e).value := by
  have hatom (u : Table) (a : TokenAtom) (hu : SameLabels t u) :
      SameLabels t (a.build u).value.1 := by
    cases a with
    | className c =>
      unfold TokenAtom.build
      dsimp only
      split
      · exact hu.trans (.of_symbols rfl)
      · exact (hu.trans (.addClass _ _ _)).trans (.of_symbols rfl)
    | literal l =>
      simp only [TokenAtom.build, addLiteralChars, Noted.value_bind, Noted.value_ite,
        Noted.value_pure, ite_self]
      exact hu.trans (.of_symbols rfl)
  have hbuild := Expr.kept_build (E := fun _ => True) (P := SameLabels t)
    (fun _ _ hu => hu.trans (.of_symbols rfl)) (fun u a _ hu _ => hatom u a hu) e e.all_true
    (.refl t) fun _ _ => trivial
  simp only [setBody, Noted.value_bind, Noted.value_ite, ite_self]
  split
  · simp only [Noted.value_bind, Noted.value_ite, Noted.value_pure, ite_self]
    refine hbuild.trans (.of_symbols ?_)
    unfold addLiteral
    split <;> rfl
  · have hfinish := hbuild.trans (.of_symbols (u := (e.build TokenAtom.build t).value.1.onGraph
      (·.finish (e.build TokenAtom.build t).value.2)) rfl)
    exact hfinish.modifySymbol s fun _ => ⟨rfl, rfl⟩

theorem sameLabels_action (t : Table) (s : SymbolId) (action : Option Token) : SameLabels t
    (match action with
      | some a => setAction k t s a
      | none => return t : Noted Table).value := by
  cases action with
  | some a =>
    simp only [setAction, Noted.value_bind, Noted.value_ite, Noted.value_pure, ite_self]
    exact (SameLabels.refl t).modifySymbol s fun _ => ⟨rfl, rfl⟩
  | none => exact .refl t

theorem lists_declareName (ht : t.Lists names) (hreg : Registered t) (d : TokenDecl) :
    (declareName k t d.name).value.1.Lists (names ++ [d.symbolName]) := by
  unfold declareName
  split
  · rename_i s hs
    have hmem : d.name.text ∈ names := (ht.mem _).mp ⟨s, hreg.lt_of_find hs, name_of_find hs⟩
    have hne : d.name.text ≠ "\"\"" := fun he => ht.nonempty (he ▸ hmem)
    rw [symbolName, if_neg hne]
    exact ht.append_self hmem
  · unfold symbolName Table.declare
    split
    · exact ht.addSymbol (by decide)
    · rename_i he
      exact ht.addSymbol he

/-- A declaration adds one name. -/
theorem lists_declare (ht : t.Lists names) (hreg : Registered t) (d : TokenDecl) :
    (d.declare k t).value.Lists (names ++ [d.symbolName]) := by
  refine (lists_declareName ht hreg d (k := k)).of_sameLabels ?_
  unfold declare
  generalize (declareName k t d.name) = r
  simp only [Noted.value_bind]
  cases d.body with
  | some e => exact (sameLabels_setBody _ _ d.name e).trans (sameLabels_action _ _ d.action)
  | none =>
    refine .trans ?_ (sameLabels_action _ r.value.2 d.action)
    rw [Noted.value_pure]
    split
    · exact (SameLabels.refl _).modifySymbol _ fun _ => ⟨rfl, rfl⟩
    · exact .refl _

end TokenDecl

/-- So does each of several declarations. -/
theorem TokenDecl.lists_foldlM {k : SymbolKind} {l : List TokenDecl} {names : List String}
    {t : Table} (ht : t.Lists names) (hreg : Registered t) :
    (l.foldlM (TokenDecl.declare k) t).value.Lists (names ++ l.map symbolName) := by
  induction l generalizing t names with
  | nil => simpa using ht
  | cons d l ih =>
    rw [List.foldlM_cons, Noted.value_bind, List.map_cons, List.append_cons]
    exact ih (lists_declare ht hreg d) ((continues_declare k hreg d).registered hreg)

namespace Sections

variable {s : Sections}

/-- Before the productions there are the end of input, the tokens and the pragmas, none of which has
attributes. -/
theorem lists_front (s : Sections) :
    s.front.Lists ("EOF" :: (s.tokens ++ s.pragmas).map TokenDecl.symbolName) := by
  have hset : SameLabels empty (s.sets.foldlM SetDecl.declare empty).value := by
    rw [Noted.value_foldlM]
    exact List.foldlRecOn s.sets (fun t d => (d.declare t).value) (motive := SameLabels empty)
      (.refl empty) fun t ht d _ => ht.trans (d.sameLabels_declare t)
  have hreg := (continues_foldlM (fun t d _ => SetDecl.continues_declare t d) s.sets
    registered_empty).registered registered_empty
  have htokens := TokenDecl.lists_foldlM (k := .terminal) (l := s.tokens)
    (lists_empty.of_sameLabels hset) hreg
  have hreg := (continues_foldlM (fun t d ht => TokenDecl.continues_declare .terminal ht d) s.tokens
    hreg).registered hreg
  have hpragmas := TokenDecl.lists_foldlM (k := .pragma) (l := s.pragmas) htokens hreg
  rw [List.map_append, ← List.singleton_append, ← List.append_assoc]
  exact hpragmas.of_sameLabels (.of_symbols rfl)

/-- Before the productions every symbol has its one occurrence without attributes. -/
theorem agrees_front (s : Sections) : Agrees s.front.symbols.size [] s.front where
  worded _ ho := absurd ho List.not_mem_nil
  le := le_rfl
  literal := (grown_sections _).registered.literal
  means _ ho := absurd ho List.not_mem_nil
  attributes r b hr := by
    rcases hr with ⟨-, rfl⟩ | ⟨o, ho, -⟩
    · rw [s.lists_front.attributes]
      rfl
    · exact absurd ho List.not_mem_nil
  occurs r hn hlt := absurd hlt (Nat.not_lt_of_le hn)

theorem not_mismatched_front (s : Sections) :
    ¬Mismatched ({ s with productions := [] } : Sections).declare.reports := by
  refine Noted.Only.not_mismatched ?_
  simp only [declare, Noted.only_bind]
  exact ⟨.foldlM (fun t d _ => d.noMismatch_declare t) _,
    .foldlM (fun t d _ => d.noMismatch_declare _ t) _,
    .foldlM (fun t d _ => d.noMismatch_declare _ t) _, .foldlM (fun _ _ h => absurd h (by simp)) _⟩

end Sections

/-! ### Whole texts -/

namespace Definition

variable {source : String} {d : Definition}

/-- The productions are compared, and nothing behind them matters. -/
theorem compares_table (hd : Definition.read source = .ok d) :
    Compares d.sections.front d.sections.occurrences
        (d.sections.productions.foldlM Production.declare d.sections.front).reports
        d.sections.declare.value ∧
      Keeps d.sections.declare.value d.table.value := by
  have h : Compares d.sections.front d.sections.occurrences _ d.sections.declare.value :=
    compares_productions (grown_sections _).registered (worded_of_read hd).productions
  exact ⟨h, keeps_endProductions h.registered d.name d.ending⟩

theorem mismatched_iff (hd : Definition.read source = .ok d) : Mismatched d.table.reports ↔
    d.table.value.Clashes d.sections.front.symbols.size d.sections.occurrences := by
  obtain ⟨h, hkeeps⟩ := compares_table hd
  have hreports : Mismatched d.table.reports ↔
      Mismatched (d.sections.productions.foldlM Production.declare d.sections.front).reports := by
    rw [table, Noted.reports_bind, Noted.reports_bind, reports_endProductions, reports_sections]
    simp only [mismatched_append, not_mismatched_nil, or_false,
      d.sections.not_mismatched_front, false_or, (noMismatch_setStart _ _ _).not_mismatched]
    exact Iff.rfl
  rw [hreports]
  by_cases hm : Mismatched
      (d.sections.productions.foldlM Production.declare d.sections.front).reports
  · exact iff_of_true hm ((h.clashes d.sections.agrees_front hm).keeps hkeeps h.worded
      fun _ ho => ho)
  · exact iff_of_false hm ((h.agrees d.sections.agrees_front hm).not_clashes hkeeps)

/-- The symbols that are there before the productions keep their names. -/
theorem exists_front_iff (hd : Definition.read source = .ok d) (n : String) :
    (∃ s < d.sections.front.symbols.size, (d.table.value.symbol s).name = n) ↔
      n ∈ "EOF" :: (d.sections.tokens ++ d.sections.pragmas).map TokenDecl.symbolName := by
  obtain ⟨h, hkeeps⟩ := compares_table hd
  rw [← d.sections.lists_front.mem]
  refine exists_congr fun s => and_congr_right fun hs => ?_
  rw [(h.keeps.trans hkeeps).name s hs]

end Definition

namespace Grammar

variable {source : String} {cfg : Config} {log : Log} {g : Grammar}

/-- A mismatch is reported if and only if a symbol occurs in the productions with attributes as well
as without. The end of input and what is declared as a token or pragma count as occurring without,
and the places may come in any order. -/
theorem mismatch_iff_clash (hg : (Grammar.parse source cfg log).2 = .ok g) : ∃ d new,
    Definition.read source = .ok d ∧
    (Grammar.parse source cfg log).1.reports.toList = log.reports.toList ++ new ∧
    (∀ n, (∃ s < d.sections.front.symbols.size, (g.table.symbol s).name = n) ↔
      n ∈ "EOF" :: (d.sections.tokens ++ d.sections.pragmas).map TokenDecl.symbolName) ∧
    ((∃ r ∈ new, r.isError = true ∧ r.cause = .fault .attributeMismatch) ↔
      ∃ s, g.table.OccursAs d.sections.front.symbols.size d.sections.occurrences s true ∧
        g.table.OccursAs d.sections.front.symbols.size d.sections.occurrences s false) := by
  obtain ⟨d, hd, rfl⟩ := exists_read hg
  refine ⟨d, Log.shown (d.configure cfg) d.table.reports, hd, ?_,
    Definition.exists_front_iff hd, ?_⟩
  · rw [parse_of_read hd, Log.reports_recordAll]
    rfl
  · refine .trans ?_ (Definition.mismatched_iff hd)
    refine ⟨fun ⟨r, hr, _, hc⟩ => ⟨r, List.mem_of_mem_filter hr, hc⟩, fun ⟨r, hr, hc⟩ => ?_⟩
    refine ⟨r, List.mem_filter.mpr ⟨hr, ?_⟩, (d.mistaken_table r hr).1, hc⟩
    simp [Log.hides, hc]

/-- A nonterminal that is used without attributes before its production has some. -/
def usedFirst : String := "COMPILER A\nPRODUCTIONS\nA = B.\nB<x> = \"b\".\nEND A."

set_option maxRecDepth 100000 in
theorem clash_usedFirst : ∃ g d, (Grammar.parse usedFirst default {}).2 = .ok g ∧
    Definition.read usedFirst = .ok d ∧
      ∃ s, g.table.OccursAs d.sections.front.symbols.size d.sections.occurrences s true ∧
        g.table.OccursAs d.sections.front.symbols.size d.sections.occurrences s false := by
  obtain ⟨g, hg, -⟩ := exists_ok_of_any (x := (Grammar.parse usedFirst default {}).2)
    (P := fun _ => true) (by decide +kernel)
  obtain ⟨d, new, hd, hnew, -, hiff⟩ := mismatch_iff_clash hg
  have hmet : ∃ r ∈ (Grammar.parse usedFirst default {}).1.reports.toList,
      r.isError = true ∧ r.cause = .fault .attributeMismatch := by
    decide +kernel
  rw [hnew] at hmet
  exact ⟨g, d, hg, hd, hiff.mp hmet⟩

end Grammar

end Lookahead
