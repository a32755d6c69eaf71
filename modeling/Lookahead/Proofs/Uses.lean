import Lookahead.Proofs.Drawing
import Lookahead.Proofs.Reports

/-!
# Productions without a fault

What a part of a production asks of the table it is built in so that nothing is reported
(`Atom.reports_buildSymbol_eq_nil`, `Production.reports_declare_eq_nil`), and what building it
without a fault adds to that table (`Table.Augments`): symbols of the kind that their names are
written as, which keep their kind and whether they have attributes from then on.
-/

namespace Lookahead

@[simp] theorem reports_faultAt_ne_nil (t : Token) (f : Fault) :
    (faultAt t f).reports ≠ [] := by
  simp [faultAt]

/-- The kind of the symbol that is declared for a name that means nothing yet. -/
def kindOfName (n : String) : SymbolKind :=
  if n.toList.head? = some '"' then .terminal else .nonterminal

theorem kindOfName_ne_pragma (n : String) : kindOfName n ≠ .pragma := by
  unfold kindOfName
  split <;> simp

theorem Token.Worded.kindOfName {name : Token} (hw : name.Worded) :
    kindOfName (String.ofList name.spelling) =
      if name.kind = .ident then .nonterminal else .terminal := by
  by_cases hk : name.kind = .ident <;> simp [Lookahead.kindOfName, hw.literal, hk]

/-- The symbol can be used like that. -/
@[mk_iff]
structure Symbol.Suits (s : Symbol) (weak : Bool) (attributes : Option Token) : Prop where
  kind : s.kind ≠ .pragma
  weak : weak = true → s.kind ≠ .nonterminal
  attributes : s.attributes.isSome = attributes.isSome

theorem Symbol.Suits.congr {r s : Symbol} {weak : Bool} {attributes : Option Token}
    (h : r.Suits weak attributes) (hk : s.kind = r.kind)
    (ha : s.attributes.isSome = r.attributes.isSome) : s.Suits weak attributes :=
  ⟨hk ▸ h.kind, hk ▸ h.weak, ha.trans h.attributes⟩

namespace Table

variable {t u v : Table} {k : SymbolKind} {n nm : String} {line : Nat} {s : SymbolId}
  {name : Token} {f : Symbol → Symbol}

theorem reports_declare_eq_nil : (t.declare k n line).reports = [] ↔ n ≠ "\"\"" := by
  unfold declare
  split <;> simp [*]

/-- The table `u` is `t` with further symbols, one for each new name, and with other graphs. -/
structure Augments (t u : Table) : Prop where
  keeps : t.Keeps u
  literals : u.literals = t.literals
  eof : u.eof = t.eof
  find : ∀ n s, t.find? n = some s → u.find? n = some s
  attributes : ∀ s < t.symbols.size,
    (u.symbol s).attributes.isSome = (t.symbol s).attributes.isSome
  added : ∀ n s, t.find? n = none → u.find? n = some s → (u.symbol s).kind = kindOfName n
  named : ∀ s, t.symbols.size ≤ s → s < u.symbols.size → u.find? (u.symbol s).name = some s

namespace Augments

theorem refl (t : Table) : Augments t t where
  keeps := .refl t
  literals := rfl
  eof := rfl
  find _ _ h := h
  attributes _ _ := rfl
  added n s hn hs := by simp [hn] at hs
  named s hs hs' := absurd hs' (Nat.not_lt.mpr hs)

theorem trans (hu : Registered u) (h : Augments t u) (h' : Augments u v) : Augments t v where
  keeps := h.keeps.trans h'.keeps
  literals := h'.literals.trans h.literals
  eof := h'.eof.trans h.eof
  find n s hs := h'.find n s (h.find n s hs)
  attributes s hs := (h'.attributes s (hs.trans_le h.keeps.size_le)).trans (h.attributes s hs)
  added n s hn hs := by
    cases hf : u.find? n with
    | none => exact h'.added n s hf hs
    | some r =>
      obtain rfl : r = s := Option.some.inj ((h'.find n r hf).symm.trans hs)
      rw [h'.keeps.kind r (hu.lt_of_find hf)]
      exact h.added n r hn hf
  named s hs hs' := by
    by_cases hlt : s < u.symbols.size
    · rw [h'.keeps.name s hlt]
      exact h'.find _ _ (h.named s hs hlt)
    · exact h'.named s (Nat.le_of_not_lt hlt) hs'

theorem onGraph (t : Table) (g : Graph) : Augments t { t with graph := g } where
  keeps := .onGraph t g
  literals := rfl
  eof := rfl
  find _ _ h := h
  attributes _ _ := rfl
  added _ _ hn hs := absurd (hn.symm.trans hs) (by simp)
  named _ hs hs' := absurd hs' (Nat.not_lt.mpr hs)

/-- What is changed about new symbols does not matter, nor what is changed about old ones as long
as they keep their attributes. -/
theorem modifySymbol (h : Augments t u) (hn : ∀ b, (f b).name = b.name)
    (hk : ∀ b, (f b).kind = b.kind)
    (ha : s < t.symbols.size →
      (f (u.symbol s)).attributes.isSome = (u.symbol s).attributes.isSome) :
    Augments t (u.modifySymbol s f) where
  keeps := h.keeps.trans (.modifySymbol u s hn hk)
  literals := h.literals
  eof := h.eof
  find n r hr := (find?_modifySymbol hn).trans (h.find n r hr)
  attributes r hr := by
    rw [← h.attributes r hr, symbol_modifySymbol]
    split
    · rename_i hs
      obtain ⟨rfl, -⟩ := hs
      exact ha hr
    · rfl
  added m r hm hr := by
    rw [find?_modifySymbol hn] at hr
    rw [symbol_modifySymbol_congr (p := Symbol.kind) hk]
    exact h.added m r hm hr
  named r hr hr' := by
    rw [size_modifySymbol] at hr'
    rw [find?_modifySymbol hn, symbol_modifySymbol_congr (p := Symbol.name) hn]
    exact h.named r hr hr'

theorem addSymbol (ht : Registered t) (hk : k = kindOfName nm) (he : nm ≠ "\"\"")
    (hn : ∀ name, name.Worded → String.ofList name.spelling = nm → Atom.resolve? t name = none)
    (hf : t.find? nm = none) : Augments t (t.addSymbol k nm line).1 := by
  have hkp : k ≠ .pragma := hk ▸ kindOfName_ne_pragma nm
  obtain ⟨m, -, hsym⟩ := symbol_addSymbol t k nm line
  have hself : (t.addSymbol k nm line).1.find? nm = some t.symbols.size :=
    find?_addSymbol_self ht hkp hf
  refine ⟨.addSymbol ht hn he, literals_addSymbol, eof_addSymbol, fun n s hs => ?_, fun s hs => ?_,
    fun n s hn hs => ?_, fun s hs hs' => ?_⟩
  · rwa [find?_addSymbol_of_ne ht (by rintro rfl; simp [hf] at hs)]
  · rw [hsym, if_neg hs.ne]
  · by_cases hnm : nm = n
    · subst hnm
      obtain rfl := Option.some.inj (hself.symm.trans hs)
      rw [hsym, if_pos rfl]
      exact hk
    · rw [find?_addSymbol_of_ne ht hnm, hn] at hs
      cases hs
  · rw [size_addSymbol] at hs'
    obtain rfl : s = t.symbols.size := by omega
    rw [hsym, if_pos rfl]
    exact hself

end Augments

end Table

namespace Atom

open Table

variable {t : Table} {name : Token} {weak : Bool} {attributes : Option Token} {s : SymbolId}

theorem kind_declareUse (hw : name.Worded) :
    ((declareUse t name).value.1.symbol (declareUse t name).value.2).kind =
      kindOfName (String.ofList name.spelling) := by
  have hkind (k : SymbolKind) (n : String) (line : Nat) :
      ((t.declare k n line).value.1.symbol (t.declare k n line).value.2).kind = k := by
    unfold Table.declare
    split
    all_goals
      simp only [Noted.value_bind, Noted.value_pure, snd_addSymbol]
      obtain ⟨m, -, hsym⟩ := symbol_addSymbol t k _ line
      rw [hsym, if_pos rfl]
  rw [hw.kindOfName]
  unfold declareUse
  split
  · exact hkind _ _ _
  · simp only [Noted.value_bind, Noted.value_pure]
    rw [symbol_modifySymbol]
    split
    · exact hkind _ _ _
    · exact hkind _ _ _

theorem reports_declareUse_eq_nil :
    (declareUse t name).reports = [] ↔ String.ofList name.spelling ≠ "\"\"" := by
  unfold declareUse
  split
  · exact reports_declare_eq_nil
  · simp [reports_declare_eq_nil]

theorem reports_nodeKind_eq_nil {kind : SymbolKind} : (nodeKind kind weak name s).reports = [] ↔
    kind ≠ .pragma ∧ (weak = true → kind ≠ .nonterminal) := by
  cases kind <;> cases weak <;> simp [nodeKind]

/-- When nothing is reported about a name in a production. -/
theorem reports_buildSymbol_eq_nil (hw : name.Worded) :
    (buildSymbol t weak name attributes).reports = [] ↔
      (attributes.isSome = true → name.kind = .ident) ∧
        match resolve? t name with
        | some s => (t.symbol s).Suits weak attributes
        | none => String.ofList name.spelling ≠ "\"\"" ∧
            (weak = true → kindOfName (String.ofList name.spelling) ≠ .nonterminal) := by
  have hkind := kind_declareUse (t := t) hw
  have hpragma := kindOfName_ne_pragma (String.ofList name.spelling)
  have hspanned (k : NodeKind) (line : Nat) (span : Option Span) :
      (spanned t k line span).1.symbol = t.symbol := rfl
  have hcheck (t : Table) (s : SymbolId) : (checkAttributes t s name attributes).reports = [] ↔
      (t.symbol s).attributes.isSome = attributes.isSome := by
    unfold checkAttributes
    by_cases h : (t.symbol s).attributes.isSome = attributes.isSome <;> simp [h]
  unfold buildSymbol
  cases hr : resolve? t name with
  | some s =>
    cases attributes with
    | none =>
      simp [reports_nodeKind_eq_nil, hcheck, hspanned, Symbol.suits_iff, and_assoc]
    | some a =>
      by_cases hn : name.kind = .ident <;>
        simp [hn, reports_nodeKind_eq_nil, hcheck, hspanned, Symbol.suits_iff, and_assoc]
  | none =>
    cases attributes with
    | none =>
      simp only [Noted.reports_bind]
      simp [reports_nodeKind_eq_nil, reports_declareUse_eq_nil, hkind, hpragma]
    | some a =>
      by_cases hn : name.kind = .ident <;>
        simp [hn, reports_nodeKind_eq_nil, reports_declareUse_eq_nil, hkind, hpragma]

/-- Nothing is wrong with the atom in the table, which has its symbol. -/
def Valid (t : Table) : Atom → Prop
  | symbol weak name attributes => (attributes.isSome = true → name.kind = .ident) ∧
      ∃ s, resolve? t name = some s ∧ (t.symbol s).Suits weak attributes
  | _ => True

end Atom

namespace Table

variable {t u v base T : Table} {n : String} {s : SymbolId} {attributes : Option Token}
  {name : Token}

/-- The table `u` is `t` after one use of a name: the name has a symbol now, and if that is new, it
has attributes as the use has. -/
structure Admits (t u : Table) (n : String) (attributes : Option Token) : Prop where
  augments : Augments t u
  find : ∀ m, m ≠ n → u.find? m = t.find? m
  new : t.find? n = none → ∀ s, u.find? n = some s →
    (u.symbol s).kind = kindOfName n ∧ (u.symbol s).attributes.isSome = attributes.isSome

theorem Admits.refl (t : Table) (n : String) (attributes : Option Token) :
    Admits t t n attributes :=
  ⟨.refl t, fun _ _ => rfl, fun hn _ hs => absurd (hn.symm.trans hs) nofun⟩

/-- The table `u` is `t` after the symbol `s` has been declared for a name. -/
structure Declares (t u : Table) (n : String) (s : SymbolId) : Prop where
  augments : Augments t u
  find : ∀ m, m ≠ n → u.find? m = t.find? m
  self : u.find? n = some s
  new : s = t.symbols.size
  lt : s < u.symbols.size
  kind : (u.symbol s).kind = kindOfName n

namespace Declares

theorem declare (ht : Registered t) (hw : name.Worded) (hr : Atom.resolve? t name = none)
    {k : SymbolKind} (hk : k = kindOfName (String.ofList name.spelling))
    (he : String.ofList name.spelling ≠ "\"\"") (line : Nat) :
    Declares t (t.declare k (String.ofList name.spelling) line).value.1
      (String.ofList name.spelling) (t.declare k (String.ofList name.spelling) line).value.2 := by
  have hfind := find?_eq_none_of_resolve? hr
  have hkp : k ≠ .pragma := hk ▸ kindOfName_ne_pragma _
  obtain ⟨m, -, hsym⟩ := symbol_addSymbol t k (String.ofList name.spelling) line
  unfold Table.declare
  rw [if_neg he]
  simp only [Noted.value_pure, snd_addSymbol]
  refine ⟨.addSymbol ht hk he (fun n hn h => (resolve?_congr hn hw h).trans hr) hfind,
    fun m hm => find?_addSymbol_of_ne ht hm.symm, find?_addSymbol_self ht hkp hfind, rfl, ?_, ?_⟩
  · rw [size_addSymbol]
    exact Nat.lt_succ_self _
  · rw [hsym, if_pos rfl, hk]

variable {f : Symbol → Symbol}

theorem modifySymbol (h : Declares t u n s) (hn : ∀ b, (f b).name = b.name)
    (hk : ∀ b, (f b).kind = b.kind) : Declares t (u.modifySymbol s f) n s where
  augments := h.augments.modifySymbol hn hk fun hs => absurd h.new hs.ne
  find m hm := (find?_modifySymbol hn).trans (h.find m hm)
  self := (find?_modifySymbol hn).trans h.self
  new := h.new
  lt := by
    rw [size_modifySymbol]
    exact h.lt
  kind := (symbol_modifySymbol_congr (p := Symbol.kind) hk s s).trans h.kind

theorem onGraph (h : Declares t u n s) (g : Graph) : Declares t { u with graph := g } n s :=
  { h with augments := { h.augments with keeps := h.augments.keeps.trans (.onGraph u g) } }

theorem admits (h : Declares t u n s)
    (ha : (u.symbol s).attributes.isSome = attributes.isSome) : Admits t u n attributes where
  augments := h.augments
  find := h.find
  new _ r hr := by
    obtain rfl : s = r := Option.some.inj (h.self.symm.trans hr)
    exact ⟨h.kind, ha⟩

theorem declareUse (ht : Registered t) (hw : name.Worded) (hr : Atom.resolve? t name = none)
    (he : String.ofList name.spelling ≠ "\"\"") :
    Declares t (Atom.declareUse t name).value.1 (String.ofList name.spelling)
      (Atom.declareUse t name).value.2 := by
  have hk := hw.kindOfName
  unfold Atom.declareUse
  split
  · rename_i hn
    exact .declare ht hw hr (by rw [hk, if_pos hn]) he 0
  · rename_i hn
    exact (declare ht hw hr (by rw [hk, if_neg hn]) he name.line).modifySymbol (fun _ => rfl)
      fun _ => rfl

/-- The symbol of a new name is given attributes. -/
theorem setAttributes (h : Declares t u n s) (attributes : Option Token) :
    Declares t (setAttributes u s attributes) n s ∧
      ((Lookahead.setAttributes u s attributes).symbol s).attributes.isSome =
        attributes.isSome := by
  refine ⟨h.modifySymbol (fun _ => rfl) fun _ => rfl, ?_⟩
  rw [Lookahead.setAttributes, symbol_modifySymbol, if_pos ⟨rfl, h.lt⟩, Option.isSome_map]

end Declares

end Table

namespace Atom

open Table

variable {t : Table} {name : Token} {weak : Bool} {attributes : Option Token}

theorem resolve?_of_find {s : SymbolId} (h : t.find? (String.ofList name.spelling) = some s) :
    resolve? t name = some s := by
  simp [resolve?, h]

/-- What a name adds in a production, if nothing is reported about it. -/
theorem admits_buildSymbol (ht : Registered t) (hw : name.Worded)
    (h : (buildSymbol t weak name attributes).reports = []) :
    Admits t (buildSymbol t weak name attributes).value.1 (String.ofList name.spelling)
        attributes ∧
      (symbol weak name attributes).Valid (buildSymbol t weak name attributes).value.1 := by
  obtain ⟨hattr, h⟩ := (reports_buildSymbol_eq_nil hw).mp h
  rw [value_buildSymbol]
  cases hr : resolve? t name with
  | some s =>
    simp only [hr] at h
    have hused : used t name = (t, s) := by rw [used, hr]
    simp only [hused, Option.isSome_some, if_true]
    refine ⟨⟨.onGraph t _, fun _ _ => rfl, fun hn r hr => ?_⟩, hattr, s, hr, h⟩
    exact absurd (hn.symm.trans hr) (by simp)
  | none =>
    simp only [hr] at h
    have hused : used t name = (declareUse t name).value := by rw [used, hr]
    simp only [hused, Option.isSome_none, Bool.false_eq_true, if_false]
    generalize (nodeKind _ weak name _).value = k
    have hs : Declares t (spanned (declareUse t name).value.1 k name.line
        (attributes.map Token.attributesSpan)).1 (String.ofList name.spelling)
        (declareUse t name).value.2 := (Declares.declareUse ht hw hr h.1).onGraph _
    obtain ⟨hd, ha⟩ := hs.setAttributes attributes
    generalize setAttributes _ _ attributes = u at hd ha
    refine ⟨hd.admits ha, hattr, _, resolve?_of_find hd.self, ?_, fun hweak => ?_, ha⟩
    · rw [hd.kind]
      exact kindOfName_ne_pragma _
    · rw [hd.kind]
      exact h.2 hweak

/-- An atom that is built without a fault adds its name, and nothing is wrong with it then. -/
theorem augments_build (ht : Registered t) (a : Atom) (ha : a.Worded)
    (h : (build t a).reports = []) :
    Augments t (build t a).value.1 ∧ a.Valid (build t a).value.1 := by
  cases a with
  | symbol weak name attributes =>
    obtain ⟨had, hv⟩ := admits_buildSymbol ht ha h
    exact ⟨had.augments, hv⟩
  | _ => exact ⟨.onGraph t _, trivial⟩

theorem Valid.augments {u : Table} (ht : Registered t) {a : Atom} (h : a.Valid t) (ha : a.Worded)
    (hu : Augments t u) : a.Valid u := by
  cases a with
  | symbol weak name attributes =>
    obtain ⟨hattr, s, hs, hsuits⟩ := h
    have hlt := lt_of_resolve ht hs
    exact ⟨hattr, s, hu.keeps.resolve name s ha hs,
      hsuits.congr (hu.keeps.kind s hlt) (hu.attributes s hlt)⟩
  | _ => trivial

end Atom

namespace Expr

open Table

variable {t : Table}

theorem All.mono {α : Type} {P Q : α → Prop} {e : Expr α} (h : ∀ a, P a → Q a) (he : e.All P) :
    e.All Q := by
  induction e with
  | empty => trivial
  | atom a => exact h a he
  | seq e f ihe ihf | alt e f ihe ihf => exact ⟨ihe he.1, ihf he.2⟩
  | group b e ih => exact ih he

theorem All.and {α : Type} {P Q : α → Prop} {e : Expr α} (hp : e.All P) (hq : e.All Q) :
    e.All fun a => P a ∧ Q a := by
  induction e with
  | empty => trivial
  | atom a => exact ⟨hp, hq⟩
  | seq e f ihe ihf | alt e f ihe ihf => exact ⟨ihe hp.1 hq.1, ihf hp.2 hq.2⟩
  | group b e ih => exact ih hp hq

theorem All.augments {u : Table} (ht : Registered t) {e : Expr Atom} (h : e.All (Atom.Valid t))
    (hw : e.All Atom.Worded) (hu : Augments t u) : e.All (Atom.Valid u) :=
  (h.and hw).mono fun _ ha => ha.1.augments ht ha.2 hu

/-- A part made of two parts differs from the second in the graph only. -/
theorem exists_build_seq (t : Table) (e f : Expr Atom) : ∃ g,
    ((seq e f).build Atom.build t).value.1 =
      { (f.build Atom.build (e.build Atom.build t).value.1).value.1 with graph := g } :=
  ⟨_, rfl⟩

theorem exists_build_alt (t : Table) (e f : Expr Atom) : ∃ g,
    ((alt e f).build Atom.build t).value.1 =
      { (f.build Atom.build (e.build Atom.build t).value.1).value.1 with graph := g } := by
  obtain ⟨g, hg, -, -⟩ := exists_addAlternative
    (f.build Atom.build (e.build Atom.build t).value.1).value.1 (e.build Atom.build t).value.2
    (f.build Atom.build (e.build Atom.build t).value.1).value.2 e.isAlt
  exact ⟨g, hg⟩

theorem exists_build_group (t : Table) (b : Bracket) (e : Expr Atom) : ∃ g,
    ((group b e).build Atom.build t).value.1 =
      { (e.build Atom.build t).value.1 with graph := g } := by
  cases b <;> exact ⟨_, rfl⟩

theorem reports_build_seq (t : Table) (e f : Expr Atom) :
    ((seq e f).build Atom.build t).reports = (e.build Atom.build t).reports ++
      (f.build Atom.build (e.build Atom.build t).value.1).reports := by
  simp [build]

theorem reports_build_alt (t : Table) (e f : Expr Atom) :
    ((alt e f).build Atom.build t).reports = (e.build Atom.build t).reports ++
      (f.build Atom.build (e.build Atom.build t).value.1).reports := by
  simp [build]

theorem reports_build_group (t : Table) (b : Bracket) (e : Expr Atom) :
    ((group b e).build Atom.build t).reports = (e.build Atom.build t).reports := by
  simp [build]

theorem registered_build (e : Expr Atom) (ht : Registered t) :
    Registered (e.build Atom.build t).value.1 :=
  (continues_build (fun _ a ht => (Atom.makes_build ht a).continues) e ht).registered ht

/-- What two parts add one after the other. -/
theorem augments_pair {u v : Table} {e f : Expr Atom} (hu : Registered u) (hv : Registered v)
    (hw : e.All Atom.Worded ∧ f.All Atom.Worded) (he : Augments t u ∧ e.All (Atom.Valid u))
    (hf : Augments u v ∧ f.All (Atom.Valid v)) (g : Graph) :
    Augments t { v with graph := g } ∧ e.All (Atom.Valid { v with graph := g }) ∧
      f.All (Atom.Valid { v with graph := g }) := by
  have hg := Augments.onGraph v g
  exact ⟨(he.1.trans hu hf.1).trans hv hg, (he.2.augments hu hw.1 hf.1).augments hv hw.1 hg,
    hf.2.augments hv hw.2 hg⟩

/-- So does an expression. -/
theorem augments_build (e : Expr Atom) (ht : Registered t) (hw : e.All Atom.Worded)
    (h : (e.build Atom.build t).reports = []) :
    Augments t (e.build Atom.build t).value.1 ∧
      e.All (Atom.Valid (e.build Atom.build t).value.1) := by
  induction e generalizing t with
  | empty => exact ⟨.onGraph t _, trivial⟩
  | atom a => exact Atom.augments_build ht a hw h
  | seq e f ihe ihf =>
    rw [reports_build_seq, List.append_eq_nil_iff] at h
    obtain ⟨g, hg⟩ := exists_build_seq t e f
    have hu := registered_build e ht
    rw [hg]
    exact augments_pair hu (registered_build f hu) hw (ihe ht hw.1 h.1) (ihf hu hw.2 h.2) g
  | alt e f ihe ihf =>
    rw [reports_build_alt, List.append_eq_nil_iff] at h
    obtain ⟨g, hg⟩ := exists_build_alt t e f
    have hu := registered_build e ht
    rw [hg]
    exact augments_pair hu (registered_build f hu) hw (ihe ht hw.1 h.1) (ihf hu hw.2 h.2) g
  | group b e ih =>
    rw [reports_build_group] at h
    obtain ⟨he, hve⟩ := ih ht hw h
    obtain ⟨g, hg⟩ := exists_build_group t b e
    have hu := registered_build e ht
    rw [hg]
    exact ⟨he.trans hu (.onGraph _ g), hve.augments hu hw (.onGraph _ g)⟩

end Expr

/-! ### Building what is valid in another table -/

namespace Table

variable {base t u T : Table} {n : String} {attributes : Option Token} {name : Token}

/-- What a name stands for in `t` is what it stands for in `T`, as far as uses can tell. -/
def Heralds (t T : Table) : Prop :=
  ∀ n s, t.find? n = some s → ∃ r, T.find? n = some r ∧ (T.symbol r).kind = (t.symbol s).kind ∧
    (T.symbol r).attributes.isSome = (t.symbol s).attributes.isSome

/-- The table `t` is on the way from `base` to a table that may be reached like `T`. -/
structure Bound (base t T : Table) : Prop where
  registered : Registered t
  registered_base : Registered base
  augments : Augments base t
  target : Augments base T
  heralds : Heralds t T

/-- A use of a name that is valid in `T` leads on. -/
theorem Bound.admits (h : Bound base t T) (hu : Registered u) (ha : Admits t u n attributes)
    (hT : t.find? n = none → (u.find? n).isSome = true → ∃ r, T.find? n = some r ∧
      (T.symbol r).attributes.isSome = attributes.isSome) : Bound base u T where
  registered := hu
  registered_base := h.registered_base
  augments := h.augments.trans h.registered ha.augments
  target := h.target
  heralds m s hs := by
    cases hm : t.find? m with
    | some r =>
      obtain rfl : r = s := Option.some.inj ((ha.augments.find m r hm).symm.trans hs)
      have hlt := h.registered.lt_of_find hm
      rw [ha.augments.keeps.kind r hlt, ha.augments.attributes r hlt]
      exact h.heralds m r hm
    | none =>
      by_cases hmn : m = n
      · subst hmn
        obtain ⟨hk, hattr⟩ := ha.new hm s hs
        obtain ⟨r, hr, hr'⟩ := hT hm (by simp [hs])
        have hbase : base.find? m = none := by
          cases hb : base.find? m with
          | none => rfl
          | some b => exact absurd ((h.augments.find m b hb).symm.trans hm) (by simp)
        exact ⟨r, hr, (h.target.added m r hbase hr).trans hk.symm, hr'.trans hattr.symm⟩
      · rw [ha.find m hmn, hm] at hs
        cases hs

theorem Bound.onGraph (h : Bound base t T) (g : Graph) : Bound base { t with graph := g } T where
  registered := h.registered.of_same ⟨rfl, rfl, rfl, rfl, rfl⟩
  registered_base := h.registered_base
  augments := h.augments.trans h.registered (.onGraph t g)
  target := h.target
  heralds := h.heralds

/-- A name stands for symbols of the same kind, which have attributes or have none. -/
theorem Bound.same (h : Bound base t T) (hw : name.Worded) {s r : SymbolId}
    (hs : Atom.resolve? t name = some s) (hr : Atom.resolve? T name = some r) :
    (T.symbol r).kind = (t.symbol s).kind ∧
      (T.symbol r).attributes.isSome = (t.symbol s).attributes.isSome := by
  cases hf : t.find? (String.ofList name.spelling) with
  | some q =>
    obtain ⟨q', hq', hk, ha⟩ := h.heralds _ q hf
    obtain rfl := Option.some.inj ((Atom.resolve?_of_find hf).symm.trans hs)
    obtain rfl := Option.some.inj ((Atom.resolve?_of_find hq').symm.trans hr)
    exact ⟨hk, ha⟩
  | none =>
    -- a literal of a declared token means the same in all three tables
    have hbase : Atom.resolve? base name = some s := by
      have hfb : base.find? (String.ofList name.spelling) = none := by
        cases hb : base.find? (String.ofList name.spelling) with
        | none => rfl
        | some b => exact absurd ((h.augments.find _ b hb).symm.trans hf) (by simp)
      simp only [Atom.resolve?, hf, hfb] at hs ⊢
      rwa [literal?, ← h.augments.literals]
    obtain rfl := Option.some.inj ((h.target.keeps.resolve name s hw hbase).symm.trans hr)
    have hlt := Atom.lt_of_resolve h.registered_base hbase
    rw [h.target.keeps.kind s hlt, h.target.attributes s hlt, h.augments.keeps.kind s hlt,
      h.augments.attributes s hlt]
    exact ⟨rfl, rfl⟩

/-- A name that stands for something in `T` only is declared there. -/
theorem Bound.new (h : Bound base t T) (hw : name.Worded) {r : SymbolId}
    (hs : Atom.resolve? t name = none) (hr : Atom.resolve? T name = some r) :
    String.ofList name.spelling ≠ "\"\"" ∧ T.find? (String.ofList name.spelling) = some r ∧
      (T.symbol r).kind = kindOfName (String.ofList name.spelling) := by
  have hbase : Atom.resolve? base name = none := by
    cases hb : Atom.resolve? base name with
    | none => rfl
    | some s => exact absurd ((h.augments.keeps.resolve name s hw hb).symm.trans hs) (by simp)
  have hfind := find?_eq_none_of_resolve? hbase
  have hT : T.find? (String.ofList name.spelling) = some r := by
    cases hf : T.find? (String.ofList name.spelling) with
    | some q => exact (Atom.resolve?_of_find hf).symm.trans hr
    | none =>
      simp only [Atom.resolve?, hf, hfind] at hr hbase
      rw [literal?, h.target.literals, ← literal?, hbase] at hr
      cases hr
  refine ⟨fun he => ?_, hT, h.target.added _ r hfind hT⟩
  exact absurd ((h.target.keeps.unresolved name he hbase).symm.trans hr) (by simp)

end Table

namespace Atom

open Table

variable {base t T : Table}

/-- What is valid in a table can be built on the way to it without a fault. -/
theorem silent_build (h : Bound base t T) (a : Atom) (ha : a.Worded) (hv : a.Valid T) :
    (build t a).reports = [] ∧ Bound base (build t a).value.1 T := by
  cases a with
  | symbol weak name attributes =>
    obtain ⟨hattr, r, hr, hsuits⟩ := hv
    have hsilent : (buildSymbol t weak name attributes).reports = [] := by
      refine (reports_buildSymbol_eq_nil ha).mpr ⟨hattr, ?_⟩
      cases hs : resolve? t name with
      | some s =>
        obtain ⟨hk, hattr⟩ := h.same ha hs hr
        exact hsuits.congr hk.symm hattr.symm
      | none =>
        obtain ⟨he, -, hk⟩ := h.new ha hs hr
        exact ⟨he, fun hw => hk ▸ hsuits.weak hw⟩
    refine ⟨hsilent, h.admits ((makes_build h.registered _).continues.registered h.registered)
      (admits_buildSymbol h.registered ha hsilent).1 fun hn hu => ?_⟩
    cases hs : resolve? t name with
    | some s =>
      rw [build, value_buildSymbol, used, hs] at hu
      exact absurd (hu.symm.trans (congrArg Option.isSome hn)) (by simp)
    | none => exact ⟨r, (h.new ha hs hr).2.1, hsuits.attributes⟩
  | _ => exact ⟨rfl, h.onGraph _⟩

end Atom

namespace Expr

open Table

variable {base t T : Table}

theorem silent_build (h : Bound base t T) (e : Expr Atom) (hw : e.All Atom.Worded)
    (hv : e.All (Atom.Valid T)) : (e.build Atom.build t).reports = [] ∧
      Bound base (e.build Atom.build t).value.1 T := by
  induction e generalizing t with
  | empty => exact ⟨rfl, h.onGraph _⟩
  | atom a => exact Atom.silent_build h a hw hv
  | seq e f ihe ihf =>
    obtain ⟨he, hu⟩ := ihe h hw.1 hv.1
    obtain ⟨hf, hu'⟩ := ihf hu hw.2 hv.2
    obtain ⟨g, hg⟩ := exists_build_seq t e f
    rw [reports_build_seq, he, hf, hg]
    exact ⟨rfl, hu'.onGraph g⟩
  | alt e f ihe ihf =>
    obtain ⟨he, hu⟩ := ihe h hw.1 hv.1
    obtain ⟨hf, hu'⟩ := ihf hu hw.2 hv.2
    obtain ⟨g, hg⟩ := exists_build_alt t e f
    rw [reports_build_alt, he, hf, hg]
    exact ⟨rfl, hu'.onGraph g⟩
  | group b e ih =>
    obtain ⟨he, hu⟩ := ih h hw hv
    obtain ⟨g, hg⟩ := exists_build_group t b e
    rw [reports_build_group, hg]
    exact ⟨he, hu.onGraph g⟩

end Expr

/-! ### Productions -/

namespace Production

open Table Lookahead.Atom

variable {t : Table} {p : Production}

/-- The table in which the right-hand side is built, and the symbol of the production. -/
def enter (t : Table) (p : Production) : Table × SymbolId :=
  let r := (declareName t p.name).value.1
  let u := setAttributes r.1 r.2 p.attributes
  (match p.locals with
    | some a => u.modifySymbol r.2 fun s => { s with action := some a.actionSpan }
    | none => u, r.2)

theorem continues_enter (t : Table) (p : Production) :
    Continues t (enter t p).1 ∧ (enter t p).1.graph = t.graph := by
  obtain ⟨hc, hg⟩ := continues_declareName t p.name
  have hset := hc.trans (continues_setAttributes (declareName t p.name).value.1.1
    (declareName t p.name).value.1.2 p.attributes)
  unfold enter
  dsimp only
  split
  · exact ⟨hset.trans (.modifySymbol _ _ fun _ => ⟨rfl, rfl, rfl, rfl⟩), hg⟩
  · exact ⟨hset, hg⟩

/-- The piece becomes the graph of the symbol. -/
def close (a : SymbolId) (q : Table × Piece) : Table :=
  (q.1.modifySymbol a fun s => { s with root := some q.2.entry }).onGraph (·.finish q.2)

theorem value_declare (t : Table) (p : Production) : (p.declare t).value =
    close (enter t p).2 (p.body.build Atom.build (enter t p).1).value := by
  cases hl : p.locals <;>
    simp only [declare, enter, close, hl, Noted.value_bind, Noted.value_ite, Noted.value_pure,
      ite_self]

/-- Nothing is wrong with the head of the production. -/
def Opens (t : Table) (p : Production) : Prop :=
  match t.find? p.name.text with
  | some s => (t.symbol s).kind = .nonterminal ∧ (t.symbol s).root = none ∧
      (t.symbol s).attributes.isSome = p.attributes.isSome
  | none => p.name.text ≠ "\"\""

theorem reports_declare (t : Table) (p : Production) : (p.declare t).reports =
    (declareName t p.name).reports ++ ((if (declareName t p.name).value.2 then
      checkAttributes (declareName t p.name).value.1.1 (declareName t p.name).value.1.2 p.name
        p.attributes else pure () : Noted Unit).reports ++
      (p.body.build Atom.build (enter t p).1).reports) := by
  unfold declare enter
  cases hk : (declareName t p.name).value.2 <;> cases p.locals <;> simp [hk]

/-- When nothing is reported about a production. -/
theorem reports_declare_eq_nil : (p.declare t).reports = [] ↔
    p.Opens t ∧ (p.body.build Atom.build (enter t p).1).reports = [] := by
  rw [reports_declare, List.append_eq_nil_iff, List.append_eq_nil_iff, ← and_assoc]
  refine and_congr_left' ?_
  unfold declareName Opens
  cases hf : t.find? p.name.text with
  | none => simp [Table.reports_declare_eq_nil]
  | some s =>
    have hattr (f : Symbol → Symbol) (hf : ∀ b, (f b).attributes = b.attributes) :
        (checkAttributes (t.modifySymbol s f) s p.name p.attributes).reports = [] ↔
          (t.symbol s).attributes.isSome = p.attributes.isSome := by
      unfold checkAttributes
      rw [symbol_modifySymbol_congr (p := Symbol.attributes) hf]
      by_cases h : (t.symbol s).attributes.isSome = p.attributes.isSome <;> simp [h]
    cases hk : (t.symbol s).kind <;> cases hr : (t.symbol s).root <;>
      simp [Symbol.isNonterminal, hk, hr, hattr]

/-- Nothing is wrong with the production in the table, where it has been declared. -/
structure Valid (t : Table) (p : Production) : Prop where
  head : ∃ a, t.find? p.name.text = some a ∧ (t.symbol a).kind = .nonterminal ∧
    (t.symbol a).attributes.isSome = p.attributes.isSome
  body : p.body.All (Atom.Valid t)

/-- The head of a production and its parts are words. -/
structure Worded (p : Production) : Prop where
  ident : p.name.kind = .ident
  name : p.name.Worded
  body : p.body.All Atom.Worded

/-- What the head of a production adds. -/
structure Enters (t u : Table) (p : Production) (a : SymbolId) : Prop where
  continues : Continues t u
  admits : Admits t u p.name.text p.attributes
  find : u.find? p.name.text = some a
  kind : (u.symbol a).kind = .nonterminal
  attributes : (u.symbol a).attributes.isSome = p.attributes.isSome
  graph : u.graph = t.graph
  /-- The production is the first one of its symbol. -/
  free : (t.symbol a).root = none

theorem kindOfName_text (hp : p.Worded) : kindOfName p.name.text = .nonterminal := by
  rw [← text_of_ident hp.ident, hp.name.kindOfName, if_pos hp.ident]

/-- What else is noted in the symbol does not matter. -/
theorem Enters.modifySymbol {u : Table} {a : SymbolId} {f : Symbol → Symbol} (h : Enters t u p a)
    (hn : ∀ b, (f b).name = b.name) (hf : ∀ b, (f b).kind = b.kind ∧ (f b).index = b.index ∧
      (f b).root = b.root ∧ (f b).deletable = b.deletable)
    (ha : (f (u.symbol a)).attributes.isSome = p.attributes.isSome) :
    Enters t (u.modifySymbol a f) p a := by
  have hfind (n : String) : (u.modifySymbol a f).find? n = u.find? n := find?_modifySymbol hn
  have hattr : ((u.modifySymbol a f).symbol a).attributes.isSome = p.attributes.isSome := by
    rw [symbol_modifySymbol]
    split
    · exact ha
    · exact h.attributes
  have hkind : ((u.modifySymbol a f).symbol a).kind = (u.symbol a).kind :=
    symbol_modifySymbol_congr (p := Symbol.kind) (fun b => (hf b).1) a a
  refine ⟨h.continues.trans (.modifySymbol u a hf), ⟨?_, fun m hm => ?_, fun hnone s hs => ?_⟩,
    (hfind _).trans h.find, hkind.trans h.kind, hattr, h.graph, h.free⟩
  · exact h.admits.augments.modifySymbol hn (fun b => (hf b).1)
      fun _ => ha.trans h.attributes.symm
  · exact (hfind m).trans (h.admits.find m hm)
  · obtain rfl : a = s := Option.some.inj (h.find.symm.trans ((hfind _).symm.trans hs))
    exact ⟨hkind.trans (h.admits.new hnone a h.find).1, hattr⟩

theorem enters (ht : Registered t) (hp : p.Worded) (hhead : p.Opens t) :
    Enters t (enter t p).1 p (enter t p).2 := by
  unfold Opens at hhead
  have hname : Enters t (setAttributes (declareName t p.name).value.1.1
      (declareName t p.name).value.1.2 p.attributes) p (declareName t p.name).value.1.2 := by
    cases hf : t.find? p.name.text with
    | none =>
      have hr : resolve? t p.name = none := (resolve?_of_ident hp.ident).trans hf
      have hk := (kindOfName_text hp).symm
      simp only [hf] at hhead
      rw [← text_of_ident hp.ident] at hhead hk
      have hd := Declares.declare ht hp.name hr hk hhead p.name.line
      obtain ⟨hd', ha⟩ := hd.setAttributes p.attributes
      have hvalue : (declareName t p.name).value.1 =
          (t.declare .nonterminal (String.ofList p.name.spelling) p.name.line).value := by
        rw [text_of_ident hp.ident, declareName, hf]
        rfl
      rw [hvalue]
      refine ⟨(Continues.declare ..).trans (continues_setAttributes ..), ?_, ?_, ?_, ha, ?_, ?_⟩
      · rw [← text_of_ident hp.ident]
        exact hd'.admits ha
      · rw [← text_of_ident hp.ident]
        exact hd'.self
      · exact hd'.kind.trans hk.symm
      · exact graph_declare ..
      · rw [hd.new, symbol_of_size_le le_rfl]
        rfl
    | some s =>
      simp only [hf] at hhead
      have hvalue : (declareName t p.name).value.1 =
          (t.modifySymbol s fun b => { b with line := p.name.line }, s) := by
        rw [declareName, hf]
        simp only [Noted.value_bind, Noted.value_ite, Noted.value_pure, ite_self]
      rw [hvalue]
      have hs : Enters t t p s :=
        ⟨.refl t, .refl t _ _, hf, hhead.1, hhead.2.2, rfl, hhead.2.1⟩
      refine (hs.modifySymbol (f := fun b => { b with line := p.name.line }) (fun _ => rfl)
        (fun _ => ⟨rfl, rfl, rfl, rfl⟩) hhead.2.2).modifySymbol (fun _ => rfl)
        (fun _ => ⟨rfl, rfl, rfl, rfl⟩) (Option.isSome_map ..)
  unfold enter
  cases p.locals with
  | none => exact hname
  | some l =>
    exact hname.modifySymbol (fun _ => rfl) (fun _ => ⟨rfl, rfl, rfl, rfl⟩) hname.attributes

theorem augments_close (a : SymbolId) (q : Table × Piece) : Augments q.1 (close a q) := by
  have hroot := (Augments.refl q.1).modifySymbol (s := a)
    (f := fun s => { s with root := some q.2.entry }) (fun _ => rfl) (fun _ => rfl) fun _ => rfl
  exact { hroot with keeps := hroot.keeps.trans (.onGraph _ _) }

/-- A production that is declared without a fault adds its names, and nothing is wrong with it
then. -/
theorem augments_declare (ht : Registered t) (hp : p.Worded) (h : (p.declare t).reports = []) :
    Augments t (p.declare t).value ∧ p.Valid (p.declare t).value := by
  obtain ⟨hhead, hbody⟩ := reports_declare_eq_nil.mp h
  have hin := enters ht hp hhead
  have hu := hin.continues.registered ht
  obtain ⟨hb, hv⟩ := Expr.augments_build p.body hu hp.body hbody
  have hreg := Expr.registered_build p.body hu
  rw [value_declare]
  generalize (p.body.build Atom.build (enter t p).1).value = q at hb hv hreg
  have hlast := augments_close (enter t p).2 q
  have hall := hb.trans hreg hlast
  have hlt := hu.lt_of_find hin.find
  refine ⟨hin.admits.augments.trans hu hall, ⟨_, hall.find _ _ hin.find, ?_, ?_⟩,
    hv.augments hreg hp.body hlast⟩
  · exact (hall.keeps.kind _ hlt).trans hin.kind
  · exact (hall.attributes _ hlt).trans hin.attributes

theorem Valid.augments {u : Table} (ht : Registered t) (h : p.Valid t) (hp : p.Worded)
    (hu : Augments t u) : p.Valid u := by
  obtain ⟨a, ha, hk, hattr⟩ := h.head
  have hlt := ht.lt_of_find ha
  exact ⟨⟨a, hu.find _ _ ha, (hu.keeps.kind a hlt).trans hk, (hu.attributes a hlt).trans hattr⟩,
    h.body.augments ht hp.body hu⟩

/-- What is valid in a table can be declared on the way to it without a fault, unless it has been
declared before. -/
theorem silent_declare {base T : Table} (h : Bound base t T) (hp : p.Worded) (hv : p.Valid T)
    (hroot : ∀ s, t.find? p.name.text = some s → (t.symbol s).root = none) :
    (p.declare t).reports = [] ∧ Bound base (p.declare t).value T := by
  obtain ⟨r, hr, hk, hattr⟩ := hv.head
  have hname := resolve?_of_ident (t := t) hp.ident
  have hnameT := (resolve?_of_ident (t := T) hp.ident).trans hr
  have htext := text_of_ident hp.ident
  have hopens : p.Opens t := by
    unfold Opens
    cases hf : t.find? p.name.text with
    | some s =>
      obtain ⟨hk', hattr'⟩ := h.same hp.name (hname.trans hf) hnameT
      exact ⟨hk'.symm.trans hk, hroot s hf, hattr'.symm.trans hattr⟩
    | none => exact htext ▸ (h.new hp.name (hname.trans hf) hnameT).1
  have hin := enters h.registered hp hopens
  have hu : Bound base (enter t p).1 T :=
    h.admits (hin.continues.registered h.registered) hin.admits fun _ _ => ⟨r, hr, hattr⟩
  obtain ⟨hsilent, hb⟩ := Expr.silent_build hu p.body hp.body hv.body
  rw [value_declare]
  generalize (p.body.build Atom.build (enter t p).1).value = q at hb
  refine ⟨reports_declare_eq_nil.mpr ⟨hopens, hsilent⟩, ?_⟩
  have hfind (n : String) : (close (enter t p).2 q).find? n = q.1.find? n :=
    find?_modifySymbol fun _ => rfl
  have hadmits : Admits q.1 (close (enter t p).2 q) p.name.text none :=
    ⟨augments_close _ q, fun m _ => hfind m, fun hn s hs =>
      absurd (hn.symm.trans ((hfind _).symm.trans hs)) nofun⟩
  refine hb.admits ?_ hadmits fun hn hs => ?_
  · exact (hb.registered.modifySymbol (enter t p).2
      (f := fun s => { s with root := some q.2.entry })
      (fun _ => rfl) fun _ => rfl).of_same ⟨rfl, rfl, rfl, rfl, rfl⟩
  · rw [hfind, hn] at hs
    cases hs

end Production

end Lookahead
