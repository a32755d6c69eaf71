import Lookahead.Proofs.Order
import Lookahead.Proofs.Parallel

/-!
# One name, one symbol

A name is looked up before a symbol is declared under it, but only among terminals and nonterminals.
So when nothing is wrong with a text, a symbol has the name of an earlier one only if that is a
pragma (`Table.Distinct`, `Grammar.pragma_of_name_eq`): terminals and nonterminals all have names of
their own, and a pragma declared once more, or declared again as something else, goes unnoticed.
-/

namespace Lookahead

open Table

variable {t u : Table} {k : SymbolKind} {n : String} {line : Nat} {s : SymbolId} {name : Token}

namespace Table

theorem find?_eq_none_iff (ht : Registered t) : t.find? n = none ↔
    ∀ s < t.symbols.size, (t.symbol s).kind ≠ .pragma → (t.symbol s).name ≠ n := by
  simp only [find?, List.find?_eq_none, List.mem_append, Array.mem_toList_iff, beq_iff_eq]
  refine forall_congr' fun s => ?_
  have hterminal := ht.mem .terminal s
  have hnonterminal := ht.mem .nonterminal s
  simp only [listed] at hterminal hnonterminal
  rw [hterminal, hnonterminal]
  cases (t.symbol s).kind <;> simp

/-- No symbol has the name of the invalid token, and none has the name of an earlier one, unless
that is a pragma. -/
structure Distinct (t : Table) : Prop where
  registered : Registered t
  first : ∀ s < t.symbols.size, ∀ r < s, (t.symbol r).name = (t.symbol s).name →
    (t.symbol r).kind = .pragma
  valid : ∀ s < t.symbols.size, (t.symbol s).name ≠ invalidName

namespace Distinct

theorem of_keeps (ht : t.Distinct) (hu : Registered u) (h : Keeps t u)
    (hs : u.symbols.size = t.symbols.size) : u.Distinct where
  registered := hu
  first s hlt r hr hn := by
    rw [hs] at hlt
    have hlt' := hr.trans hlt
    rw [h.name s hlt, h.name r hlt'] at hn
    rw [h.kind r hlt']
    exact ht.first s hlt r hr hn
  valid s hlt := by
    rw [hs] at hlt
    rw [h.name s hlt]
    exact ht.valid s hlt

theorem onGraph (ht : t.Distinct) (g : Graph) : ({ t with graph := g } : Table).Distinct :=
  ht.of_keeps ((Continues.onGraph t g).registered ht.registered) (.onGraph t g) rfl

theorem modifySymbol (ht : t.Distinct) (s : SymbolId) {f : Symbol → Symbol}
    (hf : ∀ b, (f b).kind = b.kind ∧ (f b).index = b.index ∧ (f b).name = b.name) :
    (t.modifySymbol s f).Distinct :=
  ht.of_keeps (ht.registered.modifySymbol s (fun b => (hf b).1) fun _ => (hf _).2.1)
    (.modifySymbol t s (fun b => (hf b).2.2) fun b => (hf b).1) (by simp)

theorem of_symbols (ht : t.Distinct) (h : Continues t u) (hs : u.symbols = t.symbols) :
    u.Distinct where
  registered := h.registered ht.registered
  first := by
    simp only [Table.symbol, hs]
    exact ht.first
  valid := by
    simp only [Table.symbol, hs]
    exact ht.valid

theorem addLiteral (ht : t.Distinct) (spelling : String) (hs : s < t.symbols.size) :
    (t.addLiteral spelling s).Distinct := by
  refine ht.of_symbols (.addLiteral t spelling hs) ?_
  unfold Table.addLiteral
  split <;> rfl

theorem addClass (ht : t.Distinct) (c : String) (set : CharSet) :
    (t.addClass c set).1.Distinct := by
  refine ht.of_symbols (.addClass t c set) ?_
  unfold Table.addClass
  split <;> rfl

/-- A name that is not found is at most the name of pragmas. -/
theorem first_of_find (ht : t.Distinct) (hn : t.find? n = none) (hs : u.symbols.size =
      t.symbols.size + 1) (hkind : ∀ s < t.symbols.size, (u.symbol s).kind = (t.symbol s).kind)
    (hname : ∀ s < t.symbols.size, (u.symbol s).name = (t.symbol s).name)
    (hnew : (u.symbol t.symbols.size).name = n) : ∀ s < u.symbols.size, ∀ r < s,
      (u.symbol r).name = (u.symbol s).name → (u.symbol r).kind = .pragma := by
  intro s hlt r hr he
  rw [hs] at hlt
  have hr' : r < t.symbols.size := Nat.lt_of_lt_of_le hr (Nat.le_of_lt_succ hlt)
  rw [hname r hr'] at he
  rw [hkind r hr']
  by_cases hold : s < t.symbols.size
  · rw [hname s hold] at he
    exact ht.first s hold r hr he
  · obtain rfl : s = t.symbols.size :=
      Nat.le_antisymm (Nat.le_of_lt_succ hlt) (Nat.le_of_not_lt hold)
    rw [hnew] at he
    by_contra hk
    exact (find?_eq_none_iff ht.registered).mp hn r hr' hk he

theorem addSymbol (ht : t.Distinct) (hn : t.find? n = none) (hv : n ≠ invalidName) :
    (t.addSymbol k n line).1.Distinct := by
  obtain ⟨m, -, hsym⟩ := symbol_addSymbol t k n line
  have hold (s : SymbolId) (hs : s < t.symbols.size) :
      (t.addSymbol k n line).1.symbol s = t.symbol s := by rw [hsym, if_neg hs.ne]
  refine ⟨ht.registered.addSymbol, ht.first_of_find hn size_addSymbol
    (fun s hs => by rw [hold s hs]) (fun s hs => by rw [hold s hs]) ?_, fun s hs => ?_⟩
  · rw [hsym, if_pos rfl]
  · rw [size_addSymbol] at hs
    rw [hsym]
    split
    · exact hv
    · rename_i hne
      exact ht.valid s (Nat.lt_of_le_of_ne (Nat.le_of_lt_succ hs) hne)

/-- Nothing is reported of a name that can be declared. -/
theorem declare (ht : t.Distinct) (hn : t.find? n = none) (hv : n ≠ invalidName)
    (h : (t.declare k n line).reports = []) : (t.declare k n line).value.1.Distinct := by
  unfold Table.declare at h ⊢
  split at h
  · simp at h
  · rename_i he
    rw [if_neg he]
    exact ht.addSymbol hn hv

end Distinct

theorem distinct_empty : empty.Distinct where
  registered := registered_empty
  first s hs r hr := by
    have : empty.symbols.size = 1 := rfl
    omega
  valid s hs := by
    obtain rfl : s = 0 := Nat.lt_one_iff.mp hs
    decide

end Table

/-! ### Tokens and pragmas -/

theorem Token.Worded.text_ne (hw : name.Worded) (hk : name.kind ≠ .char) :
    name.text ≠ invalidName := by
  have := hw.valid
  rwa [spelling, if_neg hk] at this

/-- What holds of a table goes on to hold while an expression is built, if it does for each of its
atoms that meets no other events than `E` allows. -/
theorem Expr.kept_build {α : Type} {E : Event → Prop} {P : Table → Prop} {Q : α → Prop}
    {atoms : Table → α → Noted (Table × Piece)} (hgraph : ∀ t g, P t → P { t with graph := g })
    (hatom : ∀ t a, Q a → P t → (∀ ev ∈ (atoms t a).events, E ev) → P (atoms t a).value.1)
    (e : Expr α) (hq : e.All Q) {t : Table} (ht : P t)
    (he : ∀ ev ∈ (e.build atoms t).events, E ev) : P (e.build atoms t).value.1 := by
  induction e generalizing t with
  | empty => exact hgraph _ _ ht
  | atom a => exact hatom t a hq ht he
  | seq e f ihe ihf =>
    simp only [build, Noted.events_bind, List.forall_mem_append] at he
    exact hgraph _ _ (ihf hq.2 (ihe hq.1 ht he.1) he.2.1)
  | alt e f ihe ihf =>
    simp only [build, Noted.events_bind, List.forall_mem_append] at he
    have hf := ihf hq.2 (ihe hq.1 ht he.1) he.2.1
    simp only [build, Noted.value_bind, Noted.value_pure]
    split
    · exact hgraph _ _ hf
    · exact hgraph _ _ (hgraph _ _ hf)
  | group b e ih =>
    simp only [build, Noted.events_bind, List.forall_mem_append] at he
    have := ih hq ht he.1
    cases b with
    | round => exact this
    | _ => exact hgraph _ _ this

theorem Expr.all_true {α : Type} (e : Expr α) : e.All fun _ => True := by
  induction e with
  | empty | atom => trivial
  | seq _ _ ihe ihf | alt _ _ ihe ihf => exact ⟨ihe, ihf⟩
  | group _ _ ih => exact ih

namespace TokenDecl

theorem distinct_declareName (ht : t.Distinct) (hv : name.text ≠ invalidName)
    (h : (declareName k t name).reports = []) : (declareName k t name).value.1.Distinct := by
  unfold declareName at h ⊢
  cases hf : t.find? name.text with
  | some s => simp [hf] at h
  | none =>
    simp only [hf] at h ⊢
    exact ht.declare hf hv h

theorem distinct_setBody (ht : t.Distinct) (hs : s < t.symbols.size) (name : Token)
    (e : Expr TokenAtom) : (setBody t s name e).value.Distinct := by
  have hbuild :=
    (Expr.continues_build (fun t a _ => TokenAtom.continues_build t a) e ht.registered).grows
  have hatom (t : Table) (a : TokenAtom) (ht : t.Distinct) : (a.build t).value.1.Distinct := by
    cases a with
    | className c =>
      unfold TokenAtom.build
      dsimp only
      split
      · exact ht.onGraph _
      · exact (ht.addClass _ _).onGraph _
    | literal l =>
      simp only [TokenAtom.build, addLiteralChars, Noted.value_bind, Noted.value_ite,
        Noted.value_pure, ite_self]
      exact ht.onGraph _
  have hkept := Expr.kept_build (E := fun _ => True) (fun t g ht => ht.onGraph g)
    (fun t a _ ht _ => hatom t a ht) e e.all_true ht fun _ _ => trivial
  simp only [setBody, Noted.value_bind, Noted.value_ite, ite_self]
  split
  · simp only [Noted.value_bind, Noted.value_ite, Noted.value_pure, ite_self]
    exact (hkept.onGraph _).addLiteral _ (hs.trans_le hbuild.size_le)
  · exact (hkept.onGraph _).modifySymbol s fun _ => ⟨rfl, rfl, rfl⟩

theorem distinct_setAction (ht : t.Distinct) (s : SymbolId) (a : Token) :
    (setAction k t s a).value.Distinct := by
  simp only [setAction, Noted.value_bind, Noted.value_ite, Noted.value_pure, ite_self]
  exact ht.modifySymbol s fun _ => ⟨rfl, rfl, rfl⟩

theorem distinct_action (ht : t.Distinct) (s : SymbolId) (action : Option Token) :
    (match action with
      | some a => setAction k t s a
      | none => return t : Noted Table).value.Distinct := by
  cases action with
  | some a => exact distinct_setAction ht s a
  | none => exact ht

theorem distinct_declare {d : TokenDecl} (ht : t.Distinct) (hv : d.name.text ≠ invalidName)
    (h : (d.declare k t).reports = []) : (d.declare k t).value.Distinct := by
  obtain ⟨-, hlt⟩ := continues_declareName k ht.registered d.name
  unfold declare at h ⊢
  rw [Noted.reports_bind, List.append_eq_nil_iff] at h
  have hu := distinct_declareName ht hv h.1
  generalize hr : (declareName k t d.name).value = r at hu hlt
  obtain ⟨u, s⟩ := r
  simp only [Noted.value_bind, hr]
  cases d.body with
  | some e => exact distinct_action (distinct_setBody hu hlt d.name e) s d.action
  | none =>
    refine distinct_action ?_ s d.action
    rw [Noted.value_pure]
    split
    · exact hu.modifySymbol s fun _ => ⟨rfl, rfl, rfl⟩
    · exact hu

end TokenDecl

/-! ### Productions -/

theorem Noted.reports_eq_nil_iff {α : Type} {x : Noted α} :
    x.reports = [] ↔ ∀ ev ∈ x.events, ev.report? = none :=
  List.filterMap_eq_nil_iff

namespace Atom

theorem distinct_declareUse (ht : t.Distinct) (hw : name.Worded) (hr : resolve? t name = none)
    (h : (declareUse t name).reports = []) : (declareUse t name).value.1.Distinct := by
  have hn := find?_eq_none_of_resolve? hr
  unfold declareUse at h ⊢
  split
  · rename_i hk
    rw [if_pos hk] at h
    exact ht.declare hn hw.valid h
  · rename_i hk
    rw [if_neg hk, Noted.reports_bind, List.append_eq_nil_iff] at h
    exact (ht.declare hn hw.valid h.1).modifySymbol _ fun _ => ⟨rfl, rfl, rfl⟩

theorem distinct_build (ht : t.Distinct) (a : Atom) (hw : a.Worded)
    (h : (a.build t).reports = []) : (a.build t).value.1.Distinct := by
  cases a with
  | symbol weak name attributes =>
    have hused : (used t name).1.Distinct := by
      unfold used
      cases hr : resolve? t name with
      | some s => exact ht
      | none =>
        simp only [build, buildSymbol, hr, Noted.reports_bind, List.append_eq_nil_iff] at h
        exact distinct_declareUse ht hw hr h.1
    rw [build, value_buildSymbol]
    have hs := hused.onGraph (spanned (used t name).1
      (nodeKind ((used t name).1.symbol (used t name).2).kind weak name (used t name).2).value
      name.line (attributes.map Token.attributesSpan)).1.graph
    dsimp only
    split
    · exact hs
    · exact hs.modifySymbol _ fun _ => ⟨rfl, rfl, rfl⟩
  | _ => exact ht.onGraph _

end Atom

namespace Production

theorem distinct_declareName (ht : t.Distinct) (hv : name.text ≠ invalidName)
    (h : (declareName t name).reports = []) : (declareName t name).value.1.1.Distinct := by
  unfold declareName at h ⊢
  cases hf : t.find? name.text with
  | none =>
    simp only [hf, Noted.reports_bind, List.append_eq_nil_iff] at h
    exact ht.declare hf hv h.1
  | some s =>
    simp only [Noted.value_bind, Noted.value_ite, Noted.value_pure, ite_self]
    exact ht.modifySymbol s fun _ => ⟨rfl, rfl, rfl⟩

theorem distinct_declare {p : Production} (ht : t.Distinct) (hp : p.Worded)
    (h : (p.declare t).reports = []) : (p.declare t).value.Distinct := by
  rw [reports_declare, List.append_eq_nil_iff, List.append_eq_nil_iff] at h
  obtain ⟨hn, -, hb⟩ := h
  have hname := distinct_declareName ht (hp.name.text_ne (by simp [hp.ident])) hn
  have henter : (enter t p).1.Distinct := by
    have hset : (setAttributes (declareName t p.name).value.1.1 (declareName t p.name).value.1.2
        p.attributes).Distinct := hname.modifySymbol _ fun _ => ⟨rfl, rfl, rfl⟩
    unfold enter
    dsimp only
    split
    · exact hset.modifySymbol _ fun _ => ⟨rfl, rfl, rfl⟩
    · exact hset
  have hbody : (p.body.build Atom.build (enter t p).1).value.1.Distinct :=
    Expr.kept_build (P := Distinct) (fun t g ht => ht.onGraph g)
      (fun t a ha ht h => Atom.distinct_build ht a ha (Noted.reports_eq_nil_iff.mpr h)) p.body
      hp.body henter (Noted.reports_eq_nil_iff.mp hb)
  have hclose := hbody.modifySymbol (enter t p).2 (f := fun s =>
    { s with root := some (p.body.build Atom.build (enter t p).1).value.2.entry }) fun _ =>
      ⟨rfl, rfl, rfl⟩
  rw [value_declare]
  exact hclose.onGraph _

end Production

/-! ### Whole texts -/

/-- What holds of a table goes on to hold while things are declared one after the other without a
fault. -/
theorem kept_foldlM {α : Type} {P : Table → Prop} {step : Table → α → Noted Table} {l : List α}
    (hstep : ∀ t, ∀ a ∈ l, P t → (step t a).reports = [] → P (step t a).value) {t : Table}
    (ht : P t) (h : (l.foldlM step t).reports = []) : P (l.foldlM step t).value := by
  induction l generalizing t with
  | nil => exact ht
  | cons a l ih =>
    rw [List.foldlM_cons, Noted.reports_bind, List.append_eq_nil_iff] at h
    rw [List.foldlM_cons, Noted.value_bind]
    exact ih (fun t b hb => hstep t b (by simp [hb])) (hstep t a (by simp) ht h.1) h.2

/-- The names in a text are words. -/
structure Sections.Worded (s : Sections) : Prop where
  tokens : ∀ d ∈ s.tokens, d.name.text ≠ invalidName
  pragmas : ∀ d ∈ s.pragmas, d.name.text ≠ invalidName
  productions : ∀ p ∈ s.productions, p.Worded

theorem Sections.distinct_declare {s : Sections} (hs : s.Worded) (h : s.declare.reports = []) :
    s.declare.value.Distinct := by
  simp only [declare, Noted.reports_bind, List.append_eq_nil_iff] at h
  obtain ⟨hsets, htokens, hpragmas, hproductions⟩ := h
  have hset (t : Table) (d : SetDecl) (ht : t.Distinct) : (d.declare t).value.Distinct := by
    simp only [SetDecl.declare, Noted.value_bind, Noted.value_ite, Noted.value_pure, ite_self]
    exact ht.addClass _ _
  have h1 := kept_foldlM (fun t d _ ht _ => hset t d ht) distinct_empty hsets
  have h2 := kept_foldlM (fun t d hd ht h => TokenDecl.distinct_declare ht (hs.tokens d hd) h) h1
    htokens
  have h3 := kept_foldlM (fun t d hd ht h => TokenDecl.distinct_declare ht (hs.pragmas d hd) h) h2
    hpragmas
  exact kept_foldlM (fun t p hp ht h => Production.distinct_declare ht (hs.productions p hp) h)
    (h3.onGraph _) hproductions

theorem Definition.worded_of_read {source : String} {d : Definition}
    (hd : Definition.read source = .ok d) : d.sections.Worded := by
  have hrelated := related_of_read (Token.alike_known fun t => t.isSymbol → t.Worded)
    (fun t ht => ⟨rfl, Token.worded_of_read ht⟩) hd
  have hdecl (d : TokenDecl) (hd : d.Related (Token.Known fun t => t.isSymbol → t.Worded) d) :
      d.name.text ≠ invalidName := by
    refine (hd.name.2 ?_).text_ne ?_
    · exact hd.kind.imp_right .inl
    · rcases hd.kind with hk | hk <;> simp [hk]
  refine ⟨fun e he => hdecl e (List.forall₂_same.mp hrelated.sections.tokens e he),
    fun e he => hdecl e (List.forall₂_same.mp hrelated.sections.pragmas e he), fun p hp => ?_⟩
  obtain ⟨hident, hname, hbody⟩ := (Definition.written_read hd).worded
    (fun _ ht hk => Token.worded_of_read ht hk) p hp
  exact ⟨hident, hname, hbody⟩

namespace Grammar

variable {source : String} {cfg : Config} {log : Log} {g : Grammar}

/-- If a text is read without an error, only pragmas have names that later symbols have as well. -/
theorem pragma_of_name_eq (hg : (Grammar.parse source cfg log).2 = .ok g)
    (hlog : (Grammar.parse source cfg log).1.errorCount = log.errorCount) :
    ∀ s < g.table.symbols.size, ∀ r < s, (g.table.symbol r).name = (g.table.symbol s).name →
      (g.table.symbol r).kind = .pragma := by
  obtain ⟨d, hd, rfl⟩ := exists_read hg
  obtain ⟨hsilent, a, ha⟩ := Definition.reports_table_eq_nil.mp (reports_of_errorCount_eq hd hlog)
  have hdistinct := Sections.distinct_declare (Definition.worded_of_read hd) hsilent
  obtain ⟨hc, -⟩ := Definition.completes_table ha
  have hnone : d.sections.declare.value.find? invalidName = none :=
    (find?_eq_none_iff hdistinct.registered).mpr fun s hs _ => hdistinct.valid s hs
  exact hdistinct.first_of_find hnone hc.size hc.kind hc.name hc.last.2

/-- A pragma that is declared twice. -/
def doubled : String :=
  "COMPILER A\nPRAGMAS\np = \"a\".\np = \"b\".\nPRODUCTIONS\nA = \"x\".\nEND A."

set_option maxRecDepth 100000 in
/-- Nothing is reported of the second declaration. -/
theorem parse_doubled : ∃ g, (Grammar.parse doubled default {}).2 = .ok g ∧
    (Grammar.parse doubled default {}).1.errorCount = Log.errorCount {} ∧
      2 < g.table.symbols.size ∧ (g.table.symbol 1).name = (g.table.symbol 2).name := by
  obtain ⟨g, hg, h⟩ := exists_ok_of_any (x := (Grammar.parse doubled default {}).2)
    (P := fun g => decide (2 < g.table.symbols.size ∧
      (g.table.symbol 1).name = (g.table.symbol 2).name)) (by decide +kernel)
  exact ⟨g, hg, by decide +kernel, of_decide_eq_true h⟩

theorem pragma_doubled : ∃ g, (Grammar.parse doubled default {}).2 = .ok g ∧
    (Grammar.parse doubled default {}).1.errorCount = Log.errorCount {} ∧
      (g.table.symbol 1).kind = .pragma := by
  obtain ⟨g, hg, hlog, hlt, hn⟩ := parse_doubled
  exact ⟨g, hg, hlog, pragma_of_name_eq hg hlog 2 hlt 1 (by decide) hn⟩

theorem repeated_doubled : ¬∀ (source : String) (cfg : Config) (log : Log) (g : Grammar),
    (Grammar.parse source cfg log).2 = .ok g →
      (Grammar.parse source cfg log).1.errorCount = log.errorCount → ∀ r < g.table.symbols.size,
        ∀ s < g.table.symbols.size, (g.table.symbol r).name = (g.table.symbol s).name →
          r = s := by
  intro h
  obtain ⟨g, hg, hlog, hlt, hn⟩ := parse_doubled
  exact absurd (h doubled default {} g hg hlog 1 (Nat.lt_of_succ_lt hlt) 2 hlt hn) (by decide)

end Grammar

end Lookahead
