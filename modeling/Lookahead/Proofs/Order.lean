import Lookahead.Proofs.Depiction
import Lookahead.Proofs.MirrorChecks
import Lookahead.Proofs.Rearranged
import Lookahead.Proofs.Verdict

/-!
# The order of productions

Nothing depends on the order in which the productions of a grammar are written but the numbers of
symbols and nodes, and the order and the places of reports. If a text without wildcards is read
without an error, so is a text with the same productions in another order, and the analyses of the
two find the same (`Grammar.analysis_of_reordered`).
-/

namespace Lookahead

open Table

variable {t u : Table} {a b : SymbolId} {i j : NodeId}

/-! ### Behind the productions -/

/-- The start symbol is set without a fault. -/
def Table.HasStart (t : Table) (name last : Token) (s : SymbolId) : Prop :=
  last.chars = name.chars ∧ t.find? name.text = some s ∧ (t.symbol s).kind = .nonterminal ∧
    (t.symbol s).attributes.isSome = false

theorem reports_setStart_eq_nil {name last : Token} :
    (setStart t name last).reports = [] ↔ ∃ s, t.HasStart name last s := by
  unfold setStart Table.HasStart
  by_cases hchars : last.chars = name.chars
  · cases hs : t.find? name.text with
    | none => simp [hchars]
    | some s =>
      cases hk : (t.symbol s).kind <;> cases ha : (t.symbol s).attributes <;>
        simp [hchars, Symbol.isNonterminal, hk, ha]
  · simp [hchars]

theorem value_setStart {name last : Token} {s : SymbolId} (h : t.HasStart name last s) :
    (setStart t name last).value = { t with start := some s } := by
  obtain ⟨hchars, hs, hk, ha⟩ := h
  simp [setStart, hchars, hs, Symbol.isNonterminal, hk, ha]

/-- Whatever is wrong with it, setting the start symbol changes nothing else. -/
theorem exists_setStart (t : Table) (name last : Token) :
    ∃ s, (setStart t name last).value = { t with start := s } := by
  unfold setStart
  simp only [Noted.value_bind, Noted.value_ite, ite_self]
  split
  · simp only [Noted.value_bind, Noted.value_ite, Noted.value_pure, ite_self]
    split
    · exact ⟨_, rfl⟩
    · exact ⟨t.start, rfl⟩
  · exact ⟨t.start, rfl⟩

/-- Only a number in a symbol is changed. -/
theorem Table.Completes.setIndex (h : Completes t u) (s : SymbolId) (n : Nat) :
    Completes t (u.modifySymbol s fun b => { b with index := n }) := by
  have hcongr {α : Type} (p : Symbol → α) (hp : ∀ b, p { b with index := n } = p b) (c : SymbolId) :
      p ((u.modifySymbol s fun b => { b with index := n }).symbol c) = p (u.symbol c) :=
    symbol_modifySymbol_congr hp s c
  have hkind := hcongr Symbol.kind fun _ => rfl
  have hname := hcongr Symbol.name fun _ => rfl
  have hroot := hcongr Symbol.root fun _ => rfl
  exact ⟨size_modifySymbol.trans h.size, fun c hc => (hkind c).trans (h.kind c hc),
    fun c hc => (hname c).trans (h.name c hc), fun c => (hroot c).trans (h.root c),
    ⟨(hkind _).trans h.last.1, (hname _).trans h.last.2⟩, h.graph, h.eof⟩

/-- The table with the symbol that stands for an invalid token. -/
def Table.addInvalid (t : Table) : Table :=
  { (t.addSymbol .terminal invalidName 0).1 with invalid := some t.symbols.size }

theorem completes_addInvalid (t : Table) (s : Option SymbolId) :
    Completes t ({ t with start := s } : Table).addInvalid := by
  obtain ⟨n, -, hsym⟩ := symbol_addSymbol t .terminal invalidName 0
  exact
    { size := size_addSymbol
      kind := fun c hc => congrArg Symbol.kind ((hsym c).trans (if_neg hc.ne))
      name := fun c hc => congrArg Symbol.name ((hsym c).trans (if_neg hc.ne))
      root := (Grows.addSymbol t .terminal invalidName 0).root
      last := ⟨congrArg Symbol.kind ((hsym _).trans (if_pos rfl)),
        congrArg Symbol.name ((hsym _).trans (if_pos rfl))⟩
      graph := .refl _
      eof := rfl }

/-- What comes at the end of the productions. -/
theorem completes_endProductions (t : Table) (s : Option SymbolId) :
    Completes t ({ t with start := s } : Table).endProductions.value ∧
      ({ t with start := s } : Table).endProductions.value.start = s := by
  have hadd := completes_addInvalid t s
  have hnumber (l : List (SymbolId × Nat)) (n : Nat) {u : Table}
      (hu : Completes t u ∧ u.start = s) :
      Completes t (l.foldl (fun u p => u.modifySymbol p.1 fun b => { b with index := n + p.2 }) u) ∧
        (l.foldl (fun u p => u.modifySymbol p.1 fun b => { b with index := n + p.2 }) u).start =
          s := by
    induction l generalizing u with
    | nil => exact hu
    | cons p l ih => exact ih ⟨hu.1.setIndex p.1 (n + p.2), hu.2⟩
  exact hnumber _ _
    ⟨{ hadd with graph := hadd.graph.trans (alike_fillWildcards _) }, rfl⟩

/-- Names go on meaning what they mean. -/
theorem keeps_endProductions {t : Table} (ht : Registered t) (name last : Token) :
    Keeps t (setStart t name last).value.endProductions.value := by
  obtain ⟨s, hs⟩ := exists_setStart t name last
  have hnew : Keeps t (t.addSymbol .terminal invalidName 0).1 :=
    .addSymbol ht (fun _ hn h => absurd h hn.valid) (by decide)
  have hadd : Keeps t ({ t with start := s } : Table).addInvalid :=
    ⟨hnew.size_le, hnew.name, hnew.kind, hnew.resolve, hnew.unresolved⟩
  have hnumber (l : List (SymbolId × Nat)) (n : Nat) {u : Table} (hu : Keeps t u) :
      Keeps t (l.foldl (fun u p => u.modifySymbol p.1 fun b => { b with index := n + p.2 }) u) := by
    induction l generalizing u with
    | nil => exact hu
    | cons p l ih => exact ih (hu.trans (.modifySymbol u p.1 (fun _ => rfl) fun _ => rfl))
  rw [hs]
  exact hnumber _ _ (hadd.trans (.onGraph _ _))

theorem reports_endProductions (t : Table) : t.endProductions.reports = [] := by
  simp [endProductions]

/-! ### Definitions -/

namespace Definition

variable {d d' : Definition}

theorem reports_sections (s : Sections) : s.declare.reports =
    ({ s with productions := [] } : Sections).declare.reports ++
      (s.productions.foldlM Production.declare
        ({ s with productions := [] } : Sections).declare.value).reports := by
  simp [Sections.declare, List.append_assoc]

/-- Productions that are declared without a fault come behind a table without productions. -/
theorem exists_base {s : Sections} (hs : s.declare.reports = []) :
    ∃ t : Table, Grown t.clearGraph ∧ (∀ a, (t.clearGraph.symbol a).root = none) ∧
      (∀ l, ({ s with productions := l } : Sections).declare.value =
        (l.foldlM Production.declare t.clearGraph).value) ∧
      (s.productions.foldlM Production.declare t.clearGraph).reports = [] := by
  obtain ⟨t, hb, hroot, hfront⟩ := exists_front s
  rw [reports_sections, List.append_eq_nil_iff, show Noted.value _ = t.clearGraph from hfront []]
    at hs
  exact ⟨t, hb, hroot, hfront, hs.2⟩

theorem reports_table_eq_nil : d.table.reports = [] ↔
    d.sections.declare.reports = [] ∧ ∃ s, d.sections.declare.value.HasStart d.name d.ending s := by
  simp [table, reports_setStart_eq_nil, reports_endProductions]

/-- The table is what the declarations have come to, with what comes behind the productions. -/
theorem completes_table {s : SymbolId}
    (hs : d.sections.declare.value.HasStart d.name d.ending s) :
    Completes d.sections.declare.value d.table.value ∧ d.table.value.start = some s := by
  have hend := completes_endProductions d.sections.declare.value (some s)
  rwa [← value_setStart hs] at hend

/-- There are no wildcards in the productions. -/
def Plain (d : Definition) : Prop := ∀ p ∈ d.sections.productions, p.body.All Atom.Plain

instance (d : Definition) : Decidable d.Plain :=
  inferInstanceAs (Decidable (∀ p ∈ d.sections.productions, p.body.All Atom.Plain))

/-- The productions of a definition without faults can be declared in any other order. -/
theorem Shuffled.rearranged (h : d.Shuffled d') (hw : ∀ p ∈ d.sections.productions, p.Worded)
    (hplain : d.Plain) (hd : d.sections.declare.reports = []) : d'.sections.declare.reports = [] ∧
      ∃ base, Rearranged base d.sections.productions d'.sections.productions
        d.sections.declare.value d'.sections.declare.value := by
  obtain ⟨t, hb, hroot, hfront⟩ := exists_front d.sections
  have hbase : ({ d.sections with productions := [] } : Sections).declare.value = t.clearGraph :=
    hfront []
  have hsections : d'.sections = { d.sections with productions := d'.sections.productions } :=
    congrArg (fun s : Sections => { s with productions := d'.sections.productions }) h.others
  have hvalue' : d'.sections.declare.value =
      (d'.sections.productions.foldlM Production.declare t.clearGraph).value := by
    rw [← hfront, ← hsections]
  rw [reports_sections, hbase, List.append_eq_nil_iff] at hd
  have hw' : ∀ q ∈ d'.sections.productions, q.Worded := fun q hq => by
    obtain ⟨p, hp, hpq⟩ := List.mem_map.mp (h.productions.subset (List.mem_map_of_mem hq))
    exact q.worded_word.mp (hpq ▸ p.worded_word.mpr (hw p hp))
  have hleft := declared_productions hb hroot hw hd.2
  obtain ⟨hsilent, hright, hheralds'⟩ := hleft.permuted hb hroot hw h.productions
  obtain ⟨-, -, hheralds⟩ := hright.permuted hb hroot hw' h.productions.symm
  rw [reports_sections, h.others, hbase, hd.1, List.nil_append, hvalue']
  refine ⟨hsilent, t.clearGraph, ?_⟩
  rw [show d.sections.declare.value = _ from hfront d.sections.productions]
  refine ⟨hb.registered, hleft, hright, h.productions, hheralds, hheralds', hplain,
    fun i hi set => ?_⟩
  obtain rfl : i = 0 := Nat.lt_one_iff.mp hi
  nofun

/-- Tables that mirror each other, without wildcards and with productions apart. -/
structure Twins (t u : Table) : Prop where
  mirrors : ∃ S N, Mirrors S N t u
  apart : t.Apart ∧ u.Apart
  plain : (∀ i set, t.graph.kind i ≠ .any set) ∧ ∀ i set, u.graph.kind i ≠ .any set

/-- With its productions in another order a definition is without faults as well, and the tables
mirror each other. -/
theorem Shuffled.twins (h : d.Shuffled d') (hw : ∀ p ∈ d.sections.productions, p.Worded)
    (hplain : d.Plain) (hd : d.table.reports = []) :
    d'.table.reports = [] ∧ Twins d.table.value d'.table.value := by
  rw [reports_table_eq_nil] at hd
  obtain ⟨hsections, s, hs⟩ := hd
  obtain ⟨hsections', base, hr⟩ := h.rearranged hw hplain hsections
  obtain ⟨hchars, hfind, hkind, hattr⟩ := id hs
  obtain ⟨r, hr', hkind', hattr'⟩ := hr.heralds _ _ hfind
  have hs' : d'.sections.declare.value.HasStart d'.name d'.ending r := by
    refine ⟨?_, h.name ▸ hr', hkind'.trans hkind, hattr'.trans hattr⟩
    have hending := congrArg Token.chars h.ending
    change d'.ending.chars = d.ending.chars at hending
    rw [h.name, hending, hchars]
  obtain ⟨hc, hstart⟩ := completes_table hs
  obtain ⟨hc', hstart'⟩ := completes_table hs'
  have hany {t u : Table} (h : Completes t u) (ht : ∀ i set, t.graph.kind i ≠ .any set) (i : NodeId)
      (set : IndexSet) : u.graph.kind i ≠ .any set := fun hk => by
    rcases NodeKind.outline_cases (h.graph.kind i) with he | ⟨-, y, -, hy⟩ | ⟨x, -, hx, -⟩
    · exact ht i set (he.symm.trans hk)
    · exact ht i y hy
    · simp [hx] at hk
  refine ⟨reports_table_eq_nil.mpr ⟨hsections', r, hs'⟩, ⟨_, _, hr.mirrors hc hc' ?_⟩,
    ⟨hc.apart hr.left.apart, hc'.apart hr.right.apart⟩,
    hany hc hr.kind_ne_any, hany hc' hr.symm.kind_ne_any⟩
  rw [hstart, hstart']
  exact .some (hr.counterpart hfind hr')

end Definition

/-! ### What analyses find -/

namespace Table

/-- What is found out about a nonterminal. -/
structure Profile where
  name : String
  deletable : Bool
  first : Set String
  follow : Set String

/-- Terminals are known by their names. -/
def profile (t : Table) (a : SymbolId) : Profile where
  name := (t.symbol a).name
  deletable := (t.symbol a).deletable
  first := t.names (t.symbol a).first
  follow := t.names (t.symbol a).follow

/-- The set of a synchronisation point. -/
def syncNames (t : Table) (i : NodeId) : Option (Set String) :=
  match t.graph.kind i with
  | .sync x => some (t.names x)
  | _ => none

/-- The nodes are at the same place in the productions of nonterminals with one name. -/
inductive Corresponds (t u : Table) : NodeId → NodeId → Prop
  | root {a b : SymbolId} {i j : NodeId} (h : (u.symbol b).name = (t.symbol a).name)
      (hi : (t.symbol a).root = some i) (hj : (u.symbol b).root = some j) : Corresponds t u i j
  | next {i j k l : NodeId} (h : Corresponds t u i j) (hk : t.graph.next i = some k)
      (hl : u.graph.next j = some l) : Corresponds t u k l
  | sub {i j k l : NodeId} (h : Corresponds t u i j) (hk : (t.graph.kind i).sub? = some k)
      (hl : (u.graph.kind j).sub? = some l) : Corresponds t u k l
  | down {i j k l : NodeId} (h : Corresponds t u i j) (hk : (t.graph.kind i).down? = some k)
      (hl : (u.graph.kind j).down? = some l) : Corresponds t u k l

/-- The same has been found out about two tables, symbols being known by their names and nodes by
their places. -/
structure SameFindings (t u : Table) : Prop where
  nonterminals : (u.nonterminals.toList.map u.profile).Perm (t.nonterminals.toList.map t.profile)
  places : ∀ a ∈ t.nonterminals, ∀ i, t.Within a i → ∃ j, Corresponds t u i j
  places' : ∀ b ∈ u.nonterminals, ∀ j, u.Within b j → ∃ i, Corresponds t u i j
  points : ∀ i j, Corresponds t u i j → u.syncNames j = t.syncNames i
  syncs : u.names u.syncs = t.names t.syncs

variable {S : SymbolId → SymbolId → Prop} {N : NodeId → NodeId → Prop}

section

variable (h : Mirrors S N t u)
include h

theorem Mirrors.of_corresponds (hij : Corresponds t u i j) : N i j := by
  have hlink {p q : Option NodeId} {k l : NodeId} (hpq : Option.Rel N p q) (hk : p = some k)
      (hl : q = some l) : N k l := by
    obtain ⟨l', hl', hkl⟩ := exists_of_optionRel hpq hk
    exact Option.some.inj (hl.symm.trans hl') ▸ hkl
  induction hij with
  | root hab hi hj =>
    exact hlink (h.root _ _ (h.named _ _ (by rw [hi]; rfl) (by rw [hj]; rfl) hab)) hi hj
  | next _ hk hl ih => exact hlink (h.next _ _ ih) hk hl
  | sub _ hk hl ih => exact hlink (h.node _ _ ih).rel_sub.1 hk hl
  | down _ hk hl ih => exact hlink (h.node _ _ ih).rel_sub.2 hk hl

theorem Mirrors.exists_corresponds (hab : S a b) (hi : t.Within a i) :
    ∃ j, Corresponds t u i j := by
  induction hi with
  | root hr =>
    obtain ⟨j, hj, -⟩ := exists_of_optionRel (h.root a b hab) hr
    exact ⟨j, .root (h.name a b hab) hr hj⟩
  | next _ hk ih =>
    obtain ⟨j, hj⟩ := ih
    obtain ⟨l, hl, -⟩ := exists_of_optionRel (h.next _ _ (h.of_corresponds hj)) hk
    exact ⟨l, hj.next hk hl⟩
  | sub _ hk ih =>
    obtain ⟨j, hj⟩ := ih
    obtain ⟨l, hl, -⟩ := exists_of_optionRel (h.node _ _ (h.of_corresponds hj)).rel_sub.1 hk
    exact ⟨l, hj.sub hk hl⟩
  | down _ hk ih =>
    obtain ⟨j, hj⟩ := ih
    obtain ⟨l, hl, -⟩ := exists_of_optionRel (h.node _ _ (h.of_corresponds hj)).rel_sub.2 hk
    exact ⟨l, hj.down hk hl⟩

omit h in
theorem Corresponds.symm (hij : Corresponds t u i j) : Corresponds u t j i := by
  induction hij with
  | root h hi hj => exact .root h.symm hj hi
  | next _ hk hl ih => exact ih.next hl hk
  | sub _ hk hl ih => exact ih.sub hl hk
  | down _ hk hl ih => exact ih.down hl hk

variable (ht : t.Filled) (hu : u.Filled)
include ht hu

theorem Mirrors.profile_eq (hab : S a b) (ha : a ∈ t.nonterminals) : u.profile b = t.profile a := by
  have hrt := ht.formed.registered
  have hru := hu.formed.registered
  have hb := (h.listed hrt hru hab (k := .nonterminal)).mp ha
  have htc := ht.toComputed
  have huc := hu.toComputed
  rw [profile, profile, h.name a b hab,
    show (u.symbol b).deletable = (t.symbol a).deletable from h.isDeletable_eq htc huc hab ha,
    h.first_eq htc huc hab ha (ht.final a ha) (hu.final b hb),
    h.names_eq hrt hru fun c d hcd hc => h.follow_eq htc huc hab ha hcd hc]

theorem Mirrors.syncNames_eq (hij : N i j) : u.syncNames j = t.syncNames i := by
  have hagree := fun x y => h.agree_sync ht hu hij (x := x) (y := y)
  have hlike := h.node i j hij
  unfold syncNames
  generalize t.graph.kind i = k at hlike hagree
  generalize u.graph.kind j = l at hlike hagree
  cases hlike with
  | sync x y =>
    exact congrArg some
      (h.names_eq ht.formed.registered hu.formed.registered (hagree x y rfl rfl).get)
  | _ => rfl

/-- The same is found out about tables that mirror each other. -/
theorem Mirrors.sameFindings : SameFindings t u where
  nonterminals := by
    have := h.perm_listed ht.formed.registered hu.formed.registered (k := .nonterminal) (by decide)
      (P := fun _ => true) (Q := fun _ => true) (fun _ _ _ _ => rfl)
      fun a b hab ha => h.profile_eq ht hu hab ha
    rwa [List.filter_true, List.filter_true] at this
  places a ha i hi := by
    obtain ⟨b, -, hab⟩ :=
      h.exists_listed ht.formed.registered hu.formed.registered (k := .nonterminal) (by decide) ha
    exact h.exists_corresponds hab hi
  places' b hb j hj := by
    obtain ⟨a, -, hab⟩ :=
      h.symm.exists_listed hu.formed.registered ht.formed.registered (k := .nonterminal)
        (by decide) hb
    obtain ⟨i, hi⟩ := h.symm.exists_corresponds hab hj
    exact ⟨i, hi.symm⟩
  points i j hij := h.syncNames_eq ht hu (h.of_corresponds hij)
  syncs := h.names_syncs ht hu

omit ht hu in
/-- The notes about deletable nonterminals are the same. -/
theorem Mirrors.perm_notes (ht : t.Formed) (hu : u.Formed)
    (hdt : ∀ s, (t.symbol s).deletable = false) (hdu : ∀ s, (u.symbol s).deletable = false) :
    u.computeDeletable.reports.Perm t.computeDeletable.reports := by
  obtain ⟨hst, het⟩ := ht.exact_computeDeletable hdt
  obtain ⟨hsu, heu⟩ := hu.exact_computeDeletable hdu
  have h := h.of_same t.sameDeclared_computeDeletable u.sameDeclared_computeDeletable
  have hrt := (hst.formed ht).registered
  have hru := (hsu.formed hu).registered
  rw [reports_computeDeletable, reports_computeDeletable]
  simp only [nonterminalSymbols, List.filter_map, List.map_map]
  refine h.perm_listed hrt hru (k := .nonterminal) (by decide) (fun a b hab ha => ?_)
    fun a b hab _ => ?_
  · exact h.isDeletable_eq_of_exact hrt hru het heu hab ha
  · simp [h.name a b hab]

end

end Table

/-! ### Texts -/

namespace Log

variable {cfg : Config} {l m : List Diagnostic}

theorem perm_shown (h : (m.map Diagnostic.unplaced).Perm (l.map Diagnostic.unplaced)) :
    ((shown cfg m).map Diagnostic.unplaced).Perm ((shown cfg l).map Diagnostic.unplaced) := by
  rw [map_shown, map_shown]
  exact h.filter _

end Log

namespace Grammar

variable {source source' : String} {cfg : Config} {log : Log} {g : Grammar}

/-- Two analyses come to the same verdict, find the same and report the same, in any order and
wherever it was found. -/
structure SameOutcome (r r' : Log × Grammar × Bool) : Prop where
  verdict : r'.2.2 = r.2.2
  findings : r.2.1.table.SameFindings r'.2.1.table
  reports : (r'.1.reports.toList.map Diagnostic.unplaced).Perm
    (r.1.reports.toList.map Diagnostic.unplaced)

theorem parse_of_read {d : Definition} (hd : Definition.read source = .ok d) :
    Grammar.parse source cfg log =
      (log.recordAll (d.configure cfg) d.table.events, .ok ⟨d.configure cfg, d.table.value⟩) := by
  unfold parse
  rw [hd]

theorem exists_read (hg : (Grammar.parse source cfg log).2 = .ok g) :
    ∃ d, Definition.read source = .ok d ∧ g = ⟨d.configure cfg, d.table.value⟩ := by
  cases hd : Definition.read source with
  | ok d =>
    rw [parse_of_read hd] at hg
    exact ⟨d, rfl, (Except.ok.inj hg).symm⟩
  | error b => simp [parse, hd] at hg

theorem errorCount_parse {d : Definition} (hd : Definition.read source = .ok d) :
    (Grammar.parse source cfg log).1.errorCount =
      log.errorCount + d.table.reports.countP Diagnostic.isError := by
  rw [parse_of_read hd]
  exact Log.errorCount_recordAll fun e he => (d.mistaken_table e he).hideable

/-- A text that is read without an error has no faults. -/
theorem reports_of_errorCount_eq {d : Definition} (hd : Definition.read source = .ok d)
    (h : (Grammar.parse source cfg log).1.errorCount = log.errorCount) : d.table.reports = [] := by
  rw [errorCount_parse hd, Nat.add_eq_left] at h
  exact List.eq_nil_iff_forall_not_mem.mpr fun e he =>
    List.countP_eq_zero.mp h e he (d.mistaken_table e he).1

theorem reports_of_errorCount {d : Definition} (hd : Definition.read source = .ok d)
    (h : (Grammar.parse source cfg log).1.errorCount = 0) : d.table.reports = [] := by
  have hcount : (Grammar.parse source cfg log).1.errorCount = _ := errorCount_parse hd
  exact reports_of_errorCount_eq hd (h.trans (by omega))

/-- Without faults nothing is reported. -/
theorem reports_parse {d : Definition} (hd : Definition.read source = .ok d)
    (h : d.table.reports = []) : (Grammar.parse source cfg log).1.reports = log.reports := by
  rw [parse_of_read hd, ← Array.toList_inj, Log.reports_recordAll,
    show d.table.events.filterMap Event.report? = [] from h]
  simp [Log.shown]

/-- Grammars whose tables mirror each other have the same outcome. -/
theorem SameOutcome.of_mirrors {S : SymbolId → SymbolId → Prop} {N : NodeId → NodeId → Prop}
    {g' : Grammar} {log' : Log} (h : Mirrors S N g.table g'.table) (ht : g.table.Formed)
    (hu : g'.table.Formed) (hdt : ∀ s, (g.table.symbol s).deletable = false)
    (hdu : ∀ s, (g'.table.symbol s).deletable = false) (hft : g.table.computeSets.value.Filled)
    (hfu : g'.table.computeSets.value.Filled) (hcfg : g'.config = g.config)
    (hlog : log.hasErrors = false) (hreports : log'.reports = log.reports) :
    SameOutcome (g.analyze log) (g'.analyze log') := by
  have hlog' : log'.hasErrors = false := by rw [← hlog, Log.hasErrors, hreports, Log.hasErrors]
  have hm := h.of_same ht.sameDeclared_computeSets hu.sameDeclared_computeSets
  have hcheck := hm.echoes_check hft.toComputed hfu.toComputed
  have hanalyze : ((g'.table.analyze false).reports.map Diagnostic.unplaced).Perm
      ((g.table.analyze false).reports.map Diagnostic.unplaced) := by
    rw [reports_analyze, reports_analyze, if_neg Bool.false_ne_true, if_neg Bool.false_ne_true,
      List.map_append, List.map_append]
    exact ((h.perm_notes ht hu hdt hdu).map _).append hcheck.reports
  have hshown : ((g'.analyze log').1.reports.toList.map Diagnostic.unplaced).Perm
      ((g.analyze log).1.reports.toList.map Diagnostic.unplaced) := by
    have hrecord (g : Grammar) (log : Log) (hlog : log.hasErrors = false) :
        (g.analyze log).1.reports.toList =
          log.reports.toList ++ Log.shown g.config (g.table.analyze false).reports := by
      rw [← hlog]
      exact Log.reports_recordAll ..
    rw [hrecord g log hlog, hrecord g' log' hlog', hreports, hcfg, List.map_append, List.map_append]
    exact (List.Perm.refl _).append (Log.perm_shown hanalyze)
  have htable (g : Grammar) (log : Log) (hlog : log.hasErrors = false) :
      (g.analyze log).2.1.table = g.table.computeSets.value := by
    change (g.table.analyze log.hasErrors).value.1 = _
    rw [hlog, value_analyze, if_neg Bool.false_ne_true]
  refine ⟨?_, ?_, hshown⟩
  · rw [Bool.eq_iff_iff, accepted_iff_errorCount, accepted_iff_errorCount, Log.errorCount_eq,
      Log.errorCount_eq, hshown.countP_eq]
  · rw [htable g log hlog, htable g' log' hlog']
    exact hm.sameFindings hft hfu

/-- A text with the same productions in another order is read without an error as well, and its
analysis comes to the same. -/
theorem analysis_of_reordered (h : Reordered source source')
    (hg : (Grammar.parse source cfg log).2 = .ok g)
    (hlog : (Grammar.parse source cfg log).1.errorCount = 0)
    (hplain : ∀ d, Definition.read source = .ok d → d.Plain) :
    ∃ g', (Grammar.parse source' cfg log).2 = .ok g' ∧
      (Grammar.parse source' cfg log).1.errorCount = 0 ∧
      SameOutcome (g.analyze (Grammar.parse source cfg log).1)
        (g'.analyze (Grammar.parse source' cfg log).1) := by
  obtain ⟨d, hd, rfl⟩ := exists_read hg
  obtain ⟨d', hd', hshuffled⟩ := Definition.read_reordered h hd
  have hworded (p : Production) (hp : p ∈ d.sections.productions) : p.Worded := by
    obtain ⟨hident, hname, hbody⟩ := (Definition.written_read hd).worded
      (fun _ ht hk => Token.worded_of_read ht hk) p hp
    exact ⟨hident, hname, hbody⟩
  have hsilent := reports_of_errorCount hd hlog
  obtain ⟨hsilent', ⟨S, N, hm⟩, ⟨hap, hap'⟩, hany, hany'⟩ :=
    hshuffled.twins hworded (hplain d hd) hsilent
  have hg' : (Grammar.parse source' cfg log).2 = .ok ⟨d'.configure cfg, d'.table.value⟩ := by
    rw [parse_of_read hd']
  obtain ⟨ht, hdt, -⟩ := formed_parse hg
  obtain ⟨hu, hdu, -⟩ := formed_parse hg'
  have hnone : (Grammar.parse source cfg log).1.hasErrors = false :=
    Log.hasErrors_eq_false_iff.mpr hlog
  have hsame : (Grammar.parse source' cfg log).1.reports =
      (Grammar.parse source cfg log).1.reports :=
    (reports_parse hd' hsilent').trans (reports_parse hd hsilent).symm
  refine ⟨_, hg', ?_, .of_mirrors hm ht hu hdt hdu (filled_computeSets hg hany hap)
    (filled_computeSets hg' hany' hap') ?_ hnone hsame⟩
  · rw [Log.errorCount, hsame]
    exact hlog
  · have := congrArg Sections.directives hshuffled.others
    change d'.sections.directives = d.sections.directives at this
    simp only [Definition.configure, this]

/-- A nonterminal is used before its production. -/
def forward : String := "COMPILER L\nPRODUCTIONS\nL = SYNC [I].\nI = \"i\".\nEND L."

/-- The same productions the other way round. -/
def backward : String := "COMPILER L\nPRODUCTIONS\nI = \"i\".\nL = SYNC [I].\nEND L."

def tokenAt (source : String) (n : Nat) : Token := (Token.read source).tokens.getD n default

/-- Some tokens of a text. -/
def tokensFrom (source : String) (n count : Nat) : List Token :=
  ((Token.read source).tokens.drop n).take count

theorem read_eq {ts : List Token}
    (h : (Token.read source).rejected = none ∧ (Token.read source).tokens = ts) :
    Token.read source = ⟨ts, none⟩ := by
  rw [← h.1, ← h.2]

set_option maxRecDepth 100000 in
theorem reordered_backward : Reordered forward backward := by
  have hl : Token.IsChunk (tokenAt forward 3 :: (tokensFrom forward 4 5 ++ [tokenAt forward 9])) :=
    ⟨_, _, _, rfl, by decide +kernel⟩
  have hi : Token.IsChunk
      (tokenAt forward 10 :: (tokensFrom forward 11 2 ++ [tokenAt forward 13])) :=
    ⟨_, _, _, rfl, by decide +kernel⟩
  have hchunks : ∀ c ∈ [_, _], Token.IsChunk c :=
    List.forall_mem_cons.mpr ⟨hl, List.forall_mem_cons.mpr ⟨hi, List.forall_mem_nil _⟩⟩
  exact ⟨tokensFrom forward 0 2, tokensFrom forward 15 2, tokensFrom backward 15 2,
    tokenAt forward 2, tokenAt forward 14, tokenAt backward 14, _,
    [tokensFrom backward 3 4, tokensFrom backward 7 7], read_eq (by decide +kernel),
    read_eq (by decide +kernel), by decide +kernel, by decide +kernel, hchunks, by decide +kernel,
    by decide +kernel, by decide +kernel⟩

set_option maxRecDepth 100000 in
theorem plain_forward : ∃ d, Definition.read forward = .ok d ∧ decide d.Plain :=
  exists_ok_of_any (by decide +kernel)

set_option maxRecDepth 100000 in
theorem read_forward : (∃ g, (Grammar.parse forward default {}).2 = .ok g ∧ true) ∧
    (Grammar.parse forward default {}).1.errorCount = 0 :=
  ⟨exists_ok_of_any (by decide +kernel), by decide +kernel⟩

theorem sameOutcome_backward : ∃ g g', (Grammar.parse forward default {}).2 = .ok g ∧
    (Grammar.parse backward default {}).2 = .ok g' ∧
    (Grammar.parse backward default {}).1.errorCount = 0 ∧
    SameOutcome (g.analyze (Grammar.parse forward default {}).1)
      (g'.analyze (Grammar.parse backward default {}).1) := by
  obtain ⟨⟨g, hg, -⟩, hlog⟩ := read_forward
  obtain ⟨d, hd, hplain⟩ := plain_forward
  obtain ⟨g', hg', hlog', h⟩ := analysis_of_reordered reordered_backward hg hlog fun d' hd' => by
    obtain rfl := Except.ok.inj (hd.symm.trans hd')
    exact of_decide_eq_true hplain
  exact ⟨g, g', hg, hg', hlog', h⟩

end Grammar

end Lookahead
