import Lookahead.Proofs.Escapes
import Lookahead.Proofs.FixedTokens
import Lookahead.Proofs.Located

/-!
# Characters and strings

A character is spelled as the string of one character, so a character and a string that denote the
same character mean the same symbol. That goes by what is written between the quotes
(`Token.inner_of_denotes`), and since each kind of literal protects its own quote, the two quotes
have to be written differently. For the double quote that is seen to, and for the single quote it is
not (`Token.spelling_eq_iff`).
-/

namespace Lookahead

open Table

/-! ### Between the quotes -/

/-- The characters that a backslash protects. -/
def Text.escaped : List Char → List Char
  | '\\' :: e :: cs => e :: escaped cs
  | _ :: cs => escaped cs
  | [] => []

theorem Text.eq_nil_of_unescape {cs : List Char} (h : unescape cs = ⟨[], 0⟩) : cs = [] := by
  unfold unescape at h
  split at h
  · rfl
  · split at h
    · simp [Unescaped.cons] at h
    · split at h
      · split at h
        · split at h <;> simp [Unescaped.cons, Unescaped.fault] at h
        · simp at h
      · simp [Unescaped.fault] at h
  · simp at h
  · simp [Unescaped.cons] at h

namespace Token

/-- What stands around a literal. -/
def Kind.quote? : Kind → Option Char
  | .string => some '"'
  | .char => some '\''
  | _ => none

variable {source : String} {cs : List Char} {k : Kind} {n : Nat} {t u : Token} {c q : Char}

theorem scanWord_quote (h : scanWord cs = .ok (some k, n)) : k.quote? = none := by
  unfold scanWord at h
  split at h
  · cases h
  · split at h
    · cases h
      unfold wordKind
      split <;> rfl
    · split at h
      · rename_i hp
        cases h
        unfold punctuation? at hp
        split at hp <;> cases hp <;> rfl
      · cases h

/-- The literals are what starts with their quotes, up to the next one. -/
theorem scan_quoted (h : scan cs = .ok (some k, n)) (hq : k.quote? = some q) :
    ∃ ds m, cs = q :: ds ∧ literalLength q ds = some (true, m) ∧ n = m + 1 := by
  unfold scan at h
  split at h
  iterate 2 exact absurd h (map_passed_ne_ok _)
  iterate 2
    unfold scanLiteral at h
    split at h <;> cases h
    · cases hq
      exact ⟨_, _, rfl, ‹_›, rfl⟩
    · cases hq
  · cases delimited_eq_ok h
    cases hq
  · cases h
    cases hq
  · cases delimited_eq_ok h
    cases hq
  · split at h <;> cases h
    cases hq
  · split at h
    · cases delimited_eq_ok h
      cases hq
    · dsimp only at h
      split at h
      · cases h
      · rw [scanWord_quote h] at hq
        cases hq

/-- A literal is what is inside between its quotes, and a quote alone cannot be inside. -/
theorem quoted_of_read (ht : t ∈ (read source).tokens) (hq : t.kind.quote? = some q) :
    t.chars = q :: (t.inner ++ [q]) ∧ t.inner ≠ [q] := by
  obtain ⟨cs, n, hscan, hchars⟩ := exists_scan_of_readFrom ht
  obtain ⟨ds, m, rfl, hm, rfl⟩ := scan_quoted hscan hq
  obtain ⟨body, e, rest, rfl, rfl, rfl⟩ := exists_literal hm
  have htake : t.chars = q :: (body ++ [q]) := by
    rw [hchars, List.take_succ_cons, List.take_left]
  have hinner : t.inner = body := by
    rw [inner, htake]
    simp
  refine ⟨by rw [hinner, htake], ?_⟩
  rw [hinner]
  rintro rfl
  have hne : q ≠ '\\' := by
    rintro rfl
    unfold Kind.quote? at hq
    split at hq <;> simp at hq
  have hshort : literalLength q ([q] ++ [q] ++ rest) = some (true, 1) := by
    rw [List.append_assoc, List.singleton_append, literalLength, if_pos rfl]
    rintro _ _ rfl
    exact absurd rfl hne
  rw [hshort] at hm
  simp at hm

/-- The literal denotes the character, and a backslash stands only where it has to: before the
quote of the literal and before a backslash. -/
structure Denotes (t : Token) (c : Char) : Prop where
  unescape : Text.unescape t.inner = ⟨[c], 0⟩
  escaped : ∀ e ∈ Text.escaped t.inner, t.kind.quote? = some e ∨ e = '\\'

theorem namedEscape?_of_quote (hq : k.quote? = some q) (hc : c = q ∨ c = '\\') :
    Text.namedEscape? c = some c := by
  rcases hc with rfl | rfl
  · unfold Kind.quote? at hq
    split at hq <;> cases hq <;> rfl
  · rfl

/-- There is one way to write a character between quotes. -/
theorem inner_of_denotes (ht : t ∈ (read source).tokens) (hq : t.kind.quote? = some q)
    (h : t.Denotes c) : t.inner = if c = q ∨ c = '\\' then ['\\', c] else [c] := by
  obtain ⟨-, hne⟩ := quoted_of_read ht hq
  obtain ⟨hun, hesc⟩ := h
  generalize t.inner = cs at hne hun hesc
  rcases cs with _ | ⟨d, ds⟩
  · cases hun
  by_cases hd : d = '\\'
  · subst hd
    rcases ds with _ | ⟨e, ds⟩
    · cases hun
    have he : e = q ∨ e = '\\' := by
      have hprotected := hesc e (by simp [Text.escaped])
      rw [hq] at hprotected
      exact hprotected.imp_left fun h => (Option.some.inj h).symm
    rw [Text.unescape_of_named (namedEscape?_of_quote hq he)] at hun
    simp only [Text.Unescaped.cons, Text.Unescaped.mk.injEq, List.cons.injEq] at hun
    obtain ⟨⟨rfl, hchars⟩, hfaults⟩ := hun
    have hds : ds = [] := Text.eq_nil_of_unescape (by rw [← hchars, ← hfaults])
    rw [if_pos he, hds]
  · rw [Text.unescape_of_ne hd] at hun
    simp only [Text.Unescaped.cons, Text.Unescaped.mk.injEq, List.cons.injEq] at hun
    obtain ⟨⟨rfl, hchars⟩, hfaults⟩ := hun
    have hds : ds = [] := Text.eq_nil_of_unescape (by rw [← hchars, ← hfaults])
    subst hds
    rw [if_neg]
    rintro (rfl | rfl)
    · exact hne rfl
    · exact hd rfl

theorem denotes_of_inner (hq : t.kind.quote? = some q)
    (h : t.inner = if c = q ∨ c = '\\' then ['\\', c] else [c]) : t.Denotes c := by
  by_cases hc : c = q ∨ c = '\\'
  · rw [if_pos hc] at h
    refine ⟨?_, fun e he => ?_⟩
    · rw [h, Text.unescape_of_named (namedEscape?_of_quote hq hc)]
      rfl
    · obtain rfl : e = c := by simpa [h, Text.escaped] using he
      rw [hq]
      exact hc.imp_left fun h => congrArg some h.symm
  · rw [if_neg hc] at h
    refine ⟨?_, fun e he => ?_⟩
    · rw [h, Text.unescape_of_ne fun hc' => hc (.inr hc')]
      rfl
    · simp [h, Text.escaped] at he

/-- A character and a string of it are spelled alike, unless it is the single quote: that one is
protected in the one and not in the other, and spelled as it is written. -/
theorem spelling_eq_iff (ht : t ∈ (read source).tokens) (hu : u ∈ (read source).tokens)
    (htk : t.kind = .char) (huk : u.kind = .string) (htc : t.Denotes c) (huc : u.Denotes c) :
    t.spelling = u.spelling ↔ c ≠ '\'' := by
  have htq : t.kind.quote? = some '\'' := by rw [htk]; rfl
  have huq : u.kind.quote? = some '"' := by rw [huk]; rfl
  have htin := inner_of_denotes ht htq htc
  have huin := inner_of_denotes hu huq huc
  obtain ⟨huchars, -⟩ := quoted_of_read hu huq
  have hstring : u.spelling = '"' :: (u.inner ++ ['"']) := by
    rw [spelling, if_neg (by rw [huk]; decide), ← huchars]
  rw [hstring, huin, spelling, if_pos htk, htin]
  by_cases hsingle : c = '\''
  · subst hsingle
    decide
  by_cases hdouble : c = '"'
  · subst hdouble
    decide
  by_cases hbackslash : c = '\\'
  · subst hbackslash
    decide
  simp [hsingle, hdouble, hbackslash]

end Token

/-! ### The nodes of names -/

namespace Expr

/-- The names in an expression whose nodes are numbered from `n` on, each with its node. -/
def names : Expr Atom → Nat → List (Token × NodeId)
  | empty, _ => []
  | atom (.symbol _ name _), n => [(name, n)]
  | atom _, _ => []
  | seq e f, n | alt e f, n => e.names n ++ f.names (n + e.size)
  | group _ e, n => e.names n

variable {e : Expr Atom} {n : Nat} {t : Table} {p : Token × NodeId}

theorem map_names (e : Expr Atom) (n : Nat) :
    (e.names n).map (·.1) = e.occurrences.map (·.name) := by
  induction e generalizing n with
  | empty => rfl
  | atom a => cases a <;> rfl
  | seq e f ihe ihf | alt e f ihe ihf => simp only [names, occurrences, List.map_append, ihe, ihf]
  | group b e ih => exact ih n

/-- The node of a name stands for a part with that name, and what holds of all parts holds of it. -/
theorem exists_of_mem_names {P : Atom → Prop} (hP : e.All P) (h : e.Stands t n)
    (hp : p ∈ e.names n) : ∃ weak attributes, P (.symbol weak p.1 attributes) ∧
      (Atom.symbol weak p.1 attributes).Stands t p.2 := by
  induction e generalizing n with
  | empty => cases hp
  | atom a =>
    cases a with
    | symbol weak name attributes =>
      obtain rfl := List.mem_singleton.mp hp
      exact ⟨weak, attributes, hP, h⟩
    | _ => cases hp
  | seq e f ihe ihf =>
    rcases List.mem_append.mp hp with hp | hp
    · exact ihe hP.1 h.1 hp
    · exact ihf hP.2 h.2 hp
  | alt e f ihe ihf =>
    rcases List.mem_append.mp hp with hp | hp
    · exact ihe hP.1 h.1 hp
    · exact ihf hP.2 h.2.1 hp
  | group b e ih => exact ih hP h.1 hp

end Expr

namespace Table

/-- The name means the terminal `s` in a table that has been made of the productions: that is found
under the name, and the nodes of the name are nodes of that terminal. -/
structure Resolves (t : Table) (ps : List Production) (name : Token) (s : SymbolId) : Prop where
  kind : (t.symbol s).kind = .terminal
  resolve : Atom.resolve? t name = some s
  placed : ∀ p ∈ ps, ∃ n, p.body.Stands t n
  node : ∀ p ∈ ps, ∀ n, p.body.Stands t n → ∀ i, (name, i) ∈ p.body.names n →
    t.graph.kind i = .terminal s ∨ t.graph.kind i = .weak s

variable {t : Table} {ps : List Production} {name : Token} {s : SymbolId}

theorem resolves_of_resolve? (hplaced : ∀ p ∈ ps, ∃ n, p.body.Stands t n)
    (hk : (t.symbol s).kind = .terminal) (hs : Atom.resolve? t name = some s) :
    t.Resolves ps name s where
  kind := hk
  resolve := hs
  placed := hplaced
  node p _ n hn i hi := by
    obtain ⟨weak, attributes, -, r, hr, hlook⟩ := Expr.exists_of_mem_names p.body.all_true hn hi
    obtain rfl : s = r := by
      unfold Means at hr
      rwa [hs] at hr
    have hbare : (t.graph.kind i).bare = (Atom.nodeKind .terminal weak name s).value := by
      rw [← hk]
      exact congrArg Look.kind hlook
    cases weak with
    | false => exact .inl (by cases hi : t.graph.kind i <;> simp_all [NodeKind.bare, Atom.nodeKind])
    | true => exact .inr (by cases hi : t.graph.kind i <;> simp_all [NodeKind.bare, Atom.nodeKind])

end Table

/-! ### What has been declared before the productions -/

namespace Sections

variable {s : Sections} {a : SymbolId} {i : Nat} {d : TokenDecl} {name : Token}

theorem ne_nonterminal_of_mem {p : SymbolKind × TokenDecl} (hp : p ∈ s.declarations) :
    p.1 ≠ .nonterminal := by
  simp only [declarations, List.mem_append, List.mem_map] at hp
  rcases hp with ⟨d, -, rfl⟩ | ⟨d, -, rfl⟩ <;> simp

/-- Nonterminals come with the productions. -/
theorem kind_front_ne (h : s.declare.reports = []) (ha : a < s.front.symbols.size) :
    (s.front.symbol a).kind ≠ .nonterminal := by
  have hfront := enrolls_front h
  cases a with
  | zero => simp [hfront.eof.1]
  | succ i =>
    have hi : i < s.declarations.length := by
      rw [hfront.size] at ha
      exact Nat.lt_of_succ_lt_succ ha
    rw [hfront.kind i _ (List.getElem?_eq_getElem hi)]
    exact ne_nonterminal_of_mem (List.getElem_mem hi)

/-- A token that is declared as one literal is found under that literal, unless there is a token of
that name. -/
theorem resolve?_front (h : s.declare.reports = []) (hi : s.tokens[i]? = some d)
    (hl : d.lone? = some (String.ofList name.spelling)) (hk : name.kind ≠ .ident)
    (hw : name.Worded) (hfree : ∀ e ∈ s.tokens, e.name.text ≠ String.ofList name.spelling) :
    Atom.resolve? s.front name = some (i + 1) := by
  have hfront := enrolls_front h
  have hreg : Registered s.front := (grown_sections _).registered
  have hfind : s.front.find? (String.ofList name.spelling) = none := by
    refine (find?_eq_none_iff hreg).mpr fun r hr hp => ?_
    cases r with
    | zero =>
      rw [hfront.eof.2]
      intro he
      have hhead := hw.literal.mpr hk
      rw [show name.spelling = "EOF".toList by rw [he, String.toList_ofList]] at hhead
      exact absurd hhead (by decide)
    | succ j =>
      have hj : j < s.declarations.length := by
        rw [hfront.size] at hr
        exact Nat.lt_of_succ_lt_succ hr
      have hget := List.getElem?_eq_getElem hj
      rw [hfront.kind j _ hget] at hp
      rw [hfront.name j _ hget]
      have hmem := List.getElem_mem hj
      generalize s.declarations[j] = p at hp hmem
      simp only [declarations, List.mem_append, List.mem_map] at hmem
      rcases hmem with ⟨e, he, rfl⟩ | ⟨e, -, rfl⟩
      · exact hfree e he
      · exact absurd rfl hp
  have hliteral : s.front.literal? (String.ofList name.spelling) = some (i + 1) := by
    have hget : (s.declarations.map (·.2))[i]? = some d := by
      obtain ⟨hlt, -⟩ := List.getElem?_eq_some_iff.mp hi
      simp [declarations, Function.comp_def, List.getElem?_append_left hlt, hi]
    rw [hfront.literal?_eq_some_iff, hfront.literals]
    exact (mem_literalsOf hget).mpr hl
  simp [Atom.resolve?, hfind, hk, hliteral]

end Sections

/-- A terminal or nonterminal is found under its name. -/
theorem Table.Distinct.find?_name {t : Table} {s : SymbolId} (ht : t.Distinct)
    (hs : s < t.symbols.size) (hk : (t.symbol s).kind ≠ .pragma) :
    t.find? (t.symbol s).name = some s := by
  cases hf : t.find? (t.symbol s).name with
  | none => exact absurd rfl ((find?_eq_none_iff ht.registered).mp hf s hs hk)
  | some r =>
    have hr := ht.registered.lt_of_find hf
    have hname := name_of_find hf
    have hkr : (t.symbol r).kind ≠ .pragma := by
      have hmem := List.mem_of_find?_eq_some hf
      rw [List.mem_append, Array.mem_toList_iff, Array.mem_toList_iff] at hmem
      rcases hmem with hmem | hmem
      · rw [((ht.registered.mem .terminal r).mp hmem).2]
        decide
      · rw [((ht.registered.mem .nonterminal r).mp hmem).2]
        decide
    rcases Nat.lt_trichotomy r s with hlt | rfl | hlt
    · exact absurd (ht.first s hs r hlt hname) hkr
    · rfl
    · exact absurd (ht.first r hr s hlt hname.symm) hk

/-! ### Whole texts -/

namespace Definition

variable {source : String} {d : Definition} {name : Token} {i : Nat} {decl : TokenDecl}

section

variable (hd : Definition.read source = .ok d) (h : d.table.reports = [])
include hd h

theorem declared_sections : Declared d.sections.front d.sections.productions
    d.sections.declare.value := by
  obtain ⟨t, hb, hroot, hfront, hsilent⟩ := exists_base (reports_table_eq_nil.mp h).1
  have hdeclared := declared_productions hb hroot (worded_of_read hd).productions hsilent
  rwa [← hfront, ← show d.sections.front = t.clearGraph from hfront []] at hdeclared

/-- The nodes of each production stand for its parts. -/
theorem exists_stands_table {p : Production} (hp : p ∈ d.sections.productions) :
    ∃ n, p.body.Stands d.table.value n := by
  have hdeclared := declared_sections hd h
  have hreg := hdeclared.grown.registered
  obtain ⟨n, hn⟩ := hdeclared.lies p hp
  have hlooks := (sameLooks_setStart d.sections.declare.value d.name d.ending).trans
    (sameLooks_endProductions _)
  exact ⟨n, hn.stands.keeps hreg (keeps_endProductions hreg d.name d.ending)
    ((worded_of_read hd).productions p hp).body fun i _ => hlooks.look i⟩

/-- What a literal in the productions means is a terminal. -/
theorem exists_resolves (hk : name.kind ≠ .ident)
    (ho : name ∈ d.sections.occurrences.map (·.name)) :
    ∃ s, d.table.value.Resolves d.sections.productions name s := by
  obtain ⟨hsections, -⟩ := reports_table_eq_nil.mp h
  have hdeclared := declared_sections hd h
  have hreg := hdeclared.grown.registered
  have hkeeps : Keeps d.sections.declare.value d.table.value :=
    keeps_endProductions hreg d.name d.ending
  obtain ⟨o, hmem, rfl⟩ := List.mem_map.mp ho
  obtain ⟨p, hp, hop⟩ := List.mem_flatMap.mp hmem
  have hworded := (worded_of_read hd).productions p hp
  rcases List.mem_cons.mp hop with rfl | hop
  · exact absurd hworded.ident hk
  obtain ⟨n, hn⟩ := hdeclared.lies p hp
  have hname : o.name ∈ (p.body.names n).map (·.1) := by
    rw [Expr.map_names]
    exact List.mem_map_of_mem hop
  obtain ⟨⟨name, j⟩, hj, hnj⟩ := List.mem_map.mp hname
  dsimp only at hnj
  subst hnj
  obtain ⟨weak, attributes, ⟨hw, -, s, hs, hsuits⟩, -⟩ := Expr.exists_of_mem_names
    (hworded.body.and (hdeclared.valid p hp).body) hn.stands hj
  have hlt := Atom.lt_of_resolve hreg hs
  refine ⟨s, resolves_of_resolve? (fun p hp => exists_stands_table hd h hp) ?_
    (hkeeps.resolve _ s hw hs)⟩
  have hne : (d.sections.declare.value.symbol s).kind ≠ .nonterminal := by
    have hold (r : SymbolId) (hr : r < d.sections.front.symbols.size) :
        (d.sections.declare.value.symbol r).kind ≠ .nonterminal := by
      rw [hdeclared.augments.keeps.kind r hr]
      exact Sections.kind_front_ne hsections hr
    have hfront : Registered d.sections.front := (grown_sections _).registered
    simp only [Atom.resolve?] at hs
    split at hs
    · rename_i r hf
      obtain rfl := Option.some.inj hs
      cases hb : d.sections.front.find? (String.ofList o.name.spelling) with
      | none =>
        rw [hdeclared.augments.added _ _ hb hf, hw.kindOfName, if_neg hk]
        decide
      | some q =>
        obtain rfl := Option.some.inj ((hdeclared.augments.find _ _ hb).symm.trans hf)
        exact hold q (hfront.lt_of_find hb)
    · rw [if_neg hk, literal?, hdeclared.augments.literals] at hs
      obtain ⟨l, hl, rfl⟩ := Option.map_eq_some_iff.mp hs
      exact hold _ (hfront.literal l (Array.mem_of_find?_eq_some hl))
  rw [hkeeps.kind s hlt]
  have hpragma := hsuits.kind
  cases hkind : (d.sections.declare.value.symbol s).kind <;> simp_all

/-- What a token is declared as means that token. -/
theorem resolves_declared (hw : name.Worded) (hi : d.sections.tokens[i]? = some decl)
    (hr : Atom.resolve? d.sections.front name = some (i + 1)) :
    d.table.value.Resolves d.sections.productions name (i + 1) := by
  have hdeclared := declared_sections hd h
  have hkeeps := hdeclared.augments.keeps.trans
    (keeps_endProductions hdeclared.grown.registered d.name d.ending)
  refine resolves_of_resolve? (fun p hp => exists_stands_table hd h hp) ?_
    (hkeeps.resolve name _ hw hr)
  obtain ⟨-, -, hdecl⟩ := enrolled_table hd h
  obtain ⟨hlt, -⟩ := List.getElem?_eq_some_iff.mp hi
  refine (hdecl i (.terminal, decl) ?_).1
  rw [Sections.declarations, List.getElem?_append_left (by simpa using hlt), List.getElem?_map, hi]
  rfl

/-- A literal that is declared as a token means that token. -/
theorem resolve?_named (hi : d.sections.tokens[i]? = some decl)
    (hname : decl.name.text = String.ofList name.spelling) :
    Atom.resolve? d.sections.front name = some (i + 1) := by
  obtain ⟨hsections, -⟩ := reports_table_eq_nil.mp h
  have hfront := Sections.enrolls_front hsections
  rw [reports_sections, List.append_eq_nil_iff] at hsections
  have hworded : ({ d.sections with productions := [] } : Sections).Worded :=
    ⟨(worded_of_read hd).tokens, (worded_of_read hd).pragmas,
      fun _ hp => absurd hp List.not_mem_nil⟩
  have hdistinct : d.sections.front.Distinct := Sections.distinct_declare hworded hsections.1
  obtain ⟨hlt, -⟩ := List.getElem?_eq_some_iff.mp hi
  have hget : d.sections.declarations[i]? = some (.terminal, decl) := by
    rw [Sections.declarations, List.getElem?_append_left (by simpa using hlt), List.getElem?_map,
      hi]
    rfl
  have hsize : i + 1 < d.sections.front.symbols.size := by
    rw [hfront.size]
    exact Nat.succ_lt_succ (List.getElem?_eq_some_iff.mp hget).1
  have hfind := hdistinct.find?_name hsize (by simp [hfront.kind i _ hget])
  rw [hfront.name i _ hget] at hfind
  exact Atom.resolve?_of_find (hname ▸ hfind)

end

end Definition

/-- The declaration is for the literal: it consists of it alone, or its structure does, parentheses
aside, and no token has been declared under the literal itself. -/
def Sections.Defines (s : Sections) (decl : TokenDecl) (t : Token) : Prop :=
  decl.name = t ∧ decl.body = none ∨
    (∃ e, decl.body = some e ∧ e.bare = .atom (.literal t)) ∧
      ∀ e ∈ s.tokens, e.name.text ≠ String.ofList t.spelling

theorem Definition.resolve?_of_defines {source : String} {d : Definition} {t : Token} {i : Nat}
    {decl : TokenDecl} (hd : Definition.read source = .ok d) (h : d.table.reports = [])
    (hw : t.Worded) (hk : t.kind ≠ .ident) (hi : d.sections.tokens[i]? = some decl)
    (hdef : d.sections.Defines decl t) : Atom.resolve? d.sections.front t = some (i + 1) := by
  rcases hdef with ⟨rfl, -⟩ | ⟨⟨e, he, hbare⟩, hfree⟩
  · refine resolve?_named hd h hi ?_
    have hrelated := (related_of_read (Token.alike_known fun _ => True)
      (fun t _ => ⟨rfl, trivial⟩) hd).sections.tokens
    have hkind := (List.forall₂_same.mp hrelated decl (List.mem_of_getElem? hi)).kind
    have hchar : decl.name.kind ≠ .char := by
      rcases hkind with hkind | hkind <;> rw [hkind] <;> decide
    rw [Token.spelling, if_neg hchar, Token.text]
  · obtain ⟨hsections, -⟩ := reports_table_eq_nil.mp h
    refine Sections.resolve?_front hsections hi ?_ hk hw hfree
    rw [TokenDecl.lone?, he, Option.bind_some, Expr.literal?_eq_some_iff.mpr hbare]
    rfl

namespace Grammar

variable {source : String} {cfg : Config} {log : Log} {g : Grammar}

/-- If a text is read without an error, a character and a string that denote the same character,
which is not the single quote, mean the same terminal: both occur in the productions, or one of them
is what a token is declared as. -/
theorem resolves_alike (hg : (Grammar.parse source cfg log).2 = .ok g)
    (hlog : (Grammar.parse source cfg log).1.errorCount = log.errorCount) : ∃ d,
    Definition.read source = .ok d ∧ ∀ c ≠ '\'', ∀ t ∈ (Token.read source).tokens,
      ∀ u ∈ (Token.read source).tokens, t.kind = .char → u.kind = .string → t.Denotes c →
        u.Denotes c →
      (t ∈ d.sections.occurrences.map (·.name) → u ∈ d.sections.occurrences.map (·.name) →
        ∃ s, g.table.Resolves d.sections.productions t s ∧
          g.table.Resolves d.sections.productions u s) ∧
      ∀ i decl, d.sections.tokens[i]? = some decl →
        d.sections.Defines decl t ∨ d.sections.Defines decl u →
        g.table.Resolves d.sections.productions t (i + 1) ∧
          g.table.Resolves d.sections.productions u (i + 1) := by
  obtain ⟨d, hd, rfl⟩ := exists_read hg
  have hsilent := reports_of_errorCount_eq hd hlog
  refine ⟨d, hd, fun c hc t ht u hu htk huk htc huc => ?_⟩
  have hspelling := (Token.spelling_eq_iff ht hu htk huk htc huc).mpr hc
  have htw := Token.worded_of_read ht (.inr (.inr htk))
  have huw := Token.worded_of_read hu (.inr (.inl huk))
  have hti : t.kind ≠ .ident := by rw [htk]; decide
  have hui : u.kind ≠ .ident := by rw [huk]; decide
  have hsame (v : Table) : Atom.resolve? v t = Atom.resolve? v u :=
    resolve?_congr htw huw (congrArg String.ofList hspelling)
  refine ⟨fun htm hum => ?_, fun i decl hi hdef => ?_⟩
  · obtain ⟨s, hs⟩ := Definition.exists_resolves hd hsilent hti htm
    exact ⟨s, hs, resolves_of_resolve? hs.placed hs.kind ((hsame _).symm.trans hs.resolve)⟩
  · have hfront : Atom.resolve? d.sections.front u = some (i + 1) := by
      rcases hdef with hdef | hdef
      · exact (hsame _).symm.trans (Definition.resolve?_of_defines hd hsilent htw hti hi hdef)
      · exact Definition.resolve?_of_defines hd hsilent huw hui hi hdef
    exact ⟨Definition.resolves_declared hd hsilent htw hi ((hsame _).trans hfront),
      Definition.resolves_declared hd hsilent huw hi hfront⟩

/-- The double quote in two ways. -/
def doubleQuotes : String := "COMPILER A\nPRODUCTIONS\nA = '\"' \"\\\"\".\nEND A."

/-- The single quote in two ways. -/
def singleQuotes : String := "COMPILER A\nPRODUCTIONS\nA = '\\'' \"'\".\nEND A."

/-- A character and a string that denote the same character. -/
def IsPair (source : String) (c : Char) (t u : Token) : Prop :=
  t ∈ (Token.read source).tokens ∧ u ∈ (Token.read source).tokens ∧ t.kind = .char ∧
    u.kind = .string ∧ t.Denotes c ∧ u.Denotes c

set_option maxRecDepth 100000 in
theorem isPair_doubleQuotes :
    IsPair doubleQuotes '"' (tokenAt doubleQuotes 5) (tokenAt doubleQuotes 6) := by
  have hmem : tokenAt doubleQuotes 5 ∈ (Token.read doubleQuotes).tokens ∧
      tokenAt doubleQuotes 6 ∈ (Token.read doubleQuotes).tokens := by decide +kernel
  have ht : (tokenAt doubleQuotes 5).inner = ['"'] ∧ (tokenAt doubleQuotes 5).kind = .char := by
    decide +kernel
  have hu : (tokenAt doubleQuotes 6).inner = ['\\', '"'] ∧
      (tokenAt doubleQuotes 6).kind = .string := by decide +kernel
  refine ⟨hmem.1, hmem.2, ht.2, hu.2, Token.denotes_of_inner (q := '\'') ?_ ?_,
    Token.denotes_of_inner (q := '"') ?_ ?_⟩
  · rw [ht.2]
    rfl
  · rw [ht.1]
    rfl
  · rw [hu.2]
    rfl
  · rw [hu.1]
    rfl

set_option maxRecDepth 100000 in
theorem parse_doubleQuotes : (∃ g, (Grammar.parse doubleQuotes default {}).2 = .ok g ∧ true) ∧
    (Grammar.parse doubleQuotes default {}).1.errorCount = Log.errorCount {} ∧
    ∃ d, Definition.read doubleQuotes = .ok d ∧
      decide (tokenAt doubleQuotes 5 ∈ d.sections.occurrences.map (·.name) ∧
        tokenAt doubleQuotes 6 ∈ d.sections.occurrences.map (·.name)) :=
  ⟨exists_ok_of_any (by decide +kernel), by decide +kernel, exists_ok_of_any (by decide +kernel)⟩

theorem resolves_doubleQuotes : ∃ g d s, (Grammar.parse doubleQuotes default {}).2 = .ok g ∧
    (Grammar.parse doubleQuotes default {}).1.errorCount = Log.errorCount {} ∧
    Definition.read doubleQuotes = .ok d ∧
    g.table.Resolves d.sections.productions (tokenAt doubleQuotes 5) s ∧
    g.table.Resolves d.sections.productions (tokenAt doubleQuotes 6) s := by
  obtain ⟨⟨g, hg, -⟩, hlog, d, hd, hmem⟩ := parse_doubleQuotes
  obtain ⟨ht, hu, htk, huk, htc, huc⟩ := isPair_doubleQuotes
  obtain ⟨hmt, hmu⟩ := of_decide_eq_true hmem
  obtain ⟨d', hd', halike⟩ := resolves_alike hg hlog
  obtain rfl := Except.ok.inj (hd.symm.trans hd')
  obtain ⟨s, hts, hus⟩ := (halike '"' (by decide) _ ht _ hu htk huk htc huc).1 hmt hmu
  exact ⟨g, d, s, hg, hlog, hd, hts, hus⟩

set_option maxRecDepth 100000 in
theorem isPair_singleQuotes :
    IsPair singleQuotes '\'' (tokenAt singleQuotes 5) (tokenAt singleQuotes 6) := by
  have hmem : tokenAt singleQuotes 5 ∈ (Token.read singleQuotes).tokens ∧
      tokenAt singleQuotes 6 ∈ (Token.read singleQuotes).tokens := by decide +kernel
  have ht : (tokenAt singleQuotes 5).inner = ['\\', '\''] ∧
      (tokenAt singleQuotes 5).kind = .char := by decide +kernel
  have hu : (tokenAt singleQuotes 6).inner = ['\''] ∧
      (tokenAt singleQuotes 6).kind = .string := by decide +kernel
  refine ⟨hmem.1, hmem.2, ht.2, hu.2, Token.denotes_of_inner (q := '\'') ?_ ?_,
    Token.denotes_of_inner (q := '"') ?_ ?_⟩
  · rw [ht.2]
    rfl
  · rw [ht.1]
    rfl
  · rw [hu.2]
    rfl
  · rw [hu.1]
    rfl

set_option maxRecDepth 100000 in
/-- The single quote is spelled in two ways, so it becomes two terminals. -/
theorem parse_singleQuotes : (∃ g, (Grammar.parse singleQuotes default {}).2 = .ok g ∧
      decide (Atom.resolve? g.table (tokenAt singleQuotes 5) ≠
        Atom.resolve? g.table (tokenAt singleQuotes 6))) ∧
    (Grammar.parse singleQuotes default {}).1.errorCount = Log.errorCount {} ∧
    ∃ d, Definition.read singleQuotes = .ok d ∧
      decide (tokenAt singleQuotes 5 ∈ d.sections.occurrences.map (·.name) ∧
        tokenAt singleQuotes 6 ∈ d.sections.occurrences.map (·.name)) :=
  ⟨exists_ok_of_any (by decide +kernel), by decide +kernel, exists_ok_of_any (by decide +kernel)⟩

theorem apart_singleQuotes : ¬∀ (source : String) (cfg : Config) (log : Log) (g : Grammar)
    (d : Definition) (c : Char) (t u : Token), (Grammar.parse source cfg log).2 = .ok g →
      (Grammar.parse source cfg log).1.errorCount = log.errorCount →
      Definition.read source = .ok d → IsPair source c t u →
      t ∈ d.sections.occurrences.map (·.name) → u ∈ d.sections.occurrences.map (·.name) →
      ∃ s, g.table.Resolves d.sections.productions t s ∧
        g.table.Resolves d.sections.productions u s := by
  intro h
  obtain ⟨⟨g, hg, hne⟩, hlog, d, hd, hmem⟩ := parse_singleQuotes
  obtain ⟨ht, hu⟩ := of_decide_eq_true hmem
  obtain ⟨s, hts, hus⟩ := h singleQuotes default {} g d '\'' _ _ hg hlog hd
    isPair_singleQuotes ht hu
  exact absurd (hts.resolve.trans hus.resolve.symm) (of_decide_eq_true hne)

end Grammar

end Lookahead
