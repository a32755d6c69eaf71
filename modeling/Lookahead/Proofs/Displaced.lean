import Lookahead.Proofs.Parallel
import Lookahead.Proofs.Rereading
import Lookahead.Proofs.UnplacedChecks

/-!
# Declarations at other places

Tokens are displaced if they differ in their places only (`Token.Displaced`), and so are tables
(`Table.Displaced`). Declarations look at the places of their tokens to write them down and to
report faults, for nothing else. So displaced declarations turn displaced tables into displaced
tables and match in what they report, one after the other and for a whole definition
(`Definition.matches_table`).
-/

namespace Lookahead

/-! ### Tokens -/

/-- The same word at another place. -/
def Token.Displaced (t u : Token) : Prop := u.word = t.word

namespace Token

variable {t u : Token}

theorem alike_displaced : Token.Alike Displaced := fun _ _ h => (congrArg kind h :)

variable (h : t.Displaced u)
include h

theorem Displaced.kind : u.kind = t.kind := alike_displaced t u h

theorem Displaced.chars : u.chars = t.chars := (congrArg Token.chars h :)

theorem Displaced.text : u.text = t.text := congrArg String.ofList h.chars

theorem Displaced.inner : u.inner = t.inner := by rw [Token.inner, h.chars, Token.inner]

theorem Displaced.spelling : u.spelling = t.spelling := by
  rw [Token.spelling, h.kind, h.inner, h.chars, Token.spelling]

end Token

/-- Whether a token is there does not depend on places. -/
theorem Token.Optional.isSome {k : Token.Kind} {o o' : Option Token}
    (h : Token.Optional Token.Displaced k o o') : o'.isSome = o.isSome := by
  cases h <;> rfl

/-! ### Tables -/

namespace Table

/-- The tables differ in line numbers and positions only. -/
def Displaced (t u : Table) : Prop := u.unplaced = t.unplaced

/-- The same for tables that come with something else. -/
def DisplacedWith {α : Type} (r s : Table × α) : Prop := Displaced r.1 s.1 ∧ s.2 = r.2

namespace Displaced

variable {t u : Table} {f g : Symbol → Symbol} (h : t.Displaced u) (a : SymbolId) (name : String)
include h

theorem terminals : u.terminals = t.terminals := (congrArg Table.terminals h :)

theorem classes : u.classes = t.classes := (congrArg Table.classes h :)

theorem literals : u.literals = t.literals := (congrArg Table.literals h :)

theorem size : u.symbols.size = t.symbols.size := by
  simpa using congrArg (·.symbols.size) h

theorem find? : u.find? name = t.find? name := by
  rw [← find?_unplaced, h, find?_unplaced]

theorem symbol : (u.symbol a).unplaced = (t.symbol a).unplaced := by
  rw [← symbol_unplaced, h, symbol_unplaced]

theorem kind : (u.symbol a).kind = (t.symbol a).kind := (congrArg Symbol.kind (h.symbol a) :)

theorem root : (u.symbol a).root = (t.symbol a).root := (congrArg Symbol.root (h.symbol a) :)

theorem attributes :
    (u.symbol a).attributes.isSome = (t.symbol a).attributes.isSome := by
  simpa using congrArg (·.attributes.isSome) (h.symbol a)

theorem literal? : u.literal? name = t.literal? name := by
  rw [Table.literal?, h.literals, Table.literal?]

theorem classByName? : u.classByName? name = t.classByName? name := by
  rw [Table.classByName?, h.classes, Table.classByName?]

theorem charClass (c : ClassId) : u.charClass c = t.charClass c := by
  rw [Table.charClass, h.classes, Table.charClass]

/-! What changes tables -/

/-- Changes that come to the same change `k` where there are no places. -/
theorem modifySymbol (k : Symbol → Symbol) (hf : ∀ s, (f s).unplaced = k s.unplaced)
    (hg : ∀ s, (g s).unplaced = k s.unplaced) :
    Displaced (t.modifySymbol a f) (u.modifySymbol a g) := by
  rw [Displaced, unplaced_modifySymbol _ _ hf, unplaced_modifySymbol _ _ hg, h]

theorem onGraph {f : Graph → Graph} (hf : ∀ g, (f g).unplaced = f g.unplaced) :
    Displaced (t.onGraph f) (u.onGraph f) := by
  rw [Displaced, unplaced_onGraph _ (hf _), unplaced_onGraph _ (hf _), h]

theorem onPiece_of {f g k : Graph → Graph × Piece}
    (hf : ∀ G, k G.unplaced = ((f G).1.unplaced, (f G).2))
    (hg : ∀ G, k G.unplaced = ((g G).1.unplaced, (g G).2)) :
    DisplacedWith (t.onPiece f) (u.onPiece g) := by
  have hgraph : k u.graph.unplaced = k t.graph.unplaced := congrArg (fun t => k t.graph) h
  rw [hg u.graph, hf t.graph, Prod.mk.injEq] at hgraph
  refine ⟨?_, hgraph.2⟩
  refine (congrArg (fun v : Table => { v with graph := (g u.graph).1.unplaced }) h :).trans ?_
  rw [hgraph.1]
  rfl

theorem onPiece {f : Graph → Graph × Piece}
    (hf : ∀ G, f G.unplaced = ((f G).1.unplaced, (f G).2)) :
    DisplacedWith (t.onPiece f) (u.onPiece f) :=
  h.onPiece_of hf hf

theorem addNode (k : NodeKind) (line line' : Nat) :
    DisplacedWith (t.addNode k line) (u.addNode k line') :=
  h.onPiece_of (k := fun g => g.single k 0) (fun G => G.single_unplaced line k)
    fun G => G.single_unplaced line' k

theorem addSymbol (k : SymbolKind) (line line' : Nat) :
    DisplacedWith (t.addSymbol k name line) (u.addSymbol k name line') := by
  have hbare (t : Table) (line : Nat) :
      (t.addSymbol k name line).1.unplaced = (t.unplaced.addSymbol k name 0).1 := by
    cases k <;> simp [Table.addSymbol, Table.unplaced, Symbol.unplaced, Span.unplaced]
  have hid (t : Table) (line : Nat) : (t.addSymbol k name line).2 = t.symbols.size := by
    cases k <;> rfl
  refine ⟨?_, by rw [hid, hid, h.size]⟩
  rw [Displaced, hbare, hbare, h]

theorem declare (k : SymbolKind) (line line' : Nat) :
    Noted.Matches DisplacedWith (t.declare k name line) (u.declare k name line') := by
  unfold Table.declare
  split
  · exact .bind_eq ⟨rfl, rfl⟩ fun _ => .pure (h.addSymbol ..)
  · exact .pure (h.addSymbol ..)

theorem addLiteral (spelling : String) :
    Displaced (t.addLiteral spelling a) (u.addLiteral spelling a) := by
  have hbare (t : Table) :
      (t.addLiteral spelling a).unplaced = t.unplaced.addLiteral spelling a := by
    unfold Table.addLiteral
    rw [literals_unplaced]
    split <;> rfl
  rw [Displaced, hbare, hbare, h]

theorem addClass (set : CharSet) : DisplacedWith (t.addClass name set) (u.addClass name set) := by
  have hbare (t : Table) : t.unplaced.addClass name set =
      ((t.addClass name set).1.unplaced, (t.addClass name set).2) := by
    unfold Table.addClass
    split <;> rfl
  have heq := congrArg (·.addClass name set) h
  simp only [hbare, Prod.mk.injEq] at heq
  exact heq

theorem setStart (p : Option SymbolId) : Displaced { t with start := p } { u with start := p } :=
  (congrArg (fun v : Table => { v with start := p }) h :)

theorem setInvalid (p : Option SymbolId) :
    Displaced { t with invalid := p } { u with invalid := p } :=
  (congrArg (fun v : Table => { v with invalid := p }) h :)

theorem clearGraph : Displaced t.clearGraph u.clearGraph := by
  have hgraph : ({} : Graph).unplaced = {} := by simp [Graph.unplaced, Node.unplaced, Span.unplaced]
  have hbare (t : Table) : t.clearGraph.unplaced = t.unplaced.clearGraph :=
    congrArg (fun g => { t.unplaced with graph := g }) hgraph
  rw [Displaced, hbare, hbare, h]

theorem fillWildcards : Displaced t.fillWildcards u.fillWildcards := by
  have hbare (t : Table) : t.fillWildcards.unplaced = t.unplaced.fillWildcards := by
    unfold Table.fillWildcards
    refine t.unplaced_onGraph (congrArg Graph.mk ?_)
    simp only [Graph.unplaced, Array.map_map, terminalCount_unplaced, symbol_unplaced, eof_unplaced,
      Symbol.index_unplaced]
    congr 1
    funext n
    obtain ⟨k, next, up, line, span⟩ := n
    cases k <;> rfl
  rw [Displaced, hbare, hbare, h]

theorem numberPragmas : Displaced t.numberPragmas u.numberPragmas := by
  have hbare (t : Table) : t.numberPragmas.unplaced = t.unplaced.numberPragmas := by
    refine t.unplaced_foldl (fun u p => ?_) _
    exact u.unplaced_modifySymbol p.1 fun _ => rfl
  rw [Displaced, hbare, hbare, h]

/-- Displaced tables have displaced sets, the same verdict and the same reports. -/
theorem matches_analyze (faulty : Bool) :
    Noted.Matches DisplacedWith (t.analyze faulty) (u.analyze faulty) := by
  have hu := u.matches_analyze faulty
  rw [h] at hu
  refine .join (t.matches_analyze faulty) hu ?_
  rintro r s _ rfl hs
  exact ⟨(congrArg Prod.fst hs).symm, (congrArg Prod.snd hs).symm⟩

end Displaced

end Table

/-! ### Character sets -/

open Noted Table

section

variable {t u : Table} {x y : Token}

theorem matches_faultAt (x y : Token) (f : Fault) : Matches Eq (faultAt x f) (faultAt y f) :=
  ⟨rfl, rfl⟩

theorem matches_listing (k : Category) (f g : Config → String) :
    Matches Eq (Noted.emit (.listing k f)) (Noted.emit (.listing k g)) := ⟨rfl, rfl⟩

theorem matches_unescapeAt (line line' : Nat) (cs : List Char) :
    Matches Eq (unescapeAt line cs) (unescapeAt line' cs) := by
  refine ⟨rfl, ?_⟩
  simp only [Noted.reports, unescapeAt, List.filterMap_replicate, Event.report?,
    List.map_replicate]
  rfl

theorem matches_charValue (h : x.Displaced y) : Matches Eq (charValue x) (charValue y) := by
  unfold charValue
  rw [h.inner]
  refine .bind_eq (matches_unescapeAt ..) fun cs => ?_
  split
  · exact .pure rfl
  · exact .bind_eq (matches_faultAt ..) fun _ => .pure rfl

variable (h : t.Displaced u)
include h

theorem SimpleSet.matches_eval {s s' : SimpleSet} (hs : s.Related Token.Displaced s') :
    Matches Eq (s.eval t) (s'.eval u) := by
  cases hs with
  | name hx =>
    simp only [eval, hx.text, h.classByName?, h.charClass]
    split
    · exact .pure rfl
    · exact .bind_eq (matches_faultAt ..) fun _ => .pure rfl
  | string hx =>
    simp only [eval, hx.inner]
    exact .bind_eq (matches_unescapeAt ..) fun _ => .pure rfl
  | char hx => exact .bind_eq (matches_charValue hx) fun _ => .pure rfl
  | range hl hh =>
    exact .bind_eq (matches_charValue hl) fun lo => .bind_eq (matches_charValue hh) fun hi =>
      .pure rfl
  | any => exact .pure rfl

theorem matches_evalTerms {l l' : List SetTerm}
    (hl : List.Forall₂ (SetTerm.Related Token.Displaced) l l') :
    Matches Eq (evalTerms t l) (evalTerms u l') := by
  refine .foldlM hl (fun s _ e e' hs he => ?_) rfl
  obtain rfl := hs
  rw [he.minus]
  exact .bind_eq (SimpleSet.matches_eval h he.set) fun r => .pure rfl

theorem matches_checkClassName (hx : x.Displaced y) :
    Matches Eq (checkClassName t x) (checkClassName u y) := by
  unfold checkClassName
  rw [hx.text, h.classByName?]
  exact .ite (matches_faultAt ..) (.pure rfl)

theorem SetDecl.matches_declare {d d' : SetDecl} (hd : d.Related Token.Displaced d') :
    Matches Table.Displaced (d.declare t) (d'.declare u) := by
  unfold SetDecl.declare
  rw [hd.name.text]
  exact .bind_eq (matches_checkClassName h hd.name) fun _ =>
    .bind_eq (matches_evalTerms h hd.terms) fun s =>
      .when (matches_faultAt ..) (.pure (h.addClass ..).1)

end

/-! ### Expressions -/

theorem Expr.isAlt_eq {α β : Type} {A : α → β → Prop} {e : Expr α} {e' : Expr β}
    (h : e.Related A e') : e'.isAlt = e.isAlt := by
  cases h <;> rfl

theorem Expr.displaced_wrap {t u : Table} (h : t.Displaced u) (p : Piece) (b : Bracket) :
    DisplacedWith (wrap t p b) (wrap u p b) := by
  cases b with
  | round => exact ⟨h, rfl⟩
  | square => exact h.onPiece fun G => G.option_unplaced p
  | curly => exact h.onPiece fun G => G.iteration_unplaced p
  | context => exact ⟨h.onGraph fun G => G.unplaced_markContext _, rfl⟩

/-- Displaced atoms make for displaced graphs. -/
theorem Expr.matches_build {α : Type} {A : α → α → Prop}
    {atoms : Table → α → Noted (Table × Piece)} {e e' : Expr α} (he : e.Related A e')
    (hA : ∀ {t u : Table}, t.Displaced u → ∀ {a b}, A a b →
      Matches DisplacedWith (atoms t a) (atoms u b))
    {t u : Table} (h : t.Displaced u) :
    Matches DisplacedWith (e.build atoms t) (e'.build atoms u) := by
  induction he generalizing t u with
  | empty => exact .pure (h.addNode ..)
  | atom ha => exact hA h ha
  | seq _ _ ihe ihf =>
    refine .bind (ihe h) ?_
    rintro ⟨t, _⟩ ⟨u, p⟩ ⟨h, rfl⟩
    refine .bind (ihf h) ?_
    rintro ⟨t, _⟩ ⟨u, q⟩ ⟨h, rfl⟩
    exact .pure (h.onPiece fun G => G.sequence_unplaced p q)
  | alt he _ ihe ihf =>
    simp only [build, isAlt_eq he]
    refine .bind (ihe h) ?_
    rintro ⟨t, _⟩ ⟨u, p⟩ ⟨h, rfl⟩
    refine .bind (ihf h) ?_
    rintro ⟨t, _⟩ ⟨u, q⟩ ⟨h, rfl⟩
    have hfirst : DisplacedWith (t.onPiece (·.firstAlternative p))
        (u.onPiece (·.firstAlternative p)) := h.onPiece fun G => G.firstAlternative_unplaced p
    dsimp only
    split
    · exact .pure (h.onPiece fun G => G.alternative_unplaced p q)
    · rw [hfirst.2]
      exact .pure (hfirst.1.onPiece fun G => G.alternative_unplaced _ q)
  | group b _ ih =>
    refine .bind (ih h) ?_
    rintro ⟨t, _⟩ ⟨u, p⟩ ⟨h, rfl⟩
    exact .pure (displaced_wrap h p b)

/-! ### Tokens and pragmas -/

theorem TokenAtom.matches_build {t u : Table} (h : t.Displaced u) {a b : TokenAtom}
    (hab : a.Related Token.Displaced b) :
    Matches DisplacedWith (TokenAtom.build t a) (TokenAtom.build u b) := by
  cases hab with
  | @className x y hx =>
    simp only [build, hx.text, h.classByName?]
    split
    · exact .pure (h.addNode ..)
    · refine .bind_eq (matches_faultAt ..) fun _ => ?_
      have hclass := h.addClass x.text .empty
      rw [hclass.2]
      exact .pure (hclass.1.addNode ..)
  | @literal x y hx =>
    simp only [build, hx.spelling, addLiteralChars]
    refine .bind_eq (matches_unescapeAt ..) fun cs => ?_
    have hchars : DisplacedWith (t.onPiece (·.chars x.line cs)) (u.onPiece (·.chars y.line cs)) :=
      h.onPiece_of (k := fun g => g.chars 0 cs) (fun G => G.chars_unplaced x.line cs)
        fun G => G.chars_unplaced y.line cs
    exact .ite (.bind_eq ⟨rfl, rfl⟩ fun _ => .pure hchars) (.pure hchars)

/-- What a structure's one literal is depends on the words in it only. -/
theorem TokenDecl.rel_literal? {e e' : Expr TokenAtom}
    (he : e.Related (TokenAtom.Related Token.Displaced) e') :
    Option.Rel Token.Displaced e.literal? e'.literal? := by
  induction he with
  | atom ha =>
    cases ha with
    | className => exact .none
    | literal hx => exact .some hx
  | group b _ ih =>
    cases b with
    | round => exact ih
    | _ => exact .none
  | _ => exact .none

namespace TokenDecl

variable {t u : Table} {x y : Token} (h : t.Displaced u) (kind : SymbolKind) (s : SymbolId)
include h

theorem matches_declareName (hx : x.Displaced y) :
    Matches DisplacedWith (declareName kind t x) (declareName kind u y) := by
  unfold declareName
  rw [hx.text, h.find?]
  split
  · exact .bind_eq (matches_faultAt ..) fun _ => .pure ⟨h, rfl⟩
  · exact h.declare ..

/-- How a token is recognized has nothing to do with places. -/
theorem displaced_tokenKind (k : TokenKind) :
    Displaced (t.modifySymbol s fun s => { s with tokenKind := k })
      (u.modifySymbol s fun s => { s with tokenKind := k }) :=
  h.modifySymbol s (fun s => { s with tokenKind := k }) (fun _ => rfl) fun _ => rfl

theorem matches_setBody (hx : x.Displaced y) {e e' : Expr TokenAtom}
    (he : e.Related (TokenAtom.Related Token.Displaced) e') :
    Matches Table.Displaced (setBody t s x e) (setBody u s y e') := by
  have hliteral := rel_literal? he
  refine .bind (Expr.matches_build he TokenAtom.matches_build h) ?_
  rintro ⟨t, _⟩ ⟨u, p⟩ ⟨h, rfl⟩
  have hfinish : Displaced (t.onGraph (·.finish p)) (u.onGraph (·.finish p)) :=
    h.onGraph fun G => G.unplaced_finish p
  simp only [hx.kind]
  generalize t.onGraph (·.finish p) = t at hfinish
  generalize u.onGraph (·.finish p) = u at hfinish
  generalize e.literal? = o at hliteral
  generalize e'.literal? = o' at hliteral
  cases hliteral with
  | none => exact .when (matches_faultAt ..) (.pure (displaced_tokenKind hfinish s .classes))
  | some hl =>
    simp only [hl.spelling, hfinish.literal?]
    exact .when (matches_faultAt ..) (.when (matches_faultAt ..) (.pure (hfinish.addLiteral ..)))

theorem matches_setAction (x y : Token) :
    Matches Table.Displaced (setAction kind t s x) (setAction kind u s y) := by
  refine .when (matches_faultAt ..) (.pure ?_)
  exact h.modifySymbol s (fun s => { s with action := some default }) (fun _ => rfl) fun _ => rfl

theorem matches_declare {d d' : TokenDecl} (hd : d.Related Token.Displaced d') :
    Matches Table.Displaced (d.declare kind t) (d'.declare kind u) := by
  have hname := hd.name.kind
  have hbody := hd.body
  have haction := hd.action
  unfold TokenDecl.declare
  refine .bind (matches_declareName h kind hd.name) ?_
  rintro ⟨t, _⟩ ⟨u, s⟩ ⟨h, rfl⟩
  simp only [hname]
  generalize d.action = o at haction
  generalize d'.action = o' at haction
  generalize d.body = b at hbody
  generalize d'.body = b' at hbody
  cases hbody with
  | none =>
    have hliteral : Displaced
        (if d.name.kind = .string then
          t.modifySymbol s fun s => { s with tokenKind := .literal } else t)
        (if d.name.kind = .string then
          u.modifySymbol s fun s => { s with tokenKind := .literal } else u) := by
      split
      · exact displaced_tokenKind h s .literal
      · exact h
    cases haction with
    | none => exact .pure hliteral
    | some _ => exact matches_setAction hliteral ..
  | some he =>
    have hset := matches_setBody h s hd.name he
    cases haction with
    | none => exact .bind hset fun _ _ h => .pure h
    | some _ => exact .bind hset fun _ _ h => matches_setAction h ..

end TokenDecl

/-! ### Productions -/

section

variable {t u : Table} {x y : Token} (h : t.Displaced u) (s : SymbolId) {o o' : Option Token}
  {k : Token.Kind}
include h

theorem matches_checkAttributes (x y : Token) (ho : Token.Optional Token.Displaced k o o') :
    Matches Eq (checkAttributes t s x o) (checkAttributes u s y o') := by
  unfold checkAttributes
  rw [h.attributes, ho.isSome]
  exact .ite (matches_faultAt ..) (.pure rfl)

theorem displaced_setAttributes (ho : Token.Optional Token.Displaced k o o') :
    Displaced (setAttributes t s o) (setAttributes u s o') := by
  refine h.modifySymbol s (fun s => { s with attributes := o.map fun _ => default }) (fun s => ?_)
    fun s => ?_
  · simp [Symbol.unplaced, Span.unplaced, Function.comp_def]
  · cases ho <;> rfl

namespace Atom

theorem resolve?_eq (hx : x.Displaced y) : resolve? u y = resolve? t x := by
  unfold resolve?
  simp only [hx.spelling, hx.kind, h.find?, h.literal?]

theorem matches_declareUse (hx : x.Displaced y) :
    Matches DisplacedWith (declareUse t x) (declareUse u y) := by
  unfold declareUse
  simp only [hx.spelling, hx.kind]
  refine .ite (h.declare ..) (.bind (h.declare ..) ?_)
  rintro ⟨t, _⟩ ⟨u, s⟩ ⟨h, rfl⟩
  exact .pure ⟨TokenDecl.displaced_tokenKind h s .literal, rfl⟩

omit h in
theorem matches_nodeKind (kind : SymbolKind) (weak : Bool) (x y : Token) :
    Matches Eq (nodeKind kind weak x s) (nodeKind kind weak y s) := by
  unfold nodeKind
  cases kind with
  | nonterminal => exact .when (matches_faultAt ..) (.pure rfl)
  | terminal => exact .pure rfl
  | pragma => exact .bind_eq (matches_faultAt ..) fun _ => .pure rfl

theorem displaced_spanned (k : NodeKind) (line line' : Nat) {p q : Option Span}
    (hpq : Span.unplaced q = Span.unplaced p) :
    DisplacedWith (spanned t k line p) (spanned u k line' q) := by
  obtain ⟨hnode, hpiece⟩ := h.addNode k line line'
  refine ⟨?_, hpiece⟩
  have hspan {t : Table} (i : NodeId) (p : Option Span) :
      (t.onGraph (·.setSpan i p)).unplaced = t.unplaced.onGraph (·.setSpan i (Span.unplaced p)) :=
    t.unplaced_onGraph (Graph.unplaced_setSpan ..)
  unfold spanned
  dsimp only
  rw [Displaced, hspan, hspan, hpq, hpiece, hnode]

theorem matches_buildSymbol (weak : Bool) (hx : x.Displaced y)
    (ho : Token.Optional Token.Displaced k o o') :
    Matches DisplacedWith (buildSymbol t weak x o) (buildSymbol u weak y o') := by
  unfold buildSymbol
  rw [resolve?_eq h hx]
  have hspans : Span.unplaced (o'.map Token.attributesSpan) =
      Span.unplaced (o.map Token.attributesSpan) := by
    cases ho <;> rfl
  cases resolve? t x with
  | some s =>
    refine .bind (R := DisplacedWith) (.pure ⟨h, rfl⟩) ?_
    rintro ⟨t, _⟩ ⟨u, s⟩ ⟨h, rfl⟩
    simp only [h.kind]
    refine .bind_eq (matches_nodeKind ..) fun k => ?_
    have hspanned := displaced_spanned h k x.line y.line hspans
    have hcheck := matches_checkAttributes hspanned.1 s x y ho
    cases ho with
    | none => exact .bind_eq hcheck fun _ => .pure hspanned
    | some _ =>
      rw [hx.kind]
      exact .when (matches_faultAt ..) (.bind_eq hcheck fun _ => .pure hspanned)
  | none =>
    refine .bind (matches_declareUse h hx) ?_
    rintro ⟨t, _⟩ ⟨u, s⟩ ⟨h, rfl⟩
    simp only [h.kind]
    refine .bind_eq (matches_nodeKind ..) fun k => ?_
    have hspanned := displaced_spanned h k x.line y.line hspans
    have hset := displaced_setAttributes hspanned.1 s ho
    cases ho with
    | none => exact .pure ⟨hset, hspanned.2⟩
    | some _ =>
      rw [hx.kind]
      exact .when (matches_faultAt ..) (.pure ⟨hset, hspanned.2⟩)

theorem matches_build {a b : Atom} (hab : a.Related Token.Displaced b) :
    Matches DisplacedWith (Atom.build t a) (Atom.build u b) := by
  cases hab with
  | symbol hx _ ho => exact matches_buildSymbol h _ hx ho
  | any hx =>
    have hwildcard : u.newWildcard = t.newWildcard := by
      rw [newWildcard, terminalCount, h.terminals, newWildcard, terminalCount]
    simp only [build, hwildcard]
    exact .pure (h.addNode ..)
  | sync hx => exact .pure (h.addNode ..)
  | action hx | resolver hx => exact .pure (displaced_spanned h _ _ _ rfl)

end Atom

end

namespace Production

variable {t u : Table} (h : t.Displaced u)
include h

/-- The name of a production, and whether it was there before. -/
theorem matches_declareName {x y : Token} (hx : x.Displaced y) :
    Matches (fun r s => DisplacedWith r.1 s.1 ∧ s.2 = r.2) (declareName t x) (declareName u y) := by
  unfold declareName
  rw [hx.text, h.find?]
  split
  · exact .bind (h.declare ..) fun _ _ h => .pure ⟨h, rfl⟩
  · rename_i s _
    have hline : Displaced (t.modifySymbol s fun s => { s with line := x.line })
        (u.modifySymbol s fun s => { s with line := y.line }) :=
      h.modifySymbol s id (fun _ => rfl) fun _ => rfl
    simp only [h.root, Symbol.isNonterminal, h.kind]
    exact .ite (.bind_eq (matches_faultAt ..) fun _ => .pure ⟨⟨hline, rfl⟩, rfl⟩)
      (.when (matches_faultAt ..) (.pure ⟨⟨hline, rfl⟩, rfl⟩))

theorem matches_declare {d d' : Production} (hd : d.Related Token.Displaced d') :
    Matches Table.Displaced (d.declare t) (d'.declare u) := by
  have hlocals := hd.locals
  unfold Production.declare
  refine .bind (matches_declareName h hd.name) ?_
  rintro ⟨⟨t, _⟩, _⟩ ⟨⟨u, s⟩, known⟩ ⟨⟨h, rfl⟩, rfl⟩
  dsimp only
  refine .when (matches_checkAttributes h s _ _ hd.attributes) ?_
  refine .bind (Expr.matches_build hd.body Atom.matches_build ?_) ?_
  · have hattributes := displaced_setAttributes h s hd.attributes
    generalize d.locals = l at hlocals
    generalize d'.locals = l' at hlocals
    cases hlocals with
    | none => exact hattributes
    | some _ =>
      exact hattributes.modifySymbol s (fun s => { s with action := some default }) (fun _ => rfl)
        fun _ => rfl
  · rintro ⟨t, _⟩ ⟨u, p⟩ ⟨h, rfl⟩
    refine .pure (Displaced.onGraph (f := (·.finish p)) ?_ fun G => G.unplaced_finish p)
    exact h.modifySymbol s (fun s => { s with root := some p.entry }) (fun _ => rfl) fun _ => rfl

end Production

/-! ### The whole grammar -/

theorem matches_setStart {t u : Table} (h : t.Displaced u) {x y v w : Token} (hx : x.Displaced y)
    (hv : v.Displaced w) : Matches Table.Displaced (setStart t x v) (setStart u y w) := by
  unfold setStart
  simp only [hx.text, hx.chars, hv.chars, h.find?]
  refine .when (matches_faultAt ..) ?_
  cases t.find? x.text with
  | none => exact .bind_eq (matches_faultAt ..) fun _ => .pure h
  | some s =>
    simp only [Symbol.isNonterminal, h.kind, h.attributes]
    exact .ite (.when (matches_faultAt ..) (.pure (h.setStart _)))
      (.bind_eq (matches_faultAt ..) fun _ => .pure h)

theorem Sections.matches_declare {s s' : Sections} (hs : s.Related Token.Displaced s') :
    Matches Table.Displaced s.declare s'.declare := by
  refine .bind (.foldlM hs.sets (fun _ _ _ _ h hd => SetDecl.matches_declare h hd) rfl)
    fun t u h => ?_
  refine .bind (.foldlM hs.tokens (fun _ _ _ _ h hd => TokenDecl.matches_declare h _ hd) h)
    fun t u h => ?_
  refine .bind (.foldlM hs.pragmas (fun _ _ _ _ h hd => TokenDecl.matches_declare h _ hd) h)
    fun t u h => ?_
  exact .foldlM hs.productions (fun _ _ _ _ h hd => Production.matches_declare h hd) h.clearGraph

theorem Table.matches_endProductions {t u : Table} (h : t.Displaced u) :
    Matches Table.Displaced t.endProductions u.endProductions := by
  have hadd := h.addSymbol invalidName .terminal 0 0
  unfold endProductions
  generalize t.addSymbol .terminal invalidName 0 = r at hadd
  generalize u.addSymbol .terminal invalidName 0 = r' at hadd
  obtain ⟨h, hid⟩ := hadd
  refine .bind_eq (matches_listing ..) fun _ => .bind_eq (matches_listing ..) fun _ => .pure ?_
  rw [hid]
  exact (h.setInvalid _).fillWildcards.numberPragmas

namespace Definition

/-- Displaced definitions have displaced tables and report the same. -/
theorem matches_table {d d' : Definition} (hd : d.Related Token.Displaced d') :
    Matches Table.Displaced d.table d'.table :=
  .bind (Sections.matches_declare hd.sections) fun _ _ h =>
    .bind (matches_setStart h hd.name hd.ending) fun _ _ h => matches_endProductions h

theorem configure_eq {d d' : Definition} (hd : d.Related Token.Displaced d') (cfg : Config) :
    d'.configure cfg = d.configure cfg := by
  have hdirectives := hd.sections.directives
  unfold configure
  generalize d.sections.directives = l at hdirectives
  generalize d'.sections.directives = l' at hdirectives
  induction hdirectives generalizing cfg with
  | nil => rfl
  | cons ht _ ih =>
    rw [List.foldl_cons, List.foldl_cons, ht.text]
    exact ih _

end Definition

/-- So do texts that stop at the same point. -/
theorem Fragment.matches_declare {t u : Table} (h : t.Displaced u) {f f' : Fragment}
    (hf : f.Related Token.Displaced f') : Matches Eq (f.declare t) (f'.declare u) := by
  cases hf with
  | nothing => exact .pure rfl
  | setStart hx _ hl =>
    exact .bind_eq (matches_checkClassName h hx) fun _ =>
      .bind_eq (matches_evalTerms h hl) fun _ => .pure rfl
  | set hd => exact .bind (SetDecl.matches_declare h hd) fun _ _ _ => .pure rfl
  | token hx _ he | pragma hx _ he =>
    exact .bind (TokenDecl.matches_declareName h _ hx) fun _ _ h =>
      .bind (Expr.matches_build he TokenAtom.matches_build h.1) fun _ _ _ => .pure rfl
  | production hp => exact .bind (Production.matches_declare h hp) fun _ _ _ => .pure rfl
  | ending hx _ hv => exact .bind (matches_setStart h hx hv) fun _ _ _ => .pure rfl

end Lookahead
