import Lookahead.Proofs.Brackets
import Lookahead.Proofs.FixedTokens
import Lookahead.Proofs.Located

/-!
# Positions in the text

Attributes, actions and the conditions of resolvers are not kept as such but as positions in the
text. A position is that of the text inside one token (`Token.Delimits`), without the delimiters,
which differ in width. The nodes that productions add have the positions in their right-hand sides,
in the order of the text and each of them once (`Production.positions_declare`), and the positions
that belong to symbols come from tokens as well (`Definition.anchored_table`). So the kind of a node
tells which delimiters stand around its position, and no two nodes have the same position
(`Grammar.delimited_of_parse`).
-/

namespace Lookahead

open Table

/-- The kind of the token that the position belongs to, as far as there is one, and the position. -/
abbrev Position := Option Token.Kind × Span

/-! ### Tokens -/

namespace Token

variable {source text cs opening inner closing : List Char} {t u : Token} {ts : List Token}
  {k : Kind} {n : Nat} {p : Position}

/-- The position that is kept of the token, if any. -/
def position? (t : Token) : Option Position :=
  match t.kind with
  | .attributes => some (some .attributes, t.attributesSpan)
  | .action => some (some .action, t.actionSpan)
  | .resolver => some (some .resolver, t.conditionSpan)
  | _ => none

/-- The delimiters around the inner text of a token of the kind. Brackets close attributes and
conditions where as many have been closed as opened, and actions end with the first mark that
does. -/
inductive Encloses : Kind → (opening inner closing : List Char) → Prop
  | attributes {inner : List Char} (h : ClosesAtEnd '<' '>' (['<'] ++ inner ++ ['>'])) :
      Encloses .attributes ['<'] inner ['>']
  | action {inner : List Char} (h : ∀ us, us ++ ['.', ')'] <+: inner ++ ['.', ')'] → us = inner) :
      Encloses .action ['(', '.'] inner ['.', ')']
  | resolver {blanks inner : List Char} (hb : ∀ c ∈ blanks, isBlank c = true)
      (h : ClosesAtEnd '(' ')' ('I' :: 'F' :: blanks ++ ['('] ++ inner ++ [')'])) :
      Encloses .resolver ('I' :: 'F' :: blanks ++ ['(']) inner [')']

/-- A text that ends with a bracket has it behind an opening that ends with something else. -/
theorem exists_inner {c : Char} {body : List Char} (hopen : opening.getLast? ≠ some c)
    (h : opening ++ body = text ++ [c]) : ∃ inner, body = inner ++ [c] := by
  rcases List.eq_nil_or_concat body with rfl | ⟨inner, d, rfl⟩
  · rw [List.append_nil] at h
    simp [h] at hopen
  · rw [List.concat_eq_append, ← List.append_assoc] at h
    obtain ⟨-, hd⟩ := List.append_inj' h rfl
    exact ⟨inner, by rw [List.concat_eq_append, hd]⟩

/-- A token of which a position is kept has delimiters. -/
theorem exists_encloses (h : scan cs = .ok (some k, n))
    (hk : k = .attributes ∨ k = .action ∨ k = .resolver) : ∃ opening inner closing,
      cs.take n = opening ++ inner ++ closing ∧ Encloses k opening inner closing := by
  rcases hk with rfl | rfl | rfl
  · obtain ⟨⟨body, hbody⟩, hc⟩ := closesAtEnd_of_attributes h
    have ⟨_, hend, _⟩ := hc
    have hopen : ['<'].getLast? ≠ some '>' := by decide
    obtain ⟨inner, rfl⟩ := exists_inner hopen (hbody.symm.trans hend)
    rw [hbody] at hc ⊢
    exact ⟨['<'], inner, ['>'], rfl, .attributes hc⟩
  · obtain ⟨inner, htake, hfirst⟩ := closesAtEnd_of_action h
    exact ⟨['(', '.'], inner, ['.', ')'], htake, .action hfirst⟩
  · obtain ⟨⟨blanks, body, hblanks, hbody⟩, hc⟩ := closesAtEnd_of_resolver h
    rw [show 'I' :: 'F' :: (blanks ++ '(' :: body) = 'I' :: 'F' :: blanks ++ ['('] ++ body by
      simp] at hbody
    have ⟨_, hend, _⟩ := hc
    obtain ⟨inner, rfl⟩ := exists_inner
      (by rw [List.getLast?_concat]; decide) (hbody.symm.trans hend)
    rw [hbody, ← List.append_assoc] at hc
    rw [hbody]
    exact ⟨_, inner, [')'], by simp, .resolver hblanks hc⟩

theorem byteLength_blanks {blanks : List Char} (hb : ∀ c ∈ blanks, isBlank c = true) :
    Text.byteLength blanks = blanks.length := by
  induction blanks with
  | nil => rfl
  | cons c blanks ih =>
    obtain ⟨hc, hb⟩ := List.forall_mem_cons.mp hb
    have hsize : c.utf8Size = 1 := by
      simp only [isBlank, Bool.or_eq_true, beq_iff_eq] at hc
      rcases hc with ((rfl | rfl) | rfl) | rfl <;> rfl
    rw [Text.byteLength_cons, ih hb, hsize, List.length_cons, Nat.add_comm]

theorem Encloses.closing_pos (h : Encloses k opening inner closing) :
    0 < Text.byteLength closing := by
  cases h <;> decide

/-- The position leaves out just the delimiters. -/
theorem Encloses.position?_eq (h : Encloses t.kind opening inner closing)
    (ht : t.chars = opening ++ inner ++ closing) : t.position? =
      some (some t.kind, t.spanInside (Text.byteLength opening) (Text.byteLength closing)) := by
  unfold position?
  generalize t.kind = k at h
  cases h with
  | attributes => rfl
  | action => rfl
  | @resolver blanks _ hb =>
    have htake : t.chars.takeWhile (· ≠ '(') = 'I' :: 'F' :: blanks := by
      have hblank : ∀ c ∈ 'I' :: 'F' :: blanks, decide (c ≠ '(') = true := by
        intro c hc
        refine decide_eq_true ?_
        rintro rfl
        have := hb '(' (by simpa using hc)
        exact absurd this (by decide)
      rw [ht, List.append_assoc, List.append_assoc, List.takeWhile_append_of_pos hblank]
      simp
    have hlength : Text.byteLength ('I' :: 'F' :: blanks ++ ['(']) = blanks.length + 3 := by
      rw [Text.byteLength_append, Text.byteLength_cons, Text.byteLength_cons, byteLength_blanks hb]
      change 1 + (1 + blanks.length) + 1 = blanks.length + 3
      omega
    simp only [conditionSpan, htake, hlength]
    rfl

/-- Each token is a piece of the text, which starts where the token does. -/
theorem Cut.split (h : Cut n text ts) : ∀ t ∈ ts, ∃ before behind,
    text = before ++ t.chars ++ behind ∧ t.start.byte = n + Text.byteLength before := by
  induction h with
  | layout => exact nofun
  | @token n gap rest t ts _ hstart hstop _ _ ih =>
    refine List.forall_mem_cons.mpr ⟨⟨gap, rest, rfl, hstart⟩, fun u hu => ?_⟩
    obtain ⟨before, behind, rfl, hu⟩ := ih u hu
    refine ⟨gap ++ t.chars ++ before, behind, by simp, ?_⟩
    simp only [Text.byteLength_append]
    omega

/-- The position is that of the text inside the token, between its delimiters. -/
structure Delimits (source : List Char) (t : Token) (p : Span) : Prop where
  le : p.beg ≤ p.stop
  le_length : p.stop ≤ Text.byteLength source
  whole : Text.slice? source t.start.byte t.stop.byte = some t.chars
  inner : ∃ opening inner closing, t.chars = opening ++ inner ++ closing ∧
    Encloses t.kind opening inner closing ∧ Text.slice? source p.beg p.stop = some inner ∧
    p.beg = t.start.byte + Text.byteLength opening ∧
    t.stop.byte = p.stop + Text.byteLength closing
  place : p.line = t.line ∧ p.col = t.location.col

theorem kind_of_position? (h : t.position? = some p) : p.1 = some t.kind ∧
    (t.kind = .attributes ∨ t.kind = .action ∨ t.kind = .resolver) := by
  unfold position? at h
  split at h <;> cases h <;> simp [*]

/-- Between the delimiters of a token of the text is its inner text. -/
theorem Cut.delimits_spanInside (h : Cut 0 source ts) (ht : t ∈ ts)
    (hchars : t.chars = opening ++ inner ++ closing)
    (henc : Encloses t.kind opening inner closing) :
    t.Delimits source (t.spanInside (Text.byteLength opening) (Text.byteLength closing)) := by
  obtain ⟨before, behind, rfl, hstart⟩ := h.split t ht
  have hstop := h.stop_byte t ht
  have hlength : Text.byteLength t.chars =
      Text.byteLength opening + Text.byteLength inner + Text.byteLength closing := by
    rw [hchars, Text.byteLength_append, Text.byteLength_append]
  have hwhole := slice?_of_append before t.chars behind (by omega) hstop
  refine ⟨?_, ?_, hwhole, ⟨opening, inner, closing, hchars, henc, ?_, rfl, ?_⟩, rfl, rfl⟩ <;>
    simp only [spanInside]
  · omega
  · simp only [Text.byteLength_append]
    omega
  · rw [show before ++ t.chars ++ behind =
      before ++ opening ++ inner ++ (closing ++ behind) by simp [hchars]]
    refine slice?_of_append _ _ _ ?_ (by omega)
    rw [Text.byteLength_append]
    omega
  · omega

/-- What is kept of a token in the text is the position of its inner text. -/
theorem Cut.delimits (h : Cut 0 source ts) (ht : t ∈ ts)
    (hscan : ∃ cs n, scan cs = .ok (some t.kind, n) ∧ t.chars = cs.take n)
    (hp : t.position? = some p) : t.Delimits source p.2 := by
  obtain ⟨cs, n, hscan, hchars⟩ := hscan
  obtain ⟨opening, inner, closing, htake, henc⟩ :=
    exists_encloses hscan (kind_of_position? hp).2
  rw [← hchars] at htake
  obtain rfl := Option.some.inj (hp.symm.trans (henc.position?_eq htake))
  exact h.delimits_spanInside ht htake henc

/-- Tokens further on have positions further on. -/
theorem Cut.beg_lt (h : Cut 0 source ts)
    (hscan : ∀ t ∈ ts, ∃ cs n, scan cs = .ok (some t.kind, n) ∧ t.chars = cs.take n) :
    (ts.filterMap position?).Pairwise fun p q => p.2.beg < q.2.beg := by
  refine List.pairwise_filterMap.mpr (h.increasing.imp_of_mem fun ht hu hle p hp q hq => ?_)
  obtain ⟨hple, -, -, ⟨_, _, closing, -, hclose, -, -, hstop⟩, -⟩ := h.delimits ht (hscan _ ht) hp
  obtain ⟨-, -, -, ⟨_, _, _, -, -, -, hbeg, -⟩, -⟩ := h.delimits hu (hscan _ hu) hq
  have hpos := hclose.closing_pos
  omega

end Token

/-! ### Right-hand sides -/

namespace Atom

/-- The position that the node of the atom has. -/
def positions : Atom → List Position
  | symbol _ _ attributes => (attributes.map fun t => (some .attributes, t.attributesSpan)).toList
  | any _ | sync _ => []
  | action t => [(some .action, t.actionSpan)]
  | resolver t => [(some .resolver, t.conditionSpan)]

end Atom

/-- The positions in the expression from left to right. -/
def Expr.positions (e : Expr Atom) : List Position := e.atoms.flatMap Atom.positions

theorem Expr.positions_seq (e f : Expr Atom) : (seq e f).positions = e.positions ++ f.positions :=
  List.flatMap_append

theorem Expr.positions_alt (e f : Expr Atom) : (alt e f).positions = e.positions ++ f.positions :=
  List.flatMap_append

section

variable {l : Level} {e : Expr Atom} {ts : List Token} {t : Token} {k : Token.Kind}

open Token

theorem Token.position?_eq_none (h : t.kind ≠ .attributes ∧ t.kind ≠ .action ∧ t.kind ≠ .resolver) :
    t.position? = none := by
  unfold position?
  split <;> simp_all

/-- The positions in an expression are those of the tokens that write it. -/
theorem Writes.positions (h : Writes l e ts) : ts.filterMap position? = e.positions := by
  induction h with
  | @symbol weak attributes name hw hn ha =>
    have hweak : weak.toList.filterMap position? = [] :=
      List.filterMap_eq_nil_iff.mpr fun t ht =>
        position?_eq_none (by simp [hw t (Option.mem_toList.mp ht)])
    have hname : name.position? = none :=
      position?_eq_none (by rcases hn with hn | hn | hn <;> simp [hn])
    rw [List.filterMap_append, hweak, List.nil_append, List.filterMap_cons_none hname]
    cases attributes with
    | none => rfl
    | some t => simp [position?, ha t rfl, Expr.positions, Expr.atoms, Atom.positions]
  | any ht | sync ht | action ht =>
    simp [position?, ht, Expr.positions, Expr.atoms, Atom.positions]
  | @group b e ts opening closing ho hc _ ih =>
    have hopen : opening.position? = none := by
      refine position?_eq_none ⟨?_, ?_, ?_⟩ <;> intro hk <;> rw [hk] at ho <;> cases ho
    have hclose : closing.position? = none :=
      position?_eq_none (by cases b <;> simp [hc, Bracket.closing])
    rw [List.filterMap_cons_none hopen, List.filterMap_append, ih,
      List.filterMap_cons_none hclose, List.filterMap_nil, List.append_nil]
    rfl
  | empty => rfl
  | factor _ ih | term _ ih => exact ih
  | @resolved t e ts ht _ ih =>
    have hp : t.position? = some (some .resolver, t.conditionSpan) := by simp [position?, ht]
    rw [List.filterMap_cons_some hp, ih]
    rfl
  | seq _ _ _ ihe ihf =>
    rw [List.filterMap_append, ihe, ihf, Expr.positions_seq]
  | @alt e f ts us bar _ hb _ ihe ihf =>
    have hbar : bar.position? = none := position?_eq_none (by simp [hb])
    rw [List.filterMap_append, List.filterMap_cons_none hbar, ihe, ihf, Expr.positions_alt]

theorem Production.Written.positions {p : Production} (h : p.Written ts) :
    p.body.positions.Sublist (ts.filterMap position?) := by
  obtain ⟨-, -, -, -, hb, -⟩ := h
  rw [← hb.positions]
  refine .filterMap _ (.cons _ (.trans ?_ (List.sublist_append_right ..)))
  exact .trans (.cons _ (List.sublist_append_left ..)) (List.sublist_append_right ..)

/-- The positions in the right-hand sides of all productions, as they stand in the text. -/
theorem Definition.Written.positions {d : Definition} (h : d.Written ts) :
    (d.sections.productions.flatMap fun p => p.body.positions).Sublist
      (ts.filterMap position?) := by
  obtain ⟨front, start, parts, stop, rest, rfl, -, -, hparts⟩ := h
  have hflat : (d.sections.productions.flatMap fun p => p.body.positions).Sublist
      (parts.flatten.filterMap position?) := by
    generalize d.sections.productions = ps at hparts
    induction hparts with
    | nil => exact .slnil
    | cons hp _ ih =>
      rw [List.flatten_cons, List.filterMap_append]
      exact hp.positions.append ih
  refine hflat.trans (.filterMap _ ?_)
  exact ((List.sublist_append_left ..).cons start).trans (List.sublist_append_right ..)

end

/-! ### Nodes -/

/-- The kind of the tokens that nodes of the kind have positions of. -/
def NodeKind.tokenKind? : NodeKind → Option Token.Kind
  | terminal _ | pragma _ | nonterminal _ | weak _ => some .attributes
  | action => some .action
  | resolver => some .resolver
  | _ => none

theorem NodeKind.tokenKind?_bare (k : NodeKind) : k.bare.tokenKind? = k.tokenKind? := by
  cases k <;> rfl

theorem NodeKind.tokenKind?_inContext (k : NodeKind) : k.inContext.tokenKind? = k.tokenKind? := by
  cases k <;> rfl

/-- The position of the node, if it has one. -/
def Look.position? (l : Look) : Option Position := l.span.map (l.kind.tokenKind?, ·)

namespace Graph

variable {g h : Graph} {i j n : Nat} {l : Look}

/-- The positions of all nodes, in their order. -/
def positions (g : Graph) : List Position :=
  (List.range g.size).filterMap fun i => (g.look i).position?

theorem position?_look : (g.look i).position? = (g.node i).span.map ((g.kind i).tokenKind?, ·) := by
  rw [look, Look.position?, NodeKind.tokenKind?_bare]

theorem lt_of_span {p : Span} (hp : (g.node i).span = some p) : i < g.size := by
  by_contra hi
  rw [node_of_size_le (Nat.le_of_not_lt hi)] at hp
  cases hp

theorem mem_positions {p : Span} (hp : (g.node i).span = some p) :
    ((g.kind i).tokenKind?, p) ∈ g.positions :=
  List.mem_filterMap.mpr ⟨i, List.mem_range.mpr (lt_of_span hp), by rw [position?_look, hp]; rfl⟩

/-- Where the positions of nodes stand one behind the other, no two nodes have the same. -/
theorem eq_of_beg (hg : g.positions.Pairwise fun p q => p.2.beg < q.2.beg) {p q : Span}
    (hp : (g.node i).span = some p) (hq : (g.node j).span = some q) (h : p.beg = q.beg) :
    i = j := by
  have hlt {i j : Nat} {p q : Span} (hij : i < j) (hp : (g.node i).span = some p)
      (hq : (g.node j).span = some q) : p.beg < q.beg := by
    have hpair := List.pairwise_iff_getElem.mp (List.pairwise_filterMap.mp hg) i j
      (by simpa using lt_of_span hp) (by simpa using lt_of_span hq) hij
    simp only [List.getElem_range, position?_look, hp, hq] at hpair
    exact hpair _ rfl _ rfl
  rcases Nat.lt_trichotomy i j with hij | rfl | hij
  · exact absurd h (hlt hij hp hq).ne
  · rfl
  · exact absurd h (hlt hij hq hp).ne'

/-- The nodes have the positions that they had. -/
structure SamePositions (g h : Graph) : Prop where
  size : h.size = g.size
  position? : ∀ i, (h.look i).position? = (g.look i).position?

namespace SamePositions

theorem refl (g : Graph) : SamePositions g g := ⟨rfl, fun _ => rfl⟩

theorem trans {f : Graph} (h₁ : SamePositions f g) (h₂ : SamePositions g h) : SamePositions f h :=
  ⟨h₂.size.trans h₁.size, fun i => (h₂.position? i).trans (h₁.position? i)⟩

theorem of_look (hs : h.size = g.size) (hl : ∀ i, h.look i = g.look i) : SamePositions g h :=
  ⟨hs, fun i => by rw [hl]⟩

theorem positions (hh : SamePositions g h) : h.positions = g.positions := by
  simp only [Graph.positions, hh.size, hh.position?]

theorem setKind {k : NodeKind} (hk : k.tokenKind? = (g.kind i).tokenKind?) :
    SamePositions g (g.setKind i k) := by
  refine ⟨size_setKind .., fun j => ?_⟩
  rw [position?_look, position?_look, kind, node_setKind]
  split
  · rename_i hj
    obtain ⟨rfl, -⟩ := hj
    rw [hk]
  · rfl

theorem markContextFrom (fuel : Nat) (g : Graph) (p : Option NodeId) :
    SamePositions g (markContextFrom fuel g p) :=
  markContextFrom_preserves (P := SamePositions g)
    (fun _ _ hh => hh.trans (setKind (NodeKind.tokenKind?_inContext _))) fuel (.refl g) p

end SamePositions

/-- A new node comes with its own position. -/
theorem positions_add (hs : h.size = g.size + 1)
    (hl : ∀ i, h.look i = if i = g.size then l else g.look i) :
    h.positions = g.positions ++ l.position?.toList := by
  have hold : ((List.range g.size).filterMap fun i => (h.look i).position?) = g.positions :=
    List.filterMap_congr fun i hi => by rw [hl, if_neg (List.mem_range.mp hi).ne]
  rw [positions, hs, List.range_succ, List.filterMap_append, hold, List.filterMap_cons,
    List.filterMap_nil, hl, if_pos rfl]
  cases l.position? <;> rfl

/-- Nodes made for other things than tokens come without one. -/
theorem positions_add_none {k : NodeKind} {line : Nat} (hs : h.size = g.size + 1)
    (hl : ∀ i, h.look i = if i = g.size then ⟨k, line, none⟩ else g.look i) :
    h.positions = g.positions := (positions_add hs hl).trans (List.append_nil _)

end Graph

/-! ### Building -/

namespace Atom

variable (t : Table) (k : NodeKind) (line : Nat)

theorem positions_addNode : (t.addNode k line).1.graph.positions = t.graph.positions :=
  Graph.positions_add_none (Graph.size_add ..) fun _ => Graph.look_add

/-- A single node comes with the position that it is given. -/
theorem positions_spanned (span : Option Span) : (spanned t k line span).1.graph.positions =
    t.graph.positions ++ (span.map (k.tokenKind?, ·)).toList := by
  have hlook (i : NodeId) : (spanned t k line span).1.graph.look i =
      if i = t.graph.size then ⟨k.bare, line, span⟩ else t.graph.look i := by
    split
    · rename_i hi
      rw [hi, look_spanned]
    · rename_i hi
      simp [spanned, Table.addNode, Table.onGraph, Graph.single, Graph.look, Graph.kind,
        Graph.setSpan, Graph.node_modify, Graph.node_add, hi, Ne.symm hi]
  rw [Graph.positions_add (by simp [spanned, Table.addNode, Table.onGraph, Graph.single,
    Graph.setSpan]) hlook, Look.position?, NodeKind.tokenKind?_bare]

theorem graph_used (name : Token) : (used t name).1.graph = t.graph := by
  unfold used
  split
  · rfl
  · exact (continues_declareUse t name).2.2

theorem tokenKind?_nodeKind (kind : SymbolKind) (weak : Bool) (name : Token) (s : SymbolId) :
    (nodeKind kind weak name s).value.tokenKind? = some .attributes := by
  cases kind <;> cases weak <;> rfl

/-- An atom becomes a node with the position of the atom. -/
theorem positions_build (a : Atom) :
    (a.build t).value.1.graph.positions = t.graph.positions ++ a.positions := by
  cases a with
  | symbol weak name attributes =>
    rw [build, value_buildSymbol]
    have hs := positions_spanned (used t name).1
      (nodeKind ((used t name).1.symbol (used t name).2).kind weak name (used t name).2).value
      name.line (attributes.map Token.attributesSpan)
    rw [graph_used, tokenKind?_nodeKind, Option.map_map] at hs
    dsimp only
    split <;> exact hs
  | any a | sync a => exact (positions_addNode ..).trans (List.append_nil _).symm
  | action a | resolver a => exact positions_spanned ..

end Atom

namespace Expr

/-- The nodes of an expression come with its positions. -/
theorem positions_build (e : Expr Atom) (t : Table) :
    (e.build Atom.build t).value.1.graph.positions = t.graph.positions ++ e.positions := by
  induction e generalizing t with
  | empty => exact (Atom.positions_addNode ..).trans (List.append_nil _).symm
  | atom a =>
    rw [build, Atom.positions_build]
    simp [positions, atoms]
  | seq e f ihe ihf =>
    rw [positions_seq, ← List.append_assoc, ← ihe, ← ihf]
    exact (Graph.SamePositions.of_look Graph.size_sequence
      fun _ => Graph.look_sequence).positions
  | alt e f ihe ihf =>
    rw [positions_alt, ← List.append_assoc, ← ihe, ← ihf]
    simp only [build, Noted.value_bind, Noted.value_pure]
    refine (Graph.positions_add_none Graph.size_alternative
      fun _ => Graph.look_alternative).trans ?_
    split
    · rfl
    · exact Graph.positions_add_none Graph.size_firstAlternative
        fun _ => Graph.look_firstAlternative
  | group b e ih =>
    rw [show (group b e).positions = e.positions from rfl, ← ih]
    cases b with
    | round => rfl
    | square => exact Graph.positions_add_none Graph.size_option fun _ => Graph.look_option
    | curly => exact Graph.positions_add_none Graph.size_iteration fun _ => Graph.look_iteration
    | context => exact (Graph.SamePositions.markContextFrom ..).positions

end Expr

namespace Production

/-- A production adds the positions in its right-hand side. -/
theorem positions_declare (t : Table) (p : Production) :
    (p.declare t).value.graph.positions = t.graph.positions ++ p.body.positions := by
  rw [value_declare, ← (continues_enter t p).2, ← Expr.positions_build]
  exact (Graph.SamePositions.of_look Graph.size_redirectExits fun _ => Graph.look_finish).positions

end Production

/-- The nodes of a definition have the positions of its productions. -/
theorem Definition.positions_table (d : Definition) : d.table.value.graph.positions =
    d.sections.productions.flatMap fun p => p.body.positions := by
  have hsame := (sameLooks_setStart d.sections.declare.value d.name d.ending).trans
    (sameLooks_endProductions _)
  refine (Graph.SamePositions.of_look hsame.size hsame.look).positions.trans ?_
  have hdeclare (l : List Production) (t : Table) :
      (l.foldlM Production.declare t).value.graph.positions =
        t.graph.positions ++ l.flatMap fun p => p.body.positions := by
    rw [Noted.value_foldlM]
    induction l generalizing t with
    | nil => simp
    | cons p l ih => rw [List.foldl_cons, ih, Production.positions_declare, List.flatMap_cons,
        List.append_assoc]
  exact (hdeclare d.sections.productions d.sections.front).trans (List.nil_append _)

/-! ### Symbols -/

section

variable {L : List Position} {t u : Table} {k : SymbolKind}

/-- The positions of the symbol are among those in the list. -/
structure Symbol.Anchored (L : List Position) (b : Symbol) : Prop where
  attributes : ∀ p ∈ b.attributes, (some .attributes, p) ∈ L
  action : ∀ p ∈ b.action, (some .action, p) ∈ L

namespace Table

/-- The positions of all symbols are among those in the list. -/
structure Anchored (L : List Position) (t : Table) : Prop where
  symbol : ∀ s, (t.symbol s).Anchored L

namespace Anchored

theorem of_symbols (ht : t.Anchored L) (hs : u.symbols = t.symbols) : u.Anchored L := by
  refine ⟨fun s => ?_⟩
  rw [Table.symbol, hs]
  exact ht.symbol s

theorem addSymbol (ht : t.Anchored L) (k : SymbolKind) (n : String) (line : Nat) :
    (t.addSymbol k n line).1.Anchored L := by
  obtain ⟨m, -, hsym⟩ := symbol_addSymbol t k n line
  refine ⟨fun s => ?_⟩
  rw [hsym]
  split
  · exact ⟨nofun, nofun⟩
  · exact ht.symbol s

theorem declare (ht : t.Anchored L) (k : SymbolKind) (n : String) (line : Nat) :
    (t.declare k n line).value.1.Anchored L := by
  unfold Table.declare
  split <;> exact ht.addSymbol ..

theorem modifySymbol (ht : t.Anchored L) (s : SymbolId) {f : Symbol → Symbol}
    (hf : ∀ b, b.Anchored L → (f b).Anchored L) : (t.modifySymbol s f).Anchored L := by
  refine ⟨fun r => ?_⟩
  rw [symbol_modifySymbol]
  split
  · exact hf _ (ht.symbol r)
  · exact ht.symbol r

/-- A change of symbols that leaves their positions alone. -/
theorem modifySymbol_of_eq (ht : t.Anchored L) (s : SymbolId) {f : Symbol → Symbol}
    (hf : ∀ b, (f b).attributes = b.attributes ∧ (f b).action = b.action) :
    (t.modifySymbol s f).Anchored L := by
  refine ht.modifySymbol s fun b hb => ⟨?_, ?_⟩
  · rw [(hf b).1]
    exact hb.attributes
  · rw [(hf b).2]
    exact hb.action

theorem setAttributes (ht : t.Anchored L) (s : SymbolId) {attributes : Option Token}
    (ha : ∀ a ∈ attributes, (some .attributes, a.attributesSpan) ∈ L) :
    (setAttributes t s attributes).Anchored L := by
  refine ht.modifySymbol s fun b hb => ⟨fun p hp => ?_, hb.action⟩
  obtain ⟨a, h, rfl⟩ := Option.map_eq_some_iff.mp hp
  exact ha a h

theorem setAction (ht : t.Anchored L) (s : SymbolId) {a : Token}
    (ha : (some .action, a.actionSpan) ∈ L) :
    (t.modifySymbol s fun b => { b with action := some a.actionSpan }).Anchored L := by
  refine ht.modifySymbol s fun b hb => ⟨hb.attributes, fun p hp => ?_⟩
  obtain rfl := Option.some.inj hp
  exact ha

end Anchored

end Table

namespace TokenDecl

theorem anchored_declareName (ht : t.Anchored L) (name : Token) :
    (declareName k t name).value.1.Anchored L := by
  unfold declareName
  split
  · exact ht
  · exact ht.declare ..

theorem anchored_setBody (ht : t.Anchored L) (s : SymbolId) (name : Token) (e : Expr TokenAtom) :
    (setBody t s name e).value.Anchored L := by
  have hbuild := ht.of_symbols (same_build t e).1
  simp only [setBody, Noted.value_bind, Noted.value_ite, ite_self]
  split
  · simp only [Noted.value_bind, Noted.value_ite, Noted.value_pure, ite_self]
    refine hbuild.of_symbols ?_
    unfold Table.addLiteral
    split <;> rfl
  · rw [Noted.value_pure]
    refine Anchored.modifySymbol_of_eq (hbuild.of_symbols ?_) s fun _ => ⟨rfl, rfl⟩
    rfl

section

variable {d : TokenDecl} (hd : ∀ a ∈ d.action, (some .action, a.actionSpan) ∈ L)
include hd

theorem anchored_action (ht : t.Anchored L) (s : SymbolId) : (match d.action with
      | some a => setAction k t s a
      | none => return t : Noted Table).value.Anchored L := by
  cases ha : d.action with
  | none => exact ht
  | some a =>
    simp only [setAction, Noted.value_bind, Noted.value_ite, Noted.value_pure, ite_self]
    exact ht.setAction s (hd a ha)

theorem anchored_declare (ht : t.Anchored L) : (d.declare k t).value.Anchored L := by
  have hname := anchored_declareName (k := k) ht d.name
  simp only [declare, Noted.value_bind]
  cases d.body with
  | some e => exact anchored_action hd (anchored_setBody hname _ _ e) _
  | none =>
    refine anchored_action hd ?_ _
    rw [Noted.value_pure]
    split
    · exact hname.modifySymbol_of_eq _ fun _ => ⟨rfl, rfl⟩
    · exact hname

end

end TokenDecl

namespace Atom

theorem anchored_used (ht : t.Anchored L) (name : Token) : (used t name).1.Anchored L := by
  unfold used
  split
  · exact ht
  · simp only [declareUse]
    split
    · exact ht.declare ..
    · exact (ht.declare ..).modifySymbol_of_eq _ fun _ => ⟨rfl, rfl⟩

theorem anchored_build (ht : t.Anchored L) (a : Atom) (ha : ∀ p ∈ a.positions, p ∈ L) :
    (a.build t).value.1.Anchored L := by
  cases a with
  | symbol weak name attributes =>
    rw [build, value_buildSymbol]
    have hs := (anchored_used ht name).of_symbols (u := (spanned (used t name).1
      (nodeKind ((used t name).1.symbol (used t name).2).kind weak name (used t name).2).value
      name.line (attributes.map Token.attributesSpan)).1) rfl
    dsimp only
    split
    · exact hs
    · refine hs.setAttributes _ fun a h => ha _ ?_
      rw [Option.mem_def.mp h]
      exact List.mem_singleton_self _
  | _ => exact ht.of_symbols rfl

end Atom

theorem Expr.all_of_positions {e : Expr Atom} (he : ∀ p ∈ e.positions, p ∈ L) :
    e.All fun a => ∀ p ∈ a.positions, p ∈ L := by
  induction e with
  | empty => trivial
  | atom a => exact fun p hp => he p (by simpa [positions, atoms] using hp)
  | seq e f ihe ihf =>
    rw [positions_seq, List.forall_mem_append] at he
    exact ⟨ihe he.1, ihf he.2⟩
  | alt e f ihe ihf =>
    rw [positions_alt, List.forall_mem_append] at he
    exact ⟨ihe he.1, ihf he.2⟩
  | group b e ih => exact ih he

namespace Production

/-- The positions that the production keeps are among those in the list. -/
structure Anchored (L : List Position) (p : Production) : Prop where
  attributes : ∀ a ∈ p.attributes, (some .attributes, a.attributesSpan) ∈ L
  locals : ∀ a ∈ p.locals, (some .action, a.actionSpan) ∈ L
  body : ∀ q ∈ p.body.positions, q ∈ L

theorem anchored_declare (ht : t.Anchored L) {p : Production} (hp : p.Anchored L) :
    (p.declare t).value.Anchored L := by
  have hname : (declareName t p.name).value.1.1.Anchored L := by
    unfold declareName
    split
    · exact ht.declare ..
    · simp only [Noted.value_bind, Noted.value_ite, Noted.value_pure, ite_self]
      exact ht.modifySymbol_of_eq _ fun _ => ⟨rfl, rfl⟩
  have henter : (enter t p).1.Anchored L := by
    have hset := hname.setAttributes (declareName t p.name).value.1.2 hp.attributes
    unfold enter
    dsimp only
    split
    · rename_i a hlocals
      exact hset.setAction _ (hp.locals a hlocals)
    · exact hset
  have hbody := Expr.kept_build (E := fun _ => True) (P := Table.Anchored L)
    (fun _ _ ht => ht.of_symbols rfl) (fun _ a ha ht _ => Atom.anchored_build ht a ha) p.body
    (Expr.all_of_positions hp.body) henter fun _ _ => trivial
  have hroot := hbody.modifySymbol_of_eq (enter t p).2 (f := fun s =>
    { s with root := some (p.body.build Atom.build (enter t p).1).value.2.entry })
    fun _ => ⟨rfl, rfl⟩
  rw [value_declare]
  exact hroot.of_symbols rfl

end Production

end

/-! ### Whole texts -/

theorem Token.Optional.mem_positions {ts : List Token} {k : Token.Kind} {o : Option Token}
    {f : Token → Position} (ho : Token.Optional (Token.Known (· ∈ ts)) k o o)
    (hf : ∀ t : Token, t.kind = k → t.position? = some (f t)) :
    ∀ t ∈ o, f t ∈ ts.filterMap Token.position? := by
  cases ho with
  | none => exact nofun
  | some h =>
    rintro t ⟨⟩
    exact List.mem_filterMap.mpr ⟨_, h.1.2, hf _ h.2⟩

namespace Definition

variable {L : List Position} {d : Definition} {source : String}

/-- All positions of symbols come with a declaration. -/
theorem anchored_of_sections (htokens : ∀ e ∈ d.sections.tokens ++ d.sections.pragmas,
      ∀ a ∈ e.action, (some .action, a.actionSpan) ∈ L)
    (hproductions : ∀ p ∈ d.sections.productions, p.Anchored L) : d.table.value.Anchored L := by
  obtain ⟨htokens, hpragmas⟩ := List.forall_mem_append.mp htokens
  have hfold {α : Type} {step : Table → α → Noted Table} {l : List α}
      (hstep : ∀ a ∈ l, ∀ t, Anchored L t → (step t a).value.Anchored L) {t : Table}
      (ht : t.Anchored L) : (l.foldlM step t).value.Anchored L := by
    rw [Noted.value_foldlM]
    exact List.foldlRecOn l (fun t a => (step t a).value) (motive := Anchored L) ht
      fun t ht a ha => hstep a ha t ht
  have hempty : Table.empty.Anchored L := by
    refine Anchored.addSymbol ⟨fun s => ?_⟩ _ _ _
    rw [symbol_of_size_le (Nat.zero_le s)]
    exact ⟨nofun, nofun⟩
  have hset (t : Table) (e : SetDecl) (ht : t.Anchored L) : (e.declare t).value.Anchored L := by
    simp only [SetDecl.declare, Noted.value_bind, Noted.value_ite, Noted.value_pure, ite_self]
    refine ht.of_symbols ?_
    unfold addClass
    split <;> rfl
  have hfront : d.sections.front.Anchored L :=
    (hfold (fun e he _ ht => TokenDecl.anchored_declare (hpragmas e he) ht)
      (hfold (fun e he _ ht => TokenDecl.anchored_declare (htokens e he) ht)
        (hfold (fun e _ t ht => hset t e ht) hempty))).of_symbols rfl
  have hdeclare : d.sections.declare.value.Anchored L :=
    hfold (fun p hp _ ht => p.anchored_declare ht (hproductions p hp)) hfront
  obtain ⟨s, hs⟩ := exists_setStart d.sections.declare.value d.name d.ending
  have hstart : (setStart d.sections.declare.value d.name d.ending).value.Anchored L := by
    rw [hs]
    exact hdeclare.of_symbols rfl
  have hnumber (l : List (SymbolId × Nat)) (n : Nat) {t : Table} (ht : t.Anchored L) :
      (l.foldl (fun u p => u.modifySymbol p.1 fun b => { b with index := n + p.2 }) t).Anchored L :=
    List.foldlRecOn l _ (motive := Anchored L) ht
      fun t ht p _ => ht.modifySymbol_of_eq p.1 fun _ => ⟨rfl, rfl⟩
  exact hnumber _ _ ((hstart.addSymbol .terminal invalidName 0).of_symbols rfl)

/-- The positions of symbols are those of tokens. -/
theorem anchored_table (hd : read source = .ok d) :
    d.table.value.Anchored ((Token.read source).tokens.filterMap Token.position?) := by
  have hrelated := (related_of_read (Token.alike_known (· ∈ (Token.read source).tokens))
    (fun t ht => ⟨rfl, ht⟩) hd).sections
  have haction (t : Token) (hk : t.kind = .action) :
      t.position? = some (some .action, t.actionSpan) := by simp [Token.position?, hk]
  have hattributes (t : Token) (hk : t.kind = .attributes) :
      t.position? = some (some .attributes, t.attributesSpan) := by simp [Token.position?, hk]
  refine anchored_of_sections (fun e he => ?_) fun p hp => ?_
  · rcases List.mem_append.mp he with he | he
    · exact (List.forall₂_same.mp hrelated.tokens e he).action.mem_positions haction
    · exact (List.forall₂_same.mp hrelated.pragmas e he).action.mem_positions haction
  · have hp' := List.forall₂_same.mp hrelated.productions p hp
    exact ⟨hp'.attributes.mem_positions hattributes, hp'.locals.mem_positions haction,
      fun q hq => (written_read hd).positions.subset (List.mem_flatMap.mpr ⟨p, hp, hq⟩)⟩

theorem cut_read (hd : read source = .ok d) :
    Token.Cut 0 source.toList (Token.read source).tokens := by
  have hlex : (Token.read source).rejected = none := by
    unfold read at hd
    dsimp only at hd
    split at hd
    · cases hd
    · assumption
  exact Token.cut_readFrom (Nat.lt_succ_self _) hlex

end Definition

namespace Grammar

variable {source : String} {cfg : Config} {log : Log} {g : Grammar}

/-- The positions of symbols and nodes are those of the text inside tokens. The kind of the token is
the one that belongs to the symbol or to the kind of node. What stands in right-hand sides has nodes
in the order of the text, and no two nodes have the same position. -/
theorem delimited_of_parse (hg : (Grammar.parse source cfg log).2 = .ok g) :
    ∃ d, Definition.read source = .ok d ∧
    g.table.graph.positions = (d.sections.productions.flatMap fun p => p.body.positions) ∧
    (∀ s p, (g.table.symbol s).attributes = some p → ∃ t ∈ (Token.read source).tokens,
      t.kind = .attributes ∧ t.Delimits source.toList p) ∧
    (∀ s p, (g.table.symbol s).action = some p → ∃ t ∈ (Token.read source).tokens,
      t.kind = .action ∧ t.Delimits source.toList p) ∧
    (∀ i p, (g.table.node i).span = some p → ∃ t ∈ (Token.read source).tokens,
      (g.table.graph.kind i).tokenKind? = some t.kind ∧ t.Delimits source.toList p) ∧
    ∀ i j p q, (g.table.node i).span = some p → (g.table.node j).span = some q →
      p.beg = q.beg → i = j := by
  obtain ⟨d, hd, rfl⟩ := exists_read hg
  have hcut := Definition.cut_read hd
  have hsymbols := Definition.anchored_table hd
  have hnodes : d.table.value.graph.positions.Sublist
      ((Token.read source).tokens.filterMap Token.position?) := by
    rw [d.positions_table]
    exact (Definition.written_read hd).positions
  have htoken (k : Option Token.Kind) (p : Span)
      (hp : (k, p) ∈ (Token.read source).tokens.filterMap Token.position?) :
      ∃ t ∈ (Token.read source).tokens, k = some t.kind ∧ t.Delimits source.toList p := by
    obtain ⟨t, ht, hp⟩ := List.mem_filterMap.mp hp
    exact ⟨t, ht, (Token.kind_of_position? hp).1,
      hcut.delimits ht (Token.exists_scan_of_readFrom ht) hp⟩
  refine ⟨d, hd, d.positions_table, fun s p hp => ?_, fun s p hp => ?_, fun i p hp => ?_,
    fun i j p q => ?_⟩
  · obtain ⟨t, ht, hk, hp⟩ := htoken _ _ ((hsymbols.symbol s).attributes p hp)
    exact ⟨t, ht, (Option.some.inj hk).symm, hp⟩
  · obtain ⟨t, ht, hk, hp⟩ := htoken _ _ ((hsymbols.symbol s).action p hp)
    exact ⟨t, ht, (Option.some.inj hk).symm, hp⟩
  · exact htoken _ _ (hnodes.subset (Graph.mem_positions hp))
  · exact Graph.eq_of_beg ((hcut.beg_lt fun _ => Token.exists_scan_of_readFrom).sublist hnodes)

/-- Attributes with brackets in them, a condition in brackets, an empty action, and positions of a
pragma and of nonterminals. -/
def annotated : String :=
  "COMPILER A\nPRAGMAS\np = \"#\". (.n++;.)\nPRODUCTIONS\n" ++
    "A (.int n;.) = IF (at(1)) B<List<n>> (..).\nB<List<int> é> = \"b\".\nEND A."

set_option maxRecDepth 100000 in
theorem parse_annotated : (∃ g, (Grammar.parse annotated default {}).2 = .ok g ∧
      decide ((g.table.node 2).span = some ⟨77, 84, 5, 28⟩)) ∧
    Text.slice? annotated.toList 77 84 = some "List<n>".toList :=
  ⟨exists_ok_of_any (by decide +kernel), by decide +kernel⟩

theorem delimited_annotated : ∃ (g : Grammar) (t : Token),
    (Grammar.parse annotated default {}).2 = .ok g ∧
    (g.table.node 2).span = some ⟨77, 84, 5, 28⟩ ∧
    (g.table.graph.kind 2).tokenKind? = some t.kind ∧
    t.Delimits annotated.toList ⟨77, 84, 5, 28⟩ ∧
    Text.slice? annotated.toList 77 84 = some "List<n>".toList := by
  obtain ⟨⟨g, hg, hspan⟩, hslice⟩ := parse_annotated
  obtain ⟨-, -, -, -, -, hnodes, -⟩ := delimited_of_parse hg
  obtain ⟨t, -, hk, hp⟩ := hnodes 2 _ (of_decide_eq_true hspan)
  exact ⟨g, t, hg, of_decide_eq_true hspan, hk, hp, hslice⟩

end Grammar

end Lookahead
