import Lookahead.Proofs.HaltingChecks
import Lookahead.Proofs.HaltingDeclarations

/-!
# The table of a definition comes out

Productions are declared in finitely many steps, and so is all of a definition
(`Definition.table?_eq`); what is left of a text that is no definition is reported likewise
(`Broken.declare?_eq`). Checked, that takes tokens as texts have them.
-/

namespace Lookahead

open Lookahead.Graph Table

variable {bounds : Bounds} {t : Table} {s : SymbolId} {name : Token}

/-! ### Attributes -/

section

variable {attributes : Option Token}

theorem attributesSpan?_eq (h : bounds = .checked → ∀ a ∈ attributes, 1 ≤ a.stop.byte) :
    attributesSpan? bounds attributes = some (attributes.map Token.attributesSpan) := by
  cases attributes with
  | none => rfl
  | some a =>
    rw [attributesSpan?, Token.attributesSpan?_eq fun hb => h hb a rfl]
    rfl

theorem checkAttributes?_eq (hs : s < t.symbols.size) (name : Token) :
    checkAttributes? bounds t s name attributes = (checkAttributes t s name attributes).run := by
  rw [checkAttributes?, symbol?_eq hs, Work.some_bind]

theorem setAttributes?_eq (hs : s < t.symbols.size)
    (h : bounds = .checked → ∀ a ∈ attributes, 1 ≤ a.stop.byte) :
    setAttributes? bounds t s attributes = some (setAttributes t s attributes) := by
  rw [setAttributes?, attributesSpan?_eq h]
  exact modifySymbol?_eq hs _

end

/-! ### Atoms -/

namespace Atom

theorem find?_eq (ht : t.Registered) (hn : bounds = .checked → name.kind = .char → name.Quoted) :
    find? bounds t name = some (resolve? t name) := by
  rw [find?, Token.spelling?_eq hn, some_bind]
  dsimp only
  rw [ht.byName?_eq, some_bind, resolve?]
  cases t.find? (String.ofList name.spelling) <;> rfl

theorem declareUse?_eq (t : Table)
    (hn : bounds = .checked → name.kind = .char → name.Quoted) :
    declareUse? bounds t name = (declareUse t name).run := by
  unfold declareUse? declareUse
  rw [Token.spelling?_eq hn, Work.some_bind]
  split
  · rfl
  · refine Noted.run_bind_of rfl ?_
    have hs := snd_declare_lt t .terminal (String.ofList name.spelling) name.line
    generalize (t.declare .terminal (String.ofList name.spelling) name.line).value = r at hs
    obtain ⟨u, s⟩ := r
    dsimp only at hs ⊢
    rw [modifySymbol?_eq hs, Work.some_bind]
    exact (Noted.run_pure _).symm

theorem spanned?_eq (t : Table) (k : NodeKind) (line : Nat) (span : Option Span) :
    spanned? bounds t k line span = some (spanned t k line span) := by
  have hlt : (t.addNode k line).2.entry < (t.addNode k line).1.graph.size := by
    simp [addNode, single]
  unfold spanned? spanned
  generalize t.addNode k line = r at hlt
  obtain ⟨u, p⟩ := r
  dsimp only at hlt ⊢
  rw [onGraph?_eq (k := (·.setSpan p.entry span)) (setSpan?_eq hlt span)]
  rfl

/-- The node of a symbol, which may have been `known` before. -/
theorem buildKnown?_eq (known : Bool) (hs : s < t.symbols.size) (weak : Bool) (name : Token)
    {attributes : Option Token} (ha : bounds = .checked → ∀ a ∈ attributes, 1 ≤ a.stop.byte) :
    (do
      let k ← (nodeKind (← t.symbol? bounds s).kind weak name s).run
      let (t, p) ← spanned? bounds t k name.line (← attributesSpan? bounds attributes)
      match attributes with
      | some a => if name.kind ≠ .ident then (faultAt a .literalAttributes).run
      | none => pure ()
      if known then
        checkAttributes? bounds t s name attributes
        return (t, p)
      else return (← setAttributes? bounds t s attributes, p) : Work (Table × Piece)) =
    (do
      let k ← nodeKind (t.symbol s).kind weak name s
      let (t, p) := spanned t k name.line (attributes.map Token.attributesSpan)
      match attributes with
      | some a => if name.kind ≠ .ident then faultAt a .literalAttributes
      | none => pure ()
      if known then
        checkAttributes t s name attributes
        return (t, p)
      else return (setAttributes t s attributes, p) : Noted (Table × Piece)).run := by
  rw [symbol?_eq hs, Work.some_bind]
  refine Noted.run_bind_of rfl ?_
  rw [attributesSpan?_eq ha, Work.some_bind, spanned?_eq, Work.some_bind]
  generalize hv : spanned t _ name.line (attributes.map Token.attributesSpan) = v
  have hsv : s < v.1.symbols.size := by
    rw [← hv]
    exact hs
  obtain ⟨v, p⟩ := v
  dsimp only at hsv ⊢
  have hlast : (if known then do
        checkAttributes? bounds v s name attributes
        return (v, p)
      else do return (← setAttributes? bounds v s attributes, p) : Work (Table × Piece)) =
      (if known then do
        checkAttributes v s name attributes
        return (v, p)
      else return (setAttributes v s attributes, p) : Noted (Table × Piece)).run := by
    split
    · exact Noted.run_bind_of (checkAttributes?_eq hsv name) (Noted.run_pure _).symm
    · rw [setAttributes?_eq hsv ha, Work.some_bind]
      exact (Noted.run_pure _).symm
  cases attributes with
  | none => exact hlast
  | some a =>
    dsimp only
    split
    · exact Noted.run_bind_of rfl hlast
    · exact hlast

theorem buildSymbol?_eq (ht : t.Registered) (weak : Bool)
    (hn : bounds = .checked → name.kind = .char → name.Quoted) {attributes : Option Token}
    (ha : bounds = .checked → ∀ a ∈ attributes, 1 ≤ a.stop.byte) :
    buildSymbol? bounds t weak name attributes = (buildSymbol t weak name attributes).run := by
  unfold buildSymbol? buildSymbol
  rw [find?_eq ht hn, Work.some_bind]
  cases hr : resolve? t name with
  | some s => exact buildKnown?_eq true (lt_of_resolve ht hr) weak name ha
  | none =>
    refine Noted.run_bind_of (declareUse?_eq t hn) ?_
    exact buildKnown?_eq false (continues_declareUse t name).2.1 weak name ha

theorem build?_eq (ht : t.Registered) {a : Atom} (ha : bounds = .checked → a.Sound) :
    a.build? bounds t = (a.build t).run := by
  cases a with
  | symbol weak name attributes =>
    exact buildSymbol?_eq ht weak (fun hb => (ha hb).1) fun hb => (ha hb).2
  | any a => exact (Noted.run_pure _).symm
  | sync a => exact (Noted.run_pure _).symm
  | action a =>
    rw [build?, Token.actionSpan?_eq ha, Work.some_bind]
    exact Noted.liftM_eq_run (spanned?_eq ..)
  | resolver a =>
    rw [build?, Token.conditionSpan?_eq ha, Work.some_bind]
    exact Noted.liftM_eq_run (spanned?_eq ..)

theorem sound_used (ht : t.Sound) (name : Token) : (used t name).1.Sound := by
  unfold used
  split
  · exact ht
  · unfold declareUse
    split
    · exact ht.declare ..
    · exact (ht.declare ..).modifySymbol _ fun _ => ⟨rfl, rfl⟩

theorem sound_build (ht : t.Sound) (a : Atom) : (a.build t).value.1.Sound := by
  cases a with
  | symbol weak name attributes =>
    rw [build, value_buildSymbol]
    have hu := (sound_used ht name).onGraph
    dsimp only
    split
    · exact hu _
    · exact (hu _).modifySymbol _ fun _ => ⟨rfl, rfl⟩
  | _ => exact ht.onGraph _

theorem makes_atoms : Expr.Makes (fun _ => True) (fun _ => True) Table.Sound Atom.build where
  groups := ⟨trivial, fun _ _ => trivial⟩
  context _ := Iff.rfl
  onGraph _ g ht := ht.onGraph g
  keeps _ a ht := sound_build ht a
  built _ a ht _ := ⟨_, (makes_build ht.registered a).built.mono fun _ _ => trivial⟩

end Atom

/-! ### Productions -/

namespace Production

theorem lt_declareName (ht : t.Registered) (name : Token) :
    (declareName t name).value.1.2 < (declareName t name).value.1.1.symbols.size := by
  unfold declareName
  split
  · exact snd_declare_lt ..
  · rename_i s hs
    simp only [Noted.value_bind, Noted.value_ite, Noted.value_pure, ite_self, size_modifySymbol]
    exact ht.lt_of_find hs

theorem declareName?_eq (ht : t.Registered) (name : Token) :
    declareName? bounds t name = (declareName t name).run := by
  rw [declareName?, ht.byName?_eq, Work.some_bind, declareName]
  cases hs : t.find? name.text with
  | none => exact Noted.run_bind_of rfl (Noted.run_pure _).symm
  | some s =>
    have hlt := ht.lt_of_find hs
    dsimp only
    rw [symbol?_eq hlt, Work.some_bind, modifySymbol?_eq hlt]
    have hlast : (do return ((← (some (t.modifySymbol s fun s => { s with line := name.line }) :
        Option Table), s), true) : Work ((Table × SymbolId) × Bool)) =
        (pure ((t.modifySymbol s fun s => { s with line := name.line }, s), true) :
          Noted ((Table × SymbolId) × Bool)).run := (Noted.run_pure _).symm
    split
    · exact Noted.run_bind_of rfl hlast
    · split
      · exact Noted.run_bind_of rfl hlast
      · exact hlast

theorem sound_declareName (ht : t.Sound) (name : Token) :
    (declareName t name).value.1.1.Sound := by
  unfold declareName
  split
  · exact ht.declare ..
  · simp only [Noted.value_bind, Noted.value_ite, Noted.value_pure, ite_self]
    exact ht.modifySymbol _ fun _ => ⟨rfl, rfl⟩

/-- The body of a production, under the symbol `s`. -/
theorem declareBody?_eq (ht : t.Sound) (hs : s < t.symbols.size) (e : Expr Atom)
    (he : bounds = .checked → e.All Atom.Sound) :
    (do
      let (t, p) ← e.build? bounds (Atom.build? bounds) t
      let t ← t.modifySymbol? bounds s fun s => { s with root := some p.entry }
      (t.onGraph? (·.finish? bounds p) : Option Table) : Work Table) =
    (do
      let (t, p) ← e.build Atom.build t
      let t := t.modifySymbol s fun s => { s with root := some p.entry }
      return t.onGraph (·.finish p) : Noted Table).run := by
  obtain ⟨-, x, hx, -⟩ := e.built_build Atom.makes_atoms ht fun _ _ => trivial
  have hgrow := (Expr.continues_build (fun t a ht => (Atom.makes_build ht a).continues) e
    ht.registered).grows
  refine Noted.run_bind_of
    (e.build?_eq Atom.makes_atoms (fun _ _ ht => Atom.build?_eq ht.registered) he ht) ?_
  dsimp only
  rw [modifySymbol?_eq (hs.trans_le hgrow.size_le), Work.some_bind]
  exact Noted.liftM_eq_run (onGraph?_eq (k := (·.finish _)) hx.piece.finish?_eq)

theorem declare?_eq (ht : t.Sound) {d : Production} (hd : bounds = .checked → d.Sound) :
    d.declare? bounds t = (d.declare t).run := by
  have hn := sound_declareName ht d.name
  have hlt := lt_declareName ht.registered d.name
  unfold declare? declare
  refine Noted.run_bind_of (declareName?_eq ht.registered d.name) ?_
  generalize (declareName t d.name).value = r at hn hlt
  obtain ⟨⟨u, s⟩, known⟩ := r
  dsimp only at hn hlt ⊢
  rw [setAttributes?_eq hlt fun hb => (hd hb).attributes, Work.some_bind]
  have hu : (setAttributes u s d.attributes).Sound := hn.modifySymbol s fun _ => ⟨rfl, rfl⟩
  have hsu : s < (setAttributes u s d.attributes).symbols.size := by
    simpa [setAttributes] using hlt
  generalize setAttributes u s d.attributes = v at hu hsu
  have hbody (w : Table) (hw : w.Sound) (hs : s < w.symbols.size) :=
    declareBody?_eq hw hs d.body fun hb => (hd hb).body
  have hlast : (do
      let t ← match d.locals with
        | some a => do
          let span ← a.actionSpan? bounds
          v.modifySymbol? bounds s fun s => { s with action := some span }
        | none => pure v
      let (t, p) ← d.body.build? bounds (Atom.build? bounds) t
      let t ← t.modifySymbol? bounds s fun s => { s with root := some p.entry }
      (t.onGraph? (·.finish? bounds p) : Option Table) : Work Table) =
    (do
      let t := match d.locals with
        | some a => v.modifySymbol s fun s => { s with action := some a.actionSpan }
        | none => v
      let (t, p) ← d.body.build Atom.build t
      let t := t.modifySymbol s fun s => { s with root := some p.entry }
      return t.onGraph (·.finish p) : Noted Table).run := by
    cases hl : d.locals with
    | none => exact hbody v hu hsu
    | some a =>
      dsimp only
      rw [Token.actionSpan?_eq fun hb => (hd hb).locals a hl, Work.some_bind,
        modifySymbol?_eq hsu, Work.some_bind]
      exact hbody _ (hu.modifySymbol s fun _ => ⟨rfl, rfl⟩) (by simpa using hsu)
  cases known with
  | true => exact Noted.run_bind_of (checkAttributes?_eq hlt d.name) hlast
  | false => exact hlast

theorem sound_declare (ht : t.Sound) (d : Production) : (d.declare t).value.Sound := by
  have hn := sound_declareName ht d.name
  unfold declare
  generalize hr : (declareName t d.name).value = r at hn
  obtain ⟨⟨u, s⟩, known⟩ := r
  simp only [Noted.value_bind, hr, Noted.value_ite, Noted.value_pure, ite_self]
  refine Table.Sound.onGraph ?_ _
  refine Table.Sound.modifySymbol ?_ s fun _ => ⟨rfl, rfl⟩
  refine (d.body.built_build Atom.makes_atoms ?_ fun _ _ => trivial).1
  have hu : (setAttributes u s d.attributes).Sound := hn.modifySymbol s fun _ => ⟨rfl, rfl⟩
  cases d.locals with
  | none => exact hu
  | some a => exact hu.modifySymbol s fun _ => ⟨rfl, rfl⟩

end Production

/-! ### Whole definitions -/

theorem setStart?_eq (ht : t.Registered) (name last : Token) :
    setStart? bounds t name last = (setStart t name last).run := by
  rw [setStart?, ht.byName?_eq, Work.some_bind, Table.symbols?_eq fun a ha => ?_, Work.some_bind]
  exact ht.lt_of_find (Option.mem_toList.mp ha)

theorem Sections.declare?_eq {s : Sections} (hs : bounds = .checked → s.Sound) :
    s.declare? bounds = s.declare.run ∧ s.declare.value.Sound := by
  obtain ⟨hsets, hsound⟩ := Noted.run_foldlM (P := Table.Sound) (l := s.sets)
    (g := fun t d => d.declare? bounds t)
    (fun t ht d hd => ⟨SetDecl.declare?_eq ht fun hb => (hs hb).sets d hd,
      d.sound_declare ht⟩) sound_empty
  obtain ⟨htokens, hsound⟩ := Noted.run_foldlM (P := Table.Sound) (l := s.tokens)
    (g := fun t d => d.declare? bounds .terminal t)
    (fun t ht d hd => ⟨TokenDecl.declare?_eq ht .terminal
      fun hb => (hs hb).tokens d hd, d.sound_declare ht .terminal⟩) hsound
  obtain ⟨hpragmas, hsound⟩ := Noted.run_foldlM (P := Table.Sound) (l := s.pragmas)
    (g := fun t d => d.declare? bounds .pragma t)
    (fun t ht d hd => ⟨TokenDecl.declare?_eq ht .pragma
      fun hb => (hs hb).pragmas d hd, d.sound_declare ht .pragma⟩) hsound
  obtain ⟨hproductions, hsound⟩ := Noted.run_foldlM (P := Table.Sound) (l := s.productions)
    (g := fun t d => d.declare? bounds t)
    (fun t ht d hd => ⟨Production.declare?_eq ht
      fun hb => (hs hb).productions d hd, d.sound_declare ht⟩) (hsound.onGraph {})
  refine ⟨?_, hsound⟩
  exact Noted.run_bind_of hsets (Noted.run_bind_of htokens (Noted.run_bind_of hpragmas hproductions))

namespace Table

theorem Registered.fillWildcards?_eq (ht : t.Registered) :
    t.fillWildcards? bounds = some t.fillWildcards := by
  rw [fillWildcards?, ht.symbol?_eof, some_bind, IndexSet.erase?_eq fun _ => ?_]
  · rfl
  · rw [IndexSet.full, IndexSet.replicate, IndexSet.size, Array.size_replicate]
    exact ht.index_eof_lt_count

theorem Registered.numberPragmas?_eq (ht : t.Registered) :
    t.numberPragmas? bounds = some t.numberPragmas := by
  refine (foldlM_eq_some (P := fun u => u.symbols.size = t.symbols.size) (fun u hu p hp => ?_)
    rfl).1
  have hlt := ht.lt (k := .pragma) (Array.mem_toList_iff.mp (List.fst_mem_of_mem_zipIdx hp))
  exact ⟨modifySymbol?_eq (hu ▸ hlt) _, by simpa using hu⟩

theorem Grown.endProductions?_eq (ht : t.Grown) :
    t.endProductions? bounds = t.endProductions.run := by
  have hinvalid : Registered
      { (t.addSymbol .terminal invalidName 0).1 with invalid := some t.symbols.size } :=
    ht.registered.addSymbol.of_same ⟨rfl, rfl, rfl, rfl, rfl⟩
  have hfill : Registered (fillWildcards
      { (t.addSymbol .terminal invalidName 0).1 with invalid := some t.symbols.size }) :=
    hinvalid.of_same ⟨rfl, rfl, rfl, rfl, rfl⟩
  have hlook : (numberPragmas (fillWildcards
      { (t.addSymbol .terminal invalidName 0).1 with invalid := some t.symbols.size })).lookUps?
        bounds = some () :=
    (formed_endProductions ht).1.lookUps?_eq
  unfold endProductions? endProductions
  dsimp only [addSymbol] at hinvalid hfill hlook ⊢
  rw [hinvalid.fillWildcards?_eq, Work.some_bind, hfill.numberPragmas?_eq, Work.some_bind, hlook,
    Work.some_bind]
  exact Noted.run_bind_of rfl (Noted.run_bind_of rfl (Noted.run_pure _).symm)

end Table

/-- The table of every definition comes out. -/
theorem Definition.table?_eq {d : Definition} (hd : bounds = .checked → d.sections.Sound) :
    d.table? bounds = d.table.run := by
  refine Noted.run_bind_of (Sections.declare?_eq hd).1 ?_
  have h := Table.grown_sections d.sections
  refine Noted.run_bind_of (setStart?_eq h.registered d.name d.ending) ?_
  exact (Table.grown_setStart h d.name d.ending).endProductions?_eq

/-! ### Broken texts -/

/-- A token is reported on up to where its body breaks off. -/
theorem Fragment.declareToken?_eq (ht : t.Sound) (k : SymbolKind) (name : Token)
    {e : Expr TokenAtom} (he : bounds = .checked → e.All TokenAtom.Sound) :
    (do
      let (t, _) ← TokenDecl.declareName? bounds k t name
      let _ ← e.build? bounds (TokenAtom.build? bounds) t : Work Unit) =
    (do
      let (t, _) ← TokenDecl.declareName k t name
      let _ ← e.build TokenAtom.build t : Noted Unit).run := by
  refine Noted.run_bind_of (TokenDecl.declareName?_eq ht k name) ?_
  refine Noted.run_bind_of (TokenAtom.buildExpr?_eq he ?_) (Noted.run_pure _).symm
  exact TokenDecl.sound_declareName ht k name

theorem Fragment.declare?_eq (ht : t.Sound) {f : Fragment} (hf : bounds = .checked → f.Sound) :
    f.declare? bounds t = (f.declare t).run := by
  cases f with
  | nothing => exact (Noted.run_pure _).symm
  | setStart name terms =>
    exact Noted.run_bind_of rfl (Noted.run_bind_of (evalTerms?_eq ht hf).1 (Noted.run_pure _).symm)
  | set d => exact Noted.run_bind_of (d.declare?_eq ht hf) (Noted.run_pure _).symm
  | token name e => exact declareToken?_eq ht .terminal name hf
  | pragma name e => exact declareToken?_eq ht .pragma name hf
  | production p => exact Noted.run_bind_of (p.declare?_eq ht hf) (Noted.run_pure _).symm
  | ending name last =>
    exact Noted.run_bind_of (setStart?_eq ht.registered name last) (Noted.run_pure _).symm

/-- So do the reports on a text that is no definition. -/
theorem Broken.declare?_eq {b : Broken}
    (hb : bounds = .checked → b.sections.Sound ∧ b.last.Sound) :
    b.declare? bounds = (do b.last.declare (← b.sections.declare) : Noted Unit).run := by
  obtain ⟨hs, ht⟩ := Sections.declare?_eq fun h => (hb h).1
  exact Noted.run_bind_of hs (Fragment.declare?_eq ht fun h => (hb h).2)

end Lookahead
