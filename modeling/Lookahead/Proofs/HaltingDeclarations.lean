import Lookahead.Proofs.Declarations
import Lookahead.Proofs.Drawing
import Lookahead.Proofs.HaltingGraphs
import Lookahead.Proofs.HaltingPasses

/-!
# Declaring comes to an end

The graph of every expression is built in finitely many steps, whatever its atoms are
(`Expr.build?_eq`), and everything that a declaration needs is there if its tokens are as texts have
them (`SetDecl.Sound`, `TokenDecl.Sound`, `Production.Sound`): quotes around literals, and spans that
do not stop before they have passed their delimiters. So the table of every definition comes out
(`Definition.table?_eq`), and so do the reports on what there is of one (`Broken.declare?_eq`).
-/

namespace Lookahead

open Lookahead.Graph

variable {bounds : Bounds}

/-! ### Tokens as texts have them -/

def SimpleSet.Sound : SimpleSet → Prop
  | string t | char t => t.Quoted
  | range lo hi => lo.Quoted ∧ hi.Quoted
  | _ => True

/-- No set is named as those are that get a name of their own. -/
structure SetDecl.Sound (d : SetDecl) : Prop where
  name : d.name.text ≠ "#"
  terms : ∀ s ∈ d.terms, s.set.Sound

def TokenAtom.Sound : TokenAtom → Prop
  | className n => n.text ≠ "#"
  | literal l => l.kind = .char → l.Quoted

structure TokenDecl.Sound (d : TokenDecl) : Prop where
  body : ∀ e ∈ d.body, e.All TokenAtom.Sound
  action : ∀ a ∈ d.action, 2 ≤ a.stop.byte

def Atom.Sound : Atom → Prop
  | symbol _ name attributes =>
    (name.kind = .char → name.Quoted) ∧ ∀ a ∈ attributes, 1 ≤ a.stop.byte
  | action a => 2 ≤ a.stop.byte
  | resolver a => 1 ≤ a.stop.byte
  | _ => True

structure Production.Sound (p : Production) : Prop where
  attributes : ∀ a ∈ p.attributes, 1 ≤ a.stop.byte
  locals : ∀ a ∈ p.locals, 2 ≤ a.stop.byte
  body : p.body.All Atom.Sound

structure Sections.Sound (s : Sections) : Prop where
  sets : ∀ d ∈ s.sets, d.Sound
  tokens : ∀ d ∈ s.tokens, d.Sound
  pragmas : ∀ d ∈ s.pragmas, d.Sound
  productions : ∀ d ∈ s.productions, d.Sound

def Fragment.Sound : Fragment → Prop
  | setStart _ terms => ∀ s ∈ terms, s.set.Sound
  | set d => d.Sound
  | token _ e | pragma _ e => e.All TokenAtom.Sound
  | production p => p.Sound
  | _ => True

/-! ### Tables -/

/-- The last step of some work, which comes to an end. -/
theorem Noted.liftM_eq_run {α : Type} {x : Option α} {a : α} (h : x = some a) :
    (liftM x : Work α) = (pure a : Noted α).run := by
  rw [h, run_pure]
  rfl

namespace Table

variable {t u : Table} {a : SymbolId}

theorem Registered.byName?_eq (ht : t.Registered) (name : String) :
    t.byName? bounds name = some (t.find? name) := by
  rw [byName?, Table.symbols?_eq fun a ha => ?_]
  · rfl
  · simp only [List.mem_append, Array.mem_toList_iff] at ha
    exact ha.elim (ht.lt (k := .terminal)) (ht.lt (k := .nonterminal))

theorem addClass?_eq {name : String} (h : bounds = .checked → name ≠ "#") (set : CharSet) :
    t.addClass? bounds name set = some (t.addClass name set) :=
  Bounds.guard_eq (fun hb he => absurd he (h hb)) _

theorem onPiece?_eq {f : Graph → Option (Graph × Piece)} {k : Graph → Graph × Piece}
    (hf : f t.graph = some (k t.graph)) : t.onPiece? f = some (t.onPiece k) := by
  rw [onPiece?, hf]
  rfl

theorem onGraph?_eq {f : Graph → Option Graph} {k : Graph → Graph}
    (hf : f t.graph = some (k t.graph)) : t.onGraph? f = some (t.onGraph k) := by
  rw [onGraph?, hf]
  rfl

theorem unescapeAt?_eq (line : Nat) (cs : List Char) :
    unescapeAt? bounds line cs = (unescapeAt line cs).run := by
  rw [unescapeAt?, Text.unescapeFrom?_eq, Work.some_bind]
  rfl

end Table

/-! ### Character sets -/

theorem charValue?_eq {t : Token} (h : bounds = .checked → t.Quoted) :
    charValue? bounds t = (charValue t).run := by
  rw [charValue?, Token.inner?_eq h, Work.some_bind, charValue]
  refine Noted.run_bind_of (Table.unescapeAt?_eq ..) ?_
  rcases (Table.unescapeAt t.line t.inner).value with _ | ⟨c, _ | ⟨d, l⟩⟩
  · exact Noted.run_bind_of rfl (Noted.run_pure _).symm
  · exact (Noted.run_pure _).symm
  · exact Noted.run_bind_of rfl (Noted.run_pure _).symm

/-- What declarations rely on and keep: the lists of a table hold its symbols by kind, and the
ranges in the sets of classes run upwards. -/
structure Table.Sound (t : Table) : Prop where
  registered : Registered t
  ordered : ∀ c ∈ t.classes, c.set.Ordered

namespace Table

variable {t u : Table}

theorem sound_empty : empty.Sound where
  registered := registered_empty
  ordered c hc := absurd hc (Array.not_mem_empty c)

theorem Sound.of_continues (ht : t.Sound) (h : Continues t u) (hc : u.classes = t.classes) :
    u.Sound where
  registered := h.registered ht.registered
  ordered := hc ▸ ht.ordered

theorem Sound.onGraph (ht : t.Sound) (g : Graph) : ({ t with graph := g } : Table).Sound :=
  ht.of_continues (.onGraph t g) rfl

theorem Sound.modifySymbol (ht : t.Sound) (s : SymbolId) {f : Symbol → Symbol}
    (hf : ∀ b, (f b).kind = b.kind ∧ (f b).index = b.index) : (t.modifySymbol s f).Sound where
  registered := ht.registered.modifySymbol s (fun b => (hf b).1) fun _ => (hf _).2
  ordered := ht.ordered

theorem Sound.declare (ht : t.Sound) (k : SymbolKind) (name : String) (line : Nat) :
    (t.declare k name line).value.1.Sound := by
  refine ht.of_continues (.declare t k name line) ?_
  unfold Table.declare
  split <;> cases k <;> rfl

theorem Sound.addLiteral (ht : t.Sound) (spelling : String) {s : SymbolId}
    (hs : s < t.symbols.size) : (t.addLiteral spelling s).Sound := by
  refine ht.of_continues (.addLiteral t spelling hs) ?_
  unfold Table.addLiteral
  split <;> rfl

theorem Sound.addClass (ht : t.Sound) (name : String) {set : CharSet} (hs : set.Ordered) :
    (t.addClass name set).1.Sound where
  registered := (Continues.addClass t name set).registered ht.registered
  ordered c hc := by
    have hpush (x : CharClass) (hx : x.set.Ordered) (hc : c ∈ t.classes.push x) :
        c.set.Ordered := by
      rcases Array.mem_push.mp hc with hc | rfl
      · exact ht.ordered c hc
      · exact hx
    unfold Table.addClass at hc
    split at hc <;> exact hpush _ hs hc

theorem Sound.of_classByName (ht : t.Sound) {name : String} {c : ClassId}
    (hc : t.classByName? name = some c) : c < t.classes.size ∧ (t.charClass c).set.Ordered := by
  obtain ⟨hlt, -⟩ := Array.findIdx?_eq_some_iff_getElem.mp hc
  refine ⟨hlt, ?_⟩
  rw [charClass, Array.getD_eq_getD_getElem?, Array.getElem?_eq_getElem hlt]
  exact ht.ordered _ (Array.getElem_mem hlt)

end Table

theorem SimpleSet.eval?_eq {t : Table} (ht : t.Sound) {s : SimpleSet}
    (hs : bounds = .checked → s.Sound) :
    s.eval? bounds t = (s.eval t).run ∧ (s.eval t).value.Ordered := by
  cases s with
  | name n =>
    unfold eval? eval
    dsimp only
    cases hc : t.classByName? n.text with
    | none => exact ⟨Noted.run_bind_of rfl (Noted.run_pure _).symm, CharSet.ordered_empty⟩
    | some c =>
      obtain ⟨hlt, ho⟩ := ht.of_classByName hc
      refine ⟨?_, ho⟩
      dsimp only
      rw [Table.charClass?_eq hlt, Work.some_bind, (CharSet.ordered_empty.union?_eq ho).1,
        Work.some_bind]
      exact (Noted.run_pure _).symm
  | string s =>
    obtain ⟨he, ho⟩ : CharSet.ofList? bounds _ = _ ∧ _ :=
      CharSet.ofList?_eq ((Table.unescapeAt s.line s.inner).value.map Char.toNat)
    refine ⟨?_, ho⟩
    rw [eval?, Token.inner?_eq hs, Work.some_bind, eval]
    exact Noted.run_bind_of (Table.unescapeAt?_eq ..) (Noted.liftM_eq_run he)
  | char c =>
    refine ⟨?_, CharSet.ordered_empty.insertRange le_rfl⟩
    exact Noted.run_bind_of (charValue?_eq hs) (Noted.liftM_eq_run (CharSet.insertRange?_eq le_rfl))
  | range lo hi =>
    refine ⟨?_, ?_⟩
    · refine Noted.run_bind_of (charValue?_eq fun hb => (hs hb).1) ?_
      refine Noted.run_bind_of (charValue?_eq fun hb => (hs hb).2) ?_
      split
      · exact Noted.liftM_eq_run (CharSet.insertRange?_eq ‹_›)
      · exact (Noted.run_pure _).symm
    · simp only [eval, Noted.value_bind, Noted.value_pure]
      split
      · exact CharSet.ordered_empty.insertRange ‹_›
      · exact CharSet.ordered_empty
  | any => exact ⟨(Noted.run_pure _).symm, CharSet.ordered_full⟩

theorem evalTerms?_eq {t : Table} (ht : t.Sound) {l : List SetTerm}
    (hl : bounds = .checked → ∀ s ∈ l, s.set.Sound) :
    evalTerms? bounds t l = (evalTerms t l).run ∧ (evalTerms t l).value.Ordered := by
  refine Noted.run_foldlM (P := CharSet.Ordered) (fun s hs term hterm => ?_) CharSet.ordered_empty
  obtain ⟨he, ho⟩ := term.set.eval?_eq ht fun hb => hl hb term hterm
  simp only [Noted.value_bind, Noted.value_pure]
  cases term.minus with
  | true => exact ⟨Noted.run_bind_of he (Noted.liftM_eq_run (CharSet.diff?_eq ..)), hs.diff _⟩
  | false =>
    obtain ⟨hu, ho⟩ : s.union? bounds _ = _ ∧ _ := hs.union?_eq ho
    exact ⟨Noted.run_bind_of he (Noted.liftM_eq_run hu), ho⟩

theorem SetDecl.declare?_eq {t : Table} (ht : t.Sound) {d : SetDecl}
    (hd : bounds = .checked → d.Sound) : d.declare? bounds t = (d.declare t).run := by
  obtain ⟨he, ho⟩ := evalTerms?_eq ht fun hb => (hd hb).terms
  refine Noted.run_bind_of rfl (Noted.run_bind_of he ?_)
  rw [ho.count?_eq, Work.some_bind, Table.addClass?_eq fun hb => (hd hb).name]
  split
  · exact Noted.run_bind_of rfl (Noted.run_pure _).symm
  · exact (Noted.run_pure _).symm

theorem SetDecl.sound_declare {t : Table} (ht : t.Sound) (d : SetDecl) :
    (d.declare t).value.Sound := by
  obtain ⟨-, ho⟩ : evalTerms? .unchecked t d.terms = _ ∧ _ := evalTerms?_eq ht nofun
  simp only [declare, Noted.value_bind, Noted.value_ite, Noted.value_pure, ite_self]
  exact ht.addClass d.name.text ho

/-! ### Expressions -/

namespace Graph

variable {g h : Graph} {a : Piece} {s : Shape} {Q : NodeKind → Prop}

theorem Built.markContext (hQ : ∀ k, Q k.inContext ↔ Q k) (hb : Built Q g h a s) :
    Built Q g (h.markContext (some a.entry)) a s := by
  have hc := h.allContext_markContext (some a.entry)
  refine ⟨⟨?_, fun i hi => ?_, fun i hi hh => ?_⟩, hb.piece.of_allContext hc, fun i => ?_⟩
  · rw [size_markContext]
    exact hb.adds.size_le
  · have hs : i ∉ s.nodes := fun hs => absurd ((hb.mem i).mp hs).1 (Nat.not_le_of_lt hi)
    rw [hb.piece.node_markContext_of_not_mem hs, hb.adds.node i hi]
  · rw [size_markContext] at hh
    rw [← hQ, ← kind_allContext, hc, kind_allContext, hQ]
    exact hb.adds.kind i hi hh
  · rw [size_markContext, hb.mem]

theorem redirectExits_eq_setNext {i : NodeId} (hn : g.next i = none) (target : Option NodeId) :
    g.redirectExits i target = g.setNext i target := by
  rw [redirectExits, redirect, hn]
  cases 2 * g.size <;> rfl

/-- Characters come one behind the other, behind a piece with a single exit. -/
theorem Built.charsAfter (bounds : Bounds) (line : Nat) (cs : List Char)
    (hb : Built (fun _ => True) g h a s) (hn : h.next a.exits = none) :
    h.charsAfter? bounds a line cs = some (h.charsAfter a line cs) ∧
      Built (fun _ => True) g (h.charsAfter a line cs).1 (h.charsAfter a line cs).2
        (s.append (.stretch h.size cs.length)) := by
  induction cs generalizing h a s with
  | nil => exact ⟨rfl, (s.append_nil).symm ▸ hb⟩
  | cons c cs ih =>
    have hlt := hb.piece.exit_lt
    have hc := hb.sequence ⟨trivial, fun _ _ => trivial⟩
      (.single (l := .char c.toNat .normal) rfl trivial line)
    rw [Graph.sequence, redirectExits_eq_setNext (by simpa [Graph.single] using hn)] at hc
    have hnext : ((h.add (.char c.toNat .normal) line).1.setNext a.exits (some h.size)).next
        h.size = none := by
      rw [next_setNext, if_neg fun he => hlt.ne he.1, next_add, next_of_size_le le_rfl]
    obtain ⟨he, hx⟩ := ih hc hnext
    rw [Shape.append_assoc, size_setNext, size_single] at hx
    refine ⟨?_, hx⟩
    rw [charsAfter?]
    simp only [snd_add]
    rw [setNext?_eq (hlt.trans (by simp)), some_bind]
    exact he

/-- The characters of a literal, or the empty node, are all that is new. -/
theorem built_chars (g : Graph) (line : Nat) (cs : List Char) :
    g.chars? bounds line cs = some (g.chars line cs) ∧
      Built (fun _ => True) g (g.chars line cs).1 (g.chars line cs).2
        (.stretch g.size (max 1 cs.length)) := by
  cases cs with
  | nil => exact ⟨rfl, .single rfl trivial line⟩
  | cons c cs =>
    have hn : (g.single (.char c.toNat .normal) line).1.next g.size = none := by
      simp [Graph.single, next_of_size_le]
    rw [List.length_cons, max_eq_right (Nat.le_add_left ..)]
    have h := (Built.single rfl trivial line).charsAfter bounds line cs hn
    rw [size_single] at h
    exact h

end Graph

namespace Expr

variable {α : Type} {E : Event → Prop} {Q : NodeKind → Prop} {I : Table → Prop}
  {atoms : Table → α → Noted (Table × Piece)} {t : Table}

/-- Atoms that meet no other events than `E` allows turn into pieces of nodes that `Q` allows, and
what holds of a table goes on to hold. -/
structure Makes (E : Event → Prop) (Q : NodeKind → Prop) (I : Table → Prop)
    (atoms : Table → α → Noted (Table × Piece)) : Prop where
  groups : AllowsGroups Q
  context : ∀ k, Q k.inContext ↔ Q k
  onGraph : ∀ t g, I t → I { t with graph := g }
  keeps : ∀ t a, I t → I (atoms t a).value.1
  built : ∀ t a, I t → (∀ ev ∈ (atoms t a).events, E ev) → ∃ s,
    Built Q t.graph (atoms t a).value.1.graph (atoms t a).value.2 s

/-- So does an expression. -/
theorem built_build (hm : Makes E Q I atoms) (e : Expr α) (ht : I t)
    (he : ∀ ev ∈ (e.build atoms t).events, E ev) :
    I (e.build atoms t).value.1 ∧ ∃ s,
      Built Q t.graph (e.build atoms t).value.1.graph (e.build atoms t).value.2 s ∧
        (e.isAlt = true → s.IsOther (e.build atoms t).value.1.graph) := by
  induction e generalizing t with
  | empty => exact ⟨hm.onGraph _ _ ht, _, .single rfl hm.groups.1 0, by simp [isAlt]⟩
  | atom a =>
    obtain ⟨s, hs⟩ := hm.built t a ht he
    exact ⟨hm.keeps t a ht, s, hs, by simp [isAlt]⟩
  | seq e f ihe ihf =>
    rw [build, Noted.events_bind, List.forall_mem_append, Noted.events_bind,
      List.forall_mem_append] at he
    obtain ⟨hie, s, hs, -⟩ := ihe ht he.1
    obtain ⟨hif, x, hx, -⟩ := ihf hie he.2.1
    exact ⟨hm.onGraph _ _ hif, _, hs.sequence hm.groups hx, by simp [isAlt]⟩
  | alt e f ihe ihf =>
    rw [build, Noted.events_bind, List.forall_mem_append, Noted.events_bind,
      List.forall_mem_append] at he
    obtain ⟨hie, s, hs, hso⟩ := ihe ht he.1
    obtain ⟨hif, x, hx, -⟩ := ihf hie he.2.1
    simp only [build, Noted.value_bind, Noted.value_pure]
    by_cases hea : e.isAlt = true
    · rw [if_pos hea]
      obtain ⟨hb, hbo⟩ := hs.addAlternative hm.groups (hso hea) hx
      exact ⟨hm.onGraph _ _ hif, _, hb, fun _ => hbo⟩
    · rw [if_neg hea]
      generalize hw : (f.build atoms (e.build atoms t).value.1).value.1.onPiece
        (·.firstAlternative (e.build atoms t).value.2) = w
      obtain ⟨w, c⟩ := w
      have hg : (f.build atoms (e.build atoms t).value.1).value.1.graph.firstAlternative
          (e.build atoms t).value.2 = (w.graph, c) :=
        Prod.ext (congrArg (·.1.graph) hw) (congrArg (·.2) hw)
      obtain ⟨hb, hbo⟩ := hs.alternatives hm.groups hx hg
      have hi : I w := by
        rw [← show _ = w from congrArg (·.1) hw]
        exact hm.onGraph _ _ hif
      exact ⟨hm.onGraph _ _ hi, _, hb, fun _ => hbo⟩
  | group b e ih =>
    rw [build, Noted.events_bind, List.forall_mem_append] at he
    obtain ⟨hi, s, hs, -⟩ := ih ht he.1
    simp only [build, Noted.value_bind, Noted.value_pure]
    cases b with
    | round => exact ⟨hi, s, hs, by simp [isAlt]⟩
    | square => exact ⟨hm.onGraph _ _ hi, _, hs.option hm.groups, by simp [isAlt]⟩
    | curly => exact ⟨hm.onGraph _ _ hi, _, hs.iteration hm.groups, by simp [isAlt]⟩
    | context => exact ⟨hm.onGraph _ _ hi, s, hs.markContext hm.context, by simp [isAlt]⟩

theorem wrap?_eq {p : Piece} {s : Shape} (hp : Open t.graph p s) (b : Bracket) :
    wrap? bounds t p b = some (wrap t p b) := by
  cases b with
  | round => rfl
  | square => exact Table.onPiece?_eq (f := (·.option? bounds p)) (k := (·.option p)) hp.option?_eq
  | curly =>
    exact Table.onPiece?_eq (f := (·.iteration? bounds p)) (k := (·.iteration p)) hp.iteration?_eq
  | context =>
    rw [wrap?, Table.onGraph?_eq (k := (·.markContext (some p.entry))) hp.markContext?_eq]
    rfl

/-- The graph of an expression is built in finitely many steps. -/
theorem build?_eq {P : α → Prop} {atoms? : Table → α → Work (Table × Piece)}
    (hm : Makes (fun _ => True) (fun _ => True) I atoms)
    (hr : ∀ t a, I t → (bounds = .checked → P a) → atoms? t a = (atoms t a).run)
    (e : Expr α) (he : bounds = .checked → e.All P) (ht : I t) :
    e.build? bounds atoms? t = (e.build atoms t).run := by
  have hbuilt (e : Expr α) {t : Table} (ht : I t) := e.built_build hm ht fun _ _ => trivial
  induction e generalizing t with
  | empty => exact (Noted.run_pure _).symm
  | atom a => exact hr t a ht he
  | seq e f ihe ihf =>
    obtain ⟨hie, s, hs, -⟩ := hbuilt e ht
    obtain ⟨-, x, hx, -⟩ := hbuilt f hie
    refine Noted.run_bind_of (ihe (fun hb => (he hb).1) ht) ?_
    refine Noted.run_bind_of (ihf (fun hb => (he hb).2) hie) ?_
    exact Noted.liftM_eq_run (Table.onPiece?_eq ((hs.keeps hx).1.sequence?_eq _))
  | alt e f ihe ihf =>
    obtain ⟨hie, s, hs, hso⟩ := hbuilt e ht
    obtain ⟨-, x, hx, -⟩ := hbuilt f hie
    have ha := (hs.keeps hx).1
    refine Noted.run_bind_of (ihe (fun hb => (he hb).1) ht) ?_
    refine Noted.run_bind_of (ihf (fun hb => (he hb).2) hie) ?_
    have ho (hea : e.isAlt = true) :
        s.IsOther (f.build atoms (e.build atoms t).value.1).value.1.graph :=
      (hso hea).congr fun i hi => by
        rw [Graph.kind, hx.adds.node i (hs.piece.lt i hi), Graph.kind]
    have hqe := hx.piece.entry_lt
    have hqx := hx.piece.exit_lt
    generalize (e.build atoms t).value.2 = p at ha
    generalize (f.build atoms (e.build atoms t).value.1).value = r at ha ho hqe hqx
    obtain ⟨u, q⟩ := r
    dsimp only at ha ho hqe hqx ⊢
    by_cases hea : e.isAlt = true
    · rw [if_pos hea, if_pos hea]
      exact Noted.liftM_eq_run (Table.onPiece?_eq (ha.alternative?_eq (ho hea) hqe hqx))
    · rw [if_neg hea, if_neg hea, Table.onPiece?_eq (k := (·.firstAlternative p))
        ha.firstAlternative?_eq, Work.some_bind]
      have hsize : u.graph.size < (u.graph.firstAlternative p).1.size := by simp
      refine Noted.liftM_eq_run (Table.onPiece?_eq (k := (·.alternative _ q)) ?_)
      refine ha.firstAlternative.alternative?_eq ?_ (hqe.trans hsize) (hqx.trans hsize)
      exact ⟨rfl, p.entry, none, by simp [firstAlternative, kind_add]⟩
  | group b e ih =>
    obtain ⟨-, s, hs, -⟩ := hbuilt e ht
    exact Noted.run_bind_of (ih he ht) (Noted.liftM_eq_run (wrap?_eq hs.piece b))

end Expr

/-! ### Tokens and pragmas -/

open Table

namespace TokenAtom

variable {t : Table}

theorem build?_eq {a : TokenAtom} (ha : bounds = .checked → a.Sound) :
    a.build? bounds t = (a.build t).run := by
  cases a with
  | className n =>
    unfold build? TokenAtom.build
    dsimp only
    cases t.classByName? n.text with
    | some c => exact (Noted.run_pure _).symm
    | none =>
      refine Noted.run_bind_of rfl ?_
      rw [addClass?_eq ha, Work.some_bind]
      exact (Noted.run_pure _).symm
  | literal l =>
    rw [build?, Token.spelling?_eq ha, Work.some_bind, TokenAtom.build, addLiteralChars?,
      addLiteralChars]
    refine Noted.run_bind_of (unescapeAt?_eq ..) ?_
    generalize (unescapeAt l.line (unquote l.spelling)).value = cs
    have hchars : liftM (t.onPiece? fun g => g.chars? bounds l.line cs) =
        (pure (t.onPiece fun g => g.chars l.line cs) : Noted (Table × Piece)).run :=
      Noted.liftM_eq_run (onPiece?_eq (built_chars t.graph l.line cs).1)
    split
    · exact Noted.run_bind_of rfl hchars
    · exact hchars

/-- The nodes of an atom of a token are a piece. -/
theorem exists_built (t : Table) (a : TokenAtom) : ∃ s,
    Built (fun _ => True) t.graph (a.build t).value.1.graph (a.build t).value.2 s := by
  cases a with
  | className n =>
    rw [TokenAtom.build]
    split
    · exact ⟨_, .single rfl trivial n.line⟩
    · have hg : (t.addClass n.text .empty).1.graph = t.graph := by
        rw [Table.addClass]
        split <;> rfl
      have hb := Built.single (g := t.graph) (Q := fun _ => True)
        (l := .charClass (t.addClass n.text .empty).2 .normal) rfl trivial n.line
      rw [← hg] at hb
      rw [← hg]
      exact ⟨_, hb⟩
  | literal l =>
    simp only [TokenAtom.build, Table.addLiteralChars, Noted.value_bind, Noted.value_ite,
      Noted.value_pure, ite_self]
    exact ⟨_, (built_chars t.graph l.line _ : t.graph.chars? .unchecked _ _ = _ ∧ _).2⟩

/-- The atoms of token definitions may find new classes. -/
theorem makes_build : Expr.Makes (fun _ => True) (fun _ => True) Table.Sound TokenAtom.build where
  groups := ⟨trivial, fun _ _ => trivial⟩
  context _ := Iff.rfl
  onGraph t g ht := ht.onGraph g
  keeps t a ht := by
    cases a with
    | className n =>
      rw [TokenAtom.build]
      split
      · exact ht.onGraph _
      · exact (ht.addClass n.text CharSet.ordered_empty).onGraph _
    | literal l =>
      simp only [TokenAtom.build, Table.addLiteralChars, Noted.value_bind, Noted.value_ite,
        Noted.value_pure, ite_self]
      exact ht.onGraph _
  built t a _ _ := exists_built t a

theorem buildExpr?_eq {e : Expr TokenAtom} (he : bounds = .checked → e.All TokenAtom.Sound)
    (ht : t.Sound) :
    e.build? bounds (TokenAtom.build? bounds) t = (e.build TokenAtom.build t).run :=
  e.build?_eq makes_build (fun _ _ _ => build?_eq) he ht

end TokenAtom

/-- A token that is all there is to an expression meets what all its atoms do. -/
theorem Expr.sound_of_literal {e : Expr TokenAtom} {l : Token} (he : e.All TokenAtom.Sound)
    (hl : e.literal? = some l) : l.kind = .char → l.Quoted := by
  induction e with
  | atom a =>
    cases a with
    | literal l' =>
      cases hl
      exact he
    | className n => cases hl
  | group b e ih =>
    cases b with
    | round => exact ih he hl
    | _ => cases hl
  | _ => cases hl

namespace TokenDecl

variable {t : Table} {s : SymbolId}

theorem declareName?_eq (ht : t.Sound) (kind : SymbolKind) (name : Token) :
    declareName? bounds kind t name = (declareName kind t name).run := by
  rw [declareName?, ht.registered.byName?_eq, Work.some_bind, declareName]
  cases t.find? name.text with
  | some s => exact Noted.run_bind_of rfl (Noted.run_pure _).symm
  | none => rfl

theorem sound_declareName (ht : t.Sound) (kind : SymbolKind) (name : Token) :
    (declareName kind t name).value.1.Sound := by
  unfold declareName
  split
  · exact ht
  · exact ht.declare ..

/-- What a body alone spells is recorded. -/
theorem setLiteral?_eq (hs : s < t.symbols.size) (name : Token) {e : Expr TokenAtom}
    (he : bounds = .checked → e.All TokenAtom.Sound) :
    (match e.literal? with
      | some l => do
        let spelling := String.ofList (← l.spelling? bounds)
        if (t.literal? spelling).isSome then (faultAt name .tokenStringTwice).run
        return t.addLiteral spelling s
      | none => t.modifySymbol? bounds s fun s => { s with tokenKind := .classes } : Work Table) =
    (match e.literal? with
      | some l => do
        let spelling := String.ofList l.spelling
        if (t.literal? spelling).isSome then faultAt name .tokenStringTwice
        return t.addLiteral spelling s
      | none => return t.modifySymbol s fun s => { s with tokenKind := .classes } :
        Noted Table).run := by
  cases hl : e.literal? with
  | some l =>
    dsimp only
    rw [Token.spelling?_eq fun hb => Expr.sound_of_literal (he hb) hl, Work.some_bind]
    split
    · exact Noted.run_bind_of rfl (Noted.run_pure _).symm
    · exact (Noted.run_pure _).symm
  | none => exact Noted.liftM_eq_run (modifySymbol?_eq hs _)

theorem setBody?_eq (ht : t.Sound) (hs : s < t.symbols.size) (name : Token)
    {e : Expr TokenAtom} (he : bounds = .checked → e.All TokenAtom.Sound) :
    setBody? bounds t s name e = (setBody t s name e).run := by
  obtain ⟨-, x, hx, -⟩ := Expr.built_build TokenAtom.makes_build e ht fun _ _ => trivial
  have hgrow :=
    (Expr.continues_build (fun t a _ => TokenAtom.continues_build t a) e ht.registered).grows
  refine Noted.run_bind_of (TokenAtom.buildExpr?_eq he ht) ?_
  have hp := hx.piece
  generalize (e.build TokenAtom.build t).value = r at hp hgrow
  obtain ⟨u, p⟩ := r
  have hlt : s < (u.onGraph (·.finish p)).symbols.size := hs.trans_le hgrow.size_le
  dsimp only
  rw [onGraph?_eq (k := (·.finish p)) hp.finish?_eq]
  generalize u.onGraph (·.finish p) = v at hlt
  split
  · exact Noted.run_bind_of rfl (setLiteral?_eq hlt name he)
  · exact setLiteral?_eq hlt name he

theorem setAction?_eq (hs : s < t.symbols.size) (kind : SymbolKind) {a : Token}
    (ha : bounds = .checked → 2 ≤ a.stop.byte) :
    setAction? bounds kind t s a = (setAction kind t s a).run := by
  unfold setAction? setAction
  rw [Token.actionSpan?_eq ha, Work.some_bind, modifySymbol?_eq hs]
  split
  · exact Noted.run_bind_of rfl (Noted.run_pure _).symm
  · exact (Noted.run_pure _).symm

/-- So is the action behind it. -/
theorem action?_eq (hs : s < t.symbols.size) (kind : SymbolKind) (action : Option Token) :
    (bounds = .checked → ∀ a ∈ action, 2 ≤ a.stop.byte) →
    (match action with
      | some a => setAction? bounds kind t s a
      | none => return t : Work Table) =
    (match action with
      | some a => setAction kind t s a
      | none => return t : Noted Table).run := by
  intro ha
  cases action with
  | some a => exact setAction?_eq hs kind fun hb => ha hb a rfl
  | none => exact (Noted.run_pure _).symm

theorem sound_setBody (ht : t.Sound) (hs : s < t.symbols.size) (name : Token)
    (e : Expr TokenAtom) : (setBody t s name e).value.Sound := by
  obtain ⟨hb, -⟩ := Expr.built_build TokenAtom.makes_build e ht fun _ _ => trivial
  have hgrow :=
    (Expr.continues_build (fun t a _ => TokenAtom.continues_build t a) e ht.registered).grows
  simp only [setBody, Noted.value_bind, Noted.value_ite, ite_self]
  split
  · simp only [Noted.value_bind, Noted.value_ite, Noted.value_pure, ite_self]
    exact (hb.onGraph _).addLiteral _ (hs.trans_le hgrow.size_le)
  · exact (hb.onGraph _).modifySymbol s fun _ => ⟨rfl, rfl⟩

theorem sound_setAction (ht : t.Sound) (kind : SymbolKind) (s : SymbolId) (a : Token) :
    (setAction kind t s a).value.Sound := by
  simp only [setAction, Noted.value_bind, Noted.value_ite, Noted.value_pure, ite_self]
  exact ht.modifySymbol s fun _ => ⟨rfl, rfl⟩

theorem sound_action (ht : t.Sound) (kind : SymbolKind) (s : SymbolId) (action : Option Token) :
    (match action with
      | some a => setAction kind t s a
      | none => return t : Noted Table).value.Sound := by
  cases action with
  | some a => exact sound_setAction ht kind s a
  | none => exact ht

theorem declare?_eq (ht : t.Sound) (kind : SymbolKind) {d : TokenDecl}
    (hd : bounds = .checked → d.Sound) : d.declare? bounds kind t = (d.declare kind t).run := by
  obtain ⟨-, hlt⟩ := continues_declareName kind ht.registered d.name
  unfold declare? declare
  refine Noted.run_bind_of (declareName?_eq ht kind d.name) ?_
  have hu := sound_declareName ht kind d.name
  generalize (declareName kind t d.name).value = r at hu hlt
  obtain ⟨u, s⟩ := r
  dsimp only at hu hlt ⊢
  have hact {v : Table} (hv : s < v.symbols.size) :=
    action?_eq hv kind d.action fun hb => (hd hb).action
  cases he : d.body with
  | some e =>
    have hgrow := (continues_setBody hu.registered hlt d.name e).grows
    refine Noted.run_bind_of (setBody?_eq hu hlt d.name fun hb => (hd hb).body e he) ?_
    exact hact (hlt.trans_le hgrow.size_le)
  | none =>
    by_cases hn : d.name.kind = .string
    · simp only [if_pos hn, modifySymbol?_eq hlt]
      refine Noted.run_bind_of (Noted.liftM_eq_run rfl) ?_
      exact hact (by simpa using hlt)
    · simp only [if_neg hn]
      exact Noted.run_bind_of (Noted.run_pure _).symm (hact hlt)

theorem sound_declare (ht : t.Sound) (kind : SymbolKind) (d : TokenDecl) :
    (d.declare kind t).value.Sound := by
  obtain ⟨-, hlt⟩ := continues_declareName kind ht.registered d.name
  have hu := sound_declareName ht kind d.name
  unfold declare
  generalize hr : (declareName kind t d.name).value = r at hu hlt
  obtain ⟨u, s⟩ := r
  dsimp only at hu hlt
  simp only [Noted.value_bind, hr]
  cases d.body with
  | some e => exact sound_action (sound_setBody hu hlt d.name e) kind s d.action
  | none =>
    refine sound_action ?_ kind s d.action
    rw [Noted.value_pure]
    split
    · exact hu.modifySymbol s fun _ => ⟨rfl, rfl⟩
    · exact hu

end TokenDecl

end Lookahead
