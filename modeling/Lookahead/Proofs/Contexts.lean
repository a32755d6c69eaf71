import Lookahead.Proofs.HaltingDeclarations

/-!
# The context of a token

What must follow a token is marked as its context while the exits of its graph are still on their
list, so that the links at its ends lead back into contents and alternatives. Nevertheless the walk
comes to an end, comes to all nodes of the piece (`Shape.Fits.meets`) and leaves all others alone
(`Graph.Open.contextMarked`). So the characters of the context are marked and nothing else is
(`Expr.contextMarked_build`), and in the graph of a whole token the characters with the code of a
context are those of its contexts (`Expr.coded_build`, `TokenDecl.code?_declare`).
-/

namespace Lookahead

namespace NodeKind

/-- Whether the characters of a node belong to the token, if it has any. -/
def code? : NodeKind → Option Transition
  | charClass _ code | char _ code => some code
  | _ => none

variable {k : NodeKind}

theorem inContext_of_code? (hk : k.code? = none) : k.inContext = k := by
  cases k <;> first | rfl | cases hk

end NodeKind

/-! ### Where a walk comes to -/

/-- A walk from `p` that goes where `Calls` says comes to `j`. -/
inductive Graph.Meets (g : Graph) (j : NodeId) : Option NodeId → Prop
  | here : Meets g j (some j)
  | call {i p} (hc : g.Calls i p) (hp : Meets g j p) : Meets g j (some i)

/-- A walk comes to all nodes of a tree, whatever the exits lead to. -/
theorem Shape.Fits.meets {g : Graph} {E : Option NodeId → Prop} {up : Bool} {s : Shape}
    {j : NodeId} (hs : s.Fits g E up) (hj : j ∈ s.nodes) : g.Meets j s.entry := by
  induction s generalizing E up with
  | nil => cases hj
  | node i loop b o r ihb iho ihr =>
    obtain ⟨hf, hl, hb, ho, hr⟩ := hs
    simp only [nodes, List.mem_cons, List.mem_append] at hj
    rcases hj with rfl | hj | hj | hj
    · exact .here
    · have hm := ihb hb hj
      rw [hf.entry_body] at hm
      cases hsub : (g.kind i).sub? with
      | none => cases hsub ▸ hm
      | some c => exact .call (.sub hsub) (hsub ▸ hm)
    · exact .call .down (hf.entry_others ▸ iho ho hj)
    · have hne : r ≠ nil := by
        rintro rfl
        cases hj
      obtain ⟨hnext, hup⟩ := hl.of_ne hne
      exact .call (.next hup) (hnext ▸ ihr hr hj)

namespace Graph

variable {g h : Graph} {i j : NodeId} {p q : Option NodeId} {n : Nat}

/-- The code of the characters of a node, if it has any. -/
def code? (g : Graph) (i : NodeId) : Option Transition := (g.kind i).code?

theorem Meets.of_allContext (hg : h.allContext = g.allContext) (hm : g.Meets j p) :
    h.Meets j p := by
  induction hm with
  | here => exact .here
  | call hc _ ih => exact .call (by rwa [← calls_allContext, hg, calls_allContext]) ih

/-- A walk comes to the node where it starts, or goes on to where a marking does. -/
theorem Meets.step (hm : g.Meets j (some i)) : i = j ∨
    (∃ c, ((g.kind i).sub? = some c ∨ (g.kind i).down? = some c) ∧ g.Calls i (some c) ∧
      g.Meets j (some c)) ∨ ((g.node i).up = false ∧ g.Meets j (g.next i)) := by
  cases hm with
  | here => exact .inl rfl
  | call hc hp =>
    refine .inr ?_
    cases hc with
    | sub hs => exact .inl ⟨_, .inl hs, .sub hs, hp⟩
    | down =>
      cases hd : (g.kind i).down? with
      | none => cases hd ▸ hp
      | some c => exact .inl ⟨c, .inr rfl, .of_down hd, hd ▸ hp⟩
    -- marking comes to the content of a further alternative by way of that alternative
    | content hy =>
      rcases mem_alternatives hy with hs | ⟨c, hd, hy⟩
      · exact .inl ⟨_, .inl hs, .sub hs, hp⟩
      · exact .inl ⟨c, .inr hd, .of_down hd, .call (.content hy) hp⟩
    | next hu => exact .inr ⟨hu, hp⟩

/-! ### What marking does -/

/-- The characters of a node are marked, if it has any. -/
def Marked (j : NodeId) (g : Graph) : Prop := (g.kind j).inContext = g.kind j

theorem marked_setKind (g : Graph) (i : NodeId) (hj : Marked j g ∨ i = j) :
    Marked j (g.setKind i (g.kind i).inContext) := by
  unfold Marked
  rw [kind_setKind]
  split
  · exact inContext_inContext _
  · rcases hj with hj | rfl
    · exact hj
    · have hi : g.size ≤ i := by simpa using ‹¬(i = i ∧ i < g.size)›
      rw [kind, node_of_size_le hi]
      rfl

theorem Marked.markContextFrom (hj : Marked j g) (n : Nat) (p : Option NodeId) :
    Marked j (markContextFrom n g p) :=
  markContextFrom_preserves (fun g i h => marked_setKind g i (.inl h)) n hj p

theorem marked_markInside_self (n : Nat) (g : Graph) (i : NodeId) :
    Marked i (g.markInside n i) := by
  have hgroup (hk : (g.kind i).code? = none) : Marked i g := NodeKind.inContext_of_code? hk
  unfold markInside
  split
  · rename_i hk
    exact ((hgroup (hk ▸ rfl)).markContextFrom n _).markContextFrom n _
  · rename_i hk
    exact (hgroup (hk ▸ rfl)).markContextFrom n _
  · rename_i hk
    exact (hgroup (hk ▸ rfl)).markContextFrom n _
  · exact marked_setKind g i (.inr rfl)

/-- What the walk from the content or from the next alternative marks is marked, whatever has been
marked before. -/
theorem marked_markInside {c : NodeId} (hc : (g.kind i).sub? = some c ∨ (g.kind i).down? = some c)
    (hm : ∀ h, h.allContext = g.allContext → Marked j (markContextFrom n h (some c))) :
    Marked j (g.markInside n i) := by
  unfold markInside
  cases hk : g.kind i with
  | alt sub down =>
    rw [hk] at hc
    rcases hc with hc | hc
    · cases hc
      exact (hm g rfl).markContextFrom n down
    · obtain rfl : down = some c := hc
      exact hm _ (allContext_markContextFrom n g _)
  | iter sub | opt sub =>
    rw [hk] at hc
    obtain rfl : sub = c := by simpa [NodeKind.sub?, NodeKind.down?] using hc
    exact hm g rfl
  | _ => simp [hk, NodeKind.sub?, NodeKind.down?] at hc

/-- A walk that is not deeper than `n` marks whatever it comes to. -/
theorem marked_of_meets (hp : g.Shallow n p) (hm : g.Meets j p) :
    Marked j (markContextFrom n g p) := by
  induction n generalizing g p with
  | zero => exact hp.elim
  | succ n ih =>
    cases p with
    | none => cases hm
    | some i =>
      -- what has been marked already does not change where the rest of the walk goes
      have hwalk {h : Graph} {q : Option NodeId} (hg : h.allContext = g.allContext)
          (hq : g.Calls i q) (hj : g.Meets j q) : Marked j (markContextFrom n h q) :=
        ih ((hp.of_call hq).of_allContext hg) (hj.of_allContext hg)
      have hinside (hj : Marked j (g.markInside n i)) :
          Marked j (markContextFrom (n + 1) g (some i)) := by
        rw [markContextFrom_some]
        split
        · exact hj
        · exact hj.markContextFrom n _
      rcases hm.step with rfl | ⟨c, hc, hq, hj⟩ | ⟨hu, hj⟩
      · exact hinside (marked_markInside_self n g i)
      · exact hinside (marked_markInside hc fun h hg => hwalk hg hq hj)
      · rw [markContextFrom_some, if_neg (by simp [hu])]
        exact hwalk (allContext_markInside n g i) (.next hu) hj

/-- The piece `p` of the nodes `N` can be marked as a context. Its exits lead to nothing but each
other yet, so that following them ends inside; marking comes to an end all the same, gives the code
of a context to all characters among the nodes `N`, and changes nothing besides. -/
structure ContextMarked (g : Graph) (p : Piece) (N : List NodeId) : Prop where
  exits : ∃ L, Chain g.next (some p.exits) L ∧ L.Nodup ∧ L ⊆ N
  halts : ∀ bounds, g.markContext? bounds (some p.entry) = some (g.markContext (some p.entry))
  size : (g.markContext (some p.entry)).size = g.size
  char : ∀ i ∈ N, ∀ c code, g.kind i = .char c code →
    (g.markContext (some p.entry)).node i = { g.node i with kind := .char c .context }
  charClass : ∀ i ∈ N, ∀ c code, g.kind i = .charClass c code →
    (g.markContext (some p.entry)).node i = { g.node i with kind := .charClass c .context }
  other : ∀ i, i ∉ N ∨ (g.kind i).code? = none →
    (g.markContext (some p.entry)).node i = g.node i

variable {a b : Piece} {s : Shape} {N : List NodeId}

/-- The nodes of an open piece are marked, and keep what else belongs to them. -/
theorem Open.node_markContext (hp : Open g a s) (hi : i ∈ s.nodes) :
    (g.markContext (some a.entry)).node i =
      { g.node i with kind := (g.kind i).inContext } := by
  have hm : Marked i (g.markContext (some a.entry)) :=
    marked_of_meets hp.shallow (hp.entry ▸ hp.fits.meets hi)
  calc (g.markContext (some a.entry)).node i
    _ = (g.markContext (some a.entry)).allContext.node i := by
      rw [node_allContext, show _ = (g.markContext (some a.entry)).kind i from hm]
      rfl
    _ = g.allContext.node i := by rw [allContext_markContext]
    _ = { g.node i with kind := (g.kind i).inContext } := node_allContext g i

theorem Open.contextMarked (hp : Open g a s) (hN : ∀ i, i ∈ s.nodes ↔ i ∈ N) :
    g.ContextMarked a N where
  exits := ⟨s.exits, hp.chain, hp.exits_nodup, fun i hi => (hN i).mp (s.exits_subset i hi)⟩
  halts _ := hp.markContext?_eq
  size := g.size_markContext _
  char i hi c code hk := by
    rw [hp.node_markContext ((hN i).mpr hi), hk]
    rfl
  charClass i hi c code hk := by
    rw [hp.node_markContext ((hN i).mpr hi), hk]
    rfl
  other i hi := by
    -- nodes of the piece without characters are passed, too, but marking does not show on them
    by_cases hs : i ∈ s.nodes
    · have hk := hi.resolve_left fun h => h ((hN i).mp hs)
      rw [hp.node_markContext hs, NodeKind.inContext_of_code? hk]
      rfl
    · exact hp.node_markContext_of_not_mem hs

end Graph

/-! ### The context of a token -/

namespace Expr

variable {t : Table} {e f : Expr TokenAtom} {i : NodeId}

/-- The nodes that are created when the structure `e` of a token is built on `t`. -/
def created (t : Table) (e : Expr TokenAtom) : List NodeId :=
  List.range' t.graph.size ((e.build TokenAtom.build t).value.1.graph.size - t.graph.size)

/-- The structure of a token is a piece of the nodes that are created for it. -/
theorem exists_built (t : Table) (e : Expr TokenAtom) : ∃ s,
    Graph.Built (fun _ => True) t.graph (e.build TokenAtom.build t).value.1.graph
      (e.build TokenAtom.build t).value.2 s := by
  have hm : Makes (fun _ => True) (fun _ => True) (fun _ => True) TokenAtom.build :=
    ⟨⟨trivial, fun _ _ => trivial⟩, fun _ => Iff.rfl, fun _ _ _ => trivial, fun _ _ _ => trivial,
      fun t a _ _ => TokenAtom.exists_built t a⟩
  obtain ⟨-, s, hs, -⟩ := e.built_build hm trivial fun _ _ => trivial
  exact ⟨s, hs⟩

theorem size_le_build (t : Table) (e : Expr TokenAtom) :
    t.graph.size ≤ (e.build TokenAtom.build t).value.1.graph.size := by
  obtain ⟨s, hs⟩ := e.exists_built t
  exact hs.adds.size_le

theorem mem_created : i ∈ e.created t ↔
    t.graph.size ≤ i ∧ i < (e.build TokenAtom.build t).value.1.graph.size := by
  rw [created, List.mem_range'_1, Nat.add_sub_cancel' (e.size_le_build t)]

/-- When the context `f` behind the structure `e` of a token is marked, what has been created for
`f` is marked and nothing else, and marking ends although the exits of `f` lead nowhere yet. Only
then is the context joined to what stands before it. -/
theorem contextMarked_build (t : Table) (e f : Expr TokenAtom) :
    let u := (e.build TokenAtom.build t).value
    let v := (f.build TokenAtom.build u.1).value
    v.1.graph.ContextMarked v.2 (f.created u.1) ∧
      ((seq e (group .context f)).build TokenAtom.build t).value =
        (v.1.onGraph (·.markContext (some v.2.entry))).onPiece (·.sequence u.2 v.2) := by
  intro u v
  obtain ⟨s, hs⟩ := f.exists_built u.1
  exact ⟨hs.piece.contextMarked fun i => (hs.mem i).trans mem_created.symm, rfl⟩

end Expr

/-! ### The codes in a whole token -/

namespace Graph

variable {g h : Graph} {a b : Piece} {i : NodeId} {k : NodeKind} {N : List NodeId}

theorem code?_of_size_le (hi : g.size ≤ i) : g.code? i = none := by
  rw [code?, kind, node_of_size_le hi]
  rfl

theorem lt_of_code? {x : Transition} (hx : g.code? i = some x) : i < g.size := by
  by_contra hi
  rw [code?_of_size_le (Nat.le_of_not_lt hi)] at hx
  cases hx

theorem code?_add (g : Graph) (k : NodeKind) (line : Nat) (i : NodeId) :
    (g.add k line).1.code? i = if i = g.size then k.code? else g.code? i := by
  simp only [code?, kind_add]
  split <;> rfl

/-- A node without characters changes no code. -/
theorem code?_add_of_none (hk : k.code? = none) (line : Nat) :
    (g.add k line).1.code? = g.code? := by
  funext i
  rw [code?_add]
  split
  · rename_i hi
    rw [hk, code?_of_size_le hi.ge]
  · rfl

@[simp] theorem code?_setNext (g : Graph) (i : NodeId) (p : Option NodeId) :
    (g.setNext i p).code? = g.code? := by
  funext j
  simp [code?]

@[simp] theorem code?_setUp (g : Graph) (i : NodeId) : (g.setUp i).code? = g.code? := by
  funext j
  simp [code?]

@[simp] theorem code?_redirectExits (g : Graph) (i : NodeId) (p : Option NodeId) :
    (g.redirectExits i p).code? = g.code? := by
  funext j
  rw [code?, redirectExits, kind_redirect, code?]

theorem code?_setKind (hk : k.code? = g.code? i) : (g.setKind i k).code? = g.code? := by
  funext j
  rw [code?, kind_setKind]
  split
  · rename_i hj
    rw [hk, hj.1]
  · rfl

@[simp] theorem code?_sequence (g : Graph) (a b : Piece) :
    (g.sequence a b).1.code? = g.code? :=
  code?_redirectExits ..

@[simp] theorem code?_option (g : Graph) (a : Piece) : (g.option a).1.code? = g.code? := by
  simp only [Graph.option, code?_setNext, code?_setUp]
  exact code?_add_of_none rfl _

@[simp] theorem code?_iteration (g : Graph) (a : Piece) : (g.iteration a).1.code? = g.code? := by
  simp only [Graph.iteration, code?_redirectExits, code?_setUp]
  exact code?_add_of_none rfl _

@[simp] theorem code?_firstAlternative (g : Graph) (a : Piece) :
    (g.firstAlternative a).1.code? = g.code? := by
  simp only [Graph.firstAlternative, code?_setNext, code?_setUp]
  exact code?_add_of_none rfl _

@[simp] theorem code?_alternative (g : Graph) (a b : Piece) :
    (g.alternative a b).1.code? = g.code? := by
  have hadd : (g.add (.alt b.entry none) (g.node b.entry).line).1.code? = g.code? :=
    code?_add_of_none rfl _
  simp only [Graph.alternative, code?_setNext]
  split
  · rename_i hk
    rw [code?_setKind (by rw [code?, hk]; rfl)]
    simpa using hadd
  · simpa using hadd

theorem code?_add_ne (hk : k.code? ≠ some .context) (hi : g.code? i ≠ some .context)
    (line : Nat) : (g.add k line).1.code? i ≠ some .context := by
  rw [code?_add]
  split
  · exact hk
  · exact hi

theorem code?_charsAfter_ne (line : Nat) (cs : List Char) (a : Piece)
    (hi : g.code? i ≠ some .context) : (g.charsAfter a line cs).1.code? i ≠ some .context := by
  induction cs generalizing g a with
  | nil => exact hi
  | cons c cs ih =>
    refine ih (g := (g.add (.char c.toNat .normal) line).1.setNext a.exits _) _ ?_
    rw [code?_setNext]
    exact code?_add_ne (by simp [NodeKind.code?]) hi line

theorem code?_chars_ne (line : Nat) (cs : List Char) (hi : g.code? i ≠ some .context) :
    (g.chars line cs).1.code? i ≠ some .context := by
  cases cs with
  | nil => exact code?_add_ne (by simp [NodeKind.code?]) hi line
  | cons c cs =>
    exact code?_charsAfter_ne line cs _ (code?_add_ne (by simp [NodeKind.code?]) hi line)

/-- Marking gives a code of its own to the nodes it is for. -/
theorem ContextMarked.code?_eq_of_mem (h : g.ContextMarked a N) (hi : i ∈ N) :
    (g.markContext (some a.entry)).code? i = (g.code? i).map fun _ => .context := by
  simp only [code?]
  cases hk : g.kind i with
  | char c code => rw [kind, h.char i hi c code hk]; rfl
  | charClass c code => rw [kind, h.charClass i hi c code hk]; rfl
  | _ =>
    rw [kind, h.other i (.inr (by rw [hk]; rfl)), ← kind, hk]
    rfl

end Graph

/-- The characters of an atom belong to the token. -/
theorem TokenAtom.code?_build_ne {t : Table} {i : NodeId} (a : TokenAtom)
    (hi : t.graph.code? i ≠ some .context) :
    (a.build t).value.1.graph.code? i ≠ some .context := by
  have hclass {u : Table} (hu : u.graph = t.graph) (c : ClassId) (line : Nat) :
      (u.addNode (.charClass c .normal) line).1.graph.code? i ≠ some .context :=
    Graph.code?_add_ne (by simp [NodeKind.code?]) (hu ▸ hi) line
  cases a with
  | className n =>
    rw [TokenAtom.build]
    split
    · exact hclass rfl _ _
    · refine hclass ?_ _ _
      rw [Table.addClass]
      split <;> rfl
  | literal l =>
    simp only [TokenAtom.build, Table.addLiteralChars, Noted.value_bind, Noted.value_ite,
      Noted.value_pure, ite_self]
    exact Graph.code?_chars_ne l.line _ hi

namespace Expr

variable {t : Table} {e f : Expr TokenAtom} {i : NodeId} {x : Transition}

/-- The nodes that are created for the contexts in the structure of a token built on `t`. -/
def contextNodes (t : Table) : Expr TokenAtom → List NodeId
  | empty | atom _ => []
  | seq e f | alt e f =>
    e.contextNodes t ++ f.contextNodes (e.build TokenAtom.build t).value.1
  | group .context e => e.created t
  | group _ e => e.contextNodes t

theorem size_le_alt (t : Table) (e f : Expr TokenAtom) :
    (f.build TokenAtom.build (e.build TokenAtom.build t).value.1).value.1.graph.size ≤
      ((alt e f).build TokenAtom.build t).value.1.graph.size := by
  simp only [build, Noted.value_bind, Noted.value_pure]
  split <;> simp [Table.onPiece, Nat.add_assoc]

theorem code?_seq (t : Table) (e f : Expr TokenAtom) :
    ((seq e f).build TokenAtom.build t).value.1.graph.code? =
      (f.build TokenAtom.build (e.build TokenAtom.build t).value.1).value.1.graph.code? :=
  Graph.code?_sequence ..

theorem code?_alt (t : Table) (e f : Expr TokenAtom) :
    ((alt e f).build TokenAtom.build t).value.1.graph.code? =
      (f.build TokenAtom.build (e.build TokenAtom.build t).value.1).value.1.graph.code? := by
  simp only [build, Noted.value_bind, Noted.value_pure]
  split <;> simp [Table.onPiece]

theorem size_le_group (t : Table) (b : Bracket) (e : Expr TokenAtom) :
    (e.build TokenAtom.build t).value.1.graph.size ≤
      ((group b e).build TokenAtom.build t).value.1.graph.size := by
  obtain ⟨s, hs⟩ := e.exists_built t
  cases b with
  | round => exact le_rfl
  | square | curly => exact (Nat.le_succ _).trans_eq (by simp [build, wrap, Table.onPiece])
  | context => exact (hs.piece.contextMarked fun i => Iff.rfl).size.ge

/-- Context nodes are among those that are created. -/
theorem mem_created_of_mem_contextNodes (hi : i ∈ e.contextNodes t) : i ∈ e.created t := by
  rw [mem_created]
  induction e generalizing t with
  | empty | atom a => cases hi
  | seq e f ihe ihf =>
    rcases List.mem_append.mp hi with hi | hi
    · exact (ihe hi).imp_right fun h => h.trans_le
        ((f.size_le_build _).trans_eq Graph.size_sequence.symm)
    · exact (ihf hi).imp (e.size_le_build t).trans fun h => h.trans_eq Graph.size_sequence.symm
  | alt e f ihe ihf =>
    rcases List.mem_append.mp hi with hi | hi
    · exact (ihe hi).imp_right fun h => h.trans_le ((f.size_le_build _).trans (size_le_alt t e f))
    · exact (ihf hi).imp (e.size_le_build t).trans fun h => h.trans_le (size_le_alt t e f)
  | group b e ih =>
    have he : t.graph.size ≤ i ∧ i < (e.build TokenAtom.build t).value.1.graph.size := by
      cases b with
      | context => exact mem_created.mp hi
      | round | square | curly => exact ih hi
    exact he.imp_right fun h => h.trans_le (size_le_group t b e)

/-- Of the characters that are created for a token those have the code of a context that are
created for one of its contexts. -/
def Coded (t : Table) (e : Expr TokenAtom) : Prop :=
  ∀ i x, t.graph.size ≤ i → (e.build TokenAtom.build t).value.1.graph.code? i = some x →
    (x = .context ↔ i ∈ e.contextNodes t)

/-- One structure behind another: the second leaves the characters of the first alone. -/
theorem Coded.pair (he : e.Coded t) (hf : f.Coded (e.build TokenAtom.build t).value.1)
    (hi : t.graph.size ≤ i)
    (hx : (f.build TokenAtom.build (e.build TokenAtom.build t).value.1).value.1.graph.code? i =
      some x) :
    x = .context ↔
      i ∈ e.contextNodes t ++ f.contextNodes (e.build TokenAtom.build t).value.1 := by
  rw [List.mem_append]
  by_cases hu : i < (e.build TokenAtom.build t).value.1.graph.size
  · obtain ⟨s, hs⟩ := f.exists_built (e.build TokenAtom.build t).value.1
    have hnot : i ∉ f.contextNodes (e.build TokenAtom.build t).value.1 := fun h =>
      hu.not_ge (mem_created.mp (mem_created_of_mem_contextNodes h)).1
    rw [Graph.code?, Graph.kind, hs.adds.node i hu] at hx
    rw [he i x hi hx, or_iff_left hnot]
  · have hnot : i ∉ e.contextNodes t := fun h =>
      hu (mem_created.mp (mem_created_of_mem_contextNodes h)).2
    rw [hf i x (Nat.le_of_not_lt hu) hx, or_iff_right hnot]

theorem coded_build (t : Table) (e : Expr TokenAtom) : e.Coded t := by
  induction e generalizing t with
  | empty =>
    intro i x hi hx
    have hcode : ((empty : Expr TokenAtom).build TokenAtom.build t).value.1.graph.code? =
        t.graph.code? := Graph.code?_add_of_none rfl 0
    rw [hcode, Graph.code?_of_size_le hi] at hx
    cases hx
  | atom a =>
    intro i x hi hx
    have hne := a.code?_build_ne (i := i) (t := t) (by simp [Graph.code?_of_size_le hi])
    refine iff_of_false ?_ List.not_mem_nil
    rintro rfl
    exact hne hx
  | seq e f ihe ihf =>
    intro i x hi hx
    rw [code?_seq] at hx
    exact (ihe t).pair (ihf _) hi hx
  | alt e f ihe ihf =>
    intro i x hi hx
    rw [code?_alt] at hx
    exact (ihe t).pair (ihf _) hi hx
  | group b e ih =>
    intro i x hi hx
    cases b with
    | round => exact ih t i x hi hx
    | square => exact ih t i x hi ((congrFun (Graph.code?_option ..) i).symm.trans hx)
    | curly => exact ih t i x hi ((congrFun (Graph.code?_iteration ..) i).symm.trans hx)
    | context =>
      obtain ⟨s, hs⟩ := e.exists_built t
      have hm := hs.piece.contextMarked fun i => (hs.mem i).trans mem_created.symm
      have hlt : i < (e.build TokenAtom.build t).value.1.graph.size :=
        hm.size ▸ Graph.lt_of_code? hx
      have hmem := mem_created.mpr ⟨hi, hlt⟩
      obtain ⟨_, -, rfl⟩ := Option.map_eq_some_iff.mp ((hm.code?_eq_of_mem hmem).symm.trans hx)
      exact iff_of_true rfl hmem

end Expr

namespace TokenDecl

variable {t : Table} {kind : SymbolKind} {d : TokenDecl} {e : Expr TokenAtom} {i : NodeId}
  {x : Transition}

theorem graph_declareName (kind : SymbolKind) (t : Table) (name : Token) :
    (declareName kind t name).value.1.graph = t.graph := by
  unfold declareName
  split
  · rfl
  · exact Table.graph_declare ..

theorem graph_setBody (t : Table) (s : SymbolId) (name : Token) (e : Expr TokenAtom) :
    (setBody t s name e).value.graph =
      (e.build TokenAtom.build t).value.1.graph.finish (e.build TokenAtom.build t).value.2 := by
  simp only [setBody, Noted.value_bind, Noted.value_ite, ite_self]
  split
  · simp only [Noted.value_bind, Noted.value_ite, Noted.value_pure, ite_self]
    unfold Table.addLiteral
    split <;> rfl
  · rfl

/-- So it is in the finished graph of the token. -/
theorem code?_declare (hd : d.body = some e) (hi : t.graph.size ≤ i)
    (hx : (d.declare kind t).value.graph.code? i = some x) :
    x = .context ↔ i ∈ e.contextNodes (declareName kind t d.name).value.1 := by
  have hname := graph_declareName kind t d.name
  have hgraph : (d.declare kind t).value.graph =
      (setBody (declareName kind t d.name).value.1 (declareName kind t d.name).value.2 d.name
        e).value.graph := by
    simp only [declare, hd, Noted.value_bind]
    cases d.action with
    | some a =>
      simp only [setAction, Noted.value_bind, Noted.value_ite, Noted.value_pure, ite_self]
      rfl
    | none => rfl
  rw [hgraph, graph_setBody, Graph.finish, Graph.code?_redirectExits] at hx
  exact e.coded_build _ i x (hname ▸ hi) hx

end TokenDecl

end Lookahead
