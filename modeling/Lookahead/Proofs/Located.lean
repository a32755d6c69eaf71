import Lookahead.Proofs.Lexemes
import Lookahead.Proofs.Unique
import Mathlib.Data.Prod.Lex

/-!
# Where resolvers stand

Lines and columns only grow along a text, and the `I` that a resolver starts with takes a column. So
no two resolvers of a text start at the same line and column (`Token.pairwise_read`), and as each
becomes one node (`Production.resolvers_declare`), the location of a resolver tells which node of
the graph it is (`Grammar.resolver_of_location`).
-/

namespace Lookahead

open Table

/-! ### Tokens -/

/-- Places in the order of a text, apart from what takes no room on the screen. -/
def Place.rank (p : Place) : ℕ ×ₗ ℕ := toLex (p.line, p.col)

namespace Place

variable (p : Place) (c : Char) (cs : List Char)

theorem rank_le_step : p.rank ≤ (p.step c).rank := by
  simp only [rank, Prod.Lex.toLex_le_toLex]
  unfold step
  split
  · exact .inl (Nat.lt_succ_self _)
  · split <;> exact .inr ⟨rfl, Nat.le_add_right _ _⟩

theorem rank_le_advance : p.rank ≤ (p.advance cs).rank := by
  induction cs generalizing p with
  | nil => exact le_rfl
  | cons c cs ih => exact (p.rank_le_step c).trans (ih (p.step c))

/-- A text that starts with a letter `I` takes room. -/
theorem rank_lt_advance : p.rank < (p.advance ('I' :: cs)).rank := by
  have hstep : p.step 'I' = ⟨p.line, p.col + 1, p.byte + 1⟩ := rfl
  refine lt_of_lt_of_le ?_ ((p.step 'I').rank_le_advance cs)
  simp only [rank, hstep, Prod.Lex.toLex_lt_toLex]
  exact .inr ⟨trivial, Nat.lt_succ_self _⟩

end Place

namespace Token

variable {cs : List Char} {t u : Token}

theorem exists_of_looks_resolver {text : List Char} (h : Looks .resolver text) :
    ∃ ds, text = 'I' :: ds := by
  cases h' : text with
  | nil => exact absurd h' h.ne_nil
  | cons c ds =>
    generalize hk : Kind.resolver = k at h
    cases h with
    | punctuation hp =>
      unfold punctuation? at hp
      split at hp <;> cases hp <;> cases hk
    | word =>
      unfold wordKind at hk
      split at hk <;> cases hk
    | resolver => exact ⟨ds, by rw [← (List.cons.inj h').1]⟩
    | _ => cases hk

/-- Behind a resolver all tokens start further on. -/
theorem ranks_readFrom (fuel : Nat) (p : Place) (cs : List Char) :
    (∀ t ∈ (readFrom fuel p cs).tokens, p.rank ≤ t.start.rank) ∧
      (readFrom fuel p cs).tokens.Pairwise fun t u =>
        t.kind = .resolver → t.start.rank < u.start.rank := by
  induction fuel generalizing p cs with
  | zero => exact ⟨List.forall_mem_nil _, .nil⟩
  | succ fuel ih =>
    cases cs with
    | nil => exact ⟨List.forall_mem_nil _, .nil⟩
    | cons c cs =>
      rw [readFrom]
      · split
        · exact ⟨List.forall_mem_nil _, .nil⟩
        · rename_i kind n hscan
          obtain ⟨text, rest, hcs, rfl, hs⟩ := scan_eq_ok hscan
          obtain ⟨hle, hpair⟩ := ih (p.advance text) rest
          rw [hcs]
          simp only [List.take_left, List.drop_left]
          have hle' : ∀ t ∈ (readFrom fuel (p.advance text) rest).tokens, p.rank ≤ t.start.rank :=
            fun t ht => (p.rank_le_advance text).trans (hle t ht)
          cases hs with
          | layout => exact ⟨hle', hpair⟩
          | token hl =>
            refine ⟨List.forall_mem_cons.mpr ⟨le_rfl, hle'⟩, List.pairwise_cons.mpr ⟨?_, hpair⟩⟩
            rintro u hu rfl
            obtain ⟨ds, rfl⟩ := exists_of_looks_resolver hl
            exact (p.rank_lt_advance ds).trans_le (hle u hu)
      all_goals simp

theorem location_ne (h : t.start.rank < u.start.rank) : t.location ≠ u.location := by
  intro he
  simp only [location, line, Location.mk.injEq, Nat.add_right_cancel_iff] at he
  rw [Place.rank, Place.rank, he.1, he.2] at h
  exact lt_irrefl _ h

/-- No token behind a resolver is located where the resolver is. -/
theorem pairwise_read (source : String) : (read source).tokens.Pairwise fun t u =>
    t.kind = .resolver → t.location ≠ u.location :=
  (ranks_readFrom _ _ _).2.imp fun h hk => location_ne (h hk)

end Token

/-! ### Right-hand sides -/

namespace Expr

/-- The resolvers of the expression from left to right. -/
def resolvers : Expr Atom → List Token
  | empty => []
  | atom (.resolver t) => [t]
  | atom _ => []
  | seq e f | alt e f => e.resolvers ++ f.resolvers
  | group _ e => e.resolvers

end Expr

theorem Writes.resolvers {l : Level} {e : Expr Atom} {ts : List Token} (h : Writes l e ts) :
    e.resolvers.Sublist ts ∧ ∀ t ∈ e.resolvers, t.kind = .resolver := by
  induction h with
  | symbol | any | sync | action | empty => exact ⟨List.nil_sublist _, nofun⟩
  | group _ _ _ ih => exact ⟨.cons _ (ih.1.trans (List.sublist_append_left ..)), ih.2⟩
  | factor _ ih | term _ ih => exact ih
  | resolved ht _ ih =>
    exact ⟨ih.1.cons_cons _, List.forall_mem_cons.mpr ⟨ht, ih.2⟩⟩
  | seq _ _ _ ihe ihf =>
    exact ⟨ihe.1.append ihf.1, List.forall_mem_append.mpr ⟨ihe.2, ihf.2⟩⟩
  | alt _ _ _ ihe ihf =>
    exact ⟨ihe.1.append (.cons _ ihf.1), List.forall_mem_append.mpr ⟨ihe.2, ihf.2⟩⟩

theorem Production.Written.resolvers {p : Production} {ts : List Token} (h : p.Written ts) :
    p.body.resolvers.Sublist ts ∧ ∀ t ∈ p.body.resolvers, t.kind = .resolver := by
  obtain ⟨-, -, -, -, hb, -⟩ := h
  obtain ⟨hs, hk⟩ := hb.resolvers
  refine ⟨.cons _ (.trans ?_ (List.sublist_append_right ..)), hk⟩
  exact .trans (.cons _ (hs.trans (List.sublist_append_left ..))) (List.sublist_append_right ..)

/-- The resolvers of all productions, as they stand in the text. -/
theorem Definition.Written.resolvers {d : Definition} {ts : List Token} (h : d.Written ts) :
    (d.sections.productions.flatMap fun p => p.body.resolvers).Sublist ts ∧
      ∀ t ∈ d.sections.productions.flatMap fun p => p.body.resolvers, t.kind = .resolver := by
  obtain ⟨front, start, parts, stop, rest, rfl, -, -, hparts⟩ := h
  suffices hflat :
      (d.sections.productions.flatMap fun p => p.body.resolvers).Sublist parts.flatten ∧
      ∀ t ∈ d.sections.productions.flatMap fun p => p.body.resolvers, t.kind = .resolver from
    ⟨((hflat.1.trans (List.sublist_append_left ..)).cons start).trans
      (List.sublist_append_right ..), hflat.2⟩
  generalize d.sections.productions = ps at hparts ⊢
  induction hparts with
  | nil => exact ⟨.slnil, nofun⟩
  | cons hp _ ih =>
    obtain ⟨hs, hk⟩ := hp.resolvers
    exact ⟨hs.append ih.1, List.forall_mem_append.mpr ⟨hk, ih.2⟩⟩

/-! ### Nodes -/

/-- Where the resolver is, if the node is one. -/
def Look.resolver? (l : Look) : Option Location :=
  match l.kind with
  | .resolver => some (match l.span with
    | some s => ⟨s.line, s.col⟩
    | none => ⟨l.line, 0⟩)
  | _ => none

namespace Graph

variable {g h : Graph} {i j n m k : Nat} {L : List Location}

/-- The locations of the resolvers among the `m` nodes from `n` on. -/
def resolversIn (g : Graph) (n m : Nat) : List Location :=
  (List.range' n m).filterMap fun i => (g.look i).resolver?

/-- The locations of all resolvers, in the order of the nodes. -/
def resolvers (g : Graph) : List Location := g.resolversIn 0 g.size

theorem resolversIn_one : g.resolversIn n 1 = (g.look n).resolver?.toList := by
  simp only [resolversIn, List.range'_one, List.filterMap_cons, List.filterMap_nil]
  cases (g.look n).resolver? <;> rfl

theorem resolversIn_add :
    g.resolversIn n (m + k) = g.resolversIn n m ++ g.resolversIn (n + m) k := by
  rw [resolversIn, ← List.range'_append_1, List.filterMap_append]
  rfl

theorem resolversIn_congr (hl : ∀ i, n ≤ i → i < n + m → h.look i = g.look i) :
    h.resolversIn n m = g.resolversIn n m := by
  refine List.filterMap_congr fun i hi => ?_
  obtain ⟨hle, hlt⟩ := List.mem_range'_1.mp hi
  rw [hl i hle hlt]

/-- Nodes behind others that are no resolvers make no difference. -/
theorem resolversIn_eq (hm : g.resolversIn n m = L)
    (hk : ∀ i, n + m ≤ i → i < n + m + k → (g.look i).resolver? = none) :
    g.resolversIn n (m + k) = L := by
  have hnil : g.resolversIn (n + m) k = [] := by
    refine List.filterMap_eq_nil_iff.mpr fun i hi => ?_
    obtain ⟨hle, hlt⟩ := List.mem_range'_1.mp hi
    exact hk i hle hlt
  rw [resolversIn_add, hm, hnil, List.append_nil]

theorem resolvers_congr (hs : h.size = g.size) (hl : ∀ i, h.look i = g.look i) :
    h.resolvers = g.resolvers := by
  rw [resolvers, hs]
  exact resolversIn_congr fun i _ _ => hl i

theorem resolver?_look (hk : g.kind i = .resolver) :
    (g.look i).resolver? = some (g.node i).location := by
  cases h : (g.node i).span <;>
    simp [look, hk, h, NodeKind.bare, Look.resolver?, Node.location]

theorem lt_of_kind_resolver (hk : g.kind i = .resolver) : i < g.size := by
  by_contra hi
  rw [kind, node_of_size_le (Nat.le_of_not_lt hi)] at hk
  cases hk

/-- Where all resolvers have locations of their own, these tell them apart. -/
theorem resolver_of_location (hg : g.resolvers.Nodup) (hi : g.kind i = .resolver)
    (hj : g.kind j = .resolver) (h : (g.node i).location = (g.node j).location) : i = j := by
  have hmem {i : Nat} (hi : g.kind i = .resolver) : i ∈ List.range' 0 g.size := by
    simpa using lt_of_kind_resolver hi
  have : Std.Symm fun i j : Nat => ∀ l, (g.look i).resolver? = some l →
      ∀ m, (g.look j).resolver? = some m → l ≠ m :=
    ⟨fun _ _ hij l hl m hm => (hij m hm l hl).symm⟩
  by_contra hne
  exact (List.pairwise_filterMap.mp hg).forall (hmem hi) (hmem hj) hne _
    (resolver?_look hi) _ (resolver?_look hj) h

end Graph

namespace Look

theorem resolver?_of_kind {l : Look} (hk : l.kind ≠ .resolver) : l.resolver? = none := by
  unfold resolver?
  split
  · exact absurd ‹_› hk
  · rfl

end Look

namespace Expr

variable {t : Table} {e : Expr Atom} {n : Nat}

/-- The resolvers among the nodes of an expression are its own. -/
theorem Stands.resolversIn (h : e.Stands t n) :
    t.graph.resolversIn n e.size = e.resolvers.map Token.location := by
  induction e generalizing n with
  | empty =>
    rw [size, Graph.resolversIn_one, show t.graph.look n = _ from h]
    rfl
  | atom a =>
    rw [size, Graph.resolversIn_one]
    cases a with
    | symbol weak name attributes =>
      obtain ⟨s, -, hl⟩ := h
      rw [hl, Look.resolver?_of_kind]
      · rfl
      · cases (t.symbol s).kind <;> cases weak <;> simp [Atom.nodeKind]
    | _ =>
      rw [show t.graph.look n = _ from h]
      rfl
  | seq e f ihe ihf =>
    rw [size, Graph.resolversIn_add, ihe h.1, ihf h.2]
    exact (List.map_append ..).symm
  | alt e f ihe ihf =>
    obtain ⟨he, hf, hg⟩ := h
    refine Graph.resolversIn_eq ?_ fun i hi hi' => ?_
    · rw [Graph.resolversIn_add, ihe he, ihf hf]
      exact (List.map_append ..).symm
    · exact Look.resolver?_of_kind (by rw [hg i (by omega) (by rw [size]; omega)]; simp)
  | group b e ih =>
    obtain ⟨he, ho, hi⟩ := h
    have hlast (hk : (t.graph.look (n + e.size)).kind ≠ .resolver) :
        t.graph.resolversIn n (e.size + 1) = e.resolvers.map Token.location := by
      refine Graph.resolversIn_eq (ih he) fun i hi hi' => ?_
      obtain rfl : i = n + e.size := by omega
      exact Look.resolver?_of_kind hk
    cases b with
    | round | context => exact ih he
    | square => exact hlast (by rw [ho rfl]; simp)
    | curly => exact hlast (by rw [hi rfl]; simp)

end Expr

/-! ### Tables -/

namespace Production

/-- A production adds its own resolvers. -/
theorem resolvers_declare {t : Table} (ht : Grown t) {p : Production} (hp : p.Worded) :
    (p.declare t).value.graph.resolvers =
      t.graph.resolvers ++ p.body.resolvers.map Token.location := by
  obtain ⟨hc, he⟩ := continues_enter t p
  have hu := ht.of_continues hc he
  obtain ⟨hm, -⟩ := p.body.makes_build hu.registered hu.allows
  obtain ⟨-, hs⟩ := p.body.stands_build hu.registered hu.allows hp.body
  have hsize := Expr.size_of_makes hm
  have hold := hm.look
  rw [value_declare]
  generalize (p.body.build Atom.build (enter t p).1).value = q at hs hsize hold
  have hclose : (close (enter t p).2 q).graph.resolvers = q.1.graph.resolvers :=
    Graph.resolvers_congr Graph.size_redirectExits fun _ => Graph.look_finish
  rw [hclose, Graph.resolvers, hsize, Graph.resolversIn_add, Nat.zero_add, hs.resolversIn, he]
  rw [he] at hold
  rw [Graph.resolversIn_congr fun i _ hi => hold i (by omega)]
  rfl

end Production

namespace Table

theorem resolvers_productions {t : Table} (ht : Grown t) {l : List Production}
    (hl : ∀ p ∈ l, p.Worded) : (l.foldlM Production.declare t).value.graph.resolvers =
      t.graph.resolvers ++ (l.flatMap fun p => p.body.resolvers).map Token.location := by
  rw [Noted.value_foldlM]
  induction l generalizing t with
  | nil => simp
  | cons p l ih =>
    obtain ⟨hp, hl⟩ := List.forall_mem_cons.mp hl
    rw [List.foldl_cons, ih (p.grown_declare ht) hl, Production.resolvers_declare ht hp]
    simp

/-- The nodes are the same but for sets and links. -/
structure SameLooks (t u : Table) : Prop where
  size : u.graph.size = t.graph.size
  look : ∀ i, u.graph.look i = t.graph.look i

variable {t u v : Table}

namespace SameLooks

theorem of_graph (h : u.graph = t.graph) : SameLooks t u := ⟨by rw [h], fun _ => by rw [h]⟩

theorem refl (t : Table) : SameLooks t t := of_graph rfl

theorem trans (h : SameLooks t u) (h' : SameLooks u v) : SameLooks t v :=
  ⟨h'.size.trans h.size, fun i => (h'.look i).trans (h.look i)⟩

theorem setKind {i : NodeId} {k : NodeKind} (hk : k.bare = (t.graph.kind i).bare) :
    SameLooks t (t.onGraph fun g => g.setKind i k) :=
  ⟨Graph.size_setKind .., fun _ => Graph.look_setKind hk⟩

theorem foldl {α : Type} {f : Table → α → Table} (hf : ∀ t a, SameLooks t (f t a)) (l : List α)
    (t : Table) : SameLooks t (l.foldl f t) := by
  induction l generalizing t with
  | nil => exact refl t
  | cons a l ih => exact (hf t a).trans (ih _)

theorem resolvers (h : SameLooks t u) : u.graph.resolvers = t.graph.resolvers :=
  Graph.resolvers_congr h.size h.look

end SameLooks

theorem sameLooks_fillWildcards (t : Table) : SameLooks t t.fillWildcards := by
  refine ⟨(alike_fillWildcards t).size, fun i => ?_⟩
  have hnode := t.node_fillWildcards i
  simp only [Graph.look, Graph.kind, hnode]
  split
  · rename_i hk
    rw [hk]
    rfl
  · rfl

theorem sameLooks_endProductions (t : Table) : SameLooks t t.endProductions.value := by
  have hadd : SameLooks t { (t.addSymbol .terminal invalidName 0).1 with
      invalid := some (t.addSymbol .terminal invalidName 0).2 } := .of_graph graph_addSymbol
  refine (hadd.trans (sameLooks_fillWildcards _)).trans ?_
  refine SameLooks.foldl (fun t p => ?_) _ _
  exact .of_graph rfl

theorem sameLooks_setStart (t : Table) (name last : Token) :
    SameLooks t (setStart t name last).value := by
  obtain ⟨s, hs⟩ := exists_setStart t name last
  exact .of_graph (by rw [hs])

theorem sameLooks_computeDeletable (t : Table) : SameLooks t t.computeDeletable.value := by
  have hmark (t : Table) (a : SymbolId) : SameLooks t (t.markDeletable a) := by
    simp only [markDeletable]
    split <;> exact .of_graph rfl
  have hclose (fuel : Nat) : ∀ t, SameLooks t (closeDeletable fuel t) := by
    induction fuel with
    | zero => exact .refl
    | succ fuel ih =>
      intro t
      have hround : SameLooks t t.deletableRound := .foldl hmark _ t
      simp only [closeDeletable]
      split
      · exact hround
      · exact hround.trans (ih _)
  exact hclose _ t

theorem sameLooks_computeFirst (t : Table) : SameLooks t t.computeFirst.value := by
  rw [computeFirst, Noted.value_foldlM]
  refine SameLooks.trans (SameLooks.foldl (fun t a => ?_) _ t) (.foldl (fun t a => ?_) _ _)
  · exact .of_graph rfl
  · exact .of_graph rfl

theorem sameLooks_computeWildcards (t : Table) : SameLooks t t.computeWildcards.value := by
  refine computeWildcards_induct .refl (fun _ _ _ => .trans) (fun t i s => ?_) t
  unfold restrict
  split
  · rename_i hk
    exact .setKind (by rw [hk]; rfl)
  · exact .refl t

theorem sameLooks_computeSyncs (t : Table) : SameLooks t t.computeSyncs.value :=
  computeSyncs_induct .refl (fun _ _ _ => .trans)
    (fun _ _ _ _ _ hk => ⟨Graph.size_setKind .., fun _ => Graph.look_setKind (by rw [hk]; rfl)⟩)
    (fun _ _ => .of_graph rfl) t

/-- Computing the sets leaves alone how nodes look. -/
theorem Formed.sameLooks_computeSets (ht : t.Formed) : SameLooks t t.computeSets.value := by
  simp only [computeSets, Noted.value_bind, Noted.value_pure]
  have h₁ := t.sameDeclared_computeDeletable.trans (sameDeclared_computeFirst _)
  have h₂ := redrawn_computeWildcards t.computeDeletable.value.computeFirst.value
  have h₁₂ := h₁.trans (.of_symbols h₂.outline h₂.same.symbols)
  have h₃ := (h₁₂.formed ht).sameFirst_computeFollow
  exact ((((t.sameLooks_computeDeletable.trans (sameLooks_computeFirst _)).trans
    (sameLooks_computeWildcards _)).trans (.of_graph h₃.graph))).trans (sameLooks_computeSyncs _)

end Table

/-- No two resolvers of a definition that has been read from a text are located at one place. -/
theorem Definition.nodup_resolvers {source : String} {d : Definition}
    (hd : Definition.read source = .ok d) : d.table.value.graph.resolvers.Nodup := by
  have hsame := ((sameLooks_setStart d.sections.declare.value d.name d.ending).trans
    (sameLooks_endProductions _)).resolvers
  obtain ⟨base, hb, -, hfront⟩ := exists_front d.sections
  have hdeclare : d.sections.declare.value.graph.resolvers =
      (d.sections.productions.flatMap fun p => p.body.resolvers).map Token.location := by
    rw [show d.sections.declare.value = _ from hfront d.sections.productions,
      resolvers_productions hb (Definition.worded_of_read hd).productions]
    rfl
  obtain ⟨hsub, hkind⟩ := (Definition.written_read hd).resolvers
  rw [show d.table.value.graph.resolvers = _ from hsame, hdeclare, List.Nodup, List.pairwise_map]
  exact ((Token.pairwise_read source).sublist hsub).imp_of_mem fun ht _ h => h (hkind _ ht)

namespace Grammar

variable {source : String} {cfg : Config} {log : Log} {g : Grammar} {i j : NodeId}

/-- The location of a resolver tells which node it is. -/
theorem resolver_of_location (hg : (Grammar.parse source cfg log).2 = .ok g)
    (hi : g.table.graph.kind i = .resolver) (hj : g.table.graph.kind j = .resolver)
    (h : (g.table.node i).location = (g.table.node j).location) : i = j := by
  obtain ⟨d, hd, rfl⟩ := exists_read hg
  exact Graph.resolver_of_location (Definition.nodup_resolvers hd) hi hj h

end Grammar

end Lookahead
