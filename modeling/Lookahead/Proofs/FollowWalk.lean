import Lookahead.Analysis.Follow
import Lookahead.Proofs.First
import Lookahead.Proofs.ProductionWalk

/-!
# The walk for follow sets

The walk of `Table.followFrom` passes all nodes of a production and adds, for each nonterminal it
meets there, what comes right behind it (`Table.Precedes`), and a note where nothing has to come
behind it (`Table.Ends`). Such changes leave first sets alone (`Table.SameFirst`), so it does not
matter in which order they are made.
-/

namespace Lookahead

/-- A symbol without what the analysis finds out about what follows. -/
def Symbol.withoutFollow (s : Symbol) : Symbol :=
  { s with follow := default, followSources := default }

namespace Table

/-- The tables differ at most in what follows. -/
structure SameFirst (t u : Table) : Prop where
  graph : u.graph = t.graph
  listed : u.listed = t.listed
  literals : u.literals = t.literals
  start : u.start = t.start
  eof : u.eof = t.eof
  size : u.symbols.size = t.symbols.size
  symbol : ∀ s, (u.symbol s).withoutFollow = (t.symbol s).withoutFollow

variable {d t u : Table} {a b c : SymbolId} {i j k : NodeId} {p : Option NodeId}

namespace SameFirst

theorem refl (t : Table) : SameFirst t t := ⟨rfl, rfl, rfl, rfl, rfl, rfl, fun _ => rfl⟩

theorem symm (h : SameFirst t u) : SameFirst u t :=
  ⟨h.graph.symm, h.listed.symm, h.literals.symm, h.start.symm, h.eof.symm, h.size.symm,
    fun s => (h.symbol s).symm⟩

theorem trans (h : SameFirst d t) (h' : SameFirst t u) : SameFirst d u :=
  ⟨h'.graph.trans h.graph, h'.listed.trans h.listed, h'.literals.trans h.literals,
    h'.start.trans h.start, h'.eof.trans h.eof, h'.size.trans h.size,
    fun s => (h'.symbol s).trans (h.symbol s)⟩

theorem modifySymbol (t : Table) (a : SymbolId) {f : Symbol → Symbol}
    (hf : ∀ s, (f s).withoutFollow = s.withoutFollow) : SameFirst t (t.modifySymbol a f) :=
  ⟨rfl, listed_modifySymbol, rfl, rfl, rfl, size_modifySymbol, symbol_modifySymbol_congr hf a⟩

theorem foldl {f : Table → SymbolId → Table} (hf : ∀ t a, SameFirst t (f t a))
    (l : List SymbolId) (t : Table) : SameFirst t (l.foldl f t) := by
  induction l generalizing t with
  | nil => exact .refl t
  | cons a l ih => exact (hf t a).trans (ih _)

variable (h : SameFirst t u)
include h

theorem field {α : Type} (p : Symbol → α) (hp : ∀ s, p s.withoutFollow = p s) (s : SymbolId) :
    p (u.symbol s) = p (t.symbol s) := by
  rw [← hp, h.symbol, hp]

theorem kind (s : SymbolId) : (u.symbol s).kind = (t.symbol s).kind :=
  h.field Symbol.kind (fun _ => rfl) s

theorem index (s : SymbolId) : (u.symbol s).index = (t.symbol s).index :=
  h.field Symbol.index (fun _ => rfl) s

theorem root (s : SymbolId) : (u.symbol s).root = (t.symbol s).root :=
  h.field Symbol.root (fun _ => rfl) s

theorem isDeletable : u.isDeletable = t.isDeletable := by
  funext s
  exact h.field Symbol.deletable (fun _ => rfl) s

theorem terminals : u.terminals = t.terminals := congrFun h.listed .terminal

theorem nonterminals : u.nonterminals = t.nonterminals := congrFun h.listed .nonterminal

theorem terminalCount : u.terminalCount = t.terminalCount := congrArg Array.size h.terminals

theorem sameGrammar : SameGrammar t u :=
  ⟨h.size, h.listed, h.literals, h.start, h.eof, h.kind, h.index, h.root, h.graph ▸ .refl _,
    fun i set => by rw [h.graph]⟩

theorem node (i : NodeId) : u.node i = t.node i := congrArg (Graph.node · i) h.graph

theorem nodeDeletable (i : NodeId) : u.nodeDeletable i = t.nodeDeletable i := by
  unfold Table.nodeDeletable
  rw [h.graph, h.isDeletable]

theorem restDeletable (p : Option NodeId) : u.restDeletable p = t.restDeletable p := by
  unfold Table.restDeletable
  rw [h.graph, h.isDeletable]

theorem firstFrom (fuel : Nat) (p : Option NodeId) (m : IndexSet) :
    u.firstFrom fuel p m = t.firstFrom fuel p m := by
  have hr (s : SymbolId) : (u.symbol s).firstReady = (t.symbol s).firstReady :=
    h.field Symbol.firstReady (fun _ => rfl) s
  have hf (s : SymbolId) : (u.symbol s).first = (t.symbol s).first :=
    h.field Symbol.first (fun _ => rfl) s
  induction fuel generalizing p m with
  | zero => simp only [Table.firstFrom, h.terminalCount]
  | succ fuel ih =>
    cases p with
    | none => simp only [Table.firstFrom, h.terminalCount]
    | some i =>
      simp only [Table.firstFrom, h.terminalCount, h.node, h.nodeDeletable, hr, hf, h.index,
        h.root, ih]

theorem firstSet (p : Option NodeId) : u.firstSet p = t.firstSet p := by
  unfold Table.firstSet
  rw [h.firstFrom, h.graph]

end SameFirst

/-- The sets of the nonterminals have the sizes of what they are sets of. -/
structure Sized (t : Table) : Prop where
  follow : ∀ a ∈ t.nonterminals, (t.symbol a).follow.size = t.terminalCount
  sources : ∀ a ∈ t.nonterminals, (t.symbol a).followSources.size = t.nonterminalCount

/-- The node is an occurrence of `b`, and `c` can come right behind it. -/
def Precedes (t : Table) (i : NodeId) (b c : SymbolId) : Prop :=
  t.graph.kind i = .nonterminal b ∧
    (t.firstSet (t.graph.next i)).get (t.symbol c).index = true

/-- The node is an occurrence of `b`, and nothing has to come behind it. -/
def Ends (t : Table) (i : NodeId) (b : SymbolId) : Prop :=
  t.graph.kind i = .nonterminal b ∧ t.restDeletable (t.graph.next i) = true

/-- The walk from `q.2` to `r.2` has added what the nodes it marked give. -/
structure Followed (d : Table) (a : SymbolId) (x : Option NodeId) (q r : Table × IndexSet) :
    Prop where
  same : SameFirst d r.1
  sized : Sized r.1
  walk : IndexSet.Marking d.Link (d.Within a) x q.2 r.2
  follow : ∀ b ∈ d.nonterminals, ∀ c ∈ d.terminals,
    (r.1.symbol b).follow.get (d.symbol c).index = true ↔
      (q.1.symbol b).follow.get (d.symbol c).index = true ∨
        ∃ j, IndexSet.Added q.2 r.2 j ∧ d.Precedes j b c
  sources : ∀ b ∈ d.nonterminals, ∀ n, (r.1.symbol b).followSources.get n = true ↔
    (q.1.symbol b).followSources.get n = true ∨
      n = (d.symbol a).index ∧ ∃ j, IndexSet.Added q.2 r.2 j ∧ d.Ends j b

/-- What is added behind one occurrence of `b` in the production of `a`. -/
def addFollow (t : Table) (a b : SymbolId) (p : Option NodeId) : Table :=
  let t := t.modifySymbol b fun s => { s with follow := s.follow.union (t.firstSet p) }
  if t.restDeletable p then
    t.modifySymbol b fun s =>
      { s with followSources := s.followSources.insert (t.symbol a).index }
  else t

theorem sameFirst_addFollow (t : Table) (a b : SymbolId) (p : Option NodeId) :
    SameFirst t (t.addFollow a b p) := by
  unfold addFollow
  dsimp only
  split
  · refine .trans (.modifySymbol t b fun s => ?_) (.modifySymbol _ b fun s => ?_) <;> rfl
  · refine .modifySymbol t b fun s => ?_
    rfl

theorem follow_addFollow (t : Table) (a b c : SymbolId) (p : Option NodeId) :
    ((t.addFollow a b p).symbol c).follow = if b = c ∧ c < t.symbols.size then
      (t.symbol c).follow.union (t.firstSet p) else (t.symbol c).follow := by
  have h : ((t.modifySymbol b fun s =>
      { s with follow := s.follow.union (t.firstSet p) }).symbol c).follow =
        if b = c ∧ c < t.symbols.size then (t.symbol c).follow.union (t.firstSet p)
        else (t.symbol c).follow := by
    rw [symbol_modifySymbol]
    split <;> rfl
  unfold addFollow
  dsimp only
  split
  · rw [symbol_modifySymbol, ← h]
    split <;> rfl
  · exact h

theorem sources_addFollow (t : Table) (a b c : SymbolId) (p : Option NodeId) :
    ((t.addFollow a b p).symbol c).followSources =
      if (b = c ∧ c < t.symbols.size) ∧ t.restDeletable p = true then
        (t.symbol c).followSources.insert (t.symbol a).index else (t.symbol c).followSources := by
  have hs : SameFirst t (t.modifySymbol b fun s =>
      { s with follow := s.follow.union (t.firstSet p) }) := by
    refine .modifySymbol t b fun s => ?_
    rfl
  have hc : ((t.modifySymbol b fun s =>
      { s with follow := s.follow.union (t.firstSet p) }).symbol c).followSources =
        (t.symbol c).followSources := by
    rw [symbol_modifySymbol]
    split <;> rfl
  unfold addFollow
  dsimp only
  generalize (t.modifySymbol b fun s => { s with follow := s.follow.union (t.firstSet p) }) = u
    at hs hc ⊢
  rw [hs.restDeletable, hs.index]
  by_cases hd : t.restDeletable p = true
  · rw [if_pos hd, symbol_modifySymbol, hs.size]
    simp only [hd, and_true]
    split
    · rw [← hc]
    · exact hc
  · rw [if_neg hd, if_neg fun h => hd h.2]
    exact hc

section

variable {x : Option NodeId} {q r s : Table × IndexSet} {m n : IndexSet}

namespace Followed

theorem refl (hs : SameFirst d t) (hz : Sized t) (m : IndexSet) :
    Followed d a none (t, m) (t, m) where
  same := hs
  sized := hz
  walk := .refl m
  follow b _ c _ := by simp [IndexSet.not_added_self]
  sources b _ n := by simp [IndexSet.not_added_self]

/-- One walk after the other. -/
theorem trans (h : Followed d a x q r) (h' : Followed d a none r s) : Followed d a x q s where
  same := h'.same
  sized := h'.sized
  walk := h.walk.trans h'.walk
  follow b hb c hc := by
    rw [h'.follow b hb c hc, h.follow b hb c hc, or_assoc, ← exists_or]
    refine or_congr_right (exists_congr fun j => ?_)
    rw [IndexSet.added_trans h.walk.mono h'.walk.mono, or_and_right]
  sources b hb n := by
    rw [h'.sources b hb n, h.sources b hb n, or_assoc, ← and_or_left, ← exists_or]
    refine or_congr_right (and_congr_right fun _ => exists_congr fun j => ?_)
    rw [IndexSet.added_trans h.walk.mono h'.walk.mono, or_and_right]

/-- The walk is through with a node when it has been to all it leads to. -/
theorem close (h : Followed d a (some i) q r) (he : ∀ k, d.Link i k → r.2.get k = true) :
    Followed d a none q r :=
  { h with walk := h.walk.close he }

/-- A node that is no occurrence of a nonterminal adds nothing itself. -/
theorem mark (hs : SameFirst d t) (hz : Sized t) (hi : d.Within a i) (hlt : i < m.size)
    (hm : m.get i = false) (hk : ∀ b, d.graph.kind i ≠ .nonterminal b) :
    Followed d a (some i) (t, m) (t, m.insert i) where
  same := hs
  sized := hz
  walk := .mark hlt hm hi
  follow b _ c _ := by simp [IndexSet.added_insert hlt hm, Precedes, hk]
  sources b _ n := by simp [IndexSet.added_insert hlt hm, Ends, hk]

end Followed

/-- The walk meets an occurrence of `b` in the production of `a`. -/
theorem followed_occurrence (hd : d.Formed) (ha : a ∈ d.nonterminals) (hs : SameFirst d t)
    (hz : Sized t) (hi : d.Within a i) (hlt : i < m.size) (hm : m.get i = false)
    (hk : d.graph.kind i = .nonterminal b) :
    Followed d a (some i) (t, m) (t.addFollow a b (d.graph.next i), m.insert i) where
  same := hs.trans (sameFirst_addFollow ..)
  sized := by
    have h := sameFirst_addFollow t a b (d.graph.next i)
    refine ⟨?_, ?_⟩
    · intro c hc
      rw [h.nonterminals] at hc
      rw [follow_addFollow, h.terminalCount]
      split
      · rw [IndexSet.size_union]
        exact hz.follow c hc
      · exact hz.follow c hc
    · intro c hc
      rw [h.nonterminals] at hc
      rw [sources_addFollow, nonterminalCount, h.nonterminals]
      split
      · rw [IndexSet.size_insert]
        exact hz.sources c hc
      · exact hz.sources c hc
  walk := .mark hlt hm hi
  follow c hc e he := by
    simp only [IndexSet.added_insert hlt hm, exists_eq_left, Precedes, hk,
      NodeKind.nonterminal.injEq]
    rw [follow_addFollow, hs.size, hs.firstSet]
    by_cases hbc : b = c
    · subst hbc
      have hlt : (d.symbol e).index < (t.symbol b).follow.size := by
        rw [hz.follow b (hs.nonterminals ▸ hc), hs.terminalCount]
        exact hd.registered.index_lt he
      rw [if_pos ⟨rfl, ((hd.registered.mem .nonterminal b).mp hc).1⟩, IndexSet.get_union hlt]
      simp
    · simp [hbc]
  sources c hc n := by
    simp only [IndexSet.added_insert hlt hm, exists_eq_left, Ends, hk,
      NodeKind.nonterminal.injEq]
    rw [sources_addFollow, hs.size, hs.restDeletable, hs.index]
    by_cases hbc : b = c
    · subst hbc
      have hlt : (d.symbol a).index < (t.symbol b).followSources.size := by
        rw [hz.sources b (hs.nonterminals ▸ hc), nonterminalCount, hs.nonterminals]
        exact hd.registered.index_lt_size (k := .nonterminal) (by simp) ha
      by_cases hr : d.restDeletable (d.graph.next i) = true
      · rw [if_pos ⟨⟨rfl, ((hd.registered.mem .nonterminal b).mp hc).1⟩, hr⟩,
          IndexSet.get_insert_iff hlt]
        simp only [hr, and_true]
        exact or_comm.trans (or_congr_right eq_comm)
      · simp [hr]
    · simp [hbc]

/-- What the walk does at a node, and inside of it. -/
def followNode (a : SymbolId) (fuel : Nat) (t : Table) (i : NodeId) (m : IndexSet) :
    Table × IndexSet :=
  match t.graph.kind i with
  | .nonterminal b => (t.addFollow a b (t.graph.next i), m)
  | .opt sub | .iter sub => (followFrom a fuel (t, m) (some sub)).value
  | .alt sub down => (followFrom a fuel (followFrom a fuel (t, m) (some sub)).value down).value
  | _ => (t, m)

theorem value_followFrom_some (a : SymbolId) (fuel : Nat) (t : Table) (m : IndexSet)
    (i : NodeId) : (followFrom a (fuel + 1) (t, m) (some i)).value =
      if m.get i then (t, m)
      else (followFrom a fuel (followNode a fuel t i (m.insert i)) (t.graph.next i)).value := by
  rw [followFrom]
  split
  · rfl
  · unfold followNode
    simp only [node, Graph.kind]
    cases (t.graph.node i).kind <;> rfl

theorem touring_followFrom (hd : d.Formed) (ha : a ∈ d.nonterminals) :
    Touring d a (fun t => SameFirst d t ∧ Sized t) (Followed d a)
      (fun n q p => (followFrom a n q p).value) where
  same h := ⟨h.same, h.sized⟩
  walk h := h.walk
  refl hs := .refl hs.1 hs.2 _
  trans := .trans
  close := .close
  stop := rfl
  met hm := by rw [value_followFrom_some, if_pos hm]
  step := by
    rintro n t m i ⟨hs, hz⟩ hi hlt hm
    rw [value_followFrom_some, if_neg (by simp [hm]), followNode, hs.graph]
    unfold inside
    cases hk : d.graph.kind i with
    | nonterminal b => exact ⟨_, followed_occurrence hd ha hs hz hi hlt hm hk, rfl⟩
    | _ => exact ⟨_, .mark hs hz hi hlt hm (by simp [hk]), rfl⟩

end

/-! ### All productions -/

/-- The table `u` has what `t` has, and what the productions of `l` give. -/
structure Gains (d : Table) (l : List SymbolId) (t u : Table) : Prop where
  same : SameFirst d u
  sized : Sized u
  follow : ∀ b ∈ d.nonterminals, ∀ c ∈ d.terminals,
    (u.symbol b).follow.get (d.symbol c).index = true ↔
      (t.symbol b).follow.get (d.symbol c).index = true ∨
        ∃ a ∈ l, ∃ j, d.Within a j ∧ d.Precedes j b c
  sources : ∀ b ∈ d.nonterminals, ∀ n, (u.symbol b).followSources.get n = true ↔
    (t.symbol b).followSources.get n = true ∨
      ∃ a ∈ l, n = (d.symbol a).index ∧ ∃ j, d.Within a j ∧ d.Ends j b

theorem gains_followProduction (hd : d.Formed) (hs : SameFirst d t) (hz : Sized t)
    (ha : a ∈ d.nonterminals) : Gains d [a] t (t.followProduction a).value := by
  have h := (touring_followFrom hd ha).production hd ⟨hs, hz⟩ (by rw [hs.graph])
  simp only [followProduction, Noted.value_bind, Noted.value_pure, hs.root]
  generalize (followFrom a _ _ _).value = r at h ⊢
  have hadded (j : NodeId) := added_iff_within h.1.walk h.2 (j := j) fun k => IndexSet.get_empty ..
  refine ⟨h.1.same, h.1.sized, fun b hb c hc => ?_, fun b hb n => ?_⟩
  · rw [h.1.follow b hb c hc]
    simp only [hadded, List.mem_singleton, exists_eq_left]
  · rw [h.1.sources b hb n]
    simp only [hadded, List.mem_singleton, exists_eq_left]

theorem gains_foldl (hd : d.Formed) (hs : SameFirst d t) (hz : Sized t) {l : List SymbolId}
    (hl : ∀ a ∈ l, a ∈ d.nonterminals) :
    Gains d l t (l.foldl (fun t a => (t.followProduction a).value) t) := by
  induction l generalizing t with
  | nil => exact ⟨hs, hz, by simp, by simp⟩
  | cons a l ih =>
    have h := gains_followProduction hd hs hz (hl a (by simp))
    have h' := ih h.same h.sized fun b hb => hl b (by simp [hb])
    refine ⟨h'.same, h'.sized, fun b hb c hc => ?_, fun b hb n => ?_⟩
    · rw [List.foldl_cons, h'.follow b hb c hc, h.follow b hb c hc]
      simp only [List.mem_cons, exists_eq_or_imp, List.not_mem_nil, or_false, exists_eq_left,
        or_assoc]
    · rw [List.foldl_cons, h'.sources b hb n, h.sources b hb n]
      simp only [List.mem_cons, exists_eq_or_imp, List.not_mem_nil, or_false, exists_eq_left,
        or_assoc]

/-- The follow sets before they are completed. -/
def directFollow (t : Table) : Table :=
  (t.nonterminals.toList.foldlM followProduction t.resetFollow).value

theorem value_computeFollow (t : Table) : t.computeFollow.value =
    t.directFollow.nonterminals.toList.foldl completeFollow t.directFollow := rfl

/-- What comes behind occurrences of `b`, or at the end of input. -/
def FollowsDirectly (t : Table) (b c : SymbolId) : Prop :=
  t.start = some b ∧ c = t.eof ∨ ∃ a ∈ t.nonterminals, ∃ j, t.Within a j ∧ t.Precedes j b c

/-- The nonterminal `b` can end a form that `a` produces. -/
def EndsIn (t : Table) (b a : SymbolId) : Prop := ∃ j, t.Within a j ∧ t.Ends j b

theorem sameFirst_resetFollow (t : Table) : SameFirst t t.resetFollow := by
  have h : SameFirst t (t.nonterminals.toList.foldl (fun u a => u.modifySymbol a fun s =>
      { s with
        follow := .empty t.terminalCount
        followSources := .empty t.nonterminalCount }) t) := by
    refine .foldl (fun u a => .modifySymbol u a fun s => ?_) _ t
    rfl
  unfold resetFollow
  dsimp only
  split
  · refine h.trans (.modifySymbol _ _ fun s => ?_)
    rfl
  · exact h

theorem symbol_resetFollow (ht : t.Formed) (hb : b ∈ t.nonterminals) :
    (t.resetFollow.symbol b).follow = (if t.start = some b then
      (IndexSet.empty t.terminalCount).insert (t.symbol t.eof).index else .empty t.terminalCount) ∧
    (t.resetFollow.symbol b).followSources = .empty t.nonterminalCount := by
  have hlt := ((ht.registered.mem .nonterminal b).mp hb).1
  have hsym : (t.nonterminals.toList.foldl (fun u a => u.modifySymbol a fun s =>
      { s with
        follow := .empty t.terminalCount
        followSources := .empty t.nonterminalCount }) t).symbol b =
      { t.symbol b with
        follow := .empty t.terminalCount
        followSources := .empty t.nonterminalCount } := by
    rw [symbol_foldl_modifySymbol, if_pos ⟨by simpa using hb, hlt⟩]
    exact fun _ => rfl
  have hsize : (t.nonterminals.toList.foldl (fun u a => u.modifySymbol a fun s =>
      { s with
        follow := .empty t.terminalCount
        followSources := .empty t.nonterminalCount }) t).symbols.size = t.symbols.size := by
    refine (SameFirst.foldl (fun u a => .modifySymbol u a fun s => ?_) _ t).size
    rfl
  unfold resetFollow
  dsimp only
  generalize t.nonterminals.toList.foldl _ t = u at hsym hsize ⊢
  cases hs : t.start with
  | none => simp [hsym]
  | some a =>
    dsimp only
    rw [symbol_modifySymbol, hsize]
    by_cases hab : a = b
    · simp [hab, hlt, hsym]
    · simp [hab, hsym]

theorem Formed.gains_directFollow (ht : t.Formed) :
    Gains t t.nonterminals.toList t.resetFollow t.directFollow := by
  unfold directFollow
  rw [Noted.value_foldlM]
  have h := sameFirst_resetFollow t
  refine gains_foldl ht h ⟨fun a ha => ?_, fun a ha => ?_⟩ (by simp)
  · rw [(symbol_resetFollow ht (h.nonterminals ▸ ha)).1, h.terminalCount]
    split <;> simp
  · rw [(symbol_resetFollow ht (h.nonterminals ▸ ha)).2, IndexSet.size_empty]
    exact congrArg Array.size h.nonterminals.symm

theorem Formed.follow_directFollow (ht : t.Formed) (hb : b ∈ t.nonterminals)
    (hc : c ∈ t.terminals) :
    (t.directFollow.symbol b).follow.get (t.symbol c).index = true ↔ t.FollowsDirectly b c := by
  rw [ht.gains_directFollow.follow b hb c hc, (symbol_resetFollow ht hb).1]
  unfold FollowsDirectly
  simp only [Array.mem_toList_iff]
  refine or_congr_left ?_
  split
  · rename_i hs
    have hlt := ht.registered.index_lt ht.registered.eof
    rw [IndexSet.get_insert_iff (by simpa using hlt)]
    simp only [hs, IndexSet.get_empty, Bool.false_eq_true, or_false, true_and]
    refine ⟨?_, ?_⟩
    · intro h
      exact (ht.registered.index_inj (k := .terminal) (by decide) ht.registered.eof hc h).symm
    · rintro rfl
      rfl
  · rename_i hs
    simp [hs]

theorem Formed.sources_directFollow (ht : t.Formed) (ha : a ∈ t.nonterminals)
    (hb : b ∈ t.nonterminals) :
    (t.directFollow.symbol b).followSources.get (t.symbol a).index = true ↔ t.EndsIn b a := by
  rw [ht.gains_directFollow.sources b hb, (symbol_resetFollow ht hb).2]
  simp only [Array.mem_toList_iff, IndexSet.get_empty, Bool.false_eq_true, false_or]
  refine ⟨?_, ?_⟩
  · rintro ⟨e, he, hae, h⟩
    obtain rfl := ht.registered.index_inj (k := .nonterminal) (by decide) ha he hae
    exact h
  · exact fun h => ⟨a, ha, rfl, h⟩

end Table

end Lookahead
