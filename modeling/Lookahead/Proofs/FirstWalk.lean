import Lookahead.Analysis.First
import Lookahead.Proofs.Deletable

/-!
# The walk for first sets

The walk of `Table.firstFrom` visits the nodes that `Table.Reaches` leads to from where it starts,
and collects what each of them contributes (`Table.Emits`). A node met again adds nothing, since
what lies behind it has been collected or is about to be (`Table.Gathered`).
-/

namespace Lookahead

namespace Table

variable {t u : Table} {a b c : SymbolId} {i j k : NodeId} {p : Option NodeId}

/-! ### Numbers of terminals -/

theorem Registered.index_lt (ht : Registered t) (hb : b ∈ t.terminals) :
    (t.symbol b).index < t.terminalCount :=
  ht.index_lt_size (k := .terminal) (by decide) hb

theorem Registered.exists_terminal (ht : Registered t) {n : Nat} (hn : n < t.terminalCount) :
    ∃ b ∈ t.terminals, (t.symbol b).index = n :=
  ht.exists_index (k := .terminal) (by decide) hn

/-- No two symbols that a production can mention as terminals have the number of one terminal. -/
theorem Formed.index_eq_iff (ht : t.Formed) (hb : b ∈ t.terminals)
    (hc : c < t.symbols.size ∧ (t.symbol c).kind ≠ .nonterminal) :
    (t.symbol c).index = (t.symbol b).index ↔ c = b := by
  refine ⟨fun h => ?_, fun h => h ▸ rfl⟩
  cases hk : (t.symbol c).kind with
  | nonterminal => exact absurd hk hc.2
  | pragma =>
    have h₁ := ht.pragma c ((ht.registered.mem .pragma c).mpr ⟨hc.1, hk⟩)
    have h₂ := ht.registered.index_lt hb
    omega
  | terminal =>
    have hc := (ht.registered.mem .terminal c).mpr ⟨hc.1, hk⟩
    exact ht.registered.index_inj (k := .terminal) (by decide) hc hb h

/-! ### The walk -/

/-- What a node itself contributes. -/
def Emits (t : Table) (i : NodeId) (b : SymbolId) : Prop :=
  match t.graph.kind i with
  | .terminal c | .weak c => c = b
  | .any set => set.get (t.symbol b).index = true
  | .nonterminal a =>
    (t.symbol a).firstReady = true ∧ (t.symbol a).first.get (t.symbol b).index = true
  | _ => False

/-- Where the walk goes on from a node. -/
inductive Edge (t : Table) (i j : NodeId) : Prop
  | sub (h : (t.graph.kind i).sub? = some j)
  | down (h : (t.graph.kind i).down? = some j)
  | root {a : SymbolId} (hk : t.graph.kind i = .nonterminal a)
      (ha : (t.symbol a).firstReady = false) (h : (t.symbol a).root = some j)
  | next (hd : t.nodeDeletable i = true) (h : t.graph.next i = some j)

def Reaches (t : Table) : NodeId → NodeId → Prop := Relation.ReflTransGen t.Edge

/-- The node belongs to some production. -/
def Inside (t : Table) (i : NodeId) : Prop := ∃ a, t.Within a i

theorem Inside.edge (hi : t.Inside i) (h : t.Edge i j) : t.Inside j := by
  obtain ⟨a, hi⟩ := hi
  cases h with
  | sub h => exact ⟨a, hi.sub h⟩
  | down h => exact ⟨a, hi.down h⟩
  | root _ _ h => exact ⟨_, .root h⟩
  | next _ h => exact ⟨a, hi.next h⟩

theorem Inside.lt (ht : t.Formed) (hi : t.Inside i) : i < t.graph.size := by
  obtain ⟨a, hi⟩ := hi
  obtain ⟨r, s, -, hs, hi⟩ := ht.within_iff.mp hi
  exact hs.lt i hi

/-- The walk has gone from the marks `m` to the marks `r.2`, as `IndexSet.Marking` says, and has
collected the terminals `r.1`. -/
structure Gathered (t : Table) (P : NodeId → Prop) (x : Option NodeId) (m : IndexSet)
    (r : IndexSet × IndexSet) : Prop where
  walk : IndexSet.Marking t.Edge P x m r.2
  length : r.1.size = t.terminalCount
  emits : ∀ b ∈ t.terminals, r.1.get (t.symbol b).index = true ↔
    ∃ j, IndexSet.Added m r.2 j ∧ t.Emits j b

namespace Gathered

variable {P Q : NodeId → Prop} {x : Option NodeId} {m n l s r : IndexSet}

theorem refl (m : IndexSet) : t.Gathered P none m (.empty t.terminalCount, m) where
  walk := .refl m
  length := IndexSet.size_empty _
  emits b _ := by simp [IndexSet.not_added_self]

theorem imp (h : t.Gathered P x m (s, n)) (hPQ : ∀ j, P j → Q j) : t.Gathered Q x m (s, n) :=
  { h with walk := h.walk.imp hPQ }

/-- One walk after the other. -/
theorem append (ht : Registered t) (h : t.Gathered P x m (s, n))
    (h' : t.Gathered P none n (r, l)) : t.Gathered P x m (s.union r, l) where
  walk := h.walk.trans h'.walk
  length := IndexSet.size_union.trans h.length
  emits b hb := by
    have hlt : (t.symbol b).index < s.size := h.length.symm ▸ ht.index_lt hb
    rw [IndexSet.get_union hlt, Bool.or_eq_true, h.emits b hb, h'.emits b hb, ← exists_or]
    refine exists_congr fun j => ?_
    rw [IndexSet.added_trans h.walk.mono h'.walk.mono, or_and_right]

/-- A new node is marked, and contributes what it has itself. -/
theorem mark (hi : i < m.size) (hm : m.get i = false) (hP : P i) (hs : s.size = t.terminalCount)
    (he : ∀ b ∈ t.terminals, s.get (t.symbol b).index = true ↔ t.Emits i b) :
    t.Gathered P (some i) m (s, m.insert i) where
  walk := .mark hi hm hP
  length := hs
  emits b hb := by simp [he b hb, IndexSet.added_insert hi hm]

/-- A new node that contributes nothing itself is marked before a walk. -/
theorem markBefore (hi : i < m.size) (hm : m.get i = false) (hP : P i)
    (he : ∀ b, ¬ t.Emits i b) (h : t.Gathered P none (m.insert i) (s, n)) :
    t.Gathered P (some i) m (s, n) where
  walk := .trans (.mark hi hm hP) h.walk
  length := h.length
  emits b hb := by
    rw [h.emits b hb]
    refine exists_congr fun j => ?_
    rw [IndexSet.added_trans (fun _ => IndexSet.get_insert_of_get i) h.walk.mono,
      IndexSet.added_insert hi hm, or_and_right]
    refine (or_iff_right ?_).symm
    rintro ⟨rfl, hj⟩
    exact he b hj

/-- The walk is through with a node when it has been to all it leads to. -/
theorem close (h : t.Gathered P (some i) m (s, n)) (he : ∀ k, t.Edge i k → n.get k = true) :
    t.Gathered P none m (s, n) :=
  { h with walk := h.walk.close he }

end Gathered

/-- What the walk finds at a node itself and inside of it. -/
def firstNode (t : Table) (fuel : Nat) (i : NodeId) (m : IndexSet) : IndexSet × IndexSet :=
  match t.graph.kind i with
  | .nonterminal a =>
    if (t.symbol a).firstReady then ((IndexSet.empty t.terminalCount).union (t.symbol a).first, m)
    else t.firstFrom fuel (t.symbol a).root m
  | .terminal a | .weak a => ((IndexSet.empty t.terminalCount).insert (t.symbol a).index, m)
  | .any set => ((IndexSet.empty t.terminalCount).union set, m)
  | .alt sub down =>
    let q := t.firstFrom fuel (some sub) m
    let r := t.firstFrom fuel down q.2
    (q.1.union r.1, r.2)
  | .iter sub | .opt sub => t.firstFrom fuel (some sub) m
  | _ => (.empty t.terminalCount, m)

theorem firstFrom_some (t : Table) (fuel : Nat) (i : NodeId) (m : IndexSet) :
    t.firstFrom (fuel + 1) (some i) m =
      if m.get i then (.empty t.terminalCount, m)
      else
        let q := t.firstNode fuel i (m.insert i)
        if t.nodeDeletable i then
          let r := t.firstFrom fuel (t.graph.next i) q.2
          (q.1.union r.1, r.2)
        else q := by
  rw [firstFrom]
  split
  · rfl
  · simp only [firstNode]
    rfl

/-- The walk collects numbers of terminals. -/
theorem size_firstFrom (t : Table) (fuel : Nat) (p : Option NodeId) (m : IndexSet) :
    (t.firstFrom fuel p m).1.size = t.terminalCount := by
  induction fuel generalizing p m with
  | zero => exact IndexSet.size_empty _
  | succ fuel ih =>
    cases p with
    | none => exact IndexSet.size_empty _
    | some i =>
      have hnode : (t.firstNode fuel i (m.insert i)).1.size = t.terminalCount := by
        unfold firstNode
        cases t.graph.kind i with
        | nonterminal a =>
          dsimp only
          split
          · simp
          · exact ih ..
        | alt sub down => exact IndexSet.size_union.trans (ih ..)
        | iter sub | opt sub => exact ih ..
        | _ => simp
      rw [firstFrom_some]
      split
      · exact IndexSet.size_empty _
      · dsimp only
        split
        · exact IndexSet.size_union.trans hnode
        · exact hnode

@[simp] theorem get_firstSet_none (t : Table) (n : Nat) : (t.firstSet none).get n = false :=
  IndexSet.get_empty ..

theorem size_firstSet (t : Table) (p : Option NodeId) : (t.firstSet p).size = t.terminalCount :=
  size_firstFrom ..

theorem size_expected (t : Table) (p : Option NodeId) (a : SymbolId) :
    (t.expected p a).value.size = t.terminalCount := by
  simp only [expected, Noted.value_bind, value_first, Noted.value_pure]
  split <;> simp [size_firstSet]

/-- What follows the nonterminal is only expected where its production may be over. -/
theorem get_expected_iff {p : Option NodeId} {a : SymbolId} {n : Nat} (hn : n < t.terminalCount) :
    (t.expected p a).value.get n = true ↔ (t.firstSet p).get n = true ∨
      (t.restDeletable p = true ∧ (t.symbol a).follow.get n = true) := by
  simp only [expected, Noted.value_bind, value_first, Noted.value_pure]
  split
  · rename_i hr
    rw [IndexSet.get_union ((size_firstSet t p).symm ▸ hn), Bool.or_eq_true]
    simp [hr]
  · rename_i hr
    simp [hr]

/-- The walk from `p` that leaves the marks `r.2` has been everywhere it leads to. -/
def Explored (t : Table) (p : Option NodeId) (m : IndexSet) (r : IndexSet × IndexSet) : Prop :=
  t.Gathered (fun j => ∃ i ∈ p, t.Reaches i j) none m r ∧ ∀ i ∈ p, r.2.get i = true

/-- A walk from where a node leads to is part of the walk from that node. -/
theorem Explored.of_edge {m : IndexSet} {r : IndexSet × IndexSet} (h : t.Explored p m r)
    (he : ∀ k ∈ p, t.Edge i k) : t.Gathered (t.Reaches i) none m r :=
  h.1.imp fun _ hj => by
    obtain ⟨k, hk, hj⟩ := hj
    exact .head (he k hk) hj

/-- Where the walk goes from a node before it goes on behind it. -/
def LeadsInto (t : Table) (i k : NodeId) : Prop :=
  (t.graph.kind i).sub? = some k ∨ (t.graph.kind i).down? = some k ∨
    ∃ a, t.graph.kind i = .nonterminal a ∧ (t.symbol a).firstReady = false ∧
      (t.symbol a).root = some k

theorem Edge.into_or_next (h : t.Edge i k) :
    t.LeadsInto i k ∨ (t.nodeDeletable i = true ∧ t.graph.next i = some k) := by
  cases h with
  | sub h => exact .inl (.inl h)
  | down h => exact .inl (.inr (.inl h))
  | root hk ha h => exact .inl (.inr (.inr ⟨_, hk, ha, h⟩))
  | next hd h => exact .inr ⟨hd, h⟩

theorem Formed.get_terminal (ht : t.Formed)
    (hk : t.graph.kind i = .terminal c ∨ t.graph.kind i = .weak c) (hb : b ∈ t.terminals) :
    ((IndexSet.empty t.terminalCount).insert (t.symbol c).index).get (t.symbol b).index = true ↔
      t.Emits i b := by
  have hc := ht.allows i
  rw [IndexSet.get_insert (by simpa using ht.registered.index_lt hb), IndexSet.get_empty,
    Bool.or_false, decide_eq_true_eq]
  rcases hk with hk | hk <;>
    · rw [hk] at hc
      rw [ht.index_eq_iff hb hc]
      simp [Emits, hk]

theorem Registered.get_copy (ht : Registered t) (hb : b ∈ t.terminals) (s : IndexSet) :
    ((IndexSet.empty t.terminalCount).union s).get (t.symbol b).index =
      s.get (t.symbol b).index := by
  rw [IndexSet.get_union (by simpa using ht.index_lt hb), IndexSet.get_empty, Bool.false_or]

section

variable {fuel : Nat} {m : IndexSet}

theorem gathered_firstNode (ht : t.Formed)
    (ih : ∀ p n, n.size = t.graph.size → IndexSet.unmarked n < fuel → (∀ j ∈ p, t.Inside j) →
      t.Explored p n (t.firstFrom fuel p n))
    (hs : m.size = t.graph.size) (hf : IndexSet.unmarked m < fuel + 1) (hi : t.Inside i)
    (hm : m.get i = false) :
    t.Gathered (t.Reaches i) (some i) m (t.firstNode fuel i (m.insert i)) ∧
      ∀ k, t.LeadsInto i k → (t.firstNode fuel i (m.insert i)).2.get k = true := by
  have hlt : i < m.size := hs ▸ hi.lt ht
  have hs' : (m.insert i).size = t.graph.size := IndexSet.size_insert.trans hs
  have hf' : IndexSet.unmarked (m.insert i) < fuel := by
    exact (IndexSet.unmarked_insert hlt hm).trans_le (Nat.le_of_lt_succ hf)
  have walk {p : Option NodeId} (he : ∀ k ∈ p, t.Edge i k) :
      t.Explored p (m.insert i) (t.firstFrom fuel p (m.insert i)) :=
    ih p _ hs' hf' fun k hk => hi.edge (he k hk)
  have hmark {s : IndexSet} (hsize : s.size = t.terminalCount)
      (he : ∀ b ∈ t.terminals, s.get (t.symbol b).index = true ↔ t.Emits i b) :=
    Gathered.mark (P := t.Reaches i) hlt hm .refl hsize he
  cases hk : t.graph.kind i with
  | terminal c | weak c =>
    simp only [firstNode, hk]
    exact ⟨hmark (by simp) fun b hb => ht.get_terminal (by simp [hk]) hb,
      by simp [LeadsInto, hk, NodeKind.sub?, NodeKind.down?]⟩
  | any set =>
    simp only [firstNode, hk]
    refine ⟨hmark (by simp) fun b hb => ?_, by simp [LeadsInto, hk, NodeKind.sub?, NodeKind.down?]⟩
    rw [ht.registered.get_copy hb]
    simp [Emits, hk]
  | nonterminal c =>
    simp only [firstNode, hk]
    cases hc : (t.symbol c).firstReady with
    | true =>
      refine ⟨hmark (by simp) fun b hb => ?_,
        by simp [LeadsInto, hk, NodeKind.sub?, NodeKind.down?, hc]⟩
      rw [ht.registered.get_copy hb]
      simp [Emits, hk, hc]
    | false =>
      have he : ∀ k ∈ (t.symbol c).root, t.Edge i k := fun k hr => .root hk hc hr
      refine ⟨.markBefore hlt hm .refl (by simp [Emits, hk, hc]) ((walk he).of_edge he), ?_⟩
      simpa [LeadsInto, hk, NodeKind.sub?, NodeKind.down?, hc] using (walk he).2
  | alt sub down =>
    simp only [firstNode, hk]
    have he₁ : ∀ k ∈ some sub, t.Edge i k := fun k h => .sub (by rw [hk]; exact h)
    have he₂ : ∀ k ∈ down, t.Edge i k := fun k h => .down (by rw [hk]; exact h)
    have h₁ := walk he₁
    have h₂ := ih down _ (h₁.1.walk.size.trans hs')
      (h₁.1.walk.unmarked_le.trans_lt hf') fun k h => hi.edge (he₂ k h)
    refine ⟨.markBefore hlt hm .refl (by simp [Emits, hk])
      ((h₁.of_edge he₁).append ht.registered (h₂.of_edge he₂)), ?_⟩
    simp only [LeadsInto, hk]
    rintro k (h | h | ⟨a, ha, -⟩)
    · exact h₂.1.walk.mono k (h₁.2 k h)
    · exact h₂.2 k h
    · cases ha
  | iter sub | opt sub =>
    simp only [firstNode, hk]
    have he : ∀ k ∈ some sub, t.Edge i k := fun k h => .sub (by rw [hk]; exact h)
    refine ⟨.markBefore hlt hm .refl (by simp [Emits, hk]) ((walk he).of_edge he), ?_⟩
    simpa [LeadsInto, hk, NodeKind.sub?, NodeKind.down?] using (walk he).2
  | _ =>
    simp only [firstNode, hk]
    exact ⟨hmark (by simp) fun b _ => by simp [Emits, hk],
      by simp [LeadsInto, hk, NodeKind.sub?, NodeKind.down?]⟩

/-- The walk goes wherever it is led, and collects what is there. -/
theorem explored_firstFrom (ht : t.Formed) (hs : m.size = t.graph.size)
    (hf : IndexSet.unmarked m < fuel)
    (hp : ∀ i ∈ p, t.Inside i) : t.Explored p m (t.firstFrom fuel p m) := by
  induction fuel generalizing p m with
  | zero => exact absurd hf (Nat.not_lt_zero _)
  | succ fuel ih =>
    cases p with
    | none => exact ⟨by simpa [firstFrom] using Gathered.refl m, by simp⟩
    | some i =>
      have hi := hp i rfl
      rw [firstFrom_some]
      split
      · rename_i hm
        exact ⟨.refl m, by simpa using hm⟩
      · rename_i hm
        have hm : m.get i = false := by simpa using hm
        have hlt : i < m.size := hs ▸ hi.lt ht
        obtain ⟨h, hinto⟩ := gathered_firstNode ht (fun p n h₁ h₂ h₃ => ih h₁ h₂ h₃) hs hf hi hm
        generalize t.firstNode fuel i (m.insert i) = q at h hinto
        have hmarked := h.walk.marked i rfl
        have himp {x n} (h : t.Gathered (t.Reaches i) x m n) :
            t.Gathered (fun j => ∃ k ∈ some i, t.Reaches k j) x m n :=
          h.imp fun j hj => ⟨i, rfl, hj⟩
        dsimp only
        split
        · rename_i hd
          have he : ∀ k ∈ t.graph.next i, t.Edge i k := fun k hk => .next hd hk
          have hq : IndexSet.unmarked q.2 < fuel :=
            (h.walk.unmarked_lt hlt hm).trans_le (Nat.le_of_lt_succ hf)
          have hr := ih (p := t.graph.next i) (h.walk.size.trans hs) hq
            fun k hk => hi.edge (he k hk)
          refine ⟨(himp (h.append ht.registered (hr.of_edge he))).close fun k hk => ?_,
            by simpa using hr.1.walk.mono i hmarked⟩
          rcases hk.into_or_next with hk | ⟨-, hk⟩
          · exact hr.1.walk.mono k (hinto k hk)
          · exact hr.2 k hk
        · rename_i hd
          refine ⟨(himp h).close fun k hk => ?_, by simpa using hmarked⟩
          rcases hk.into_or_next with hk | ⟨hdel, -⟩
          · exact hinto k hk
          · exact absurd hdel hd

end

theorem explored_firstSet (ht : t.Formed) (hp : ∀ i ∈ p, t.Inside i) :
    t.Explored p (.empty t.graph.size)
      (t.firstFrom (t.graph.size + 1) p (.empty t.graph.size)) := by
  have := IndexSet.unmarked_le_size (.empty t.graph.size)
  rw [IndexSet.size_empty] at this
  exact explored_firstFrom ht (IndexSet.size_empty _) (by omega) hp

/-- What `firstSet` collects is what the nodes that are reached contribute. -/
theorem get_firstSet (ht : t.Formed) (hi : t.Inside i) (hb : b ∈ t.terminals) :
    (t.firstSet (some i)).get (t.symbol b).index = true ↔ ∃ j, t.Reaches i j ∧ t.Emits j b := by
  have h := explored_firstSet (p := some i) ht (by simpa using hi)
  have hmarks (j : NodeId) : (t.firstFrom (t.graph.size + 1) (some i)
      (.empty t.graph.size)).2.get j = true ↔ t.Reaches i j := by
    refine ⟨fun hj => by simpa using h.1.walk.sound j hj, fun hj => ?_⟩
    induction hj with
    | refl => exact h.2 i rfl
    | tail _ he ih => exact h.1.walk.closed _ _ ⟨ih, IndexSet.get_empty ..⟩ nofun he
  rw [firstSet, h.1.emits b hb]
  simp only [IndexSet.Added, hmarks, IndexSet.get_empty, and_true]

end Table

end Lookahead
