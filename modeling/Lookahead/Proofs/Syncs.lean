import Lookahead.Analysis.Sync
import Lookahead.Proofs.FollowWalk

/-!
# Synchronisation sets

Filling in synchronisation sets leaves alone all that other sets are computed from
(`Table.Resynced`). So the walk through each production gives a synchronisation point what can come
next there and the end of input (`Table.syncSet`), and all of it goes into the union of these sets
(`Table.Formed.fills_computeSyncs`).
-/

namespace Lookahead.Table

/-- The tables differ at most in synchronisation sets and their union. -/
structure Resynced (t u : Table) : Prop where
  symbols : u.symbols = t.symbols
  listed : u.listed = t.listed
  start : u.start = t.start
  eof : u.eof = t.eof
  size : u.graph.size = t.graph.size
  next : ∀ i, u.graph.next i = t.graph.next i
  up : ∀ i, (u.graph.node i).up = (t.graph.node i).up
  kind : ∀ i, u.graph.kind i = t.graph.kind i ∨
    ∃ x y, t.graph.kind i = .sync x ∧ u.graph.kind i = .sync y

variable {d t u v : Table} {a b : SymbolId} {i j : NodeId} {p x : Option NodeId} {m : IndexSet}
  {fuel : Nat} {q r s : Table × IndexSet}

namespace Resynced

theorem refl (t : Table) : Resynced t t :=
  ⟨rfl, rfl, rfl, rfl, rfl, fun _ => rfl, fun _ => rfl, fun _ => .inl rfl⟩

theorem trans (h : Resynced t u) (h' : Resynced u v) : Resynced t v where
  symbols := h'.symbols.trans h.symbols
  listed := h'.listed.trans h.listed
  start := h'.start.trans h.start
  eof := h'.eof.trans h.eof
  size := h'.size.trans h.size
  next i := (h'.next i).trans (h.next i)
  up i := (h'.up i).trans (h.up i)
  kind i := by
    rcases h.kind i with h₁ | ⟨x, y, hx, hy⟩
    · rw [← h₁]
      exact h'.kind i
    · rcases h'.kind i with h₂ | ⟨-, z, -, hz⟩
      · exact .inr ⟨x, y, hx, h₂.trans hy⟩
      · exact .inr ⟨x, z, hx, hz⟩

variable (h : Resynced t u)
include h

theorem alike : Graph.Alike t.graph u.graph where
  size := h.size
  kind i := by
    rcases h.kind i with hk | ⟨x, y, hx, hy⟩
    · rw [hk]
    · rw [hx, hy]
      rfl
  next := h.next
  up := h.up

theorem symbol : u.symbol = t.symbol := by
  funext s
  rw [Table.symbol, h.symbols, Table.symbol]

theorem terminalCount : u.terminalCount = t.terminalCount :=
  congrArg Array.size (congrFun h.listed .terminal)

theorem isDeletable : u.isDeletable = t.isDeletable := by
  funext s
  rw [Table.isDeletable, h.symbol, Table.isDeletable]

theorem groupDeletableFrom (del : SymbolId → Bool) (p : Option NodeId) :
    u.graph.groupDeletableFrom del fuel p = t.graph.groupDeletableFrom del fuel p := by
  induction fuel generalizing p with
  | zero => rfl
  | succ fuel ih =>
    cases p with
    | none => rfl
    | some i =>
      have hnext : (u.graph.node i).next = (t.graph.node i).next := h.next i
      simp only [Graph.groupDeletableFrom, ih, hnext, h.up]
      rcases h.kind i with hk | ⟨x, y, hx, hy⟩
      · rw [show (u.graph.node i).kind = (t.graph.node i).kind from hk]
      · rw [show (u.graph.node i).kind = .sync y from hy,
          show (t.graph.node i).kind = .sync x from hx]

theorem nodeDeletable (i : NodeId) : u.nodeDeletable i = t.nodeDeletable i := by
  have hgroup (p : Option NodeId) :
      u.graph.groupDeletable t.isDeletable p = t.graph.groupDeletable t.isDeletable p := by
    rw [Graph.groupDeletable, h.groupDeletableFrom, h.size, Graph.groupDeletable]
  rw [Table.nodeDeletable, h.isDeletable, Table.nodeDeletable]
  unfold Graph.nodeDeletable
  rcases h.kind i with hk | ⟨x, y, hx, hy⟩
  · simp only [hk, hgroup]
  · simp only [hx, hy]

theorem restDeletable (p : Option NodeId) : u.restDeletable p = t.restDeletable p := by
  have hfrom (fuel : Nat) (p : Option NodeId) :
      u.graph.restDeletableFrom u.isDeletable fuel p =
        t.graph.restDeletableFrom t.isDeletable fuel p := by
    induction fuel generalizing p with
    | zero => rfl
    | succ fuel ih =>
      cases p with
      | none => rfl
      | some i =>
        have hi : u.graph.nodeDeletable u.isDeletable i = t.graph.nodeDeletable t.isDeletable i :=
          h.nodeDeletable i
        simp only [Graph.restDeletableFrom, ih, h.next, hi]
  rw [Table.restDeletable, Graph.restDeletable, hfrom, h.size, Table.restDeletable,
    Graph.restDeletable]

theorem firstSet (p : Option NodeId) : u.firstSet p = t.firstSet p := by
  have hfrom (fuel : Nat) (p : Option NodeId) (m : IndexSet) :
      u.firstFrom fuel p m = t.firstFrom fuel p m := by
    induction fuel generalizing p m with
    | zero => simp only [firstFrom, h.terminalCount]
    | succ fuel ih =>
      cases p with
      | none => simp only [firstFrom, h.terminalCount]
      | some i =>
        have hnext : (u.node i).next = (t.node i).next := h.next i
        simp only [firstFrom, h.terminalCount, h.nodeDeletable, h.symbol, hnext, ih]
        rcases h.kind i with hk | ⟨x, y, hx, hy⟩
        · rw [show (u.node i).kind = (t.node i).kind from hk]
        · rw [show (u.node i).kind = .sync y from hy, show (t.node i).kind = .sync x from hx]
  rw [Table.firstSet, hfrom, h.size, Table.firstSet]

/-- What is expected does not depend on synchronisation sets. -/
theorem value_expected (p : Option NodeId) (a : SymbolId) :
    (u.expected p a).value = (t.expected p a).value := by
  simp only [expected, Noted.value_bind, Noted.value_pure, value_first, h.firstSet, h.restDeletable,
    h.symbol]

end Resynced

/-- What a parser skips to at a synchronisation point in the production of `a`. -/
def syncSet (t : Table) (a : SymbolId) (i : NodeId) : IndexSet :=
  (t.expected (t.graph.next i) a).value.insert (t.symbol t.eof).index

theorem Resynced.syncSet (h : Resynced t u) (a : SymbolId) (i : NodeId) :
    u.syncSet a i = t.syncSet a i := by
  rw [Table.syncSet, h.value_expected, h.next, h.symbol, h.eof, Table.syncSet]

/-- Fills in one set. -/
def fillSync (t : Table) (a : SymbolId) (i : NodeId) : Table :=
  { t with syncs := t.syncs.union (t.syncSet a i) }.onGraph
    fun g => g.setKind i (.sync (t.syncSet a i))

theorem resynced_fillSync (t : Table) (a : SymbolId) {y : IndexSet}
    (hk : t.graph.kind i = .sync y) :
    Resynced t (t.fillSync a i) where
  symbols := rfl
  listed := by funext k; cases k <;> rfl
  start := rfl
  eof := rfl
  size := Graph.size_setKind ..
  next _ := Graph.next_setKind ..
  up _ := Graph.up_setKind ..
  kind j := by
    have hj : (t.fillSync a i).graph.kind j = _ := Graph.kind_setKind ..
    rw [hj]
    split
    · rename_i h
      obtain ⟨rfl, -⟩ := h
      exact .inr ⟨y, _, hk, rfl⟩
    · exact .inl rfl

/-- What the walk does at a node, and inside of it. -/
def syncNode (a : SymbolId) (fuel : Nat) (t : Table) (i : NodeId) (m : IndexSet) :
    Table × IndexSet :=
  match t.graph.kind i with
  | .sync _ => (t.fillSync a i, m)
  | .opt sub | .iter sub => (syncFrom a fuel (t, m) (some sub)).value
  | .alt sub down => (syncFrom a fuel (syncFrom a fuel (t, m) (some sub)).value down).value
  | _ => (t, m)

theorem value_syncFrom_some (a : SymbolId) (fuel : Nat) (t : Table) (m : IndexSet) (i : NodeId) :
    (syncFrom a (fuel + 1) (t, m) (some i)).value =
      if m.get i then (t, m)
      else (syncFrom a fuel (syncNode a fuel t i (m.insert i)) (t.graph.next i)).value := by
  rw [syncFrom]
  split
  · rfl
  · unfold syncNode
    simp only [node, Graph.kind]
    cases (t.graph.node i).kind <;> rfl

/-- The walk from `q` to `r` has filled in the sets of the nodes it marked. -/
structure Synced (d : Table) (a : SymbolId) (x : Option NodeId) (q r : Table × IndexSet) :
    Prop where
  same : Resynced d r.1
  walk : IndexSet.Marking d.Link (d.Within a) x q.2 r.2
  filled : ∀ j y, d.graph.kind j = .sync y → IndexSet.Added q.2 r.2 j →
    r.1.graph.kind j = .sync (d.syncSet a j)
  kept : ∀ j, ¬ IndexSet.Added q.2 r.2 j → r.1.graph.kind j = q.1.graph.kind j
  size : r.1.syncs.size = q.1.syncs.size
  syncs : ∀ n < q.1.syncs.size, r.1.syncs.get n = true ↔ q.1.syncs.get n = true ∨
    ∃ j y, IndexSet.Added q.2 r.2 j ∧ d.graph.kind j = .sync y ∧ (d.syncSet a j).get n = true

namespace Synced

theorem refl (hs : Resynced d t) (m : IndexSet) : Synced d a none (t, m) (t, m) where
  same := hs
  walk := .refl m
  filled _ _ _ hj := absurd hj IndexSet.not_added_self
  kept _ _ := rfl
  size := rfl
  syncs n _ := by simp [IndexSet.not_added_self]

/-- One walk after the other. -/
theorem trans (h : Synced d a x q r) (h' : Synced d a none r s) : Synced d a x q s where
  same := h'.same
  walk := h.walk.trans h'.walk
  filled j y hk hj := by
    rcases (IndexSet.added_trans h.walk.mono h'.walk.mono).mp hj with hj | hj
    · rw [h'.kept j fun hn => absurd (hj.1.symm.trans hn.2) nofun, h.filled j y hk hj]
    · exact h'.filled j y hk hj
  kept j hj := by
    rw [IndexSet.added_trans h.walk.mono h'.walk.mono, not_or] at hj
    rw [h'.kept j hj.2, h.kept j hj.1]
  size := h'.size.trans h.size
  syncs n hn := by
    rw [h'.syncs n (h.size ▸ hn), h.syncs n hn, or_assoc, ← exists_or]
    refine or_congr_right (exists_congr fun j => ?_)
    rw [← exists_or]
    simp only [IndexSet.added_trans h.walk.mono h'.walk.mono, or_and_right]

/-- The walk is through with a node when it has been to all it leads to. -/
theorem close (h : Synced d a (some i) q r) (he : ∀ k, d.Link i k → r.2.get k = true) :
    Synced d a none q r :=
  { h with walk := h.walk.close he }

section

variable (hs : Resynced d t) (hi : d.Within a i) (hlt : i < m.size) (hm : m.get i = false)
include hs hi hlt hm

/-- A node that is no synchronisation point has no set. -/
theorem mark (hk : ∀ y, d.graph.kind i ≠ .sync y) :
    Synced d a (some i) (t, m) (t, m.insert i) where
  same := hs
  walk := .mark hlt hm hi
  filled j y hy hj := by
    obtain rfl := (IndexSet.added_insert hlt hm).mp hj
    exact absurd hy (hk y)
  kept _ _ := rfl
  size := rfl
  syncs n _ := by simp [IndexSet.added_insert hlt hm, hk]

theorem fill {y : IndexSet} (hk : d.graph.kind i = .sync y) (hg : i < t.graph.size) :
    Synced d a (some i) (t, m) (t.fillSync a i, m.insert i) := by
  have ht : ∃ z, t.graph.kind i = .sync z := by
    rcases hs.kind i with h | ⟨-, z, -, h⟩
    · exact ⟨y, h.trans hk⟩
    · exact ⟨z, h⟩
  obtain ⟨z, hz⟩ := ht
  have hkind (j : NodeId) : (t.fillSync a i).graph.kind j =
      if i = j ∧ j < t.graph.size then .sync (t.syncSet a i) else t.graph.kind j :=
    Graph.kind_setKind ..
  refine ⟨hs.trans (resynced_fillSync t a hz), .mark hlt hm hi, fun j y _ hj => ?_, fun j hj => ?_,
    IndexSet.size_union, fun n hn => ?_⟩
  · obtain rfl := (IndexSet.added_insert hlt hm).mp hj
    rw [hkind, if_pos ⟨rfl, hg⟩, hs.syncSet]
  · rw [IndexSet.added_insert hlt hm] at hj
    rw [hkind, if_neg fun h => hj h.1.symm]
  · have hsyncs : (t.fillSync a i).syncs = t.syncs.union (d.syncSet a i) := by
      rw [← hs.syncSet]
      rfl
    rw [hsyncs, IndexSet.get_union hn, Bool.or_eq_true]
    simp [IndexSet.added_insert hlt hm, hk]

end

end Synced

theorem touring_syncFrom (hd : d.Formed) (a : SymbolId) :
    Touring d a (Resynced d) (Synced d a) (fun n q p => (syncFrom a n q p).value) where
  same h := h.same
  walk h := h.walk
  refl hs := .refl hs _
  trans := .trans
  close := .close
  stop := rfl
  met hm := by rw [value_syncFrom_some, if_pos hm]
  step := by
    intro n t m i hs hi hlt hm
    have hg : i < t.graph.size := hs.size ▸ Inside.lt hd ⟨a, hi⟩
    rw [value_syncFrom_some, if_neg (by simp [hm]), syncNode, hs.next]
    unfold inside
    rcases hs.kind i with hkind | ⟨y, z, hk, hz⟩
    · rw [hkind]
      cases hk : d.graph.kind i with
      | sync y => exact ⟨_, .fill hs hi hlt hm hk hg, rfl⟩
      | _ => exact ⟨_, .mark hs hi hlt hm (by simp [hk]), rfl⟩
    · rw [hz, hk]
      exact ⟨_, .fill hs hi hlt hm hk hg, rfl⟩

/-- The walk from the root marks the nodes of the production, and no others. -/
theorem synced_production (hd : d.Formed) (hs : Resynced d t) (a : SymbolId) :
    let r := (syncFrom a (t.graph.size + 1) (t, .empty t.graph.size) (d.symbol a).root).value
    Synced d a none (t, .empty t.graph.size) r ∧
      ∀ j, IndexSet.Added (.empty t.graph.size) r.2 j ↔ d.Within a j := by
  obtain ⟨h, hr⟩ := (touring_syncFrom hd a).production hd hs hs.size
  exact ⟨h, fun j => added_iff_within h.walk hr fun k => IndexSet.get_empty ..⟩

/-! ### All productions -/

/-- The table `u` is `t` with the sets of the productions of `l` filled in. -/
structure Fills (d : Table) (l : List SymbolId) (t u : Table) : Prop where
  same : Resynced d u
  filled : ∀ a ∈ l, ∀ i y, d.Within a i → d.graph.kind i = .sync y →
    u.graph.kind i = .sync (d.syncSet a i)
  kept : ∀ i, (∀ a ∈ l, ¬ d.Within a i) → u.graph.kind i = t.graph.kind i
  size : u.syncs.size = t.syncs.size
  syncs : ∀ n < t.syncs.size, u.syncs.get n = true ↔ t.syncs.get n = true ∨
    ∃ a ∈ l, ∃ i y, d.Within a i ∧ d.graph.kind i = .sync y ∧ (d.syncSet a i).get n = true

theorem fills_syncProduction (hd : d.Formed) (hs : Resynced d t) (a : SymbolId) :
    Fills d [a] t (t.syncProduction a).value := by
  obtain ⟨h, hadded⟩ := synced_production hd hs a
  simp only [syncProduction, Noted.value_bind, Noted.value_pure, hs.symbol]
  generalize (syncFrom a _ _ _).value = r at h hadded ⊢
  refine ⟨h.same, fun b hb i y hi hk => ?_, fun i hi => ?_, h.size, fun n hn => ?_⟩
  · obtain rfl := List.mem_singleton.mp hb
    exact h.filled i y hk ((hadded i).mpr hi)
  · exact h.kept i fun hj => hi a (List.mem_singleton_self a) ((hadded i).mp hj)
  · rw [h.syncs n hn]
    simp only [hadded, List.mem_singleton, exists_eq_left]

theorem fills_foldl (hd : d.Formed) (hap : d.Apart) (hs : Resynced d t) (l : List SymbolId) :
    Fills d l t (l.foldl (fun t a => (t.syncProduction a).value) t) := by
  induction l generalizing t with
  | nil => exact ⟨hs, by simp, fun _ _ => rfl, rfl, by simp⟩
  | cons a l ih =>
    have h := fills_syncProduction hd hs a
    have h' := ih h.same
    refine ⟨h'.same, fun b hb i y hi hk => ?_, fun i hi => ?_, h'.size.trans h.size,
      fun n hn => ?_⟩
    · by_cases hl : b ∈ l
      · exact h'.filled b hl i y hi hk
      · -- no production of `l` touches the node, for it is in that of `b`
        rw [List.foldl_cons, h'.kept i fun c hc hi' => hl (hap b c i hi hi' ▸ hc)]
        have hba : b = a := (List.mem_cons.mp hb).resolve_right hl
        exact h.filled b (hba ▸ List.mem_singleton_self a) i y hi hk
    · rw [List.foldl_cons, h'.kept i fun c hc => hi c (List.mem_cons_of_mem a hc),
        h.kept i fun c hc => hi c (by simp [List.mem_singleton.mp hc])]
    · rw [List.foldl_cons, h'.syncs n (h.size ▸ hn), h.syncs n hn]
      simp only [List.mem_cons, List.not_mem_nil, false_and, exists_false, false_or,
        exists_eq_or_imp, or_assoc]

/-- Each synchronisation point has got its set, and all of these are in the union of all sets, with
the end of input. -/
theorem Formed.fills_computeSyncs (ht : t.Formed) (hap : t.Apart) :
    Resynced t t.computeSyncs.value ∧
      (∀ a ∈ t.nonterminals, ∀ i y, t.Within a i → t.graph.kind i = .sync y →
        t.computeSyncs.value.graph.kind i = .sync (t.syncSet a i)) ∧
      t.computeSyncs.value.syncs.size = t.terminalCount ∧
      ∀ n < t.terminalCount, t.computeSyncs.value.syncs.get n = true ↔ n = (t.symbol t.eof).index ∨
        ∃ a ∈ t.nonterminals, ∃ i y, t.Within a i ∧ t.graph.kind i = .sync y ∧
          (t.syncSet a i).get n = true := by
  have hstart : Resynced t
      { t with syncs := (IndexSet.empty t.terminalCount).insert (t.symbol t.eof).index } :=
    ⟨rfl, by funext k; cases k <;> rfl, rfl, rfl, rfl, fun _ => rfl, fun _ => rfl,
      fun _ => .inl rfl⟩
  have h := fills_foldl ht hap hstart t.nonterminals.toList
  unfold computeSyncs
  rw [Noted.value_foldlM]
  have hsize : ((IndexSet.empty t.terminalCount).insert (t.symbol t.eof).index).size =
      t.terminalCount := by
    rw [IndexSet.size_insert, IndexSet.size_empty]
  refine ⟨h.same, fun a ha => h.filled a (Array.mem_toList_iff.mpr ha), h.size.trans hsize,
    fun n hn => ?_⟩
  rw [h.syncs n (hsize.symm ▸ hn), IndexSet.get_insert_iff]
  · simp only [IndexSet.get_empty, Bool.false_eq_true, or_false, Array.mem_toList_iff,
      @eq_comm _ n]
  · rw [IndexSet.size_empty]
    exact ht.registered.index_lt ht.registered.eof

end Lookahead.Table
