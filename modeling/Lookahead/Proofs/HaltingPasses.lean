import Lookahead.Proofs.HaltingSets

/-!
# The passes over all productions come to an end

Walks that mark what they pass and change the table keep what they go by: its outline, the lengths
of its sets of sources, and all marks (`Table.Passes`). The passes call them for one nonterminal
after the other, and so the sets of a whole grammar have a value without fuel
(`Table.Proper.computeSets?_eq`).
-/

namespace Lookahead

namespace Table

variable {bounds : Bounds} {t u v : Table} {a b : SymbolId} {i j : NodeId} {p q : Option NodeId}

theorem SameOutline.trans (h : SameOutline t u) (h' : SameOutline u v) : SameOutline t v where
  size := h'.size.trans h.size
  listed := h'.listed.trans h.listed
  literals := h'.literals.trans h.literals
  start := h'.start.trans h.start
  eof := h'.eof.trans h.eof
  kind s := (h'.kind s).trans (h.kind s)
  index s := (h'.index s).trans (h.index s)
  root s := (h'.root s).trans (h.root s)
  graph := h.graph.trans h'.graph

/-! ### Marks on the way -/

/-- Every set of sources has a place for each nonterminal. -/
def Sourced (bounds : Bounds) (t : Table) : Prop :=
  bounds = .checked → ∀ a ∈ t.nonterminals,
    (t.symbol a).followSources.size = t.nonterminalCount

/-- The tables have the same outline and sets of sources of the same lengths. -/
structure SameSources (t u : Table) : Prop extends SameOutline t u where
  sources : ∀ a, (u.symbol a).followSources.size = (t.symbol a).followSources.size

namespace SameSources

theorem refl (t : Table) : SameSources t t := ⟨(SameGrammar.refl t).outline, fun _ => rfl⟩

theorem trans (h : SameSources t u) (h' : SameSources u v) : SameSources t v :=
  ⟨h.toSameOutline.trans h'.toSameOutline, fun a => (h'.sources a).trans (h.sources a)⟩

theorem modifySymbol (t : Table) (a : SymbolId) {f : Symbol → Symbol}
    (hf : ∀ s, (f s).withoutFollow = s.withoutFollow)
    (hz : ∀ s, (f s).followSources.size = s.followSources.size) :
    SameSources t (t.modifySymbol a f) where
  toSameOutline := (SameFirst.modifySymbol t a hf).sameGrammar.outline
  sources := symbol_modifySymbol_congr (p := fun s => s.followSources.size) hz a

theorem sourced (h : SameSources t u) (ht : t.Sourced bounds) : u.Sourced bounds := by
  intro hb a ha
  rw [h.nonterminals] at ha
  rw [h.sources, ht hb a ha, nonterminalCount, nonterminalCount, h.nonterminals]

end SameSources

/-- A walk that changes the table keeps its outline, and all marks. -/
structure Passes (q r : Table × IndexSet) : Prop where
  same : SameSources q.1 r.1
  size : r.2.size = q.2.size
  mono : ∀ j, q.2.get j = true → r.2.get j = true

namespace Passes

variable {q r s : Table × IndexSet} {m : IndexSet}

theorem of_same (h : SameSources t u) (m : IndexSet) : Passes (t, m) (u, m) :=
  ⟨h, rfl, fun _ => id⟩

theorem refl (q : Table × IndexSet) : Passes q q := .of_same (.refl q.1) q.2

theorem trans (h : Passes q r) (h' : Passes r s) : Passes q s :=
  ⟨h.same.trans h'.same, h'.size.trans h.size, fun j hj => h'.mono j (h.mono j hj)⟩

theorem mark (t : Table) (m : IndexSet) (k : Nat) : Passes (t, m) (t, m.insert k) :=
  ⟨.refl t, IndexSet.size_insert, fun _ => IndexSet.get_insert_of_get k⟩

theorem outline (h : Passes q r) : SameOutline q.1 r.1 := h.same.toSameOutline

theorem unmarked_le (h : Passes q r) : r.2.unmarked ≤ q.2.unmarked :=
  IndexSet.unmarked_le h.size h.mono

end Passes

/-- A change of one symbol that needs something is one that does not. -/
theorem updateSymbol?_eq {f : Symbol → Option Symbol} {g : Symbol → Symbol}
    (ha : a < t.symbols.size) (hf : f (t.symbol a) = some (g (t.symbol a))) :
    t.updateSymbol? bounds a f = some (t.modifySymbol a g) := by
  rw [updateSymbol?, symbol?_eq ha, some_bind, hf, some_bind, modifySymbol?_eq ha]
  congr 1
  simp only [modifySymbol, mk.injEq, and_true]
  refine Array.ext (by simp) fun j hj hj' => ?_
  simp only [Array.size_modify] at hj
  rw [Array.getElem_modify, Array.getElem_modify]
  split
  · rename_i h
    subst h
    rw [Table.symbol, Array.getD_eq_getD_getElem?, Array.getElem?_eq_getElem hj]
    rfl
  · rfl

/-! ### Follow sets -/

theorem sameSources_addFollow (t : Table) (a b : SymbolId) (p : Option NodeId) :
    SameSources t (t.addFollow a b p) := by
  refine ⟨(sameFirst_addFollow ..).sameGrammar.outline, fun c => ?_⟩
  rw [sources_addFollow]
  split
  · exact IndexSet.size_insert
  · rfl

theorem passes_followFrom (a : SymbolId) (n : Nat) (q : Table × IndexSet) (p : Option NodeId) :
    Passes q (followFrom a n q p).value := by
  induction n generalizing q p with
  | zero => exact .refl q
  | succ n ih =>
    obtain ⟨t, m⟩ := q
    cases p with
    | none => exact .refl _
    | some i =>
      rw [value_followFrom_some]
      split
      · exact .refl _
      · refine ((Passes.mark t m i).trans ?_).trans (ih _ _)
        unfold followNode
        split
        · exact .of_same (sameSources_addFollow ..) _
        · exact ih _ _
        · exact ih _ _
        · exact (ih _ _).trans (ih _ _)
        · exact .refl _

/-- There is a place for `a` among the sources of every nonterminal. -/
theorem Proper.updateSources?_eq (ht : t.Proper bounds) (hz : t.Sourced bounds)
    (hb : b ∈ t.nonterminals) (ha : bounds = .checked → a ∈ t.nonterminals) :
    (t.updateSymbol? bounds b fun s => do
        return { s with followSources := ← s.followSources.insert? bounds (t.symbol a).index }) =
      some (t.modifySymbol b fun s =>
        { s with followSources := s.followSources.insert (t.symbol a).index }) := by
  refine updateSymbol?_eq (ht.lt hb) ?_
  rw [IndexSet.insert?_eq fun hc => ?_]
  · rfl
  · rw [hz hc b hb]
    exact ht.registered.index_lt_size (k := .nonterminal) (by decide) (ha hc)

theorem Proper.followFrom?_eq_from {q : Table × IndexSet} {n : Nat} (ht : q.1.Proper bounds)
    (hz : q.1.Sourced bounds) (ha : bounds = .checked → a ∈ q.1.nonterminals)
    (hm : q.2.size = q.1.graph.size) (hn : q.2.unmarked < n) (hp : ∀ i ∈ p, q.1.Inside i) :
    followFrom? bounds a q p = (followFrom a n q p).run := by
  induction n generalizing q p with
  | zero => exact absurd hn (Nat.not_lt_zero _)
  | succ n ih =>
    obtain ⟨t, m⟩ := q
    cases p with
    | none =>
      rw [followFrom?]
      exact (Noted.run_pure _).symm
    | some i =>
      obtain ⟨b, hw⟩ := hp i rfl
      have hlt : i < m.size := hm ▸ Inside.lt ht.toFormed ⟨b, hw⟩
      rw [followFrom?, followFrom]
      dsimp only
      rw [IndexSet.get?_eq fun _ => hlt, Work.some_bind]
      split
      · exact (Noted.run_pure _).symm
      rename_i hi
      have hi : m.get i = false := by simpa using hi
      have hn' := (IndexSet.unmarked_insert hlt hi).trans_le (Nat.le_of_lt_succ hn)
      have hcall {r p} (hr : Passes (t, m.insert i) r) (hin : ∀ j ∈ p, t.Within b j) :
          followFrom? bounds a r p = (followFrom a n r p).run :=
        ih (hr.outline.proper ht) (hr.same.sourced hz)
          (fun hb => hr.outline.nonterminals ▸ ha hb)
          (hr.size.trans (IndexSet.size_insert.trans (hm.trans hr.outline.graph.size.symm)))
          (hr.unmarked_le.trans_lt hn') fun j hj => hr.outline.inside ⟨b, hin j hj⟩
      have hrest {r} (hr : Passes (t, m.insert i) r) :
          followFrom? bounds a r (t.node i).next = (followFrom a n r (t.node i).next).run :=
        hcall hr fun j hj => hw.next hj
      rw [ht.node?_eq ⟨b, hw⟩, Work.some_bind, IndexSet.insert?_eq fun _ => hlt, Work.some_bind]
      cases hk : (t.node i).kind with
      | nonterminal c =>
        have hc : c ∈ t.nonterminals := ht.allows_nonterminal hk
        have hin : ∀ j ∈ (t.node i).next, t.Within b j := fun j hj => hw.next hj
        have hu (s : IndexSet) : SameSources t (t.modifySymbol c fun b =>
            { b with follow := b.follow.union s }) :=
          .modifySymbol t c (fun _ => rfl) fun _ => rfl
        refine Noted.run_bind_of (ht.first?_eq fun j hj => ⟨b, hin j hj⟩) ?_
        have hs := hu (t.first (t.node i).next).value
        rw [modifySymbol?_eq (ht.lt hc), Work.some_bind]
        generalize (t.modifySymbol c fun b =>
          { b with follow := b.follow.union (t.first (t.node i).next).value }) = u at hs ⊢
        have hf := hs.proper ht
        have hca : c ∈ u.nonterminals := hs.nonterminals ▸ hc
        have haa (hb : bounds = .checked) : a ∈ u.nonterminals := hs.nonterminals ▸ ha hb
        rw [hf.restDeletable?_eq fun j hj => hs.inside ⟨b, hin j hj⟩, Work.some_bind]
        cases u.restDeletable (t.node i).next with
        | false => exact Noted.run_bind_of (Noted.run_pure _).symm (hrest (.of_same hs _))
        | true =>
          have hv (k : Nat) : SameSources u (u.modifySymbol c fun b =>
              { b with followSources := b.followSources.insert k }) :=
            .modifySymbol u c (fun _ => rfl) fun _ => IndexSet.size_insert
          simp only [if_true]
          rw [hf.symbol?_eq_of haa, Work.some_bind, hf.updateSources?_eq (hs.sourced hz) hca haa,
            Work.some_bind]
          exact Noted.run_bind_of (Noted.run_pure _).symm (hrest (.of_same (hs.trans (hv _)) _))
      | opt sub | iter sub =>
        have hin : ∀ j ∈ some sub, t.Within b j := fun j hj =>
          hw.sub ((congrArg NodeKind.sub? hk).trans hj)
        exact Noted.run_bind_of (hcall (.refl _) hin) (hrest (passes_followFrom ..))
      | alt sub down =>
        have hin : ∀ j ∈ some sub, t.Within b j := fun j hj =>
          hw.sub ((congrArg NodeKind.sub? hk).trans hj)
        have hind : ∀ j ∈ down, t.Within b j := fun j hj =>
          hw.down ((congrArg NodeKind.down? hk).trans hj)
        have hs := passes_followFrom a n (t, m.insert i) (some sub)
        refine Noted.run_bind_of (hcall (.refl _) hin) ?_
        exact Noted.run_bind_of (hcall hs hind) (hrest (hs.trans (passes_followFrom ..)))
      | _ => exact Noted.run_bind_of (Noted.run_pure _).symm (hrest (.refl _))

/-! ### Synchronisation sets -/

theorem sameSources_fillSync {y : IndexSet} (hk : t.graph.kind i = .sync y) (a : SymbolId) :
    SameSources t (t.fillSync a i) := by
  have h₁ : Redrawn t { t with syncs := t.syncs.union (t.syncSet a i) } :=
    ⟨⟨rfl, by funext k; cases k <;> rfl, rfl, rfl, rfl⟩, .refl _⟩
  refine ⟨(h₁.trans (redrawn_setKind ?_)).outline, fun _ => rfl⟩
  rw [show Graph.kind _ i = _ from hk]
  rfl

theorem passes_syncFrom (a : SymbolId) (n : Nat) (q : Table × IndexSet) (p : Option NodeId) :
    Passes q (syncFrom a n q p).value := by
  induction n generalizing q p with
  | zero => exact .refl q
  | succ n ih =>
    obtain ⟨t, m⟩ := q
    cases p with
    | none => exact .refl _
    | some i =>
      rw [value_syncFrom_some]
      split
      · exact .refl _
      · refine ((Passes.mark t m i).trans ?_).trans (ih _ _)
        unfold syncNode
        split
        · rename_i hk
          exact .of_same (sameSources_fillSync hk a) _
        · exact ih _ _
        · exact ih _ _
        · exact (ih _ _).trans (ih _ _)
        · exact .refl _

theorem Registered.index_eof_lt_count (ht : Registered t) :
    (t.symbol t.eof).index < t.terminalCount :=
  ht.index_lt_size (k := .terminal) (by decide) ht.eof

theorem Proper.syncFrom?_eq_from {q : Table × IndexSet} {n : Nat} (ht : q.1.Proper bounds)
    (ha : bounds = .checked → a ∈ q.1.nonterminals) (hm : q.2.size = q.1.graph.size)
    (hn : q.2.unmarked < n) (hp : ∀ i ∈ p, q.1.Inside i) :
    syncFrom? bounds a q p = (syncFrom a n q p).run := by
  induction n generalizing q p with
  | zero => exact absurd hn (Nat.not_lt_zero _)
  | succ n ih =>
    obtain ⟨t, m⟩ := q
    cases p with
    | none =>
      rw [syncFrom?]
      exact (Noted.run_pure _).symm
    | some i =>
      obtain ⟨b, hw⟩ := hp i rfl
      have hlt : i < m.size := hm ▸ Inside.lt ht.toFormed ⟨b, hw⟩
      rw [syncFrom?, syncFrom]
      dsimp only
      rw [IndexSet.get?_eq fun _ => hlt, Work.some_bind]
      split
      · exact (Noted.run_pure _).symm
      rename_i hi
      have hi : m.get i = false := by simpa using hi
      have hn' := (IndexSet.unmarked_insert hlt hi).trans_le (Nat.le_of_lt_succ hn)
      have hcall {r p} (hr : Passes (t, m.insert i) r) (hin : ∀ j ∈ p, t.Within b j) :
          syncFrom? bounds a r p = (syncFrom a n r p).run :=
        ih (hr.outline.proper ht) (fun hb => hr.outline.nonterminals ▸ ha hb)
          (hr.size.trans (IndexSet.size_insert.trans (hm.trans hr.outline.graph.size.symm)))
          (hr.unmarked_le.trans_lt hn') fun j hj => hr.outline.inside ⟨b, hin j hj⟩
      have hrest {r} (hr : Passes (t, m.insert i) r) :
          syncFrom? bounds a r (t.node i).next = (syncFrom a n r (t.node i).next).run :=
        hcall hr fun j hj => hw.next hj
      rw [ht.node?_eq ⟨b, hw⟩, Work.some_bind, IndexSet.insert?_eq fun _ => hlt, Work.some_bind]
      cases hk : (t.node i).kind with
      | sync y =>
        refine Noted.run_bind_of (ht.expected?_eq (fun j hj => ⟨b, hw.next hj⟩) ha) ?_
        rw [ht.registered.symbol?_eof, Work.some_bind, IndexSet.insert?_eq fun _ => ?_,
          Work.some_bind, Graph.setKind?_eq (Inside.lt ht.toFormed ⟨b, hw⟩), Work.some_bind]
        · exact Noted.run_bind_of (Noted.run_pure _).symm
            (hrest (.of_same (sameSources_fillSync hk a) _))
        · rw [size_expected]
          exact ht.registered.index_eof_lt_count
      | opt sub | iter sub =>
        have hin : ∀ j ∈ some sub, t.Within b j := fun j hj =>
          hw.sub ((congrArg NodeKind.sub? hk).trans hj)
        exact Noted.run_bind_of (hcall (.refl _) hin) (hrest (passes_syncFrom ..))
      | alt sub down =>
        have hin : ∀ j ∈ some sub, t.Within b j := fun j hj =>
          hw.sub ((congrArg NodeKind.sub? hk).trans hj)
        have hind : ∀ j ∈ down, t.Within b j := fun j hj =>
          hw.down ((congrArg NodeKind.down? hk).trans hj)
        have hs := passes_syncFrom a n (t, m.insert i) (some sub)
        refine Noted.run_bind_of (hcall (.refl _) hin) ?_
        exact Noted.run_bind_of (hcall hs hind) (hrest (hs.trans (passes_syncFrom ..)))
      | _ => exact Noted.run_bind_of (Noted.run_pure _).symm (hrest (.refl _))

/-! ### Follow sets along their sources -/

theorem sameSources_absorb (t : Table) (root a b : SymbolId) (j : Nat) :
    SameSources t (absorb root a t b j) := by
  refine ⟨(sameFirst_absorb ..).sameGrammar.outline, fun c => ?_⟩
  rw [sources_absorb]
  split
  · exact IndexSet.size_set ..
  · rfl

theorem passes_completeStep {root : SymbolId} {n : Nat} {r : Table × IndexSet}
    (h : Passes r (completeFrom root n r b)) (a : SymbolId) :
    Passes r (completeStep root n a r b) := by
  unfold completeStep
  split
  · exact h.trans (.of_same (sameSources_absorb ..) _)
  · exact .refl r

theorem passes_completeFrom (root : SymbolId) (n : Nat) (q : Table × IndexSet) (a : SymbolId) :
    Passes q (completeFrom root n q a) := by
  induction n generalizing q a with
  | zero => exact .refl q
  | succ n ih =>
    obtain ⟨t, m⟩ := q
    rw [completeFrom_succ]
    split
    · exact .refl _
    · refine (Passes.mark t m (t.symbol a).index).trans ?_
      generalize ((t, m.insert (t.symbol a).index) : Table × IndexSet) = r
      induction t.nonterminals.toList generalizing r with
      | nil => exact .refl r
      | cons b l ihl => exact (passes_completeStep (ih r b) a).trans (ihl _)

/-- The sources of `a` have a place for `b`. -/
theorem Formed.index_lt_sources (ht : t.Formed) (hz : t.Sourced bounds) (ha : a ∈ t.nonterminals)
    (hb : b ∈ t.nonterminals) :
    bounds = .checked → (t.symbol b).index < (t.symbol a).followSources.size := by
  intro hc
  rw [hz hc a ha]
  exact ht.registered.index_lt_size (k := .nonterminal) (by decide) hb

/-- What the search does with `b` on its way over the sources of `a`, if it comes back from it. -/
theorem Formed.completeStep?_eq {root : SymbolId} {r : Table × IndexSet} {n : Nat}
    (ht : r.1.Formed) (hz : r.1.Sourced bounds) (ha : a ∈ r.1.nonterminals)
    (hb : b ∈ r.1.nonterminals)
    (hcall : completeFrom? bounds root r b = some (completeFrom root n r b)) :
    (do
      let j := (← r.1.symbol? bounds b).index
      if ← (← r.1.symbol? bounds a).followSources.get? bounds j then
        let (t, m) ← completeFrom? bounds root r b
        let s := (← t.symbol? bounds b).follow
        let t ← t.updateSymbol? bounds a fun a' => do
          return { a' with
            follow := a'.follow.union s
            followSources :=
              ← if a = root then a'.followSources.erase? bounds j else a'.followSources }
        return (t, m)
      else return r) = some (completeStep root n a r b) := by
  rw [ht.symbol?_eq hb, some_bind, ht.symbol?_eq ha, some_bind,
    IndexSet.get?_eq (ht.index_lt_sources hz ha hb), some_bind]
  unfold completeStep
  dsimp only
  cases hc : (r.1.symbol a).followSources.get (r.1.symbol b).index with
  | false =>
    rw [if_neg Bool.false_ne_true, if_neg Bool.false_ne_true]
    rfl
  | true =>
    have hr := passes_completeFrom root n r b
    obtain ⟨w, k, hk⟩ : ∃ w k, completeFrom root n r b = (w, k) := ⟨_, _, rfl⟩
    rw [hk] at hr hcall
    have hw := hr.outline.formed ht
    have hwa : a ∈ w.nonterminals := hr.outline.nonterminals ▸ ha
    have hwb : b ∈ w.nonterminals := hr.outline.nonterminals ▸ hb
    rw [if_pos rfl, if_pos rfl, hcall, some_bind, hk]
    dsimp only
    rw [hw.symbol?_eq hwb, some_bind, updateSymbol?_eq (hw.lt hwa) (g := fun a' =>
      { a' with
        follow := a'.follow.union (w.symbol b).follow
        followSources := if a = root then a'.followSources.erase (r.1.symbol b).index
          else a'.followSources }), some_bind]
    · rfl
    · have hj := hw.index_lt_sources (hr.same.sourced hz) hwa hwb
      rw [hr.outline.index] at hj
      split
      · rw [IndexSet.erase?_eq hj]
        rfl
      · rfl

theorem Formed.completeFrom?_eq_from {root : SymbolId} {q : Table × IndexSet} {n : Nat}
    (ht : q.1.Formed) (hz : q.1.Sourced bounds) (hm : q.2.size = q.1.nonterminalCount)
    (hn : q.2.unmarked < n) (ha : a ∈ q.1.nonterminals) :
    completeFrom? bounds root q a = some (completeFrom root n q a) := by
  induction n generalizing q a with
  | zero => exact absurd hn (Nat.not_lt_zero _)
  | succ n ih =>
    obtain ⟨t, m⟩ := q
    have hlt : (t.symbol a).index < m.size :=
      hm ▸ ht.registered.index_lt_size (k := .nonterminal) (by decide) ha
    rw [completeFrom?, completeFrom_succ]
    dsimp only
    rw [ht.symbol?_eq ha, some_bind, IndexSet.get?_eq fun _ => hlt, some_bind]
    split
    · rfl
    rename_i hi
    have hi : m.get (t.symbol a).index = false := by simpa using hi
    have hn' := (IndexSet.unmarked_insert hlt hi).trans_le (Nat.le_of_lt_succ hn)
    rw [IndexSet.insert?_eq fun _ => hlt, some_bind]
    -- the table is formed throughout, and the marks only grow
    refine (foldlM_eq_some (P := Passes (t, m.insert (t.symbol a).index))
      (f := completeStep root n a) (fun r hr b hb => ?_) (.refl _)).1
    have hf := hr.outline.formed ht
    have hz' := hr.same.sourced hz
    have hra : a ∈ r.1.nonterminals := hr.outline.nonterminals ▸ ha
    have hrb : b ∈ r.1.nonterminals := hr.outline.nonterminals ▸ Array.mem_toList_iff.mp hb
    refine ⟨hf.completeStep?_eq hz' hra hrb (ih hf hz' ?_ ?_ hrb), ?_⟩
    · rw [hr.size, IndexSet.size_insert, nonterminalCount, hr.outline.nonterminals]
      exact hm
    · exact hr.unmarked_le.trans_lt hn'
    · exact hr.trans (passes_completeStep (passes_completeFrom root n r b) a)

/-! ### Whole passes -/

theorem Formed.root_inside (a : SymbolId) : ∀ i ∈ (t.symbol a).root, t.Inside i :=
  fun _ hi => ⟨a, .root hi⟩

theorem Formed.markDeletable?_eq (ht : t.Formed) (ha : a ∈ t.nonterminals) :
    t.markDeletable? bounds a = some (t.markDeletable a) := by
  unfold markDeletable? markDeletable
  rw [ht.symbol?_eq ha, some_bind, ht.restDeletable?_eq (Formed.root_inside a),
    modifySymbol?_eq (ht.lt ha)]
  dsimp only
  cases !(t.symbol a).deletable && (t.symbol a).root.isSome <;>
    cases t.restDeletable (t.symbol a).root <;> rfl

/-- Every round but the last marks a nonterminal. -/
theorem Formed.closeDeletable?_eq_from {n : Nat} (ht : t.Formed)
    (hn : t.nonterminalCount < t.deletableCount + n) :
    t.closeDeletable? bounds = some (closeDeletable n t) := by
  induction n generalizing t with
  | zero => exact absurd hn (Nat.not_lt_of_le t.deletableCount_le)
  | succ n ih =>
    have hround : t.nonterminals.toList.foldlM (markDeletable? bounds) t =
        some t.deletableRound :=
      (foldlM_eq_some (P := fun u => SameGrammar t u) (fun u hu a ha =>
        ⟨(hu.formed ht).markDeletable?_eq (hu.nonterminals ▸ Array.mem_toList_iff.mp ha),
          hu.trans (sameGrammar_markDeletable u a)⟩) (.refl t)).1
    have hsame := sameGrammar_round t
    rw [closeDeletable?, closeDeletable, hround]
    show (if t.deletableRound.deletableCount = t.deletableCount then some t.deletableRound
      else t.deletableRound.closeDeletable? bounds) = _
    split
    · rfl
    rename_i hne
    refine ih (hsame.formed ht) ?_
    rcases round_cases ht (l := t.nonterminals.toList) (by simp) with ⟨he, -⟩ | hlt
    · exact absurd (congrArg deletableCount he) hne
    · change t.deletableCount < t.deletableRound.deletableCount at hlt
      have : t.deletableRound.nonterminalCount = t.nonterminalCount :=
        congrArg Array.size hsame.nonterminals
      omega

theorem Formed.computeDeletable?_eq (ht : t.Formed) :
    t.computeDeletable? bounds = t.computeDeletable.run := by
  have hu := t.sameDeclared_computeDeletable.toSameOutline.formed ht
  rw [computeDeletable?, ht.closeDeletable?_eq_from (n := t.nonterminalCount + 1) (by omega),
    Work.some_bind, show closeDeletable (t.nonterminalCount + 1) t = t.computeDeletable.value from
      rfl, hu.registered.symbols?_nonterminals]
  rfl

theorem outline_setFirst (t : Table) (a : SymbolId) : SameOutline t (t.setFirst a).value := by
  refine SameDeclared.toSameOutline ?_
  exact .modifySymbol t a (fun _ => rfl) (fun _ => rfl) (fun _ => rfl) fun _ => rfl

theorem Formed.resetFirst?_eq (ht : t.Formed) :
    t.resetFirst? bounds = some t.resetFirst ∧ SameOutline t t.resetFirst := by
  refine foldlM_eq_some (P := SameOutline t) (fun u hu a ha => ⟨?_, hu.trans ?_⟩)
    (SameGrammar.refl t).outline
  · exact modifySymbol?_eq (hu.size ▸ ht.lt (Array.mem_toList_iff.mp ha)) _
  · refine SameDeclared.toSameOutline ?_
    exact .modifySymbol u a (fun _ => rfl) (fun _ => rfl) (fun _ => rfl) fun _ => rfl

theorem Proper.computeFirst?_eq (ht : t.Proper bounds) :
    t.computeFirst? bounds = t.computeFirst.run := by
  obtain ⟨hr, hs⟩ : t.resetFirst? bounds = _ ∧ _ := ht.resetFirst?_eq
  rw [computeFirst?, hr, Work.some_bind]
  exact (Noted.run_foldlM (P := SameOutline t) (fun u hu a ha =>
    ⟨(hu.proper ht).setFirst?_eq (hu.nonterminals ▸ Array.mem_toList_iff.mp ha),
      hu.trans (outline_setFirst u a)⟩) hs).1

theorem Proper.restrictProduction?_eq (ht : t.Proper bounds) (ha : a ∈ t.nonterminals) :
    t.restrictProduction? bounds a = (t.restrictProduction a).run := by
  rw [restrictProduction?, ht.symbol?_eq ha, Work.some_bind]
  exact ht.restrictFrom?_eq_from (ht.shallow (Formed.root_inside a)) (Formed.root_inside a)

theorem Proper.computeWildcards?_eq (ht : t.Proper bounds) :
    t.computeWildcards? bounds = t.computeWildcards.run :=
  (Noted.run_foldlM (P := Redrawn t) (fun _ hu _ ha =>
    ⟨(hu.outline.proper ht).restrictProduction?_eq
      (hu.outline.nonterminals ▸ Array.mem_toList_iff.mp ha),
      hu.trans (redrawn_restrictFrom ..)⟩) (.refl t)).1

/-- No walk with fresh marks has more to pass than there are indices. -/
theorem unmarked_empty_lt (n : Nat) : (IndexSet.empty n).unmarked < n + 1 :=
  Nat.lt_succ_of_le ((IndexSet.unmarked_le_size _).trans_eq (IndexSet.size_empty n))

theorem sameSources_followProduction (t : Table) (a : SymbolId) :
    SameSources t (t.followProduction a).value :=
  (passes_followFrom a _ (t, _) _).same

theorem sameSources_completeFollow (t : Table) (a : SymbolId) :
    SameSources t (t.completeFollow a) :=
  (passes_completeFrom a _ (t, _) a).same

theorem outline_syncProduction (t : Table) (a : SymbolId) :
    SameOutline t (t.syncProduction a).value :=
  (passes_syncFrom a _ (t, _) _).outline

theorem Proper.followProduction?_eq (ht : t.Proper bounds) (hz : t.Sourced bounds)
    (ha : a ∈ t.nonterminals) :
    t.followProduction? bounds a = (t.followProduction a).run := by
  rw [followProduction?, ht.symbol?_eq ha, Work.some_bind, followProduction]
  exact Noted.run_bind_of (Proper.followFrom?_eq_from ht hz (fun _ => ha) (IndexSet.size_empty _)
    (unmarked_empty_lt _) (Formed.root_inside a)) (Noted.run_pure _).symm

theorem Formed.completeFollow?_eq (ht : t.Formed) (hz : t.Sourced bounds)
    (ha : a ∈ t.nonterminals) : t.completeFollow? bounds a = some (t.completeFollow a) := by
  rw [completeFollow?, Formed.completeFrom?_eq_from ht hz (IndexSet.size_empty _)
    (unmarked_empty_lt _) ha]
  rfl

theorem Proper.syncProduction?_eq (ht : t.Proper bounds) (ha : a ∈ t.nonterminals) :
    t.syncProduction? bounds a = (t.syncProduction a).run := by
  rw [syncProduction?, ht.symbol?_eq ha, Work.some_bind, syncProduction]
  exact Noted.run_bind_of (Proper.syncFrom?_eq_from ht (fun _ => ha) (IndexSet.size_empty _)
    (unmarked_empty_lt _) (Formed.root_inside a)) (Noted.run_pure _).symm

/-- The sets that the walks for follow sets start with have a place for each nonterminal. -/
theorem Formed.sourced_resetFollow (ht : t.Formed) : t.resetFollow.Sourced bounds := by
  intro _ a ha
  have h := sameFirst_resetFollow t
  rw [h.nonterminals] at ha
  rw [(symbol_resetFollow ht ha).2, IndexSet.size_empty, nonterminalCount, nonterminalCount,
    h.nonterminals]

theorem Formed.resetFollow?_eq (ht : t.Formed) :
    t.resetFollow? bounds = some t.resetFollow := by
  have hloop := foldlM_eq_some (l := t.nonterminals.toList) (b := t)
    (P := fun u => SameFirst t u)
    (g := fun u a => u.modifySymbol? bounds a fun s =>
      { s with
        follow := .empty t.terminalCount
        followSources := .empty t.nonterminalCount })
    (f := fun u a => u.modifySymbol a fun s =>
      { s with
        follow := .empty t.terminalCount
        followSources := .empty t.nonterminalCount })
    (fun u hu a ha => by
      refine ⟨modifySymbol?_eq (hu.size ▸ ht.lt (Array.mem_toList_iff.mp ha)) _, hu.trans ?_⟩
      refine .modifySymbol u a fun s => ?_
      rfl) (.refl t)
  have hfollow {a} (ha : a ∈ t.nonterminals) :
      ((t.nonterminals.toList.foldl (fun u a => u.modifySymbol a fun s =>
        { s with
          follow := .empty t.terminalCount
          followSources := .empty t.nonterminalCount }) t).symbol a).follow =
        .empty t.terminalCount := by
    rw [symbol_foldl_modifySymbol, if_pos ⟨Array.mem_toList_iff.mpr ha, ht.lt ha⟩]
    exact fun _ => rfl
  unfold resetFollow? resetFollow
  dsimp only
  rw [hloop.1, some_bind]
  have hsize := hloop.2.size
  generalize t.nonterminals.toList.foldl _ t = w at hfollow hsize ⊢
  cases hs : t.start with
  | none => rfl
  | some a =>
    have ha : a ∈ t.nonterminals := ht.registered.start a hs
    dsimp only
    rw [ht.registered.symbol?_eof, some_bind, updateSymbol?_eq (hsize ▸ ht.lt ha)
      (g := fun s => { s with follow := s.follow.insert (t.symbol t.eof).index })]
    rw [IndexSet.insert?_eq fun _ => ?_]
    · rfl
    · rw [hfollow ha, IndexSet.size_empty]
      exact ht.registered.index_eof_lt_count

theorem Proper.computeFollow?_eq (ht : t.Proper bounds) :
    t.computeFollow? bounds = t.computeFollow.run := by
  have hz : t.resetFollow.Sourced bounds := ht.sourced_resetFollow
  have hp := (sameFirst_resetFollow t).sameGrammar.outline.proper ht
  rw [computeFollow?, ht.resetFollow?_eq, Work.some_bind, computeFollow]
  have hn : t.nonterminals = t.resetFollow.nonterminals :=
    (sameFirst_resetFollow t).nonterminals.symm
  generalize t.resetFollow = s at hz hp hn
  rw [hn]
  have hdirect := Noted.run_foldlM (l := s.nonterminals.toList) (P := SameSources s)
    (fun u hu a ha => ⟨(hu.proper hp).followProduction?_eq (hu.sourced hz)
      (hu.nonterminals ▸ Array.mem_toList_iff.mp ha),
      hu.trans (sameSources_followProduction u a)⟩) (.refl s)
  refine Noted.run_bind_of hdirect.1 ?_
  generalize (s.nonterminals.toList.foldlM followProduction s).value = u at hdirect
  have hu := hdirect.2.formed hp.toFormed
  have hrest := foldlM_eq_some (l := u.nonterminals.toList) (P := SameSources u)
    (fun v hv a ha => ⟨(hv.formed hu).completeFollow?_eq (hv.sourced (hdirect.2.sourced hz))
      (hv.nonterminals ▸ Array.mem_toList_iff.mp ha),
      hv.trans (sameSources_completeFollow v a)⟩) (.refl u)
  rw [hrest.1]
  exact (Noted.run_pure _).symm

theorem outline_syncs (t : Table) (x : IndexSet) : SameOutline t { t with syncs := x } :=
  Redrawn.outline ⟨⟨rfl, by funext k; cases k <;> rfl, rfl, rfl, rfl⟩, .refl _⟩

theorem Proper.computeSyncs?_eq (ht : t.Proper bounds) :
    t.computeSyncs? bounds = t.computeSyncs.run := by
  rw [computeSyncs?, ht.registered.symbol?_eof, Work.some_bind, IndexSet.insert?_eq fun _ => ?_,
    Work.some_bind]
  · exact (Noted.run_foldlM (P := SameOutline t) (fun u hu a ha =>
      ⟨(hu.proper ht).syncProduction?_eq (hu.nonterminals ▸ Array.mem_toList_iff.mp ha),
        hu.trans (outline_syncProduction u a)⟩) (outline_syncs t _)).1
  · rw [IndexSet.size_empty]
    exact ht.registered.index_eof_lt_count

/-- What the listings look up is there. -/
theorem Formed.lookUps?_eq (ht : t.Formed) : t.lookUps? bounds = some () := by
  have hlists : ∀ a ∈ (t.terminals ++ t.pragmas ++ t.nonterminals).toList,
      a < t.symbols.size := by
    intro a ha
    simp only [Array.toList_append, List.mem_append, Array.mem_toList_iff] at ha
    rcases ha with (ha | ha) | ha
    · exact ht.registered.lt (k := .terminal) ha
    · exact ht.registered.lt (k := .pragma) ha
    · exact ht.lt ha
  have hliterals : ∀ a ∈ t.literals.toList.map (·.2), a < t.symbols.size := by
    intro a ha
    obtain ⟨p, hp, rfl⟩ := List.mem_map.mp ha
    exact ht.registered.literal p (Array.mem_toList_iff.mp hp)
  rw [lookUps?, symbols?_eq hlists, some_bind, symbols?_eq hliterals, some_bind]
  refine forM_eq_some fun n hn => ?_
  obtain ⟨i, hi, rfl⟩ := Array.mem_iff_getElem.mp (Array.mem_toList_iff.mp hn)
  have hk := ht.allows i
  rw [Graph.kind, Graph.node, Array.getD_eq_getD_getElem?, Array.getElem?_eq_getElem hi,
    Option.getD_some] at hk
  have hsymbols : ∀ a ∈ t.graph.nodes[i].kind.symbol?.toList, a < t.symbols.size := by
    intro a ha
    cases hl : t.graph.nodes[i].kind <;> rw [hl] at hk ha <;> simp [NodeKind.symbol?] at ha
    · exact ha ▸ hk.1
    · exact hk.elim
    · exact ha ▸ ht.lt hk
    · exact ha ▸ hk.1
  cases hl : t.graph.nodes[i].kind with
  | charClass c code =>
    rw [hl] at hk
    exact hk.elim
  | _ =>
    rw [hl] at hsymbols
    dsimp only
    rw [symbols?_eq hsymbols]
    rfl

theorem Proper.computeSets?_eq (ht : t.Proper bounds) :
    t.computeSets? bounds = t.computeSets.run := by
  have h₁ := t.sameDeclared_computeDeletable.toSameOutline
  have h₂ := h₁.trans (sameDeclared_computeFirst _).toSameOutline
  have h₃ := h₂.trans (redrawn_computeWildcards _).outline
  have h₄ := h₃.trans ((h₃.formed ht.toFormed).sameFirst_computeFollow).sameGrammar.outline
  have h₅ := h₄.trans (sameGrammar_computeSyncs _).1.outline
  refine Noted.run_bind_of ht.computeDeletable?_eq ?_
  refine Noted.run_bind_of (h₁.proper ht).computeFirst?_eq ?_
  refine Noted.run_bind_of (h₂.proper ht).computeWildcards?_eq ?_
  refine Noted.run_bind_of (h₃.proper ht).computeFollow?_eq ?_
  refine Noted.run_bind_of (h₄.proper ht).computeSyncs?_eq ?_
  rw [(h₅.formed ht.toFormed).lookUps?_eq, Work.some_bind]
  exact Noted.run_bind_of rfl (Noted.run_bind_of rfl (Noted.run_pure _).symm)

end Table

end Lookahead
