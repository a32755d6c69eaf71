import Lookahead.Analysis
import Lookahead.Proofs.Follow
import Lookahead.Proofs.Runs

/-!
# What is computed

Synchronisation sets are filled in last, and nothing that is said about the other sets looks at
them (`Table.computeSyncs_induct`). So all of it holds of the table that the checks are made of
(`Grammar.computed_computeSets`).
-/

namespace Lookahead

/-- A graph without wildcards and resolvers. -/
def Graph.isPlain (g : Graph) : Bool :=
  g.nodes.all fun n => match n.kind with
    | .any _ | .resolver => false
    | _ => true

theorem Graph.kind_of_isPlain {g : Graph} (hg : g.isPlain = true) (i : NodeId) :
    (∀ set, g.kind i ≠ .any set) ∧ g.kind i ≠ .resolver := by
  by_cases hi : i < g.nodes.size
  · have h := Array.all_eq_true.mp hg i hi
    have hk : g.kind i = g.nodes[i].kind := by
      simp [Graph.kind, Graph.node, hi]
    rw [hk]
    refine ⟨?_, ?_⟩
    · intro set hc
      rw [hc] at h
      cases h
    · intro hc
      rw [hc] at h
      cases h
  · have hk : g.kind i = .empty := by
      rw [Graph.kind, Graph.node_of_size_le (Nat.le_of_not_lt hi)]
    simp [hk]

namespace Table

variable {t u v : Table} {a : SymbolId} {i : NodeId} {p : Option NodeId}

/-! ### Synchronisation sets -/

section

variable {R : Table → Table → Prop} (hr : ∀ t, R t t) (ht : ∀ t u v, R t u → R u v → R t v)
  (hs : ∀ t i x s s', t.graph.kind i = .sync s' →
    R t ({ t with syncs := x }.onGraph fun g => g.setKind i (.sync s)))
include hr ht hs

theorem syncFrom_induct (a : SymbolId) (fuel : Nat) (q : Table × IndexSet)
    (p : Option NodeId) : R q.1 (syncFrom a fuel q p).value.1 := by
  induction fuel generalizing q p with
  | zero => exact hr q.1
  | succ fuel ih =>
    obtain ⟨t, m⟩ := q
    cases p with
    | none => exact hr t
    | some i =>
      simp only [syncFrom]
      split
      · exact hr t
      · split
        · rename_i s' hk
          exact ht _ _ _ (hs t i _ _ s' hk) (ih (_, _) _)
        · exact ht _ _ _ (ih (t, _) _) (ht _ _ _ (ih _ _) (ih _ _))
        · exact ht _ _ _ (ih (t, _) _) (ih _ _)
        · exact ht _ _ _ (ih (t, _) _) (ih _ _)
        · exact ih (t, _) _

theorem computeSyncs_induct (hx : ∀ t x, R t { t with syncs := x }) (t : Table) :
    R t t.computeSyncs.value := by
  have hf (l : List SymbolId) (t : Table) :
      R t (l.foldl (fun t a => (t.syncProduction a).value) t) := by
    induction l generalizing t with
    | nil => exact hr t
    | cons a l ih =>
      have h := syncFrom_induct hr ht hs a (t.graph.size + 1) (t, .empty t.graph.size)
        (t.symbol a).root
      exact ht _ _ _ h (ih _)
  unfold computeSyncs
  rw [Noted.value_foldlM]
  exact ht _ _ _ (hx t _) (hf ..)

end

/-- The table has the same symbols, and differs in nothing but synchronisation sets. -/
theorem sameGrammar_computeSyncs (t : Table) :
    SameGrammar t t.computeSyncs.value ∧ t.computeSyncs.value.symbols = t.symbols := by
  refine computeSyncs_induct (R := fun t u => SameGrammar t u ∧ u.symbols = t.symbols)
    (fun t => ⟨.refl t, rfl⟩) (fun t u v h h' => ⟨h.1.trans h'.1, h'.2.trans h.2⟩)
    (fun t i x s s' hk => ⟨?_, rfl⟩) (fun t x => ⟨?_, rfl⟩) t
  · have hkind (j : NodeId) : (t.graph.setKind i (.sync s)).kind j =
        if i = j ∧ j < t.graph.size then .sync s else t.graph.kind j := Graph.kind_setKind ..
    refine ⟨rfl, by funext k; cases k <;> rfl, rfl, rfl, rfl, fun _ => rfl, fun _ => rfl,
      fun _ => rfl, ⟨Graph.size_setKind .., fun j => ?_, fun j => Graph.next_setKind ..,
        fun j => Graph.up_setKind ..⟩, fun j set => ?_⟩
    · rw [onGraph, hkind]
      split
      · rename_i h
        rw [← h.1, hk]
        rfl
      · rfl
    · rw [onGraph, hkind]
      split
      · rename_i h
        rw [← h.1, hk]
        simp
      · rfl
  · exact ⟨rfl, by funext k; cases k <;> rfl, rfl, rfl, rfl, fun _ => rfl, fun _ => rfl,
      fun _ => rfl, .refl _, fun _ _ => .rfl⟩

/-! ### All sets -/

/-- All sets of the table are exact. -/
structure Computed (t : Table) : Prop where
  formed : t.Formed
  wild : t.Wild
  exact : Exact t
  ready : ReadyExact t
  least : IsLeast {F | t.FollowClosed F} t.followFamily

theorem ReadyExact.of_same (hr : ReadyExact t) (h : SameGrammar t u)
    (hf : ∀ a, (u.symbol a).first = (t.symbol a).first)
    (hy : ∀ a, (u.symbol a).firstReady = (t.symbol a).firstReady) : ReadyExact u := by
  intro a ha hready b hb
  rw [hf, h.index]
  simp only [h.derives_iff]
  exact hr a (h.nonterminals ▸ ha) (hy a ▸ hready) b (h.terminals ▸ hb)

theorem Exact.of_same (he : Exact t) (h : SameGrammar t u)
    (hd : ∀ a, u.isDeletable a = t.isDeletable a) : Exact u := by
  intro a ha
  rw [hd, h.derives_iff]
  exact he a (h.nonterminals ▸ ha)

theorem Computed.of_same (ht : Computed t) (h : SameGrammar t u) (hs : u.symbols = t.symbols) :
    Computed u := by
  have hsym (a : SymbolId) : u.symbol a = t.symbol a := by
    rw [Table.symbol, hs, Table.symbol]
  have he : Exact u := ht.exact.of_same h fun a => by rw [isDeletable, hsym, isDeletable]
  have hr : ReadyExact u :=
    ht.ready.of_same h (fun a => by rw [hsym]) fun a => by rw [hsym]
  have hclosed (F : SymbolId → Set SymbolId) : u.FollowClosed F ↔ t.FollowClosed F := by
    have hnext {a i} (hi : t.Within a i) : ∀ j ∈ t.graph.next i, t.Within a j :=
      fun j hj => hi.next hj
    have hfirst {a i} (hi : t.Within a i) :
        u.firstSet (u.graph.next i) = t.firstSet (t.graph.next i) := by
      rw [h.graph.next]
      exact h.firstSet_eq ht.formed ht.wild ht.exact ht.ready he hr
        fun j hj => ⟨a, hnext hi j hj⟩
    have hrest {a i} (hi : t.Within a i) :
        u.restDeletable (u.graph.next i) = t.restDeletable (t.graph.next i) := by
      rw [Bool.eq_iff_iff, h.graph.next, ht.exact.restDeletable_iff ht.formed (hnext hi),
        he.restDeletable_iff (h.formed ht.formed) fun j hj => h.within (hnext hi j hj)]
      simp only [h.spells_iff, h.derives_iff]
    have hkind {i b} : u.graph.kind i = .nonterminal b ↔ t.graph.kind i = .nonterminal b :=
      ⟨fun hk => h.symm.kind_of hk (by simp), fun hk => h.kind_of hk (by simp)⟩
    refine ⟨?_, ?_⟩
    · rintro ⟨h₁, h₂, h₃⟩
      refine ⟨fun a ha => ?_, fun a ha i b hi hk c hc hf => ?_, fun a ha i b hi hk hd => ?_⟩
      · rw [← h.eof]
        exact h₁ a (h.start.trans ha)
      · refine h₂ a (h.nonterminals ▸ ha) i b (h.within hi) (hkind.mpr hk) c (h.terminals ▸ hc) ?_
        rwa [hfirst hi, h.index]
      · refine h₃ a (h.nonterminals ▸ ha) i b (h.within hi) (hkind.mpr hk) ?_
        rwa [hrest hi]
    · rintro ⟨h₁, h₂, h₃⟩
      refine ⟨fun a ha => ?_, fun a ha i b hi hk c hc hf => ?_, fun a ha i b hi hk hd => ?_⟩
      · rw [h.eof]
        exact h₁ a (h.start.symm.trans ha)
      · have hi := h.within_iff.mp hi
        refine h₂ a (h.nonterminals ▸ ha) i b hi (hkind.mp hk) c (h.terminals ▸ hc) ?_
        rwa [hfirst hi, h.index] at hf
      · have hi := h.within_iff.mp hi
        refine h₃ a (h.nonterminals ▸ ha) i b hi (hkind.mp hk) ?_
        rwa [hrest hi] at hd
  refine ⟨h.formed ht.formed, h.wild ht.wild, he, hr, ?_⟩
  have hfam : u.followFamily = t.followFamily := by
    funext a
    simp only [followFamily, h.nonterminals, h.terminals, hsym]
  simpa only [hclosed, hfam] using ht.least

theorem Formed.sameFirst_computeFollow (ht : t.Formed) : SameFirst t t.computeFollow.value := by
  have hg := ht.gains_directFollow
  have hd : t.directFollow.Formed := hg.same.sameGrammar.formed ht
  rw [value_computeFollow, hg.same.nonterminals]
  refine hg.same.trans ((Pending.refl hg.sized).foldl hd fun a ha => ?_).1.same
  rw [hg.same.nonterminals]
  exact Array.mem_toList_iff.mp ha

theorem Formed.computed_computeFollow (ht : t.Formed) (hw : t.Wild) (he : Exact t)
    (hr : ReadyExact t) : Computed t.computeFollow.value := by
  have h := ht.sameFirst_computeFollow
  refine ⟨h.sameGrammar.formed ht, h.sameGrammar.wild hw,
    he.of_same h.sameGrammar fun a => congrFun h.isDeletable a,
    hr.of_same h.sameGrammar ?_ ?_, ht.followExact.least⟩
  · exact h.field Symbol.first fun _ => rfl
  · exact h.field Symbol.firstReady fun _ => rfl

/-! ### What the sets leave alone -/

/-- The tables differ at most in what the analysis finds out. -/
structure SameDeclared (t u : Table) : Prop extends SameOutline t u where
  name : ∀ s, (u.symbol s).name = (t.symbol s).name

namespace SameDeclared

theorem refl (t : Table) : SameDeclared t t := ⟨(SameGrammar.refl t).outline, fun _ => rfl⟩

theorem trans (h : SameDeclared t u) (h' : SameDeclared u v) : SameDeclared t v where
  size := h'.size.trans h.size
  listed := h'.listed.trans h.listed
  literals := h'.literals.trans h.literals
  start := h'.start.trans h.start
  eof := h'.eof.trans h.eof
  kind s := (h'.kind s).trans (h.kind s)
  index s := (h'.index s).trans (h.index s)
  root s := (h'.root s).trans (h.root s)
  graph := h.graph.trans h'.graph
  name s := (h'.name s).trans (h.name s)

theorem modifySymbol (t : Table) (a : SymbolId) {f : Symbol → Symbol}
    (hk : ∀ b, (f b).kind = b.kind) (hi : ∀ b, (f b).index = b.index)
    (hr : ∀ b, (f b).root = b.root) (hn : ∀ b, (f b).name = b.name) :
    SameDeclared t (t.modifySymbol a f) :=
  ⟨(SameGrammar.modifySymbol t a hk hi hr).outline, symbol_modifySymbol_congr hn a⟩

theorem foldl {f : Table → SymbolId → Table} (hf : ∀ t a, SameDeclared t (f t a))
    (l : List SymbolId) (t : Table) : SameDeclared t (l.foldl f t) := by
  induction l generalizing t with
  | nil => exact refl t
  | cons a l ih => exact (hf t a).trans (ih _)

theorem of_symbols (h : SameOutline t u) (hs : u.symbols = t.symbols) : SameDeclared t u :=
  ⟨h, fun s => by rw [symbol, hs, symbol]⟩

end SameDeclared

theorem sameDeclared_computeDeletable (t : Table) :
    SameDeclared t t.computeDeletable.value := by
  have hmark (t : Table) (a : SymbolId) : SameDeclared t (t.markDeletable a) := by
    simp only [markDeletable]
    split
    · exact .modifySymbol t a (fun _ => rfl) (fun _ => rfl) (fun _ => rfl) fun _ => rfl
    · exact .refl t
  have hclose (fuel : Nat) : ∀ t, SameDeclared t (closeDeletable fuel t) := by
    induction fuel with
    | zero => exact .refl
    | succ fuel ih =>
      intro t
      have hround : SameDeclared t t.deletableRound := .foldl hmark _ t
      simp only [closeDeletable]
      split
      · exact hround
      · exact hround.trans (ih _)
  exact hclose _ t

theorem sameDeclared_computeFirst (t : Table) : SameDeclared t t.computeFirst.value := by
  have hreset : SameDeclared t t.resetFirst := by
    refine .foldl (fun u a => ?_) _ t
    exact .modifySymbol u a (fun _ => rfl) (fun _ => rfl) (fun _ => rfl) fun _ => rfl
  rw [computeFirst, Noted.value_foldlM]
  refine hreset.trans (.foldl (fun u a => ?_) _ _)
  exact .modifySymbol u a (fun _ => rfl) (fun _ => rfl) (fun _ => rfl) fun _ => rfl

/-- Computing the sets leaves alone what has been declared. -/
theorem Formed.sameDeclared_computeSets (ht : t.Formed) : SameDeclared t t.computeSets.value := by
  simp only [computeSets, Noted.value_bind, Noted.value_pure]
  have h₁ := t.sameDeclared_computeDeletable.trans (sameDeclared_computeFirst _)
  have h₂ := redrawn_computeWildcards t.computeDeletable.value.computeFirst.value
  have h₁₂ := h₁.trans (.of_symbols h₂.outline h₂.same.symbols)
  have h₃ := (h₁₂.formed ht).sameFirst_computeFollow
  have h₁₃ := h₁₂.trans ⟨h₃.sameGrammar.outline, h₃.field Symbol.name fun _ => rfl⟩
  obtain ⟨h₄, hs⟩ := sameGrammar_computeSyncs
    t.computeDeletable.value.computeFirst.value.computeWildcards.value.computeFollow.value
  exact h₁₃.trans (.of_symbols h₄.outline hs)

end Table

namespace Grammar

variable {source : String} {cfg : Config} {log : Log} {g : Grammar}

/-- Without wildcards all sets but synchronisation sets are exact before these are filled in. -/
theorem exists_computeSyncs (h : (Grammar.parse source cfg log).2 = .ok g)
    (hg : ∀ i set, g.table.graph.kind i ≠ .any set) :
    ∃ t : Table, g.table.computeSets.value = t.computeSyncs.value ∧ Table.SameGrammar g.table t ∧
      t.Computed ∧ ∀ a ∈ t.nonterminals, (t.symbol a).firstReady = true := by
  obtain ⟨ht, hd, hw⟩ := formed_parse h
  obtain ⟨h₁, he⟩ := ht.exact_computeDeletable hd
  obtain ⟨h₂, hr, hready⟩ := (h₁.formed ht).exact_computeFirst (h₁.wild hw) he
  have h₁₂ := h₁.trans h₂.same
  have hany : g.table.computeDeletable.value.computeFirst.value.computeWildcards.value =
      g.table.computeDeletable.value.computeFirst.value :=
    Table.computeWildcards_eq_self fun i set hk => hg i set ((h₁₂.any i set).mp hk)
  have ht₂ := h₁₂.formed ht
  have hfirst := ht₂.sameFirst_computeFollow
  refine ⟨g.table.computeDeletable.value.computeFirst.value.computeFollow.value, ?_,
    h₁₂.trans hfirst.sameGrammar, ht₂.computed_computeFollow (h₁₂.wild hw) (h₂.exact he) hr,
    fun a ha => ?_⟩
  · simp only [Table.computeSets, Noted.value_bind, Noted.value_pure, hany]
  · rw [hfirst.field Symbol.firstReady fun _ => rfl]
    rw [hfirst.nonterminals, h₂.same.nonterminals] at ha
    exact hready a ha

/-- The sets of a grammar without wildcards are exact. -/
theorem computed_computeSets (h : (Grammar.parse source cfg log).2 = .ok g)
    (hg : ∀ i set, g.table.graph.kind i ≠ .any set) :
    Table.SameGrammar g.table g.table.computeSets.value ∧ g.table.computeSets.value.Computed := by
  obtain ⟨t, ht, hsame, hc, -⟩ := exists_computeSyncs h hg
  obtain ⟨hsyncs, hs⟩ := t.sameGrammar_computeSyncs
  rw [ht]
  exact ⟨hsame.trans hsyncs, hc.of_same hsyncs hs⟩

end Grammar

end Lookahead
