import Lookahead.Proofs.Lookaheads
import Lookahead.Proofs.Mirror
import Lookahead.Proofs.Syncs

/-!
# Sets of tables that mirror each other

Sets of symbols agree if corresponding symbols are in them (`Table.Agree`). Between tables that
mirror each other all exact sets agree: they are determined by what the tables derive, and not by
the order in which they have been computed.
-/

namespace Lookahead

/-- The sets have an index in common. -/
theorem IndexSet.overlaps_iff {x y : IndexSet} :
    x.overlaps y = true ↔ ∃ n, x.get n = true ∧ y.get n = true := by
  unfold overlaps get
  rw [Array.any_eq_true]
  simp only [Array.size_zip, Array.getElem_zip, Bool.and_eq_true, Array.getD_eq_getD_getElem?]
  refine ⟨fun ⟨n, hn, hx, hy⟩ => ⟨n, ?_, ?_⟩, fun ⟨n, hx, hy⟩ => ?_⟩
  · rw [Array.getElem?_eq_getElem (by omega)]
    exact hx
  · rw [Array.getElem?_eq_getElem (by omega)]
    exact hy
  · have hnx : n < x.bits.size := IndexSet.lt_of_get (s := x) (by simpa [get] using hx)
    have hny : n < y.bits.size := IndexSet.lt_of_get (s := y) (by simpa [get] using hy)
    refine ⟨n, by omega, ?_, ?_⟩
    · simpa [hnx] using hx
    · simpa [hny] using hy

namespace Table

variable {S : SymbolId → SymbolId → Prop} {N : NodeId → NodeId → Prop}

/-- Corresponding symbols of one kind are in the sets. -/
structure Agree (S : SymbolId → SymbolId → Prop) (k : SymbolKind) (t u : Table) (x y : IndexSet) :
    Prop where
  size : x.size = (t.listed k).size
  size' : y.size = (u.listed k).size
  get : ∀ a b, S a b → a ∈ t.listed k → y.get (u.symbol b).index = x.get (t.symbol a).index

/-- The names of the terminals in the set. -/
def names (t : Table) (x : IndexSet) : Set String :=
  {n | ∃ a ∈ t.terminals, (t.symbol a).name = n ∧ x.get (t.symbol a).index = true}

variable {t u : Table} {k : SymbolKind} {a b : SymbolId} {i j : NodeId} {p q : Option NodeId}
  {x x' y y' : IndexSet} {fuel : Nat}

/-! ### Sets that agree -/

namespace Agree

theorem empty (S : SymbolId → SymbolId → Prop) (k : SymbolKind) (t u : Table) :
    Agree S k t u (.empty (t.listed k).size) (.empty (u.listed k).size) :=
  ⟨IndexSet.size_empty _, IndexSet.size_empty _, by simp⟩

variable (h : Mirrors S N t u) (ht : Registered t) (hu : Registered u) (hk : k ≠ .pragma)
include h ht hu hk

theorem union (hxy : Agree S k t u x y) (hxy' : ∀ a b, S a b → a ∈ t.listed k →
    y'.get (u.symbol b).index = x'.get (t.symbol a).index) :
    Agree S k t u (x.union x') (y.union y') where
  size := IndexSet.size_union.trans hxy.size
  size' := IndexSet.size_union.trans hxy.size'
  get a b hab ha := by
    have hb := (h.listed ht hu hab).mp ha
    rw [IndexSet.get_union (hxy.size'.symm ▸ hu.index_lt_size hk hb),
      IndexSet.get_union (hxy.size.symm ▸ ht.index_lt_size hk ha), hxy.get a b hab ha,
      hxy' a b hab ha]

theorem insert (hxy : Agree S k t u x y) (hab : S a b) (ha : a ∈ t.listed k) :
    Agree S k t u (x.insert (t.symbol a).index) (y.insert (u.symbol b).index) where
  size := IndexSet.size_insert.trans hxy.size
  size' := IndexSet.size_insert.trans hxy.size'
  get c d hcd hc := by
    have hb := (h.listed ht hu hab).mp ha
    have hd := (h.listed ht hu hcd).mp hc
    have hsame : (u.symbol b).index = (u.symbol d).index ↔
        (t.symbol a).index = (t.symbol c).index := by
      refine ⟨fun he => ?_, fun he => ?_⟩
      · obtain rfl := hu.index_inj hk hb hd he
        rw [h.unique.1 hab hcd]
      · obtain rfl := ht.index_inj hk ha hc he
        rw [h.unique.2 hab hcd]
    rw [IndexSet.get_insert (hxy.size'.symm ▸ hu.index_lt_size hk hd),
      IndexSet.get_insert (hxy.size.symm ▸ ht.index_lt_size hk hc), hxy.get c d hcd hc]
    simp only [hsame]

theorem overlaps_of (hxy : Agree S k t u x y) (hxy' : Agree S k t u x' y')
    (hx : x.overlaps x' = true) : y.overlaps y' = true := by
  obtain ⟨n, hn, hn'⟩ := IndexSet.overlaps_iff.mp hx
  obtain ⟨a, ha, rfl⟩ := ht.exists_index hk (hxy.size ▸ IndexSet.lt_of_get hn)
  obtain ⟨b, -, hab⟩ := h.exists_listed ht hu hk ha
  exact IndexSet.overlaps_iff.mpr
    ⟨_, (hxy.get a b hab ha).trans hn, (hxy'.get a b hab ha).trans hn'⟩

omit hk in
theorem symm (hxy : Agree S k t u x y) : Agree (flip S) k u t y x where
  size := hxy.size'
  size' := hxy.size
  get b a hab hb := (hxy.get a b hab ((h.listed ht hu hab).mpr hb)).symm

theorem overlaps (hxy : Agree S k t u x y) (hxy' : Agree S k t u x' y') :
    y.overlaps y' = x.overlaps x' := by
  rw [Bool.eq_iff_iff]
  exact ⟨overlaps_of h.symm hu ht hk (hxy.symm h ht hu) (hxy'.symm h ht hu),
    overlaps_of h ht hu hk hxy hxy'⟩

end Agree

/-- Sets that agree have the same names in them. -/
theorem Mirrors.names_eq (h : Mirrors S N t u) (ht : Registered t) (hu : Registered u)
    (hxy : ∀ a b, S a b → a ∈ t.terminals →
      y.get (u.symbol b).index = x.get (t.symbol a).index) : u.names y = t.names x := by
  ext n
  refine ⟨?_, ?_⟩
  · rintro ⟨b, hb, rfl, hy⟩
    obtain ⟨a, ha, hab⟩ := h.symm.exists_listed hu ht (k := .terminal) (by decide) hb
    exact ⟨a, ha, (h.name a b hab).symm, (hxy a b hab ha).symm.trans hy⟩
  · rintro ⟨a, ha, rfl, hx⟩
    obtain ⟨b, hb, hab⟩ := h.exists_listed ht hu (k := .terminal) (by decide) ha
    exact ⟨b, hb, h.name a b hab, (hxy a b hab ha).trans hx⟩

/-! ### Deletable parts -/

section

variable (h : Mirrors S N t u)
include h

theorem Mirrors.derives_nil (hab : S a b) (hd : t.Derives [.nonterminal a] []) :
    u.Derives [.nonterminal b] [] := by
  obtain ⟨y, hy, hd⟩ := h.derives hd (.cons (.nonterminal hab) .nil)
  cases hy
  exact hd

theorem Mirrors.isDeletable_eq_of_exact (ht : Registered t) (hu : Registered u) (het : Exact t)
    (heu : Exact u) (hab : S a b) (ha : a ∈ t.nonterminals) :
    u.isDeletable b = t.isDeletable a := by
  rw [Bool.eq_iff_iff, heu b ((h.listed ht hu hab (k := .nonterminal)).mp ha), het a ha]
  exact ⟨h.symm.derives_nil hab, h.derives_nil hab⟩

variable (ht : t.Computed) (hu : u.Computed)
include ht hu

theorem Mirrors.isDeletable_eq (hab : S a b) (ha : a ∈ t.nonterminals) :
    u.isDeletable b = t.isDeletable a :=
  h.isDeletable_eq_of_exact ht.formed.registered hu.formed.registered ht.exact hu.exact hab ha

theorem Mirrors.groupDeletableFrom (hpq : Option.Rel N p q) :
    u.graph.groupDeletableFrom u.isDeletable fuel q =
      t.graph.groupDeletableFrom t.isDeletable fuel p := by
  induction fuel generalizing p q with
  | zero => rfl
  | succ fuel ih =>
    cases hpq with
    | none => rfl
    | @some i j hij =>
      have hlike : NodeKind.Like S N (t.graph.node i).kind (u.graph.node j).kind := h.node i j hij
      have hnext : Option.Rel N (t.graph.node i).next (u.graph.node j).next := h.next i j hij
      have hnt (a : SymbolId) (hk : (t.graph.node i).kind = .nonterminal a) : a ∈ t.nonterminals :=
        ht.formed.allows_nonterminal hk
      simp only [Graph.groupDeletableFrom, h.up i j hij, ih hnext]
      congr 1
      generalize (t.graph.node i).kind = k at hlike hnt
      generalize (u.graph.node j).kind = l at hlike
      cases hlike with
      | nonterminal hab => exact h.isDeletable_eq ht hu hab (hnt _ rfl)
      | alt hs hd =>
        cases hd with
        | none =>
          simp only [ih (.some hs)]
          rfl
        | some hd =>
          simp only [ih (.some hs), ih (.some hd)]
          rfl
      | _ => rfl

/-- Parts that start at corresponding nodes are deletable or not. -/
theorem Mirrors.groupDeletable_eq (hpq : Option.Rel N p q) :
    u.groupDeletable q = t.groupDeletable p := by
  rw [groupDeletable, Graph.groupDeletable, h.groupDeletableFrom ht hu hpq, h.size, groupDeletable,
    Graph.groupDeletable]

theorem Mirrors.nodeDeletable_eq (hij : N i j) : u.nodeDeletable j = t.nodeDeletable i := by
  have hlike := h.node i j hij
  have hnt (a : SymbolId) (hk : t.graph.kind i = .nonterminal a) : a ∈ t.nonterminals :=
    ht.formed.allows_nonterminal hk
  unfold nodeDeletable Graph.nodeDeletable
  generalize t.graph.kind i = k at hlike hnt
  generalize u.graph.kind j = l at hlike
  cases hlike with
  | nonterminal hab => exact h.isDeletable_eq ht hu hab (hnt _ rfl)
  | alt hs hd =>
    have hsub := h.groupDeletable_eq ht hu (.some hs)
    have hdown := h.groupDeletable_eq ht hu hd
    unfold groupDeletable at hsub hdown
    cases hd with
    | none =>
      simp only [hsub]
      rfl
    | some hd =>
      simp only [hsub, hdown]
      rfl
  | _ => rfl

theorem Mirrors.restDeletable_eq (hpq : Option.Rel N p q) :
    u.restDeletable q = t.restDeletable p := by
  have hfrom (fuel : Nat) {p q : Option NodeId} (hpq : Option.Rel N p q) :
      u.graph.restDeletableFrom u.isDeletable fuel q =
        t.graph.restDeletableFrom t.isDeletable fuel p := by
    induction fuel generalizing p q with
    | zero => rfl
    | succ fuel ih =>
      cases hpq with
      | none => rfl
      | @some i j hij =>
        have hdel : u.graph.nodeDeletable u.isDeletable j = t.graph.nodeDeletable t.isDeletable i :=
          h.nodeDeletable_eq ht hu hij
        simp only [Graph.restDeletableFrom, hdel, ih (h.next i j hij)]
  rw [restDeletable, Graph.restDeletable, hfrom _ hpq, h.size, restDeletable, Graph.restDeletable]

end

/-! ### First sets -/

section

variable (h : Mirrors S N t u)
include h

/-- Corresponding parts start with corresponding terminals. -/
theorem Mirrors.starts {P Q : Part} (hPQ : P.Like N Q) (hab : S a b) (hs : t.Starts P a) :
    u.Starts Q b := by
  obtain ⟨w, v, hw, hd⟩ := hs
  obtain ⟨w', hw', hs'⟩ := h.spells hw hPQ
  obtain ⟨y, hy, hd'⟩ := h.derives hd hw'
  obtain _ | ⟨hc, hy⟩ := hy
  obtain ⟨hc⟩ := hc
  obtain rfl := h.unique.2 hab hc
  exact ⟨w', _, hs', hd'⟩

theorem Mirrors.inside (hij : N i j) : t.Inside i ∧ u.Inside j := by
  obtain ⟨a, b, -, -, hi, hj⟩ := h.within i j hij
  exact ⟨⟨a, hi⟩, b, hj⟩

variable (ht : t.Computed) (hu : u.Computed)
include ht hu

theorem Mirrors.agree_firstSet (hpq : Option.Rel N p q) :
    Agree S .terminal t u (t.firstSet p) (u.firstSet q) where
  size := size_firstSet t p
  size' := size_firstSet u q
  get a b hab ha := by
    have hb := (h.listed ht.formed.registered hu.formed.registered hab (k := .terminal)).mp ha
    have hp : (∀ i ∈ p, t.Inside i) ∧ ∀ j ∈ q, u.Inside j := by
      cases hpq with
      | none => simp
      | some hij => simpa using h.inside hij
    rw [Bool.eq_iff_iff, get_firstSet_iff hu.formed hu.wild hu.exact hu.ready hb hp.2,
      get_firstSet_iff ht.formed ht.wild ht.exact ht.ready ha hp.1]
    exact ⟨h.symm.starts (.rest (optionRel_flip hpq)) hab, h.starts (.rest hpq) hab⟩

/-- Final first sets of corresponding nonterminals have corresponding terminals in them. -/
theorem Mirrors.first_eq (hab : S a b) (ha : a ∈ t.nonterminals)
    (hta : (t.symbol a).firstReady = true) (hub : (u.symbol b).firstReady = true) :
    u.names (u.symbol b).first = t.names (t.symbol a).first := by
  have hrt := ht.formed.registered
  have hru := hu.formed.registered
  have hb := (h.listed hrt hru hab (k := .nonterminal)).mp ha
  refine h.names_eq hrt hru fun c d hcd hc => ?_
  have hd := (h.listed hrt hru hcd (k := .terminal)).mp hc
  rw [Bool.eq_iff_iff, hu.ready b hb hub d hd, ht.ready a ha hta c hc, ← starts_root_iff,
    ← starts_root_iff]
  exact ⟨h.symm.starts (.rest (optionRel_flip (h.root a b hab))) hcd,
    h.starts (.rest (h.root a b hab)) hcd⟩

/-! ### Follow sets -/

omit ht hu in
/-- A nonterminal occurs where the corresponding one does. -/
theorem Mirrors.exists_occurrence (ht : Registered t) (hu : Registered u) (ha : a ∈ t.nonterminals)
    (hi : t.Within a i) {c d : SymbolId} (hk : t.graph.kind i = .nonterminal c) (hcd : S c d) :
    ∃ b ∈ u.nonterminals, ∃ j, S a b ∧ N i j ∧ u.Within b j ∧
      u.graph.kind j = .nonterminal d := by
  obtain ⟨b, hb, hab⟩ := h.exists_listed ht hu (k := .nonterminal) (by decide) ha
  obtain ⟨j, hij, hj⟩ := h.exists_within hab hi
  obtain ⟨e, hk', hce⟩ := (h.like hij hk).exists_eq
  exact ⟨b, hb, j, hab, hij, hj, h.unique.2 hcd hce ▸ hk'⟩

theorem Mirrors.mem_followFamily (hab : S a b) {c d : SymbolId} (hcd : S c d)
    (hc : c ∈ t.followFamily a) : d ∈ u.followFamily b := by
  have hrt := ht.formed.registered
  have hru := hu.formed.registered
  -- the follow sets of `u`, taken back to `t`, have all that must be in those of `t`
  have hclosed : t.FollowClosed fun a => {c | ∀ b d, S a b → S c d → d ∈ u.followFamily b} := by
    refine ⟨fun a ha b d hab hd => ?_, fun a ha i e hi hk c hc hf b d heb hcd => ?_,
      fun a ha i e hi hk hr c hc b d heb hcd => ?_⟩
    · have hstart := h.start
      rw [ha] at hstart
      generalize hs : u.start = s at hstart
      obtain ⟨hab'⟩ := hstart
      obtain rfl := h.unique.2 hab hab'
      obtain rfl := h.unique.2 h.eof hd
      exact hu.least.1.eof _ hs
    · obtain ⟨a', ha', j, haa, hij, hj, hk'⟩ := h.exists_occurrence hrt hru ha hi hk heb
      refine hu.least.1.next a' ha' j b hj hk' d ((h.listed hrt hru hcd (k := .terminal)).mp hc) ?_
      rw [(h.agree_firstSet ht hu (h.next i j hij)).get c d hcd hc]
      exact hf
    · obtain ⟨a', ha', j, haa, hij, hj, hk'⟩ := h.exists_occurrence hrt hru ha hi hk heb
      refine hu.least.1.rest a' ha' j b hj hk' ?_ (hc a' d haa hcd)
      rw [h.restDeletable_eq ht hu (h.next i j hij)]
      exact hr
  exact ht.least.2 hclosed a hc b d hab hcd

theorem Mirrors.follow_eq (hab : S a b) (ha : a ∈ t.nonterminals) {c d : SymbolId} (hcd : S c d)
    (hc : c ∈ t.terminals) : (u.symbol b).follow.get (u.symbol d).index =
      (t.symbol a).follow.get (t.symbol c).index := by
  have hrt := ht.formed.registered
  have hru := hu.formed.registered
  have hb := (h.listed hrt hru hab (k := .nonterminal)).mp ha
  have hd := (h.listed hrt hru hcd (k := .terminal)).mp hc
  rw [Bool.eq_iff_iff]
  exact ⟨fun hf => (h.symm.mem_followFamily hu ht hab hcd ⟨hb, hd, hf⟩).2.2,
    fun hf => (h.mem_followFamily ht hu hab hcd ⟨ha, hc, hf⟩).2.2⟩

/-! ### What is expected -/

theorem Mirrors.agree_expected (hab : S a b) (ha : a ∈ t.nonterminals) (hpq : Option.Rel N p q) :
    Agree S .terminal t u (t.expected p a).value (u.expected q b).value := by
  have hfirst := h.agree_firstSet ht hu hpq
  simp only [expected, Noted.value_bind, Noted.value_pure, value_first,
    h.restDeletable_eq ht hu hpq]
  split
  · exact hfirst.union h ht.formed.registered hu.formed.registered (by decide) fun c d hcd hc =>
      h.follow_eq ht hu hab ha hcd hc
  · exact hfirst

theorem Mirrors.agree_expectedUnresolved (hab : S a b) (ha : a ∈ t.nonterminals)
    (hpq : Option.Rel N p q) :
    Agree S .terminal t u (t.expectedUnresolved p a).value (u.expectedUnresolved q b).value := by
  have hexpected := h.agree_expected ht hu hab ha hpq
  cases hpq with
  | none => exact hexpected
  | @some i j hij =>
    have hlike := h.node i j hij
    simp only [expectedUnresolved, Option.map_some]
    generalize t.graph.kind i = k at hlike
    generalize u.graph.kind j = l at hlike
    cases hlike with
    | resolver => exact .empty S .terminal t u
    | _ => exact hexpected

theorem Mirrors.agree_syncSet (hab : S a b) (ha : a ∈ t.nonterminals) (hij : N i j) :
    Agree S .terminal t u (t.syncSet a i) (u.syncSet b j) :=
  (h.agree_expected ht hu hab ha (h.next i j hij)).insert h ht.formed.registered
    hu.formed.registered (by decide) h.eof ht.formed.registered.eof

end

/-! ### Synchronisation sets -/

/-- All sets of the table are exact, also those of first symbols that are stored and those of
synchronisation points. -/
structure Filled (t : Table) : Prop extends Computed t where
  apart : t.Apart
  final : ∀ a ∈ t.nonterminals, (t.symbol a).firstReady = true
  filled : ∀ a ∈ t.nonterminals, ∀ i x, t.Within a i → t.graph.kind i = .sync x → x = t.syncSet a i
  size : t.syncs.size = t.terminalCount
  syncs : ∀ n < t.terminalCount, t.syncs.get n = true ↔ n = (t.symbol t.eof).index ∨
    ∃ a ∈ t.nonterminals, ∃ i x, t.Within a i ∧ t.graph.kind i = .sync x ∧ x.get n = true

/-- Each synchronisation point has its set, and the union of all sets has these and the end of
input. -/
structure Synchronised (t : Table) : Prop where
  filled : ∀ a ∈ t.nonterminals, ∀ i x, t.Within a i → t.graph.kind i = .sync x → x = t.syncSet a i
  size : t.syncs.size = t.terminalCount
  syncs : ∀ n < t.terminalCount, t.syncs.get n = true ↔ n = (t.symbol t.eof).index ∨
    ∃ a ∈ t.nonterminals, ∃ i x, t.Within a i ∧ t.graph.kind i = .sync x ∧ x.get n = true

theorem Formed.synchronised_computeSyncs (ht : t.Formed) (hap : t.Apart) :
    t.computeSyncs.value.Synchronised := by
  obtain ⟨hsame, -⟩ := t.sameGrammar_computeSyncs
  obtain ⟨hre, hfilled, hsize, hsyncs⟩ := ht.fills_computeSyncs hap
  generalize t.computeSyncs.value = u at *
  have hkind {i x} (hk : u.graph.kind i = .sync x) : ∃ y, t.graph.kind i = .sync y := by
    rcases hre.kind i with h | ⟨y, -, h, -⟩
    · exact ⟨x, h.symm.trans hk⟩
    · exact ⟨y, h⟩
  refine ⟨fun a ha i x hi hk => ?_, hsize.trans hre.terminalCount.symm, fun n hn => ?_⟩
  · obtain ⟨y, hy⟩ := hkind hk
    rw [hfilled a (hsame.nonterminals ▸ ha) i y (hsame.within_iff.mp hi) hy] at hk
    rw [hre.syncSet]
    exact (NodeKind.sync.inj hk).symm
  · rw [hsyncs n (hre.terminalCount ▸ hn), hre.symbol, hre.eof, hsame.nonterminals]
    refine or_congr_right (exists_congr fun a => and_congr_right fun ha => exists_congr fun i => ?_)
    rw [hsame.within_iff]
    refine ⟨fun ⟨y, hi, hy, hn⟩ => ⟨_, hi, hfilled a ha i y hi hy, hn⟩, fun ⟨x, hi, hx, hn⟩ => ?_⟩
    obtain ⟨y, hy⟩ := hkind hx
    rw [hfilled a ha i y hi hy] at hx
    exact ⟨y, hi, hy, NodeKind.sync.inj hx ▸ hn⟩

theorem Computed.filled_computeSyncs (ht : t.Computed) (hap : t.Apart)
    (hready : ∀ a ∈ t.nonterminals, (t.symbol a).firstReady = true) :
    t.computeSyncs.value.Filled := by
  obtain ⟨hsame, hs⟩ := t.sameGrammar_computeSyncs
  obtain ⟨hfilled, hsize, hsyncs⟩ := ht.formed.synchronised_computeSyncs hap
  refine ⟨ht.of_same hsame hs, hsame.outline.apart hap, fun a ha => ?_, hfilled, hsize, hsyncs⟩
  rw [symbol, hs, ← symbol]
  exact hready a (hsame.nonterminals ▸ ha)

section

variable (h : Mirrors S N t u) (ht : t.Filled) (hu : u.Filled)
include h ht hu

/-- Corresponding synchronisation points have sets that agree. -/
theorem Mirrors.agree_sync (hij : N i j) (hi : t.graph.kind i = .sync x)
    (hj : u.graph.kind j = .sync y) : Agree S .terminal t u x y := by
  have hrt := ht.formed.registered
  obtain ⟨a, b, hab, ha, hai, hbj⟩ := h.within i j hij
  have ha : a ∈ t.nonterminals := (mem_nonterminals hrt).mpr ⟨(h.lt a b hab).1, ha⟩
  rw [ht.filled a ha i x hai hi,
    hu.filled b ((h.listed hrt hu.formed.registered hab (k := .nonterminal)).mp ha) j y hbj hj]
  exact h.agree_syncSet ht.toComputed hu.toComputed hab ha hij

theorem Mirrors.mem_syncs {c d : SymbolId} (hcd : S c d) (hc : c ∈ t.terminals)
    (hs : t.syncs.get (t.symbol c).index = true) : u.syncs.get (u.symbol d).index = true := by
  have hrt := ht.formed.registered
  have hru := hu.formed.registered
  have hd := (h.listed hrt hru hcd (k := .terminal)).mp hc
  rw [hu.syncs _ (hru.index_lt hd)]
  rcases (ht.syncs _ (hrt.index_lt hc)).mp hs with he | ⟨a, ha, i, x, hi, hx, hget⟩
  · left
    obtain rfl := hrt.index_inj (k := .terminal) (by decide) hc hrt.eof he
    rw [h.unique.2 hcd h.eof]
  · right
    obtain ⟨b, hb, hab⟩ := h.exists_listed hrt hru (k := .nonterminal) (by decide) ha
    obtain ⟨j, hij, hj⟩ := h.exists_within hab hi
    obtain ⟨y, hy⟩ := (h.like hij hx).exists_eq
    exact ⟨b, hb, j, y, hj, hy, ((h.agree_sync ht hu hij hx hy).get c d hcd hc).trans hget⟩

theorem Mirrors.names_syncs : u.names u.syncs = t.names t.syncs := by
  have hrt := ht.formed.registered
  have hru := hu.formed.registered
  refine h.names_eq hrt hru fun c d hcd hc => ?_
  have hd := (h.listed hrt hru hcd (k := .terminal)).mp hc
  rw [Bool.eq_iff_iff]
  exact ⟨h.symm.mem_syncs hu ht hcd hd, h.mem_syncs ht hu hcd hc⟩

end

end Table

namespace Grammar

variable {source : String} {cfg : Config} {log : Log} {g : Grammar}

/-- Of a grammar without wildcards all sets are exact in the end. -/
theorem filled_computeSets (h : (Grammar.parse source cfg log).2 = .ok g)
    (hg : ∀ i set, g.table.graph.kind i ≠ .any set) (hap : g.table.Apart) :
    g.table.computeSets.value.Filled := by
  obtain ⟨t, ht, hsame, hc, hready⟩ := exists_computeSyncs h hg
  rw [ht]
  exact hc.filled_computeSyncs (hsame.outline.apart hap) hready

end Grammar

end Lookahead
