import Lookahead.Proofs.Computed
import Lookahead.Proofs.Yielding

/-!
# What wildcards match in the end

When the sets of a grammar have been computed, the wildcards that start a group are clear of what
follows it and of the other alternatives (`Grammar.wildcardsApart_of_parse`), and those behind a
deletable node are clear of its content (`Grammar.contentApart_of_parse`). The content of a group of
alternatives is the first of them here, so the others are not looked at (`Grammar.kept_choice`).

The places that a wildcard gives way to are not cut off where the group ends: what can come first
there may be the wildcard itself. What a single wildcard matches in the end is all but what can come
first at these places (`Grammar.get_onlyWildcard_of_parse`), so it may lose terminals that nothing
else matches (`Grammar.lost_wrapped`).
-/

namespace Lookahead

namespace Table

variable {t u : Table} {c : SymbolId} {i j : NodeId} {x : Option NodeId}

/-! ### Before and after -/

theorem Unrestricted.get_wildcardSet (h : t.Unrestricted) {set : IndexSet}
    (hk : t.graph.kind i = .any set) (n : Nat) : (t.wildcardSet i).get n = true ↔
      n < t.terminalCount ∧ n ≠ (t.symbol t.eof).index := by
  unfold wildcardSet
  rw [hk]
  dsimp only
  rw [h i set hk, IndexSet.erase, IndexSet.get_set, IndexSet.full, IndexSet.get_replicate]
  split
  · rename_i hn
    simp [hn.1]
  · rename_i hn
    have hsize : (IndexSet.replicate t.terminalCount true).size = t.terminalCount :=
      Array.size_replicate
    rw [hsize] at hn
    simp only [Bool.and_true, decide_eq_true_eq]
    exact ⟨fun hlt => ⟨hlt, fun he => hn ⟨he.symm, hlt⟩⟩, And.left⟩

theorem Unrestricted.get_eof (h : t.Unrestricted) (i : NodeId) :
    (t.wildcardSet i).get (t.symbol t.eof).index = false := by
  rw [← Bool.not_eq_true]
  intro hi
  obtain ⟨set, hk, -⟩ := get_wildcardSet_iff.mp hi
  exact ((h.get_wildcardSet hk _).mp hi).2 rfl

/-- Nor does a wildcard that has been restricted match the end of input. -/
theorem Narrows.get_eof (h : Narrows t u) (ht : t.Unrestricted) (i : NodeId) :
    (u.wildcardSet i).get (t.symbol t.eof).index = false := by
  by_contra he
  have hn := h.sets i _ (by simpa using he)
  rw [ht.get_eof] at hn
  cases hn

theorem SameGrammar.unrestricted (h : SameGrammar t u) (ht : t.Unrestricted) : u.Unrestricted := by
  intro i set hk
  rw [terminalCount, h.terminals, h.eof, h.index]
  exact ht i set ((h.any i set).mp hk)

/-- What is known when wildcards are about to be cut down. -/
structure Prepared (t : Table) : Prop where
  formed : t.Formed
  wild : t.Wild
  unrestricted : t.Unrestricted
  exact : Exact t
  ready : ReadyExact t
  final : ∀ a ∈ t.nonterminals, (t.symbol a).firstReady = true
  sized : ∀ a ∈ t.nonterminals, (t.symbol a).first.size = t.terminalCount

/-- Where nothing that first sets are made of is changed, no wildcard is restricted. -/
theorem SameGrammar.restricted (h : SameGrammar t u)
    (hd : ∀ s, (u.symbol s).deletable = (t.symbol s).deletable)
    (hf : ∀ s, (u.symbol s).first = (t.symbol s).first)
    (hr : ∀ s, (u.symbol s).firstReady = (t.symbol s).firstReady) :
    Restricted (fun _ _ => False) t u where
  narrows := ⟨h.outline, hd, hf, hr, fun i n hn => by rwa [h.wildcardSet] at hn⟩
  lost a n hn hn' := by
    rw [h.wildcardSet, hn] at hn'
    cases hn'
  yielded _ _ h := h.elim

/-- What is done about follow and synchronisation sets leaves wildcards as they are. -/
theorem Formed.restricted_computeSyncs (ht : t.Formed) :
    Restricted (fun _ _ => False) t t.computeFollow.value.computeSyncs.value := by
  have h := ht.sameFirst_computeFollow
  have hfollow : Restricted (fun _ _ => False) t t.computeFollow.value :=
    h.sameGrammar.restricted (h.field Symbol.deletable fun _ => rfl)
      (h.field Symbol.first fun _ => rfl) (h.field Symbol.firstReady fun _ => rfl)
  obtain ⟨hsame, hsyms⟩ := sameGrammar_computeSyncs t.computeFollow.value
  have hsym (s : SymbolId) : t.computeFollow.value.computeSyncs.value.symbol s =
      t.computeFollow.value.symbol s := by
    rw [Table.symbol, hsyms, Table.symbol]
  exact (hfollow.trans (hsame.restricted (fun s => by rw [hsym]) (fun s => by rw [hsym])
    fun s => by rw [hsym])).congr fun a x => by simp

/-! ### What no wildcard matches -/

/-- Wildcards that start a group match nothing that can follow it, nor what starts other
alternatives, and none matches the end of input. -/
structure WildcardsApart (t : Table) : Prop where
  /-- Behind an option or iteration. -/
  behind : ∀ c ∈ t.nonterminals, ∀ i, t.Within c i → ∀ sub,
    t.graph.kind i = .opt sub ∨ t.graph.kind i = .iter sub →
      ∀ a, t.leadingWildcard (some sub) = some a → t.Excludes a (t.graph.next i)
  /-- The alternatives behind one. -/
  later : ∀ c ∈ t.nonterminals, ∀ i, t.Within c i → ∀ sub down,
    t.graph.kind i = .alt sub down →
      ∀ a, t.leadingWildcard (some sub) = some a → t.Excludes a down
  /-- The alternatives before one that no wildcard starts. -/
  earlier : ∀ c ∈ t.nonterminals, ∀ i, t.Within c i → ∀ l₁ p l₂,
    t.graph.alternatives i = l₁ ++ p :: l₂ →
      ∀ a, t.leadingWildcard (some p.1) = some a →
        ∀ q ∈ l₁, t.leadingWildcard (some q.1) = none → t.Excludes a (some q.1)
  eof : ∀ a, (t.wildcardSet a).get (t.symbol t.eof).index = false

/-- The alternatives of any alternation of the production are looked at. -/
theorem Formed.yields_of_among (ht : t.Formed) {a : NodeId} (hc : c ∈ t.nonterminals)
    (hi : t.Within c i) (h : t.YieldsAmong [] (t.graph.alternatives i) a x) : t.Yields a x := by
  obtain ⟨l₁, p, l₂, hl, ha, hx⟩ := id h
  obtain ⟨e, d, hk⟩ := Graph.kind_of_mem_alternatives (hl ▸ List.mem_append_right l₁ (.head l₂))
  obtain ⟨j, l, hj, hl'⟩ := ht.exists_alternation hi hk
  refine ⟨c, hc, j, hj, .inl ?_⟩
  have hmem : p ∈ t.graph.alternatives j := by
    rw [hl', hl]
    simp
  obtain ⟨e', d', hkj⟩ := Graph.kind_of_mem_alternatives hmem
  unfold YieldsInside
  rw [hkj]
  refine ⟨l ++ l₁, p, l₂, by rw [hl', hl, List.append_assoc], ha, hx.imp_right ?_⟩
  rintro ⟨q, hq, hn, rfl⟩
  exact ⟨q, List.mem_append_right l hq, hn, rfl⟩

theorem Formed.wildcardsApart_computeWildcards (ht : t.Formed) (hf : t.Unrestricted) :
    t.computeWildcards.value.WildcardsApart := by
  have h := ht.restricted_computeWildcards
  generalize t.computeWildcards.value = u at h
  have hn := h.narrows
  refine ⟨?_, ?_, ?_, ?_⟩
  · intro c hc i hi sub hk a ha
    rw [hn.nonterminals] at hc
    rw [hn.leadingWildcard] at ha
    have hi := hn.within_iff.mp hi
    have hk := hk.imp (hn.graph.kind_iff (by simp) (by simp)).mp
      (hn.graph.kind_iff (by simp) (by simp)).mp
    have hp : t.Passed c i := by
      rcases ht.passed_or_alternative hi with hp | ⟨e, d, h'⟩
      · exact hp
      · rcases hk with hk | hk <;> cases hk.symm.trans h'
    rw [hn.graph.next]
    refine h.yielded a _ ⟨c, hc, i, hp, .inl ?_⟩
    unfold YieldsInside
    rcases hk with hk | hk <;> rw [hk] <;> exact ⟨ha, rfl⟩
  · intro c hc i hi sub down hk a ha
    rw [hn.nonterminals] at hc
    rw [hn.leadingWildcard] at ha
    have hi := hn.within_iff.mp hi
    have hk := (hn.graph.kind_iff (by simp) (by simp)).mp hk
    refine h.yielded a _ (ht.yields_of_among hc hi ?_)
    exact ⟨[], (sub, down), _, (ht.alternatives_eq hi hk).1, ha, .inl rfl⟩
  · intro c hc i hi l₁ p l₂ hl a ha q hq hqn
    rw [hn.nonterminals] at hc
    rw [hn.leadingWildcard] at ha hqn
    rw [hn.graph.alternatives] at hl
    refine h.yielded a _ (ht.yields_of_among hc (hn.within_iff.mp hi) ?_)
    exact ⟨l₁, p, l₂, hl, ha, .inr ⟨q, hq, hqn, rfl⟩⟩
  · intro a
    rw [hn.eof, hn.index]
    exact hn.get_eof hf a

/-! ### What starts a place -/

/-- The node belongs to the production of some nonterminal. -/
def Used (t : Table) (i : NodeId) : Prop := ∃ c ∈ t.nonterminals, t.Within c i

theorem Used.inside (hi : t.Used i) : t.Inside i := hi.imp fun _ h => h.2

theorem Used.reaches (ht : t.Formed) (hi : t.Used i) (h : t.Reaches i j) : t.Used j := by
  induction h with
  | refl => exact hi
  | @tail k l _ he ih =>
    obtain ⟨c, hc, hi⟩ := ih
    cases he with
    | sub h => exact ⟨c, hc, hi.sub h⟩
    | down h => exact ⟨c, hc, hi.down h⟩
    | next _ h => exact ⟨c, hc, hi.next h⟩
    | @root a hk _ hr =>
      have ha := ht.allows k
      rw [hk] at ha
      exact ⟨a, ha, .root hr⟩

theorem used_content (ht : t.Formed) (hi : t.Used i) : ∀ k ∈ t.content i, t.Used k := by
  obtain ⟨c, hc, hi⟩ := hi
  intro k hk
  unfold content at hk
  split at hk
  · rename_i a ha
    have hallows := ht.allows i
    rw [ha] at hallows
    exact ⟨a, hallows, .root hk⟩
  · exact ⟨c, hc, hi.sub hk⟩

/-- Wildcards give way to what is in productions. -/
theorem Yields.used (ht : t.Formed) {a : NodeId} (h : t.Yields a x) : ∀ k ∈ x, t.Used k := by
  obtain ⟨c, hc, i, hi, hx⟩ := h
  have hi := hi.within ht
  have hnext : ∀ k ∈ t.graph.next i, t.Used k := fun k hk => ⟨c, hc, hi.next hk⟩
  rcases hx with hx | ⟨-, -, rfl⟩
  · unfold YieldsInside at hx
    split at hx
    · exact hx.2 ▸ hnext
    · exact hx.2 ▸ hnext
    · obtain ⟨l₁, p, l₂, hl, -, hx⟩ := hx
      rcases hx with rfl | ⟨q, hq, -, rfl⟩
      · have := ht.within_of_alternative hi (p := p) (by simp [hl])
        exact fun k hk => ⟨c, hc, this.2 k hk⟩
      · have hq : q ∈ l₁ := by simpa using hq
        have := ht.within_of_alternative hi (p := q) (by simp [hl, hq])
        rintro k ⟨⟩
        exact ⟨c, hc, this.1⟩
    · exact hx.elim
  · exact used_content ht ⟨c, hc, hi⟩

theorem SameOutline.used_iff (h : SameOutline t u) : u.Used i ↔ t.Used i := by
  simp only [Used, h.nonterminals, h.within_iff]

theorem Narrows.inside (h : Narrows t u) (hi : t.Inside i) : u.Inside i :=
  hi.imp fun _ ha => h.within ha

section

variable {b : SymbolId} (ht : t.Prepared) (h : Narrows t u) (hb : b ∈ t.terminals)
include ht h hb

/-- What a part can start with, as wildcards are in the end, is found by a walk from its start. -/
theorem Prepared.reaches_of_starts {P : Part} (hP : ∀ i ∈ P.start, t.Inside i)
    (hs : u.Starts P b) : ∃ i ∈ P.start, ∃ j, u.Reaches i j ∧ u.Emits j b := by
  obtain ⟨w, v, hw, hd⟩ := hs
  have hu := h.formed ht.formed
  have hn := h.nonterminals ▸ hw.mem_nonterminals hu.allows
  obtain ⟨x, c, y, rfl, hx, hc⟩ :=
    begins_of_derives ht.formed ht.wild ht.exact ht.ready hb hn (h.derives hd)
  refine reaches_of_begins hu hw (fun i hi => h.inside (hP i hi)) ⟨x, c, y, rfl, ?_, ?_⟩
  · simpa only [h.isDeletable] using hx
  · refine hc.imp_right ?_
    rintro ⟨a, rfl, ha⟩
    refine ⟨a, rfl, ?_⟩
    have hready := ht.final a (hn a (by simp))
    unfold Heads at ha ⊢
    rw [if_pos hready] at ha
    rw [if_pos (by rwa [h.firstReady]), h.first, h.index]
    exact ha

theorem Prepared.get_firstSet_of_starts {x : Option NodeId} (hx : ∀ i ∈ x, t.Inside i)
    (hs : u.Starts (.group x) b) : (u.firstSet x).get (u.symbol b).index = true := by
  obtain ⟨i, rfl, hj⟩ := ht.reaches_of_starts h hb (P := .group x) hx hs
  exact (get_firstSet (h.formed ht.formed) (h.inside (hx i rfl)) (h.terminals ▸ hb)).mpr hj

end

/-! ### Behind a deletable node -/

/-- A wildcard behind a deletable node matches nothing that the content of that node can start
with. The content of a group of alternatives is the first of them. -/
def ContentApart (t : Table) : Prop :=
  ∀ c ∈ t.nonterminals, ∀ i, t.Passed c i → t.nodeDeletable i = true →
    ∀ a, t.leadingWildcard (t.graph.next i) = some a →
      t.Excludes a (t.content i) ∧ ∀ b ∈ t.terminals, t.Starts (.group (t.content i)) b →
        (t.wildcardSet a).get (t.symbol b).index = false

theorem Restricted.contentApart (ht : t.Prepared) (h : Restricted t.Yields t u) :
    u.ContentApart := by
  have hn := h.narrows
  intro c hc i hi hd a ha
  rw [hn.nonterminals] at hc
  rw [hn.passed_iff] at hi
  rw [hn.nodeDeletable] at hd
  rw [hn.leadingWildcard, hn.graph.next] at ha
  have hx : u.Excludes a (u.content i) := by
    rw [hn.content]
    exact h.yielded a _ ⟨c, hc, i, hi, .inr ⟨hd, ha, rfl⟩⟩
  refine ⟨hx, fun b hb hs => hx.get_wildcardSet ?_⟩
  refine ht.get_firstSet_of_starts hn (hn.terminals ▸ hb) (fun k hk => ?_) hs
  rw [hn.content] at hk
  exact (used_content ht.formed ⟨c, hc, hi.within ht.formed⟩ k hk).inside

/-! ### A single wildcard -/

/-- The node is the only wildcard of all productions. -/
structure OnlyWildcard (t : Table) (a : NodeId) : Prop where
  used : t.Used a
  any : ∃ set, t.graph.kind a = .any set
  eq : ∀ i, t.Used i → ∀ set, t.graph.kind i = .any set → i = a

theorem OnlyWildcard.of_same {a : NodeId} (ha : t.OnlyWildcard a) (h : SameGrammar t u) :
    u.OnlyWildcard a := by
  have hused {i} : u.Used i ↔ t.Used i := h.outline.used_iff
  obtain ⟨set, hk⟩ := ha.any
  exact ⟨hused.mpr ha.used, ⟨set, (h.any a set).mpr hk⟩,
    fun i hi set hk => ha.eq i (hused.mp hi) set ((h.any i set).mp hk)⟩

/-- A node that contributes a terminal still does if it is no wildcard that has lost it. -/
theorem Narrows.emits {b : SymbolId} (h : Narrows t u) (hi : t.Emits i b)
    (hset : (t.wildcardSet i).get (t.symbol b).index = true →
      (u.wildcardSet i).get (t.symbol b).index = true) : u.Emits i b := by
  unfold Emits at hi ⊢
  rcases h.graph.kind_cases i with hk | ⟨y, x, hu, ht⟩ | ⟨y, x, hu, ht⟩
  · rw [hk]
    simpa only [h.index, h.first, h.firstReady] using hi
  · rw [ht] at hi
    obtain ⟨y', hy', hy⟩ := get_wildcardSet_iff.mp
      (hset (get_wildcardSet_iff.mpr ⟨x, ht, hi⟩))
    rw [hy', h.index]
    exact hy
  · rw [ht] at hi
    exact hi.elim

/-- A single wildcard loses what can come first, with the wildcard itself still unrestricted, at
some place that it gives way to. -/
theorem Restricted.get_onlyWildcard (ht : t.Prepared) (h : Restricted t.Yields t u) {a : NodeId}
    (ha : t.OnlyWildcard a) {b : SymbolId} (hb : b ∈ t.terminals) :
    (u.wildcardSet a).get (t.symbol b).index = true ↔
      b ≠ t.eof ∧ ∀ x, t.Yields a x → ¬ t.Starts (.rest x) b := by
  have hn := h.narrows
  obtain ⟨set, hset⟩ := ha.any
  have hfirst {x} (hx : t.Yields a x) :
      (t.firstSet x).get (t.symbol b).index = true ↔ t.Starts (.rest x) b :=
    get_firstSet_iff ht.formed ht.wild ht.exact ht.ready hb
      fun k hk => (hx.used ht.formed k hk).inside
  refine ⟨fun hab => ⟨?_, fun x hx hs => ?_⟩, fun ⟨hne, hx⟩ => ?_⟩
  · rintro rfl
    rw [hn.get_eof ht.unrestricted] at hab
    cases hab
  · rw [← hfirst hx] at hs
    cases x with
    | none =>
      simp at hs
    | some k =>
      have hk := hx.used ht.formed k rfl
      obtain ⟨j, hj, hjb⟩ := (get_firstSet ht.formed hk.inside hb).mp hs
      have hemits : u.Emits j b := hn.emits hjb fun hj' => by
        obtain ⟨set, hk', -⟩ := get_wildcardSet_iff.mp hj'
        rw [ha.eq j (hk.reaches ht.formed hj) set hk']
        exact hab
      have hub := (get_firstSet (hn.formed ht.formed) (hn.inside hk.inside)
        (hn.terminals ▸ hb)).mpr ⟨j, hn.reaches_iff.mpr hj, hemits⟩
      rw [hn.index] at hub
      rw [(h.yielded a _ hx).get_wildcardSet hub] at hab
      cases hab
  · have hab : (t.wildcardSet a).get (t.symbol b).index = true := by
      rw [ht.unrestricted.get_wildcardSet hset]
      refine ⟨ht.formed.registered.index_lt hb, fun he => hne ?_⟩
      exact ht.formed.registered.index_inj (k := .terminal) (by decide) hb
        ht.formed.registered.eof he
    by_contra hlost
    obtain ⟨x, hy, hf⟩ := h.lost a _ hab (by simpa using hlost)
    exact hx x hy ((hfirst hy).mp hf)

end Table

namespace Grammar

variable {source : String} {cfg : Config} {log : Log} {g : Grammar}

/-- The table of a grammar when its wildcards are about to be cut down. -/
def prepared (g : Grammar) : Table := g.table.computeDeletable.value.computeFirst.value

theorem prepared_of_parse (h : (Grammar.parse source cfg log).2 = .ok g) :
    Table.SameGrammar g.table g.prepared ∧ g.prepared.Prepared := by
  obtain ⟨ht, hd, hw⟩ := formed_parse h
  obtain ⟨h₁, he⟩ := ht.exact_computeDeletable hd
  obtain ⟨h₂, hr, hf⟩ := (h₁.formed ht).exact_computeFirst (h₁.wild hw) he
  have hsame := h₁.trans h₂.same
  refine ⟨hsame, hsame.formed ht, hsame.wild hw, hsame.unrestricted (unrestricted_parse h),
    h₂.exact he, hr, fun a ha => hf a (h₂.same.nonterminals ▸ ha), fun a ha => ?_⟩
  have hcount : g.prepared.terminalCount = g.table.computeDeletable.value.terminalCount :=
    congrArg Array.size h₂.same.terminals
  rw [hcount]
  exact (h₁.formed ht).registered.size_first_computeFirst (h₂.same.nonterminals ▸ ha)

theorem restricted_computeSets (h : (Grammar.parse source cfg log).2 = .ok g) :
    Table.Restricted g.prepared.Yields g.prepared g.table.computeSets.value := by
  have ht := (prepared_of_parse h).2
  have hw := ht.formed.restricted_computeWildcards
  have hs := (hw.narrows.formed ht.formed).restricted_computeSyncs
  have hsets : g.table.computeSets.value =
      g.prepared.computeWildcards.value.computeFollow.value.computeSyncs.value := by
    simp only [Table.computeSets, Noted.value_bind, Noted.value_pure, prepared]
  rw [hsets]
  exact (hw.trans hs).congr fun a x => by simp

/-- All restrictions hold together when the last one has been made. -/
theorem wildcardsApart_of_parse (h : (Grammar.parse source cfg log).2 = .ok g) :
    g.table.computeDeletable.value.computeFirst.value.computeWildcards.value.WildcardsApart :=
  have ht := (prepared_of_parse h).2
  ht.formed.wildcardsApart_computeWildcards ht.unrestricted

/-- A wildcard in an iteration, one that is an alternative, and other alternatives around it. -/
def quoted : String :=
  "COMPILER Q\nPRODUCTIONS\nQ = \"(\" \x7b ANY \x7d \")\" | ANY | \"x\".\nEND Q."

set_option maxRecDepth 100000 in
theorem parse_quoted : ∃ g, (Grammar.parse quoted default {}).2 = .ok g := by
  obtain ⟨g, hg, -⟩ := exists_ok_of_any (x := (Grammar.parse quoted default {}).2)
    (P := fun _ => true) (by decide +kernel)
  exact ⟨g, hg⟩

theorem wildcardsApart_quoted : ∃ g, (Grammar.parse quoted default {}).2 = .ok g ∧
    g.table.computeDeletable.value.computeFirst.value.computeWildcards.value.WildcardsApart := by
  obtain ⟨g, hg⟩ := parse_quoted
  exact ⟨g, hg, wildcardsApart_of_parse hg⟩

/-- In the end, wildcards behind deletable nodes are clear of the content of these. -/
theorem contentApart_of_parse (h : (Grammar.parse source cfg log).2 = .ok g) :
    g.table.computeSets.value.ContentApart :=
  (restricted_computeSets h).contentApart (prepared_of_parse h).2

/-- A wildcard behind a group of two alternatives and an empty one. -/
def choice : String :=
  "COMPILER A\nPRODUCTIONS\nA = (\"a\" | \"b\" | ) ANY.\nEND A."

set_option maxRecDepth 100000 in
theorem parse_choice : ∃ g, (Grammar.parse choice default {}).2 = .ok g := by
  obtain ⟨g, hg, -⟩ := exists_ok_of_any (x := (Grammar.parse choice default {}).2)
    (P := fun _ => true) (by decide +kernel)
  exact ⟨g, hg⟩

theorem contentApart_choice : ∃ g, (Grammar.parse choice default {}).2 = .ok g ∧
    g.table.computeSets.value.ContentApart := by
  obtain ⟨g, hg⟩ := parse_choice
  exact ⟨g, hg, contentApart_of_parse hg⟩

set_option maxRecDepth 100000 in
/-- The wildcard still matches what starts the second alternative. -/
theorem kept_choice : ∃ g, (Grammar.parse choice default {}).2 = .ok g ∧
    (Grammar.parse choice default {}).1.errorCount = Log.errorCount {} ∧
    ∃ t, t = g.table.computeSets.value ∧ ∃ c ∈ t.nonterminals, ∃ i, t.Passed c i ∧
      t.nodeDeletable i = true ∧ ∃ a, t.leadingWildcard (t.graph.next i) = some a ∧
        ∃ p ∈ t.graph.alternatives i, ∃ b ∈ t.terminals, t.Starts (.group (some p.1)) b ∧
          (t.wildcardSet a).get (t.symbol b).index = true := by
  obtain ⟨g, hg, h⟩ := exists_ok_of_any (x := (Grammar.parse choice default {}).2)
    (P := fun g => let t := g.table.computeSets.value
      decide (1 ∈ t.nonterminals ∧ (t.symbol 1).root = some 3 ∧ t.nodeDeletable 3 = true ∧
        t.leadingWildcard (t.graph.next 3) = some 7 ∧ (2, some 6) ∈ t.graph.alternatives 3 ∧
        3 ∈ t.terminals ∧ t.graph.kind 2 = .terminal 3 ∧ (t.graph.node 2).up = true ∧
        (t.wildcardSet 7).get (t.symbol 3).index = true)) (by decide +kernel)
  obtain ⟨hc, hr, hd, ha, hp, hb, hk, hup, hset⟩ := of_decide_eq_true h
  refine ⟨g, hg, by decide +kernel, _, rfl, 1, hc, 3, .root hr, hd, 7, ha, (2, some 6), hp, 3, hb,
    ?_, hset⟩
  exact ⟨_, [], .groupLast hup (.terminal hk), .refl _⟩

/-- What a single wildcard matches in the end: all but what can come first, with the wildcard itself
unrestricted, at one of the places that it gives way to. -/
theorem get_onlyWildcard_of_parse (h : (Grammar.parse source cfg log).2 = .ok g) {a : NodeId}
    (ha : g.table.OnlyWildcard a) {b : SymbolId} (hb : b ∈ g.table.terminals) :
    (g.table.computeSets.value.wildcardSet a).get (g.table.symbol b).index = true ↔
      b ≠ g.table.eof ∧ ∀ x, g.prepared.Yields a x → ¬ g.table.Starts (.rest x) b := by
  obtain ⟨hsame, ht⟩ := prepared_of_parse h
  have := (restricted_computeSets h).get_onlyWildcard ht (ha.of_same hsame) (b := b)
    (hsame.terminals ▸ hb)
  rw [hsame.index, hsame.eof] at this
  simpa only [Table.Starts, hsame.spells_iff, hsame.derives_iff] using this

/-- A wildcard behind an option that is all there is in another one. -/
def wrapped : String :=
  "COMPILER A\nPRODUCTIONS\nA = [[\"x\"]] ANY.\nEND A."

set_option maxRecDepth 100000 in
theorem onlyWildcard_wrapped : ∃ g, (Grammar.parse wrapped default {}).2 = .ok g ∧
    g.table.OnlyWildcard 4 ∧ 3 ∈ g.table.terminals ∧ 3 ≠ g.table.eof ∧
      (∀ i, g.table.graph.kind i ≠ .terminal 3 ∧ g.table.graph.kind i ≠ .weak 3) ∧
        (g.table.computeSets.value.wildcardSet 4).get (g.table.symbol 3).index = false := by
  obtain ⟨g, hg, h⟩ := exists_ok_of_any (x := (Grammar.parse wrapped default {}).2)
    (P := fun g => let t := g.table
      decide (1 ∈ t.nonterminals ∧ (t.symbol 1).root = some 3 ∧ t.graph.next 3 = some 4 ∧
        (t.graph.kind 4).outline = .any default ∧ 3 ∈ t.terminals ∧ 3 ≠ t.eof ∧
        (∀ i < t.graph.size, ((t.graph.kind i).outline = .any default → i = 4) ∧
          t.graph.kind i ≠ .terminal 3 ∧ t.graph.kind i ≠ .weak 3) ∧
        (t.computeSets.value.wildcardSet 4).get (t.symbol 3).index = false)) (by decide +kernel)
  obtain ⟨hc, hr, hn, ha, hb, he, hi, hset⟩ := of_decide_eq_true h
  have hall (i : NodeId) : ((g.table.graph.kind i).outline = .any default → i = 4) ∧
      g.table.graph.kind i ≠ .terminal 3 ∧ g.table.graph.kind i ≠ .weak 3 := by
    by_cases hlt : i < g.table.graph.size
    · exact hi i hlt
    · rw [Graph.kind, Graph.node_of_size_le (Nat.le_of_not_lt hlt)]
      simp [NodeKind.outline]
  exact ⟨g, hg, ⟨⟨1, hc, .next (.root hr) hn⟩, NodeKind.outline_eq_any.mp ha,
    fun i _ set hk => (hall i).1 (NodeKind.outline_eq_any.mpr ⟨set, hk⟩)⟩, hb, he,
    fun i => (hall i).2, hset⟩

theorem get_onlyWildcard_wrapped : ∃ g, (Grammar.parse wrapped default {}).2 = .ok g ∧
    ((g.table.computeSets.value.wildcardSet 4).get (g.table.symbol 3).index = true ↔
      3 ≠ g.table.eof ∧ ∀ x, g.prepared.Yields 4 x → ¬ g.table.Starts (.rest x) 3) := by
  obtain ⟨g, hg, ha, hb, -⟩ := onlyWildcard_wrapped
  exact ⟨g, hg, get_onlyWildcard_of_parse hg ha hb⟩

set_option maxRecDepth 100000 in
/-- The only wildcard of the productions does not match a terminal that stands nowhere in them. -/
theorem lost_wrapped : ∃ g, (Grammar.parse wrapped default {}).2 = .ok g ∧
    (Grammar.parse wrapped default {}).1.errorCount = Log.errorCount {} ∧
    ∃ a, g.table.OnlyWildcard a ∧ ∃ b ∈ g.table.terminals, b ≠ g.table.eof ∧
      (∀ i, g.table.graph.kind i ≠ .terminal b ∧ g.table.graph.kind i ≠ .weak b) ∧
        (g.table.computeSets.value.wildcardSet a).get (g.table.symbol b).index = false := by
  obtain ⟨g, hg, ha, hb, h⟩ := onlyWildcard_wrapped
  exact ⟨g, hg, by decide +kernel, 4, ha, 3, hb, h⟩

end Grammar

end Lookahead
