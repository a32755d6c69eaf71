import Lookahead.Proofs.FollowWalk
import Lookahead.Proofs.Wildcards
import Mathlib.Order.Bounds.Basic

/-!
# Follow sets are exact

`Table.completeFrom` takes into the follow set of one nonterminal those of all its sources, however
they depend on each other: it may read sets that are not complete themselves, but each of them goes
on into the set of the nonterminal that the search has started from (`Table.Absorbs`). The sources
of that one are then dropped, and its set is complete, so nothing is lost for those that come later
(`Table.Pending`), in whatever order they come.
-/

namespace Lookahead

namespace Table

variable {d s t u : Table} {root a b c v w : SymbolId} {k n : Nat} {x : Option Nat}
  {q r : Table × IndexSet}

/-- The follow set of `w` still has to go into that of `v`. -/
def Awaits (t : Table) (v w : SymbolId) : Prop :=
  v ∈ t.nonterminals ∧ w ∈ t.nonterminals ∧
    (t.symbol v).followSources.get (t.symbol w).index = true

/-- The family has with the follow set of a source what that holds. -/
def Collects (t : Table) (F : SymbolId → Nat → Prop) : Prop :=
  ∀ v w k, t.Awaits v w → F w k → F v k

/-- The follow sets of `t` are in the family. -/
def Below (t : Table) (F : SymbolId → Nat → Prop) : Prop :=
  ∀ v ∈ t.nonterminals, ∀ k, (t.symbol v).follow.get k = true → F v k

/-- The search from `q.2` to `r.2`, on behalf of `root` and in a table that was `s` at its start,
has brought all that it passed into the follow set of `a`. -/
structure Absorbs (s : Table) (root a : SymbolId) (x : Option Nat) (q r : Table × IndexSet) :
    Prop where
  same : SameFirst s r.1
  sized : Sized r.1
  walk : IndexSet.Marking
    (fun n k => ∃ v w, n = (s.symbol v).index ∧ k = (s.symbol w).index ∧ s.Awaits v w)
    (fun _ => True) x q.2 r.2
  sources : ∀ v ∈ s.nonterminals, v ≠ root →
    (r.1.symbol v).followSources = (s.symbol v).followSources
  unmarked : r.2.get (s.symbol root).index = false →
    (r.1.symbol root).followSources = (s.symbol root).followSources
  kept : q.2.get (s.symbol root).index = true →
    (r.1.symbol root).followSources = (q.1.symbol root).followSources
  sub : ∀ n, (r.1.symbol root).followSources.get n = true →
    (s.symbol root).followSources.get n = true
  grows : ∀ v ∈ s.nonterminals, ∀ k, (q.1.symbol v).follow.get k = true →
    (r.1.symbol v).follow.get k = true
  absorbs : ∀ v ∈ s.nonterminals, IndexSet.Added q.2 r.2 (s.symbol v).index →
    ∀ k, (q.1.symbol v).follow.get k = true → (r.1.symbol a).follow.get k = true
  sound : ∀ F, s.Collects F → q.1.Below F → r.1.Below F

/-- What a search finds when it starts. -/
structure Searchable (s : Table) (root : SymbolId) (q : Table × IndexSet) : Prop where
  same : SameFirst s q.1
  sized : Sized q.1
  size : q.2.size = s.nonterminalCount
  sources : ∀ v ∈ s.nonterminals, v ≠ root →
    (q.1.symbol v).followSources = (s.symbol v).followSources
  unmarked : q.2.get (s.symbol root).index = false →
    (q.1.symbol root).followSources = (s.symbol root).followSources
  sub : ∀ n, (q.1.symbol root).followSources.get n = true →
    (s.symbol root).followSources.get n = true

theorem Absorbs.searchable (h : Absorbs s root a x q r) (hq : q.2.size = s.nonterminalCount) :
    Searchable s root r :=
  ⟨h.same, h.sized, h.walk.size.trans hq, h.sources, h.unmarked, h.sub⟩

theorem Searchable.refl (h : Searchable s root q) (a : SymbolId) : Absorbs s root a none q q :=
  ⟨h.same, h.sized, .refl _, h.sources, h.unmarked, fun _ => rfl, h.sub, fun _ _ _ => id,
    fun _ _ hv => absurd hv IndexSet.not_added_self, fun _ _ => id⟩

/-- The follow set of `b` goes into that of `a`, and `root` is done with the index `j` of `b`. -/
def absorb (root a : SymbolId) (t : Table) (b : SymbolId) (j : Nat) : Table :=
  t.modifySymbol a fun s =>
    { s with
      follow := s.follow.union (t.symbol b).follow
      followSources := if a = root then s.followSources.erase j else s.followSources }

theorem sameFirst_absorb (t : Table) (root a b : SymbolId) (j : Nat) :
    SameFirst t (absorb root a t b j) := by
  refine .modifySymbol t a fun s => ?_
  rfl

theorem follow_absorb (t : Table) (root a b v : SymbolId) (j : Nat) :
    ((absorb root a t b j).symbol v).follow = if a = v ∧ v < t.symbols.size then
      (t.symbol v).follow.union (t.symbol b).follow else (t.symbol v).follow := by
  unfold absorb
  rw [symbol_modifySymbol]
  split <;> rfl

theorem sources_absorb (t : Table) (root a b v : SymbolId) (j : Nat) :
    ((absorb root a t b j).symbol v).followSources =
      if (a = v ∧ v < t.symbols.size) ∧ a = root then (t.symbol v).followSources.erase j
      else (t.symbol v).followSources := by
  unfold absorb
  rw [symbol_modifySymbol]
  by_cases h : a = v ∧ v < t.symbols.size
  · by_cases ha : a = root <;> simp [h]
  · simp [h]

theorem sized_absorb (hz : Sized t) : Sized (absorb root a t b n) := by
  have h := sameFirst_absorb t root a b n
  refine ⟨?_, ?_⟩
  · intro v hv
    rw [h.nonterminals] at hv
    rw [follow_absorb, h.terminalCount]
    split
    · rw [IndexSet.size_union]
      exact hz.follow v hv
    · exact hz.follow v hv
  · intro v hv
    rw [h.nonterminals] at hv
    rw [sources_absorb, nonterminalCount, h.nonterminals]
    split
    · rw [IndexSet.erase, IndexSet.size_set]
      exact hz.sources v hv
    · exact hz.sources v hv

/-- What the follow set of `a` has afterwards. -/
theorem get_follow_absorb (hz : Sized t) (ha : a ∈ t.nonterminals) (hlt : a < t.symbols.size)
    (hb : b ∈ t.nonterminals) (j : Nat) :
    ((absorb root a t b j).symbol a).follow.get k = true ↔
      (t.symbol a).follow.get k = true ∨ (t.symbol b).follow.get k = true := by
  rw [follow_absorb, if_pos ⟨rfl, hlt⟩]
  by_cases hk : k < t.terminalCount
  · rw [IndexSet.get_union ((hz.follow a ha).symm ▸ hk), Bool.or_eq_true]
  · have hk := Nat.le_of_not_lt hk
    rw [IndexSet.get_of_size_le (IndexSet.size_union.trans_le ((hz.follow a ha).trans_le hk)),
      IndexSet.get_of_size_le ((hz.follow a ha).trans_le hk),
      IndexSet.get_of_size_le ((hz.follow b hb).trans_le hk)]
    simp

theorem follow_absorb_of_ne (h : a ≠ v) (j : Nat) :
    ((absorb root a t b j).symbol v).follow = (t.symbol v).follow := by
  rw [follow_absorb, if_neg fun hc => h hc.1]

theorem sources_absorb_of_ne (h : a = v → a ≠ root) (j : Nat) :
    ((absorb root a t b j).symbol v).followSources = (t.symbol v).followSources := by
  rw [sources_absorb, if_neg fun hc => h hc.1.1 hc.2]

theorem get_sources_of_absorb {j : Nat}
    (h : ((absorb root a t b j).symbol v).followSources.get n = true) :
    (t.symbol v).followSources.get n = true := by
  rw [sources_absorb] at h
  split at h
  · rw [IndexSet.erase, IndexSet.get_set] at h
    split at h
    · cases h
    · exact h
  · exact h

/-- One source of `a`, if it is one. -/
def completeStep (root : SymbolId) (fuel : Nat) (a : SymbolId) (r : Table × IndexSet)
    (b : SymbolId) : Table × IndexSet :=
  if (r.1.symbol a).followSources.get (r.1.symbol b).index then
    let r' := completeFrom root fuel r b
    (absorb root a r'.1 b (r.1.symbol b).index, r'.2)
  else r

theorem completeFrom_succ (root : SymbolId) (fuel : Nat) (t : Table) (m : IndexSet)
    (a : SymbolId) : completeFrom root (fuel + 1) (t, m) a =
      if m.get (t.symbol a).index then (t, m)
      else t.nonterminals.toList.foldl (completeStep root fuel a)
        (t, m.insert (t.symbol a).index) := rfl

/-- After the search from a source, that goes into the follow set of `a`. -/
theorem Absorbs.absorb {r' : Table × IndexSet} (hs : s.Formed) (ha : a ∈ s.nonterminals)
    (hb : s.Awaits a b) (hn : q.2.get (s.symbol a).index = false)
    (h : Absorbs s root a (some (s.symbol a).index) q r) (h' : Absorbs s root b none r r') :
    Absorbs s root a (some (s.symbol a).index) q
      (Table.absorb root a r'.1 b (s.symbol b).index, r'.2) := by
  have hlt := ((hs.registered.mem .nonterminal a).mp ha).1
  have hget (k : Nat) := @get_follow_absorb _ root a b k h'.sized
    (h'.same.nonterminals ▸ ha) (h'.same.size ▸ hlt) (h'.same.nonterminals ▸ hb.2.1)
    (s.symbol b).index
  have hroot : a = root → r.2.get (s.symbol root).index = true :=
    fun ha => h.walk.marked _ (ha ▸ rfl)
  have hgrows (v : SymbolId) (k : Nat) (hk : (r'.1.symbol v).follow.get k = true) :
      ((Table.absorb root a r'.1 b (s.symbol b).index).symbol v).follow.get k = true := by
    by_cases hav : a = v
    · subst hav
      exact (hget k).mpr (.inl hk)
    · rwa [follow_absorb_of_ne hav]
  exact {
    same := h'.same.trans (sameFirst_absorb ..)
    sized := sized_absorb h'.sized
    walk := h.walk.trans h'.walk
    sources := fun v hv hvr => by
      rw [sources_absorb_of_ne fun hav har => hvr (hav.symm.trans har)]
      exact h'.sources v hv hvr
    unmarked := fun hr => by
      have har : a ≠ root := fun har => absurd (h'.walk.mono _ (hroot har)) (by simp [hr])
      rw [sources_absorb_of_ne fun _ => har]
      exact h'.unmarked hr
    kept := fun hq => by
      have har : a ≠ root := fun har => absurd hn (by simp [har, hq])
      rw [sources_absorb_of_ne fun _ => har, h'.kept (h.walk.mono _ hq)]
      exact h.kept hq
    sub := fun n hn => h'.sub n (get_sources_of_absorb hn)
    grows := fun v hv k hk => hgrows v k (h'.grows v hv k (h.grows v hv k hk))
    absorbs := fun v hv hadd k hk => by
      rcases (IndexSet.added_trans h.walk.mono h'.walk.mono).mp hadd with hadd | hadd
      · exact hgrows a k (h'.grows a ha k (h.absorbs v hv hadd k hk))
      · exact (hget k).mpr (.inr (h'.absorbs v hv hadd k (h.grows v hv k hk)))
    sound := fun F hF hq v hv k hk => by
      have hr := h'.sound F hF (h.sound F hF hq)
      rw [(sameFirst_absorb ..).nonterminals] at hv
      by_cases hav : a = v
      · subst hav
        rcases (hget k).mp hk with hk | hk
        · exact hr a hv k hk
        · exact hF a b k hb (hr b (h'.same.nonterminals ▸ hb.2.1) k hk)
      · rw [follow_absorb_of_ne hav] at hk
        exact hr v hv k hk }

section

variable {fuel : Nat} (hs : s.Formed)
include hs

/-- After one source of `a` the others are still to be looked at. -/
theorem Absorbs.sources_left {r' : Table × IndexSet} (ha : a ∈ s.nonterminals)
    (hb : b ∈ s.nonterminals) (hc : c ∈ s.nonterminals) (hbc : b ≠ c)
    (h : Absorbs s root a (some (s.symbol a).index) q r) (h' : Absorbs s root b none r r') :
    ((Table.absorb root a r'.1 b (s.symbol b).index).symbol a).followSources.get
      (s.symbol c).index = (r.1.symbol a).followSources.get (s.symbol c).index := by
  have hkept : (r'.1.symbol a).followSources = (r.1.symbol a).followSources := by
    by_cases har : a = root
    · subst har
      exact h'.kept (h.walk.marked _ rfl)
    · rw [h'.sources a ha har, h.sources a ha har]
  have hne : (s.symbol b).index ≠ (s.symbol c).index := fun h =>
    hbc (hs.registered.index_inj (k := .nonterminal) (by decide) hb hc h)
  rw [sources_absorb, hkept]
  split
  · rw [IndexSet.erase, IndexSet.get_set, if_neg fun h => hne h.1]
  · rfl

/-- The sources of `a`, one after the other. What is left of them to be looked at is as it was. -/
theorem absorbs_foldl (ha : a ∈ s.nonterminals)
    (ih : ∀ b ∈ s.nonterminals, ∀ q : Table × IndexSet, Searchable s root q →
      IndexSet.unmarked q.2 < fuel → Absorbs s root b none q (completeFrom root fuel q b) ∧
        (completeFrom root fuel q b).2.get (s.symbol b).index = true)
    (hq : q.2.size = s.nonterminalCount) (hf : IndexSet.unmarked q.2 < fuel + 1)
    (hn : q.2.get (s.symbol a).index = false) {l : List SymbolId}
    (hl : ∀ b ∈ l, b ∈ s.nonterminals) (hd : l.Nodup)
    (h : Absorbs s root a (some (s.symbol a).index) q r)
    (hr : ∀ b ∈ l, (r.1.symbol a).followSources.get (s.symbol b).index =
      (s.symbol a).followSources.get (s.symbol b).index) :
    Absorbs s root a (some (s.symbol a).index) q (l.foldl (completeStep root fuel a) r) ∧
      (∀ n, r.2.get n = true → (l.foldl (completeStep root fuel a) r).2.get n = true) ∧
      ∀ b ∈ l, s.Awaits a b →
        (l.foldl (completeStep root fuel a) r).2.get (s.symbol b).index = true := by
  have hlt : (s.symbol a).index < q.2.size :=
    hq ▸ hs.registered.index_lt_size (k := .nonterminal) (by decide) ha
  induction l generalizing r with
  | nil => exact ⟨h, fun _ => id, by simp⟩
  | cons b l ih' =>
    obtain ⟨hbl, hd⟩ := List.nodup_cons.mp hd
    have hb := hl b (by simp)
    have hl' : ∀ c ∈ l, c ∈ s.nonterminals := fun c hc => hl c (by simp [hc])
    rw [List.foldl_cons]
    by_cases hc : (s.symbol a).followSources.get (s.symbol b).index = true
    · have hstep : completeStep root fuel a r b =
          (absorb root a (completeFrom root fuel r b).1 b (s.symbol b).index,
            (completeFrom root fuel r b).2) := by
        unfold completeStep
        rw [h.same.index, if_pos ((hr b (by simp)).trans hc)]
      obtain ⟨h', hmark⟩ := ih b hb r (h.searchable hq)
        ((h.walk.unmarked_lt hlt hn).trans_le (Nat.le_of_lt_succ hf))
      rw [hstep]
      generalize completeFrom root fuel r b = r' at h' hmark
      have hrest : ∀ c ∈ l, ((absorb root a r'.1 b (s.symbol b).index).symbol a).followSources.get
          (s.symbol c).index = (s.symbol a).followSources.get (s.symbol c).index := fun c hc =>
        (h.sources_left hs ha hb (hl' c hc) (fun hbc => hbl (hbc ▸ hc)) h').trans
          (hr c (by simp [hc]))
      obtain ⟨h₁, h₂, h₃⟩ := ih' hl' hd (h.absorb hs ha ⟨ha, hb, hc⟩ hn h') hrest
      refine ⟨h₁, fun n hn => h₂ n (h'.walk.mono n hn), fun c hc hac => ?_⟩
      rcases List.mem_cons.mp hc with rfl | hc
      · exact h₂ _ hmark
      · exact h₃ c hc hac
    · have hstep : completeStep root fuel a r b = r := by
        unfold completeStep
        rw [h.same.index, if_neg]
        rw [hr b (by simp)]
        exact hc
      rw [hstep]
      obtain ⟨h₁, h₂, h₃⟩ := ih' hl' hd h fun c hc => hr c (by simp [hc])
      refine ⟨h₁, h₂, fun c hcl hac => ?_⟩
      rcases List.mem_cons.mp hcl with rfl | hcl
      · exact absurd hac.2.2 hc
      · exact h₃ c hcl hac

/-- The search from a nonterminal that is not marked marks it first, and then what it awaits. -/
theorem absorbs_completeFrom (ha : a ∈ s.nonterminals) (hq : Searchable s root q)
    (hf : IndexSet.unmarked q.2 < fuel) :
    Absorbs s root a none q (completeFrom root fuel q a) ∧
      (completeFrom root fuel q a).2.get (s.symbol a).index = true := by
  induction fuel generalizing a q with
  | zero => exact absurd hf (Nat.not_lt_zero _)
  | succ fuel ih =>
    obtain ⟨t, m⟩ := q
    have hidx : (t.symbol a).index = (s.symbol a).index := hq.same.index a
    have hlist : t.nonterminals = s.nonterminals := hq.same.nonterminals
    rw [completeFrom_succ, hidx, hlist]
    split
    · rename_i hn
      exact ⟨hq.refl a, hn⟩
    · rename_i hn
      have hn : m.get (s.symbol a).index = false := by simpa using hn
      have hlt : (s.symbol a).index < m.size :=
        hq.size ▸ hs.registered.index_lt_size (k := .nonterminal) (by decide) ha
      have hsources : (t.symbol a).followSources = (s.symbol a).followSources := by
        by_cases har : a = root
        · subst har
          exact hq.unmarked hn
        · exact hq.sources a ha har
      have hmark : Absorbs s root a (some (s.symbol a).index) (t, m)
          (t, m.insert (s.symbol a).index) := by
        refine ⟨hq.same, hq.sized, .mark hlt hn trivial, hq.sources, fun hr => ?_, fun _ => rfl,
          hq.sub, fun _ _ _ => id, fun v hv hadd k hk => ?_, fun _ _ => id⟩
        · refine hq.unmarked ?_
          by_contra hc
          rw [IndexSet.get_insert_of_get _ (by simpa using hc)] at hr
          cases hr
        · rw [IndexSet.added_insert hlt hn] at hadd
          rwa [hs.registered.index_inj (k := .nonterminal) (by decide) hv ha hadd] at hk
      obtain ⟨h₁, h₂, h₃⟩ := absorbs_foldl hs ha (fun b hb q hq hf => ih hb hq hf) hq.size hf hn
        (l := s.nonterminals.toList) (by simp)
        (hs.registered.nodup_listed (k := .nonterminal) (by decide)) hmark
          fun b _ => by rw [hsources]
      refine ⟨{ h₁ with walk := h₁.walk.close ?_ }, h₁.walk.marked _ rfl⟩
      rintro k ⟨v, w, hav, rfl, hvw⟩
      obtain rfl := hs.registered.index_inj (k := .nonterminal) (by decide) ha hvw.1 hav
      exact h₃ w (by simpa using hvw.2.1) hvw

/-- What one completion gives. -/
theorem absorbs_completeFollow (ha : a ∈ s.nonterminals) (hz : Sized s) :
    ∃ r : Table × IndexSet, s.completeFollow a = r.1 ∧
      Absorbs s a a none (s, .empty s.nonterminalCount) r ∧
      r.2.get (s.symbol a).index = true := by
  refine ⟨_, rfl, absorbs_completeFrom hs ha ?_ ?_⟩
  · exact ⟨.refl s, hz, IndexSet.size_empty _, fun _ _ _ => rfl, fun _ => rfl, fun _ => id⟩
  · have := IndexSet.unmarked_le_size (.empty s.nonterminalCount)
    rw [IndexSet.size_empty] at this
    exact Nat.lt_succ_of_le this

/-- All that the completed nonterminal awaits, directly or not, has gone into its follow set. -/
theorem follow_completeFollow (ha : a ∈ s.nonterminals) (hz : Sized s)
    (h : Relation.ReflTransGen s.Awaits a v) (hk : (s.symbol v).follow.get k = true) :
    ((s.completeFollow a).symbol a).follow.get k = true := by
  obtain ⟨r, hr, habs, hmark⟩ := absorbs_completeFollow hs ha hz
  rw [hr]
  have hv : v ∈ s.nonterminals ∧ r.2.get (s.symbol v).index = true := by
    clear hk
    induction h with
    | refl => exact ⟨ha, hmark⟩
    | tail _ hvw ih =>
      obtain ⟨hv, hm⟩ := ih
      exact ⟨hvw.2.1, habs.walk.closed _ _ ⟨hm, IndexSet.get_empty ..⟩ nofun ⟨_, _, rfl, rfl, hvw⟩⟩
  exact habs.absorbs v hv.1 ⟨hv.2, IndexSet.get_empty ..⟩ k hk

end

/-! ### One nonterminal after the other -/

/-- What the complete follow set of `v` has, given the direct ones and all that await others. -/
def Full (d : Table) (v : SymbolId) (k : Nat) : Prop :=
  ∃ w, Relation.ReflTransGen d.Awaits v w ∧ w ∈ d.nonterminals ∧
    (d.symbol w).follow.get k = true

/-- Between `d` and the complete follow sets. What has lost sources is complete. -/
structure Pending (d t : Table) : Prop where
  same : SameFirst d t
  sized : Sized t
  sub : ∀ v ∈ d.nonterminals, ∀ n, (t.symbol v).followSources.get n = true →
    (d.symbol v).followSources.get n = true
  direct : ∀ v ∈ d.nonterminals, ∀ k, (d.symbol v).follow.get k = true →
    (t.symbol v).follow.get k = true
  sound : t.Below d.Full
  done : ∀ v ∈ d.nonterminals, (t.symbol v).followSources = (d.symbol v).followSources ∨
    ∀ k, d.Full v k → (t.symbol v).follow.get k = true

theorem Pending.refl (hz : Sized d) : Pending d d :=
  ⟨.refl d, hz, fun _ _ _ => id, fun _ _ _ => id, fun v hv _ hk => ⟨v, .refl, hv, hk⟩,
    fun _ _ => .inl rfl⟩

theorem Pending.awaits (h : Pending d t) (hvw : t.Awaits v w) : d.Awaits v w := by
  obtain ⟨hv, hw, hvw⟩ := hvw
  rw [h.same.nonterminals] at hv hw
  rw [h.same.index] at hvw
  exact ⟨hv, hw, h.sub v hv _ hvw⟩

theorem Pending.awaits_of_eq (h : Pending d t) (hvw : d.Awaits v w)
    (he : (t.symbol v).followSources = (d.symbol v).followSources) : t.Awaits v w := by
  obtain ⟨hv, hw, hvw⟩ := hvw
  rw [Awaits, h.same.nonterminals, h.same.index, he]
  exact ⟨hv, hw, hvw⟩

theorem Pending.collects (h : Pending d t) : t.Collects d.Full := by
  rintro v w k hvw ⟨x, hx, hk⟩
  exact ⟨x, .head (h.awaits hvw) hx, hk⟩

variable (hd : d.Formed)
include hd

/-- The nonterminal that is completed has its complete follow set: a search that is cut short at a
nonterminal without sources has found a complete set there. -/
theorem Pending.full_completeFollow (h : Pending d t) (ha : a ∈ d.nonterminals)
    (hk : d.Full a k) : ((t.completeFollow a).symbol a).follow.get k = true := by
  have ht : t.Formed := h.same.sameGrammar.formed hd
  have ha' : a ∈ t.nonterminals := h.same.nonterminals ▸ ha
  obtain ⟨w, haw, hw, hk⟩ := hk
  suffices ∀ v, Relation.ReflTransGen d.Awaits v w → Relation.ReflTransGen t.Awaits a v →
      ((t.completeFollow a).symbol a).follow.get k = true from this a haw .refl
  intro v hvw
  induction hvw using Relation.ReflTransGen.head_induction_on with
  | refl => exact fun hav => follow_completeFollow ht ha' h.sized hav (h.direct w hw k hk)
  | head hvx hxw ih =>
    intro hav
    rcases h.done _ hvx.1 with he | hfull
    · exact ih (hav.tail (h.awaits_of_eq hvx he))
    · exact follow_completeFollow ht ha' h.sized hav (hfull k ⟨w, .head hvx hxw, hw, hk⟩)

theorem Pending.completeFollow (h : Pending d t) (ha : a ∈ d.nonterminals) :
    Pending d (t.completeFollow a) := by
  have ht : t.Formed := h.same.sameGrammar.formed hd
  have ha' : a ∈ t.nonterminals := h.same.nonterminals ▸ ha
  have hfull (k : Nat) (hk : d.Full a k) := h.full_completeFollow hd ha hk
  obtain ⟨r, hr, habs, -⟩ := absorbs_completeFollow ht ha' h.sized
  rw [hr] at hfull ⊢
  refine ⟨h.same.trans habs.same, habs.sized, fun v hv n hn => ?_, fun v hv k hk => ?_, ?_,
    fun v hv => ?_⟩
  · refine h.sub v hv n ?_
    by_cases hva : v = a
    · subst hva
      exact habs.sub n hn
    · rwa [habs.sources v (h.same.nonterminals ▸ hv) hva] at hn
  · exact habs.grows v (h.same.nonterminals ▸ hv) k (h.direct v hv k hk)
  · exact habs.sound d.Full h.collects h.sound
  · by_cases hva : v = a
    · subst hva
      exact .inr hfull
    · rw [habs.sources v (h.same.nonterminals ▸ hv) hva]
      exact (h.done v hv).imp_right fun hf k hk =>
        habs.grows v (h.same.nonterminals ▸ hv) k (hf k hk)

theorem Pending.foldl (h : Pending d t) {l : List SymbolId} (hl : ∀ a ∈ l, a ∈ d.nonterminals) :
    Pending d (l.foldl Table.completeFollow t) ∧ ∀ a ∈ d.nonterminals,
      a ∈ l ∨ (∀ k, d.Full a k → (t.symbol a).follow.get k = true) →
        ∀ k, d.Full a k → ((l.foldl Table.completeFollow t).symbol a).follow.get k = true := by
  induction l generalizing t with
  | nil => exact ⟨h, by simp⟩
  | cons x l ih =>
    have hx := hl x (by simp)
    have hstep := h.completeFollow hd hx
    obtain ⟨h₁, h₂⟩ := ih hstep fun a ha => hl a (by simp [ha])
    refine ⟨h₁, fun a ha hc => h₂ a ha ?_⟩
    rw [or_iff_not_imp_left]
    intro hal k hk
    by_cases hax : a = x
    · subst hax
      exact h.full_completeFollow hd ha hk
    · have hk' := hc.resolve_left (by simp [hax, hal]) k hk
      obtain ⟨r, hr, habs, -⟩ := absorbs_completeFollow (h.same.sameGrammar.formed hd)
        (h.same.nonterminals ▸ hx) h.sized
      rw [hr]
      exact habs.grows a (h.same.nonterminals ▸ ha) k hk'

/-- Whatever the order, the follow sets get complete. -/
theorem follow_foldl_completeFollow (hz : Sized d) {l : List SymbolId}
    (hl : ∀ a, a ∈ l ↔ a ∈ d.nonterminals) (ha : a ∈ d.nonterminals) (k : Nat) :
    ((l.foldl Table.completeFollow d).symbol a).follow.get k = true ↔ d.Full a k := by
  obtain ⟨h₁, h₂⟩ := (Pending.refl hz).foldl hd fun a ha => (hl a).mp ha
  exact ⟨h₁.sound a (h₁.same.nonterminals ▸ ha) k, h₂ a ha (.inl ((hl a).mpr ha)) k⟩

omit hd

/-! ### The least family -/

/-- The family has what must be in follow sets. -/
structure FollowClosed (t : Table) (F : SymbolId → Set SymbolId) : Prop where
  eof : ∀ a, t.start = some a → t.eof ∈ F a
  next : ∀ a ∈ t.nonterminals, ∀ i b, t.Within a i → t.graph.kind i = .nonterminal b →
    ∀ c ∈ t.terminals, (t.firstSet (t.graph.next i)).get (t.symbol c).index = true → c ∈ F b
  rest : ∀ a ∈ t.nonterminals, ∀ i b, t.Within a i → t.graph.kind i = .nonterminal b →
    t.restDeletable (t.graph.next i) = true → F a ⊆ F b

/-- The family of the follow sets of the nonterminals. -/
def followFamily (t : Table) (a : SymbolId) : Set SymbolId :=
  {c | a ∈ t.nonterminals ∧ c ∈ t.terminals ∧
    (t.symbol a).follow.get (t.symbol c).index = true}

/-- What is complete is what comes behind some nonterminal that can end where `a` ends. -/
theorem Formed.full_directFollow_iff (ht : t.Formed) (hc : c ∈ t.terminals) :
    t.directFollow.Full a (t.symbol c).index ↔ ∃ b, Relation.ReflTransGen
      (fun v w => v ∈ t.nonterminals ∧ w ∈ t.nonterminals ∧ t.EndsIn v w) a b ∧
        b ∈ t.nonterminals ∧ t.FollowsDirectly b c := by
  have h := ht.gains_directFollow.same
  have hrel : t.directFollow.Awaits =
      fun v w => v ∈ t.nonterminals ∧ w ∈ t.nonterminals ∧ t.EndsIn v w := by
    funext v w
    unfold Awaits
    rw [h.nonterminals, h.index]
    refine propext (and_congr_right fun hv => and_congr_right fun hw => ?_)
    exact ht.sources_directFollow hw hv
  unfold Full
  rw [hrel, h.nonterminals]
  refine exists_congr fun b => and_congr_right fun _ => and_congr_right fun hb => ?_
  exact ht.follow_directFollow hb hc

/-- All that is said about follow sets: they are the least ones, and they do not depend on the order
in which they are completed. -/
structure FollowExact (t : Table) : Prop where
  least : IsLeast {F | t.computeFollow.value.FollowClosed F} t.computeFollow.value.followFamily
  order : ∀ l : List SymbolId, l.Perm t.nonterminals.toList → ∀ a ∈ t.nonterminals,
    ((l.foldl completeFollow t.directFollow).symbol a).follow =
      (t.computeFollow.value.symbol a).follow

theorem FollowClosed.of_same {F : SymbolId → Set SymbolId} (h : SameFirst t u)
    (hF : t.FollowClosed F) : u.FollowClosed F where
  eof a ha := by
    rw [h.eof]
    exact hF.eof a (h.start ▸ ha)
  next a ha i b hi hk c hc hf := by
    rw [h.graph] at hk hf
    rw [h.firstSet, h.index] at hf
    exact hF.next a (h.nonterminals ▸ ha) i b (h.sameGrammar.within_iff.mp hi) hk c
      (h.terminals ▸ hc) hf
  rest a ha i b hi hk hr := by
    rw [h.graph] at hk hr
    rw [h.restDeletable] at hr
    exact hF.rest a (h.nonterminals ▸ ha) i b (h.sameGrammar.within_iff.mp hi) hk hr

/-- A closed family has what comes behind nonterminals that can end where others end. -/
theorem FollowClosed.mem_of_full {F : SymbolId → Set SymbolId} (hF : t.FollowClosed F)
    (hc : c ∈ t.terminals) (h : Relation.ReflTransGen
      (fun v w => v ∈ t.nonterminals ∧ w ∈ t.nonterminals ∧ t.EndsIn v w) a b)
    (hb : t.FollowsDirectly b c) : c ∈ F a := by
  induction h using Relation.ReflTransGen.head_induction_on with
  | refl =>
    rcases hb with ⟨hs, rfl⟩ | ⟨v, hv, i, hi, hk, hf⟩
    · exact hF.eof _ hs
    · exact hF.next v hv i _ hi hk c hc hf
  | head hvw _ ih =>
    obtain ⟨-, hw, i, hi, hk, hr⟩ := hvw
    exact hF.rest _ hw i _ hi hk hr ih

theorem Formed.allows_nonterminal (ht : t.Formed) {i : NodeId}
    (hk : t.graph.kind i = .nonterminal b) : b ∈ t.nonterminals := by
  have := ht.allows i
  rwa [hk] at this

theorem Formed.followExact (ht : t.Formed) : FollowExact t := by
  have hg := ht.gains_directFollow
  have hd : t.directFollow.Formed := hg.same.sameGrammar.formed ht
  have hl {l : List SymbolId} (hl : l.Perm t.nonterminals.toList) (a : SymbolId) :
      a ∈ l ↔ a ∈ t.directFollow.nonterminals := by
    rw [hl.mem_iff, Array.mem_toList_iff, hg.same.nonterminals]
  have pending {l : List SymbolId} (hp : l.Perm t.nonterminals.toList) :
      Pending t.directFollow (l.foldl completeFollow t.directFollow) :=
    ((Pending.refl hg.sized).foldl hd fun a ha => (hl hp a).mp ha).1
  have full {l : List SymbolId} (hp : l.Perm t.nonterminals.toList) {a : SymbolId}
      (ha : a ∈ t.nonterminals) (k : Nat) :=
    follow_foldl_completeFollow hd hg.sized (hl hp) (hg.same.nonterminals ▸ ha) k
  have hvalue : t.computeFollow.value =
      t.nonterminals.toList.foldl completeFollow t.directFollow := by
    rw [value_computeFollow, hg.same.nonterminals]
  have hsame : SameFirst t t.computeFollow.value :=
    hvalue ▸ hg.same.trans (pending (.refl _)).same
  -- the follow sets are what comes behind, along all chains of nonterminals that end each other
  have hmem {a c : SymbolId} (ha : a ∈ t.nonterminals) (hc : c ∈ t.terminals) :=
    (hvalue ▸ full (.refl _) ha (t.symbol c).index).trans (ht.full_directFollow_iff hc)
  refine ⟨?_, ?_⟩
  · refine ⟨?_, ?_⟩
    · refine FollowClosed.of_same hsame ⟨fun a ha => ?_, fun a ha i b hi hk c hc hf => ?_,
        fun a ha i b hi hk hr c hc => ?_⟩
      all_goals
        simp only [followFamily, hsame.nonterminals, hsame.terminals, hsame.index,
          Set.mem_ofPred_eq] at *
      · have hs := ht.registered.start a ha
        exact ⟨hs, ht.registered.eof, (hmem hs ht.registered.eof).mpr
          ⟨a, .refl, hs, .inl ⟨ha, rfl⟩⟩⟩
      · have hb := ht.allows_nonterminal hk
        exact ⟨hb, hc, (hmem hb hc).mpr ⟨b, .refl, hb, .inr ⟨a, ha, i, hi, hk, hf⟩⟩⟩
      · have hb := ht.allows_nonterminal hk
        obtain ⟨v, hav, hv, hf⟩ := (hmem ha hc.2.1).mp hc.2.2
        exact ⟨hb, hc.2.1, (hmem hb hc.2.1).mpr ⟨v, .head ⟨hb, ha, i, hi, hk, hr⟩ hav, hv, hf⟩⟩
    · intro F hF a c hc
      have hF := FollowClosed.of_same hsame.symm hF
      simp only [followFamily, hsame.nonterminals, hsame.terminals, hsame.index,
        Set.mem_ofPred_eq] at hc
      obtain ⟨b, hab, -, hb⟩ := (hmem hc.1 hc.2.1).mp hc.2.2
      exact hF.mem_of_full hc.2.1 hab hb
  · intro l hp a ha
    have size {l : List SymbolId} (hp : l.Perm t.nonterminals.toList) :
        ((l.foldl completeFollow t.directFollow).symbol a).follow.size = t.terminalCount := by
      have h := pending hp
      rw [h.sized.follow a (h.same.nonterminals ▸ hg.same.nonterminals ▸ ha), h.same.terminalCount,
        hg.same.terminalCount]
    rw [hvalue]
    refine IndexSet.ext_get ((size hp).trans (size (.refl _)).symm) fun k _ => ?_
    rw [Bool.eq_iff_iff, full hp ha, full (.refl _) ha]

end Table

namespace Grammar

variable {source : String} {cfg : Config} {log : Log} {g : Grammar}

/-- The follow sets of a grammar are exact. -/
theorem followExact_of_parse (h : (Grammar.parse source cfg log).2 = .ok g) :
    g.table.computeDeletable.value.computeFirst.value.computeWildcards.value.FollowExact := by
  obtain ⟨ht, hd, hw⟩ := formed_parse h
  obtain ⟨hsame, he⟩ := ht.exact_computeDeletable hd
  obtain ⟨hmarks, -⟩ := (hsame.formed ht).exact_computeFirst (hsame.wild hw) he
  have ht' := hmarks.same.formed (hsame.formed ht)
  exact ((Table.redrawn_computeWildcards _).outline.formed ht').followExact

theorem followExact_sums : ∃ g, (Grammar.parse sums default {}).2 = .ok g ∧
    g.table.computeDeletable.value.computeFirst.value.computeWildcards.value.FollowExact := by
  obtain ⟨g, hg⟩ := parse_sums
  exact ⟨g, hg, followExact_of_parse hg⟩

end Grammar

end Lookahead
