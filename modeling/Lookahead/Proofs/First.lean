import Lookahead.Proofs.FirstWalk

/-!
# First sets are exact

What the walk reaches and collects is what derivations start with (`Table.starts_iff_reaches`),
provided that the first sets which are called final are exact (`Table.ReadyExact`). Setting one
nonterminal after the other keeps them so, and in the end all are final.
-/

namespace Lookahead

/-- Where reading a part starts. -/
def Part.start : Part → Option NodeId
  | .node i => some i
  | .group p | .rest p => p

namespace Table

variable {t u : Table} {a b c : SymbolId} {i j k : NodeId} {p : Option NodeId}

/-! ### What is reached and what is derived -/

/-- A part of a production can start with a terminal. -/
def Starts (t : Table) (P : Part) (b : SymbolId) : Prop :=
  ∃ w v, t.Spells P w ∧ t.Derives w (.terminal b :: v)

/-- The first sets that are called final are. -/
def ReadyExact (t : Table) : Prop :=
  ∀ a ∈ t.nonterminals, (t.symbol a).firstReady = true → ∀ b ∈ t.terminals,
    (t.symbol a).first.get (t.symbol b).index = true ↔
      ∃ v, t.Derives [.nonterminal a] (.terminal b :: v)

section

variable (ht : t.Formed) (hw : t.Wild) (he : Exact t) (hr : ReadyExact t)
include ht hw

theorem Inside.exists_next (hi : t.Inside i) : ∃ w, t.Spells (.rest (t.graph.next i)) w := by
  cases hn : t.graph.next i with
  | none => exact ⟨[], .restEnd⟩
  | some j =>
    obtain ⟨a, hi⟩ := hi
    exact (ht.exists_spells hw (hi.next hn)).2

theorem Starts.rest_of_node (hi : t.Inside i) (h : t.Starts (.node i) b) :
    t.Starts (.rest (some i)) b := by
  obtain ⟨w, v, hw', hd⟩ := h
  obtain ⟨u, hu⟩ := hi.exists_next ht hw
  exact ⟨w ++ u, v ++ u, .restStep hw' hu, hd.append (.refl u)⟩

include hr

theorem Starts.of_emits (hi : t.Inside i) (hb : b ∈ t.terminals) (h : t.Emits i b) :
    t.Starts (.rest (some i)) b := by
  refine Starts.rest_of_node ht hw hi ?_
  have ha := ht.allows i
  unfold Emits at h
  cases hk : t.graph.kind i <;> rw [hk] at h ha <;> try exact h.elim
  case terminal c => exact ⟨_, [], .terminal hk, h ▸ .refl _⟩
  case weak c => exact ⟨_, [], .weak hk, h ▸ .refl _⟩
  case any set => exact ⟨_, [], .any hk hb h, .refl _⟩
  case nonterminal c =>
    obtain ⟨v, hv⟩ := (hr c ha h.1 b hb).mp h.2
    exact ⟨_, v, .nonterminal hk, hv⟩

omit hr in
include he in
/-- What can start where the walk goes on can start before. -/
theorem Starts.of_edge (hi : t.Inside i) (h : t.Edge i k) (hs : t.Starts (.rest (some k)) b) :
    t.Starts (.rest (some i)) b := by
  obtain ⟨w, v, hw', hd⟩ := hs
  obtain ⟨a, ha⟩ := id hi
  cases h with
  | sub hk =>
    obtain ⟨x, y, rfl, hx, hy⟩ := (ht.spells_content ha hk).mp hw'
    unfold contentExit at hy
    cases h : t.graph.kind i <;> rw [h] at hk hy <;> cases hk
    · exact ⟨x ++ y, v, .restStep (.alternative h hx) hy, hd⟩
    · obtain ⟨y, z, rfl, hy, hz⟩ := spells_rest_some.mp hy
      exact ⟨(x ++ y) ++ z, v, .restStep (.again h hx hy) hz, by simpa using hd⟩
    · exact ⟨x ++ y, v, .restStep (.content h hx) hy, hd⟩
  | down hk =>
    obtain ⟨x, y, rfl, hx, hy⟩ := (ht.spells_other ha hk).mp hw'
    cases h : t.graph.kind i <;> rw [h] at hk <;> cases hk
    exact ⟨x ++ y, v, .restStep (.other h hx) hy, hd⟩
  | @root c hk _ hroot =>
    refine Starts.rest_of_node ht hw hi ⟨_, v, .nonterminal hk, ?_⟩
    exact (Derives.of_produces ⟨k, hroot, hw'⟩).trans hd
  | next hdel hk =>
    obtain ⟨x, hx, hn⟩ := (he.nodeDeletable_iff ht ha).mp hdel
    exact ⟨x ++ w, v, .restStep hx (by rwa [hk]), by simpa using hn.append hd⟩

include he in
theorem Starts.of_reaches (hi : t.Inside i) (hb : b ∈ t.terminals) (h : t.Reaches i j)
    (hj : t.Emits j b) : t.Starts (.rest (some i)) b := by
  induction h using Relation.ReflTransGen.head_induction_on with
  | refl => exact .of_emits ht hw hr hi hb hj
  | head hedge _ ih => exact .of_edge ht hw he hi hedge (ih (hi.edge hedge))

end

/-- A terminal is found from the production of a nonterminal, or in its final set. -/
def Heads (t : Table) (a b : SymbolId) : Prop :=
  if (t.symbol a).firstReady then (t.symbol a).first.get (t.symbol b).index = true
  else ∃ r j, (t.symbol a).root = some r ∧ t.Reaches r j ∧ t.Emits j b

/-- Behind letters that are marked deletable, a form has a letter that stands for the terminal. -/
def Begins (t : Table) (w : Form) (b : SymbolId) : Prop :=
  ∃ x c y, w = x ++ c :: y ∧ (∀ d ∈ x, ∃ a, d = .nonterminal a ∧ t.isDeletable a = true) ∧
    (c = .terminal b ∨ ∃ a, c = .nonterminal a ∧ t.Heads a b)

theorem begins_append {v w : Form} : t.Begins (v ++ w) b ↔ t.Begins v b ∨
    (∀ d ∈ v, ∃ a, d = .nonterminal a ∧ t.isDeletable a = true) ∧ t.Begins w b := by
  refine ⟨?_, ?_⟩
  · rintro ⟨x, c, y, hxy, hx, hc⟩
    rcases List.append_eq_append_iff.mp hxy with ⟨z, rfl, rfl⟩ | ⟨z, rfl, hz⟩
    · exact .inr ⟨fun d hd => hx d (by simp [hd]), z, c, y, rfl,
        fun d hd => hx d (by simp [hd]), hc⟩
    · rcases z with _ | ⟨e, z⟩
      · exact .inr ⟨by simpa using hx, [], c, y, by simpa using hz.symm, by simp, hc⟩
      · obtain ⟨rfl, rfl⟩ : c = e ∧ y = z ++ w := by simpa using hz
        exact .inl ⟨x, c, z, rfl, hx, hc⟩
  · rintro (⟨x, c, y, rfl, hx, hc⟩ | ⟨hv, x, c, y, rfl, hx, hc⟩)
    · exact ⟨x, c, y ++ w, by simp, hx, hc⟩
    · exact ⟨v ++ x, c, y, by simp, fun d hd => (List.mem_append.mp hd).elim (hv d) (hx d), hc⟩

theorem begins_singleton {c : Letter} :
    t.Begins [c] b ↔ c = .terminal b ∨ ∃ a, c = .nonterminal a ∧ t.Heads a b := by
  refine ⟨?_, ?_⟩
  · rintro ⟨x, d, y, hxy, -, hd⟩
    rcases x with _ | ⟨e, x⟩
    · obtain ⟨rfl, -⟩ : c = d ∧ y = [] := by simpa [eq_comm] using hxy
      exact hd
    · simp at hxy
  · exact fun h => ⟨[], c, [], rfl, by simp, h⟩

theorem not_begins_nil : ¬ t.Begins [] b := by
  rintro ⟨x, c, y, h, -⟩
  simp at h

/-- What starts with a terminal is reached from where it is read. -/
theorem reaches_of_begins (ht : t.Formed) {P : Part} {w : Form} (hs : t.Spells P w)
    (hP : ∀ i ∈ P.start, t.Inside i) (hb : t.Begins w b) :
    ∃ i ∈ P.start, ∃ j, t.Reaches i j ∧ t.Emits j b := by
  -- behind a node that vanishes, the walk goes on with the next one
  have step {i u v} (hi : t.Inside i) (hu : t.Spells (.node i) u) (huv : t.Begins (u ++ v) b)
      (ihu : t.Begins u b → ∃ k ∈ some i, ∃ j, t.Reaches k j ∧ t.Emits j b)
      (ihv : (∀ k ∈ t.graph.next i, t.Inside k) → t.Begins v b →
        ∃ k ∈ t.graph.next i, ∃ j, t.Reaches k j ∧ t.Emits j b) :
      ∃ k ∈ some i, ∃ j, t.Reaches k j ∧ t.Emits j b := by
    rcases begins_append.mp huv with h | ⟨hd, h⟩
    · exact ihu h
    · obtain ⟨a, ha⟩ := id hi
      obtain ⟨r, s, -, hs, hm⟩ := ht.within_iff.mp ha
      have hdel : t.nodeDeletable i = true := (Table.nodeDeletable_iff hs hm).mpr ⟨u, hu, hd⟩
      obtain ⟨k, hk, j, hj, he⟩ := ihv (fun k hk => hi.edge (.next hdel hk)) h
      exact ⟨i, rfl, j, .head (.next hdel hk) hj, he⟩
  induction hs with
  | @terminal i c hk | @weak i c hk =>
    have hc : c = b := by simpa [begins_singleton] using hb
    exact ⟨i, rfl, i, .refl, by simp [Emits, hk, hc]⟩
  | @any i set c hk hc hset =>
    obtain rfl : c = b := by simpa [begins_singleton] using hb
    exact ⟨i, rfl, i, .refl, by simp [Emits, hk, hset]⟩
  | @nonterminal i c hk =>
    have hc : t.Heads c b := by simpa [begins_singleton] using hb
    unfold Heads at hc
    split at hc
    · rename_i hready
      exact ⟨i, rfl, i, .refl, by simp [Emits, hk, hready, hc]⟩
    · rename_i hready
      obtain ⟨r, j, hr, hj, he⟩ := hc
      exact ⟨i, rfl, j, .head (.root hk (by simpa using hready) hr) hj, he⟩
  | blank | skip | stop | groupEnd | restEnd => exact absurd hb not_begins_nil
  | @content i sub _ hk _ ih | @alternative i sub _ _ hk _ ih =>
    have he : t.Edge i sub := .sub (by rw [hk]; rfl)
    obtain ⟨k, hk, j, hj, hjb⟩ := ih (fun k hk => (hP i rfl).edge (Option.some.inj hk ▸ he)) hb
    cases hk
    exact ⟨i, rfl, j, .head he hj, hjb⟩
  | @other i sub q _ hk _ ih =>
    have he : t.Edge i q := .down (by rw [hk]; rfl)
    obtain ⟨k, hk, j, hj, hjb⟩ := ih (fun k hk => (hP i rfl).edge (Option.some.inj hk ▸ he)) hb
    cases hk
    exact ⟨i, rfl, j, .head he hj, hjb⟩
  | @again i sub _ _ hk _ _ ihu ihv =>
    have he : t.Edge i sub := .sub (by rw [hk]; rfl)
    rcases begins_append.mp hb with h | ⟨-, h⟩
    · obtain ⟨k, hk, j, hj, hjb⟩ := ihu (fun k hk => (hP i rfl).edge (Option.some.inj hk ▸ he)) h
      cases hk
      exact ⟨i, rfl, j, .head he hj, hjb⟩
    · exact ihv hP h
  | groupLast _ _ ih => exact ih hP hb
  | groupStep _ hu _ ihu ihv => exact step (hP _ rfl) hu hb (ihu hP) ihv
  | restStep hu _ ihu ihv => exact step (hP _ rfl) hu hb (ihu hP) ihv

section

variable (ht : t.Formed) (hw : t.Wild) (he : Exact t) (hr : ReadyExact t) (hb : b ∈ t.terminals)
include ht hw he hr hb

/-- What is found from the production of a nonterminal is derived. -/
theorem derives_of_heads (ha : a ∈ t.nonterminals) (h : t.Heads a b) :
    ∃ v, t.Derives [.nonterminal a] (.terminal b :: v) := by
  unfold Heads at h
  split at h
  · rename_i hready
    exact (hr a ha hready b hb).mp h
  · obtain ⟨r, j, hroot, hj, hjb⟩ := h
    obtain ⟨w, v, hs, hd⟩ := Starts.of_reaches ht hw he hr ⟨a, .root hroot⟩ hb hj hjb
    exact ⟨v, (Derives.of_produces ⟨r, hroot, hs⟩).trans hd⟩

theorem derives_of_begins {w : Form} (hn : ∀ a, .nonterminal a ∈ w → a ∈ t.nonterminals)
    (h : t.Begins w b) : ∃ v, t.Derives w (.terminal b :: v) := by
  obtain ⟨x, c, y, rfl, hx, hc⟩ := h
  have hxn : t.Derives x [] := derives_nil_iff.mpr fun d hd => by
    obtain ⟨a, rfl, ha⟩ := hx d hd
    exact (he a (hn a (by simp [hd]))).mp ha
  have hcv : ∃ v, t.Derives [c] (.terminal b :: v) := by
    rcases hc with rfl | ⟨a, rfl, ha⟩
    · exact ⟨[], .refl _⟩
    · exact derives_of_heads ht hw he hr hb (hn a (by simp)) ha
  obtain ⟨v, hv⟩ := hcv
  exact ⟨v ++ y, by simpa using hxn.append (hv.append (.refl y))⟩

/-- A nonterminal is headed by what its right-hand sides begin with. -/
theorem Produces.heads {u : Form} (ha : a ∈ t.nonterminals) (hu : t.Produces a u)
    (h : t.Begins u b) : t.Heads a b := by
  obtain ⟨r, hroot, hs⟩ := id hu
  unfold Heads
  split
  · rename_i hready
    obtain ⟨v, hv⟩ := derives_of_begins ht hw he hr hb (hs.mem_nonterminals ht.allows) h
    exact (hr a ha hready b hb).mpr ⟨v, (Derives.of_produces hu).trans hv⟩
  · obtain ⟨i, hi, j, hj, hjb⟩ := reaches_of_begins ht hs (fun i hi => ⟨a, .root (hi ▸ hroot)⟩) h
    cases hi
    exact ⟨r, j, hroot, hj, hjb⟩

omit hw hr hb in
/-- A nonterminal with a right-hand side that vanishes is marked. -/
theorem Produces.isDeletable {u : Form} (ha : a ∈ t.nonterminals) (hu : t.Produces a u)
    (h : ∀ c ∈ u, ∃ a, c = .nonterminal a ∧ t.isDeletable a = true) : t.isDeletable a = true := by
  obtain ⟨r, -, hs⟩ := id hu
  refine (he a ha).mpr ((Derives.of_produces hu).trans (derives_nil_iff.mpr fun c hc => ?_))
  obtain ⟨d, rfl, hd⟩ := h c hc
  exact (he d (hs.mem_nonterminals ht.allows d hc)).mp hd

theorem begins_of_derives {w v : Form} (hn : ∀ a, .nonterminal a ∈ w → a ∈ t.nonterminals)
    (h : t.Derives w (.terminal b :: v)) : t.Begins w b := by
  induction h using Relation.ReflTransGen.head_induction_on with
  | refl => exact ⟨[], .terminal b, v, rfl, by simp, .inl rfl⟩
  | head hstep _ ih =>
    have ih := ih (hstep.mem_nonterminals ht.allows hn)
    obtain @⟨x, a, u, y, hu⟩ := hstep
    have ha := hn a (by simp)
    rw [show x ++ .nonterminal a :: y = x ++ ([.nonterminal a] ++ y) by simp]
    simp only [begins_append, begins_singleton] at ih ⊢
    rcases ih with h | ⟨hx, h | ⟨hud, h⟩⟩
    · exact .inl h
    · exact .inr ⟨hx, .inl (.inr ⟨a, rfl, hu.heads ht hw he hr hb ha h⟩)⟩
    · exact .inr ⟨hx, .inr ⟨by simpa using hu.isDeletable ht he ha hud, h⟩⟩

/-- The nodes that are reached contribute what the rest of the production can start with. -/
theorem starts_iff_reaches (hi : t.Inside i) :
    t.Starts (.rest (some i)) b ↔ ∃ j, t.Reaches i j ∧ t.Emits j b := by
  refine ⟨?_, ?_⟩
  · rintro ⟨w, v, hs, hd⟩
    have hbw := begins_of_derives ht hw he hr hb (hs.mem_nonterminals ht.allows) hd
    obtain ⟨k, hk, j, hj, hjb⟩ := reaches_of_begins ht hs (by simpa [Part.start] using hi) hbw
    cases hk
    exact ⟨j, hj, hjb⟩
  · rintro ⟨j, hj, hjb⟩
    exact .of_reaches ht hw he hr hi hb hj hjb

theorem get_firstSet_iff (hp : ∀ i ∈ p, t.Inside i) :
    (t.firstSet p).get (t.symbol b).index = true ↔ t.Starts (.rest p) b := by
  cases p with
  | none =>
    simp only [get_firstSet_none, Bool.false_eq_true, false_iff]
    rintro ⟨w, v, hs, hd⟩
    rw [spells_rest_none.mp hs] at hd
    cases derives_of_nil hd
  | some i => rw [get_firstSet ht (hp i rfl) hb, starts_iff_reaches ht hw he hr hb (hp i rfl)]

end

/-! ### One nonterminal after the other -/

/-- The tables differ at most in synchronisation sets, follow sets and what first sets they have. -/
structure SameMarks (t u : Table) : Prop where
  same : SameGrammar t u
  deletable : ∀ a, u.isDeletable a = t.isDeletable a

namespace SameMarks

theorem refl (t : Table) : SameMarks t t := ⟨.refl t, fun _ => rfl⟩

theorem trans {v : Table} (h : SameMarks t u) (h' : SameMarks u v) : SameMarks t v :=
  ⟨h.same.trans h'.same, fun a => (h'.deletable a).trans (h.deletable a)⟩

theorem modifySymbol (t : Table) (a : SymbolId) {f : Symbol → Symbol}
    (hk : ∀ b, (f b).kind = b.kind) (hi : ∀ b, (f b).index = b.index)
    (hr : ∀ b, (f b).root = b.root) (hd : ∀ b, (f b).deletable = b.deletable) :
    SameMarks t (t.modifySymbol a f) :=
  ⟨.modifySymbol t a hk hi hr, symbol_modifySymbol_congr hd a⟩

theorem foldl {f : Table → SymbolId → Table} (hf : ∀ t a, SameMarks t (f t a))
    (l : List SymbolId) (t : Table) : SameMarks t (l.foldl f t) := by
  induction l generalizing t with
  | nil => exact .refl t
  | cons a l ih => exact (hf t a).trans (ih _)

theorem exact (h : SameMarks t u) (he : Exact t) : Exact u := by
  intro a ha
  rw [h.deletable, h.same.derives_iff]
  exact he a (h.same.nonterminals ▸ ha)

end SameMarks

theorem sameMarks_resetFirst (t : Table) : SameMarks t t.resetFirst := by
  refine .foldl (fun u a => ?_) _ t
  exact .modifySymbol u a (fun _ => rfl) (fun _ => rfl) (fun _ => rfl) fun _ => rfl

theorem sameMarks_setFirst (t : Table) (a : SymbolId) : SameMarks t (t.setFirst a).value :=
  .modifySymbol t a (fun _ => rfl) (fun _ => rfl) (fun _ => rfl) fun _ => rfl

/-- The rest of a production from its start on starts with what the nonterminal does. -/
theorem starts_root_iff :
    t.Starts (.rest (t.symbol a).root) b ↔ ∃ v, t.Derives [.nonterminal a] (.terminal b :: v) := by
  refine ⟨?_, ?_⟩
  · rintro ⟨w, v, hw, hd⟩
    cases hr : (t.symbol a).root with
    | none =>
      rw [hr, spells_rest_none] at hw
      cases derives_of_nil (hw ▸ hd)
    | some r => exact ⟨v, (Derives.of_produces ⟨r, hr, hr ▸ hw⟩).trans hd⟩
  · rintro ⟨v, hd⟩
    rcases derives_nonterminal hd with h | ⟨u, ⟨r, hr, hu⟩, hd⟩
    · cases h
    · exact ⟨u, v, hr ▸ hu, hd⟩

/-- Setting the first set of a nonterminal that is exact makes it final. -/
theorem readyExact_setFirst (ht : t.Formed) (hw : t.Wild) (he : Exact t) (hr : ReadyExact t)
    (a : SymbolId) : ReadyExact (t.setFirst a).value := by
  have hsame := (sameMarks_setFirst t a).same
  intro c hc hready b hb
  rw [hsame.nonterminals] at hc
  rw [hsame.terminals] at hb
  rw [hsame.index]
  simp only [hsame.derives_iff]
  simp only [setFirst, Noted.value_bind, Noted.value_pure, value_first, symbol_modifySymbol]
    at hready ⊢
  split
  · rename_i hac
    rw [← hac.1]
    exact (get_firstSet_iff ht hw he hr hb fun i hi => ⟨a, .root hi⟩).trans starts_root_iff
  · rename_i hac
    rw [if_neg hac] at hready
    exact hr c hc hready b hb

theorem firstReady_setFirst (t : Table) (a c : SymbolId) :
    ((t.setFirst a).value.symbol c).firstReady = true ↔
      (t.symbol c).firstReady = true ∨ a = c ∧ c < t.symbols.size := by
  simp only [setFirst, Noted.value_bind, Noted.value_pure, symbol_modifySymbol]
  split
  · rename_i h
    simp [h]
  · rename_i h
    simp [h]

/-- First sets that are set one after the other are exact. -/
theorem readyExact_foldl (ht : t.Formed) (hw : t.Wild) (he : Exact t) (hr : ReadyExact t)
    {l : List SymbolId} (hl : ∀ a ∈ l, a ∈ t.nonterminals) :
    ReadyExact (l.foldl (fun t a => (t.setFirst a).value) t) ∧ ∀ a, a ∈ l ∨
      (t.symbol a).firstReady = true →
        ((l.foldl (fun t a => (t.setFirst a).value) t).symbol a).firstReady = true := by
  induction l generalizing t with
  | nil => exact ⟨hr, by simp⟩
  | cons a l ih =>
    have h := sameMarks_setFirst t a
    obtain ⟨h₁, h₂⟩ := ih (h.same.formed ht) (h.same.wild hw) (h.exact he)
      (readyExact_setFirst ht hw he hr a) fun b hb => by
        rw [h.same.nonterminals]
        exact hl b (by simp [hb])
    refine ⟨h₁, fun b hb => h₂ b ?_⟩
    rw [firstReady_setFirst]
    rcases hb with hb | hb
    · rcases List.mem_cons.mp hb with rfl | hb
      · exact .inr (.inr ⟨rfl, ((ht.registered.mem .nonterminal b).mp (hl b (by simp))).1⟩)
      · exact .inl hb
    · exact .inr (.inl hb)

theorem firstReady_resetFirst (ht : t.Formed) (ha : a ∈ t.nonterminals) :
    (t.resetFirst.symbol a).firstReady = false := by
  rw [resetFirst, symbol_foldl_modifySymbol, if_pos]
  · exact ⟨by simpa using ha, ((ht.registered.mem .nonterminal a).mp ha).1⟩
  · exact fun _ => rfl

/-- The first sets of `computeFirst` are exact, and all are final. -/
theorem Formed.exact_computeFirst (ht : t.Formed) (hw : t.Wild) (he : Exact t) :
    SameMarks t t.computeFirst.value ∧ ReadyExact t.computeFirst.value ∧
      ∀ a ∈ t.nonterminals, (t.computeFirst.value.symbol a).firstReady = true := by
  have h := sameMarks_resetFirst t
  obtain ⟨h₁, h₂⟩ := readyExact_foldl (h.same.formed ht) (h.same.wild hw) (h.exact he)
    (fun a ha hready => by
      rw [firstReady_resetFirst ht (h.same.nonterminals ▸ ha)] at hready
      cases hready) (l := t.nonterminals.toList) (by simp [h.same.nonterminals])
  rw [computeFirst, Noted.value_foldlM]
  exact ⟨h.trans (.foldl sameMarks_setFirst _ _), h₁, fun a ha => h₂ a (.inl (by simpa using ha))⟩

/-- The first sets that are set range over all terminals. -/
theorem Registered.size_first_computeFirst (ht : Registered t) (ha : a ∈ t.nonterminals) :
    (t.computeFirst.value.symbol a).first.size = t.terminalCount := by
  have hfold (l : List SymbolId) (u : Table) (hu : SameMarks t u)
      (hs : (u.symbol a).first.size = t.terminalCount) :
      ((l.foldl (fun u c => (u.setFirst c).value) u).symbol a).first.size = t.terminalCount := by
    induction l generalizing u with
    | nil => exact hs
    | cons c l ih =>
      refine ih _ (hu.trans (sameMarks_setFirst u c)) ?_
      simp only [setFirst, Noted.value_bind, Noted.value_pure, value_first, symbol_modifySymbol]
      split
      · exact (size_firstSet ..).trans (congrArg Array.size hu.same.terminals)
      · exact hs
  rw [computeFirst, Noted.value_foldlM]
  refine hfold _ _ (sameMarks_resetFirst t) ?_
  rw [resetFirst, symbol_foldl_modifySymbol, if_pos]
  · exact IndexSet.size_empty _
  · exact ⟨by simpa using ha, ((ht.mem .nonterminal a).mp ha).1⟩
  · exact fun _ => rfl

/-- The table when only some first sets are known. -/
def whileReady (t : Table) (ready : SymbolId → Bool) : Table :=
  { t with
    symbols := t.symbols.mapIdx fun a s =>
      if ready a then s else { s with first := .empty t.terminalCount, firstReady := false } }

theorem symbol_whileReady (t : Table) (ready : SymbolId → Bool) (a : SymbolId) :
    (t.whileReady ready).symbol a = t.symbol a ∨
      (t.whileReady ready).symbol a =
        { t.symbol a with first := .empty t.terminalCount, firstReady := false } := by
  simp only [whileReady, Table.symbol, Array.getD_eq_getD_getElem?, Array.getElem?_mapIdx]
  by_cases ha : a < t.symbols.size
  · simp only [Array.getElem?_eq_getElem ha, Option.map_some, Option.getD_some]
    split
    · exact .inl rfl
    · exact .inr rfl
  · simp [ha]

theorem sameMarks_whileReady (t : Table) (ready : SymbolId → Bool) :
    SameMarks t (t.whileReady ready) := by
  have h {α : Type} (p : Symbol → α)
      (hp : ∀ s, p { s with first := .empty t.terminalCount, firstReady := false } = p s)
      (a : SymbolId) : p ((t.whileReady ready).symbol a) = p (t.symbol a) := by
    rcases symbol_whileReady t ready a with h | h
    · rw [h]
    · rw [h, hp]
  exact ⟨⟨by simp [whileReady], by funext k; cases k <;> rfl, rfl, rfl, rfl,
    h Symbol.kind fun _ => rfl, h Symbol.index fun _ => rfl, h Symbol.root fun _ => rfl, .refl _,
    fun _ _ => .rfl⟩, h Symbol.deletable fun _ => rfl⟩

theorem readyExact_whileReady (hr : ReadyExact t) (ready : SymbolId → Bool) :
    ReadyExact (t.whileReady ready) := by
  have hsame := (sameMarks_whileReady t ready).same
  intro a ha hready b hb
  rw [hsame.index]
  simp only [hsame.derives_iff]
  rcases symbol_whileReady t ready a with h | h
  · rw [h] at hready ⊢
    exact hr a ha hready b hb
  · rw [h] at hready
    cases hready

/-- Where all that is called final is exact, first sets are those of the grammar. -/
theorem SameGrammar.firstSet_eq (h : SameGrammar t u) (ht : t.Formed) (hw : t.Wild)
    (he : Exact t) (hr : ReadyExact t) (he' : Exact u) (hr' : ReadyExact u)
    (hp : ∀ i ∈ p, t.Inside i) : u.firstSet p = t.firstSet p := by
  have ht' := h.formed ht
  have hp' : ∀ i ∈ p, u.Inside i := fun i hi => by
    obtain ⟨a, ha⟩ := hp i hi
    exact ⟨a, h.within ha⟩
  refine IndexSet.ext_get ?_ fun n hn => ?_
  · exact (size_firstSet u p).trans
      ((congrArg Array.size h.terminals).trans (size_firstSet t p).symm)
  · obtain ⟨b, hb, rfl⟩ := ht'.registered.exists_terminal (size_firstSet u p ▸ hn)
    rw [Bool.eq_iff_iff, get_firstSet_iff ht' (h.wild hw) he' hr' hb hp', h.index,
      get_firstSet_iff ht hw he hr (h.terminals ▸ hb) hp]
    simp only [Starts, h.spells_iff, h.derives_iff]

/-- First sets do not depend on which of the others are known. -/
theorem firstSet_whileReady (ht : t.Formed) (hw : t.Wild) (he : Exact t) (hr : ReadyExact t)
    (hp : ∀ i ∈ p, t.Inside i) (ready : SymbolId → Bool) :
    (t.whileReady ready).firstSet p = t.firstSet p :=
  have h := sameMarks_whileReady t ready
  h.same.firstSet_eq ht hw he hr (h.exact he) (readyExact_whileReady hr ready) hp

/-- All that is said about first sets: those of the nonterminals, those on the way through a
production, and that it does not matter which ones are known before. -/
structure FirstExact (t : Table) : Prop where
  first : ∀ a ∈ t.nonterminals, ∀ b ∈ t.terminals,
    (t.symbol a).first.get (t.symbol b).index = true ↔
      ∃ v, t.Derives [.nonterminal a] (.terminal b :: v)
  rest : ∀ a i, t.Within a i → ∀ b ∈ t.terminals,
    (t.firstSet (some i)).get (t.symbol b).index = true ↔
      ∃ w v, t.Spells (.rest (some i)) w ∧ t.Derives w (.terminal b :: v)
  known : ∀ ready a i, t.Within a i → (t.whileReady ready).firstSet (some i) = t.firstSet (some i)

theorem Formed.firstExact_computeFirst (ht : t.Formed) (hw : t.Wild) (he : Exact t) :
    FirstExact t.computeFirst.value := by
  obtain ⟨h, hr, hready⟩ := ht.exact_computeFirst hw he
  generalize t.computeFirst.value = u at h hr hready ⊢
  have hu : u.Formed := h.same.formed ht
  have inside {a i} (hi : u.Within a i) : ∀ j ∈ some i, u.Inside j := by
    intro j hj
    cases hj
    exact ⟨a, hi⟩
  refine ⟨?_, ?_, ?_⟩
  · intro a ha
    exact hr a ha (hready a (h.same.nonterminals ▸ ha))
  · intro a i hi b hb
    exact get_firstSet_iff hu (h.same.wild hw) (h.exact he) hr hb (inside hi)
  · intro ready a i hi
    exact firstSet_whileReady hu (h.same.wild hw) (h.exact he) hr (inside hi) ready

end Table

namespace Grammar

variable {source : String} {cfg : Config} {log : Log} {g : Grammar}

/-- The first sets of a grammar are exact. -/
theorem firstExact_of_parse (h : (Grammar.parse source cfg log).2 = .ok g) :
    g.table.computeDeletable.value.computeFirst.value.FirstExact := by
  obtain ⟨ht, hd, hw⟩ := formed_parse h
  obtain ⟨hsame, he⟩ := ht.exact_computeDeletable hd
  exact (hsame.formed ht).firstExact_computeFirst (hsame.wild hw) he

/-- Sums, with a left-recursive production, an option and a group. -/
def sums : String :=
  "COMPILER Sum\nPRODUCTIONS\nSum = Sum \"+\" Term | Term.\n" ++
    "Term = [\"-\"] \"n\" | \"(\" Sum \")\".\nEND Sum."

set_option maxRecDepth 100000 in
theorem parse_sums : ∃ g, (Grammar.parse sums default {}).2 = .ok g := by
  obtain ⟨g, hg, -⟩ := exists_ok_of_any (x := (Grammar.parse sums default {}).2)
    (P := fun _ => true) (by decide +kernel)
  exact ⟨g, hg⟩

theorem firstExact_sums : ∃ g, (Grammar.parse sums default {}).2 = .ok g ∧
    g.table.computeDeletable.value.computeFirst.value.FirstExact := by
  obtain ⟨g, hg⟩ := parse_sums
  exact ⟨g, hg, firstExact_of_parse hg⟩

end Grammar

end Lookahead
