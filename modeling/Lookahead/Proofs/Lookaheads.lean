import Lookahead.Proofs.Computed

/-!
# What can come next

Below a frame of a production lie the frames that called it (`Table.Calls`), and what comes next
when that production is done is in the follow set of its nonterminal (`Table.Calls.mem_follow`). In
a grammar without useless nonterminals (`Table.Reduced`) all that is in the set does come next below
some frames. So `Table.expected` tells exactly the terminals that can come next behind a choice
(`Table.Computed.expected_iff`).
-/

namespace Lookahead

namespace Table

variable (t : Table)

/-- A stack that can lie below the production of a nonterminal. -/
inductive Calls : SymbolId → Stack → Prop
  | start {s : SymbolId} (hs : t.start = some s) : Calls s []
  | call {a b : SymbolId} {i : NodeId} {S : Stack} (h : Calls a S) (hi : t.Within a i)
      (hk : t.graph.kind i = .nonterminal b) : Calls b ((a, t.graph.next i) :: S)

/-- A run to the end reads the terminal first, or reads nothing, and it is the end of input. -/
def Upcoming (S : Stack) (b : SymbolId) : Prop :=
  ∃ cs w, t.Run S cs w [] ∧ (w ++ [t.eof]).head? = some b

/-- A run from the start symbol leads to the stack. -/
def Arrives (S : Stack) : Prop :=
  ∃ s r cs u, t.start = some s ∧ (t.symbol s).root = some r ∧ t.Run [(s, some r)] cs u S

/-- Some derivation goes from node `i` of the production of `a` on to `q`, and reads the terminal
next. -/
def Comes (a : SymbolId) (i : NodeId) (q : Option NodeId) (b : SymbolId) : Prop :=
  ∃ S, t.Arrives ((a, some i) :: S) ∧ t.Upcoming ((a, q) :: S) b

/-- All nonterminals take part in derivations. -/
structure Reduced : Prop where
  called : ∀ a ∈ t.nonterminals, ∃ S, t.Calls a S
  productive : ∀ a ∈ t.nonterminals, ∃ w : List SymbolId,
    t.Derives [.nonterminal a] (w.map .terminal)

variable {t} {a b : SymbolId} {i : NodeId} {p q : Option NodeId} {br : Branch} {f : Form}
  {x : Frame} {S T X : Stack} {cs : List Choice} {u w : List SymbolId}

/-! ### Frames below -/

/-- The frame on top is at a place in its production, and the others have called it. -/
def Upheld (t : Table) : Stack → Prop
  | [] => True
  | x :: S => t.Calls x.1 S ∧ ∀ i ∈ x.2, t.Passed x.1 i

theorem Formed.passed_of_nonterminal (ht : t.Formed) (hi : t.Within a i)
    (hk : t.graph.kind i = .nonterminal b) : t.Passed a i := by
  rcases ht.passed_or_alternative hi with hi | ⟨e, d, hk'⟩
  · exact hi
  · cases hk.symm.trans hk'

theorem Calls.upheld (ht : t.Formed) (h : t.Calls a S) : t.Upheld S := by
  cases h with
  | start => trivial
  | call h hi hk => exact ⟨h, fun j hj => (ht.passed_of_nonterminal hi hk).next hj⟩

theorem Calls.mem_nonterminals (ht : t.Formed) (h : t.Calls a S) : a ∈ t.nonterminals := by
  cases h with
  | start hs => exact ht.registered.start _ hs
  | call _ _ hk => exact ht.allows_nonterminal hk

theorem Options.passed (hq : t.Options i br q) (hi : t.Passed a i) : ∀ j ∈ q, t.Passed a j := by
  cases hq with
  | take hk hp =>
    intro j hj
    cases hj
    exact hi.alternative hk hp
  | enter hk =>
    intro j hj
    cases hj
    exact hi.content hk
  | leave => exact fun j hj => hi.next hj

theorem Move.upheld (ht : t.Formed) (hx : t.Move x cs u X) (h : t.Upheld (x :: S)) :
    t.Upheld (X ++ S) := by
  obtain ⟨hc, hi⟩ := h
  cases hx with
  | finish => exact hc.upheld ht
  | terminal | any | blank => exact ⟨hc, fun j hj => (hi _ rfl).next hj⟩
  | call hk hr =>
    exact ⟨hc.call ((hi _ rfl).within ht) hk, fun j hj => .root (hr.trans hj)⟩
  | choose hq => exact ⟨hc, hq.passed (hi _ rfl)⟩

theorem Run.upheld (ht : t.Formed) (h : t.Run S cs w T) (hS : t.Upheld S) : t.Upheld T := by
  induction h with
  | stop => exact hS
  | move hx _ ih => exact ih (hx.upheld ht hS)

theorem Arrives.upheld (ht : t.Formed) (h : t.Arrives S) : t.Upheld S := by
  obtain ⟨s, r, cs, u, hs, hr, h⟩ := h
  exact h.upheld ht ⟨.start hs, fun j hj => .root (hr.trans hj)⟩

theorem Arrives.run (h : t.Arrives S) (h' : t.Run S cs w T) : t.Arrives T := by
  obtain ⟨s, r, cs, u, hs, hr, h⟩ := h
  exact ⟨s, r, _, _, hs, hr, h.trans h'⟩

theorem run_nil_iff : t.Run [] cs w T ↔ cs = [] ∧ w = [] ∧ T = [] := by
  refine ⟨?_, ?_⟩
  · intro h
    cases h
    exact ⟨rfl, rfl, rfl⟩
  · rintro ⟨rfl, rfl, rfl⟩
    exact .stop []

theorem upcoming_nil : t.Upcoming [] b ↔ b = t.eof := by
  simp [Upcoming, run_nil_iff, eq_comm]

/-- What comes next is read by the frame on top, or comes below it. -/
theorem upcoming_cons : t.Upcoming (x :: S) b ↔
    (∃ cs w ds v, t.Run [x] cs (b :: w) [] ∧ t.Run S ds v []) ∨
      (∃ cs, t.Run [x] cs [] []) ∧ t.Upcoming S b := by
  refine ⟨?_, ?_⟩
  · rintro ⟨cs, w, h, hb⟩
    obtain ⟨cs₁, cs₂, u, v, rfl, rfl, hu, hv⟩ := Run.split (show t.Run ([x] ++ S) cs w [] from h)
    rcases u with _ | ⟨c, u⟩
    · exact .inr ⟨⟨cs₁, hu⟩, cs₂, v, hv, hb⟩
    · obtain rfl : c = b := by simpa using hb
      exact .inl ⟨cs₁, u, cs₂, v, hu, hv⟩
  · rintro (⟨cs, w, ds, v, hw, hv⟩ | ⟨⟨cs, hw⟩, ds, v, hv, hb⟩)
    · exact ⟨_, _, (hw.append S).trans hv, by simp⟩
    · exact ⟨_, _, (hw.append S).trans hv, hb⟩

/-! ### What sets promise -/

section

variable (ht : t.Computed)
include ht

theorem Computed.firstSet_iff (hp : ∀ j ∈ p, t.Within a j) (hb : b ∈ t.terminals) :
    (t.firstSet p).get (t.symbol b).index = true ↔ t.Starts (.rest p) b :=
  get_firstSet_iff ht.formed ht.wild ht.exact ht.ready hb fun j hj => ⟨a, hp j hj⟩

theorem Computed.restDeletable_iff (hp : ∀ j ∈ p, t.Within a j) :
    t.restDeletable p = true ↔ ∃ cs, t.Run [(a, p)] cs [] [] := by
  rw [ht.exact.restDeletable_iff ht.formed hp, ht.formed.exists_run_iff hp]
  rfl

theorem Computed.get_expected (hp : ∀ j ∈ p, t.Within a j) (hb : b ∈ t.terminals) :
    (t.expected p a).value.get (t.symbol b).index = true ↔ t.Starts (.rest p) b ∨
      (∃ cs, t.Run [(a, p)] cs [] []) ∧ (t.symbol a).follow.get (t.symbol b).index = true := by
  have hlt : (t.symbol b).index < t.terminalCount :=
    ht.formed.registered.index_lt_size (k := .terminal) (by decide) hb
  rw [← ht.firstSet_iff hp hb, ← ht.restDeletable_iff hp, get_expected_iff hlt]

/-- What comes next below the production of a nonterminal follows it. -/
theorem Calls.mem_follow (h : t.Calls a S) (hb : b ∈ t.terminals) (hu : t.Upcoming S b) :
    b ∈ t.followFamily a := by
  induction h with
  | start hs =>
    rw [upcoming_nil.mp hu]
    exact ht.least.1.eof _ hs
  | @call a c i S h hi hk ih =>
    have ha := h.mem_nonterminals ht.formed
    have hnext : ∀ j ∈ t.graph.next i, t.Within a j := fun j hj => hi.next hj
    rcases upcoming_cons.mp hu with ⟨cs, w, -, -, hw, -⟩ | ⟨hd, hu⟩
    · obtain ⟨f, hf, hd⟩ := (ht.formed.exists_run_iff hnext).mp ⟨cs, hw⟩
      exact ht.least.1.next a ha i c hi hk b hb ((ht.firstSet_iff hnext hb).mpr ⟨f, _, hf, hd⟩)
    · exact ht.least.1.rest a ha i c hi hk ((ht.restDeletable_iff hnext).mpr hd) (ih hu)

/-- What comes next is expected. -/
theorem Comes.expected (h : t.Comes a i q b) (hq : t.Options i br q) (hb : b ∈ t.terminals) :
    (t.expected q a).value.get (t.symbol b).index = true := by
  obtain ⟨S, ha, hu⟩ := h
  obtain ⟨hc, hi⟩ := ha.upheld ht.formed
  have hq := hq.within ht.formed ((hi i rfl).within ht.formed)
  rw [ht.get_expected hq hb]
  rcases upcoming_cons.mp hu with ⟨cs, w, -, -, hw, -⟩ | ⟨hd, hu⟩
  · obtain ⟨f, hf, hd⟩ := (ht.formed.exists_run_iff hq).mp ⟨cs, hw⟩
    exact .inl ⟨f, _, hf, hd⟩
  · exact .inr ⟨hd, (hc.mem_follow ht hb hu).2.2⟩

end

/-! ### What grammars without useless nonterminals keep -/

/-- A form of productive letters derives a word. -/
theorem exists_word (hf : ∀ a, .nonterminal a ∈ f → ∃ w : List SymbolId,
    t.Derives [.nonterminal a] (w.map .terminal)) :
    ∃ w : List SymbolId, t.Derives f (w.map .terminal) := by
  induction f with
  | nil => exact ⟨[], .refl _⟩
  | cons c f ih =>
    obtain ⟨w, hw⟩ := ih fun a ha => hf a (by simp [ha])
    have hc : ∃ v : List SymbolId, t.Derives [c] (v.map .terminal) := by
      cases c with
      | terminal b => exact ⟨[b], .refl _⟩
      | nonterminal a => exact hf a (by simp)
    obtain ⟨v, hv⟩ := hc
    exact ⟨v ++ w, by simpa using hv.append hw⟩

theorem Reduced.exists_word (hr : t.Reduced) (hf : ∀ a, .nonterminal a ∈ f → a ∈ t.nonterminals) :
    ∃ w : List SymbolId, t.Derives f (w.map .terminal) :=
  Table.exists_word fun a ha => hr.productive a (hf a ha)

section

variable (ht : t.Formed) (hw : t.Wild) (hr : t.Reduced)
include ht hr

/-- What starts with a terminal can be run through so. -/
theorem Starts.exists_run (hp : ∀ j ∈ p, t.Within a j) (h : t.Starts (.rest p) b) :
    ∃ cs w, t.Run [(a, p)] cs (b :: w) [] := by
  obtain ⟨f, v, hf, hd⟩ := h
  have hv : ∀ a, .nonterminal a ∈ v → a ∈ t.nonterminals := fun c hc =>
    Derives.mem_nonterminals ht.allows hd (hf.mem_nonterminals ht.allows) c (by simp [hc])
  obtain ⟨w, hw⟩ := hr.exists_word hv
  have hd' : t.Derives f ((b :: w).map .terminal) :=
    Derives.trans hd (Derives.append (.refl [.terminal b]) hw)
  obtain ⟨cs, h⟩ := (ht.exists_run_iff hp).mpr ⟨f, hf, hd'⟩
  exact ⟨cs, w, h⟩

include hw

/-- Every node can be passed. -/
theorem Reduced.exists_run_next (hi : t.Within a i) :
    ∃ cs w, t.Run [(a, some i)] cs w [(a, t.graph.next i)] := by
  obtain ⟨⟨f, hf⟩, -⟩ := ht.exists_spells hw hi
  obtain ⟨w, hw⟩ := hr.exists_word (hf.mem_nonterminals ht.allows)
  obtain ⟨⟨cs, h⟩, -⟩ := hf.crosses ht (hw.runs ht) hi
  exact ⟨cs, w, h⟩

theorem Reduced.exists_run_rest (hp : ∀ j ∈ p, t.Within a j) :
    ∃ cs w, t.Run [(a, p)] cs w [] := by
  have hs : ∃ f, t.Spells (.rest p) f := by
    cases p with
    | none => exact ⟨[], .restEnd⟩
    | some i => exact (ht.exists_spells hw (hp i rfl)).2
  obtain ⟨f, hf⟩ := hs
  obtain ⟨w, hw⟩ := hr.exists_word (hf.mem_nonterminals ht.allows)
  obtain ⟨cs, h⟩ := (ht.exists_run_iff hp).mpr ⟨f, hf, hw⟩
  exact ⟨cs, w, h⟩

/-- The frames below a production can be run through. -/
theorem Calls.exists_run (h : t.Calls a S) : ∃ cs w, t.Run S cs w [] := by
  induction h with
  | start => exact ⟨_, _, .stop []⟩
  | @call a b i S _ hi _ ih =>
    obtain ⟨cs, u, h⟩ := hr.exists_run_rest ht hw (p := t.graph.next i) fun j hj => hi.next hj
    obtain ⟨ds, v, h'⟩ := ih
    exact ⟨_, _, (h.append S).trans h'⟩

/-- A parser comes from the start of a production to all places in it. -/
theorem Passed.exists_run (hi : t.Passed a i) :
    ∃ r cs w, (t.symbol a).root = some r ∧ t.Run [(a, some r)] cs w [(a, some i)] := by
  induction hi with
  | root h => exact ⟨_, _, _, h, .stop _⟩
  | @next i j hi hj ih =>
    obtain ⟨r, cs, w, hroot, h⟩ := ih
    obtain ⟨ds, v, h'⟩ := hr.exists_run_next ht hw (hi.within ht)
    rw [hj] at h'
    exact ⟨r, _, _, hroot, h.trans h'⟩
  | content _ hj ih =>
    obtain ⟨r, cs, w, hroot, h⟩ := ih
    exact ⟨r, _, _, hroot, h.trans (.of_move (.choose (.enter hj)) [])⟩
  | alternative _ hk hp ih =>
    obtain ⟨r, cs, w, hroot, h⟩ := ih
    exact ⟨r, _, _, hroot, h.trans (.of_move (.choose (.take hk hp)) [])⟩

/-- All calls happen in some run, and then every place in the production can be come to. -/
theorem Calls.arrives (h : t.Calls a S) (hi : t.Passed a i) : t.Arrives ((a, some i) :: S) := by
  have step {a S} (hroot : ∀ r, (t.symbol a).root = some r → t.Arrives ((a, some r) :: S)) {i}
      (hi : t.Passed a i) : t.Arrives ((a, some i) :: S) := by
    obtain ⟨r, cs, w, hr, h⟩ := hi.exists_run ht hw hr
    exact (hroot r hr).run (h.append S)
  refine step ?_ hi
  clear hi
  induction h with
  | start hs => exact fun r hr => ⟨_, r, _, _, hs, hr, .stop _⟩
  | @call a b i S _ hi hk ih =>
    intro r hr
    exact (step ih (ht.passed_of_nonterminal hi hk)).run (.of_move (.call hk hr) S)

end

/-- What follows a nonterminal comes next below some call of it. -/
theorem Computed.exists_calls (ht : t.Computed) (hr : t.Reduced) (h : b ∈ t.followFamily a) :
    ∃ S, t.Calls a S ∧ t.Upcoming S b := by
  have hF : t.FollowClosed fun a => {b | ∃ S, t.Calls a S ∧ t.Upcoming S b} := by
    refine ⟨?_, ?_, ?_⟩
    · exact fun a ha => ⟨[], .start ha, upcoming_nil.mpr rfl⟩
    · intro a ha i c hi hk b hb hf
      have hnext : ∀ j ∈ t.graph.next i, t.Within a j := fun j hj => hi.next hj
      obtain ⟨S, hS⟩ := hr.called a ha
      obtain ⟨cs, w, h⟩ := ((ht.firstSet_iff hnext hb).mp hf).exists_run ht.formed hr hnext
      obtain ⟨ds, v, h'⟩ := hS.exists_run ht.formed ht.wild hr
      exact ⟨_, hS.call hi hk, upcoming_cons.mpr (.inl ⟨cs, w, ds, v, h, h'⟩)⟩
    · rintro a ha i c hi hk hd b ⟨S, hS, hu⟩
      have hd := (ht.restDeletable_iff fun j hj => hi.next hj).mp hd
      exact ⟨_, hS.call hi hk, upcoming_cons.mpr (.inr ⟨hd, hu⟩)⟩
  exact ht.least.2 hF a h

/-- The terminals that are expected behind a choice are those that can come next. -/
theorem Computed.expected_iff (ht : t.Computed) (hr : t.Reduced) (ha : a ∈ t.nonterminals)
    (hi : t.Passed a i) (hq : t.Options i br q) (hb : b ∈ t.terminals) :
    (t.expected q a).value.get (t.symbol b).index = true ↔ t.Comes a i q b := by
  refine ⟨fun h => ?_, fun h => h.expected ht hq hb⟩
  have hwithin := hq.within ht.formed (hi.within ht.formed)
  rcases (ht.get_expected hwithin hb).mp h with h | ⟨hd, hf⟩
  · obtain ⟨S, hS⟩ := hr.called a ha
    obtain ⟨cs, w, h⟩ := h.exists_run ht.formed hr hwithin
    obtain ⟨ds, v, h'⟩ := hS.exists_run ht.formed ht.wild hr
    exact ⟨S, hS.arrives ht.formed ht.wild hr hi, upcoming_cons.mpr (.inl ⟨cs, w, ds, v, h, h'⟩)⟩
  · obtain ⟨S, hS, hu⟩ := ht.exists_calls hr ⟨ha, hb, hf⟩
    exact ⟨S, hS.arrives ht.formed ht.wild hr hi, upcoming_cons.mpr (.inr ⟨hd, hu⟩)⟩

end Table

end Lookahead
