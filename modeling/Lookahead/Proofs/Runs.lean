import Lookahead.Proofs.Alternatives

/-!
# Runs through a grammar

A parser that guesses right carries out a leftmost derivation: it stands at a node of a production,
with the calls it has to come back to on a stack, and decides at each alternation, option and
iteration how to go on (`Table.Run`). The words that such runs read are those that are derived
(`Table.Formed.exists_derivation_iff`), and a run is a derivation together with its choices.
-/

namespace Lookahead

/-- How to go on at a node: with the content of one alternative, with the content of an option or
iteration, or behind it. -/
inductive Branch where
  | take (sub : NodeId)
  | enter
  | leave
deriving DecidableEq, Repr

structure Choice where
  node : NodeId
  branch : Branch
deriving DecidableEq, Repr

/-- A nonterminal, and what is left of its production. -/
abbrev Frame := SymbolId × Option NodeId

abbrev Stack := List Frame

namespace Table

variable (t : Table)

/-- Where a branch leads. -/
inductive Options (i : NodeId) : Branch → Option NodeId → Prop
  | take {sub : NodeId} {down : Option NodeId} {p : NodeId × Option NodeId}
      (hk : t.graph.kind i = .alt sub down) (hp : p ∈ t.graph.alternatives i) :
      Options i (.take p.1) (some p.1)
  | enter {sub : NodeId} (hk : t.graph.kind i = .opt sub ∨ t.graph.kind i = .iter sub) :
      Options i .enter (some sub)
  | leave {sub : NodeId} (hk : t.graph.kind i = .opt sub ∨ t.graph.kind i = .iter sub) :
      Options i .leave (t.graph.next i)

/-- One move from the frame on top of a stack: the choice made, the terminal read, and the frames
that take its place. -/
inductive Move : Frame → List Choice → List SymbolId → Stack → Prop
  | finish {a : SymbolId} : Move (a, none) [] [] []
  | terminal {a b : SymbolId} {i : NodeId}
      (hk : t.graph.kind i = .terminal b ∨ t.graph.kind i = .weak b) :
      Move (a, some i) [] [b] [(a, t.graph.next i)]
  | any {a b : SymbolId} {i : NodeId} {set : IndexSet} (hk : t.graph.kind i = .any set)
      (hb : b ∈ t.terminals) (hs : set.get (t.symbol b).index = true) :
      Move (a, some i) [] [b] [(a, t.graph.next i)]
  | call {a b : SymbolId} {i r : NodeId} (hk : t.graph.kind i = .nonterminal b)
      (hr : (t.symbol b).root = some r) :
      Move (a, some i) [] [] [(b, some r), (a, t.graph.next i)]
  | blank {a : SymbolId} {i : NodeId} (hk : (t.graph.kind i).isBlank = true) :
      Move (a, some i) [] [] [(a, t.graph.next i)]
  | choose {a : SymbolId} {i : NodeId} {br : Branch} {q : Option NodeId}
      (hq : t.Options i br q) : Move (a, some i) [⟨i, br⟩] [] [(a, q)]

/-- A run from one stack to another makes the choices and reads the word. -/
inductive Run : Stack → List Choice → List SymbolId → Stack → Prop
  | stop (S : Stack) : Run S [] [] S
  | move {x : Frame} {X S T : Stack} {cs ds u v} (hx : t.Move x cs u X) (h : Run (X ++ S) ds v T) :
      Run (x :: S) (cs ++ ds) (u ++ v) T

/-- A run through the whole grammar. -/
def Derivation (cs : List Choice) (w : List SymbolId) : Prop :=
  ∃ s r, t.start = some s ∧ (t.symbol s).root = some r ∧ t.Run [(s, some r)] cs w []

variable {t} {a b : SymbolId} {i r : NodeId} {p q : Option NodeId} {br : Branch} {f g h : Form}
  {x : Frame} {S T U X : Stack} {cs ds : List Choice} {u v w : List SymbolId}

theorem Run.of_move (h : t.Move x cs u X) (S : Stack) : t.Run (x :: S) cs u (X ++ S) := by
  have := Run.move h (.stop (X ++ S))
  simpa using this

theorem Run.trans (h : t.Run S cs u T) (h' : t.Run T ds v U) :
    t.Run S (cs ++ ds) (u ++ v) U := by
  induction h with
  | stop => exact h'
  | move hx _ ih =>
    rw [List.append_assoc, List.append_assoc]
    exact .move hx (ih h')

/-- What lies below on the stack does not matter. -/
theorem Run.append (h : t.Run S cs w T) (U : Stack) : t.Run (S ++ U) cs w (T ++ U) := by
  induction h with
  | stop S => exact .stop (S ++ U)
  | move hx _ ih => exact .move hx (by rwa [List.append_assoc] at ih)

/-- A run to the end is done with the upper part of the stack before it comes to the lower one. -/
theorem Run.split (h : t.Run (S ++ T) cs w []) : ∃ cs₁ cs₂ u v, cs = cs₁ ++ cs₂ ∧ w = u ++ v ∧
    t.Run S cs₁ u [] ∧ t.Run T cs₂ v [] := by
  generalize hU : S ++ T = U at h
  generalize hE : ([] : Stack) = E at h
  induction h generalizing S with
  | stop =>
    subst hE
    obtain ⟨rfl, rfl⟩ := List.append_eq_nil_iff.mp hU
    exact ⟨[], [], [], [], rfl, rfl, .stop [], .stop []⟩
  | @move x X U E cs ds u v hx h ih =>
    subst hE
    rcases S with _ | ⟨y, S⟩
    · subst hU
      exact ⟨[], _, [], _, rfl, rfl, .stop [], .move hx h⟩
    · obtain ⟨rfl, rfl⟩ := List.cons_eq_cons.mp hU
      obtain ⟨cs₁, cs₂, u', v', rfl, rfl, h₁, h₂⟩ := ih (List.append_assoc ..) rfl
      exact ⟨cs ++ cs₁, cs₂, u ++ u', v', by simp, by simp, .move hx h₁, h₂⟩

/-! ### What runs read is derived -/

/-- The frames stand in the productions that they name. -/
def Seated (t : Table) (S : Stack) : Prop := ∀ x ∈ S, ∀ i ∈ x.2, t.Within x.1 i

/-- What the frames of a stack spell, one after the other. -/
inductive SpellsStack (t : Table) : Stack → Form → Prop
  | nil : SpellsStack t [] []
  | cons {a : SymbolId} {p : Option NodeId} {S : Stack} {f g : Form}
      (hf : t.Spells (.rest p) f) (hg : SpellsStack t S g) : SpellsStack t ((a, p) :: S) (f ++ g)

theorem spellsStack_cons : t.SpellsStack (x :: S) h ↔
    ∃ f g, h = f ++ g ∧ t.Spells (.rest x.2) f ∧ t.SpellsStack S g := by
  refine ⟨?_, ?_⟩
  · intro h
    cases h with
    | cons hf hg => exact ⟨_, _, rfl, hf, hg⟩
  · rintro ⟨f, g, rfl, hf, hg⟩
    exact .cons hf hg

theorem Options.within (ht : t.Formed) (hi : t.Within a i) (hq : t.Options i br q) :
    ∀ j ∈ q, t.Within a j := by
  cases hq with
  | take hk hp =>
    intro j hj
    cases hj
    exact (ht.spells_alternative hi hk _ hp).1
  | enter hk =>
    intro j hj
    cases hj
    exact hi.sub (by rcases hk with hk | hk <;> rw [hk] <;> rfl)
  | leave => exact fun j hj => hi.next hj

theorem Move.seated (ht : t.Formed) (hx : t.Move x cs u X) (h : t.Seated (x :: S)) :
    t.Seated (X ++ S) := by
  have hS : t.Seated S := fun y hy => h y (by simp [hy])
  have hx' := h x (by simp)
  intro y hy
  rcases List.mem_append.mp hy with hy | hy
  · have hnext {a : SymbolId} {i : NodeId} (hi : t.Within a i) :
        ∀ j ∈ (a, t.graph.next i).2, t.Within (a, t.graph.next i).1 j := fun j hj => hi.next hj
    cases hx with
    | finish => simp at hy
    | terminal | any | blank =>
      rw [List.mem_singleton.mp hy]
      exact hnext (hx' _ rfl)
    | call hk hr =>
      rcases List.mem_cons.mp hy with rfl | hy
      · exact fun j hj => .root (hr.trans hj)
      · rw [List.mem_singleton.mp hy]
        exact hnext (hx' _ rfl)
    | choose hq =>
      rw [List.mem_singleton.mp hy]
      exact hq.within ht (hx' _ rfl)
  · exact hS y hy

/-- What is spelled after a branch is spelled before. -/
theorem Options.spells (ht : t.Formed) (hi : t.Within a i) (hq : t.Options i br q)
    (hf : t.Spells (.rest q) f) : t.Spells (.rest (some i)) f := by
  cases hq with
  | take hk hp =>
    obtain ⟨u, v, rfl, hu, hv⟩ := ((ht.spells_alternative hi hk _ hp).2 f).mp hf
    exact .restStep ((ht.spells_alternatives hi hk).mpr ⟨_, hp, hu⟩) hv
  | enter hk =>
    have hsub := (ht.spells_content hi (by rcases hk with hk | hk <;> rw [hk] <;> rfl)).mp hf
    obtain ⟨u, v, rfl, hu, hv⟩ := hsub
    unfold contentExit at hv
    rcases hk with hk | hk <;> rw [hk] at hv
    · exact .restStep (.content hk hu) hv
    · obtain ⟨x, y, rfl, hx, hy⟩ := spells_rest_some.mp hv
      have := Spells.restStep (.again hk hu hx) hy
      rwa [List.append_assoc] at this
  | leave hk =>
    refine Spells.restStep (u := []) ?_ hf
    rcases hk with hk | hk
    · exact .skip hk
    · exact .stop hk

/-- What a run to the end reads is derived from what its stack spells. -/
theorem Run.derives (ht : t.Formed) (h : t.Run S cs w []) (hS : t.Seated S) :
    ∃ f, t.SpellsStack S f ∧ t.Derives f (w.map .terminal) := by
  generalize hE : ([] : Stack) = E at h
  induction h with
  | stop =>
    subst hE
    exact ⟨[], .nil, .refl _⟩
  | @move x X S E cs ds u v hx _ ih =>
    obtain ⟨f, hf, hd⟩ := ih (hx.seated ht hS) hE
    have hx' := hS x (by simp)
    rw [List.map_append]
    cases hx with
    | finish => exact ⟨[] ++ f, .cons .restEnd hf, hd⟩
    | @terminal a b i hk =>
      obtain ⟨f, g, rfl, hf, hg⟩ := spellsStack_cons.mp hf
      refine ⟨[.terminal b] ++ f ++ g, .cons (.restStep ?_ hf) hg, ?_⟩
      · rcases hk with hk | hk
        · exact .terminal hk
        · exact .weak hk
      · rw [List.append_assoc]
        exact .append (.refl _) hd
    | any hk hb hs =>
      obtain ⟨f, g, rfl, hf, hg⟩ := spellsStack_cons.mp hf
      refine ⟨[.terminal _] ++ f ++ g, .cons (.restStep (.any hk hb hs) hf) hg, ?_⟩
      rw [List.append_assoc]
      exact .append (.refl _) hd
    | call hk hr =>
      obtain ⟨e, _, rfl, he, hf⟩ := spellsStack_cons.mp hf
      obtain ⟨f, g, rfl, hf, hg⟩ := spellsStack_cons.mp hf
      refine ⟨[.nonterminal _] ++ f ++ g, .cons (.restStep (.nonterminal hk) hf) hg, ?_⟩
      rw [List.append_assoc]
      exact (Derives.append (.of_produces ⟨_, hr, he⟩) (.refl _)).trans hd
    | blank hk =>
      obtain ⟨f, g, rfl, hf, hg⟩ := spellsStack_cons.mp hf
      exact ⟨_, .cons (.restStep (.blank hk) hf) hg, hd⟩
    | choose hq =>
      obtain ⟨f, g, rfl, hf, hg⟩ := spellsStack_cons.mp hf
      exact ⟨_, .cons (hq.spells ht (hx' _ rfl) hf) hg, hd⟩

/-! ### What is derived is read by runs -/

/-- Every letter of the form can be run through, and all of them together read the word. -/
inductive Runs (t : Table) : Form → List SymbolId → Prop
  | nil : Runs t [] []
  | terminal {b : SymbolId} {f : Form} {w} (h : Runs t f w) : Runs t (.terminal b :: f) (b :: w)
  | nonterminal {b r : SymbolId} {cs} {f : Form} {v w} (hr : (t.symbol b).root = some r)
      (hb : t.Run [(b, some r)] cs v []) (h : Runs t f w) : Runs t (.nonterminal b :: f) (v ++ w)

theorem runs_nil : t.Runs [] w ↔ w = [] :=
  ⟨fun h => by cases h; rfl, fun h => h ▸ .nil⟩

theorem runs_terminal : t.Runs [.terminal b] w ↔ w = [b] := by
  refine ⟨?_, ?_⟩
  · intro h
    cases h with
    | terminal h => rw [runs_nil.mp h]
  · rintro rfl
    exact .terminal .nil

theorem runs_nonterminal : t.Runs [.nonterminal b] w ↔
    ∃ r cs, (t.symbol b).root = some r ∧ t.Run [(b, some r)] cs w [] := by
  refine ⟨?_, ?_⟩
  · intro h
    cases h with
    | nonterminal hr hb h =>
      rw [runs_nil.mp h, List.append_nil]
      exact ⟨_, _, hr, hb⟩
  · rintro ⟨r, cs, hr, hb⟩
    simpa using Runs.nonterminal hr hb .nil

theorem runs_append : t.Runs (f ++ g) w ↔ ∃ u v, w = u ++ v ∧ t.Runs f u ∧ t.Runs g v := by
  refine ⟨?_, ?_⟩
  · intro h
    induction f generalizing w with
    | nil => exact ⟨[], w, rfl, .nil, h⟩
    | cons c f ih =>
      cases h with
      | terminal h =>
        obtain ⟨u, v, rfl, hu, hv⟩ := ih h
        exact ⟨_ :: u, v, rfl, .terminal hu, hv⟩
      | nonterminal hr hb h =>
        obtain ⟨u, v, rfl, hu, hv⟩ := ih h
        exact ⟨_ ++ u, v, (List.append_assoc ..).symm, .nonterminal hr hb hu, hv⟩
  · rintro ⟨u, v, rfl, hu, hv⟩
    induction hu with
    | nil => exact hv
    | terminal _ ih => exact .terminal ih
    | nonterminal hr hb _ ih =>
      rw [List.append_assoc]
      exact .nonterminal hr hb ih

/-- There is a run through a part of the production of `a`, if it stands there. A group leads to
what follows its tree, and an alternation is passed through one of the alternatives. -/
def Crosses (t : Table) (a : SymbolId) (w : List SymbolId) : Part → Prop
  | .node i => t.Within a i → (∃ cs, t.Run [(a, some i)] cs w [(a, t.graph.next i)]) ∧
      ∀ sub down, t.graph.kind i = .alt sub down → ∃ p ∈ t.graph.alternatives i,
        ∃ cs, t.Run [(a, some p.1)] cs w [(a, t.graph.next i)]
  | .group p => ∀ (s : Shape) (q : Option NodeId) (up : Bool), s.entry = p →
      (∀ i ∈ s.nodes, t.Within a i) → s.Fits t.graph (· = q) up → (up = false → q = none) →
        (s = .nil → q = none) → ∃ cs, t.Run [(a, p)] cs w [(a, q)]
  | .rest p => (∀ i ∈ p, t.Within a i) → ∃ cs, t.Run [(a, p)] cs w []

theorem Formed.crosses_content (ht : t.Formed) (hi : t.Within a i) {k : NodeId}
    (hk : (t.graph.kind i).sub? = some k) (h : t.Crosses a w (.group (some k))) :
    ∃ cs, t.Run [(a, some k)] cs w [(a, t.contentExit i)] := by
  obtain ⟨r, s, hr, hs, hi⟩ := ht.within_iff.mp hi
  obtain ⟨l, y, o, x, q, vp, hp⟩ := hs.exists_placed hi
  have hy : y.entry = some k := hp.refers.entry_body.trans hk
  have hexit : (if l then some i else t.graph.next i) = t.contentExit i := by
    have hr := hp.refers
    unfold contentExit
    cases h : t.graph.kind i <;> rw [h] at hr <;> rw [hr.1] <;> rfl
  rw [← hexit]
  refine h y _ true hy (fun j hj => ?_) hp.body (by simp) fun hn => by simp [hn, Shape.entry] at hy
  exact ht.within_iff.mpr ⟨r, s, hr, hs, hp.sublist.subset (by simp [Shape.nodes, hj])⟩

/-- A node that is no alternation is crossed when there is a run. -/
theorem crosses_node (hk : ∀ sub down, t.graph.kind i ≠ .alt sub down)
    (h : t.Within a i → ∃ cs, t.Run [(a, some i)] cs w [(a, t.graph.next i)]) :
    t.Crosses a w (.node i) :=
  fun hi => ⟨h hi, fun sub down hc => absurd hc (hk sub down)⟩

/-- An alternation is crossed through one of its alternatives. -/
theorem crosses_alternation {sub : NodeId} {down : Option NodeId}
    (hk : t.graph.kind i = .alt sub down) (h : t.Within a i → ∃ p ∈ t.graph.alternatives i,
      ∃ cs, t.Run [(a, some p.1)] cs w [(a, t.graph.next i)]) : t.Crosses a w (.node i) := by
  intro hi
  obtain ⟨p, hp, cs, hr⟩ := h hi
  exact ⟨⟨_, (Run.of_move (.choose (.take hk hp)) []).trans hr⟩, fun _ _ _ => ⟨p, hp, cs, hr⟩⟩

theorem crosses_group_last (hup : (t.graph.node i).up = true) (h : t.Crosses a w (.node i)) :
    t.Crosses a w (.group (some i)) := by
  intro s q up hs hin hf hq _
  cases s with
  | nil => cases hs
  | node j l b o x =>
    cases hs
    have hx : x = .nil := by
      by_contra hx
      rw [(hf.2.1.of_ne hx).2] at hup
      cases hup
    subst hx
    rw [← hf.2.1.of_nil.1]
    exact (h (hin i (by simp [Shape.nodes]))).1

theorem crosses_group_step (hup : (t.graph.node i).up = false) (h : t.Crosses a u (.node i))
    (h' : t.Crosses a v (.group (t.graph.next i))) : t.Crosses a (u ++ v) (.group (some i)) := by
  intro s q up hs hin hf hq _
  cases s with
  | nil => cases hs
  | node j l b o x =>
    cases hs
    obtain ⟨⟨cs, hr⟩, -⟩ := h (hin i (by simp [Shape.nodes]))
    have hnext : x.entry = t.graph.next i ∧ (x = .nil → q = none) := by
      by_cases hx : x = .nil
      · subst hx
        have hv : up = false := hf.2.1.of_nil.2.symm.trans hup
        exact ⟨(hf.2.1.of_nil.1.trans (hq hv)).symm, fun _ => hq hv⟩
      · exact ⟨(hf.2.1.of_ne hx).1.symm, fun h => absurd h hx⟩
    obtain ⟨ds, hr'⟩ := h' x q up hnext.1 (fun k hk => hin k (by simp [Shape.nodes, hk]))
      hf.2.2.2.2 hq hnext.2
    exact ⟨_, hr.trans hr'⟩

theorem Spells.crosses (ht : t.Formed) {P : Part} (h : t.Spells P f) (hw : t.Runs f w) :
    t.Crosses a w P := by
  induction h generalizing w with
  | terminal hk =>
    rw [runs_terminal.mp hw]
    exact crosses_node (by simp [hk]) fun _ => ⟨_, .of_move (.terminal (.inl hk)) []⟩
  | weak hk =>
    rw [runs_terminal.mp hw]
    exact crosses_node (by simp [hk]) fun _ => ⟨_, .of_move (.terminal (.inr hk)) []⟩
  | any hk hb hs =>
    rw [runs_terminal.mp hw]
    exact crosses_node (by simp [hk]) fun _ => ⟨_, .of_move (.any hk hb hs) []⟩
  | @nonterminal i b hk =>
    obtain ⟨r, cs, hr, hb⟩ := runs_nonterminal.mp hw
    refine crosses_node (by simp [hk]) fun _ => ⟨cs, ?_⟩
    exact (Run.of_move (.call hk hr) []).trans (hb.append _)
  | @blank i hk =>
    rw [runs_nil.mp hw]
    refine crosses_node (fun sub down h => ?_) fun _ => ⟨_, .of_move (.blank hk) []⟩
    rw [h] at hk
    cases hk
  | skip hk =>
    rw [runs_nil.mp hw]
    exact crosses_node (by simp [hk]) fun _ => ⟨_, .of_move (.choose (.leave (.inl hk))) []⟩
  | stop hk =>
    rw [runs_nil.mp hw]
    exact crosses_node (by simp [hk]) fun _ => ⟨_, .of_move (.choose (.leave (.inr hk))) []⟩
  | @content i sub f hk _ ih =>
    refine crosses_node (by simp [hk]) fun hi => ?_
    obtain ⟨cs, hr⟩ := ht.crosses_content hi (by rw [hk]; rfl) (ih hw)
    rw [contentExit, hk] at hr
    exact ⟨_, (Run.of_move (.choose (.enter (.inl hk))) []).trans hr⟩
  | @again i sub f g hk _ _ ihf ihg =>
    refine crosses_node (by simp [hk]) fun hi => ?_
    obtain ⟨u, v, rfl, hu, hv⟩ := runs_append.mp hw
    obtain ⟨cs, hr⟩ := ht.crosses_content hi (by rw [hk]; rfl) (ihf hu)
    obtain ⟨⟨ds, hr'⟩, -⟩ := ihg hv hi
    rw [contentExit, hk] at hr
    exact ⟨_, (Run.of_move (.choose (.enter (.inr hk))) []).trans (hr.trans hr')⟩
  | @alternative i sub down f hk _ ih =>
    refine crosses_alternation hk fun hi => ?_
    obtain ⟨cs, hr⟩ := ht.crosses_content hi (by rw [hk]; rfl) (ih hw)
    rw [contentExit, hk] at hr
    refine ⟨(sub, down), ?_, cs, hr⟩
    rw [(ht.alternatives_eq hi hk).1]
    exact List.mem_cons_self
  | @other i sub q f hk _ ih =>
    refine crosses_alternation hk fun hi => ?_
    obtain ⟨he, hn⟩ := ht.alternatives_eq hi hk
    obtain ⟨⟨e, d, hq⟩, hnext⟩ := hn q rfl
    obtain ⟨p, hp, cs, hr⟩ := (ih hw (hi.down (by rw [hk]; rfl))).2 e d hq
    rw [he, ← hnext]
    exact ⟨p, List.mem_cons_of_mem _ hp, cs, hr⟩
  | groupEnd =>
    intro s q up hs _ _ _ hq
    rw [runs_nil.mp hw, hq (Shape.entry_eq_none.mp hs)]
    exact ⟨_, .stop _⟩
  | groupLast hup _ ih => exact crosses_group_last hup (ih hw)
  | groupStep hup _ _ ihf ihg =>
    obtain ⟨u, v, rfl, hu, hv⟩ := runs_append.mp hw
    exact crosses_group_step hup (ihf hu) (ihg hv)
  | restEnd =>
    intro _
    rw [runs_nil.mp hw]
    exact ⟨_, .of_move .finish []⟩
  | @restStep i f g _ _ ihf ihg =>
    intro hi
    have hi := hi i rfl
    obtain ⟨u, v, rfl, hu, hv⟩ := runs_append.mp hw
    obtain ⟨⟨cs, hr⟩, -⟩ := ihf hu hi
    obtain ⟨ds, hr'⟩ := ihg hv fun j hj => hi.next hj
    exact ⟨_, hr.trans hr'⟩

/-- What is derived can be run through. -/
theorem Derives.runs (ht : t.Formed) (h : t.Derives f (w.map .terminal)) : t.Runs f w := by
  induction h using Relation.ReflTransGen.head_induction_on with
  | refl =>
    induction w with
    | nil => exact .nil
    | cons b w ih => exact .terminal ih
  | head hstep _ ih =>
    obtain @⟨x, b, g, y, r, hr, hg⟩ := hstep
    obtain ⟨u, _, rfl, hu, hv⟩ := runs_append.mp ih
    obtain ⟨v, w, rfl, hv, hw⟩ := runs_append.mp hv
    obtain ⟨cs, hb⟩ := hg.crosses ht hv (a := b) fun i hi => .root (hr.trans hi)
    exact runs_append.mpr ⟨u, v ++ w, rfl, hu, .nonterminal hr hb hw⟩

/-- Runs to the end of a production read what is derived from it. -/
theorem Formed.exists_run_iff (ht : t.Formed) (hp : ∀ i ∈ p, t.Within a i) :
    (∃ cs, t.Run [(a, p)] cs w []) ↔
      ∃ f, t.Spells (.rest p) f ∧ t.Derives f (w.map .terminal) := by
  refine ⟨?_, ?_⟩
  · rintro ⟨cs, h⟩
    obtain ⟨f, hf, hd⟩ := h.derives ht fun x hx => by
      rw [List.mem_singleton.mp hx]
      exact hp
    obtain ⟨f, g, rfl, hfp, hg⟩ := spellsStack_cons.mp hf
    cases hg
    exact ⟨f, hfp, by simpa using hd⟩
  · rintro ⟨f, hf, hd⟩
    exact hf.crosses ht (hd.runs ht) hp

/-- There are runs for the words that the grammar derives. -/
theorem Formed.exists_derivation_iff (ht : t.Formed) : (∃ cs, t.Derivation cs w) ↔
    ∃ s, t.start = some s ∧ t.Derives [.nonterminal s] (w.map .terminal) := by
  refine ⟨?_, ?_⟩
  · rintro ⟨cs, s, r, hs, hr, h⟩
    obtain ⟨f, hf, hd⟩ := (ht.exists_run_iff fun i hi => .root (hr.trans hi)).mp ⟨cs, h⟩
    exact ⟨s, hs, (Derives.of_produces ⟨r, hr, hf⟩).trans hd⟩
  · rintro ⟨s, hs, hd⟩
    obtain ⟨r, cs, hr, h⟩ := runs_nonterminal.mp (hd.runs ht)
    exact ⟨cs, s, r, hs, hr, h⟩

end Table

end Lookahead
