import Lookahead.Proofs.Walks
import Mathlib.Logic.Relation

/-!
# What a grammar derives

A production graph stands for a set of sentential forms: `Table.Spells` reads them off its nodes,
with an alternative as a choice, an option as nothing or its content, and an iteration as any number
of contents in a row. A nonterminal can be replaced by what its production spells
(`Table.Rewrites`), and repeated replacement is derivation (`Table.Derives`). A form derives letter
by letter (`Table.derives_append_iff`), so the empty form and the first terminal of a form can be
looked for from left to right.
-/

namespace Lookahead

/-- A letter of a sentential form. -/
inductive Letter where
  | terminal (b : SymbolId)
  | nonterminal (a : SymbolId)
deriving DecidableEq, Repr

abbrev Form := List Letter

/-- What can be read from a production: a node, the group that starts at a node, or all that starts
there, to the end of the production. -/
inductive Part where
  | node (i : NodeId)
  | group (p : Option NodeId)
  | rest (p : Option NodeId)

/-- A node of such a kind stands for nothing. -/
def NodeKind.isBlank : NodeKind → Bool
  | .empty | .sync _ | .action | .resolver => true
  | _ => false

namespace Table

variable (t : Table)

/-- The forms that a part of a production spells. -/
inductive Spells : Part → Form → Prop
  | terminal {i b} (hk : t.graph.kind i = .terminal b) : Spells (.node i) [.terminal b]
  | weak {i b} (hk : t.graph.kind i = .weak b) : Spells (.node i) [.terminal b]
  | nonterminal {i a} (hk : t.graph.kind i = .nonterminal a) : Spells (.node i) [.nonterminal a]
  | any {i set b} (hk : t.graph.kind i = .any set) (hb : b ∈ t.terminals)
      (hs : set.get (t.symbol b).index = true) : Spells (.node i) [.terminal b]
  | blank {i} (hk : (t.graph.kind i).isBlank = true) : Spells (.node i) []
  | skip {i sub} (hk : t.graph.kind i = .opt sub) : Spells (.node i) []
  | content {i sub u} (hk : t.graph.kind i = .opt sub) (hu : Spells (.group (some sub)) u) :
      Spells (.node i) u
  | stop {i sub} (hk : t.graph.kind i = .iter sub) : Spells (.node i) []
  | again {i sub u v} (hk : t.graph.kind i = .iter sub) (hu : Spells (.group (some sub)) u)
      (hv : Spells (.node i) v) : Spells (.node i) (u ++ v)
  | alternative {i sub down u} (hk : t.graph.kind i = .alt sub down)
      (hu : Spells (.group (some sub)) u) : Spells (.node i) u
  | other {i sub q u} (hk : t.graph.kind i = .alt sub (some q)) (hu : Spells (.node q) u) :
      Spells (.node i) u
  | groupEnd : Spells (.group none) []
  | groupLast {i u} (hup : (t.graph.node i).up = true) (hu : Spells (.node i) u) :
      Spells (.group (some i)) u
  | groupStep {i u v} (hup : (t.graph.node i).up = false) (hu : Spells (.node i) u)
      (hv : Spells (.group (t.graph.next i)) v) : Spells (.group (some i)) (u ++ v)
  | restEnd : Spells (.rest none) []
  | restStep {i u v} (hu : Spells (.node i) u) (hv : Spells (.rest (t.graph.next i)) v) :
      Spells (.rest (some i)) (u ++ v)

/-- The right-hand sides of a nonterminal. -/
def Produces (a : SymbolId) (w : Form) : Prop :=
  ∃ r, (t.symbol a).root = some r ∧ t.Spells (.rest (some r)) w

/-- One nonterminal is replaced by one of its right-hand sides. -/
inductive Rewrites : Form → Form → Prop
  | intro (x : Form) {a : SymbolId} {w : Form} (y : Form) (hw : t.Produces a w) :
      Rewrites (x ++ .nonterminal a :: y) (x ++ (w ++ y))

def Derives : Form → Form → Prop := Relation.ReflTransGen t.Rewrites

variable {t} {u v w x y : Form} {a b : SymbolId} {c : Letter} {i : NodeId} {p : Option NodeId}

/-! ### Derivations -/

theorem Derives.refl (w : Form) : t.Derives w w := Relation.ReflTransGen.refl

theorem Derives.trans (h : t.Derives u v) (h' : t.Derives v w) : t.Derives u w :=
  Relation.ReflTransGen.trans h h'

theorem Rewrites.append_left (h : t.Rewrites u v) (x : Form) : t.Rewrites (x ++ u) (x ++ v) := by
  obtain ⟨y, z, hw⟩ := h
  simpa using Rewrites.intro (x ++ y) z hw

theorem Rewrites.append_right (h : t.Rewrites u v) (y : Form) : t.Rewrites (u ++ y) (v ++ y) := by
  obtain ⟨x, z, hw⟩ := h
  simpa using Rewrites.intro x (z ++ y) hw

theorem Derives.append (h : t.Derives u v) (h' : t.Derives x y) :
    t.Derives (u ++ x) (v ++ y) :=
  (h.lift (· ++ x) fun _ _ hr => hr.append_right x).trans
    (h'.lift (v ++ ·) fun _ _ hr => hr.append_left v)

theorem Derives.of_produces (h : t.Produces a w) : t.Derives [.nonterminal a] w := by
  have := Rewrites.intro [] [] h
  simp only [List.nil_append, List.append_nil] at this
  exact Relation.ReflTransGen.single this

/-- A step in a form of two parts takes place in one of them. -/
theorem rewrites_append (h : t.Rewrites (u ++ v) w) :
    (∃ u', w = u' ++ v ∧ t.Rewrites u u') ∨ ∃ v', w = u ++ v' ∧ t.Rewrites v v' := by
  generalize hz : u ++ v = z at h
  obtain ⟨x, y, hw⟩ := h
  rename_i a w
  rcases List.append_eq_append_iff.mp hz with ⟨x', rfl, hv⟩ | ⟨y', rfl, hy⟩
  · refine .inr ⟨x' ++ (w ++ y), by simp, ?_⟩
    rw [hv]
    exact .intro x' y hw
  · rcases y' with _ | ⟨c, y'⟩
    · refine .inr ⟨w ++ y, by simp, ?_⟩
      rw [show v = .nonterminal a :: y by simpa using hy.symm]
      exact .intro [] y hw
    · obtain ⟨rfl, rfl⟩ : Letter.nonterminal a = c ∧ y = y' ++ v := by simpa using hy
      exact .inl ⟨x ++ (w ++ y'), by simp, .intro x y' hw⟩

/-- Two parts of a form derive independently. -/
theorem derives_append_iff :
    t.Derives (u ++ v) w ↔ ∃ x y, w = x ++ y ∧ t.Derives u x ∧ t.Derives v y := by
  refine ⟨?_, ?_⟩
  · intro h
    generalize hz : u ++ v = z at h
    induction h using Relation.ReflTransGen.head_induction_on generalizing u v with
    | refl => exact ⟨u, v, hz.symm, .refl u, .refl v⟩
    | head h _ ih =>
      subst hz
      rcases rewrites_append h with ⟨u', rfl, hu⟩ | ⟨v', rfl, hv⟩
      · obtain ⟨x, y, rfl, hx, hy⟩ := ih rfl
        exact ⟨x, y, rfl, .head hu hx, hy⟩
      · obtain ⟨x, y, rfl, hx, hy⟩ := ih rfl
        exact ⟨x, y, rfl, hx, .head hv hy⟩
  · rintro ⟨x, y, rfl, hx, hy⟩
    exact hx.append hy

theorem not_rewrites_terminal : ¬ t.Rewrites [.terminal b] w := by
  generalize hz : [Letter.terminal b] = z
  rintro ⟨x, y, hw⟩
  rcases x with _ | ⟨c, x⟩ <;> simp at hz

/-- A terminal derives itself only. -/
theorem derives_terminal (h : t.Derives [.terminal b] w) : w = [.terminal b] := by
  rcases Relation.ReflTransGen.cases_head h with h | ⟨v, h, -⟩
  · exact h.symm
  · exact absurd h not_rewrites_terminal

theorem derives_of_nil (h : t.Derives [] w) : w = [] := by
  rcases Relation.ReflTransGen.cases_head h with h | ⟨v, h, -⟩
  · exact h.symm
  · generalize hz : ([] : Form) = z at h
    obtain ⟨x, y, hw⟩ := h
    simp at hz

/-- A nonterminal that derives another form derives it through a right-hand side. -/
theorem derives_nonterminal (h : t.Derives [.nonterminal a] w) :
    w = [.nonterminal a] ∨ ∃ u, t.Produces a u ∧ t.Derives u w := by
  rcases Relation.ReflTransGen.cases_head h with h | ⟨v, h, hv⟩
  · exact .inl h.symm
  · right
    generalize hz : [Letter.nonterminal a] = z at h
    obtain ⟨x, y, hw⟩ := h
    rcases x with _ | ⟨c, x⟩
    · obtain ⟨rfl, rfl⟩ : a = _ ∧ y = [] := by simpa using hz
      rw [List.nil_append, List.append_nil] at hv
      exact ⟨_, hw, hv⟩
    · simp at hz

/-- A form derives nothing if all its letters do. -/
theorem derives_nil_iff : t.Derives w [] ↔ ∀ c ∈ w, t.Derives [c] [] := by
  induction w with
  | nil => simp [Derives.refl]
  | cons c w ih =>
    rw [show c :: w = [c] ++ w from rfl, derives_append_iff]
    refine ⟨?_, ?_⟩
    · rintro ⟨x, y, hxy, hx, hy⟩
      obtain ⟨rfl, rfl⟩ := List.append_eq_nil_iff.mp hxy.symm
      simpa using ⟨hx, ih.mp hy⟩
    · intro h
      exact ⟨[], [], rfl, h c (by simp), ih.mpr fun c hc => h c (by simp [hc])⟩

/-! ### Groups -/

theorem spells_rest_none : t.Spells (.rest none) w ↔ w = [] :=
  ⟨fun h => by cases h; rfl, fun h => h ▸ .restEnd⟩

theorem spells_group_none : t.Spells (.group none) w ↔ w = [] :=
  ⟨fun h => by cases h; rfl, fun h => h ▸ .groupEnd⟩

theorem spells_rest_some : t.Spells (.rest (some i)) w ↔
    ∃ u v, w = u ++ v ∧ t.Spells (.node i) u ∧ t.Spells (.rest (t.graph.next i)) v := by
  refine ⟨?_, ?_⟩
  · rintro (_ | _)
    rename_i u v hu hv
    exact ⟨u, v, rfl, hu, hv⟩
  · rintro ⟨u, v, rfl, hu, hv⟩
    exact .restStep hu hv

theorem spells_group_last (hup : (t.graph.node i).up = true) :
    t.Spells (.group (some i)) w ↔ t.Spells (.node i) w := by
  refine ⟨?_, ?_⟩
  · intro h
    cases h with
    | groupLast _ hu => exact hu
    | groupStep h => simp [hup] at h
  · exact .groupLast hup

theorem spells_group_step (hup : (t.graph.node i).up = false) : t.Spells (.group (some i)) w ↔
    ∃ u v, w = u ++ v ∧ t.Spells (.node i) u ∧ t.Spells (.group (t.graph.next i)) v := by
  refine ⟨?_, ?_⟩
  · intro h
    cases h with
    | groupLast h => simp [hup] at h
    | groupStep _ hu hv => exact ⟨_, _, rfl, hu, hv⟩
  · rintro ⟨u, v, rfl, hu, hv⟩
    exact .groupStep hup hu hv

variable {s : Shape} {q : Option NodeId} {up : Bool}

/-- What starts at a group is what the group spells, and what follows it. -/
theorem spells_rest_iff (hs : s.Fits t.graph (· = q) up) (hne : s ≠ .nil)
    (hq : up = false → q = none) : t.Spells (.rest s.entry) w ↔
      ∃ u v, w = u ++ v ∧ t.Spells (.group s.entry) u ∧ t.Spells (.rest q) v := by
  induction s generalizing w with
  | nil => exact absurd rfl hne
  | node i l b o r _ _ ih =>
    obtain ⟨-, hl, -, -, hr⟩ := hs
    rw [Shape.entry, spells_rest_some]
    by_cases hrn : r = .nil
    · subst hrn
      obtain ⟨rfl, hup⟩ := hl.of_nil
      cases up with
      | true => simp only [spells_group_last hup]
      | false =>
        rw [hq rfl]
        simp only [spells_group_step hup, hq rfl, spells_group_none, spells_rest_none]
        refine ⟨?_, ?_⟩
        · rintro ⟨u, v, rfl, hu, rfl⟩
          exact ⟨u, [], rfl, ⟨u, [], by simp, hu, rfl⟩, rfl⟩
        · rintro ⟨_, v, rfl, ⟨u, _, rfl, hu, rfl⟩, rfl⟩
          exact ⟨u, [], by simp, hu, rfl⟩
    · obtain ⟨hnext, hup⟩ := hl.of_ne hrn
      simp only [spells_group_step hup, hnext, ih hr hrn]
      refine ⟨?_, ?_⟩
      · rintro ⟨u, _, rfl, hu, x, y, rfl, hx, hy⟩
        exact ⟨u ++ x, y, by simp, ⟨u, x, rfl, hu, hx⟩, hy⟩
      · rintro ⟨_, y, rfl, ⟨u, x, rfl, hu, hx⟩, hy⟩
        exact ⟨u, x ++ y, by simp, hu, x, y, rfl, hx, hy⟩

/-- Where the content of a node leads. -/
def contentExit (t : Table) (i : NodeId) : Option NodeId :=
  match t.graph.kind i with
  | .iter _ => some i
  | _ => t.graph.next i

theorem contentExit_eq {N : List NodeId} {l up : Bool} {b o x : Shape} {q : Option NodeId}
    (hp : Graph.Placed t.graph N i l b o x q up) :
    t.contentExit i = if l then some i else t.graph.next i := by
  have hr := hp.refers
  unfold contentExit
  cases h : t.graph.kind i <;> rw [h] at hr <;> rw [hr.1] <;> rfl

/-- What starts at the content of a node is the content, and what that leads to. -/
theorem Formed.spells_content (ht : t.Formed) (hi : t.Within a i) {k : NodeId}
    (hk : (t.graph.kind i).sub? = some k) : t.Spells (.rest (some k)) w ↔
      ∃ u v, w = u ++ v ∧ t.Spells (.group (some k)) u ∧ t.Spells (.rest (t.contentExit i)) v := by
  obtain ⟨r, s, -, hs, hi⟩ := ht.within_iff.mp hi
  obtain ⟨l, y, o, x, q, vp, hp⟩ := hs.exists_placed hi
  have hy : y.entry = some k := hp.refers.entry_body.trans hk
  have := spells_rest_iff (w := w) hp.body (fun h => by simp [h, Shape.entry] at hy) (by simp)
  rwa [hy, ← contentExit_eq hp] at this

/-- A further alternative is the last node of a group of its own. -/
theorem Formed.up_of_down (ht : t.Formed) (hi : t.Within a i) {k : NodeId}
    (hk : (t.graph.kind i).down? = some k) : (t.graph.node k).up = true := by
  obtain ⟨r, s, -, hs, hi⟩ := ht.within_iff.mp hi
  obtain ⟨l, y, o, x, q, vp, hp⟩ := hs.exists_placed hi
  have ho : o.entry = some k := hp.refers.entry_others.trans hk
  have hr := hp.refers
  cases h : t.graph.kind i <;> rw [h] at hr hk <;> try cases hk
  obtain ⟨-, -, -, hoo⟩ := hr
  cases o with
  | nil => cases ho
  | node j l' b' o' x' =>
    cases ho
    obtain ⟨rfl, -⟩ := hoo
    exact hp.others.2.1.of_nil.2

/-- What starts at a further alternative is that one or one behind it, and what follows the
group. -/
theorem Formed.spells_other (ht : t.Formed) (hi : t.Within a i) {k : NodeId}
    (hk : (t.graph.kind i).down? = some k) : t.Spells (.rest (some k)) w ↔
      ∃ u v, w = u ++ v ∧ t.Spells (.node k) u ∧ t.Spells (.rest (t.graph.next i)) v := by
  have hup := ht.up_of_down hi hk
  obtain ⟨r, s, -, hs, hi⟩ := ht.within_iff.mp hi
  obtain ⟨l, y, o, x, q, vp, hp⟩ := hs.exists_placed hi
  have ho : o.entry = some k := hp.refers.entry_others.trans hk
  have := spells_rest_iff (w := w) hp.others (fun h => by simp [h, Shape.entry] at ho) (by simp)
  rw [ho] at this
  simpa only [spells_group_last hup] using this

/-- A node that is neither a nonterminal nor an alternative spells a form without nonterminals, if
every wildcard matches something. -/
theorem exists_spells_leaf (hw : t.Wild) (ha : t.Allows (t.graph.kind i))
    (hn : ∀ b, t.graph.kind i ≠ .nonterminal b) (halt : ∀ e d, t.graph.kind i ≠ .alt e d) :
    ∃ w, t.Spells (.node i) w ∧ ∀ b, .nonterminal b ∉ w := by
  cases hk : t.graph.kind i with
  | terminal b => exact ⟨_, .terminal hk, by simp⟩
  | weak b => exact ⟨_, .weak hk, by simp⟩
  | nonterminal b => exact absurd hk (hn b)
  | any set =>
    obtain ⟨b, hb, hs⟩ := hw i set hk
    exact ⟨_, .any hk hb hs, by simp⟩
  | empty | sync | action | resolver => exact ⟨[], .blank (by rw [hk]; rfl), by simp⟩
  | opt sub => exact ⟨[], .skip hk, by simp⟩
  | iter sub => exact ⟨[], .stop hk, by simp⟩
  | alt sub down => exact absurd hk (halt sub down)
  | pragma | charClass | char =>
    rw [hk] at ha
    exact ha.elim

/-- What a node spells can be read at the start of its group. -/
theorem exists_spells_group {r : Shape} (hl : Shape.Leads t.graph (· = q) up i r)
    (hq : up = false → q = none) (hu : t.Spells (.node i) u)
    (hv : t.Spells (.group r.entry) v) : ∃ w, t.Spells (.group (some i)) (u ++ w) := by
  by_cases hn : r = .nil
  · subst hn
    obtain ⟨hnext, hup⟩ := hl.of_nil
    cases up with
    | true => exact ⟨[], by rw [List.append_nil]; exact .groupLast hup hu⟩
    | false =>
      refine ⟨[], .groupStep hup hu ?_⟩
      rw [hnext, hq rfl]
      exact .groupEnd
  · obtain ⟨hnext, hup⟩ := hl.of_ne hn
    exact ⟨v, .groupStep hup hu (by rwa [hnext])⟩

/-- Where every wildcard matches something, every group and every node of it spells some form. -/
theorem exists_spells_fits (hw : t.Wild) (ha : ∀ i, t.Allows (t.graph.kind i))
    (hs : s.Fits t.graph (· = q) up) (hq : up = false → q = none) :
    (∃ w, t.Spells (.group s.entry) w) ∧ ∀ i ∈ s.nodes, ∃ w, t.Spells (.node i) w := by
  induction s generalizing q up with
  | nil => exact ⟨⟨[], .groupEnd⟩, by simp [Shape.nodes]⟩
  | node i l b o r ihb iho ihr =>
    obtain ⟨⟨wb, hwb⟩, hnb⟩ := ihb hs.body (by simp)
    obtain ⟨-, hno⟩ := iho hs.others (by simp)
    obtain ⟨hf, hl, -, -, hr⟩ := hs
    obtain ⟨⟨wr, hwr⟩, hnr⟩ := ihr hr hq
    have hnode : ∃ w, t.Spells (.node i) w := by
      by_cases hn : ∃ b, t.graph.kind i = .nonterminal b
      · obtain ⟨b, hk⟩ := hn
        exact ⟨_, .nonterminal hk⟩
      by_cases halt : ∃ sub down, t.graph.kind i = .alt sub down
      · obtain ⟨sub, down, hk⟩ := halt
        have hbe := hf.entry_body
        rw [hk] at hbe
        rw [hbe] at hwb
        exact ⟨wb, .alternative hk hwb⟩
      obtain ⟨w, hw, -⟩ := exists_spells_leaf hw (ha i) (fun b hk => hn ⟨b, hk⟩)
        fun sub down hk => halt ⟨sub, down, hk⟩
      exact ⟨w, hw⟩
    obtain ⟨wi, hwi⟩ := hnode
    refine ⟨?_, ?_⟩
    · obtain ⟨v, hv⟩ := exists_spells_group hl hq hwi hwr
      exact ⟨wi ++ v, hv⟩
    · intro j hj
      simp only [Shape.nodes, List.mem_cons, List.mem_append] at hj
      rcases hj with rfl | hj | hj | hj
      · exact ⟨wi, hwi⟩
      · exact hnb j hj
      · exact hno j hj
      · exact hnr j hj

/-- A walk along `next` spells what its nodes spell. -/
theorem exists_spells_chain {L : List NodeId} (hL : Graph.Chain t.graph.next p L)
    (hs : ∀ i ∈ L, ∃ w, t.Spells (.node i) w) : ∃ w, t.Spells (.rest p) w := by
  induction L generalizing p with
  | nil =>
    cases hL
    exact ⟨[], .restEnd⟩
  | cons i L ih =>
    obtain ⟨rfl, hL⟩ := hL
    obtain ⟨u, hu⟩ := hs i (by simp)
    obtain ⟨v, hv⟩ := ih hL fun j hj => hs j (by simp [hj])
    exact ⟨u ++ v, .restStep hu hv⟩

/-- What a production spells mentions symbols that are nonterminals. -/
theorem Spells.mem_nonterminals (ha : ∀ i, t.Allows (t.graph.kind i)) {P : Part}
    (h : t.Spells P w) : ∀ a, .nonterminal a ∈ w → a ∈ t.nonterminals := by
  induction h with
  | @nonterminal i a hk =>
    intro c hc
    obtain rfl : c = a := by simpa using hc
    have := ha i
    rwa [hk] at this
  | content _ _ ih | alternative _ _ ih | other _ _ ih | groupLast _ _ ih => exact ih
  | again _ _ _ ihu ihv | groupStep _ _ _ ihu ihv | restStep _ _ ihu ihv =>
    intro c hc
    exact (List.mem_append.mp hc).elim (ihu c) (ihv c)
  | _ => simp

theorem Rewrites.mem_nonterminals (ha : ∀ i, t.Allows (t.graph.kind i)) (h : t.Rewrites v w)
    (hv : ∀ a, .nonterminal a ∈ v → a ∈ t.nonterminals) :
    ∀ a, .nonterminal a ∈ w → a ∈ t.nonterminals := by
  obtain ⟨x, y, r, -, hw⟩ := h
  intro c hc
  simp only [List.mem_append] at hc
  rcases hc with hc | hc | hc
  · exact hv c (by simp [hc])
  · exact hw.mem_nonterminals ha c hc
  · exact hv c (by simp [hc])

theorem Derives.mem_nonterminals (ha : ∀ i, t.Allows (t.graph.kind i)) (h : t.Derives v w)
    (hv : ∀ a, .nonterminal a ∈ v → a ∈ t.nonterminals) :
    ∀ a, .nonterminal a ∈ w → a ∈ t.nonterminals := by
  induction h with
  | refl => exact hv
  | tail _ hstep ih => exact hstep.mem_nonterminals ha ih

/-- What starts at a node of a production spells some form. -/
theorem Formed.exists_spells (ht : t.Formed) (hw : t.Wild) (hi : t.Within a i) :
    (∃ w, t.Spells (.node i) w) ∧ ∃ w, t.Spells (.rest (some i)) w := by
  obtain ⟨r, s, -, hs, hi⟩ := ht.within_iff.mp hi
  have hn := (exists_spells_fits hw ht.allows hs.fits (by simp)).2
  obtain ⟨L, hL, -, hm⟩ := hs.exists_chain hi
  exact ⟨hn i hi, exists_spells_chain hL fun j hj => hn j (hm j hj)⟩

/-! ### Tables of one grammar -/

section

variable {u : Table} (h : SameOutline t u)
  (hs : ∀ i n, (t.wildcardSet i).get n = true → (u.wildcardSet i).get n = true)
include h hs

/-- More is spelled where wildcards match more. -/
theorem SameOutline.spells {P : Part} (hw : t.Spells P w) : u.Spells P w := by
  have hkind {i k} (hi : t.graph.kind i = k) (ha : ∀ x, k ≠ .any x) (hs : ∀ x, k ≠ .sync x) :
      u.graph.kind i = k := (h.graph.kind_iff ha hs).mpr hi
  induction hw with
  | terminal hk => exact .terminal (hkind hk nofun nofun)
  | weak hk => exact .weak (hkind hk nofun nofun)
  | nonterminal hk => exact .nonterminal (hkind hk nofun nofun)
  | any hk hb hset =>
    obtain ⟨set, hk, hset⟩ := get_wildcardSet_iff.mp
      (hs _ _ (get_wildcardSet_iff.mpr ⟨_, hk, hset⟩))
    exact .any hk (h.terminals ▸ hb) (by rwa [h.index])
  | @blank i hk =>
    refine .blank ?_
    rcases h.graph.kind_cases i with hu | ⟨x, y, -, ht⟩ | ⟨x, y, hu, -⟩
    · rw [hu, hk]
    · rw [ht] at hk
      cases hk
    · rw [hu]
      rfl
  | skip hk => exact .skip (hkind hk nofun nofun)
  | content hk _ ih => exact .content (hkind hk nofun nofun) ih
  | stop hk => exact .stop (hkind hk nofun nofun)
  | again hk _ _ ihu ihv => exact .again (hkind hk nofun nofun) ihu ihv
  | alternative hk _ ih => exact .alternative (hkind hk nofun nofun) ih
  | other hk _ ih => exact .other (hkind hk nofun nofun) ih
  | groupEnd => exact .groupEnd
  | groupLast hup _ ih => exact .groupLast ((h.graph.up _).trans hup) ih
  | groupStep hup _ _ ihu ihv =>
    refine .groupStep ((h.graph.up _).trans hup) ihu ?_
    rw [h.graph.next]
    exact ihv
  | restEnd => exact .restEnd
  | restStep _ _ ihu ihv =>
    refine .restStep ihu ?_
    rw [h.graph.next]
    exact ihv

theorem SameOutline.derives (hw : t.Derives v w) : u.Derives v w := by
  refine Relation.ReflTransGen.mono (fun x y hxy => ?_) _ _ hw
  obtain ⟨x, y, r, hr, hw⟩ := hxy
  exact .intro x y ⟨r, (h.root _).trans hr, h.spells hs hw⟩

end

/-- The tables differ at most in what the analysis finds out about symbols and synchronisation
points. -/
structure SameGrammar (t u : Table) : Prop where
  size : u.symbols.size = t.symbols.size
  listed : u.listed = t.listed
  literals : u.literals = t.literals
  start : u.start = t.start
  eof : u.eof = t.eof
  kind : ∀ s, (u.symbol s).kind = (t.symbol s).kind
  index : ∀ s, (u.symbol s).index = (t.symbol s).index
  root : ∀ s, (u.symbol s).root = (t.symbol s).root
  graph : Graph.Alike t.graph u.graph
  any : ∀ i set, u.graph.kind i = .any set ↔ t.graph.kind i = .any set

namespace SameGrammar

theorem refl (t : Table) : SameGrammar t t :=
  ⟨rfl, rfl, rfl, rfl, rfl, fun _ => rfl, fun _ => rfl, fun _ => rfl, .refl _, fun _ _ => .rfl⟩

theorem symm {u : Table} (h : SameGrammar t u) : SameGrammar u t where
  size := h.size.symm
  listed := h.listed.symm
  literals := h.literals.symm
  start := h.start.symm
  eof := h.eof.symm
  kind s := (h.kind s).symm
  index s := (h.index s).symm
  root s := (h.root s).symm
  graph := h.graph.symm
  any i set := (h.any i set).symm

theorem trans {u v : Table} (h : SameGrammar t u) (h' : SameGrammar u v) : SameGrammar t v where
  size := h'.size.trans h.size
  listed := h'.listed.trans h.listed
  literals := h'.literals.trans h.literals
  start := h'.start.trans h.start
  eof := h'.eof.trans h.eof
  kind s := (h'.kind s).trans (h.kind s)
  index s := (h'.index s).trans (h.index s)
  root s := (h'.root s).trans (h.root s)
  graph := h.graph.trans h'.graph
  any i set := (h'.any i set).trans (h.any i set)

theorem modifySymbol (t : Table) (a : SymbolId) {f : Symbol → Symbol}
    (hk : ∀ b, (f b).kind = b.kind) (hi : ∀ b, (f b).index = b.index)
    (hr : ∀ b, (f b).root = b.root) : SameGrammar t (t.modifySymbol a f) where
  size := size_modifySymbol
  listed := listed_modifySymbol
  literals := rfl
  start := rfl
  eof := rfl
  kind := symbol_modifySymbol_congr hk a
  index := symbol_modifySymbol_congr hi a
  root := symbol_modifySymbol_congr hr a
  graph := .refl _
  any _ _ := .rfl

variable {u : Table} (h : SameGrammar t u)
include h

theorem terminals : u.terminals = t.terminals := congrFun h.listed .terminal

theorem nonterminals : u.nonterminals = t.nonterminals := congrFun h.listed .nonterminal

theorem kind_eq (i : NodeId) : u.graph.kind i = t.graph.kind i ∨
    ∃ x y, u.graph.kind i = .sync x ∧ t.graph.kind i = .sync y := by
  have ho := h.graph.kind i
  have ha := h.any i
  cases hu : u.graph.kind i <;> cases ht : t.graph.kind i <;> rw [hu, ht] at ho <;>
    simp_all [NodeKind.outline]

theorem kind_of {k : NodeKind} (hi : t.graph.kind i = k) (hk : ∀ x, k ≠ .sync x) :
    u.graph.kind i = k := by
  rcases h.kind_eq i with hu | ⟨x, y, -, ht⟩
  · rw [hu, hi]
  · exact absurd (hi.symm.trans ht) (hk y)

theorem outline : SameOutline t u :=
  ⟨h.size, h.listed, h.literals, h.start, h.eof, h.kind, h.index, h.root, h.graph⟩

theorem wildcardSet (i : NodeId) : u.wildcardSet i = t.wildcardSet i := by
  unfold Table.wildcardSet
  rw [terminalCount, h.terminals]
  rcases h.kind_eq i with hk | ⟨x, y, hu, ht⟩
  · rw [hk]
    rfl
  · rw [hu, ht]
    rfl

theorem spells {P : Part} (hw : t.Spells P w) : u.Spells P w :=
  h.outline.spells (fun i n hn => by rwa [h.wildcardSet]) hw

theorem spells_iff {P : Part} : u.Spells P w ↔ t.Spells P w := ⟨h.symm.spells, h.spells⟩

theorem derives (hw : t.Derives v w) : u.Derives v w :=
  h.outline.derives (fun i n hn => by rwa [h.wildcardSet]) hw

theorem derives_iff : u.Derives v w ↔ t.Derives v w := ⟨h.symm.derives, h.derives⟩

theorem within (hi : t.Within a i) : u.Within a i := h.outline.within hi

theorem within_iff : u.Within a i ↔ t.Within a i := h.outline.within_iff

theorem formed (ht : t.Formed) : u.Formed := h.outline.formed ht

theorem wild (ht : t.Wild) : u.Wild := by
  intro i set hk
  obtain ⟨b, hb, hs⟩ := ht i set ((h.any i set).mp hk)
  exact ⟨b, h.terminals ▸ hb, by rw [h.index]; exact hs⟩

end SameGrammar

end Table

end Lookahead
