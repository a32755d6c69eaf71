import Lookahead.Analysis.Deletable
import Lookahead.Proofs.Derivation
import Lookahead.Proofs.Marks

/-!
# Deletability is exact

The walks of `Graph.nodeDeletable`, `Graph.groupDeletable` and `Graph.restDeletable` decide, given
marks on nonterminals, whether a part of a production spells a form of marked nonterminals
(`Table.Vanishes`). Rounds of marking stop where no production calls for another mark
(`Table.Rounds.settled`), and then the marked nonterminals are those that derive the empty form
(`Table.Formed.exact_computeDeletable`).
-/

namespace Lookahead

namespace Table

/-- The part spells a form of nonterminals that meet `D`. -/
def Vanishes (t : Table) (D : SymbolId → Prop) (P : Part) : Prop :=
  ∃ w, t.Spells P w ∧ ∀ c ∈ w, ∃ a, c = .nonterminal a ∧ D a

variable {t u : Table} {D : SymbolId → Prop} {a b : SymbolId} {i j r : NodeId} {p q : Option NodeId}

/-! ### What vanishes -/

theorem vanishes_append {w : Form} {v : Form} : (∀ c ∈ v ++ w, ∃ a, c = .nonterminal a ∧ D a) ↔
    (∀ c ∈ v, ∃ a, c = .nonterminal a ∧ D a) ∧ ∀ c ∈ w, ∃ a, c = .nonterminal a ∧ D a := by
  simp only [List.mem_append, or_imp, forall_and]

theorem vanishes_rest_none : t.Vanishes D (.rest none) := ⟨[], .restEnd, by simp⟩

theorem vanishes_group_none : t.Vanishes D (.group none) := ⟨[], .groupEnd, by simp⟩

theorem vanishes_rest_some : t.Vanishes D (.rest (some i)) ↔
    t.Vanishes D (.node i) ∧ t.Vanishes D (.rest (t.graph.next i)) := by
  refine ⟨?_, ?_⟩
  · rintro ⟨w, hw, hd⟩
    obtain ⟨u, v, rfl, hu, hv⟩ := spells_rest_some.mp hw
    rw [vanishes_append] at hd
    exact ⟨⟨u, hu, hd.1⟩, v, hv, hd.2⟩
  · rintro ⟨⟨u, hu, hud⟩, v, hv, hvd⟩
    exact ⟨u ++ v, .restStep hu hv, vanishes_append.mpr ⟨hud, hvd⟩⟩

theorem vanishes_group_some : t.Vanishes D (.group (some i)) ↔ t.Vanishes D (.node i) ∧
    ((t.graph.node i).up = true ∨ t.Vanishes D (.group (t.graph.next i))) := by
  cases hup : (t.graph.node i).up with
  | true => simp only [Vanishes, spells_group_last hup, true_or, and_true]
  | false =>
    simp only [Bool.false_eq_true, false_or]
    refine ⟨?_, ?_⟩
    · rintro ⟨w, hw, hd⟩
      obtain ⟨u, v, rfl, hu, hv⟩ := (spells_group_step hup).mp hw
      rw [vanishes_append] at hd
      exact ⟨⟨u, hu, hd.1⟩, v, hv, hd.2⟩
    · rintro ⟨⟨u, hu, hud⟩, v, hv, hvd⟩
      exact ⟨u ++ v, .groupStep hup hu hv, vanishes_append.mpr ⟨hud, hvd⟩⟩

/-- When a node vanishes, by its kind. -/
theorem vanishes_node : t.Vanishes D (.node i) ↔ match t.graph.kind i with
    | .nonterminal a => D a
    | .alt sub down => t.Vanishes D (.group (some sub)) ∨ ∃ q ∈ down, t.Vanishes D (.node q)
    | .iter _ | .opt _ | .action | .empty | .resolver | .sync _ => True
    | _ => False := by
  refine ⟨?_, ?_⟩
  · rintro ⟨w, hw, hd⟩
    cases hw with
    | terminal hk | weak hk | any hk => simp at hd
    | nonterminal hk =>
      rw [hk]
      simpa using hd
    | blank hk =>
      generalize t.graph.kind i = k at hk ⊢
      cases k <;> trivial
    | skip hk | stop hk | again hk | content hk => rw [hk]; trivial
    | alternative hk hu =>
      rw [hk]
      exact .inl ⟨w, hu, hd⟩
    | other hk hu =>
      rw [hk]
      exact .inr ⟨_, rfl, w, hu, hd⟩
  · intro h
    cases hk : t.graph.kind i <;> simp only [hk] at h
    case nonterminal a => exact ⟨_, .nonterminal hk, by simpa using h⟩
    case alt sub down =>
      rcases h with ⟨w, hw, hd⟩ | ⟨q, hq, w, hw, hd⟩
      · exact ⟨w, .alternative hk hw, hd⟩
      · cases hq
        exact ⟨w, .other hk hw, hd⟩
    case iter sub => exact ⟨[], .stop hk, by simp⟩
    case opt sub => exact ⟨[], .skip hk, by simp⟩
    all_goals exact ⟨[], .blank (by rw [hk]; rfl), by simp⟩

/-! ### The walks -/

variable {del : SymbolId → Bool} {s : Shape} {up : Bool} {fuel : Nat}

/-- A further alternative is a group of its own. -/
theorem vanishes_other (hs : s.Fits t.graph (· = q) true) (ho : s.IsOther t.graph)
    (hj : s.entry = some j) : t.Vanishes D (.group (some j)) ↔ t.Vanishes D (.node j) := by
  cases s with
  | nil => cases hj
  | node k l b o x =>
    cases hj
    obtain ⟨rfl, -⟩ := ho
    have hup : (t.graph.node j).up = true := hs.2.1.of_nil.2
    rw [vanishes_group_some, hup]
    simp

theorem groupDeletableFrom_iff (del : SymbolId → Bool) (hs : s.Fits t.graph (· = q) up)
    (hq : up = false → q = none)
    (hf : s.nodes.length < fuel) : t.graph.groupDeletableFrom del fuel s.entry = true ↔
      t.Vanishes (del · = true) (.group s.entry) := by
  induction s generalizing q up fuel with
  | nil =>
    obtain ⟨fuel, rfl⟩ : ∃ n, fuel = n + 1 := ⟨fuel - 1, by omega⟩
    simp [Shape.entry, Graph.groupDeletableFrom, vanishes_group_none]
  | node i l b o x ihb iho ihx =>
    obtain ⟨fuel, rfl⟩ : ∃ n, fuel = n + 1 := ⟨fuel - 1, by omega⟩
    simp only [Shape.nodes, List.length_cons, List.length_append] at hf
    have hnext := hs.next_eq
    obtain ⟨hr, hl, hb, ho, hx⟩ := hs
    rw [Shape.after_eq] at hb ho
    have hnode : (match t.graph.kind i with
        | .nonterminal s => del s
        | .alt sub down => t.graph.groupDeletableFrom del fuel (some sub) ||
            (down.isSome && t.graph.groupDeletableFrom del fuel down)
        | .iter _ | .opt _ | .action | .empty | .resolver | .sync _ => true
        | _ => false) = true ↔ t.Vanishes (del · = true) (.node i) := by
      rw [vanishes_node]
      cases hk : t.graph.kind i <;> rw [hk] at hr <;> try simp
      case alt sub down =>
        obtain ⟨rfl, hbe, hoe, hoo⟩ := hr
        have hb := @ihb _ _ fuel (by simpa using hb) (by simp) (by omega)
        have ho' := @iho _ _ fuel ho (by simp) (by omega)
        rw [hbe] at hb
        rw [hoe] at ho'
        rw [hb]
        refine or_congr_right ?_
        cases down with
        | none => simp
        | some j => simp [ho', vanishes_other ho hoo hoe]
    have hrest : ((t.graph.node i).up || t.graph.groupDeletableFrom del fuel (t.graph.next i)) =
        true ↔ (t.graph.node i).up = true ∨
          t.Vanishes (del · = true) (.group (t.graph.next i)) := by
      rw [Bool.or_eq_true]
      refine or_congr_right' fun hup => ?_
      by_cases hxn : x = .nil
      · subst hxn
        have : up = false := by simpa [hl.of_nil.2] using hup
        rw [hl.of_nil.1, hq this]
        obtain ⟨fuel, rfl⟩ : ∃ n, fuel = n + 1 := ⟨fuel - 1, by omega⟩
        simp [Graph.groupDeletableFrom, vanishes_group_none]
      · rw [(hl.of_ne hxn).1]
        exact ihx hx hq (by omega)
    rw [Shape.entry, vanishes_group_some, Graph.groupDeletableFrom]
    rw [Bool.and_eq_true]
    exact and_congr hnode hrest

section

variable (hs : t.graph.Closed r s)
include hs

theorem length_nodes_lt {b : Shape} (hb : b.nodes.Sublist s.nodes) :
    b.nodes.length < t.graph.size + 1 := by
  have := Graph.length_le_of_nodup (hs.nodup.sublist hb) fun j hj => hs.lt j (hb.subset hj)
  omega

variable (hi : i ∈ s.nodes)
include hi

/-- The walk through a group, from any of its nodes on. -/
theorem groupDeletable_iff :
    t.graph.groupDeletable del (some i) = true ↔ t.Vanishes (del · = true) (.group (some i)) := by
  obtain ⟨l, b, o, x, q, vp, hf, hn, hv⟩ := hs.fits.exists_node hi
  exact groupDeletableFrom_iff del hf (fun h => (hv h).1) (length_nodes_lt hs hn)

/-- The walk through one node of a production. -/
theorem nodeDeletable_iff :
    t.graph.nodeDeletable del i = true ↔ t.Vanishes (del · = true) (.node i) := by
  obtain ⟨l, b, o, x, q, vp, hp⟩ := hs.exists_placed hi
  have hr := hp.refers
  rw [vanishes_node]
  unfold Graph.nodeDeletable
  cases hk : t.graph.kind i <;> rw [hk] at hr <;> try simp
  case alt sub down =>
    obtain ⟨rfl, hbe, hoe, hoo⟩ := hr
    have hsub : sub ∈ b.nodes := Shape.mem_nodes_of_entry hbe
    have hb : t.graph.groupDeletable del (some sub) = true ↔
        t.Vanishes (del · = true) (.group (some sub)) :=
      groupDeletable_iff hs (hp.sublist.subset (by simp [Shape.nodes, hsub]))
    have hos : o.nodes.Sublist s.nodes := (((List.sublist_append_left ..).trans
      (List.sublist_append_right ..)).cons i).trans hp.sublist
    have ho := groupDeletableFrom_iff del hp.others (by simp) (length_nodes_lt hs hos)
    rw [hoe] at ho
    refine or_congr hb ?_
    cases down with
    | none => simp
    | some j =>
      simp only [Option.isSome_some, true_and, Option.some.injEq, exists_eq_left']
      exact ho.trans (vanishes_other hp.others hoo hoe)

theorem restDeletable_iff :
    t.graph.restDeletable del (some i) = true ↔ t.Vanishes (del · = true) (.rest (some i)) := by
  obtain ⟨L, hL, hd, hm⟩ := hs.exists_chain hi
  have hlt := Graph.length_le_of_nodup hd fun j hj => hs.lt j (hm j hj)
  have hwalk : ∀ {p L fuel}, Graph.Chain t.graph.next p L → (∀ j ∈ L, j ∈ s.nodes) →
      L.length < fuel → (t.graph.restDeletableFrom del fuel p = true ↔
        t.Vanishes (del · = true) (.rest p)) := by
    intro p L fuel hL hm hf
    induction L generalizing p fuel with
    | nil =>
      cases hL
      obtain ⟨fuel, rfl⟩ : ∃ n, fuel = n + 1 := ⟨fuel - 1, by omega⟩
      simp [Graph.restDeletableFrom, vanishes_rest_none]
    | cons j L ih =>
      obtain ⟨rfl, hL⟩ := hL
      obtain ⟨fuel, rfl⟩ : ∃ n, fuel = n + 1 := ⟨fuel - 1, by omega⟩
      rw [Graph.restDeletableFrom, Bool.and_eq_true, vanishes_rest_some,
        nodeDeletable_iff hs (hm j (by simp)),
        ih hL (fun k hk => hm k (by simp [hk])) (by simpa using hf)]
  exact hwalk hL hm (by omega)

end

/-! ### Marks -/

/-- The marks are those of the nonterminals that derive the empty form. -/
def Exact (t : Table) : Prop :=
  ∀ a ∈ t.nonterminals, t.isDeletable a = true ↔ t.Derives [.nonterminal a] []

/-- Every mark is one of a nonterminal that derives the empty form. -/
def Marked (t : Table) : Prop :=
  ∀ a, t.isDeletable a = true → t.Derives [.nonterminal a] []

/-- The production of `a` does not call for another mark. -/
def Settled (t : Table) (a : SymbolId) : Prop :=
  ∀ r, (t.symbol a).root = some r → t.restDeletable (some r) = true → t.isDeletable a = true

theorem derives_nil_of_vanishes {P : Part} (h : t.Vanishes D P)
    (hD : ∀ a, D a → t.Derives [.nonterminal a] []) : ∃ w, t.Spells P w ∧ t.Derives w [] := by
  obtain ⟨w, hw, hd⟩ := h
  refine ⟨w, hw, derives_nil_iff.mpr fun c hc => ?_⟩
  obtain ⟨a, rfl, ha⟩ := hd c hc
  exact hD a ha

theorem Formed.restDeletable_root_iff (ht : t.Formed) (hr : (t.symbol a).root = some r) :
    t.restDeletable (some r) = true ↔ t.Vanishes (t.isDeletable · = true) (.rest (some r)) := by
  obtain ⟨s, hs⟩ := ht.laid a r hr
  exact restDeletable_iff hs (Shape.mem_nodes_of_entry hs.entry)

/-- Where no production calls for another mark, all that derive the empty form are marked. -/
theorem Formed.isDeletable_of_settled (ht : t.Formed) (hs : ∀ a ∈ t.nonterminals, Settled t a)
    {w : Form} (hw : ∀ a, .nonterminal a ∈ w → a ∈ t.nonterminals) (h : t.Derives w []) :
    ∀ c ∈ w, ∃ a, c = .nonterminal a ∧ t.isDeletable a = true := by
  induction h using Relation.ReflTransGen.head_induction_on with
  | refl => simp
  | head hstep _ ih =>
    have ih := ih (hstep.mem_nonterminals ht.allows hw)
    obtain @⟨x, a, u, y, r, hr, hu⟩ := hstep
    simp only [vanishes_append] at ih
    have hv : t.Vanishes (t.isDeletable · = true) (.rest (some r)) := ⟨u, hu, ih.2.1⟩
    have ha := hs a (hw a (by simp)) r hr ((ht.restDeletable_root_iff hr).mpr hv)
    intro c hc
    simp only [List.mem_append, List.mem_cons] at hc
    rcases hc with hc | rfl | hc
    · exact ih.1 c hc
    · exact ⟨a, rfl, ha⟩
    · exact ih.2.2 c hc

theorem Formed.exact_of_settled (ht : t.Formed) (hm : Marked t)
    (hs : ∀ a ∈ t.nonterminals, Settled t a) : Exact t := by
  refine fun a ha => ⟨hm a, fun h => ?_⟩
  have := ht.isDeletable_of_settled hs (w := [.nonterminal a]) (by simpa using ha) h
  simpa using this

/-! ### Rounds -/

theorem sameGrammar_markDeletable (t : Table) (a : SymbolId) :
    SameGrammar t (t.markDeletable a) := by
  simp only [markDeletable]
  split
  · exact .modifySymbol t a (fun _ => rfl) (fun _ => rfl) fun _ => rfl
  · exact .refl t

theorem isDeletable_modify (t : Table) (a b : SymbolId) :
    (t.modifySymbol a fun s => { s with deletable := true }).isDeletable b =
      if a = b ∧ b < t.symbols.size then true else t.isDeletable b := by
  rw [isDeletable, symbol_modifySymbol]
  split <;> rfl

theorem marked_markDeletable (ht : t.Formed) (hm : Marked t) (a : SymbolId) :
    Marked (t.markDeletable a) := by
  have hsame := sameGrammar_markDeletable t a
  intro b hb
  refine hsame.derives ?_
  simp only [markDeletable] at hb
  split at hb
  · rename_i hc
    simp only [Bool.and_eq_true, Option.isSome_iff_exists] at hc
    obtain ⟨⟨-, r, hr⟩, hdel⟩ := hc
    rw [isDeletable_modify] at hb
    split at hb
    · rename_i hab
      rw [hr, ht.restDeletable_root_iff hr] at hdel
      obtain ⟨w, hw, hn⟩ := derives_nil_of_vanishes hdel hm
      rw [← hab.1]
      exact (Derives.of_produces ⟨r, hr, hw⟩).trans hn
    · exact hm b hb
  · exact hm b hb

/-- Marking a nonterminal either is not called for or gives one mark more. -/
theorem markDeletable_cases (ht : t.Formed) (ha : a ∈ t.nonterminals) :
    t.markDeletable a = t ∧ Settled t a ∨
      t.deletableCount < (t.markDeletable a).deletableCount := by
  have hlt := ((ht.registered.mem .nonterminal a).mp ha).1
  simp only [markDeletable]
  split
  · rename_i hc
    right
    simp only [Bool.and_eq_true, Bool.not_eq_true'] at hc
    simp only [deletableCount, nonterminalSymbols, List.countP_map]
    refine countP_lt_countP (fun b _ hb => ?_) (Array.mem_toList_iff.mpr ha) hc.1.1 ?_
    · have := isDeletable_modify t a b
      simp only [isDeletable] at this
      simp only [Function.comp_apply, this] at hb ⊢
      split
      · rfl
      · exact hb
    · have := isDeletable_modify t a a
      rw [if_pos ⟨rfl, hlt⟩] at this
      exact this
  · rename_i hc
    refine .inl ⟨rfl, fun r hr hd => ?_⟩
    by_contra hn
    rw [hr] at hc
    simp only [isDeletable, Bool.not_eq_true] at hn
    simp [hn, hd] at hc

/-- A round either finds everything settled and changes nothing, or gives more marks. -/
theorem round_cases (ht : t.Formed) {l : List SymbolId} (hl : ∀ a ∈ l, a ∈ t.nonterminals) :
    l.foldl markDeletable t = t ∧ (∀ a ∈ l, Settled t a) ∨
      t.deletableCount < (l.foldl markDeletable t).deletableCount := by
  induction l generalizing t with
  | nil => simp
  | cons a l ih =>
    have hsame := sameGrammar_markDeletable t a
    have ih := ih (hsame.formed ht) fun b hb => by
      rw [hsame.nonterminals]
      exact hl b (by simp [hb])
    rw [List.foldl_cons]
    rcases markDeletable_cases ht (hl a (by simp)) with ⟨he, hs⟩ | hlt
    · rw [he] at ih ⊢
      refine ih.imp_left fun h => ⟨h.1, ?_⟩
      simpa using ⟨hs, h.2⟩
    · rcases ih with ⟨he, -⟩ | h
      · rw [he]
        exact .inr hlt
      · exact .inr (hlt.trans h)

theorem sameGrammar_foldl {f : Table → SymbolId → Table} (hf : ∀ t a, SameGrammar t (f t a))
    (l : List SymbolId) (t : Table) : SameGrammar t (l.foldl f t) := by
  induction l generalizing t with
  | nil => exact .refl t
  | cons a l ih => exact (hf t a).trans (ih (f t a))

theorem marked_foldl (ht : t.Formed) (hm : Marked t) (l : List SymbolId) :
    Marked (l.foldl markDeletable t) := by
  induction l generalizing t with
  | nil => exact hm
  | cons a l ih =>
    exact ih ((sameGrammar_markDeletable t a).formed ht) (marked_markDeletable ht hm a)

theorem sameGrammar_round (t : Table) : SameGrammar t t.deletableRound :=
  sameGrammar_foldl sameGrammar_markDeletable _ t

theorem marked_round (ht : t.Formed) (hm : Marked t) : Marked t.deletableRound :=
  marked_foldl ht hm _

/-- The table `u` is what `n` rounds of marking make of `t`: each of them changes something, and one
more does not. -/
structure Rounds (t u : Table) (n : Nat) : Prop where
  iterate : u = deletableRound^[n] t
  stable : u.deletableRound = u
  progress : ∀ m < n, deletableRound^[m + 1] t ≠ deletableRound^[m] t

theorem Rounds.cons {n : Nat} (h : Rounds t.deletableRound u n) (hne : t.deletableRound ≠ t) :
    Rounds t u (n + 1) where
  iterate := h.iterate
  stable := h.stable
  progress m hm := by
    rcases m with _ | m
    · exact hne
    · exact h.progress m (Nat.lt_of_succ_lt_succ hm)

theorem deletableCount_le (t : Table) : t.deletableCount ≤ t.nonterminalCount := by
  have : t.deletableCount ≤ t.nonterminalSymbols.length := List.countP_le_length
  simpa [nonterminalSymbols, nonterminalCount] using this

/-- Marking stops by itself. There cannot be more rounds than nonterminals that are still to be
marked. -/
theorem rounds_closeDeletable (fuel : Nat) (ht : t.Formed)
    (hf : t.nonterminalCount < t.deletableCount + fuel) :
    ∃ n, t.deletableCount + n ≤ t.nonterminalCount ∧ Rounds t (closeDeletable fuel t) n := by
  induction fuel generalizing t with
  | zero => exact absurd hf (Nat.not_lt_of_le t.deletableCount_le)
  | succ fuel ih =>
    have hsame := sameGrammar_round t
    simp only [closeDeletable]
    rcases round_cases ht (l := t.nonterminals.toList) (by simp) with ⟨he, -⟩ | hlt
    · have he : t.deletableRound = t := he
      rw [he, if_pos rfl]
      exact ⟨0, t.deletableCount_le, rfl, he, nofun⟩
    · change t.deletableCount < t.deletableRound.deletableCount at hlt
      rw [if_neg (Nat.ne_of_gt hlt)]
      have hn : t.deletableRound.nonterminalCount = t.nonterminalCount :=
        congrArg Array.size hsame.nonterminals
      obtain ⟨n, hle, h⟩ := ih (hsame.formed ht) (by omega)
      exact ⟨n + 1, by omega, h.cons fun he => Nat.lt_irrefl _ (he ▸ hlt)⟩

/-- Rounds of marking end where every nonterminal is settled. -/
theorem Rounds.settled {n : Nat} (h : Rounds t u n) (ht : t.Formed) (hm : Marked t) :
    SameGrammar t u ∧ Marked u ∧ ∀ a ∈ t.nonterminals, Settled u a := by
  have hiter (n : Nat) :
      SameGrammar t (deletableRound^[n] t) ∧ Marked (deletableRound^[n] t) := by
    induction n with
    | zero => exact ⟨.refl t, hm⟩
    | succ n ih =>
      rw [Function.iterate_succ_apply']
      exact ⟨ih.1.trans (sameGrammar_round _), marked_round (ih.1.formed ht) ih.2⟩
  obtain ⟨hsame, hmark⟩ := hiter n
  rw [← h.iterate] at hsame hmark
  refine ⟨hsame, hmark, ?_⟩
  rw [← hsame.nonterminals]
  rcases round_cases (hsame.formed ht) (l := u.nonterminals.toList) (by simp) with ⟨-, hs⟩ | hlt
  · simpa using hs
  · change u.deletableCount < u.deletableRound.deletableCount at hlt
    rw [h.stable] at hlt
    exact absurd hlt (Nat.lt_irrefl _)

/-- The marks of `computeDeletable` are exact. -/
theorem Formed.exact_computeDeletable (ht : t.Formed) (hd : ∀ a, (t.symbol a).deletable = false) :
    SameGrammar t t.computeDeletable.value ∧ Exact t.computeDeletable.value := by
  obtain ⟨n, -, h⟩ := rounds_closeDeletable (t.nonterminalCount + 1) ht (by omega)
  obtain ⟨h₁, h₂, h₃⟩ := h.settled ht fun a ha => by simp [isDeletable, hd] at ha
  refine ⟨h₁, (h₁.formed ht).exact_of_settled h₂ ?_⟩
  rw [h₁.nonterminals]
  exact h₃

/-! ### What exact marks tell -/

section

variable (ht : t.Formed) (he : Exact t) (hi : t.Within a i)
include ht he

theorem Exact.vanishes_iff {P : Part} : t.Vanishes (t.isDeletable · = true) P ↔
    ∃ w, t.Spells P w ∧ t.Derives w [] := by
  refine exists_congr fun w => and_congr_right fun hw => ?_
  rw [derives_nil_iff]
  refine forall₂_congr fun c hc => ?_
  refine ⟨?_, ?_⟩
  · rintro ⟨a, rfl, ha⟩
    exact (he a (hw.mem_nonterminals ht.allows a hc)).mp ha
  · intro h
    cases c with
    | terminal b => exact absurd (derives_terminal h) (by simp)
    | nonterminal a => exact ⟨a, rfl, (he a (hw.mem_nonterminals ht.allows a hc)).mpr h⟩

include hi

theorem Exact.nodeDeletable_iff :
    t.nodeDeletable i = true ↔ ∃ w, t.Spells (.node i) w ∧ t.Derives w [] := by
  obtain ⟨r, s, -, hs, hi⟩ := ht.within_iff.mp hi
  exact (Table.nodeDeletable_iff hs hi).trans (he.vanishes_iff ht)

theorem Exact.groupDeletable_iff :
    t.groupDeletable (some i) = true ↔ ∃ w, t.Spells (.group (some i)) w ∧ t.Derives w [] := by
  obtain ⟨r, s, -, hs, hi⟩ := ht.within_iff.mp hi
  exact (Table.groupDeletable_iff hs hi).trans (he.vanishes_iff ht)

omit hi in
/-- The rest of a production is deletable if it spells something that vanishes. -/
theorem Exact.restDeletable_iff {p : Option NodeId} (hp : ∀ i ∈ p, t.Within a i) :
    t.restDeletable p = true ↔ ∃ w, t.Spells (.rest p) w ∧ t.Derives w [] := by
  cases p with
  | none =>
    simp only [spells_rest_none, exists_eq_left, Derives.refl, iff_true]
    unfold restDeletable Graph.restDeletable
    simp [Graph.restDeletableFrom]
  | some i =>
    obtain ⟨r, s, -, hs, hi⟩ := ht.within_iff.mp (hp i rfl)
    exact (Table.restDeletable_iff hs hi).trans (he.vanishes_iff ht)

end

/-- All that is said about deletability: that of the nonterminals, and, at any node, that of what is
left of the production and of the innermost group. -/
structure DeletableExact (t : Table) : Prop where
  nonterminal : ∀ a ∈ t.nonterminals, t.isDeletable a = true ↔ t.Derives [.nonterminal a] []
  rest : ∀ a i, t.Within a i → (t.restDeletable (some i) = true ↔
    ∃ w, t.Spells (.rest (some i)) w ∧ t.Derives w [])
  group : ∀ a i, t.Within a i → (t.groupDeletable (some i) = true ↔
    ∃ w, t.Spells (.group (some i)) w ∧ t.Derives w [])

theorem Exact.deletableExact (he : Exact t) (ht : t.Formed) : t.DeletableExact where
  nonterminal := he
  rest _ _ hi := he.restDeletable_iff ht fun _ hj => Option.some.inj hj ▸ hi
  group _ _ hi := he.groupDeletable_iff ht hi

open Classical in
/-- A note for each nonterminal that derives the empty form, in the order of declaration. -/
noncomputable def deletableNotes (t : Table) : List Event :=
  (t.nonterminals.toList.filter fun a => t.Derives [.nonterminal a] []).map fun a =>
    .report (.note (.deletable (t.symbol a).name))

open Classical in
theorem events_computeDeletable (he : Exact t.computeDeletable.value) :
    t.computeDeletable.events = t.computeDeletable.value.deletableNotes := by
  simp only [computeDeletable] at he ⊢
  generalize closeDeletable (t.nonterminalCount + 1) t = u at he ⊢
  rw [nonterminalSymbols, List.filter_map, List.map_map, deletableNotes]
  refine congrArg _ (List.filter_congr fun a ha => ?_)
  have := he a (Array.mem_toList_iff.mp ha)
  rw [Bool.eq_iff_iff, decide_eq_true_eq]
  exact this

end Table

namespace Grammar

variable {source : String} {cfg : Config} {log : Log} {g : Grammar}

/-- The deletable nonterminals of a grammar are those that derive the empty form. They are found in
at most one round for each nonterminal and one more, and are noted one by one. -/
theorem deletableExact_of_parse (h : (Grammar.parse source cfg log).2 = .ok g) :
    g.table.computeDeletable.value.DeletableExact ∧
      (∃ n ≤ g.table.nonterminalCount, g.table.Rounds g.table.computeDeletable.value n) ∧
      g.table.computeDeletable.events = g.table.computeDeletable.value.deletableNotes := by
  obtain ⟨ht, hd, -⟩ := formed_parse h
  obtain ⟨hsame, he⟩ := ht.exact_computeDeletable hd
  obtain ⟨n, hn, hrounds⟩ :=
    Table.rounds_closeDeletable (g.table.nonterminalCount + 1) ht (by omega)
  exact ⟨he.deletableExact (hsame.formed ht), ⟨n, by omega, hrounds⟩,
    Table.events_computeDeletable he⟩

/-- Lists of items, which are found to be deletable from the last nonterminal to the first. -/
def lists : String :=
  "COMPILER Lists\nPRODUCTIONS\nLists = Items [\".\"].\nItems = \x7b Item \x7d Tail.\n" ++
    "Item = \"x\" | Tail Tail \"y\".\nTail = | \",\" Items.\nEND Lists."

set_option maxRecDepth 100000 in
theorem parse_lists : ∃ g, (Grammar.parse lists default {}).2 = .ok g := by
  obtain ⟨g, hg, -⟩ := exists_ok_of_any (x := (Grammar.parse lists default {}).2)
    (P := fun _ => true) (by decide +kernel)
  exact ⟨g, hg⟩

theorem deletableExact_lists : ∃ g, (Grammar.parse lists default {}).2 = .ok g ∧
    g.table.computeDeletable.value.DeletableExact ∧
      (∃ n ≤ g.table.nonterminalCount, g.table.Rounds g.table.computeDeletable.value n) ∧
      g.table.computeDeletable.events = g.table.computeDeletable.value.deletableNotes := by
  obtain ⟨g, hg⟩ := parse_lists
  exact ⟨g, hg, deletableExact_of_parse hg⟩

end Grammar

end Lookahead
