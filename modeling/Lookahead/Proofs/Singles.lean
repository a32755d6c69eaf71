import Lookahead.Check.Structure
import Lookahead.Proofs.Deletable

/-!
# What a nonterminal derives alone

A nonterminal derives another one alone in one step if its production spells a form with the other
one in it, and all that stands around it derives the empty form (`Table.SingleStep`). The walk of
`Table.singlesFrom` asks at every node whether what precedes and what follows vanishes, and so it
finds these nonterminals and no others (`Table.mem_singleSteps_iff`). A nonterminal that derives a
form of one nonterminal gets there by such steps (`Table.transGen_rewrites_iff`).
-/

namespace Lookahead

namespace Table

/-- All of the form but an occurrence of `b` derives the empty form. -/
def Isolates (t : Table) (w : Form) (b : SymbolId) : Prop :=
  ∃ x y, w = x ++ .nonterminal b :: y ∧ t.Derives x [] ∧ t.Derives y []

/-- The part spells a form that derives the empty form. -/
def Nullable (t : Table) (P : Part) : Prop := ∃ w, t.Spells P w ∧ t.Derives w []

/-- The part spells a form in which all but an occurrence of `b` derives the empty form. -/
def Leaves (t : Table) (P : Part) (b : SymbolId) : Prop := ∃ w, t.Spells P w ∧ t.Isolates w b

/-- A right-hand side of `a` has `b` in it, and all that stands around it derives the empty form. -/
def SingleStep (t : Table) (a b : SymbolId) : Prop := ∃ w, t.Produces a w ∧ t.Isolates w b

variable {t : Table} {a b c : SymbolId} {i : NodeId} {u v w : Form}

/-! ### Forms -/

theorem derives_append_nil : t.Derives (u ++ v) [] ↔ t.Derives u [] ∧ t.Derives v [] := by
  simp only [derives_nil_iff (w := u ++ v), derives_nil_iff (w := u), derives_nil_iff (w := v),
    List.mem_append, or_imp, forall_and]

theorem not_isolates_nil : ¬ t.Isolates [] b := by
  rintro ⟨x, y, h, -⟩
  simp at h

theorem singleton_eq_append_cons {x y : Form} :
    [Letter.nonterminal a] = x ++ .nonterminal b :: y ↔ x = [] ∧ a = b ∧ y = [] := by
  cases x <;> cases y <;> simp

theorem isolates_singleton : t.Isolates [.nonterminal a] b ↔ a = b := by
  refine ⟨?_, ?_⟩
  · rintro ⟨x, y, h, -⟩
    exact (singleton_eq_append_cons.mp h).2.1
  · rintro rfl
    exact ⟨[], [], rfl, .refl _, .refl _⟩

theorem not_isolates_terminal : ¬ t.Isolates [.terminal a] b := by
  rintro ⟨x, y, h, -⟩
  cases x <;> simp at h

/-- What is left over stands in one of two parts, and the other one vanishes. -/
theorem isolates_append : t.Isolates (u ++ v) b ↔
    t.Isolates u b ∧ t.Derives v [] ∨ t.Derives u [] ∧ t.Isolates v b := by
  refine ⟨?_, ?_⟩
  · rintro ⟨x, y, h, hx, hy⟩
    rcases List.append_eq_append_iff.mp h with ⟨z, rfl, rfl⟩ | ⟨z, rfl, hz⟩
    · obtain ⟨hu, hz⟩ := derives_append_nil.mp hx
      exact .inr ⟨hu, z, y, rfl, hz, hy⟩
    · rcases z with _ | ⟨d, z⟩
      · exact .inr ⟨by simpa using hx, [], y, hz.symm, .refl _, hy⟩
      · obtain ⟨rfl, rfl⟩ : Letter.nonterminal b = d ∧ y = z ++ v := by simpa using hz
        obtain ⟨hz, hv⟩ := derives_append_nil.mp hy
        exact .inl ⟨⟨x, z, rfl, hx, hz⟩, hv⟩
  · rintro (⟨⟨x, y, rfl, hx, hy⟩, hv⟩ | ⟨hu, x, y, rfl, hx, hy⟩)
    · exact ⟨x, y ++ v, by simp, hx, derives_append_nil.mpr ⟨hy, hv⟩⟩
    · exact ⟨u ++ x, y, by simp, derives_append_nil.mpr ⟨hu, hx⟩, hy⟩

theorem Isolates.derives (h : t.Isolates w b) : t.Derives w [.nonterminal b] := by
  obtain ⟨x, y, rfl, hx, hy⟩ := h
  simpa using hx.append ((Derives.refl [.nonterminal b]).append hy)

/-! ### Derivation by single steps -/

/-- A form that derives a nonterminal has one in it from which single steps lead there. -/
theorem exists_isolates_of_derives (h : t.Derives w [.nonterminal b]) :
    ∃ c, t.Isolates w c ∧ Relation.ReflTransGen t.SingleStep c b := by
  induction h using Relation.ReflTransGen.head_induction_on with
  | refl => exact ⟨b, isolates_singleton.mpr rfl, .refl⟩
  | head hstep _ ih =>
    obtain @⟨x, a, v, y, hv⟩ := hstep
    obtain ⟨c, hc, hcb⟩ := ih
    rw [show x ++ Letter.nonterminal a :: y = x ++ ([.nonterminal a] ++ y) from rfl]
    simp only [isolates_append, derives_append_nil, isolates_singleton] at hc ⊢
    have ha : t.Derives v [] → t.Derives [.nonterminal a] [] := (Derives.of_produces hv).trans
    rcases hc with ⟨hx, hv', hy⟩ | ⟨hx, ⟨hvc, hy⟩ | ⟨hv', hy⟩⟩
    · exact ⟨c, .inl ⟨hx, ha hv', hy⟩, hcb⟩
    · exact ⟨a, .inr ⟨hx, .inl ⟨rfl, hy⟩⟩, .head ⟨v, hv, hvc⟩ hcb⟩
    · exact ⟨c, .inr ⟨hx, .inr ⟨ha hv', hy⟩⟩, hcb⟩

/-- A nonterminal derives another one alone by a chain of single steps. -/
theorem transGen_rewrites_iff :
    Relation.TransGen t.Rewrites [.nonterminal a] [.nonterminal b] ↔
      Relation.TransGen t.SingleStep a b := by
  refine ⟨fun h => ?_, fun h => ?_⟩
  · obtain ⟨w, hstep, hw⟩ := Relation.TransGen.head'_iff.mp h
    generalize hz : [Letter.nonterminal a] = z at hstep
    obtain @⟨x, d, v, y, hv⟩ := hstep
    obtain ⟨rfl, rfl, rfl⟩ := singleton_eq_append_cons.mp hz
    obtain ⟨c, hc, hcb⟩ := exists_isolates_of_derives hw
    exact Relation.TransGen.head' ⟨v, hv, by simpa using hc⟩ hcb
  · refine Relation.TransGen.lift' (fun c => [Letter.nonterminal c]) (fun c d hcd => ?_) _ _ h
    obtain ⟨w, hw, hd⟩ := hcd
    have hstep := Rewrites.intro [] [] hw
    simp only [List.nil_append, List.append_nil] at hstep
    exact Relation.TransGen.head' hstep hd.derives

/-! ### What the parts of a production leave -/

theorem leaves_node : t.Leaves (.node i) b ↔ match t.graph.kind i with
    | .nonterminal c => c = b
    | .alt sub down => t.Leaves (.group (some sub)) b ∨ ∃ q ∈ down, t.Leaves (.node q) b
    | .iter sub | .opt sub => t.Leaves (.group (some sub)) b
    | _ => False := by
  refine ⟨?_, ?_⟩
  · rintro ⟨w, hw, hb⟩
    generalize hP : Part.node i = P at hw
    induction hw with
    | terminal | weak | any => exact absurd hb not_isolates_terminal
    | blank | skip | stop => exact absurd hb not_isolates_nil
    | nonterminal hk =>
      cases hP
      rw [hk]
      exact isolates_singleton.mp hb
    | content hk hu =>
      cases hP
      rw [hk]
      exact ⟨_, hu, hb⟩
    | again hk hu _ _ ihv =>
      cases hP
      -- one of the contents is left over, the others vanish
      rcases isolates_append.mp hb with ⟨hub, -⟩ | ⟨-, hvb⟩
      · rw [hk]
        exact ⟨_, hu, hub⟩
      · exact ihv hvb rfl
    | alternative hk hu =>
      cases hP
      rw [hk]
      exact .inl ⟨_, hu, hb⟩
    | other hk hu =>
      cases hP
      rw [hk]
      exact .inr ⟨_, rfl, _, hu, hb⟩
    | groupEnd | groupLast | groupStep | restEnd | restStep => cases hP
  · intro h
    cases hk : t.graph.kind i <;> simp only [hk] at h
    case nonterminal c => exact ⟨_, .nonterminal hk, isolates_singleton.mpr h⟩
    case alt sub down =>
      rcases h with ⟨w, hw, hb⟩ | ⟨q, hq, w, hw, hb⟩
      · exact ⟨w, .alternative hk hw, hb⟩
      · cases hq
        exact ⟨w, .other hk hw, hb⟩
    case opt sub =>
      obtain ⟨w, hw, hb⟩ := h
      exact ⟨w, .content hk hw, hb⟩
    case iter sub =>
      obtain ⟨w, hw, hb⟩ := h
      exact ⟨w ++ [], .again hk hw (.stop hk), isolates_append.mpr (.inl ⟨hb, .refl _⟩)⟩

theorem not_leaves_group_none : ¬ t.Leaves (.group none) b := by
  rintro ⟨w, hw, hb⟩
  rw [spells_group_none] at hw
  exact not_isolates_nil (hw ▸ hb)

theorem nullable_none : t.Nullable (.rest none) ∧ t.Nullable (.group none) :=
  ⟨⟨[], .restEnd, .refl _⟩, [], .groupEnd, .refl _⟩

/-- What a group leaves is left by its first node or by the others. -/
theorem leaves_group_some : t.Leaves (.group (some i)) b ↔
    t.Leaves (.node i) b ∧
        ((t.graph.node i).up = true ∨ t.Nullable (.group (t.graph.next i))) ∨
      (t.graph.node i).up = false ∧ t.Nullable (.node i) ∧
        t.Leaves (.group (t.graph.next i)) b := by
  cases hup : (t.graph.node i).up with
  | true => simp only [Leaves, spells_group_last hup]; simp
  | false =>
    simp only [Bool.false_eq_true, false_or, true_and]
    refine ⟨?_, ?_⟩
    · rintro ⟨w, hw, hb⟩
      obtain ⟨u, v, rfl, hu, hv⟩ := (spells_group_step hup).mp hw
      rcases isolates_append.mp hb with ⟨hub, hvn⟩ | ⟨hun, hvb⟩
      · exact .inl ⟨⟨u, hu, hub⟩, v, hv, hvn⟩
      · exact .inr ⟨⟨u, hu, hun⟩, v, hv, hvb⟩
    · rintro (⟨⟨u, hu, hub⟩, v, hv, hvn⟩ | ⟨⟨u, hu, hun⟩, v, hv, hvb⟩)
      · exact ⟨u ++ v, .groupStep hup hu hv, isolates_append.mpr (.inl ⟨hub, hvn⟩)⟩
      · exact ⟨u ++ v, .groupStep hup hu hv, isolates_append.mpr (.inr ⟨hun, hvb⟩)⟩

theorem nullable_rest_some : t.Nullable (.rest (some i)) ↔
    t.Nullable (.node i) ∧ t.Nullable (.rest (t.graph.next i)) := by
  refine ⟨?_, ?_⟩
  · rintro ⟨w, hw, hn⟩
    obtain ⟨u, v, rfl, hu, hv⟩ := spells_rest_some.mp hw
    obtain ⟨hun, hvn⟩ := derives_append_nil.mp hn
    exact ⟨⟨u, hu, hun⟩, v, hv, hvn⟩
  · rintro ⟨⟨u, hu, hun⟩, v, hv, hvn⟩
    exact ⟨u ++ v, .restStep hu hv, derives_append_nil.mpr ⟨hun, hvn⟩⟩

variable {s : Shape} {p q : Option NodeId} {up : Bool} {fuel : Nat}

/-- Where all that follows a group vanishes, the rest of the production does if the group does. -/
theorem nullable_rest_iff (hs : s.Fits t.graph (· = q) up) (hne : s ≠ .nil)
    (hq : up = false → q = none) (hv : t.Nullable (.rest q)) :
    t.Nullable (.rest s.entry) ↔ t.Nullable (.group s.entry) := by
  refine ⟨?_, ?_⟩
  · rintro ⟨w, hw, hn⟩
    obtain ⟨u, v, rfl, hu, -⟩ := (spells_rest_iff hs hne hq).mp hw
    exact ⟨u, hu, (derives_append_nil.mp hn).1⟩
  · rintro ⟨u, hu, hun⟩
    obtain ⟨v, hv, hvn⟩ := hv
    exact ⟨u ++ v, (spells_rest_iff hs hne hq).mpr ⟨u, v, rfl, hu, hv⟩,
      derives_append_nil.mpr ⟨hun, hvn⟩⟩

/-- Where all that follows a group vanishes, what follows one of its nodes does if the others of the
group do. -/
theorem nullable_next_iff {l : Bool} {y o x : Shape}
    (hs : (Shape.node i l y o x).Fits t.graph (· = q) up) (hq : up = false → q = none)
    (hv : t.Nullable (.rest q)) : t.Nullable (.rest (t.graph.next i)) ↔
      (t.graph.node i).up = true ∨ t.Nullable (.group (t.graph.next i)) := by
  obtain ⟨-, hl, -, -, hx⟩ := hs
  by_cases hxn : x = .nil
  · subst hxn
    rw [hl.of_nil.1, hl.of_nil.2]
    refine iff_of_true hv ?_
    cases up with
    | true => exact .inl rfl
    | false => exact .inr (hq rfl ▸ nullable_none.2)
  · rw [(hl.of_ne hxn).1, (hl.of_ne hxn).2, nullable_rest_iff hx hxn hq hv]
    simp

/-- A further alternative is a group of its own. -/
theorem Formed.leaves_down (ht : t.Formed) (hi : t.Within a i) {sub : NodeId}
    (hk : t.graph.kind i = .alt sub p) :
    t.Leaves (.group p) b ↔ ∃ j ∈ p, t.Leaves (.node j) b := by
  cases p with
  | none => simp [not_leaves_group_none]
  | some j =>
    have hup := ht.up_of_down hi (show (t.graph.kind i).down? = some j by rw [hk]; rfl)
    simp [Leaves, spells_group_last hup]

/-! ### The walk -/

/-- What the walk finds at a node and inside of it. -/
def singlesInside (t : Table) (fuel : Nat) (i : NodeId) : List SymbolId :=
  match t.graph.kind i with
  | .nonterminal c => [c]
  | .alt sub down => t.singlesFrom fuel (some sub) ++ t.singlesFrom fuel down
  | .iter sub | .opt sub => t.singlesFrom fuel (some sub)
  | _ => []

theorem mem_singlesFrom_some : b ∈ t.singlesFrom (fuel + 1) (some i) ↔
    b ∈ t.singlesInside fuel i ∧
        ((t.graph.node i).up = true ∨ t.restDeletable (t.graph.next i) = true) ∨
      (t.graph.node i).up = false ∧ t.nodeDeletable i = true ∧
        b ∈ t.singlesFrom fuel (t.graph.next i) := by
  have hif (c : Bool) (l : List SymbolId) : b ∈ (if c then l else []) ↔ c = true ∧ b ∈ l := by
    cases c <;> simp
  rw [singlesFrom, List.mem_append, hif, hif, Bool.or_eq_true, Bool.and_eq_true, Bool.not_eq_true',
    and_assoc, and_comm]
  rfl

/-- The walk through a group finds what the group leaves, if what follows the group vanishes. -/
theorem Exact.mem_singlesFrom_iff (ht : t.Formed) (he : Exact t)
    (hs : s.Fits t.graph (· = q) up) (hq : up = false → q = none)
    (hw : ∀ i ∈ s.nodes, t.Within a i) (hv : t.Nullable (.rest q)) (hf : s.nodes.length < fuel) :
    b ∈ t.singlesFrom fuel s.entry ↔ t.Leaves (.group s.entry) b := by
  induction s generalizing q up fuel with
  | nil =>
    obtain ⟨fuel, rfl⟩ : ∃ n, fuel = n + 1 := ⟨fuel - 1, by omega⟩
    simp [Shape.entry, singlesFrom, not_leaves_group_none]
  | node i l y o x ihy iho ihx =>
    obtain ⟨fuel, rfl⟩ : ∃ n, fuel = n + 1 := ⟨fuel - 1, by omega⟩
    simp only [Shape.nodes, List.length_cons, List.length_append, List.mem_cons,
      List.mem_append] at hf hw
    have hi : t.Within a i := hw i (.inl rfl)
    have hnext := hs.next_eq
    have hgroup := nullable_next_iff hs hq hv
    obtain ⟨hr, hl, hy, ho, hx⟩ := hs
    rw [Shape.after_eq, ← hnext] at hy ho
    have hnode (hv : t.Nullable (.rest (t.graph.next i))) :
        b ∈ t.singlesInside fuel i ↔ t.Leaves (.node i) b := by
      rw [leaves_node, singlesInside]
      cases hk : t.graph.kind i <;> rw [hk] at hr <;> try simp
      case nonterminal c => exact eq_comm
      case alt sub down =>
        obtain ⟨rfl, hye, hoe, -⟩ := hr
        have hy := @ihy _ _ fuel (by simpa using hy) (by simp) (fun j hj => hw j (by simp [hj])) hv
          (by omega)
        have ho := @iho _ _ fuel ho (by simp) (fun j hj => hw j (by simp [hj])) hv (by omega)
        rw [hye] at hy
        rw [hoe, ht.leaves_down hi hk] at ho
        rw [hy, ho]
        rfl
      case iter sub =>
        obtain ⟨rfl, hye, -⟩ := hr
        have hloop : t.Nullable (.rest (some i)) :=
          nullable_rest_some.mpr ⟨⟨[], .stop hk, .refl _⟩, hv⟩
        rw [← hye]
        exact ihy (by simpa using hy) (by simp) (fun j hj => hw j (by simp [hj])) hloop (by omega)
      case opt sub =>
        obtain ⟨rfl, hye, -⟩ := hr
        rw [← hye]
        exact ihy (by simpa using hy) (by simp) (fun j hj => hw j (by simp [hj])) hv (by omega)
    have hothers (hup : (t.graph.node i).up = false) :
        b ∈ t.singlesFrom fuel (t.graph.next i) ↔ t.Leaves (.group (t.graph.next i)) b := by
      by_cases hxn : x = .nil
      · subst hxn
        have hqn := hq (hl.of_nil.2.symm.trans hup)
        rw [hl.of_nil.1, hqn]
        obtain ⟨fuel, rfl⟩ : ∃ n, fuel = n + 1 := ⟨fuel - 1, by omega⟩
        simp [singlesFrom, not_leaves_group_none]
      · rw [(hl.of_ne hxn).1]
        exact ihx hx hq (fun j hj => hw j (by simp [hj])) hv (by omega)
    have hover : (t.graph.node i).up = true ∨ t.restDeletable (t.graph.next i) = true ↔
        t.Nullable (.rest (t.graph.next i)) :=
      (or_congr_right (he.restDeletable_iff ht fun j hj => hi.next hj)).trans
        (or_iff_right_of_imp fun hup => hgroup.mpr (.inl hup))
    rw [Shape.entry, leaves_group_some, ← hgroup, mem_singlesFrom_some, hover,
      he.nodeDeletable_iff ht hi]
    exact or_congr (and_congr_left hnode)
      (and_congr_right fun hup => and_congr_right fun _ => hothers hup)

/-- The nonterminals found in a production are those that it leaves alone. -/
theorem Exact.mem_singles_iff (ht : t.Formed) (he : Exact t) :
    b ∈ t.singles a ↔ t.SingleStep a b := by
  unfold singles SingleStep Produces
  cases hr : (t.symbol a).root with
  | none => simp [singlesFrom]
  | some r =>
    obtain ⟨s, hs⟩ := ht.laid a r hr
    have hw : ∀ i ∈ s.nodes, t.Within a i := fun i hi => ht.within_iff.mpr ⟨r, s, hr, hs, hi⟩
    have hne : s ≠ .nil := fun h => by simpa [h, Shape.entry] using hs.entry
    have hlt := length_nodes_lt hs (.refl _)
    have hspells (w : Form) : t.Spells (.rest (some r)) w ↔ t.Spells (.group (some r)) w := by
      rw [← hs.entry, spells_rest_iff hs.fits hne (by simp)]
      simp [spells_rest_none]
    have hmem := he.mem_singlesFrom_iff (b := b) ht hs.fits (by simp) hw nullable_none.1 hlt
    rw [hs.entry] at hmem
    rw [hmem]
    simp [Leaves, hspells]

theorem Exact.mem_singleSteps_iff (ht : t.Formed) (he : Exact t) :
    (a, b) ∈ t.singleSteps ↔ a ∈ t.nonterminals ∧ t.SingleStep a b := by
  unfold singleSteps
  rw [List.mem_eraseDups, List.mem_flatMap]
  simp [he.mem_singles_iff ht]

theorem nodup_eraseDups {α : Type} [BEq α] [LawfulBEq α] : ∀ l : List α, l.eraseDups.Nodup
  | [] => by simp
  | x :: l => by
    rw [List.eraseDups_cons, List.nodup_cons]
    exact ⟨by simp [List.mem_eraseDups], nodup_eraseDups _⟩
termination_by l => l.length
decreasing_by exact Nat.lt_succ_of_le (List.length_filter_le ..)

theorem nodup_singleSteps (t : Table) : t.singleSteps.Nodup := nodup_eraseDups _

end Table

end Lookahead
