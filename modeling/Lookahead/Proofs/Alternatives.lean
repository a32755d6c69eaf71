import Lookahead.Proofs.Derivation

/-!
# Choices in a production

A group of alternatives is a chain of nodes, of which only the first is a place where a parser can
stand: from there it goes to the content of any of them (`Table.Formed.alternatives_eq`). The places
where it can stand are `Table.Passed`; all nodes of a production are, except the further
alternatives (`Table.Formed.passed_or_alternative`).
-/

namespace Lookahead

namespace Shape

/-- The content of each alternative, and the alternative behind it. -/
def alternatives : Shape → List (NodeId × Option NodeId)
  | nil => []
  | node _ _ b o _ => b.entry.toList.map (·, o.entry) ++ o.alternatives

/-- The nodes where a parser can stand. `here` tells whether it can at the first node. -/
def points (here : Bool) : Shape → List NodeId
  | nil => []
  | node i _ b o r =>
    (if here then [i] else []) ++ (b.points true ++ (o.points false ++ r.points true))

variable {g : Graph} {E : Option NodeId → Prop} {up loop here : Bool} {s b o r : Shape}
  {i j sub : NodeId} {down q : Option NodeId}

theorem IsOther.kind_of_entry (ho : o.IsOther g) (hj : o.entry = some j) :
    ∃ e d, g.kind j = .alt e d := by
  cases o with
  | nil => cases hj
  | node k l b o r =>
    cases hj
    exact ho.2

theorem points_sublist (here : Bool) (s : Shape) : (s.points here).Sublist s.nodes := by
  induction s generalizing here with
  | nil => exact .slnil
  | node i l b o r ihb iho ihr =>
    have h := (ihb true).append ((iho false).append (ihr true))
    unfold points nodes
    split
    · exact h.cons_cons i
    · exact h.cons i

theorem alternatives_sublist (s : Shape) : (s.alternatives.map (·.1)).Sublist s.nodes := by
  induction s with
  | nil => exact .slnil
  | node i l b o r _ iho _ =>
    unfold alternatives nodes
    rw [List.map_append]
    refine .cons i (List.Sublist.append ?_ (iho.trans (List.sublist_append_left ..)))
    cases hb : b.entry with
    | none => simp
    | some e => simpa using mem_nodes_of_entry hb

/-- The list of alternatives, as the graph has it. -/
theorem alternativesFrom_eq (hs : s.Fits g E up) (hi : s.entry = some i)
    (hk : g.kind i = .alt sub down) {fuel : Nat} (hf : s.nodes.length ≤ fuel) :
    g.alternativesFrom fuel i = s.alternatives := by
  induction s generalizing E up i sub down fuel with
  | nil => cases hi
  | node j l b o r _ iho _ =>
    cases hi
    obtain ⟨hr, -, -, ho, -⟩ := hs
    rw [hk] at hr
    obtain ⟨rfl, hb, hd, hoo⟩ := hr
    simp only [nodes, List.length_cons, List.length_append] at hf
    obtain ⟨fuel, rfl⟩ : ∃ n, fuel = n + 1 := ⟨fuel - 1, by omega⟩
    unfold Graph.alternativesFrom alternatives
    rw [hk, hb, hd]
    cases down with
    | none =>
      rw [entry_eq_none.mp hd]
      rfl
    | some k =>
      obtain ⟨e, d, hk⟩ := hoo.kind_of_entry hd
      dsimp only
      rw [iho ho hd hk (by omega)]
      rfl

theorem mem_points_of_entry (hi : s.entry = some i) : i ∈ s.points true := by
  cases s with
  | nil => cases hi
  | node j l b o r =>
    cases hi
    simp [points]

theorem mem_points_of_body (hi : i ∈ b.points true) : i ∈ (node j loop b o r).points here := by
  simp [points, hi]

theorem mem_points_of_others (hi : i ∈ o.points false) : i ∈ (node j loop b o r).points here := by
  simp [points, hi]

theorem mem_points_of_rest (hi : i ∈ r.points true) : i ∈ (node j loop b o r).points here := by
  simp [points, hi]

theorem mem_nodes_node : i ∈ (node j loop b o r).nodes ↔
    i = j ∨ i ∈ b.nodes ∨ i ∈ o.nodes ∨ i ∈ r.nodes := by
  simp [nodes]

/-- A node where a parser cannot stand is an alternative. -/
theorem Fits.mem_points (hs : s.Fits g E up) (hi : i ∈ s.nodes) :
    i ∈ s.points here ∨ here = false ∧ s.entry = some i ∨ ∃ e d, g.kind i = .alt e d := by
  induction s generalizing E up here with
  | nil => simp [nodes] at hi
  | node j l b o r ihb iho ihr =>
    obtain ⟨hf, -, hb, ho, hr⟩ := hs
    rcases mem_nodes_node.mp hi with rfl | hi | hi | hi
    · cases here with
      | true => exact .inl (mem_points_of_entry rfl)
      | false => exact .inr (.inl ⟨rfl, rfl⟩)
    · rcases @ihb _ _ true hb hi with h | ⟨h, -⟩ | h
      · exact .inl (mem_points_of_body h)
      · cases h
      · exact .inr (.inr h)
    · rcases @iho _ _ false ho hi with h | ⟨-, h⟩ | h
      · exact .inl (mem_points_of_others h)
      · refine .inr (.inr ?_)
        cases hk : g.kind j <;> rw [hk] at hf
        case alt => exact hf.2.2.2.kind_of_entry h
        all_goals
          obtain ⟨-, -, rfl⟩ := hf
          cases h
      · exact .inr (.inr h)
    · rcases @ihr _ _ true hr hi with h | ⟨h, -⟩ | h
      · exact .inl (mem_points_of_rest h)
      · cases h
      · exact .inr (.inr h)

/-- From inside a tree a parser gets to places where it can stand, or leaves the tree. A further
alternative does not lead back to itself. -/
theorem Fits.next_mem_points (hs : s.Fits g (· = q) up)
    (ho : here = true ∨ s.IsOther g) (hi : i ∈ s.nodes) :
    g.next i = q ∨ ∃ j ∈ s.points here, g.next i = some j := by
  induction s generalizing q up here with
  | nil => simp [nodes] at hi
  | node j l b o r ihb iho ihr =>
    have hnext := hs.next_eq
    obtain ⟨hf, -, hb, hoo, hr⟩ := hs
    rw [after_eq] at hb hoo
    have hexit : r.exitTo q = q ∨ ∃ k ∈ r.points true, r.exitTo q = some k := by
      cases r with
      | nil => exact .inl rfl
      | node e l' b' o' r' => exact .inr ⟨e, mem_points_of_entry rfl, rfl⟩
    have hout : r.exitTo q = q ∨ ∃ k ∈ (node j l b o r).points here, r.exitTo q = some k := by
      rcases hexit with h | ⟨k, hk, he⟩
      · exact .inl h
      · exact .inr ⟨k, mem_points_of_rest hk, he⟩
    rcases mem_nodes_node.mp hi with rfl | hib | hio | hir
    · rwa [hnext]
    · cases l with
      | true =>
        have hb : b.Fits g (· = some j) true := by simpa using hb
        rcases ihb hb (.inl rfl) hib with h | ⟨k, hk, h⟩
        · refine .inr ⟨j, ?_, h⟩
          rcases ho with rfl | ⟨-, e, d, hk⟩
          · exact mem_points_of_entry rfl
          · rw [hk] at hf
            cases hf.1
        · exact .inr ⟨k, mem_points_of_body hk, h⟩
      | false =>
        have hb : b.Fits g (· = r.exitTo q) true := by simpa using hb
        rcases ihb hb (.inl rfl) hib with h | ⟨k, hk, h⟩
        · rwa [h]
        · exact .inr ⟨k, mem_points_of_body hk, h⟩
    · have hother : o.IsOther g := by
        cases hk : g.kind j <;> rw [hk] at hf
        case alt => exact hf.2.2.2
        all_goals
          obtain ⟨-, -, rfl⟩ := hf
          trivial
      rcases @iho _ false _ hoo (.inr hother) hio with h | ⟨k, hk, h⟩
      · rwa [h]
      · exact .inr ⟨k, mem_points_of_others hk, h⟩
    · rcases ihr hr (.inl rfl) hir with h | ⟨k, hk, h⟩
      · exact .inl h
      · exact .inr ⟨k, mem_points_of_rest hk, h⟩

theorem mem_points_of_alternative {p : NodeId × Option NodeId} (hp : p ∈ s.alternatives) :
    p.1 ∈ s.points here := by
  induction s generalizing here with
  | nil => simp [alternatives] at hp
  | node j l b o r _ iho _ =>
    unfold alternatives at hp
    rcases List.mem_append.mp hp with hp | hp
    · obtain ⟨e, he, rfl⟩ := List.mem_map.mp hp
      exact mem_points_of_body (mem_points_of_entry (by simpa using he))
    · exact mem_points_of_others (iho hp)

/-- A parser can stand at the content of any node. -/
theorem Fits.content_mem_points (hs : s.Fits g E up) (hn : s.nodes.length ≤ g.size)
    (hi : i ∈ s.nodes) : (∀ e, (g.kind i).sub? = some e → e ∈ s.points here) ∧
      ∀ e d, g.kind i = .alt e d → ∀ p ∈ g.alternatives i, p.1 ∈ s.points here := by
  induction s generalizing E up here with
  | nil => simp [nodes] at hi
  | node j l b o r ihb iho ihr =>
    obtain ⟨hf, -, hb, ho, hr⟩ := id hs
    have hlen := hn
    simp only [nodes, List.length_cons, List.length_append] at hlen
    rcases mem_nodes_node.mp hi with rfl | hi | hi | hi
    · refine ⟨fun e he => ?_, fun e d hk p hp => ?_⟩
      · exact mem_points_of_body (mem_points_of_entry (hf.entry_body.trans he))
      · unfold Graph.alternatives at hp
        rw [alternativesFrom_eq hs rfl hk hn] at hp
        exact mem_points_of_alternative hp
    · obtain ⟨h₁, h₂⟩ := @ihb _ _ true hb (by omega) hi
      exact ⟨fun e he => mem_points_of_body (h₁ e he),
        fun e d hk p hp => mem_points_of_body (h₂ e d hk p hp)⟩
    · obtain ⟨h₁, h₂⟩ := @iho _ _ false ho (by omega) hi
      exact ⟨fun e he => mem_points_of_others (h₁ e he),
        fun e d hk p hp => mem_points_of_others (h₂ e d hk p hp)⟩
    · obtain ⟨h₁, h₂⟩ := @ihr _ _ true hr (by omega) hi
      exact ⟨fun e he => mem_points_of_rest (h₁ e he),
        fun e d hk p hp => mem_points_of_rest (h₂ e d hk p hp)⟩

end Shape

/-- Only an alternative has alternatives. -/
theorem Graph.kind_of_mem_alternatives {g : Graph} {i : NodeId} {p : NodeId × Option NodeId}
    (hp : p ∈ g.alternatives i) : ∃ e d, g.kind i = .alt e d := by
  unfold alternatives at hp
  cases hs : g.size with
  | zero => simp [hs, alternativesFrom] at hp
  | succ n =>
    rw [hs, alternativesFrom] at hp
    split at hp
    · exact ⟨_, _, ‹_›⟩
    · exact ⟨_, _, ‹_›⟩
    · simp at hp

namespace Table

variable {t : Table} {a : SymbolId} {i j sub : NodeId} {down q : Option NodeId} {w : Form}

/-- The alternatives of a group, read off its tree. -/
theorem Formed.exists_alternatives (ht : t.Formed) (hi : t.Within a i)
    (hk : t.graph.kind i = .alt sub down) : ∃ b o x p up,
      (Shape.node i false b o x).Fits t.graph (· = p) up ∧ b.entry = some sub ∧ o.entry = down ∧
        o.IsOther t.graph ∧ (Shape.node i false b o x).nodes.Nodup ∧
        t.graph.alternatives i = (Shape.node i false b o x).alternatives ∧
        ∀ j ∈ down, t.graph.alternatives j = o.alternatives := by
  obtain ⟨r, s, -, hs, hi⟩ := ht.within_iff.mp hi
  obtain ⟨l, b, o, x, p, up, hf, hn, -⟩ := hs.fits.exists_node hi
  have hr := hf.1
  rw [hk] at hr
  obtain ⟨rfl, hb, hd, ho⟩ := hr
  have hlen : (Shape.node i false b o x).nodes.length ≤ t.graph.size :=
    Graph.length_le_of_nodup (hs.nodup.sublist hn) fun j hj => hs.lt j (hn.subset hj)
  refine ⟨b, o, x, p, up, hf, hb, hd, ho, hs.nodup.sublist hn,
    Shape.alternativesFrom_eq hf rfl hk hlen, fun j hj => ?_⟩
  obtain ⟨e, d, hj'⟩ := ho.kind_of_entry (hd.trans hj)
  refine Shape.alternativesFrom_eq hf.2.2.2.1 (hd.trans hj) hj' ?_
  simp only [Shape.nodes, List.length_cons, List.length_append] at hlen
  omega

/-- The list of alternatives at an alternative, and what is behind the further ones. -/
theorem Formed.alternatives_eq (ht : t.Formed) (hi : t.Within a i)
    (hk : t.graph.kind i = .alt sub down) :
    t.graph.alternatives i = (sub, down) :: (match down with
      | none => []
      | some j => t.graph.alternatives j) ∧
    ∀ j ∈ down, (∃ e d, t.graph.kind j = .alt e d) ∧ t.graph.next j = t.graph.next i := by
  obtain ⟨b, o, x, p, up, hf, hb, hd, ho, -, hi, ha⟩ := ht.exists_alternatives hi hk
  refine ⟨?_, fun j hj => ⟨ho.kind_of_entry (hd.trans hj), ?_⟩⟩
  · rw [hi, Shape.alternatives, hb, hd]
    cases down with
    | none =>
      rw [Shape.entry_eq_none.mp hd]
      rfl
    | some j =>
      rw [← ha j rfl]
      rfl
  · rw [hf.next_eq]
    have h := hf.2.2.2.1
    rw [Shape.after_eq] at h
    rw [← hd] at hj
    cases o with
    | nil => cases hj
    | node k l b' o' x' =>
      cases hj
      obtain ⟨rfl, -⟩ := ho
      exact h.2.1.of_nil.1

/-- Different alternatives start at different nodes, so a choice tells which one is taken. -/
theorem Formed.nodup_alternatives (ht : t.Formed) (hi : t.Within a i)
    (hk : t.graph.kind i = .alt sub down) : ((t.graph.alternatives i).map (·.1)).Nodup := by
  obtain ⟨b, o, x, p, up, -, -, -, -, hd, he, -⟩ := ht.exists_alternatives hi hk
  rw [he]
  exact hd.sublist (Shape.alternatives_sublist _)

/-- What holds for a further alternative holds at the head of the group: an induction on the list of
alternatives. -/
theorem Formed.alternatives_induct (ht : t.Formed)
    {P : NodeId → List (NodeId × Option NodeId) → Prop}
    (last : ∀ i sub, t.Within a i → t.graph.kind i = .alt sub none → P i [(sub, none)])
    (step : ∀ i sub j, t.Within a i → t.graph.kind i = .alt sub (some j) → t.Within a j →
      (∃ e d, t.graph.kind j = .alt e d) → t.graph.next j = t.graph.next i →
      P j (t.graph.alternatives j) → P i ((sub, some j) :: t.graph.alternatives j))
    (hi : t.Within a i) (hk : t.graph.kind i = .alt sub down) : P i (t.graph.alternatives i) := by
  generalize hL : t.graph.alternatives i = L
  induction L generalizing i sub down with
  | nil =>
    rw [(ht.alternatives_eq hi hk).1] at hL
    cases hL
  | cons p L ih =>
    obtain ⟨he, hn⟩ := ht.alternatives_eq hi hk
    rw [hL] at he
    obtain ⟨rfl, rfl⟩ := List.cons_eq_cons.mp he
    cases down with
    | none => exact last i sub hi hk
    | some j =>
      obtain ⟨⟨e, d, hj⟩, hnext⟩ := hn j rfl
      have hwj : t.Within a j := hi.down (by rw [hk]; rfl)
      exact step i sub j hi hk hwj ⟨e, d, hj⟩ hnext (ih hwj hj rfl)

/-- An alternation spells what one of its alternatives does. -/
theorem Formed.spells_alternatives (ht : t.Formed) (hi : t.Within a i)
    (hk : t.graph.kind i = .alt sub down) : t.Spells (.node i) w ↔
      ∃ p ∈ t.graph.alternatives i, t.Spells (.group (some p.1)) w := by
  have hnode {i sub down} (hk : t.graph.kind i = .alt sub down) : t.Spells (.node i) w ↔
      t.Spells (.group (some sub)) w ∨ ∃ j ∈ down, t.Spells (.node j) w := by
    refine ⟨?_, ?_⟩
    · intro h
      cases h with
      | alternative h hu =>
        cases hk.symm.trans h
        exact .inl hu
      | other h hu =>
        cases hk.symm.trans h
        exact .inr ⟨_, rfl, hu⟩
      | _ => simp_all [NodeKind.isBlank]
    · rintro (h | ⟨j, hj, h⟩)
      · exact .alternative hk h
      · cases hj
        exact .other hk h
  refine ht.alternatives_induct (P := fun i l => t.Spells (.node i) w ↔
    ∃ p ∈ l, t.Spells (.group (some p.1)) w) ?_ ?_ hi hk
  · intro i sub _ hk
    simp [hnode hk]
  · intro i sub j _ hk _ _ _ ih
    simp [hnode hk, ih]

/-- What starts at the content of an alternative is that content, and what follows the group. -/
theorem Formed.spells_alternative (ht : t.Formed) (hi : t.Within a i)
    (hk : t.graph.kind i = .alt sub down) : ∀ p ∈ t.graph.alternatives i, t.Within a p.1 ∧
      ∀ w, t.Spells (.rest (some p.1)) w ↔ ∃ u v, w = u ++ v ∧
        t.Spells (.group (some p.1)) u ∧ t.Spells (.rest (t.graph.next i)) v := by
  have hsub {i sub down} (hi : t.Within a i) (hk : t.graph.kind i = .alt sub down) :
      t.Within a sub ∧ ∀ w, t.Spells (.rest (some sub)) w ↔ ∃ u v, w = u ++ v ∧
        t.Spells (.group (some sub)) u ∧ t.Spells (.rest (t.graph.next i)) v := by
    have hk' : (t.graph.kind i).sub? = some sub := by rw [hk]; rfl
    refine ⟨hi.sub hk', fun w => ?_⟩
    rw [ht.spells_content hi hk', contentExit, hk]
  refine ht.alternatives_induct (P := fun i l => ∀ p ∈ l, t.Within a p.1 ∧
      ∀ w, t.Spells (.rest (some p.1)) w ↔ ∃ u v, w = u ++ v ∧
        t.Spells (.group (some p.1)) u ∧ t.Spells (.rest (t.graph.next i)) v) ?_ ?_ hi hk
  · intro i sub hi hk p hp
    rw [List.mem_singleton.mp hp]
    exact hsub hi hk
  · intro i sub j hi hk _ _ hn ih p hp
    rcases List.mem_cons.mp hp with rfl | hp
    · exact hsub hi hk
    · rw [hn] at ih
      exact ih p hp

theorem Formed.within_of_alternative (ht : t.Formed) (hi : t.Within a i) {p}
    (hp : p ∈ t.graph.alternatives i) : t.Within a p.1 ∧ ∀ k ∈ p.2, t.Within a k := by
  obtain ⟨e, d, hk⟩ := Graph.kind_of_mem_alternatives hp
  refine ⟨(ht.spells_alternative hi hk p hp).1, ?_⟩
  refine ht.alternatives_induct (P := fun _ l => ∀ p ∈ l, ∀ k ∈ p.2, t.Within a k) ?_ ?_ hi hk p hp
  · intro i sub _ _ p hp
    rw [List.mem_singleton.mp hp]
    simp
  · intro i sub j _ _ hj _ _ ih p hp k hk
    rcases List.mem_cons.mp hp with rfl | hp
    · cases hk
      exact hj
    · exact ih p hp k hk

/-- The nodes of the production of `a` where a parser can stand. -/
inductive Passed (t : Table) (a : SymbolId) : NodeId → Prop
  | root {r} (h : (t.symbol a).root = some r) : Passed t a r
  | next {i j : NodeId} (hi : Passed t a i) (hj : t.graph.next i = some j) : Passed t a j
  | content {i j : NodeId} (hi : Passed t a i)
      (hj : t.graph.kind i = .opt j ∨ t.graph.kind i = .iter j) : Passed t a j
  | alternative {i sub : NodeId} {down : Option NodeId} {p} (hi : Passed t a i)
      (hk : t.graph.kind i = .alt sub down) (hp : p ∈ t.graph.alternatives i) : Passed t a p.1

theorem Passed.within (ht : t.Formed) (hi : t.Passed a i) : t.Within a i := by
  induction hi with
  | root h => exact .root h
  | next _ hj ih => exact ih.next hj
  | content _ hj ih => exact ih.sub (by rcases hj with hj | hj <;> rw [hj] <;> rfl)
  | alternative _ hk hp ih => exact (ht.spells_alternative ih hk _ hp).1

/-- A parser can stand where the root of a tree leads it. -/
theorem Passed.of_fits {s : Shape} {E : Option NodeId → Prop} {up : Bool}
    (hs : s.Fits t.graph E up) (hn : s.nodes.length ≤ t.graph.size) :
    ((∀ e, s.entry = some e → t.Passed a e) → ∀ i ∈ s.points true, t.Passed a i) ∧
      ((∀ p ∈ s.alternatives, t.Passed a p.1) → s.IsOther t.graph →
        ∀ i ∈ s.points false, t.Passed a i) := by
  induction s generalizing E up with
  | nil => simp [Shape.points]
  | node j l b o r ihb iho ihr =>
    obtain ⟨hf, hl, hb, ho, hr⟩ := id hs
    have hlen := hn
    simp only [Shape.nodes, List.length_cons, List.length_append] at hlen
    obtain ⟨ihb, -⟩ := ihb hb (by omega)
    obtain ⟨-, iho⟩ := iho ho (by omega)
    obtain ⟨ihr, -⟩ := ihr hr (by omega)
    refine ⟨?_, ?_⟩
    · intro he i hi
      have hj := he j rfl
      simp only [Shape.points, if_true, List.mem_append, List.mem_singleton] at hi
      rcases hi with rfl | hi | hi | hi
      · exact hj
      · refine ihb (fun e hbe => ?_) i hi
        rw [hf.entry_body] at hbe
        have hb' := hf.entry_body
        cases hk : t.graph.kind j <;> rw [hk] at hbe hb' <;> cases hbe
        · refine Passed.alternative (p := (_, o.entry)) hj hk ?_
          rw [Graph.alternatives, Shape.alternativesFrom_eq hs rfl hk hn, Shape.alternatives, hb']
          simp [NodeKind.sub?]
        · exact .content hj (.inr hk)
        · exact .content hj (.inl hk)
      · cases hk : t.graph.kind j with
        | alt e d =>
          rw [hk] at hf
          refine iho (fun p hp => .alternative hj hk ?_) hf.2.2.2 i hi
          rw [Graph.alternatives, Shape.alternativesFrom_eq hs rfl hk hn]
          exact List.mem_append_right _ hp
        | _ =>
          rw [hk] at hf
          obtain ⟨-, -, rfl⟩ := hf
          simp [Shape.points] at hi
      · refine ihr (fun e hre => .next hj ?_) i hi
        have hne : r ≠ .nil := fun hn => by simp [hn, Shape.entry] at hre
        rw [(hl.of_ne hne).1, hre]
    · rintro halt ⟨rfl, e, d, hk⟩ i hi
      simp only [Shape.points, Bool.false_eq_true, if_false, List.nil_append, List.append_nil,
        List.mem_append] at hi
      rw [hk] at hf
      unfold Shape.alternatives at halt
      rcases hi with hi | hi
      · refine ihb (fun e hbe => halt (e, o.entry) ?_) i hi
        simp [hbe]
      · exact iho (fun p hp => halt p (List.mem_append_right _ hp)) hf.2.2.2 i hi

/-- The places where a parser can stand, as the tree has them. -/
theorem Formed.passed_iff {r : NodeId} {s : Shape} (ht : t.Formed) (hr : (t.symbol a).root = some r)
    (hs : t.graph.Closed r s) : t.Passed a i ↔ i ∈ s.points true := by
  have hlen := Graph.length_le_of_nodup hs.nodup hs.lt
  refine ⟨?_, ?_⟩
  · intro hi
    induction hi with
    | root h =>
      cases hr.symm.trans h
      exact Shape.mem_points_of_entry hs.entry
    | next hi hj ih =>
      have hm := (hi.within ht).mem hr hs
      rcases hs.fits.next_mem_points (.inl rfl) hm with h | ⟨k, hk, h⟩
      · cases hj.symm.trans h
      · cases hj.symm.trans h
        exact hk
    | content hi hj _ =>
      refine (hs.fits.content_mem_points hlen ((hi.within ht).mem hr hs)).1 _ ?_
      rcases hj with hj | hj <;> rw [hj] <;> rfl
    | alternative hi hk hp _ =>
      exact (hs.fits.content_mem_points hlen ((hi.within ht).mem hr hs)).2 _ _ hk _ hp
  · refine (Passed.of_fits hs.fits hlen).1 (fun e he => .root ?_) i
    rw [hr, ← hs.entry, he]

/-- A node where a parser cannot stand is an alternative. -/
theorem Formed.passed_or_alternative (ht : t.Formed) (hi : t.Within a i) :
    t.Passed a i ∨ ∃ e d, t.graph.kind i = .alt e d := by
  obtain ⟨r, s, hr, hs, hi⟩ := ht.within_iff.mp hi
  rw [ht.passed_iff hr hs]
  rcases @Shape.Fits.mem_points _ _ _ true _ _ hs.fits hi with h | ⟨h, -⟩ | h
  · exact .inl h
  · cases h
  · exact .inr h

theorem Formed.passed_next (ht : t.Formed) (hi : t.Within a i) (hj : t.graph.next i = some j) :
    t.Passed a j := by
  obtain ⟨r, s, hr, hs, hi⟩ := ht.within_iff.mp hi
  rw [ht.passed_iff hr hs]
  rcases hs.fits.next_mem_points (.inl rfl) hi with h | ⟨k, hk, h⟩
  · cases hj.symm.trans h
  · cases hj.symm.trans h
    exact hk

/-- Every alternative belongs to a group that starts where a parser can stand. -/
theorem Formed.exists_alternation (ht : t.Formed) (hi : t.Within a i)
    (hk : t.graph.kind i = .alt sub down) :
    ∃ h l, t.Passed a h ∧ t.graph.alternatives h = l ++ t.graph.alternatives i := by
  have here {i} (hi : t.Passed a i) :
      ∃ h l, t.Passed a h ∧ t.graph.alternatives h = l ++ t.graph.alternatives i :=
    ⟨i, [], hi, rfl⟩
  induction hi generalizing sub down with
  | root h => exact here (.root h)
  | next hi hj => exact here (ht.passed_next hi hj)
  | @sub i j hi hj ih =>
    cases hki : t.graph.kind i with
    | alt e d =>
      rw [hki] at hj
      cases hj
      obtain ⟨h, l, hh, hl⟩ := ih hki
      have hmem : (j, d) ∈ t.graph.alternatives h := by
        rw [hl, (ht.alternatives_eq hi hki).1]
        simp
      obtain ⟨e', d', hkh⟩ := Graph.kind_of_mem_alternatives hmem
      exact here (.alternative hh hkh hmem)
    | iter e | opt e =>
      rw [hki] at hj
      cases hj
      rcases ht.passed_or_alternative hi with hp | ⟨e, d, h⟩
      · exact here (.content hp (by simp [hki]))
      · cases hki.symm.trans h
    | _ =>
      rw [hki] at hj
      cases hj
  | @down i j hi hj ih =>
    cases hki : t.graph.kind i with
    | alt e d =>
      rw [hki] at hj
      cases hj
      obtain ⟨h, l, hh, hl⟩ := ih hki
      refine ⟨h, l ++ [(e, some j)], hh, ?_⟩
      rw [hl, (ht.alternatives_eq hi hki).1]
      simp
    | _ =>
      rw [hki] at hj
      cases hj

theorem SameOutline.passed {u : Table} (h : SameOutline t u) (hi : t.Passed a i) :
    u.Passed a i := by
  induction hi with
  | root hr => exact .root ((h.root a).trans hr)
  | next _ hj ih => exact ih.next ((h.graph.next _).trans hj)
  | content _ hj ih =>
    exact ih.content (hj.imp (h.graph.kind_iff (by simp) (by simp)).mpr
      (h.graph.kind_iff (by simp) (by simp)).mpr)
  | alternative _ hk hp ih =>
    exact ih.alternative ((h.graph.kind_iff (by simp) (by simp)).mpr hk)
      (by rwa [h.graph.alternatives])

theorem SameOutline.passed_iff {u : Table} (h : SameOutline t u) : u.Passed a i ↔ t.Passed a i :=
  ⟨h.symm.passed, h.passed⟩

end Table

end Lookahead
