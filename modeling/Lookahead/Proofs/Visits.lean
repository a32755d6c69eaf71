import Lookahead.Proofs.Alternatives
import Mathlib.Data.List.Pairwise

/-!
# Checks that come to every place

A check walks through a production, enters the content of every node on its way, and reports what
there is to report at the node (`Graph.Visits`). Such a walk comes to every place where a parser can
stand, to each of them once, and knows whether a content starts there
(`Table.Formed.visits_production`).
-/

namespace Lookahead

/-- Where a walk goes on inside a node. -/
def Graph.contents (g : Graph) (i : NodeId) : List NodeId :=
  match g.kind i with
  | .alt _ _ => (g.alternatives i).map (·.1)
  | .opt sub | .iter sub => [sub]
  | _ => []

namespace Shape

/-- The nodes where a parser can stand, and whether each is the first node of a content. `here` is
that of the first node, if a parser can stand there. -/
def stops : (here : Option Bool) → Shape → List (NodeId × Bool)
  | _, nil => []
  | here, node i _ b o r =>
    here.toList.map (i, ·) ++ (b.stops (some true) ++ (o.stops none ++ r.stops (some false)))

variable {g : Graph} {E : Option NodeId → Prop} {up : Bool} {s : Shape} {i j : NodeId}
  {here : Option Bool}

theorem map_stops (s : Shape) (here : Option Bool) :
    (s.stops here).map (·.1) = s.points here.isSome := by
  induction s generalizing here with
  | nil => rfl
  | node i l b o r ihb iho ihr =>
    simp only [stops, points, List.map_append, ihb, iho, ihr]
    cases here <;> rfl

theorem mem_stops_of_entry {c : Bool} (hi : s.entry = some i) : (i, c) ∈ s.stops (some c) := by
  cases s with
  | nil => cases hi
  | node j l b o r =>
    cases hi
    simp [stops]

/-- A stop is marked only if it is the first node of some content. -/
theorem Fits.of_mem_stops (hs : s.Fits g E up) (hi : (i, true) ∈ s.stops here) :
    here = some true ∧ s.entry = some i ∨ ∃ j ∈ s.nodes, (g.kind j).sub? = some i := by
  induction s generalizing E up here with
  | nil => simp [stops] at hi
  | node j l b o r ihb iho ihr =>
    obtain ⟨hf, -, hb, ho, hr⟩ := hs
    simp only [stops, List.mem_append, List.mem_map, Prod.mk.injEq, Option.mem_toList] at hi
    rcases hi with ⟨c, hc, rfl, rfl⟩ | hi | hi | hi
    · exact .inl ⟨hc, rfl⟩
    · rcases ihb hb hi with ⟨-, he⟩ | ⟨k, hk, h⟩
      · exact .inr ⟨j, by simp [nodes], hf.entry_body.symm.trans he⟩
      · exact .inr ⟨k, by simp [nodes, hk], h⟩
    · rcases iho ho hi with ⟨h, -⟩ | ⟨k, hk, h⟩
      · cases h
      · exact .inr ⟨k, by simp [nodes, hk], h⟩
    · rcases ihr hr hi with ⟨h, -⟩ | ⟨k, hk, h⟩
      · cases h
      · exact .inr ⟨k, by simp [nodes, hk], h⟩

/-- The first node of every content is marked. -/
theorem Fits.mem_stops (hs : s.Fits g E up) (hj : j ∈ s.nodes)
    (hk : (g.kind j).sub? = some i) : (i, true) ∈ s.stops here := by
  induction s generalizing E up here with
  | nil => simp [nodes] at hj
  | node k l b o r ihb iho ihr =>
    obtain ⟨hf, -, hb, ho, hr⟩ := hs
    simp only [stops, List.mem_append]
    rcases mem_nodes_node.mp hj with rfl | hj | hj | hj
    · exact .inr (.inl (mem_stops_of_entry (hf.entry_body.trans hk)))
    · exact .inr (.inl (ihb hb hj))
    · exact .inr (.inr (.inl (iho ho hj)))
    · exact .inr (.inr (.inr (ihr hr hj)))

/-- The nodes of a tree that some node has for the start of its content. -/
def starts (g : Graph) (s : Shape) : List NodeId := s.nodes.filterMap fun j => (g.kind j).sub?

theorem Fits.starts_node {l : Bool} {b o r : Shape} (hs : (node i l b o r).Fits g E up) :
    (node i l b o r).starts g = b.entry.toList ++ (b.starts g ++ (o.starts g ++ r.starts g)) := by
  have he := hs.1.entry_body
  simp only [starts, nodes, List.filterMap_cons, List.filterMap_append, he]
  cases (g.kind i).sub? <;> rfl

/-- Different nodes have different contents. -/
theorem Fits.starts_sublist (hs : s.Fits g E up) :
    (s.entry.toList ++ s.starts g).Sublist s.nodes := by
  induction s generalizing E up with
  | nil => exact .slnil
  | node i l b o r ihb iho ihr =>
    have hnode := hs.starts_node
    obtain ⟨-, -, hb, ho, hr⟩ := hs
    have hskip {s : Shape} : (s.starts g).Sublist (s.entry.toList ++ s.starts g) :=
      List.sublist_append_right ..
    rw [hnode, ← List.append_assoc b.entry.toList]
    exact ((ihb hb).append ((hskip.trans (iho ho)).append (hskip.trans (ihr hr)))).cons_cons i

/-- Where walks go on inside the places of a group, or inside further alternatives and their places,
is where some content starts. -/
theorem Fits.contents_perm (hs : s.Fits g E up) (hn : s.nodes.length ≤ g.size) :
    ((s.points true).flatMap g.contents).Perm (s.starts g) ∧
      (s.IsOther g → (s.alternatives.map (·.1) ++ (s.points false).flatMap g.contents).Perm
        (s.starts g)) := by
  induction s generalizing E up with
  | nil => exact ⟨.refl _, fun _ => .refl _⟩
  | node i l b o r ihb iho ihr =>
    rw [hs.starts_node]
    obtain ⟨hf, -, hb, ho, hr⟩ := id hs
    have hlen := hn
    simp only [nodes, List.length_cons, List.length_append] at hlen
    have hb := (ihb hb (by omega)).1
    obtain ⟨-, ho⟩ := iho ho (by omega)
    have hr := (ihr hr (by omega)).1
    have halt (hoo : o.IsOther g) : ((node i l b o r).alternatives.map (·.1) ++
        ((b.points true).flatMap g.contents ++ ((o.points false).flatMap g.contents ++
          (r.points true).flatMap g.contents))).Perm
            (b.entry.toList ++ (b.starts g ++ (o.starts g ++ r.starts g))) := by
      have hmap : (node i l b o r).alternatives.map (·.1) =
          b.entry.toList ++ o.alternatives.map (·.1) := by
        simp [alternatives, Function.comp_def]
      rw [hmap, List.append_assoc]
      refine .append_left _ ((List.perm_append_comm_assoc ..).trans (hb.append ?_))
      rw [← List.append_assoc]
      exact (ho hoo).append hr
    refine ⟨?_, ?_⟩
    · have hpoints : ((node i l b o r).points true).flatMap g.contents =
          g.contents i ++ ((b.points true).flatMap g.contents ++
            ((o.points false).flatMap g.contents ++ (r.points true).flatMap g.contents)) := by
        simp [points]
      rw [hpoints]
      cases hk : g.kind i with
      | alt e d =>
        rw [hk] at hf
        have hcontents : g.contents i = (node i l b o r).alternatives.map (·.1) := by
          rw [Graph.contents, hk, Graph.alternatives, alternativesFrom_eq hs rfl hk hn]
        rw [hcontents]
        exact halt hf.2.2.2
      | opt e | iter e =>
        rw [hk] at hf
        obtain ⟨-, hbe, rfl⟩ := hf
        have hcontents : g.contents i = b.entry.toList := by
          rw [Graph.contents, hk, hbe]
          rfl
        rw [hcontents]
        exact .append_left _ (hb.append hr)
      | _ =>
        rw [hk] at hf
        obtain ⟨-, rfl, rfl⟩ := hf
        have hcontents : g.contents i = [] := by rw [Graph.contents, hk]
        rw [hcontents]
        exact hr
    · rintro ⟨rfl, e, d, hk⟩
      rw [hk] at hf
      have h := halt hf.2.2.2
      simpa [points] using h

end Shape

namespace Graph

/-- The walk reports `f` at a node, then what it meets inside it, and goes on behind it. It is told
whether it starts with the first node of a content. -/
structure Visits {α : Type} (g : Graph) (walk : Nat → Bool → Option NodeId → List α)
    (f : Bool → NodeId → List α) : Prop where
  ends : ∀ fuel c, walk (fuel + 1) c none = []
  step : ∀ fuel c i, (walk (fuel + 1) c (some i)).Perm
    (f c i ++ (((g.contents i).flatMap fun j => walk fuel true (some j)) ++
      if (g.node i).up then [] else walk fuel false (g.next i)))

/-- The walks through a group, and through the contents of further alternatives, report what there
is to report where a parser can stand. -/
structure Visited {α : Type} (g : Graph) (walk : Nat → Bool → Option NodeId → List α)
    (f : Bool → NodeId → List α) (s : Shape) : Prop where
  group : ∀ c fuel, s.nodes.length < fuel →
    (walk fuel c s.entry).Perm ((s.stops (some c)).flatMap fun p => f p.2 p.1)
  others : s.IsOther g → ∀ fuel, s.nodes.length < fuel →
    (s.alternatives.flatMap fun p => walk fuel true (some p.1)).Perm
      ((s.stops none).flatMap fun p => f p.2 p.1)

variable {α : Type} {g : Graph} {walk : Nat → Bool → Option NodeId → List α}
  {f : Bool → NodeId → List α} {q : Option NodeId} {l up : Bool} {x b o y : Shape} {i e : NodeId}
  {d : Option NodeId} {fuel : Nat}

/-- The walks through the contents of alternatives. -/
theorem Visited.alternatives (hb : Visited g walk f b) (ho : Visited g walk f o)
    (hr : Shape.Refers g (.alt e d) l b o) (hf : b.nodes.length + o.nodes.length < fuel) :
    ((Shape.node i l b o y).alternatives.flatMap fun p => walk fuel true (some p.1)).Perm
      ((b.stops (some true) ++ o.stops none).flatMap fun p => f p.2 p.1) := by
  obtain ⟨-, hbe, -, hoo⟩ := hr
  have h := hb.group true fuel (by omega)
  rw [hbe] at h
  rw [Shape.alternatives, List.flatMap_append, List.flatMap_append, hbe]
  simpa using h.append (ho.others hoo fuel (by omega))

/-- The walks inside a node. -/
theorem Visited.inside (hb : Visited g walk f b) (ho : Visited g walk f o)
    (hs : (Shape.node i l b o y).Fits g (· = q) up)
    (hn : (Shape.node i l b o y).nodes.length ≤ g.size)
    (hf : b.nodes.length + o.nodes.length < fuel) :
    ((g.contents i).flatMap fun j => walk fuel true (some j)).Perm
      ((b.stops (some true) ++ o.stops none).flatMap fun p => f p.2 p.1) := by
  have hr := hs.1
  unfold contents
  cases hk : g.kind i with
  | alt e d =>
    have hi : g.alternatives i = (Shape.node i l b o y).alternatives :=
      Shape.alternativesFrom_eq hs rfl hk hn
    rw [hk] at hr
    dsimp only
    rw [List.flatMap_map, hi]
    exact hb.alternatives ho hr hf
  | opt e | iter e =>
    rw [hk] at hr
    obtain ⟨-, hbe, rfl⟩ := hr
    have h := hb.group true fuel (by omega)
    rw [hbe] at h
    simpa [Shape.stops] using h
  | _ =>
    rw [hk] at hr
    obtain ⟨-, rfl, rfl⟩ := hr
    simp [Shape.stops]

/-- The walk behind a node. -/
theorem Visited.behind (hW : g.Visits walk f) (hy : Visited g walk f y)
    (hl : Shape.Leads g (· = q) up i y) (hq : up = false → q = none)
    (hf : y.nodes.length < fuel) :
    (if (g.node i).up then [] else walk fuel false (g.next i)).Perm
      ((y.stops (some false)).flatMap fun p => f p.2 p.1) := by
  obtain ⟨fuel, rfl⟩ : ∃ n, fuel = n + 1 := ⟨fuel - 1, by omega⟩
  by_cases hn : y = .nil
  · subst hn
    obtain ⟨hnext, hup⟩ := hl.of_nil
    rw [hup, hnext]
    cases up with
    | true => exact .refl _
    | false =>
      rw [hq rfl, hW.ends]
      exact .refl _
  · obtain ⟨hnext, hup⟩ := hl.of_ne hn
    rw [hup, hnext]
    exact hy.group false _ hf

/-- A walk with enough fuel reports what there is to report where a parser can stand. -/
theorem Visits.visited (hW : g.Visits walk f) (hs : x.Fits g (· = q) up)
    (hq : up = false → q = none) (hn : x.nodes.length ≤ g.size) : Visited g walk f x := by
  induction x generalizing q up with
  | nil =>
    refine ⟨fun c fuel hf => ?_, fun _ _ _ => .refl _⟩
    obtain ⟨fuel, rfl⟩ : ∃ n, fuel = n + 1 := ⟨fuel - 1, by omega⟩
    rw [Shape.entry, hW.ends]
    exact .refl _
  | node i l b o y ihb iho ihy =>
    obtain ⟨hr, hl, -, -, hfy⟩ := id hs
    have hlen := hn
    simp only [Shape.nodes, List.length_cons, List.length_append] at hlen
    have hb := ihb hs.body (by simp) (by omega)
    have ho := iho hs.others (by simp) (by omega)
    have hy := ihy hfy hq (by omega)
    refine ⟨fun c fuel hf => ?_, ?_⟩
    · obtain ⟨fuel, rfl⟩ : ∃ n, fuel = n + 1 := ⟨fuel - 1, by omega⟩
      simp only [Shape.nodes, List.length_cons, List.length_append] at hf
      have hin := hb.inside ho hs hn (show b.nodes.length + o.nodes.length < fuel by omega)
      have hout := hy.behind hW hl hq (show y.nodes.length < fuel by omega)
      refine (hW.step fuel c i).trans ?_
      simpa [Shape.stops] using (hin.append hout).append_left (f c i)
    · rintro ⟨rfl, e, d, hk⟩ fuel hf
      simp only [Shape.nodes, List.length_cons, List.length_append] at hf
      rw [hk] at hr
      have h := hb.alternatives ho hr (i := i) (y := .nil)
        (show b.nodes.length + o.nodes.length < fuel by omega)
      simpa [Shape.stops] using h

end Graph

namespace Table

variable {t : Table} {a : SymbolId} {i r : NodeId} {s : Shape}

/-- In the production of `a` the node is the first one of an alternative, or of the content of an
option or iteration. -/
def StartsContent (t : Table) (a : SymbolId) (i : NodeId) : Prop :=
  ∃ j, t.Within a j ∧ (t.graph.kind j).sub? = some i

section

open Classical

/-- The nodes of a production where a parser can stand. -/
noncomputable def places (t : Table) (a : SymbolId) : List NodeId :=
  (List.range t.graph.size).filter (t.Passed a)

theorem Formed.mem_places (ht : t.Formed) : i ∈ t.places a ↔ t.Passed a i := by
  unfold places
  rw [List.mem_filter, List.mem_range, decide_eq_true_eq]
  refine ⟨And.right, fun hi => ⟨?_, hi⟩⟩
  obtain ⟨r, s, -, hs, hi⟩ := ht.within_iff.mp (hi.within ht)
  exact hs.lt i hi

theorem nodup_places (t : Table) (a : SymbolId) : (t.places a).Nodup :=
  List.nodup_range.filter _

theorem Formed.places_eq_nil (ht : t.Formed) (hr : (t.symbol a).root = none) :
    t.places a = [] := by
  refine List.eq_nil_iff_forall_not_mem.mpr fun i hi => ?_
  obtain ⟨r, s, hr', -, -⟩ := ht.within_iff.mp ((ht.mem_places.mp hi).within ht)
  cases hr.symm.trans hr'

/-- The places as the tree of the production has them. -/
theorem Formed.points_perm_places (ht : t.Formed) (hr : (t.symbol a).root = some r)
    (hs : t.graph.Closed r s) : (s.points true).Perm (t.places a) := by
  refine (List.perm_ext_iff_of_nodup (hs.nodup.sublist (Shape.points_sublist true s))
    (t.nodup_places a)).mpr fun i => ?_
  exact (ht.passed_iff hr hs).symm.trans ht.mem_places.symm

theorem stops_eq (hr : (t.symbol a).root = some r) (hs : t.graph.Closed r s) :
    s.stops (some false) = (s.points true).map fun i => (i, decide (t.StartsContent a i)) := by
  have hpoints : (s.stops (some false)).map (·.1) = s.points true := s.map_stops (some false)
  have hnodup : ((s.stops (some false)).map (·.1)).Nodup := by
    rw [hpoints]
    exact hs.nodup.sublist (Shape.points_sublist true s)
  have hmark : ∀ p ∈ s.stops (some false), p = (p.1, decide (t.StartsContent a p.1)) := by
    rintro ⟨i, c⟩ hp
    cases c with
    | true =>
      obtain ⟨h, -⟩ | ⟨j, hj, hk⟩ := hs.fits.of_mem_stops hp
      · cases h
      · simp [show t.StartsContent a i from ⟨j, (within_iff_of_closed hr hs).mpr hj, hk⟩]
    | false =>
      have hno : ¬t.StartsContent a i := by
        rintro ⟨j, hj, hk⟩
        have hp' : (i, true) ∈ s.stops (some false) :=
          hs.fits.mem_stops ((within_iff_of_closed hr hs).mp hj) hk
        cases List.inj_on_of_nodup_map hnodup hp hp' rfl
      simp [hno]
  calc s.stops (some false)
      = (s.stops (some false)).map fun p => (p.1, decide (t.StartsContent a p.1)) :=
        (List.map_id'' (fun _ => rfl) _).symm.trans (List.map_congr_left hmark)
    _ = (s.points true).map fun i => (i, decide (t.StartsContent a i)) := by
        rw [← hpoints, List.map_map]
        rfl

/-- No content starts at a node of two places. -/
theorem Formed.nodup_contents (ht : t.Formed) (a : SymbolId) :
    ((t.places a).flatMap t.graph.contents).Nodup := by
  cases hr : (t.symbol a).root with
  | none => rw [ht.places_eq_nil hr]; exact .nil
  | some r =>
    obtain ⟨s, hs⟩ := ht.laid a r hr
    have hlen := Graph.length_le_of_nodup hs.nodup hs.lt
    refine (List.Perm.nodup_iff ?_).mp (hs.nodup.sublist
      ((List.sublist_append_right ..).trans hs.fits.starts_sublist))
    exact ((List.Perm.flatMap_right _ (ht.points_perm_places hr hs)).symm.trans
      (hs.fits.contents_perm hlen).1).symm

theorem Formed.within_of_mem_contents (ht : t.Formed) (hi : t.Within a i) {j : NodeId}
    (hj : j ∈ t.graph.contents i) : t.Within a j := by
  unfold Graph.contents at hj
  split at hj
  · obtain ⟨p, hp, rfl⟩ := List.mem_map.mp hj
    exact (ht.within_of_alternative hi hp).1
  · rename_i hk
    exact List.mem_singleton.mp hj ▸ hi.sub (by rw [hk]; rfl)
  · rename_i hk
    exact List.mem_singleton.mp hj ▸ hi.sub (by rw [hk]; rfl)
  · cases hj

/-- Every content belongs to one place. -/
theorem Formed.place_unique (ht : t.Formed) (hap : t.Apart) {b : SymbolId} {j k : NodeId}
    (hi : t.Passed a i) (hj : t.Passed b j) (hki : k ∈ t.graph.contents i)
    (hkj : k ∈ t.graph.contents j) : a = b ∧ i = j := by
  obtain rfl := hap a b k (ht.within_of_mem_contents (hi.within ht) hki)
    (ht.within_of_mem_contents (hj.within ht) hkj)
  refine ⟨rfl, ?_⟩
  by_contra hne
  have hdisjoint := (List.nodup_flatMap.mp (ht.nodup_contents a)).2
  have : Std.Symm (Function.onFun List.Disjoint t.graph.contents) := ⟨fun _ _ h => h.symm⟩
  exact hdisjoint.forall (ht.mem_places.mpr hi) (ht.mem_places.mpr hj) hne hki hkj

/-- A walk through a production comes to every place once. -/
theorem Formed.visits_production {α : Type} {walk : Nat → Bool → Option NodeId → List α}
    {f : Bool → NodeId → List α} (ht : t.Formed) (hW : t.graph.Visits walk f) (a : SymbolId) :
    (walk (t.graph.size + 1) false (t.symbol a).root).Perm
      ((t.places a).flatMap fun i => f (decide (t.StartsContent a i)) i) := by
  cases hr : (t.symbol a).root with
  | none =>
    rw [ht.places_eq_nil hr, hW.ends]
    exact .refl _
  | some r =>
    obtain ⟨s, hs⟩ := ht.laid a r hr
    have hlen := Graph.length_le_of_nodup hs.nodup hs.lt
    have h := (hW.visited hs.fits (fun _ => rfl) hlen).group false _ (Nat.lt_succ_of_le hlen)
    rw [hs.entry, stops_eq hr hs, List.flatMap_map] at h
    exact h.trans (List.Perm.flatMap_right _ (ht.points_perm_places hr hs))

end

end Table

end Lookahead
