import Lookahead.Check.Conflicts
import Lookahead.Proofs.Reduced
import Lookahead.Proofs.Reports
import Lookahead.Proofs.Visits

/-!
# Which conflicts are reported

The check comes to every place where a parser can stand, and reports there what the sets of the
choices have in common (`Table.Formed.reports_checkConflicts`). As these sets are exact, it reports
the terminals that can come next behind several choices, and nothing else
(`Grammar.reports_of_analyze`).
-/

namespace Lookahead

namespace Table

variable {t : Table} {a b : SymbolId} {i : NodeId} {p q : Option NodeId} {s r : IndexSet}
  {k : Conflict} {fuel : Nat}

/-- The warning about a terminal, or about no particular one. -/
def ll1 (t : Table) (a : SymbolId) (terminal : Option SymbolId) (k : Conflict) : Diagnostic :=
  .warning (.ll1 (t.symbol a).name (terminal.map fun b => (t.symbol b).name) k)

/-- The terminal is in the set. -/
def contains (t : Table) (s : IndexSet) (b : SymbolId) : Bool := s.get (t.symbol b).index

@[simp] theorem reports_emit_conflict (terminal : Option SymbolId) :
    (Noted.emit (t.conflict a terminal k)).reports = [t.ll1 a terminal k] := rfl

theorem reports_reportOverlap : (t.reportOverlap a k r s).reports =
    (t.terminals.toList.filter fun b => t.contains r b && t.contains s b).map
      fun b => t.ll1 a (some b) k := by
  simp only [Noted.reports, reportOverlap, List.filterMap_map]
  exact congrFun List.filterMap_eq_map _

/-! ### Alternatives -/

/-- One warning for each alternative that expects the terminal, less one for the first of them if
none has expected it before. -/
def sharedReports (t : Table) (a : SymbolId) (before : IndexSet)
    (l : List (NodeId × Option NodeId)) : List Diagnostic :=
  t.terminals.toList.flatMap fun b => List.replicate
    (l.countP (fun p => t.contains (t.expectedUnresolved (some p.1) a).value b) -
      if t.contains before b then 0 else 1) (t.ll1 a (some b) .severalAlternatives)

theorem map_filter_eq_flatMap {α β : Type} (f : α → β) (c : α → Bool) (l : List α) :
    (l.filter c).map f = l.flatMap fun x => if c x then [f x] else [] := by
  induction l with
  | nil => rfl
  | cons x l ih =>
    rw [List.flatMap_cons, ← ih, List.filter_cons]
    split <;> rfl

/-- A further alternative shares what it expects with those before it. -/
theorem sharedReports_cons (ht : t.Registered) (hr : r.size = t.terminalCount)
    (p : NodeId × Option NodeId) (l : List (NodeId × Option NodeId)) :
    ((t.reportOverlap a .severalAlternatives r (t.expectedUnresolved (some p.1) a).value).reports ++
      t.sharedReports a (r.union (t.expectedUnresolved (some p.1) a).value) l).Perm
        (t.sharedReports a r (p :: l)) := by
  rw [reports_reportOverlap, map_filter_eq_flatMap]
  unfold sharedReports
  refine (List.flatMap_append_perm ..).trans (.of_eq (List.flatMap_congr fun b hb => ?_))
  have hlt : (t.symbol b).index < r.size := by
    rw [hr]
    exact ht.index_lt_size (k := .terminal) (by decide) (Array.mem_toList_iff.mp hb)
  have hunion : t.contains (r.union (t.expectedUnresolved (some p.1) a).value) b =
      (t.contains r b || t.contains (t.expectedUnresolved (some p.1) a).value b) :=
    IndexSet.get_union hlt
  rw [hunion, List.countP_cons]
  cases t.contains r b <;> cases t.contains (t.expectedUnresolved (some p.1) a).value b <;>
    simp [List.replicate_succ]

theorem reports_alternatives (ht : t.Registered) (hr : r.size = t.terminalCount)
    (l : List (NodeId × Option NodeId)) :
    (l.foldlM (fun (before : IndexSet) b => do
        let s ← t.expectedUnresolved (some b.1) a
        t.reportOverlap a .severalAlternatives before s
        t.conflictsFrom a fuel (some b.1)
        return before.union s) r : Noted IndexSet).reports.Perm
      (t.sharedReports a r l ++
        l.flatMap fun p => (t.conflictsFrom a fuel (some p.1)).reports) := by
  induction l generalizing r with
  | nil => simp [sharedReports]
  | cons p l ih =>
    have ih := ih (r := r.union (t.expectedUnresolved (some p.1) a).value)
      (by rw [IndexSet.size_union, hr])
    rw [List.foldlM_cons, List.flatMap_cons]
    simp only [Noted.reports_bind, Noted.value_bind, Noted.value_pure, Noted.reports_pure,
      reports_expectedUnresolved, List.nil_append, List.append_nil, List.append_assoc]
    have hcons := (sharedReports_cons (a := a) ht hr p l).append_right
      ((t.conflictsFrom a fuel (some p.1)).reports ++
        l.flatMap fun p => (t.conflictsFrom a fuel (some p.1)).reports)
    rw [List.append_assoc] at hcons
    exact (((ih.append_left _).trans (List.perm_append_comm_assoc ..)).append_left _).trans hcons

/-! ### Places -/

/-- What is reported at a node, as the sets of its choices have it. -/
def reportsAt (t : Table) (a : SymbolId) (i : NodeId) : List Diagnostic :=
  match t.graph.kind i with
  | .alt _ _ => t.sharedReports a (.empty t.terminalCount) (t.graph.alternatives i)
  | .opt sub | .iter sub =>
    if t.groupDeletable (some sub) then [t.ll1 a none .deletableContent]
    else (t.reportOverlap a .deletableAndSuccessor (t.expectedUnresolved (some sub) a).value
      (t.expected (t.graph.next i) a).value).reports
  | .any set => if set.isEmpty then [t.ll1 a none .emptyWildcard] else []
  | _ => []

/-- The check reports something only at nodes where a parser can stand. -/
theorem visits_conflictsFrom (ht : t.Registered) (a : SymbolId) :
    t.graph.Visits (fun fuel _ p => (t.conflictsFrom a fuel p).reports)
      fun _ i => t.reportsAt a i where
  ends _ _ := rfl
  step fuel _ i := by
    have htail : (if (t.node i).up = true then (return : Noted Unit)
        else t.conflictsFrom a fuel (t.node i).next).reports =
        if (t.graph.node i).up then [] else (t.conflictsFrom a fuel (t.graph.next i)).reports := by
      rw [apply_ite Noted.reports]
      rfl
    unfold reportsAt Graph.contents
    simp only [conflictsFrom]
    split
    · rename_i hk
      rw [show t.graph.kind i = _ from hk, Noted.reports_bind, htail]
      dsimp only
      rw [List.flatMap_map, ← List.append_assoc]
      exact (reports_alternatives ht (IndexSet.size_empty _) _).append_right _
    · rename_i hk
      rw [show t.graph.kind i = _ from hk]
      dsimp only
      split <;> (simp [htail]; try exact .refl _)
    · rename_i hk
      rw [show t.graph.kind i = _ from hk]
      dsimp only
      split <;> (simp [htail]; try exact .refl _)
    · rename_i hk
      rw [show t.graph.kind i = _ from hk]
      dsimp only
      split <;> simp [htail]
    · rename_i h₁ h₂ h₃ h₄
      cases hk : t.graph.kind i with
      | alt sub down => exact (h₁ sub down hk).elim
      | opt sub => exact (h₂ sub hk).elim
      | iter sub => exact (h₃ sub hk).elim
      | any set => exact (h₄ set hk).elim
      | _ => exact .of_eq htail

section

open Classical

/-- The check reports at every place what the sets there have in common. -/
theorem Formed.reports_checkConflicts (ht : t.Formed) : t.checkConflicts.reports.Perm
    (t.nonterminals.toList.flatMap fun a => (t.places a).flatMap (t.reportsAt a)) := by
  unfold checkConflicts
  rw [Noted.reports_forM]
  exact List.Perm.flatMap_left _ fun a _ =>
    ht.visits_production (visits_conflictsFrom ht.registered a) a

/-! ### Conflicts -/

/-- What has to be reported at a place. A terminal is in conflict if it can come next behind several
choices, and a content that vanishes is in conflict with what follows. -/
noncomputable def conflictsAt (t : Table) (a : SymbolId) (i : NodeId) : List Diagnostic :=
  match t.graph.kind i with
  | .alt _ _ => t.terminals.toList.flatMap fun b => List.replicate
      ((t.graph.alternatives i).countP (fun p => t.Comes a i (some p.1) b) - 1)
      (t.ll1 a (some b) .severalAlternatives)
  | .opt sub | .iter sub =>
    if ∃ w, t.Spells (.group (some sub)) w ∧ t.Derives w [] then [t.ll1 a none .deletableContent]
    else (t.terminals.toList.filter fun b =>
      t.Comes a i (some sub) b ∧ t.Comes a i (t.graph.next i) b).map
        fun b => t.ll1 a (some b) .deletableAndSuccessor
  | _ => []

theorem expectedUnresolved_eq (hk : ∀ i, t.graph.kind i ≠ .resolver) (p : Option NodeId)
    (a : SymbolId) : t.expectedUnresolved p a = t.expected p a := by
  unfold expectedUnresolved
  split
  · rename_i h
    obtain ⟨i, -, hi⟩ := Option.map_eq_some_iff.mp h
    exact absurd hi (hk i)
  · rfl

/-- Exact sets have in common what is in conflict. -/
theorem Computed.reportsAt_eq (ht : t.Computed) (hr : t.Reduced)
    (hany : ∀ i set, t.graph.kind i ≠ .any set) (hres : ∀ i, t.graph.kind i ≠ .resolver)
    (ha : a ∈ t.nonterminals) (hi : t.Passed a i) : t.reportsAt a i = t.conflictsAt a i := by
  have hmem {q : Option NodeId} {br : Branch} (hq : t.Options i br q) {b : SymbolId}
      (hb : b ∈ t.terminals.toList) : t.contains (t.expected q a).value b = true ↔
        t.Comes a i q b :=
    ht.expected_iff hr ha hi hq (Array.mem_toList_iff.mp hb)
  have hgroup {sub : NodeId} (hk : t.graph.kind i = .opt sub ∨ t.graph.kind i = .iter sub) :
      (if t.groupDeletable (some sub) then [t.ll1 a none .deletableContent]
        else (t.reportOverlap a .deletableAndSuccessor (t.expected (some sub) a).value
          (t.expected (t.graph.next i) a).value).reports) =
      if ∃ w, t.Spells (.group (some sub)) w ∧ t.Derives w [] then
        [t.ll1 a none .deletableContent]
      else (t.terminals.toList.filter fun b =>
        t.Comes a i (some sub) b ∧ t.Comes a i (t.graph.next i) b).map
          fun b => t.ll1 a (some b) .deletableAndSuccessor := by
    have hsub : (t.graph.kind i).sub? = some sub := by rcases hk with hk | hk <;> rw [hk] <;> rfl
    simp only [ht.exact.groupDeletable_iff ht.formed ((hi.within ht.formed).sub hsub)]
    rw [reports_reportOverlap]
    congr 2
    refine List.filter_congr fun b hb => ?_
    rw [Bool.eq_iff_iff, Bool.and_eq_true, hmem (.enter hk) hb, hmem (.leave hk) hb,
      decide_eq_true_eq]
  unfold reportsAt conflictsAt
  simp only [expectedUnresolved_eq hres]
  cases hk : t.graph.kind i with
  | alt sub down =>
    refine List.flatMap_congr fun b hb => ?_
    have hempty : t.contains (.empty t.terminalCount) b = false := IndexSet.get_empty ..
    simp only [hempty, Bool.false_eq_true, if_false, expectedUnresolved_eq hres]
    congr 2
    refine List.countP_congr fun p hp => ?_
    rw [hmem (.take hk hp) hb, decide_eq_true_eq]
  | opt sub => exact hgroup (.inl hk)
  | iter sub => exact hgroup (.inr hk)
  | any set => exact absurd hk (hany i set)
  | _ => rfl

/-- The check reports the conflicts, and nothing else. -/
theorem Computed.reports_checkConflicts (ht : t.Computed) (hr : t.Reduced)
    (hany : ∀ i set, t.graph.kind i ≠ .any set) (hres : ∀ i, t.graph.kind i ≠ .resolver) :
    t.checkConflicts.reports.Perm
      (t.nonterminals.toList.flatMap fun a => (t.places a).flatMap (t.conflictsAt a)) := by
  refine ht.formed.reports_checkConflicts.trans (.of_eq ?_)
  refine List.flatMap_congr fun a ha => List.flatMap_congr fun i hi => ?_
  exact ht.reportsAt_eq hr hany hres (Array.mem_toList_iff.mp ha)
    (of_decide_eq_true (List.mem_filter.mp hi).2)

end

end Table

namespace Grammar

variable {source : String} {cfg : Config} {log log' : Log} {g : Grammar}

/-- The warnings about an accepted grammar without wildcards and resolvers are its conflicts: one
for each terminal and each alternative but one that it can come next behind, one for each terminal
that can come next both in the content of an option or iteration and behind it, and one for each
content that vanishes. -/
theorem reports_of_analyze (h : (Grammar.parse source cfg log).2 = .ok g)
    (hg : g.table.graph.isPlain = true) (ha : (g.analyze log').2.2 = true) :
    (g.analyze log').2.1.table.checkConflicts.reports.Perm
      ((g.analyze log').2.1.table.nonterminals.toList.flatMap fun a =>
        ((g.analyze log').2.1.table.places a).flatMap
          ((g.analyze log').2.1.table.conflictsAt a)) := by
  obtain ⟨ht, hr, hany, hres⟩ := computed_of_analyze h hg ha
  exact ht.reports_checkConflicts hr hany hres

set_option maxRecDepth 100000 in
theorem accepted_sums : ∃ g, (Grammar.parse sums default {}).2 = .ok g ∧
    (g.table.graph.isPlain && (g.analyze {}).2.2) = true :=
  exists_ok_of_any (by decide +kernel)

theorem reports_sums : ∃ g, (Grammar.parse sums default {}).2 = .ok g ∧
    (g.analyze {}).2.1.table.checkConflicts.reports.Perm
      ((g.analyze {}).2.1.table.nonterminals.toList.flatMap fun a =>
        ((g.analyze {}).2.1.table.places a).flatMap ((g.analyze {}).2.1.table.conflictsAt a)) := by
  obtain ⟨g, hg, h⟩ := accepted_sums
  obtain ⟨hplain, hok⟩ := (Bool.and_eq_true ..).mp h
  exact ⟨g, hg, reports_of_analyze hg hplain hok⟩

end Grammar

end Lookahead
