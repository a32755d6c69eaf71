import Lookahead.Proofs.Singles
import Mathlib.Data.Set.Finite.Basic
import Mathlib.Order.Preorder.Finite

/-!
# Circularity

Steps that no step leads to, or leads on from, are dropped until none is left that can be. What
remains is the largest part of the relation in which every step is linked to others at both ends
(`Table.Pruned`). As the relation is finite, a walk along the links comes back to where it has been,
so something remains if and only if there is a cycle (`Grammar.circular_of_parse`).

A step need not be on a cycle to remain: it is enough that a cycle leads to it and that it leads to
a cycle (`Grammar.circularSteps_of_parse`), which need not be the same (`Grammar.suspended_joined`).
-/

namespace Lookahead

open Relation

section

variable {α : Type} {r r' : α → α → Prop} {a b : α}

/-- A step that a cycle leads to and that leads to a cycle. -/
structure Suspended (r : α → α → Prop) (a b : α) : Prop where
  step : r a b
  behind : ∃ c, TransGen r c c ∧ ReflTransGen r c a
  ahead : ∃ c, TransGen r c c ∧ ReflTransGen r b c

/-- A step on a cycle is one of them. -/
theorem Suspended.of_cycle (h : r a b) (hba : ReflTransGen r b a) : Suspended r a b where
  step := h
  behind := ⟨a, .head' h hba, .refl⟩
  ahead := ⟨a, .head' h hba, hba⟩

/-- From where every element of a finite set has a successor in it, a cycle can be reached. -/
theorem exists_cycle {s : Set α} (hs : s.Finite) (h : ∀ x ∈ s, ∃ y ∈ s, r x y) (ha : a ∈ s) :
    ∃ c, TransGen r c c ∧ ReflTransGen r a c := by
  choose! f hf hr using h
  have hmem (n : Nat) : f^[n] a ∈ s := by
    induction n with
    | zero => exact ha
    | succ n ih =>
      rw [Function.iterate_succ_apply']
      exact hf _ ih
  have hstep (n : Nat) : r (f^[n] a) (f^[n + 1] a) := by
    rw [Function.iterate_succ_apply']
    exact hr _ (hmem n)
  obtain ⟨m, n, hmn, he⟩ := hs.exists_lt_map_eq_of_forall_mem hmem
  have hcycle : TransGen r (f^[m] a) (f^[n] a) :=
    Nat.rel_of_forall_rel_succ_of_lt (TransGen r) (f := (f^[·] a)) (fun n => .single (hstep n)) hmn
  refine ⟨f^[m] a, he ▸ hcycle, ?_⟩
  exact Nat.rel_of_forall_rel_succ_of_le (ReflTransGen r) (f := (f^[·] a))
    (fun n => .single (hstep n)) (Nat.zero_le m)

end

namespace Table

/-! ### Pruning -/

variable {l m : List Step} {S : Set Step} {s : Step} {fuel : Nat}

/-- Each of the steps leads on to one of them, and one of them leads to it. -/
def Linked (S : Set Step) : Prop := ∀ s ∈ S, (∃ r ∈ S, r.1 = s.2) ∧ ∃ r ∈ S, r.2 = s.1

theorem mem_linked_iff :
    s ∈ linked l ↔ s ∈ l ∧ (∃ r ∈ l, r.1 = s.2) ∧ ∃ r ∈ l, r.2 = s.1 := by
  simp [linked]

/-- The steps `m` are the largest linked part of `l`. -/
structure Pruned (l m : List Step) : Prop where
  sublist : m.Sublist l
  linked : Linked {s | s ∈ m}
  greatest : ∀ S, Linked S → (∀ s ∈ S, s ∈ l) → ∀ s ∈ S, s ∈ m

/-- Dropping stops by itself, as every round drops a step. -/
theorem pruned_pruneSteps (hf : l.length < fuel) : Pruned l (pruneSteps fuel l) := by
  induction fuel generalizing l with
  | zero => exact absurd hf (Nat.not_lt_zero _)
  | succ fuel ih =>
    have hsub : (linked l).Sublist l := List.filter_sublist
    simp only [pruneSteps]
    split
    · rename_i hlen
      have heq : linked l = l := hsub.eq_of_length hlen
      rw [heq]
      exact ⟨.refl l, fun s hs => (mem_linked_iff.mp (heq.symm ▸ hs)).2, fun S _ h => h⟩
    · rename_i hlen
      have hlt := Nat.lt_of_le_of_ne hsub.length_le hlen
      obtain ⟨h₁, h₂, h₃⟩ := @ih (linked l) (by omega)
      refine ⟨h₁.trans hsub, h₂, fun S hS h => h₃ S hS fun s hs => ?_⟩
      obtain ⟨⟨r, hr, hrs⟩, q, hq, hqs⟩ := hS s hs
      exact mem_linked_iff.mpr ⟨h s hs, ⟨r, h r hr, hrs⟩, q, h q hq, hqs⟩

/-- What remains are the steps between cycles. -/
theorem Pruned.mem_iff (h : Pruned l m) {a b : SymbolId} :
    (a, b) ∈ m ↔ Suspended (fun x y => (x, y) ∈ l) a b := by
  have hfin : {s | s ∈ m}.Finite := m.finite_toSet
  have hl {x y : SymbolId} (hxy : (x, y) ∈ m) : (x, y) ∈ l := h.sublist.subset hxy
  refine ⟨fun hs => ⟨hl hs, ?_, ?_⟩, fun hs => ?_⟩
  · -- backwards along the steps that remain
    obtain ⟨c, hc, hac⟩ := exists_cycle (r := Function.swap fun x y => (x, y) ∈ l)
      (hfin.image Prod.fst) (by
        rintro _ ⟨⟨x, y⟩, hxy, rfl⟩
        obtain ⟨-, ⟨z, x⟩, hzx, rfl⟩ := h.linked _ hxy
        exact ⟨z, ⟨_, hzx, rfl⟩, hl hzx⟩) ⟨_, hs, rfl⟩
    exact ⟨c, transGen_swap.mp hc, reflTransGen_swap.mp hac⟩
  · exact exists_cycle (hfin.image Prod.snd) (by
      rintro _ ⟨⟨x, y⟩, hxy, rfl⟩
      obtain ⟨⟨⟨y, z⟩, hyz, rfl⟩, -⟩ := h.linked _ hxy
      exact ⟨z, ⟨_, hyz, rfl⟩, hl hyz⟩) ⟨_, hs, rfl⟩
  · refine h.greatest {s | Suspended (fun x y => (x, y) ∈ l) s.1 s.2} ?_
      (fun s hs => Suspended.step hs) _ hs
    rintro ⟨x, y⟩ ⟨hxy, ⟨c, hc, hcx⟩, d, hd, hyd⟩
    obtain ⟨z, hyz, hzd⟩ := TransGen.head'_iff.mp (TransGen.trans_right hyd hd)
    obtain ⟨w, hcw, hwx⟩ := TransGen.tail'_iff.mp (TransGen.trans_left hc hcx)
    exact ⟨⟨(y, z), ⟨hyz, ⟨c, hc, hcx.tail hxy⟩, d, hd, hzd⟩, rfl⟩,
      (w, x), ⟨hwx, ⟨c, hc, hcw⟩, d, hd, hyd.head hxy⟩, rfl⟩

theorem pruned_circularSteps (t : Table) : Pruned t.singleSteps t.circularSteps :=
  pruned_pruneSteps (Nat.lt_succ_self _)

/-! ### The single steps of a grammar -/

variable {t : Table} {a b c : SymbolId}

theorem SingleStep.mem_nonterminals (ht : t.Formed) (h : t.SingleStep a b) :
    b ∈ t.nonterminals := by
  obtain ⟨w, ⟨r, -, hw⟩, x, y, rfl, -, -⟩ := h
  exact hw.mem_nonterminals ht.allows b (by simp)

section

variable (ht : t.Formed) (he : Exact t)
include ht he

theorem Exact.reflTransGen_singleSteps_iff (ha : a ∈ t.nonterminals) :
    ReflTransGen (fun x y => (x, y) ∈ t.singleSteps) a b ↔ ReflTransGen t.SingleStep a b := by
  refine ⟨ReflTransGen.mono (fun x y hxy => ((he.mem_singleSteps_iff ht).mp hxy).2) _ _,
    fun h => ?_⟩
  induction h using ReflTransGen.head_induction_on with
  | refl => exact .refl
  | head hstep _ ih =>
    exact .head ((he.mem_singleSteps_iff ht).mpr ⟨ha, hstep⟩) (ih (hstep.mem_nonterminals ht))

theorem Exact.transGen_singleSteps_iff :
    TransGen (fun x y => (x, y) ∈ t.singleSteps) a b ↔
      a ∈ t.nonterminals ∧ TransGen t.SingleStep a b := by
  rw [TransGen.head'_iff, TransGen.head'_iff]
  refine ⟨?_, ?_⟩
  · rintro ⟨c, hac, hcb⟩
    obtain ⟨ha, hac⟩ := (he.mem_singleSteps_iff ht).mp hac
    exact ⟨ha, c, hac, (he.reflTransGen_singleSteps_iff ht (hac.mem_nonterminals ht)).mp hcb⟩
  · rintro ⟨ha, c, hac, hcb⟩
    exact ⟨c, (he.mem_singleSteps_iff ht).mpr ⟨ha, hac⟩,
      (he.reflTransGen_singleSteps_iff ht (hac.mem_nonterminals ht)).mpr hcb⟩

/-- What remains of the single steps are those between cycles. -/
theorem Exact.mem_circularSteps_iff :
    (a, b) ∈ t.circularSteps ↔ a ∈ t.nonterminals ∧ Suspended t.SingleStep a b := by
  have hcycle {c : SymbolId} (hc : TransGen t.SingleStep c c) : c ∈ t.nonterminals := by
    obtain ⟨d, -, hdc⟩ := TransGen.tail'_iff.mp hc
    exact hdc.mem_nonterminals ht
  rw [t.pruned_circularSteps.mem_iff]
  refine ⟨?_, ?_⟩
  · rintro ⟨hab, ⟨c, hc, hca⟩, d, hd, hbd⟩
    obtain ⟨ha, hab⟩ := (he.mem_singleSteps_iff ht).mp hab
    obtain ⟨hcn, hc⟩ := (he.transGen_singleSteps_iff ht).mp hc
    obtain ⟨-, hd⟩ := (he.transGen_singleSteps_iff ht).mp hd
    exact ⟨ha, hab, ⟨c, hc, (he.reflTransGen_singleSteps_iff ht hcn).mp hca⟩, d, hd,
      (he.reflTransGen_singleSteps_iff ht (hab.mem_nonterminals ht)).mp hbd⟩
  · rintro ⟨ha, hab, ⟨c, hc, hca⟩, d, hd, hbd⟩
    exact ⟨(he.mem_singleSteps_iff ht).mpr ⟨ha, hab⟩,
      ⟨c, (he.transGen_singleSteps_iff ht).mpr ⟨hcycle hc, hc⟩,
        (he.reflTransGen_singleSteps_iff ht (hcycle hc)).mpr hca⟩,
      d, (he.transGen_singleSteps_iff ht).mpr ⟨hcycle hd, hd⟩,
      (he.reflTransGen_singleSteps_iff ht (hab.mem_nonterminals ht)).mpr hbd⟩

/-- Some step remains if and only if a nonterminal derives itself alone. -/
theorem Exact.circularSteps_ne_nil_iff : t.circularSteps ≠ [] ↔
    ∃ a ∈ t.nonterminals, TransGen t.Rewrites [.nonterminal a] [.nonterminal a] := by
  simp only [transGen_rewrites_iff]
  refine ⟨fun h => ?_, ?_⟩
  · obtain ⟨⟨a, b⟩, hs⟩ := List.exists_mem_of_ne_nil _ h
    obtain ⟨ha, hs⟩ := (he.mem_circularSteps_iff ht).mp hs
    obtain ⟨c, hc, -⟩ := hs.ahead
    obtain ⟨d, -, hdc⟩ := TransGen.tail'_iff.mp hc
    exact ⟨c, hdc.mem_nonterminals ht, hc⟩
  · rintro ⟨a, ha, hcycle⟩
    obtain ⟨b, hab, hba⟩ := TransGen.head'_iff.mp hcycle
    exact List.ne_nil_of_mem ((he.mem_circularSteps_iff ht).mpr ⟨ha, .of_cycle hab hba⟩)

end

/-- The check fails if and only if it reports an error. -/
theorem failed_checkNotCircular (t : Table) :
    t.checkNotCircular.failed = !t.checkNotCircular.value := by
  unfold checkNotCircular Noted.failed
  cases t.circularSteps <;> rfl

theorem value_checkNotCircular (t : Table) :
    t.checkNotCircular.value = false ↔ t.circularSteps ≠ [] := by
  simp [checkNotCircular]

end Table

namespace Grammar

variable {source : String} {cfg : Config} {log : Log} {g : Grammar}

/-- A grammar is found to be circular, and an error is reported, if and only if a nonterminal
derives itself alone. -/
theorem circular_of_parse (h : (Grammar.parse source cfg log).2 = .ok g) :
    (g.table.computeDeletable.value.checkNotCircular.value = false ↔
      ∃ a ∈ g.table.computeDeletable.value.nonterminals,
        TransGen g.table.computeDeletable.value.Rewrites [.nonterminal a] [.nonterminal a]) ∧
    g.table.computeDeletable.value.checkNotCircular.failed =
      !g.table.computeDeletable.value.checkNotCircular.value := by
  obtain ⟨ht, hd, -⟩ := formed_parse h
  obtain ⟨hsame, he⟩ := ht.exact_computeDeletable hd
  exact ⟨(Table.value_checkNotCircular _).trans (he.circularSteps_ne_nil_iff (hsame.formed ht)),
    Table.failed_checkNotCircular _⟩

/-- A sign and a value derive each other, with a nonterminal around them that derives only the empty
form. -/
def signed : String :=
  "COMPILER Signed\nPRODUCTIONS\nSigned = [\"-\"] Value Blank.\n" ++
    "Value = \"x\" | Blank \x7b Signed | \"y\" \x7d.\nBlank = .\nEND Signed."

set_option maxRecDepth 100000 in
theorem found_signed : ∃ g, (Grammar.parse signed default {}).2 = .ok g ∧
    !g.table.computeDeletable.value.checkNotCircular.value :=
  exists_ok_of_any (by decide +kernel)

theorem circular_signed : ∃ g, (Grammar.parse signed default {}).2 = .ok g ∧
    ∃ a ∈ g.table.computeDeletable.value.nonterminals,
      TransGen g.table.computeDeletable.value.Rewrites [.nonterminal a] [.nonterminal a] := by
  obtain ⟨g, hg, hv⟩ := found_signed
  exact ⟨g, hg, (circular_of_parse hg).1.mp (by simpa using hv)⟩

/-- The errors of the check are about the steps between cycles, one about each. -/
theorem circularSteps_of_parse (h : (Grammar.parse source cfg log).2 = .ok g) :
    ∃ steps : List Table.Step, steps.Nodup ∧
      (∀ a b, (a, b) ∈ steps ↔ a ∈ g.table.computeDeletable.value.nonterminals ∧
        Suspended g.table.computeDeletable.value.SingleStep a b) ∧
      g.table.computeDeletable.value.checkNotCircular.events = steps.map fun s =>
        .report (.error (.circular (g.table.computeDeletable.value.symbol s.1).name
          (g.table.computeDeletable.value.symbol s.2).name)) := by
  obtain ⟨ht, hd, -⟩ := formed_parse h
  obtain ⟨hsame, he⟩ := ht.exact_computeDeletable hd
  exact ⟨_, (Table.nodup_singleSteps _).sublist (Table.pruned_circularSteps _).sublist,
    fun _ _ => he.mem_circularSteps_iff (hsame.formed ht), rfl⟩

/-- Two nonterminals that derive themselves alone, and one of them the other one. -/
def joined : String :=
  "COMPILER A\nPRODUCTIONS\nA = A | B | \"a\".\nB = B | \"b\".\nEND A."

set_option maxRecDepth 100000 in
theorem singleSteps_joined : ∃ g, (Grammar.parse joined default {}).2 = .ok g ∧
    (g.table.checkComplete.value &&
      g.table.computeDeletable.value.singleSteps = [(1, 1), (1, 2), (2, 2)] &&
      (g.table.computeDeletable.value.symbol 1).name = "A" &&
      (g.table.computeDeletable.value.symbol 2).name = "B") = true :=
  exists_ok_of_any (by decide +kernel)

theorem circularSteps_joined : ∃ g, (Grammar.parse joined default {}).2 = .ok g ∧
    ∃ steps : List Table.Step, steps.Nodup ∧
      (∀ a b, (a, b) ∈ steps ↔ a ∈ g.table.computeDeletable.value.nonterminals ∧
        Suspended g.table.computeDeletable.value.SingleStep a b) ∧
      g.table.computeDeletable.value.checkNotCircular.events = steps.map fun s =>
        .report (.error (.circular (g.table.computeDeletable.value.symbol s.1).name
          (g.table.computeDeletable.value.symbol s.2).name)) := by
  obtain ⟨g, hg, -⟩ := singleSteps_joined
  exact ⟨g, hg, circularSteps_of_parse hg⟩

set_option maxRecDepth 100000 in
/-- A step is reported that is on no cycle. -/
theorem suspended_joined : ∃ g, (Grammar.parse joined default {}).2 = .ok g ∧
    (Grammar.parse joined default {}).1.errorCount = Log.errorCount {} ∧
    g.table.checkComplete.value = true ∧
    ∃ a b, (g.table.computeDeletable.value.symbol a).name = "A" ∧
      (g.table.computeDeletable.value.symbol b).name = "B" ∧
      .report (.error (.circular "A" "B")) ∈
        g.table.computeDeletable.value.checkNotCircular.events ∧
      ¬ ReflTransGen g.table.computeDeletable.value.SingleStep b a := by
  obtain ⟨g, hg, h⟩ := singleSteps_joined
  simp only [Bool.and_eq_true, decide_eq_true_eq] at h
  obtain ⟨⟨⟨hc, hsteps⟩, hA⟩, hB⟩ := h
  obtain ⟨ht, hd, -⟩ := formed_parse hg
  obtain ⟨hsame, he⟩ := ht.exact_computeDeletable hd
  have ht := hsame.formed ht
  refine ⟨g, hg, by decide +kernel, hc, 1, 2, hA, hB, ?_, fun h => ?_⟩
  · have : g.table.computeDeletable.value.circularSteps = [(1, 1), (1, 2), (2, 2)] := by
      rw [Table.circularSteps, hsteps]
      decide
    simp [Table.checkNotCircular, this, hA, hB]
  · have hb : 2 ∈ g.table.computeDeletable.value.nonterminals :=
      ((he.mem_singleSteps_iff (b := 2) ht).mp (by rw [hsteps]; simp)).1
    rw [← he.reflTransGen_singleSteps_iff ht hb, hsteps] at h
    -- from the second nonterminal the steps lead nowhere else
    have hstay : ∀ x, ReflTransGen (fun x y => (x, y) ∈ [(1, 1), (1, 2), (2, 2)]) 2 x → x = 2 := by
      intro x hx
      induction hx with
      | refl => rfl
      | tail _ hstep ih => simpa [ih] using hstep
    exact absurd (hstay 1 h) (by decide)

end Grammar

end Lookahead
