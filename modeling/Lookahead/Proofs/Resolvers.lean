import Lookahead.Check.Resolvers
import Lookahead.Proofs.Conflicts
import Lookahead.Proofs.Located
import Lookahead.Proofs.Recording
import Lookahead.Proofs.SyncSets

/-!
# Which resolvers are misplaced

The check comes to every place once and reports there what is wrong with a resolver at the place, or
in front of what the place contains (`Table.Formed.reports_checkResolvers`). So it reports an error
at each resolver that starts no content, and no other error (`Grammar.placed_of_parse`). In front of
an alternative it reports a resolver without a conflict if no alternative without a resolver can
start with what the resolver stands for; alternatives with resolvers of their own do not count
(`Grammar.useless_of_parse`).
-/

namespace Lookahead

namespace Noted

variable {α β : Type}

/-- Steps that do something on the side, which does not touch the value that is passed on. -/
theorem reports_foldlM_aside (f : β → α → Noted β) (h : α → Noted Unit) (l : List α) (b : β) :
    (l.foldlM (fun b x => do
      let b ← f b x
      h x
      return b) b).reports.Perm ((l.foldlM f b).reports ++ l.flatMap fun x => (h x).reports) := by
  induction l generalizing b with
  | nil => exact .refl _
  | cons x l ih =>
    rw [List.foldlM_cons, List.foldlM_cons, List.flatMap_cons]
    simp only [reports_bind, value_bind, value_pure, reports_pure, List.append_nil,
      List.append_assoc]
    refine .append_left _ (.trans (.append_left _ (ih _)) ?_)
    exact List.perm_append_comm_assoc ..

/-- What kind of reports each step makes, whatever is passed on to it. -/
theorem filter_foldlM {P : Diagnostic → Bool} {f : β → α → Noted β} {g : α → List Diagnostic}
    (h : ∀ b x, (f b x).reports.filter P = g x) (l : List α) (b : β) :
    (l.foldlM f b).reports.filter P = l.flatMap g := by
  induction l generalizing b with
  | nil => rfl
  | cons x l ih => rw [List.foldlM_cons, reports_bind, List.filter_append, h, ih, List.flatMap_cons]

end Noted

namespace Table

variable {t : Table} {a : SymbolId} {i j : NodeId} {c : Bool} {d : Diagnostic}

/-! ### Places -/

/-- What the alternatives expect that have no resolvers of their own. -/
def unresolved (t : Table) (a : SymbolId) (subs : List NodeId) : IndexSet :=
  (subs.foldlM (fun (r : IndexSet) sub => do
    let s ← t.expectedUnresolved (some sub) a
    return r.union s) (.empty t.terminalCount) : Noted IndexSet).value

/-- What the check reports at a node, not inside it. -/
def resolversAt (t : Table) (a : SymbolId) (atChoice : Bool) (i : NodeId) : List Diagnostic :=
  match t.graph.kind i with
  | .alt _ _ => ((t.graph.contents i).foldlM
      (t.checkAlternative a (t.unresolved a (t.graph.contents i))) (.empty t.terminalCount)).reports
  | .iter sub | .opt sub => (t.checkContent a sub (t.graph.next i)).reports
  | .resolver =>
    if atChoice then [] else [.error .resolverWithoutAlternative (some (t.node i).location)]
  | _ => []

theorem visits_resolversFrom (t : Table) (a : SymbolId) :
    t.graph.Visits (fun fuel c p => (t.resolversFrom a fuel c p).reports) (t.resolversAt a) where
  ends _ _ := rfl
  step fuel c i := by
    have htail : (if (t.node i).up = true then (return : Noted Unit)
        else t.resolversFrom a fuel false (t.node i).next).reports =
        if (t.graph.node i).up then []
        else (t.resolversFrom a fuel false (t.graph.next i)).reports := by
      rw [apply_ite Noted.reports]
      rfl
    unfold resolversAt Graph.contents
    simp only [resolversFrom]
    split
    · rename_i hk
      rw [show t.graph.kind i = _ from hk]
      simp only [Noted.reports_bind, htail]
      rw [Noted.reports_foldlM (fun b sub _ => by simp), List.nil_append, ← List.append_assoc]
      exact (Noted.reports_foldlM_aside ..).append_right _
    · rename_i hk
      rw [show t.graph.kind i = _ from hk]
      simp [htail]
      exact .refl _
    · rename_i hk
      rw [show t.graph.kind i = _ from hk]
      simp [htail]
      exact .refl _
    · rename_i hk
      rw [show t.graph.kind i = _ from hk]
      cases c <;> simp [htail]
    · rename_i h₁ h₂ h₃ h₄
      cases hk : t.graph.kind i with
      | alt sub down => exact (h₁ sub down hk).elim
      | opt sub => exact (h₃ sub hk).elim
      | iter sub => exact (h₂ sub hk).elim
      | resolver => exact (h₄ hk).elim
      | _ => exact .of_eq htail

open Classical in
/-- The check comes to every place once. -/
theorem Formed.reports_checkResolvers (ht : t.Formed) : t.checkResolvers.reports.Perm
    (t.nonterminals.toList.flatMap fun a => (t.places a).flatMap fun i =>
      t.resolversAt a (decide (t.StartsContent a i)) i) := by
  unfold checkResolvers
  rw [Noted.reports_forM]
  exact List.Perm.flatMap_left _ fun a _ => ht.visits_production (t.visits_resolversFrom a) a

/-! ### Single reports -/

theorem reports_checkAlternative (all before : IndexSet) (sub : NodeId) :
    (t.checkAlternative a all before sub).reports = if t.graph.kind sub = .resolver then
      (if (t.expected (t.graph.next sub) a).value.overlaps before then
        [.warning .resolverNeverEvaluated (some (t.node sub).location)] else []) ++
      (reportUseless (t.node sub) ((t.expected (t.graph.next sub) a).value.overlaps all)).reports
    else [] := by
  simp only [checkAlternative]
  split
  · rename_i hk
    rw [if_pos (show t.graph.kind sub = _ from hk),
      show t.graph.next sub = (t.node sub).next from rfl]
    simp
    split <;> rfl
  · rename_i hk
    rw [if_neg (show ¬t.graph.kind sub = _ from hk)]
    simp

theorem reports_checkContent (sub : NodeId) (p : Option NodeId) :
    (t.checkContent a sub p).reports = if t.graph.kind sub = .resolver then
      (reportUseless (t.node sub)
        ((t.firstSet (t.graph.next sub)).overlaps (t.expected p a).value)).reports
    else [] := by
  simp only [checkContent]
  split
  · rename_i hk
    rw [if_pos (show t.graph.kind sub = _ from hk)]
    simp
    rfl
  · rename_i hk
    rw [if_neg (show ¬t.graph.kind sub = _ from hk)]
    rfl

/-! ### Errors -/

theorem Formed.mem_places_of_resolver (ht : t.Formed) (hk : t.graph.kind i = .resolver) :
    i ∈ t.places a ↔ t.Within a i := by
  rw [ht.mem_places]
  refine ⟨fun hi => hi.within ht, fun hi => (ht.passed_or_alternative hi).resolve_right ?_⟩
  rintro ⟨e, d, h⟩
  cases hk.symm.trans h

/-- The error about a resolver that starts no content. -/
def misplacement (t : Table) (i : NodeId) : Diagnostic :=
  .error .resolverWithoutAlternative (some (t.node i).location)

/-- What is reported in front of alternatives and contents are warnings. -/
theorem errors_resolversAt : (t.resolversAt a c i).filter Diagnostic.isError =
    if t.graph.kind i = .resolver ∧ c = false then [t.misplacement i] else [] := by
  have huseless (n : Node) (b : Bool) :
      (reportUseless n b).reports.filter Diagnostic.isError = [] := by
    cases b <;> rfl
  have halternative (all before : IndexSet) (sub : NodeId) :
      (t.checkAlternative a all before sub).reports.filter Diagnostic.isError = [] := by
    rw [reports_checkAlternative]
    split
    · rw [List.filter_append, huseless, List.append_nil]
      split <;> rfl
    · rfl
  have hcontent (sub : NodeId) (p : Option NodeId) :
      (t.checkContent a sub p).reports.filter Diagnostic.isError = [] := by
    rw [reports_checkContent]
    split
    · exact huseless _ _
    · rfl
  unfold resolversAt
  cases hk : t.graph.kind i with
  | alt e d =>
    have h := Noted.filter_foldlM (halternative (t.unresolved a (t.graph.contents i)))
      (t.graph.contents i) (.empty t.terminalCount)
    rw [List.flatMap_eq_nil_iff.mpr fun _ _ => rfl] at h
    simpa using h
  | iter e | opt e => simpa using hcontent e (t.graph.next i)
  | resolver => cases c <;> rfl
  | _ => rfl

section

open Classical

/-- The resolvers of a production that start no content. -/
noncomputable def misplaced (t : Table) (a : SymbolId) : List NodeId :=
  (t.places a).filter fun i => t.graph.kind i = .resolver ∧ ¬t.StartsContent a i

theorem Formed.mem_misplaced (ht : t.Formed) : i ∈ t.misplaced a ↔
    t.Within a i ∧ t.graph.kind i = .resolver ∧ ¬t.StartsContent a i := by
  rw [misplaced, List.mem_filter, decide_eq_true_eq, ← and_assoc, ← and_assoc]
  refine and_congr_left fun _ => ⟨fun h => ⟨(ht.mem_places_of_resolver h.2).mp h.1, h.2⟩,
    fun h => ⟨(ht.mem_places_of_resolver h.2).mpr h.1, h.2⟩⟩

/-- There is an error for each misplaced resolver, and no other error. -/
theorem Formed.errors_checkResolvers (ht : t.Formed) :
    (t.checkResolvers.reports.filter Diagnostic.isError).Perm
      ((t.nonterminals.toList.flatMap t.misplaced).map t.misplacement) := by
  refine (ht.reports_checkResolvers.filter _).trans (.of_eq ?_)
  rw [List.filter_flatMap, List.map_flatMap]
  refine List.flatMap_congr fun a _ => ?_
  rw [List.filter_flatMap, misplaced, map_filter_eq_flatMap]
  refine List.flatMap_congr fun i _ => ?_
  rw [errors_resolversAt]
  by_cases h : t.graph.kind i = .resolver ∧ ¬t.StartsContent a i
  · rw [if_pos (by simpa using h), if_pos (by simpa using h)]
  · rw [if_neg (by simpa using h), if_neg (by simpa using h)]

/-- No resolver is misplaced in two productions. -/
theorem Formed.nodup_misplaced (ht : t.Formed) (hap : t.Apart) :
    (t.nonterminals.toList.flatMap t.misplaced).Nodup := by
  rw [List.nodup_flatMap]
  refine ⟨fun a _ => (t.nodup_places a).filter _, ?_⟩
  refine (ht.registered.nodup_listed (k := .nonterminal) (by decide)).imp ?_
  intro a b hab i hi hj
  exact hab (hap a b i (ht.mem_misplaced.mp hi).1 (ht.mem_misplaced.mp hj).1)

end

/-- The reports hold one error for each resolver that starts no content, and no other errors. -/
structure Placed (t : Table) (l : List Diagnostic) : Prop where
  misplaced : ∀ a ∈ t.nonterminals, ∀ i, t.Within a i → t.graph.kind i = .resolver →
    ¬t.StartsContent a i → l.count (t.misplacement i) = 1
  placed : ∀ a ∈ t.nonterminals, ∀ i, t.Within a i → t.graph.kind i = .resolver →
    t.StartsContent a i → l.count (t.misplacement i) = 0
  only : ∀ d ∈ l, d.isError = true → ∃ a ∈ t.nonterminals, ∃ i, t.Within a i ∧
    t.graph.kind i = .resolver ∧ ¬t.StartsContent a i ∧ d = t.misplacement i

theorem Formed.placed (ht : t.Formed) (hap : t.Apart) (hg : t.graph.resolvers.Nodup) :
    t.Placed t.checkResolvers.reports := by
  have hmem {i : NodeId} : i ∈ t.nonterminals.toList.flatMap t.misplaced ↔
      ∃ a ∈ t.nonterminals, t.Within a i ∧ t.graph.kind i = .resolver ∧ ¬t.StartsContent a i := by
    simp only [List.mem_flatMap, Array.mem_toList_iff, ht.mem_misplaced]
  have hinj {i j : NodeId} (hi : t.graph.kind i = .resolver) (hj : t.graph.kind j = .resolver)
      (h : t.misplacement i = t.misplacement j) : i = j :=
    Graph.resolver_of_location hg hi hj
      (show (t.node i).location = (t.node j).location by
        simpa [misplacement, Diagnostic.error] using h)
  have hcount (i : NodeId) : t.checkResolvers.reports.count (t.misplacement i) =
      ((t.nonterminals.toList.flatMap t.misplaced).map t.misplacement).count
        (t.misplacement i) := by
    rw [← ht.errors_checkResolvers.count_eq, List.count_filter rfl]
  refine ⟨fun a ha i hi hk hn => ?_, fun a ha i hi hk hs => ?_, fun d hd he => ?_⟩
  · rw [hcount]
    refine List.count_eq_one_of_mem ?_ (List.mem_map_of_mem (hmem.mpr ⟨a, ha, hi, hk, hn⟩))
    refine (ht.nodup_misplaced hap).map_on fun i hi j hj h => ?_
    obtain ⟨-, -, -, hki, -⟩ := hmem.mp hi
    obtain ⟨-, -, -, hkj, -⟩ := hmem.mp hj
    exact hinj hki hkj h
  · rw [hcount, List.count_eq_zero]
    intro h
    obtain ⟨j, hj, hji⟩ := List.mem_map.mp h
    obtain ⟨b, -, hjb, hkj, hn⟩ := hmem.mp hj
    obtain rfl := hinj hkj hk hji
    obtain rfl := hap a b j hi hjb
    exact hn hs
  · obtain ⟨i, hi, rfl⟩ := List.mem_map.mp
      (ht.errors_checkResolvers.subset (List.mem_filter.mpr ⟨hd, he⟩))
    obtain ⟨a, ha, hi, hk, hn⟩ := hmem.mp hi
    exact ⟨a, ha, i, hi, hk, hn, rfl⟩

/-- No configuration hides an error. -/
theorem Placed.shown {l : List Diagnostic} (h : t.Placed l) (cfg : Config) :
    t.Placed (Log.shown cfg l) := by
  have hcount (i : NodeId) : (Log.shown cfg l).count (t.misplacement i) =
      l.count (t.misplacement i) :=
    List.count_filter (by simp [Log.hides, misplacement, Diagnostic.error])
  refine ⟨fun a ha i hi hk hn => ?_, fun a ha i hi hk hs => ?_, fun d hd he => ?_⟩
  · rw [hcount, h.misplaced a ha i hi hk hn]
  · rw [hcount, h.placed a ha i hi hk hs]
  · exact h.only d (List.mem_filter.mp hd).1 he

/-! ### Resolvers without a conflict -/

/-- Whether something else can start with what the resolver `j` in front of a content of `i` stands
for: another alternative without a resolver, or what follows the option or iteration. -/
def contested (t : Table) (a : SymbolId) (i j : NodeId) : Bool :=
  match t.graph.kind i with
  | .alt _ _ => (t.expected (t.graph.next j) a).value.overlaps (t.unresolved a (t.graph.contents i))
  | _ => (t.firstSet (t.graph.next j)).overlaps (t.expected (t.graph.next i) a).value

/-- The warning about a resolver that no conflict calls for. -/
def uselessness (t : Table) (i : NodeId) : Diagnostic :=
  .warning .resolverWithoutConflict (some (t.node i).location)

/-- The warning about the content of a node, if it starts with a resolver. -/
def uselessAt (t : Table) (a : SymbolId) (i j : NodeId) : List Diagnostic :=
  if t.graph.kind j = .resolver ∧ t.contested a i j = false then [t.uselessness j] else []

/-- Whether the diagnostic is about a resolver without a conflict. -/
def blames (d : Diagnostic) : Bool := d.cause == .resolverWithoutConflict

theorem blames_reportUseless (n : Node) (conflict : Bool) :
    (reportUseless n conflict).reports.filter blames =
      if conflict then [] else [.warning .resolverWithoutConflict (some n.location)] := by
  cases conflict <;> rfl

theorem blames_resolversAt : (t.resolversAt a c i).filter blames =
    (t.graph.contents i).flatMap (t.uselessAt a i) := by
  have hcontent {sub : NodeId} (hk : t.graph.kind i = .opt sub ∨ t.graph.kind i = .iter sub) :
      (t.checkContent a sub (t.graph.next i)).reports.filter blames = t.uselessAt a i sub := by
    have hcontested : t.contested a i sub =
        (t.firstSet (t.graph.next sub)).overlaps (t.expected (t.graph.next i) a).value := by
      unfold contested
      rcases hk with hk | hk <;> rw [hk]
    rw [reports_checkContent, uselessAt, hcontested]
    by_cases hr : t.graph.kind sub = .resolver
    · rw [if_pos hr, blames_reportUseless]
      cases (t.firstSet (t.graph.next sub)).overlaps (t.expected (t.graph.next i) a).value <;>
        simp [hr, uselessness, node]
    · simp [hr]
  unfold resolversAt
  cases hk : t.graph.kind i with
  | alt e d =>
    refine Noted.filter_foldlM (fun before sub => ?_) _ _
    have hcontested : t.contested a i sub = (t.expected (t.graph.next sub) a).value.overlaps
        (t.unresolved a (t.graph.contents i)) := by
      rw [contested, hk]
    rw [reports_checkAlternative, uselessAt, hcontested]
    by_cases hr : t.graph.kind sub = .resolver
    · rw [if_pos hr, List.filter_append, blames_reportUseless]
      have hnever (c : Prop) [Decidable c] (l : Option Location) :
          (if c then [Diagnostic.warning .resolverNeverEvaluated l] else []).filter blames =
            [] := by
        split <;> rfl
      rw [hnever, List.nil_append]
      cases (t.expected (t.graph.next sub) a).value.overlaps
        (t.unresolved a (t.graph.contents i)) <;> simp [hr, uselessness, node]
    · simp [hr]
  | iter e => simpa [Graph.contents, hk] using hcontent (.inr hk)
  | opt e => simpa [Graph.contents, hk] using hcontent (.inl hk)
  | resolver => cases c <;> simp [Graph.contents, hk, blames, Diagnostic.error]
  | _ => simp [Graph.contents, hk]

/-- There is a warning for each content with a resolver that no conflict calls for. -/
theorem Formed.blames_checkResolvers (ht : t.Formed) :
    (t.checkResolvers.reports.filter blames).Perm (t.nonterminals.toList.flatMap fun a =>
      (t.places a).flatMap fun i => (t.graph.contents i).flatMap (t.uselessAt a i)) := by
  refine (ht.reports_checkResolvers.filter _).trans (.of_eq ?_)
  rw [List.filter_flatMap]
  refine List.flatMap_congr fun a _ => ?_
  rw [List.filter_flatMap]
  exact List.flatMap_congr fun i _ => blames_resolversAt

/-- A resolver in front of a content is called useless if nothing contests it. -/
theorem Formed.uselessness_iff (ht : t.Formed) (hap : t.Apart) (hg : t.graph.resolvers.Nodup)
    (ha : a ∈ t.nonterminals) (hi : t.Passed a i) (hj : j ∈ t.graph.contents i)
    (hk : t.graph.kind j = .resolver) :
    t.uselessness j ∈ t.checkResolvers.reports ↔ t.contested a i j = false := by
  have hfilter : t.uselessness j ∈ t.checkResolvers.reports ↔
      t.uselessness j ∈ t.checkResolvers.reports.filter blames :=
    ⟨fun h => List.mem_filter.mpr ⟨h, rfl⟩, fun h => (List.mem_filter.mp h).1⟩
  rw [hfilter, ht.blames_checkResolvers.mem_iff]
  simp only [List.mem_flatMap, Array.mem_toList_iff, ht.mem_places, uselessAt]
  refine ⟨?_, fun h => ⟨a, ha, i, hi, j, hj, by simp [hk, h]⟩⟩
  rintro ⟨b, -, i', hi', j', hj', hmem⟩
  split at hmem
  · rename_i h
    have hlocation : (t.node j).location = (t.node j').location := by
      simpa [uselessness, Diagnostic.warning] using hmem
    obtain rfl := Graph.resolver_of_location hg hk h.1 hlocation
    obtain ⟨rfl, rfl⟩ := ht.place_unique hap hi hi' hj hj'
    exact h.2
  · cases hmem

theorem get_unresolved {n : Nat} (hn : n < t.terminalCount) (subs : List NodeId) :
    (t.unresolved a subs).get n = true ↔
      ∃ sub ∈ subs, (t.expectedUnresolved (some sub) a).value.get n = true := by
  have hfold (subs : List NodeId) (r : IndexSet) (hr : n < r.size) :
      (subs.foldl (fun r sub => r.union (t.expectedUnresolved (some sub) a).value) r).get n =
        true ↔ r.get n = true ∨
          ∃ sub ∈ subs, (t.expectedUnresolved (some sub) a).value.get n = true := by
    induction subs generalizing r with
    | nil => simp
    | cons sub subs ih =>
      rw [List.foldl_cons, ih _ (by simpa using hr), IndexSet.get_union hr]
      simp [or_assoc]
  have h := hfold subs (.empty t.terminalCount) (by simpa [IndexSet.size_empty] using hn)
  simpa [unresolved, Noted.value_foldlM] using h

/-- In an alternation a resolver is contested by the alternatives without a resolver. -/
theorem contested_alt {e : NodeId} {d : Option NodeId} (hk : t.graph.kind i = .alt e d) :
    t.contested a i j = false ↔ ∀ q ∈ t.graph.alternatives i, t.graph.kind q.1 ≠ .resolver →
      (t.expected (t.graph.next j) a).value.overlaps (t.expected (some q.1) a).value = false := by
  have hcontents : t.graph.contents i = (t.graph.alternatives i).map (·.1) := by
    rw [Graph.contents, hk]
  have hget (sub : NodeId) (n : Nat) : (t.expectedUnresolved (some sub) a).value.get n = true ↔
      t.graph.kind sub ≠ .resolver ∧ (t.expected (some sub) a).value.get n = true := by
    by_cases hr : t.graph.kind sub = .resolver <;> simp [expectedUnresolved, hr]
  rw [contested, hk, hcontents, ← Bool.not_eq_true, IndexSet.overlaps_iff]
  simp only [← Bool.not_eq_true, IndexSet.overlaps_iff]
  constructor
  · rintro h q hq hr ⟨n, hn, hn'⟩
    refine h ⟨n, hn, ?_⟩
    have hlt : n < t.terminalCount := t.size_expected _ a ▸ IndexSet.lt_of_get hn
    exact (get_unresolved hlt _).mpr ⟨q.1, List.mem_map_of_mem hq, (hget _ n).mpr ⟨hr, hn'⟩⟩
  · rintro h ⟨n, hn, hn'⟩
    have hlt : n < t.terminalCount := t.size_expected _ a ▸ IndexSet.lt_of_get hn
    obtain ⟨sub, hsub, hs⟩ := (get_unresolved hlt _).mp hn'
    obtain ⟨q, hq, rfl⟩ := List.mem_map.mp hsub
    obtain ⟨hr, hs⟩ := (hget q.1 n).mp hs
    exact h q hq hr ⟨n, hn, hs⟩

end Table

namespace Grammar

variable {source : String} {cfg cfg' : Config} {log : Log} {g : Grammar} {t : Table}

/-- What the check relies on, before the sets are computed and afterwards. -/
theorem checked_parse (hg : (Grammar.parse source cfg log).2 = .ok g)
    (hlog : (Grammar.parse source cfg log).1.errorCount = log.errorCount)
    (ht : t = g.table ∨ t = g.table.computeSets.value) :
    t.Formed ∧ t.Apart ∧ t.graph.resolvers.Nodup := by
  have hf := (formed_parse hg).1
  have hap := apart_parse hg hlog
  have hn : g.table.graph.resolvers.Nodup := by
    obtain ⟨d, hd, rfl⟩ := exists_read hg
    exact Definition.nodup_resolvers hd
  rcases ht with rfl | rfl
  · exact ⟨hf, hap, hn⟩
  · have hsame := hf.sameDeclared_computeSets.toSameOutline
    refine ⟨hsame.formed hf, hsame.apart hap, ?_⟩
    rw [hf.sameLooks_computeSets.resolvers]
    exact hn

/-- If a text is read without an error, then, whether the sets have been computed or not, the check
reports one error at each resolver that is not the first node of an alternative or of the content of
an option or iteration, and no other errors. -/
theorem placed_of_parse (hg : (Grammar.parse source cfg log).2 = .ok g)
    (hlog : (Grammar.parse source cfg log).1.errorCount = log.errorCount)
    (ht : t = g.table ∨ t = g.table.computeSets.value) (cfg' : Config) :
    t.Placed (({} : Log).recordAll cfg' t.checkResolvers.events).reports.toList := by
  obtain ⟨hf, hap, hn⟩ := checked_parse hg hlog ht
  rw [Log.reports_recordAll, List.nil_append]
  exact (hf.placed hap hn).shown cfg'

/-- Resolvers in groups inside of groups: the first and the third start an alternative, the second
and the last one do not. -/
def scattered : String :=
  "COMPILER A\nPRODUCTIONS\n" ++
    "A = (IF (a) (IF (b) \"x\") | ((IF (c) \"y\") \"z\")) (IF (d) \"w\").\nEND A."

set_option maxRecDepth 100000 in
theorem placed_scattered : ∃ g, (Grammar.parse scattered default {}).2 = .ok g ∧
    (Grammar.parse scattered default {}).1.errorCount = Log.errorCount {} ∧
    g.table.Placed (({} : Log).recordAll default g.table.checkResolvers.events).reports.toList ∧
    (({} : Log).recordAll default g.table.checkResolvers.events).errorCount = 2 := by
  obtain ⟨g, hg, h⟩ := exists_ok_of_any (x := (Grammar.parse scattered default {}).2)
    (P := fun g => decide
      ((({} : Log).recordAll default g.table.checkResolvers.events).errorCount = 2))
    (by decide +kernel)
  have hlog : (Grammar.parse scattered default {}).1.errorCount = Log.errorCount {} := by
    decide +kernel
  exact ⟨g, hg, hlog, placed_of_parse hg hlog (.inl rfl) default, of_decide_eq_true h⟩

/-- If a text is read without an error and no warnings are suppressed, then a resolver in front of
an alternative is called useless exactly if no alternative without a resolver can start with what
the resolver stands for. What other alternatives with resolvers start with makes no difference. -/
theorem useless_of_parse (hg : (Grammar.parse source cfg log).2 = .ok g)
    (hlog : (Grammar.parse source cfg log).1.errorCount = log.errorCount)
    (ht : t = g.table ∨ t = g.table.computeSets.value)
    (hcfg : cfg'.suppressResolverWarnings = false) {a : SymbolId} (ha : a ∈ t.nonterminals)
    {i : NodeId} (hi : t.Passed a i) {p : NodeId × Option NodeId}
    (hp : p ∈ t.graph.alternatives i) (hk : t.graph.kind p.1 = .resolver) :
    .warning .resolverWithoutConflict (some (t.node p.1).location) ∈
        (({} : Log).recordAll cfg' t.checkResolvers.events).reports ↔
      ∀ q ∈ t.graph.alternatives i, t.graph.kind q.1 ≠ .resolver →
        (t.expected (t.graph.next p.1) a).value.overlaps (t.expected (some q.1) a).value =
          false := by
  obtain ⟨hf, hap, hn⟩ := checked_parse hg hlog ht
  obtain ⟨e, d, hki⟩ := Graph.kind_of_mem_alternatives hp
  have hmem : p.1 ∈ t.graph.contents i := by
    rw [Graph.contents, hki]
    exact List.mem_map_of_mem hp
  rw [← Array.mem_toList_iff, Log.reports_recordAll, List.nil_append, Log.shown_eq_self hcfg]
  exact (hf.uselessness_iff hap hn ha hi hmem hk).trans (Table.contested_alt hki)

/-- A resolver in front of what the last alternative can start with, too, and one that nothing else
calls for. -/
def halfResolved : String :=
  "COMPILER A\nPRODUCTIONS\nA = IF (a) \"x\" | IF (b) \"y\" | B.\nB = [ \"x\" ].\nEND A."

set_option maxRecDepth 100000 in
theorem useless_halfResolved : ∃ g t a i p q, (Grammar.parse halfResolved default {}).2 = .ok g ∧
    t = g.table.computeSets.value ∧ t.Passed a i ∧
    p ∈ t.graph.alternatives i ∧ q ∈ t.graph.alternatives i ∧
    .warning .resolverWithoutConflict (some (t.node p.1).location) ∉
      (({} : Log).recordAll default t.checkResolvers.events).reports ∧
    .warning .resolverWithoutConflict (some (t.node q.1).location) ∈
      (({} : Log).recordAll default t.checkResolvers.events).reports := by
  obtain ⟨g, hg, h⟩ := exists_ok_of_any (x := (Grammar.parse halfResolved default {}).2)
    (P := fun g =>
      let t := g.table.computeSets.value
      decide (1 ∈ t.nonterminals ∧ (t.symbol 1).root = some 5 ∧
        (1, some 6) ∈ t.graph.alternatives 5 ∧ (3, some 8) ∈ t.graph.alternatives 5 ∧
        t.graph.kind 1 = .resolver ∧ t.graph.kind 3 = .resolver ∧
        (∃ q ∈ t.graph.alternatives 5, t.graph.kind q.1 ≠ .resolver ∧
          (t.expected (t.graph.next 1) 1).value.overlaps (t.expected (some q.1) 1).value = true) ∧
        ∀ q ∈ t.graph.alternatives 5, t.graph.kind q.1 ≠ .resolver →
          (t.expected (t.graph.next 3) 1).value.overlaps (t.expected (some q.1) 1).value = false))
    (by decide +kernel)
  have hlog : (Grammar.parse halfResolved default {}).1.errorCount = Log.errorCount {} := by
    decide +kernel
  obtain ⟨ha, hroot, hp, hq, hkp, hkq, ⟨q, hq', hr, hx⟩, hall⟩ := of_decide_eq_true h
  have hi : g.table.computeSets.value.Passed 1 5 := .root hroot
  refine ⟨g, _, 1, 5, _, _, hg, rfl, hi, hp, hq, fun hw => ?_, ?_⟩
  · have hfree := (useless_of_parse hg hlog (.inr rfl) rfl ha hi hp hkp).mp hw q hq' hr
    rw [hx] at hfree
    cases hfree
  · exact (useless_of_parse hg hlog (.inr rfl) rfl ha hi hq hkq).mpr hall

/-- Two alternatives that start with the same terminal, each with a resolver, and another one. -/
def contestants : String :=
  "COMPILER A\nPRODUCTIONS\nA = IF(a) \"x\" | IF(b) \"x\" | \"y\".\nEND A."

set_option maxRecDepth 100000 in
/-- A resolver is called useless although the alternative behind it and another one, behind its own
resolver, can start with the same terminal. -/
theorem blamed_contestants : ∃ g t a i p q, (Grammar.parse contestants default {}).2 = .ok g ∧
    (Grammar.parse contestants default {}).1.errorCount = Log.errorCount {} ∧
    t = g.table.computeSets.value ∧ a ∈ t.nonterminals ∧ t.Passed a i ∧
    p ∈ t.graph.alternatives i ∧ q ∈ t.graph.alternatives i ∧ p ≠ q ∧
    t.graph.kind p.1 = .resolver ∧ t.graph.kind q.1 = .resolver ∧
    (t.expected (t.graph.next p.1) a).value.overlaps (t.expected (t.graph.next q.1) a).value =
      true ∧
    .warning .resolverWithoutConflict (some (t.node p.1).location) ∈
      (({} : Log).recordAll default t.checkResolvers.events).reports := by
  obtain ⟨g, hg, h⟩ := exists_ok_of_any (x := (Grammar.parse contestants default {}).2)
    (P := fun g =>
      let t := g.table.computeSets.value
      decide (1 ∈ t.nonterminals ∧ (t.symbol 1).root = some 5 ∧
        (1, some 6) ∈ t.graph.alternatives 5 ∧ (3, some 8) ∈ t.graph.alternatives 5 ∧
        t.graph.kind 1 = .resolver ∧ t.graph.kind 3 = .resolver ∧
        (t.expected (t.graph.next 1) 1).value.overlaps (t.expected (t.graph.next 3) 1).value =
          true ∧
        .warning .resolverWithoutConflict (some (t.node 1).location) ∈
          (({} : Log).recordAll default t.checkResolvers.events).reports))
    (by decide +kernel)
  have hlog : (Grammar.parse contestants default {}).1.errorCount = Log.errorCount {} := by
    decide +kernel
  obtain ⟨ha, hroot, hp, hq, hkp, hkq, hx, hw⟩ := of_decide_eq_true h
  exact ⟨g, _, 1, 5, _, _, hg, hlog, rfl, ha, .root hroot, hp, hq, by decide, hkp, hkq, hx, hw⟩

end Grammar

end Lookahead
