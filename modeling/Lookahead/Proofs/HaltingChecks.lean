import Lookahead.Proofs.Circular
import Lookahead.Proofs.HaltingPasses
import Lookahead.Proofs.Terminating

/-!
# The checks come to an end

The walks of the checks are those of groups, bounded by the marks `up`, except that reachability
also goes through the productions of nonterminals it has not been to; it can do so only as often as
there are nonterminals (`Table.Formed.reachFrom?_eq_from`). Single steps are pruned until none is
left to be dropped, and every other round of `Table.closeTerminating` marks a nonterminal. So the
whole analysis has a value without fuel (`Table.Formed.analyze?_eq`), also where everything it needs
is checked, if the table is a proper one.
-/

namespace Lookahead

namespace Table

variable {bounds : Bounds} {t u : Table} {a b : SymbolId} {i j : NodeId} {p q : Option NodeId}
  {m n : IndexSet} {k l : Nat} {s : Symbol}

/-! ### Reports -/

/-- A report names all nonterminals that fail a test. -/
theorem Formed.reportUnless?_eq (ht : t.Formed) {ok : Symbol → Bool} {ok? : Symbol → Option Bool}
    (h : ∀ a ∈ t.nonterminals, ok? (t.symbol a) = some (ok (t.symbol a)))
    (cause : String → Cause) :
    t.reportUnless? bounds ok? cause = (t.reportUnless ok cause).run := by
  have hbad : (t.nonterminalSymbols.filterM fun s => do return !(← ok? s)) =
      some (t.nonterminalSymbols.filter fun s => !ok s) := by
    refine filterM_eq_some fun s hs => ?_
    obtain ⟨a, ha, rfl⟩ := List.mem_map.mp hs
    rw [h a (Array.mem_toList_iff.mp ha)]
    rfl
  rw [reportUnless?, ht.registered.symbols?_nonterminals, Work.some_bind, hbad, Work.some_bind]
  rfl

theorem Formed.get?_nonterminal (ht : t.Formed)
    (hm : bounds = .checked → m.size = t.nonterminalCount) (ha : a ∈ t.nonterminals) :
    m.get? bounds (t.symbol a).index = some (m.get (t.symbol a).index) :=
  IndexSet.get?_eq fun hb =>
    hm hb ▸ ht.registered.index_lt_size (k := .nonterminal) (by decide) ha

theorem Formed.checkComplete?_eq (ht : t.Formed) :
    t.checkComplete? bounds = t.checkComplete.run :=
  ht.reportUnless?_eq (fun _ _ => rfl) _

/-! ### Reachability -/

/-- What the walk finds at a node itself and inside of it. -/
def reachNode (t : Table) (k : Nat) (i : NodeId) (m : IndexSet) : IndexSet :=
  match t.graph.kind i with
  | .nonterminal a =>
    if m.get (t.symbol a).index then m
    else t.reachFrom k (t.symbol a).root (m.insert (t.symbol a).index)
  | .alt sub down => t.reachFrom k down (t.reachFrom k (some sub) m)
  | .iter sub | .opt sub => t.reachFrom k (some sub) m
  | _ => m

theorem reachFrom_some (t : Table) (k : Nat) (i : NodeId) (m : IndexSet) :
    t.reachFrom (k + 1) (some i) m =
      if (t.node i).up then t.reachNode k i m
      else t.reachFrom k (t.node i).next (t.reachNode k i m) := rfl

theorem marksMore_reachNode {k : Nat} (ih : ∀ p m, MarksMore m (t.reachFrom k p m))
    (i : NodeId) (m : IndexSet) : MarksMore m (t.reachNode k i m) := by
  unfold reachNode
  split
  · split
    · exact .refl m
    · exact .trans ⟨IndexSet.size_insert, fun _ => IndexSet.get_insert_of_get _⟩ (ih _ _)
  · exact (ih _ _).trans (ih _ _)
  · exact ih _ _
  · exact ih _ _
  · exact .refl m

theorem marksMore_reachFrom (t : Table) (k : Nat) (p : Option NodeId) (m : IndexSet) :
    MarksMore m (t.reachFrom k p m) := by
  induction k generalizing p m with
  | zero => exact .refl m
  | succ k ih =>
    cases p with
    | none => exact .refl m
    | some i =>
      rw [reachFrom_some]
      split
      · exact marksMore_reachNode ih i m
      · exact (marksMore_reachNode ih i m).trans (ih _ _)

theorem MarksMore.unmarked_le (h : MarksMore m n) : n.unmarked ≤ m.unmarked :=
  IndexSet.unmarked_le h.size h.mono

/-- A walk is at most as deep as the graph is large before it marks another nonterminal. -/
theorem Formed.reachFrom?_eq_from (ht : t.Formed) (hs : t.graph.Shallow k p)
    (hp : ∀ i ∈ p, t.Inside i) (hm : m.size = t.nonterminalCount)
    (hl : m.unmarked * (t.graph.size + 1) + k ≤ l) :
    t.reachFrom? bounds p m = some (t.reachFrom l p m) := by
  induction l generalizing k p m with
  | zero => exact absurd hs.pos (by omega)
  | succ l ih =>
    obtain ⟨k, rfl⟩ : ∃ n, k = n + 1 := ⟨k - 1, by have := hs.pos; omega⟩
    cases p with
    | none =>
      rw [reachFrom?]
      rfl
    | some i =>
      obtain ⟨a, hi⟩ := hp i rfl
      have hl : m.unmarked * (t.graph.size + 1) + k ≤ l := by omega
      have hcall {n q} (hn : MarksMore m n) (hq : t.graph.Calls i q) (hin : ∀ j ∈ q, t.Within a j) :
          t.reachFrom? bounds q n = some (t.reachFrom l q n) := by
        refine ih (hs.of_call hq) (fun j hj => ⟨a, hin j hj⟩) (hn.size.trans hm) ?_
        exact (Nat.add_le_add_right (Nat.mul_le_mul_right _ hn.unmarked_le) k).trans hl
      have hrest {n} (hn : MarksMore m n) : (do
            let n ← some n
            if (t.node i).up then some n else t.reachFrom? bounds (t.node i).next n) =
          some (if (t.node i).up then n else t.reachFrom l (t.node i).next n) := by
        cases hu : (t.node i).up with
        | true => rfl
        | false => exact hcall hn (.next hu) fun j hj => hi.next hj
      have hsub {j} (hj : (t.graph.kind i).sub? = some j) :=
        hcall (.refl m) (.sub hj) fun k hk => hi.sub (hj.trans hk)
      rw [reachFrom?, reachFrom_some, ht.node?_eq ⟨a, hi⟩, some_bind]
      refine .trans ?_ (hrest (marksMore_reachNode (t.marksMore_reachFrom l) i m))
      show bind _ _ = bind _ _
      congr 1
      rw [show (t.node i).kind = t.graph.kind i from rfl, reachNode]
      cases hk : t.graph.kind i with
      | nonterminal c =>
        have hlt : (t.symbol c).index < m.size :=
          hm ▸ ht.registered.index_lt_size (k := .nonterminal) (by decide)
            (ht.allows_nonterminal hk)
        dsimp only
        rw [ht.symbol?_eq (ht.allows_nonterminal hk), some_bind,
          IndexSet.get?_eq fun _ => hlt, some_bind]
        split
        · rfl
        rename_i hc
        rw [IndexSet.insert?_eq fun _ => hlt, some_bind]
        refine ih (ht.shallow (Formed.root_inside c)) (Formed.root_inside c)
          (IndexSet.size_insert.trans hm) ?_
        have hless := Nat.mul_le_mul_right (t.graph.size + 1)
          (IndexSet.unmarked_insert hlt (by simpa using hc))
        rw [Nat.succ_mul] at hless
        omega
      | alt sub down =>
        have hs := hsub (by rw [hk]; rfl)
        have hd := hcall (t.marksMore_reachFrom l (some sub) m) .down fun j hj => hi.down hj
        rw [hk, NodeKind.down?] at hd
        dsimp only
        rw [hs]
        exact hd
      | iter sub | opt sub => exact hsub (by rw [hk]; rfl)
      | _ => rfl

theorem Formed.reached?_eq (ht : t.Formed) :
    t.reached? bounds = some t.reached ∧ t.reached.size = t.nonterminalCount := by
  unfold reached? reached
  cases hs : t.start with
  | none => exact ⟨rfl, IndexSet.size_empty _⟩
  | some a =>
    have ha : a ∈ t.nonterminals := ht.registered.start a hs
    dsimp only
    refine ⟨?_, (marksMore_reachFrom ..).size.trans
      (IndexSet.size_insert.trans (IndexSet.size_empty _))⟩
    rw [ht.symbol?_eq ha, some_bind, IndexSet.insert?_eq fun _ => ?_, some_bind,
      ht.reachFrom?_eq_from (ht.shallow (Formed.root_inside a)) (Formed.root_inside a)
      (IndexSet.size_insert.trans (IndexSet.size_empty _))]
    · have hle := IndexSet.unmarked_le_size ((IndexSet.empty t.nonterminalCount).insert
        (t.symbol a).index)
      rw [IndexSet.size_insert, IndexSet.size_empty] at hle
      rw [Nat.succ_mul]
      exact Nat.add_le_add_right (Nat.mul_le_mul_right _ hle) _
    · rw [IndexSet.size_empty]
      exact ht.registered.index_lt_size (k := .nonterminal) (by decide) ha

theorem Formed.checkReached?_eq (ht : t.Formed) :
    t.checkReached? bounds = t.checkReached.run := by
  obtain ⟨hr, hs⟩ : t.reached? bounds = _ ∧ _ := ht.reached?_eq
  rw [checkReached?, hr, Work.some_bind]
  exact ht.reportUnless?_eq (fun a ha => ht.get?_nonterminal (fun _ => hs) ha) _

/-! ### Circularity -/

theorem Formed.singlesFrom?_eq_from (ht : t.Formed) (hs : t.graph.Shallow k p)
    (hp : ∀ i ∈ p, t.Inside i) : t.singlesFrom? bounds p = some (t.singlesFrom k p) := by
  induction k generalizing p with
  | zero => exact hs.elim
  | succ k ih =>
    cases p with
    | none =>
      rw [singlesFrom?]
      rfl
    | some i =>
      obtain ⟨a, hi⟩ := hp i rfl
      have hnext : ∀ j ∈ (t.node i).next, t.Inside j := fun j hj => ⟨a, hi.next hj⟩
      have hrest (l : List SymbolId) : (do
            let here ← some l
            if (t.node i).up then some here
            else if ← t.nodeDeletable? bounds i then
              return here ++ (← t.singlesFrom? bounds (t.node i).next)
            else some here) =
          some (l ++ if !(t.node i).up && t.nodeDeletable i then
            t.singlesFrom k (t.node i).next else []) := by
        cases hu : (t.node i).up with
        | true => exact congrArg some (List.append_nil l).symm
        | false =>
          rw [ht.nodeDeletable?_eq ⟨a, hi⟩]
          cases t.nodeDeletable i with
          | false => exact congrArg some (List.append_nil l).symm
          | true =>
            exact congrArg (Option.bind · fun r => some (l ++ r))
              (ih (hs.of_call (.next hu)) hnext)
      have hsub {j} (hj : (t.graph.kind i).sub? = some j) :=
        ih (hs.of_call (.sub hj)) fun l hl => ⟨a, hi.sub (hj.trans hl)⟩
      have hdown := ih (hs.of_call .down) fun j hj => ⟨a, hi.down hj⟩
      have halone : (if (t.node i).up then some true else t.restDeletable? bounds (t.node i).next) =
          some ((t.node i).up || t.restDeletable (t.node i).next) := by
        rw [ht.restDeletable?_eq hnext]
        cases (t.node i).up <;> rfl
      rw [singlesFrom?, singlesFrom, ht.node?_eq ⟨a, hi⟩, some_bind, halone, some_bind]
      refine .trans ?_ (hrest _)
      show bind _ _ = bind _ _
      congr 1
      cases (t.node i).up || t.restDeletable (t.node i).next with
      | false => rfl
      | true =>
        rw [show (t.node i).kind = t.graph.kind i from rfl]
        cases hk : t.graph.kind i with
        | alt sub down =>
          have hs := hsub (by rw [hk]; rfl)
          rw [hk, NodeKind.down?] at hdown
          dsimp only
          rw [hs, hdown]
          rfl
        | iter sub | opt sub => exact hsub (by rw [hk]; rfl)
        | _ => rfl

theorem pruneSteps?_eq {l : List Step} (hl : l.length < k) :
    pruneSteps? l = some (pruneSteps k l) := by
  induction k generalizing l with
  | zero => exact absurd hl (Nat.not_lt_zero _)
  | succ k ih =>
    have hle : (linked l).length ≤ l.length := List.length_filter_le ..
    rw [pruneSteps?, pruneSteps]
    split
    · rfl
    · exact ih (by omega)

/-- What a production can be reduced to are nonterminals. -/
theorem Formed.nonterminal_of_mem_singlesFrom (ht : t.Formed) (hb : b ∈ t.singlesFrom k p) :
    b ∈ t.nonterminals := by
  induction k generalizing p with
  | zero => simp [singlesFrom] at hb
  | succ k ih =>
    cases p with
    | none => simp [singlesFrom] at hb
    | some i =>
      rw [singlesFrom, List.mem_append] at hb
      rcases hb with hb | hb
      · split at hb
        · cases hk : (t.node i).kind with
          | nonterminal a =>
            rw [hk, List.mem_singleton] at hb
            exact hb ▸ ht.allows_nonterminal hk
          | alt sub down =>
            rw [hk, List.mem_append] at hb
            exact hb.elim ih ih
          | iter sub | opt sub =>
            rw [hk] at hb
            exact ih hb
          | _ => simp [hk] at hb
        · cases hb
      · split at hb
        · exact ih hb
        · cases hb

theorem Formed.lt_of_mem_circularSteps (ht : t.Formed) {s : Step} (hs : s ∈ t.circularSteps) :
    s.1 < t.symbols.size ∧ s.2 < t.symbols.size := by
  have hmem := t.pruned_circularSteps.sublist.subset hs
  rw [singleSteps, List.mem_eraseDups, List.mem_flatMap] at hmem
  obtain ⟨a, ha, hs⟩ := hmem
  obtain ⟨b, hb, rfl⟩ := List.mem_map.mp hs
  exact ⟨ht.lt (Array.mem_toList_iff.mp ha), ht.lt (ht.nonterminal_of_mem_singlesFrom hb)⟩

theorem Formed.singleSteps?_eq (ht : t.Formed) : t.singleSteps? bounds = some t.singleSteps := by
  have hsingles : (t.nonterminals.toList.mapM fun a => do
        return (← t.singlesFrom? bounds (← t.symbol? bounds a).root).map fun b => (a, b)) =
      some (t.nonterminals.toList.map fun a => (t.singles a).map fun b => (a, b)) := by
    refine mapM_eq_some fun a ha => ?_
    rw [ht.symbol?_eq (Array.mem_toList_iff.mp ha), some_bind,
      ht.singlesFrom?_eq_from (ht.shallow (Formed.root_inside a)) (Formed.root_inside a)]
    rfl
  rw [singleSteps?, hsingles, some_bind, ← List.flatMap_def]
  rfl

theorem Formed.checkNotCircular?_eq (ht : t.Formed) :
    t.checkNotCircular? bounds = t.checkNotCircular.run := by
  have hnames : ∀ a ∈ t.circularSteps.map (·.1) ++ t.circularSteps.map (·.2),
      a < t.symbols.size := by
    intro a ha
    rcases List.mem_append.mp ha with ha | ha <;> obtain ⟨s, hs, rfl⟩ := List.mem_map.mp ha
    · exact (ht.lt_of_mem_circularSteps hs).1
    · exact (ht.lt_of_mem_circularSteps hs).2
  rw [checkNotCircular?, ht.singleSteps?_eq, Work.some_bind,
    pruneSteps?_eq (Nat.lt_succ_self _), Work.some_bind,
    show pruneSteps (t.singleSteps.length + 1) t.singleSteps = t.circularSteps from rfl,
    symbols?_eq hnames]
  rfl

/-! ### Derivability -/

theorem Formed.terminatesFrom?_eq_from (ht : t.Formed)
    (hm : bounds = .checked → m.size = t.nonterminalCount) (hs : t.graph.Shallow k p) :
    t.terminatesFrom? bounds m p = some (t.terminatesFrom m k p) := by
  induction k generalizing p with
  | zero => exact hs.elim
  | succ k ih =>
    cases p with
    | none =>
      rw [terminatesFrom?]
      rfl
    | some i =>
      have hrest (here : Bool) : (do
            let here ← some here
            if here then (if (t.node i).up then some true
              else t.terminatesFrom? bounds m (t.node i).next) else some false) =
          some (here && ((t.node i).up || t.terminatesFrom m k (t.node i).next)) := by
        cases here with
        | false => rfl
        | true =>
          cases hu : (t.node i).up with
          | true => rfl
          | false => exact ih (hs.of_call (.next hu))
      have hsub {j} (hj : (t.graph.kind i).sub? = some j) := ih (hs.of_call (.sub hj))
      have hdown := ih (hs.of_call .down)
      rw [terminatesFrom?, terminatesFrom, Graph.node?_eq hs.lt, some_bind]
      refine .trans ?_ (hrest _)
      show bind _ _ = bind _ _
      congr 1
      rw [show (t.node i).kind = t.graph.kind i from rfl,
        show (t.graph.node i).kind = t.graph.kind i from rfl]
      cases hk : t.graph.kind i with
      | nonterminal c =>
        have hc := ht.allows_nonterminal hk
        dsimp only
        rw [ht.symbol?_eq hc, some_bind, ht.get?_nonterminal hm hc]
      | alt sub down =>
        have hs := hsub (by rw [hk]; rfl)
        rw [hk, NodeKind.down?] at hdown
        dsimp only
        rw [hs, hdown]
        cases t.terminatesFrom m k (some sub) <;> cases down <;> rfl
      | _ => rfl

theorem Formed.markTerminating?_eq (ht : t.Formed)
    (hm : bounds = .checked → m.size = t.nonterminalCount) (ha : a ∈ t.nonterminals) :
    t.markTerminating? bounds m (t.symbol a) = some (t.markTerminating m (t.symbol a)) := by
  have hlt : bounds = .checked → (t.symbol a).index < m.size := fun hb =>
    hm hb ▸ ht.registered.index_lt_size (k := .nonterminal) (by decide) ha
  unfold markTerminating? markTerminating
  rw [ht.get?_nonterminal hm ha, ht.terminatesFrom?_eq_from hm (ht.shallow (Formed.root_inside a)),
    IndexSet.insert?_eq hlt]
  cases m.get (t.symbol a).index <;>
    cases t.terminatesFrom m (t.graph.size + 1) (t.symbol a).root <;> rfl

theorem Formed.closeTerminating?_eq_from (ht : t.Formed)
    (hm : bounds = .checked → m.size = t.nonterminalCount) (hk : m.unmarked < k) :
    t.closeTerminating? bounds m = some (t.closeTerminating k m) := by
  induction k generalizing m with
  | zero => exact absurd hk (Nat.not_lt_zero _)
  | succ k ih =>
    have hround : t.nonterminalSymbols.foldlM (t.markTerminating? bounds) m =
        some (t.nonterminalSymbols.foldl t.markTerminating m) := by
      refine (foldlM_eq_some (P := fun n => n.size = m.size) (fun n hn s hs => ?_) rfl).1
      obtain ⟨a, ha, rfl⟩ := List.mem_map.mp hs
      exact ⟨ht.markTerminating?_eq (fun hb => hn.trans (hm hb)) (Array.mem_toList_iff.mp ha),
        (t.marksMore_markTerminating n _).size.trans hn⟩
    have hmore := marksMore_foldl (t := t) t.nonterminalSymbols m
    rw [closeTerminating?, ht.registered.symbols?_nonterminals, some_bind, hround, some_bind,
      closeTerminating]
    generalize t.nonterminalSymbols.foldl t.markTerminating m = r at hmore ⊢
    show (if r = m then some r else t.closeTerminating? bounds r) = some (if r = m then r else _)
    split
    · rfl
    · rename_i hne
      exact ih (fun hb => hmore.size.trans (hm hb))
        ((hmore.unmarked_lt hne).trans_le (Nat.le_of_lt_succ hk))

theorem size_closeTerminating (t : Table) (k : Nat) (m : IndexSet) :
    (t.closeTerminating k m).size = m.size := by
  induction k generalizing m with
  | zero => rfl
  | succ k ih =>
    have hsize := (marksMore_foldl (t := t) t.nonterminalSymbols m).size
    rw [closeTerminating]
    split
    · exact hsize
    · exact (ih _).trans hsize

theorem Formed.checkTerminating?_eq (ht : t.Formed) :
    t.checkTerminating? bounds = t.checkTerminating.run := by
  rw [checkTerminating?, ht.closeTerminating?_eq_from (fun _ => IndexSet.size_empty _)
    (unmarked_empty_lt _), Work.some_bind]
  refine ht.reportUnless?_eq (fun a ha => ht.get?_nonterminal (fun _ => ?_) ha) _
  exact (size_closeTerminating ..).trans (IndexSet.size_empty _)

theorem Formed.checkStructure?_eq (ht : t.Formed) :
    t.checkStructure? bounds = t.checkStructure.run := by
  have hstop : (pure false : Work Bool) = (pure false : Noted Bool).run :=
    (Noted.run_pure false).symm
  unfold checkStructure? checkStructure
  refine Noted.run_bind_of ht.checkComplete?_eq ?_
  cases t.checkComplete.value with
  | false => exact hstop
  | true =>
    refine Noted.run_bind_of ht.checkReached?_eq ?_
    cases t.checkReached.value with
    | false => exact hstop
    | true =>
      refine Noted.run_bind_of ht.checkNotCircular?_eq ?_
      cases t.checkNotCircular.value with
      | false => exact hstop
      | true => exact ht.checkTerminating?_eq

/-! ### Conflicts -/

theorem size_expectedUnresolved (t : Table) (p : Option NodeId) (a : SymbolId) :
    (t.expectedUnresolved p a).value.size = t.terminalCount := by
  unfold expectedUnresolved
  split
  · exact IndexSet.size_empty _
  · exact size_expected t p a

theorem Formed.reportOverlap?_eq (ht : t.Formed) (ha : bounds = .checked → a ∈ t.nonterminals)
    (hm : m.size = t.terminalCount) (hn : n.size = t.terminalCount) (c : Conflict) :
    t.reportOverlap? bounds a c m n = (t.reportOverlap a c m n).run := by
  have hshared : (t.terminals.toList.filterM fun b => do
        let k := (← t.symbol? bounds b).index
        if ← m.get? bounds k then n.get? bounds k else return false) =
      some (t.terminals.toList.filter fun b =>
        m.get (t.symbol b).index && n.get (t.symbol b).index) := by
    refine filterM_eq_some fun b hb => ?_
    have hb := Array.mem_toList_iff.mp hb
    have hlt : (t.symbol b).index < t.terminalCount :=
      ht.registered.index_lt_size (k := .terminal) (by decide) hb
    rw [Table.symbol?_eq (ht.registered.lt (k := .terminal) hb), some_bind]
    dsimp only
    rw [IndexSet.get?_eq fun _ => hm ▸ hlt, some_bind, IndexSet.get?_eq fun _ => hn ▸ hlt]
    cases m.get (t.symbol b).index <;> rfl
  rw [reportOverlap?, ht.symbol?_eq_of ha, Work.some_bind, hshared, Work.some_bind]
  rfl

theorem Formed.reportConflict?_eq (ht : t.Formed)
    (ha : bounds = .checked → a ∈ t.nonterminals) (c : Conflict) :
    t.reportConflict? bounds a c = (Noted.emit (t.conflict a none c)).run := by
  rw [reportConflict?, ht.symbol?_eq_of ha, Work.some_bind]

theorem Proper.conflictsFrom?_eq_from (ht : t.Proper bounds)
    (ha : bounds = .checked → a ∈ t.nonterminals) (hs : t.graph.Shallow k p)
    (hp : ∀ i ∈ p, t.Inside i) :
    t.conflictsFrom? bounds a p = (t.conflictsFrom a k p).run := by
  induction k generalizing p with
  | zero => exact hs.elim
  | succ k ih =>
    cases p with
    | none =>
      rw [conflictsFrom?]
      exact (Noted.run_pure ()).symm
    | some i =>
      obtain ⟨b, hi⟩ := hp i rfl
      have hnext : ∀ j ∈ (t.node i).next, t.Inside j := fun j hj => ⟨b, hi.next hj⟩
      have hrest : (if (t.node i).up then pure ()
            else t.conflictsFrom? bounds a (t.node i).next) =
          (if (t.node i).up then pure () else t.conflictsFrom a k (t.node i).next :
            Noted Unit).run := by
        cases hu : (t.node i).up with
        | true => exact (Noted.run_pure ()).symm
        | false => exact ih (hs.of_call (.next hu)) hnext
      rw [conflictsFrom?, conflictsFrom, ht.node?_eq ⟨b, hi⟩, Work.some_bind]
      cases hk : (t.node i).kind with
      | alt sub down =>
        dsimp only
        rw [ht.alternatives?_eq ⟨b, hi⟩, Work.some_bind]
        refine Noted.run_bind_of (Noted.run_foldlM (P := fun s => s.size = t.terminalCount)
          (fun before hz y hy => ⟨?_, ?_⟩) (IndexSet.size_empty _)).1 hrest
        · have hin := Inside.forall ⟨b, (ht.within_of_alternative hi hy).1⟩
          refine Noted.run_bind_of (ht.expectedUnresolved?_eq hin ha) ?_
          refine Noted.run_bind_of (ht.reportOverlap?_eq ha hz (size_expectedUnresolved ..) _) ?_
          exact Noted.run_bind_of (ih (hs.of_call (.content hy)) hin) (Noted.run_pure _).symm
        · exact IndexSet.size_union.trans hz
      | opt sub | iter sub =>
        have hsub : (t.graph.kind i).sub? = some sub := congrArg NodeKind.sub? hk
        have hin : ∀ j ∈ some sub, t.Inside j := fun j hj => ⟨b, hi.sub (hsub.trans hj)⟩
        have hend : (do
              t.conflictsFrom? bounds a (some sub)
              if (t.node i).up then return else t.conflictsFrom? bounds a (t.node i).next) =
            (do
              t.conflictsFrom a k (some sub)
              if (t.node i).up then return
              else t.conflictsFrom a k (t.node i).next : Noted Unit).run :=
          Noted.run_bind_of (ih (hs.of_call (.sub hsub)) hin) hrest
        dsimp only
        rw [ht.groupDeletable?_eq hin, Work.some_bind]
        cases t.groupDeletable (some sub) with
        | true => exact Noted.run_bind_of (ht.reportConflict?_eq ha _) hend
        | false =>
          refine Noted.run_bind_of (ht.expectedUnresolved?_eq hin ha) ?_
          refine Noted.run_bind_of (ht.expected?_eq hnext ha) ?_
          exact Noted.run_bind_of (ht.reportOverlap?_eq ha (size_expectedUnresolved ..)
            (size_expected ..) _) hend
      | any set =>
        dsimp only
        cases set.isEmpty with
        | true => exact Noted.run_bind_of (ht.reportConflict?_eq ha _) hrest
        | false => exact hrest
      | _ => exact hrest

theorem Proper.checkConflicts?_eq (ht : t.Proper bounds) :
    t.checkConflicts? bounds = t.checkConflicts.run := by
  refine Noted.run_forM fun a ha => ?_
  have ha := Array.mem_toList_iff.mp ha
  rw [ht.symbol?_eq ha, Work.some_bind]
  exact ht.conflictsFrom?_eq_from (fun _ => ha) (ht.shallow (Formed.root_inside a))
    (Formed.root_inside a)

/-! ### Resolvers -/

theorem Proper.checkAlternative?_eq (ht : t.Proper bounds)
    (ha : bounds = .checked → a ∈ t.nonterminals) (hj : t.Inside j) (all before : IndexSet) :
    t.checkAlternative? bounds a all before j = (t.checkAlternative a all before j).run := by
  have hnext : ∀ l ∈ (t.node j).next, t.Inside l := hj.elim fun b hj l hl => ⟨b, hj.next hl⟩
  unfold checkAlternative? checkAlternative
  rw [ht.node?_eq hj, Work.some_bind]
  dsimp only
  cases (t.node j).kind with
  | resolver =>
    refine Noted.run_bind_of (ht.expected?_eq hnext ha) ?_
    cases ((t.expected (t.node j).next a).value).overlaps before
    · exact Noted.run_bind_of rfl (Noted.run_pure _).symm
    · exact Noted.run_bind_of rfl (Noted.run_bind_of rfl (Noted.run_pure _).symm)
  | _ => exact Noted.run_bind_of (ht.expected?_eq hj.forall ha) (Noted.run_pure _).symm

theorem Proper.checkContent?_eq (ht : t.Proper bounds)
    (ha : bounds = .checked → a ∈ t.nonterminals) (hj : t.Inside j) (hp : ∀ i ∈ p, t.Inside i) :
    t.checkContent? bounds a j p = (t.checkContent a j p).run := by
  have hnext : ∀ l ∈ (t.node j).next, t.Inside l := hj.elim fun b hj l hl => ⟨b, hj.next hl⟩
  unfold checkContent? checkContent
  rw [ht.node?_eq hj, Work.some_bind]
  dsimp only
  cases (t.node j).kind with
  | resolver =>
    exact Noted.run_bind_of (ht.first?_eq hnext) (Noted.run_bind_of (ht.expected?_eq hp ha) rfl)
  | _ => exact (Noted.run_pure ()).symm

theorem Proper.resolversFrom?_eq_from {c : Bool} (ht : t.Proper bounds)
    (ha : bounds = .checked → a ∈ t.nonterminals) (hs : t.graph.Shallow k p)
    (hp : ∀ i ∈ p, t.Inside i) :
    t.resolversFrom? bounds a c p = (t.resolversFrom a k c p).run := by
  induction k generalizing p c with
  | zero => exact hs.elim
  | succ k ih =>
    cases p with
    | none =>
      rw [resolversFrom?]
      exact (Noted.run_pure ()).symm
    | some i =>
      obtain ⟨b, hi⟩ := hp i rfl
      have hnext : ∀ j ∈ (t.node i).next, t.Inside j := fun j hj => ⟨b, hi.next hj⟩
      have hrest : (if (t.node i).up then pure ()
            else t.resolversFrom? bounds a false (t.node i).next) =
          (if (t.node i).up then pure () else t.resolversFrom a k false (t.node i).next :
            Noted Unit).run := by
        cases hu : (t.node i).up with
        | true => exact (Noted.run_pure ()).symm
        | false => exact ih (hs.of_call (.next hu)) hnext
      rw [resolversFrom?, resolversFrom, ht.node?_eq ⟨b, hi⟩, Work.some_bind]
      cases hk : (t.node i).kind with
      | alt sub down =>
        have hsubs {x} (hx : x ∈ (t.graph.alternatives i).map (·.1)) :
            t.Inside x ∧ t.graph.Calls i (some x) := by
          obtain ⟨y, hy, rfl⟩ := List.mem_map.mp hx
          exact ⟨⟨b, (ht.within_of_alternative hi hy).1⟩, .content hy⟩
        dsimp only
        rw [ht.alternatives?_eq ⟨b, hi⟩, Work.some_bind]
        refine Noted.run_bind_of (Noted.run_foldlM (P := fun _ => True)
          (fun _ _ x hx => ⟨?_, trivial⟩) trivial).1 ?_
        · exact Noted.run_bind_of (ht.expectedUnresolved?_eq (hsubs hx).1.forall ha)
            (Noted.run_pure _).symm
        refine Noted.run_bind_of (Noted.run_foldlM (P := fun _ => True)
          (fun before _ x hx => ⟨?_, trivial⟩) trivial).1 hrest
        refine Noted.run_bind_of (ht.checkAlternative?_eq ha (hsubs hx).1 _ before) ?_
        exact Noted.run_bind_of (ih (hs.of_call (hsubs hx).2) (hsubs hx).1.forall)
          (Noted.run_pure _).symm
      | iter sub | opt sub =>
        have hsub : (t.graph.kind i).sub? = some sub := congrArg NodeKind.sub? hk
        refine Noted.run_bind_of (ht.checkContent?_eq ha ⟨b, hi.sub hsub⟩ hnext) ?_
        exact Noted.run_bind_of (ih (hs.of_call (.sub hsub)) (Inside.forall ⟨b, hi.sub hsub⟩)) hrest
      | resolver =>
        cases c with
        | true => exact hrest
        | false => exact Noted.run_bind_of rfl hrest
      | _ => exact hrest

theorem Proper.checkResolvers?_eq (ht : t.Proper bounds) :
    t.checkResolvers? bounds = t.checkResolvers.run := by
  refine Noted.run_forM fun a ha => ?_
  have ha := Array.mem_toList_iff.mp ha
  rw [ht.symbol?_eq ha, Work.some_bind]
  exact ht.resolversFrom?_eq_from (fun _ => ha) (ht.shallow (Formed.root_inside a))
    (Formed.root_inside a)

/-! ### All checks -/

theorem Proper.checkChoices?_eq (ht : t.Proper bounds) :
    t.checkChoices? bounds = t.checkChoices.run := by
  have h : (do
        t.checkResolvers? bounds
        t.checkConflicts? bounds : Work Unit) =
      (do
        t.checkResolvers
        t.checkConflicts : Noted Unit).run :=
    Noted.run_bind_of ht.checkResolvers?_eq ht.checkConflicts?_eq
  unfold checkChoices? checkChoices
  rw [h]
  rfl

theorem Proper.check?_eq (ht : t.Proper bounds) : t.check? bounds = t.check.run := by
  unfold check? check
  refine Noted.run_bind_of ht.checkStructure?_eq ?_
  cases t.checkStructure.value with
  | false => exact (Noted.run_pure false).symm
  | true => exact ht.checkChoices?_eq

/-- A faulty grammar is only listed; so it takes a proper table only where there were no faults. -/
theorem Formed.analyze?_eq (ht : t.Formed) (faulty : Bool)
    (hp : faulty = false → t.Proper bounds) :
    t.analyze? bounds faulty = (t.analyze faulty).run := by
  have hlist {u : Table} (hu : u.Formed) (ok : Bool) : (do
        let r ← (pure (u, ok) : Work (Table × Bool))
        r.1.lookUps? bounds
        (list .symbols fun cfg => Listing.symbols r.1 cfg).run
        return r : Work (Table × Bool)) =
      (do
        let r ← pure (u, ok)
        list .symbols fun cfg => Listing.symbols r.1 cfg
        return r : Noted (Table × Bool)).run := by
    refine Noted.run_bind_of (Noted.run_pure (u, ok)).symm ?_
    rw [Noted.value_pure, hu.lookUps?_eq, Work.some_bind]
    exact Noted.run_bind_of rfl (Noted.run_pure _).symm
  unfold analyze? analyze
  cases faulty with
  | true => exact hlist ht false
  | false =>
    have hu := (hp rfl).sameDeclared_computeSets.toSameOutline.proper (hp rfl)
    refine Noted.run_bind_of (hp rfl).computeSets?_eq ?_
    rw [hu.lookUps?_eq, Work.some_bind]
    refine Noted.run_bind_of rfl (Noted.run_bind_of hu.check?_eq ?_)
    cases t.computeSets.value.check.value with
    | true => exact Noted.run_bind_of rfl (hlist hu.toFormed true)
    | false => exact hlist hu.toFormed false

end Table

end Lookahead
