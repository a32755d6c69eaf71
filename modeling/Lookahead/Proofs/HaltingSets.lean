import Lookahead.Proofs.Depth
import Lookahead.Proofs.Alternatives
import Lookahead.Proofs.Computed
import Lookahead.Proofs.Syncs

/-!
# The sets are computed in finitely many steps

Every walk and every loop that computes sets has a value without fuel, in each table with the
outline of a closed one, and it is the value that the fuel gives. Walks through groups end at the
marks `up` (`Table.Formed.shallow`); the others mark what they pass, so there is less and less to be
passed (`Table.Passes.unmarked_le`); rounds of marking nonterminals stop when none is left. Nodes and
symbols that come up on the way are there in any such table; that terminals have their places in the
sets takes a table in which nothing but a terminal stands for one (`Table.Proper`).
-/

namespace Lookahead

namespace NodeKind

variable {k : NodeKind} {a : SymbolId}

theorem outline_eq_terminal : k.outline = terminal a ↔ k = terminal a := by
  cases k <;> simp [outline]

theorem outline_eq_weak : k.outline = weak a ↔ k = weak a := by
  cases k <;> simp [outline]

end NodeKind

namespace Table

variable {bounds : Bounds} {t u : Table} {a : SymbolId} {i j : NodeId} {p q : Option NodeId}

theorem Registered.lt (ht : Registered t) {k : SymbolKind} (ha : a ∈ t.listed k) :
    a < t.symbols.size :=
  ((ht.mem k a).mp ha).1

theorem Formed.lt (ht : t.Formed) (ha : a ∈ t.nonterminals) : a < t.symbols.size :=
  ht.registered.lt (k := .nonterminal) ha

theorem Formed.symbol?_eq (ht : t.Formed) (ha : a ∈ t.nonterminals) :
    t.symbol? bounds a = some (t.symbol a) :=
  Table.symbol?_eq (ht.lt ha)

/-- Work that is not checked needs no nonterminal. -/
theorem Formed.symbol?_eq_of (ht : t.Formed) (ha : bounds = .checked → a ∈ t.nonterminals) :
    t.symbol? bounds a = some (t.symbol a) :=
  Bounds.guard_eq (fun hb => ht.lt (ha hb)) _

theorem Registered.symbol?_eof (ht : Registered t) :
    t.symbol? bounds t.eof = some (t.symbol t.eof) :=
  Table.symbol?_eq (ht.lt (k := .terminal) ht.eof)

theorem Registered.symbols?_eq (ht : Registered t) (k : SymbolKind) :
    t.symbols? bounds (t.listed k).toList = some ((t.listed k).toList.map t.symbol) :=
  Table.symbols?_eq fun _ ha => ht.lt (Array.mem_toList_iff.mp ha)

theorem Registered.symbols?_terminals (ht : Registered t) :
    t.symbols? bounds t.terminals.toList = some t.terminalSymbols :=
  ht.symbols?_eq .terminal

theorem Registered.symbols?_nonterminals (ht : Registered t) :
    t.symbols? bounds t.nonterminals.toList = some t.nonterminalSymbols :=
  ht.symbols?_eq .nonterminal

theorem Formed.shallow (ht : t.Formed) (hp : ∀ i ∈ p, t.Inside i) :
    t.graph.Shallow (t.graph.size + 1) p := by
  cases p with
  | none => trivial
  | some i =>
    obtain ⟨a, hi⟩ := hp i rfl
    obtain ⟨r, s, -, hs, hi⟩ := ht.within_iff.mp hi
    exact hs.shallow hi

theorem Inside.forall (hi : t.Inside i) : ∀ j ∈ some i, t.Inside j :=
  fun _ hj => Option.some.inj hj ▸ hi

theorem Formed.node?_eq (ht : t.Formed) (hi : t.Inside i) :
    t.graph.node? bounds i = some (t.node i) :=
  Graph.node?_eq (hi.lt ht)

theorem Formed.isDeletable?_eq (ht : t.Formed) (i : NodeId) (a : SymbolId)
    (hk : t.graph.kind i = .nonterminal a) : t.isDeletable? bounds a = some (t.isDeletable a) := by
  rw [isDeletable?, ht.symbol?_eq (ht.allows_nonterminal hk)]
  rfl

theorem Formed.groupDeletable?_eq (ht : t.Formed) (hp : ∀ i ∈ p, t.Inside i) :
    t.groupDeletable? bounds p = some (t.groupDeletable p) :=
  Graph.groupDeletable?_eq ht.isDeletable?_eq (ht.shallow hp)

theorem Formed.nodeDeletable?_eq (ht : t.Formed) (hi : t.Inside i) :
    t.nodeDeletable? bounds i = some (t.nodeDeletable i) :=
  Graph.nodeDeletable?_eq ht.isDeletable?_eq (ht.shallow hi.forall)

theorem Formed.restDeletable?_eq (ht : t.Formed) (hp : ∀ i ∈ p, t.Inside i) :
    t.restDeletable? bounds p = some (t.restDeletable p) := by
  cases p with
  | none =>
    rw [restDeletable?, Graph.restDeletable?]
    rfl
  | some i =>
    obtain ⟨a, hi⟩ := hp i rfl
    obtain ⟨r, s, -, hs, hi⟩ := ht.within_iff.mp hi
    exact hs.restDeletable?_eq ht.isDeletable?_eq hi

theorem Formed.alternatives?_eq (ht : t.Formed) (hi : t.Inside i) :
    t.graph.alternatives? bounds (some i) = some (t.graph.alternatives i) :=
  Graph.alternatives?_eq (ht.shallow hi.forall)

/-- A table that checked work can be done on: nothing but terminals stands where terminals do. -/
structure Proper (bounds : Bounds) (t : Table) : Prop extends t.Formed where
  terminal : bounds = .checked → ∀ i a,
    t.graph.kind i = .terminal a ∨ t.graph.kind i = .weak a → a ∈ t.terminals

theorem Formed.proper (ht : t.Formed) : t.Proper .unchecked :=
  ⟨ht, nofun⟩

theorem SameOutline.proper (h : SameOutline t u) (ht : t.Proper bounds) : u.Proper bounds where
  toFormed := h.formed ht.toFormed
  terminal hb i a hk := by
    rw [h.terminals]
    refine ht.terminal hb i a ?_
    have ho := h.graph.kind i
    rcases hk with hk | hk <;> rw [hk] at ho
    · exact .inl (NodeKind.outline_eq_terminal.mp ho.symm)
    · exact .inr (NodeKind.outline_eq_weak.mp ho.symm)

section

variable (ht : t.Proper bounds)
  (hk : t.graph.kind i = .terminal a ∨ t.graph.kind i = .weak a)
include ht hk

theorem Proper.symbol?_terminal : t.symbol? bounds a = some (t.symbol a) := by
  have ha := ht.allows i
  rcases hk with hk | hk <;> rw [hk] at ha <;> exact Table.symbol?_eq ha.1

/-- The symbol of a terminal node has a place in every set of terminals. -/
theorem Proper.insert?_terminal :
    (IndexSet.empty t.terminalCount).insert? bounds (t.symbol a).index =
      some ((IndexSet.empty t.terminalCount).insert (t.symbol a).index) := by
  refine IndexSet.insert?_eq fun hb => ?_
  rw [IndexSet.size_empty]
  exact ht.registered.index_lt_size (k := .terminal) (by decide) (ht.terminal hb i a hk)

end

/-! ### First sets -/

/-- What the walk does behind a node, once it has the sets that it has found up to there. -/
theorem Proper.firstFrom?_behind {q : IndexSet × IndexSet} {n : Nat} (ht : t.Proper bounds)
    (hi : t.Inside i) (hwalk : t.nodeDeletable i = true →
      t.firstFrom? bounds (t.node i).next q.2 = some (t.firstFrom n (t.graph.next i) q.2)) :
    (do
      let (s, m) ← some q
      if ← t.nodeDeletable? bounds i then
        let (r, m) ← t.firstFrom? bounds (t.node i).next m
        return (s.union r, m)
      else return (s, m)) =
    some (if t.nodeDeletable i then
      let r := t.firstFrom n (t.graph.next i) q.2
      (q.1.union r.1, r.2)
    else q) := by
  rw [ht.nodeDeletable?_eq hi]
  cases hd : t.nodeDeletable i with
  | false => rfl
  | true => exact congrArg (Option.bind · fun r => some (q.1.union r.1, r.2)) (hwalk hd)

theorem Proper.firstFrom?_eq_from {m : IndexSet} {n : Nat} (ht : t.Proper bounds)
    (hm : m.size = t.graph.size) (hn : m.unmarked < n) (hp : ∀ i ∈ p, t.Inside i) :
    t.firstFrom? bounds p m = some (t.firstFrom n p m) := by
  induction n generalizing p m with
  | zero => exact absurd hn (Nat.not_lt_zero _)
  | succ n ih =>
    cases p with
    | none =>
      rw [firstFrom?]
      rfl
    | some i =>
      have hin : t.Inside i := hp i rfl
      have hlt : i < m.size := hm ▸ hin.lt ht.toFormed
      rw [firstFrom?, firstFrom_some, IndexSet.get?_eq fun _ => hlt, some_bind]
      split
      · rfl
      rename_i hi
      have hi : m.get i = false := by simpa using hi
      have hm' : (m.insert i).size = t.graph.size := IndexSet.size_insert.trans hm
      have hn' : (m.insert i).unmarked < n :=
        (IndexSet.unmarked_insert hlt hi).trans_le (Nat.le_of_lt_succ hn)
      have hwalk {q} (he : ∀ k ∈ q, t.Edge i k) :=
        ih (p := q) hm' hn' fun k hk => hin.edge (he k hk)
      have hnode := (gathered_firstNode ht.toFormed
        (fun q l h₁ h₂ h₃ => explored_firstFrom ht.toFormed h₁ h₂ h₃) hm hn hin hi).1.walk
      generalize hq : t.firstNode n i (m.insert i) = q at hnode ⊢
      have hrest := ht.firstFrom?_behind (q := q) hin fun hd =>
        ih (p := t.graph.next i) (hnode.size.trans hm)
          ((hnode.unmarked_lt hlt hi).trans_le (Nat.le_of_lt_succ hn))
          fun k hk => hin.edge (.next hd hk)
      rw [ht.node?_eq hin, some_bind, IndexSet.insert?_eq fun _ => hlt, some_bind]
      refine .trans ?_ hrest
      show bind _ _ = bind _ _
      congr 1
      rw [← hq, firstNode, show (t.node i).kind = t.graph.kind i from rfl]
      cases hk : t.graph.kind i with
      | nonterminal c =>
        dsimp only
        rw [ht.symbol?_eq (ht.allows_nonterminal hk), some_bind]
        cases hc : (t.symbol c).firstReady with
        | true => simp
        | false =>
          have := hwalk (q := (t.symbol c).root) fun k hr => .root hk hc hr
          simp [this]
      | terminal c =>
        dsimp only
        rw [ht.symbol?_terminal (.inl hk), some_bind, ht.insert?_terminal (.inl hk)]
        rfl
      | weak c =>
        dsimp only
        rw [ht.symbol?_terminal (.inr hk), some_bind, ht.insert?_terminal (.inr hk)]
        rfl
      | alt sub down =>
        have he₁ : ∀ k ∈ some sub, t.Edge i k := fun k h => .sub (by rw [hk]; exact h)
        have he₂ : ∀ k ∈ down, t.Edge i k := fun k h => .down (by rw [hk]; exact h)
        have hsub := (explored_firstFrom ht.toFormed hm' hn' fun k h => hin.edge (he₁ k h)).1.walk
        have h₂ := ih (p := down) (hsub.size.trans hm') (hsub.unmarked_le.trans_lt hn')
          fun k h => hin.edge (he₂ k h)
        simp [hwalk he₁, h₂]
      | iter sub | opt sub => exact hwalk (q := some sub) fun k h => .sub (by rw [hk]; exact h)
      | _ => rfl

theorem Proper.firstFrom?_eq (ht : t.Proper bounds) (hp : ∀ i ∈ p, t.Inside i) :
    t.firstFrom? bounds p (.empty t.graph.size) =
      some (t.firstFrom (t.graph.size + 1) p (.empty t.graph.size)) := by
  have hn := IndexSet.unmarked_le_size (.empty t.graph.size)
  rw [IndexSet.size_empty] at hn
  exact ht.firstFrom?_eq_from (IndexSet.size_empty _) (Nat.lt_succ_of_le hn) hp

theorem Proper.first?_eq (ht : t.Proper bounds) (hp : ∀ i ∈ p, t.Inside i) :
    t.first? bounds p = (t.first p).run := by
  rw [first?, ht.firstFrom?_eq hp, Work.some_bind]
  dsimp only
  rw [ht.registered.symbols?_terminals, Work.some_bind]
  rfl

theorem Proper.expected?_eq (ht : t.Proper bounds) (hp : ∀ i ∈ p, t.Inside i)
    (ha : bounds = .checked → a ∈ t.nonterminals) :
    t.expected? bounds p a = (t.expected p a).run := by
  rw [expected?, expected, ht.restDeletable?_eq hp, ht.symbol?_eq_of ha]
  refine Noted.run_bind_of (ht.first?_eq hp) ?_
  cases t.restDeletable p <;> exact (Noted.run_pure _).symm

theorem Proper.expectedUnresolved?_eq (ht : t.Proper bounds) (hp : ∀ i ∈ p, t.Inside i)
    (ha : bounds = .checked → a ∈ t.nonterminals) :
    t.expectedUnresolved? bounds p a = (t.expectedUnresolved p a).run := by
  cases p with
  | none => exact ht.expected?_eq hp ha
  | some i =>
    rw [expectedUnresolved?, ht.node?_eq (hp i rfl), Work.some_bind, expectedUnresolved,
      Option.map_some, show (t.node i).kind = t.graph.kind i from rfl]
    cases t.graph.kind i with
    | resolver => exact (Noted.run_pure _).symm
    | _ => exact ht.expected?_eq hp ha

theorem Proper.setFirst?_eq (ht : t.Proper bounds) (ha : a ∈ t.nonterminals) :
    t.setFirst? bounds a = (t.setFirst a).run := by
  rw [setFirst?, setFirst, ht.symbol?_eq ha, Work.some_bind]
  refine Noted.run_bind_of (ht.first?_eq fun i hi => ⟨a, .root hi⟩) ?_
  rw [modifySymbol?_eq (ht.lt ha)]
  exact (Noted.run_pure _).symm

/-! ### Wildcards -/

theorem Formed.leadingWildcard?_eq_from {n : Nat} (ht : t.Formed) (hs : t.graph.Shallow n p)
    (hp : ∀ i ∈ p, t.Inside i) :
    t.leadingWildcard? bounds p = some (t.leadingWildcardFrom n p) := by
  induction n generalizing p with
  | zero => exact hs.elim
  | succ n ih =>
    cases p with
    | none =>
      rw [leadingWildcard?]
      rfl
    | some i =>
      obtain ⟨a, hi⟩ := hp i rfl
      have hrest (b : Option NodeId) : (do
            let b ← some b
            if b.isSome then some b
            else if ← t.nodeDeletable? bounds i then
              (if (t.node i).up then some b else t.leadingWildcard? bounds (t.node i).next)
            else some b) =
          some (if b.isNone && t.nodeDeletable i && !(t.node i).up then
            t.leadingWildcardFrom n (t.node i).next else b) := by
        rw [ht.nodeDeletable?_eq ⟨a, hi⟩]
        cases b with
        | some b => rfl
        | none =>
          cases hu : (t.node i).up with
          | true => cases t.nodeDeletable i <;> rfl
          | false =>
            have hnext := ih (hs.of_call (.next hu)) fun j hj => ⟨a, hi.next hj⟩
            cases t.nodeDeletable i with
            | false => rfl
            | true => exact hnext
      rw [leadingWildcard?, leadingWildcardFrom, ht.node?_eq ⟨a, hi⟩, some_bind]
      refine .trans ?_ (hrest _)
      show bind _ _ = bind _ _
      congr 1
      rw [show (t.node i).kind = t.graph.kind i from rfl]
      have hsub {j} (hj : (t.graph.kind i).sub? = some j) :=
        ih (hs.of_call (.sub hj)) fun k hk => ⟨a, hi.sub (hj.trans hk)⟩
      have hdown := ih (hs.of_call .down) fun k hk => ⟨a, hi.down hk⟩
      cases hk : t.graph.kind i with
      | alt sub down =>
        rw [hk] at hdown
        dsimp only
        rw [hsub (by rw [hk]; rfl)]
        cases t.leadingWildcardFrom n (some sub) with
        | some b => rfl
        | none => exact hdown
      | opt sub | iter sub => exact hsub (by rw [hk]; rfl)
      | _ => rfl

theorem Formed.leadingWildcard?_eq (ht : t.Formed) (hp : ∀ i ∈ p, t.Inside i) :
    t.leadingWildcard? bounds p = some (t.leadingWildcard p) :=
  ht.leadingWildcard?_eq_from (ht.shallow hp) hp

/-- What a walk finds is a wildcard. -/
theorem kind_leadingWildcardFrom {n : Nat} (h : t.leadingWildcardFrom n p = some i) :
    ∃ set, t.graph.kind i = .any set := by
  induction n generalizing p with
  | zero => cases h
  | succ n ih =>
    cases p with
    | none => cases h
    | some j =>
      have hcases (b : Option NodeId) (c : Bool)
          (h : (if c then t.leadingWildcardFrom n (t.node j).next else b) = some i) :
          b = some i ∨ ∃ set, t.graph.kind i = .any set := by
        cases c with
        | false => exact .inl h
        | true => exact .inr (ih h)
      rw [leadingWildcardFrom] at h
      rcases hcases _ _ h with h | h
      · cases hk : (t.node j).kind with
        | any set =>
          rw [hk] at h
          cases h
          exact ⟨set, hk⟩
        | alt sub down =>
          rw [hk] at h
          dsimp only at h
          split at h
          · rename_i hs
            cases h
            exact ih hs
          · exact ih h
        | opt sub | iter sub =>
          rw [hk] at h
          exact ih h
        | _ =>
          rw [hk] at h
          cases h
      · exact h

theorem leadingWildcard_lt (h : t.leadingWildcard p = some i) : i < t.graph.size := by
  obtain ⟨set, hk⟩ := kind_leadingWildcardFrom h
  by_contra hi
  rw [Graph.kind, Graph.node_of_size_le (Nat.le_of_not_lt hi)] at hk
  cases hk

theorem restrict?_eq (hi : i < t.graph.size) (s : IndexSet) :
    t.restrict? bounds i s = some (t.restrict i s) := by
  rw [restrict?, Graph.node?_eq hi, some_bind, restrict,
    show (t.graph.node i).kind = t.graph.kind i from rfl]
  cases t.graph.kind i with
  | any set =>
    dsimp only
    rw [Graph.setKind?_eq hi]
    rfl
  | _ => rfl

theorem Proper.restrictLeading?_eq (ht : t.Proper bounds) (hp : ∀ i ∈ p, t.Inside i)
    (hq : ∀ i ∈ q, t.Inside i) :
    t.restrictLeading? bounds p q = (t.restrictLeading p q).run := by
  rw [restrictLeading?, ht.leadingWildcard?_eq hp, restrictLeading, Work.some_bind]
  cases ha : t.leadingWildcard p with
  | none => exact (Noted.run_pure t).symm
  | some a =>
    refine Noted.run_bind_of (ht.first?_eq hq) ?_
    rw [restrict?_eq (leadingWildcard_lt ha)]
    exact (Noted.run_pure _).symm

theorem Proper.restrictAlternative?_eq {sub : NodeId} {down : Option NodeId} (ht : t.Proper bounds)
    (hs : t.Inside sub) (hd : ∀ i ∈ down, t.Inside i) (others : IndexSet) :
    t.restrictAlternative? bounds others sub down =
      (t.restrictAlternative others sub down).run := by
  have hs := hs.forall
  rw [restrictAlternative?, ht.leadingWildcard?_eq hs, restrictAlternative, Work.some_bind]
  cases ha : t.leadingWildcard (some sub) with
  | none =>
    exact Noted.run_bind_of (ht.first?_eq hs) (Noted.run_pure _).symm
  | some a =>
    refine Noted.run_bind_of (ht.first?_eq hd) ?_
    rw [restrict?_eq (leadingWildcard_lt ha)]
    exact (Noted.run_pure _).symm

theorem SameOutline.inside (h : SameOutline t u) (hi : t.Inside i) : u.Inside i :=
  hi.imp fun _ => h.within

theorem Within.content (hi : t.Within a i) : ∀ j ∈ t.content i, t.Inside j := by
  intro j hj
  unfold Table.content at hj
  cases hk : t.graph.kind i with
  | nonterminal b =>
    rw [hk] at hj
    exact ⟨b, .root hj⟩
  | _ =>
    rw [hk] at hj
    exact ⟨a, hi.sub (by rw [hk]; exact hj)⟩

theorem Formed.content?_eq (ht : t.Formed) (hi : t.Inside i) :
    t.content? bounds i = some (t.content i) := by
  rw [content?, ht.node?_eq hi, some_bind, content,
    show (t.node i).kind = t.graph.kind i from rfl]
  cases hk : t.graph.kind i with
  | nonterminal a =>
    dsimp only
    rw [ht.symbol?_eq (ht.allows_nonterminal hk)]
    rfl
  | _ => rfl

theorem redrawn_restrictFrom (n : Nat) (t : Table) (p : Option NodeId) :
    Redrawn t (restrictFrom n t p).value :=
  restrictFrom_induct .refl (fun _ _ _ => .trans) redrawn_restrict n t p

/-- Once it is through with a node itself, the pass looks for a wildcard behind it and goes on. -/
theorem Proper.restrictFrom?_behind {u : Table} (n : Nat) (up : Bool) (hu : u.Proper bounds)
    (hi : u.Within a i) (hp : ∀ j ∈ p, u.Inside j)
    (hrec : up = false → ∀ v, Redrawn u v →
      restrictFrom? bounds v p = (restrictFrom n v p).run) :
    (do
        let v ←
          if ← u.nodeDeletable? bounds i then u.restrictLeading? bounds p (← u.content? bounds i)
          else pure u
        if up then return v else restrictFrom? bounds v p : Work Table) =
      (do
        let v ← if u.nodeDeletable i then u.restrictLeading p (u.content i) else pure u
        if up then return v else restrictFrom n v p : Noted Table).run := by
  have hend {v} (hv : Redrawn u v) :
      (if up then return v else restrictFrom? bounds v p : Work Table) =
        (if up then return v else restrictFrom n v p : Noted Table).run := by
    cases up with
    | true => exact (Noted.run_pure v).symm
    | false => exact hrec rfl v hv
  rw [hu.nodeDeletable?_eq ⟨a, hi⟩, hu.content?_eq ⟨a, hi⟩, Work.some_bind]
  cases u.nodeDeletable i with
  | false => exact Noted.run_bind_of (Noted.run_pure u).symm (hend (.refl u))
  | true =>
    simp only [if_true, Work.some_bind]
    exact Noted.run_bind_of (hu.restrictLeading?_eq hp hi.content)
      (hend (restrictLeading_induct .refl redrawn_restrict ..))

theorem Proper.restrictFrom?_eq_from {n : Nat} (ht : t.Proper bounds) (hs : t.graph.Shallow n p)
    (hp : ∀ i ∈ p, t.Inside i) : restrictFrom? bounds t p = (restrictFrom n t p).run := by
  induction n generalizing t p with
  | zero => exact hs.elim
  | succ n ih =>
    cases p with
    | none =>
      rw [restrictFrom?]
      exact (Noted.run_pure t).symm
    | some i =>
      obtain ⟨a, hi⟩ := hp i rfl
      have hcall {u q} (hu : Redrawn t u) (hq : t.graph.Calls i q) (hin : ∀ j ∈ q, t.Within a j) :
          restrictFrom? bounds u q = (restrictFrom n u q).run :=
        ih (hu.outline.proper ht) ((hs.of_call hq).alike hu.graph) fun j hj =>
          hu.outline.inside ⟨a, hin j hj⟩
      have hnext {u} (hu : Redrawn t u) : ∀ j ∈ (t.node i).next, u.Inside j := fun j hj =>
        hu.outline.inside ⟨a, hi.next hj⟩
      have hrest {u} (hu : Redrawn t u) :=
        (hu.outline.proper ht).restrictFrom?_behind n (t.node i).up (hu.outline.within hi)
          (hnext hu) fun hup v hv => hcall (hu.trans hv) (.next hup) fun j hj => hi.next hj
      rw [restrictFrom?, restrictFrom, ht.node?_eq ⟨a, hi⟩, Work.some_bind]
      cases hk : (t.node i).kind with
      | opt sub | iter sub =>
        have hsub : (t.graph.kind i).sub? = some sub := congrArg NodeKind.sub? hk
        have hin : ∀ j ∈ some sub, t.Within a j := fun j hj => hi.sub (hsub.trans hj)
        have hu := redrawn_restrictFrom n t (some sub)
        refine Noted.run_bind_of (hcall (.refl t) (.sub hsub) hin) ?_
        refine Noted.run_bind_of ?_ (hrest (hu.trans (restrictLeading_induct .refl
          redrawn_restrict ..)))
        exact (hu.outline.proper ht).restrictLeading?_eq
          (fun j hj => hu.outline.inside ⟨a, hin j hj⟩) (hnext hu)
      | alt sub down =>
        have hloop := Noted.run_foldlM (b := (t, .empty t.terminalCount))
          (P := fun r => Redrawn t r.1) (l := t.graph.alternatives i)
          (g := fun r y => do
            let u ← restrictFrom? bounds r.1 (some y.1)
            u.restrictAlternative? bounds r.2 y.1 y.2)
          (f := fun r y => do
            let u ← restrictFrom n r.1 (some y.1)
            u.restrictAlternative r.2 y.1 y.2) (fun r hr y hy => by
          obtain ⟨hw, hd⟩ := ht.within_of_alternative hi hy
          have hu := hr.trans (redrawn_restrictFrom n r.1 (some y.1))
          refine ⟨Noted.run_bind_of (hcall hr (.content hy) fun j hj => Option.some.inj hj ▸ hw) ?_,
            hu.trans (restrictAlternative_induct .refl redrawn_restrict ..)⟩
          exact (hu.outline.proper ht).restrictAlternative?_eq (hu.outline.inside ⟨a, hw⟩)
            (fun j hj => hu.outline.inside ⟨a, hd j hj⟩) r.2) (.refl t)
        dsimp only
        rw [ht.alternatives?_eq ⟨a, hi⟩, Work.some_bind]
        exact Noted.run_bind_of hloop.1 (Noted.run_bind_of (Noted.run_pure _).symm (hrest hloop.2))
      | _ => exact Noted.run_bind_of (Noted.run_pure t).symm (hrest (.refl t))

end Table

end Lookahead
