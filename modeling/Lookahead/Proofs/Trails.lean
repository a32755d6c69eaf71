import Lookahead.Proofs.Alternatives
import Lookahead.Proofs.Visits
import Lookahead.Proofs.Wildcards
import Lookahead.Check.Conflicts
import Lookahead.Check.Resolvers
import Lookahead.Check.Structure

/-!
# The nodes that walks pass

The walks of the checks and those that cut down wildcards have no memory of where they have been:
they stop at the marked end of a group. A `Trail` keeps a list of the nodes that such a walk passes,
and leaves its result alone. All of these walks make the same tour of the graph (`Graph.tour`),
and the tour of a group is its tree, node by node (`Shape.Fits.tour_eq`).
-/

namespace Lookahead

theorem Noted.lawfulMonad : LawfulMonad Noted :=
  .mk' Noted (fun x => congrArg (Noted.mk x.value) (List.append_nil x.events)) (fun _ _ => rfl)
    fun x _ _ => congrArg (Noted.mk _) (List.append_assoc x.events _ _)

/-- A result and the nodes that were passed on the way to it. -/
structure Trail (α : Type) where
  result : Noted α
  met : List NodeId

namespace Trail

variable {α β : Type}

instance : Monad Trail where
  pure a := ⟨pure a, []⟩
  bind x f := ⟨x.result >>= fun a => (f a).result, x.met ++ (f x.result.value).met⟩

instance : MonadLift Noted Trail where
  monadLift x := ⟨x, []⟩

/-- Passes a node. -/
def meet (i : NodeId) : Trail Unit := ⟨pure (), [i]⟩

/-- Passes the next alternative of a group on the way to its content, if there is one. -/
def stepOver (down : Option NodeId) : Trail Unit := ⟨pure (), down.toList⟩

/-- The trail belongs to what has this result, and meets each node of the list as often as it stands
there, and no other. -/
structure Covers (x : Trail α) (y : Noted α) (L : List NodeId) : Prop where
  result : x.result = y
  met : x.met.Perm L

section

variable (a : α) (x : Trail α) (y : Noted α) (f : α → Trail β) (i : NodeId) (p : Option NodeId)

@[simp] theorem result_pure : (pure a : Trail α).result = pure a := rfl

@[simp] theorem met_pure : (pure a : Trail α).met = [] := rfl

@[simp] theorem result_bind : (x >>= f).result = x.result >>= fun a => (f a).result := rfl

@[simp] theorem met_bind : (x >>= f).met = x.met ++ (f x.result.value).met := rfl

@[simp] theorem result_lift : (liftM y : Trail α).result = y := rfl

@[simp] theorem met_lift : (liftM y : Trail α).met = [] := rfl

@[simp] theorem result_meet : (meet i).result = pure () := rfl

@[simp] theorem met_meet : (meet i).met = [i] := rfl

@[simp] theorem result_stepOver : (stepOver p).result = pure () := rfl

@[simp] theorem met_stepOver : (stepOver p).met = p.toList := rfl

@[simp] theorem result_ite (c : Prop) [Decidable c] (x y : Trail α) :
    (if c then x else y).result = if c then x.result else y.result :=
  apply_ite ..

@[simp] theorem met_ite (c : Prop) [Decidable c] (x y : Trail α) :
    (if c then x else y).met = if c then x.met else y.met :=
  apply_ite ..

end

theorem result_foldlM (f : β → α → Trail β) (l : List α) (b : β) :
    (l.foldlM f b).result = l.foldlM (fun b a => (f b a).result) b := by
  induction l generalizing b with
  | nil => rfl
  | cons a l ih => simp only [List.foldlM_cons, result_bind, ih]

/-- A loop passes what its rounds pass, where this does not depend on what they carry along. -/
theorem met_foldlM_of_inv {f : β → α → Trail β} {N : α → List NodeId} {P : β → Prop} {l : List α}
    {b : β} (hf : ∀ b, P b → ∀ a ∈ l, (f b a).met = N a ∧ P (f b a).result.value) (hb : P b) :
    (l.foldlM f b).met = l.flatMap N ∧ P (l.foldlM f b).result.value := by
  induction l generalizing b with
  | nil => exact ⟨rfl, hb⟩
  | cons a l ih =>
    obtain ⟨hm, hp⟩ := hf b hb a List.mem_cons_self
    obtain ⟨hms, hps⟩ := ih (fun b hb c hc => hf b hb c (List.mem_cons_of_mem a hc)) hp
    rw [List.foldlM_cons]
    exact ⟨by rw [met_bind, hm, hms, List.flatMap_cons], hps⟩

theorem met_foldlM {f : β → α → Trail β} {N : α → List NodeId} {l : List α} {b : β}
    (hf : ∀ b a, (f b a).met = N a) : (l.foldlM f b).met = l.flatMap N :=
  (met_foldlM_of_inv (P := fun _ => True) (fun b _ a _ => ⟨hf b a, trivial⟩) trivial).1

end Trail

/-! ### The tour of a group -/

/-- The nodes that a walk passes which enters contents and stops at the marked end of a group. -/
def Graph.tour (g : Graph) : (fuel : Nat) → Option NodeId → List NodeId
  | 0, _ => []
  | _, none => []
  | fuel + 1, some i =>
    let inside := match g.kind i with
      | .alt _ _ => (g.alternatives i).flatMap fun b => g.tour fuel (some b.1) ++ b.2.toList
      | .opt sub | .iter sub => g.tour fuel (some sub)
      | _ => []
    i :: (inside ++ if (g.node i).up then [] else g.tour fuel (g.next i))

namespace Graph

variable {g h : Graph} {fuel : Nat}

@[simp] theorem tour_none (g : Graph) (fuel : Nat) : g.tour fuel none = [] := by
  cases fuel <;> rfl

/-- Sets of nodes make no difference to the tour. -/
theorem Alike.tour (hg : Alike g h) (fuel : Nat) (p : Option NodeId) :
    h.tour fuel p = g.tour fuel p := by
  induction fuel generalizing p with
  | zero => rfl
  | succ fuel ih =>
    cases p with
    | none => rfl
    | some i =>
      simp only [Graph.tour, ih, hg.alternatives, hg.up, hg.next]
      rcases hg.kind_cases i with hk | ⟨x, y, hh, hk⟩ | ⟨x, y, hh, hk⟩
      · rw [hk]
      all_goals rw [hh, hk]

end Graph

namespace Shape

variable {g : Graph} {q : Option NodeId} {up loop : Bool} {s b o r : Shape} {i : NodeId}
  {fuel : Nat}

/-- What a walk passes behind a node, if it stops at the marked end of a group. -/
theorem Leads.passed {W : Option NodeId → List NodeId} (hl : Leads g (· = q) up i r)
    (hq : up = false → q = none) (hnone : W none = []) (hr : W r.entry = r.nodes) :
    (if (g.node i).up then [] else W (g.next i)) = r.nodes := by
  by_cases hrn : r = nil
  · subst hrn
    obtain ⟨hnext, hup⟩ := hl.of_nil
    rw [hup, hnext]
    cases up with
    | true => rfl
    | false =>
      rw [hq rfl, hnone]
      rfl
  · obtain ⟨hnext, hup⟩ := hl.of_ne hrn
    rw [hup, hnext]
    exact hr

/-- The tours of alternatives pass the first content, and then each further alternative before its
content. -/
theorem Refers.tour_alternatives {e : NodeId} {d : Option NodeId}
    (hr : Refers g (.alt e d) loop b o) (hb : g.tour fuel b.entry = b.nodes)
    (ho : o.IsOther g → o.entry.toList ++
      o.alternatives.flatMap (fun c => g.tour fuel (some c.1) ++ c.2.toList) = o.nodes) :
    (node i loop b o r).alternatives.flatMap (fun c => g.tour fuel (some c.1) ++ c.2.toList) =
      b.nodes ++ o.nodes := by
  obtain ⟨-, hbe, -, hoo⟩ := hr
  rw [hbe] at hb
  rw [alternatives, hbe, List.flatMap_append, ← ho hoo, ← hb]
  simp

/-- The tour of a group is its tree; and so are the tours of further alternatives, which start with
the alternative that stands first. -/
theorem Fits.tour_eq (hs : s.Fits g (· = q) up) (hq : up = false → q = none)
    (hn : s.nodes.length ≤ g.size) (hf : s.nodes.length < fuel) :
    g.tour fuel s.entry = s.nodes ∧ (s.IsOther g → s.entry.toList ++
      s.alternatives.flatMap (fun c => g.tour fuel (some c.1) ++ c.2.toList) = s.nodes) := by
  induction s generalizing q up fuel with
  | nil => exact ⟨g.tour_none fuel, fun _ => rfl⟩
  | node i l b o r ihb iho ihr =>
    obtain ⟨hrefers, hl, -, -, hr⟩ := id hs
    have hlen := hn
    simp only [nodes, List.length_cons, List.length_append] at hlen hf
    obtain ⟨fuel, rfl⟩ : ∃ n, fuel = n + 1 := ⟨fuel - 1, by omega⟩
    have hb {n : Nat} (h : b.nodes.length < n) := ihb hs.body (by simp) (by omega) h
    have ho {n : Nat} (h : o.nodes.length < n) := iho hs.others (by simp) (by omega) h
    have hbehind {n : Nat} (h : r.nodes.length < n) := hl.passed hq (g.tour_none n)
      (ihr hr hq (by omega) h).1
    refine ⟨?_, ?_⟩
    · rw [entry, Graph.tour, hbehind (by omega), nodes, ← List.append_assoc b.nodes]
      refine congrArg (fun L => i :: (L ++ r.nodes)) ?_
      cases hk : g.kind i with
      | alt e d =>
        rw [hk] at hrefers
        dsimp only
        rw [Graph.alternatives, alternativesFrom_eq hs rfl hk hn]
        exact hrefers.tour_alternatives (hb (by omega)).1 (ho (by omega)).2
      | opt e | iter e =>
        rw [hk] at hrefers
        obtain ⟨-, hbe, rfl⟩ := hrefers
        have h := (hb (n := fuel) (by omega)).1
        rw [hbe] at h
        simpa [nodes] using h
      | _ =>
        rw [hk] at hrefers
        obtain ⟨-, rfl, rfl⟩ := hrefers
        rfl
    · rintro ⟨rfl, e, d, hk⟩
      rw [hk] at hrefers
      rw [hrefers.tour_alternatives (hb (by omega)).1 (ho (by omega)).2]
      simp [entry, nodes]

end Shape

namespace Table

variable {t u : Table} {a : SymbolId} {fuel : Nat} {p : Option NodeId}

/-! ### The walks with their trails -/

/-- The walk `conflictsFrom` with its trail. -/
def conflictsTrail (t : Table) (a : SymbolId) : (fuel : Nat) → Option NodeId → Trail Unit
  | 0, _ => return
  | _, none => return
  | fuel + 1, some i => do
    Trail.meet i
    let n := t.node i
    match n.kind with
    | .alt _ _ =>
      let _ ← (t.graph.alternatives i).foldlM (fun (before : IndexSet) b => (do
        let s ← t.expectedUnresolved (some b.1) a
        t.reportOverlap a .severalAlternatives before s
        t.conflictsTrail a fuel (some b.1)
        Trail.stepOver b.2
        return before.union s : Trail IndexSet)) (.empty t.terminalCount)
    | .opt sub | .iter sub =>
      if t.groupDeletable (some sub) then
        Noted.emit (t.conflict a none .deletableContent)
      else
        let r ← t.expectedUnresolved (some sub) a
        let s ← t.expected n.next a
        t.reportOverlap a .deletableAndSuccessor r s
      t.conflictsTrail a fuel (some sub)
    | .any set => if set.isEmpty then Noted.emit (t.conflict a none .emptyWildcard)
    | _ => pure ()
    if n.up then return else t.conflictsTrail a fuel n.next

/-- The walk `resolversFrom` with its trail. -/
def resolversTrail (t : Table) (a : SymbolId) :
    (fuel : Nat) → (atChoice : Bool) → Option NodeId → Trail Unit
  | 0, _, _ => return
  | _, _, none => return
  | fuel + 1, atChoice, some i => do
    Trail.meet i
    let n := t.node i
    match n.kind with
    | .alt _ _ =>
      let all ← (t.graph.alternatives i).foldlM (fun (r : IndexSet) b => do
        let s ← t.expectedUnresolved (some b.1) a
        return r.union s) (.empty t.terminalCount)
      let _ ← (t.graph.alternatives i).foldlM (fun (before : IndexSet) b => (do
        let before ← t.checkAlternative a all before b.1
        t.resolversTrail a fuel true (some b.1)
        Trail.stepOver b.2
        return before : Trail IndexSet)) (.empty t.terminalCount)
    | .iter sub | .opt sub =>
      t.checkContent a sub n.next
      t.resolversTrail a fuel true (some sub)
    | .resolver =>
      if !atChoice then Noted.error .resolverWithoutAlternative (some n.location)
    | _ => pure ()
    if n.up then return else t.resolversTrail a fuel false n.next

/-- The walk `restrictFrom` with its trail. -/
def restrictTrail : (fuel : Nat) → Table → Option NodeId → Trail Table
  | 0, t, _ => return t
  | _, t, none => return t
  | fuel + 1, t, some i => do
    Trail.meet i
    let n := t.node i
    let t ← (match n.kind with
      | .opt sub | .iter sub => do
        let t ← restrictTrail fuel t (some sub)
        t.restrictLeading (some sub) n.next
      | .alt _ _ => do
        let r ← (t.graph.alternatives i).foldlM (fun (r : Table × IndexSet) b => (do
          let t ← restrictTrail fuel r.1 (some b.1)
          let r ← t.restrictAlternative r.2 b.1 b.2
          Trail.stepOver b.2
          return r : Trail (Table × IndexSet))) (t, .empty t.terminalCount)
        return r.1
      | _ => return t : Trail Table)
    let t ← if t.nodeDeletable i then t.restrictLeading n.next (t.content i) else pure t
    if n.up then return t else restrictTrail fuel t n.next

/-- The walk `reachFrom` with the part of its trail that lies in the production where it starts. -/
def reachTrail (t : Table) : (fuel : Nat) → Option NodeId → IndexSet → Trail IndexSet
  | 0, _, m => return m
  | _, none, m => return m
  | fuel + 1, some i, m => do
    Trail.meet i
    let n := t.node i
    let m ← match n.kind with
      | .nonterminal a =>
        let a := t.symbol a
        pure (if m.get a.index then m else t.reachFrom fuel a.root (m.insert a.index))
      | .alt sub down => do
        let m ← t.reachTrail fuel (some sub) m
        t.reachTrail fuel down m
      | .iter sub | .opt sub => t.reachTrail fuel (some sub) m
      | _ => pure m
    if n.up then return m else t.reachTrail fuel n.next m

/-! A trail does not change the result. -/

theorem result_conflictsTrail (t : Table) (a : SymbolId) (fuel : Nat) (p : Option NodeId) :
    (t.conflictsTrail a fuel p).result = t.conflictsFrom a fuel p := by
  have := Noted.lawfulMonad
  induction fuel generalizing p with
  | zero => rfl
  | succ fuel ih =>
    cases p with
    | none => rfl
    | some i =>
      simp only [conflictsTrail, conflictsFrom]
      cases (t.node i).kind <;> simp [Trail.result_foldlM, ih]

theorem result_resolversTrail (t : Table) (a : SymbolId) (fuel : Nat) (atChoice : Bool)
    (p : Option NodeId) :
    (t.resolversTrail a fuel atChoice p).result = t.resolversFrom a fuel atChoice p := by
  have := Noted.lawfulMonad
  induction fuel generalizing atChoice p with
  | zero => rfl
  | succ fuel ih =>
    cases p with
    | none => rfl
    | some i =>
      simp only [resolversTrail, resolversFrom]
      cases (t.node i).kind <;> simp [Trail.result_foldlM, List.foldlM_map, ih]

theorem result_restrictTrail (fuel : Nat) (t : Table) (p : Option NodeId) :
    (restrictTrail fuel t p).result = restrictFrom fuel t p := by
  have := Noted.lawfulMonad
  induction fuel generalizing t p with
  | zero => rfl
  | succ fuel ih =>
    cases p with
    | none => rfl
    | some i =>
      simp only [restrictTrail, restrictFrom]
      cases (t.node i).kind <;> simp [Trail.result_foldlM, ih]

theorem result_reachTrail (t : Table) (fuel : Nat) (p : Option NodeId) (m : IndexSet) :
    (t.reachTrail fuel p m).result = pure (t.reachFrom fuel p m) := by
  have := Noted.lawfulMonad
  induction fuel generalizing p m with
  | zero => rfl
  | succ fuel ih =>
    cases p with
    | none => rfl
    | some i =>
      simp only [reachTrail, reachFrom]
      cases (t.node i).up <;> cases (t.node i).kind <;> simp [ih]

/-! The walks make the tour. -/

theorem tour_some (t : Table) (fuel : Nat) (i : NodeId) : t.graph.tour (fuel + 1) (some i) =
    i :: ((match (t.node i).kind with
      | .alt _ _ =>
        (t.graph.alternatives i).flatMap fun b => t.graph.tour fuel (some b.1) ++ b.2.toList
      | .opt sub | .iter sub => t.graph.tour fuel (some sub)
      | _ => []) ++ if (t.node i).up then [] else t.graph.tour fuel (t.node i).next) := rfl

theorem met_conflictsTrail (t : Table) (a : SymbolId) (fuel : Nat) (p : Option NodeId) :
    (t.conflictsTrail a fuel p).met = t.graph.tour fuel p := by
  induction fuel generalizing p with
  | zero => rfl
  | succ fuel ih =>
    cases p with
    | none => rfl
    | some i =>
      rw [tour_some]
      simp only [conflictsTrail]
      cases (t.node i).kind <;>
        simp [ih, Trail.met_foldlM (N := fun b : NodeId × Option NodeId =>
          t.graph.tour fuel (some b.1) ++ b.2.toList)]

theorem met_resolversTrail (t : Table) (a : SymbolId) (fuel : Nat) (atChoice : Bool)
    (p : Option NodeId) :
    (t.resolversTrail a fuel atChoice p).met = t.graph.tour fuel p := by
  induction fuel generalizing atChoice p with
  | zero => rfl
  | succ fuel ih =>
    cases p with
    | none => rfl
    | some i =>
      rw [tour_some]
      simp only [resolversTrail]
      -- no content is entered to find what all alternatives expect
      cases (t.node i).kind <;>
        simp [ih, Trail.met_foldlM (N := fun _ : NodeId × Option NodeId => []),
          Trail.met_foldlM (N := fun b : NodeId × Option NodeId =>
            t.graph.tour fuel (some b.1) ++ b.2.toList)]

theorem met_restrictTrail (fuel : Nat) (t : Table) (p : Option NodeId) :
    (restrictTrail fuel t p).met = t.graph.tour fuel p := by
  induction fuel generalizing t p with
  | zero => rfl
  | succ fuel ih =>
    cases p with
    | none => rfl
    | some i =>
      -- the table changes on the way, and the tour stays the same
      have hfrom (u : Table) (q : Option NodeId) : Redrawn u (restrictFrom fuel u q).value :=
        restrictFrom_induct .refl (fun _ _ _ => .trans) redrawn_restrict fuel u q
      have hleading (u : Table) (q q' : Option NodeId) : Redrawn u (u.restrictLeading q q').value :=
        restrictLeading_induct .refl redrawn_restrict u q q'
      rw [tour_some]
      simp only [restrictTrail]
      cases (t.node i).kind with
      | alt sub down =>
        simp only [Trail.met_bind]
        generalize hx : List.foldlM (m := Trail) _ _ _ = x
        have h : x.met = (t.graph.alternatives i).flatMap
            (fun b => t.graph.tour fuel (some b.1) ++ b.2.toList) ∧
              t.Redrawn x.result.value.1 := by
          rw [← hx]
          refine Trail.met_foldlM_of_inv (P := fun r : Table × IndexSet => t.Redrawn r.1)
            (fun r hr b _ => ⟨?_, ?_⟩) (.refl t)
          · simp [ih, hr.graph.tour]
          · simpa [result_restrictTrail] using (hr.trans (hfrom r.1 (some b.1))).trans
              (restrictAlternative_induct .refl redrawn_restrict ..)
        simp [h.1, h.2.graph.tour, (hleading ..).graph.tour, ih]
      | _ =>
        simp [result_restrictTrail, (hfrom ..).graph.tour, (hleading ..).graph.tour, ih]

/-- Within one production, the walk for reachable nonterminals passes the nodes of the tree as
well; it comes to further alternatives by itself. -/
theorem met_reachTrail {s : Shape} {q : Option NodeId} {up : Bool}
    (hs : s.Fits t.graph (· = q) up) (hq : up = false → q = none) (hf : s.nodes.length < fuel)
    (m : IndexSet) : (t.reachTrail fuel s.entry m).met = s.nodes := by
  induction s generalizing q up fuel m with
  | nil => cases fuel <;> rfl
  | node i l b o r ihb iho ihr =>
    obtain ⟨hrefers, hl, -, -, hr⟩ := id hs
    simp only [Shape.nodes, List.length_cons, List.length_append] at hf
    obtain ⟨fuel, rfl⟩ : ∃ n, fuel = n + 1 := ⟨fuel - 1, by omega⟩
    have hb := ihb hs.body (by simp) (show _ < fuel by omega)
    have ho := iho hs.others (by simp) (show _ < fuel by omega)
    have hbehind (m : IndexSet) : (if (t.node i).up then pure m
        else t.reachTrail fuel (t.node i).next m : Trail IndexSet).met = r.nodes :=
      (Trail.met_ite ..).trans <| hl.passed hq (W := fun p => (t.reachTrail fuel p m).met)
        (by cases fuel <;> rfl) (ihr hr hq (by omega) m)
    rw [Shape.entry, reachTrail, Shape.nodes]
    dsimp only
    cases hk : (t.node i).kind with
    | alt e d =>
      rw [show t.graph.kind i = _ from hk] at hrefers
      obtain ⟨-, hbe, rfl, -⟩ := hrefers
      simp only [Trail.met_bind, Trail.met_meet, ← hbe, hb, ho, hbehind, List.singleton_append]
    | opt e | iter e =>
      rw [show t.graph.kind i = _ from hk] at hrefers
      obtain ⟨-, hbe, rfl⟩ := hrefers
      simp only [Trail.met_bind, Trail.met_meet, ← hbe, hb, hbehind, List.singleton_append,
        Shape.nodes, List.nil_append]
    | _ =>
      rw [show t.graph.kind i = _ from hk] at hrefers
      obtain ⟨-, rfl, rfl⟩ := hrefers
      simp only [Trail.met_bind, Trail.met_meet, Trail.met_pure, hbehind, List.singleton_append,
        Shape.nodes, List.nil_append]

end Table

end Lookahead
