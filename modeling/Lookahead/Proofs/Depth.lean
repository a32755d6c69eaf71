import Lookahead.Proofs.Unbounded
import Lookahead.Proofs.Walks

/-!
# How deep walks go

A walk through a group goes from a node into its content, to the alternatives behind it and, unless
the node is marked `up`, to its successor (`Graph.Calls`). The links of an iteration's content lead
back to the iteration, but only past such a mark, so that what a walk can meet is a tree. Its height
is at most the number of nodes (`Shape.Fits.shallow`), which bounds the walks from every node of a
closed production (`Graph.Closed.shallow`); a walk along `next` alone meets no node twice. All the
nodes it meets are there.
-/

namespace Lookahead

namespace Graph

/-- Where a walk through a group goes from a node. -/
inductive Calls (g : Graph) (i : NodeId) : Option NodeId → Prop
  | sub {j} (h : (g.kind i).sub? = some j) : Calls g i (some j)
  | down : Calls g i (g.kind i).down?
  | content {y} (h : y ∈ g.alternatives i) : Calls g i (some y.1)
  | next (h : (g.node i).up = false) : Calls g i (g.next i)

/-- A walk from `p` that goes where `Calls` says is at most `n` calls deep, and the nodes that it
meets are there. -/
def Shallow (g : Graph) : (n : Nat) → Option NodeId → Prop
  | 0, _ => False
  | _ + 1, none => True
  | n + 1, some i => i < g.size ∧ ∀ p, g.Calls i p → g.Shallow n p

variable {g h : Graph} {i j : NodeId} {p : Option NodeId} {m n : Nat}

theorem Shallow.mono (hp : g.Shallow m p) (hmn : m ≤ n) : g.Shallow n p := by
  induction m generalizing n p with
  | zero => exact hp.elim
  | succ m ih =>
    obtain ⟨n, rfl⟩ : ∃ k, n = k + 1 := ⟨n - 1, by omega⟩
    cases p with
    | none => trivial
    | some i => exact ⟨hp.1, fun q hq => ih (hp.2 q hq) (by omega)⟩

theorem Shallow.pos (hp : g.Shallow n p) : 0 < n := by
  cases n with
  | zero => exact hp.elim
  | succ n => exact Nat.succ_pos n

theorem Shallow.lt (hi : g.Shallow n (some i)) : i < g.size := by
  cases n with
  | zero => exact hi.elim
  | succ n => exact hi.1

/-- The walk from a node is one call deeper than what it goes to. -/
theorem Shallow.of_call (hi : g.Shallow (n + 1) (some i)) (hp : g.Calls i p) : g.Shallow n p :=
  hi.2 p hp

theorem alternativesFrom_subset (g : Graph) (i : NodeId) (hmn : m ≤ n) :
    g.alternativesFrom m i ⊆ g.alternativesFrom n i := by
  induction m generalizing n i with
  | zero => simp [alternativesFrom]
  | succ m ih =>
    obtain ⟨n, rfl⟩ : ∃ k, n = k + 1 := ⟨n - 1, by omega⟩
    cases hk : g.kind i with
    | alt sub down =>
      cases down with
      | none => simp [alternativesFrom, hk]
      | some q =>
        simp only [alternativesFrom, hk]
        exact List.cons_subset_cons _ (ih q (by omega))
    | _ => simp [alternativesFrom, hk]

/-- The content of an alternative is that of the node, or one behind it. -/
theorem mem_alternatives {y : NodeId × Option NodeId} (hy : y ∈ g.alternatives i) :
    (g.kind i).sub? = some y.1 ∨ ∃ q, (g.kind i).down? = some q ∧ y ∈ g.alternatives q := by
  unfold alternatives at hy ⊢
  cases hn : g.size with
  | zero => simp [hn, alternativesFrom] at hy
  | succ n =>
    rw [hn, alternativesFrom] at hy
    cases hk : g.kind i with
    | alt sub down =>
      cases down with
      | none =>
        simp only [hk, List.mem_singleton] at hy
        exact .inl (by rw [hy]; rfl)
      | some q =>
        simp only [hk, List.mem_cons] at hy
        rcases hy with rfl | hy
        · exact .inl rfl
        · exact .inr ⟨q, rfl, alternativesFrom_subset g q n.le_succ hy⟩
    | _ => simp [hk] at hy

/-- Where a walk goes does not depend on the sets of the nodes. -/
theorem Calls.alike (hg : Alike g h) (hc : h.Calls i p) : g.Calls i p := by
  cases hc with
  | sub hj => exact .sub (hg.sub? i ▸ hj)
  | down => exact hg.down? i ▸ .down
  | content hy => exact .content (hg.alternatives i ▸ hy)
  | next hu => exact hg.next i ▸ .next (hg.up i ▸ hu)

theorem Shallow.of_calls (hs : h.size = g.size) (hc : ∀ i p, h.Calls i p → g.Calls i p)
    (hp : g.Shallow n p) : h.Shallow n p := by
  induction n generalizing p with
  | zero => exact hp
  | succ n ih =>
    cases p with
    | none => trivial
    | some i => exact ⟨hs ▸ hp.lt, fun q hq => ih (hp.of_call (hc i q hq))⟩

theorem Shallow.alike (hg : Alike g h) (hp : g.Shallow n p) : h.Shallow n p :=
  hp.of_calls hg.size fun _ _ => Calls.alike hg

end Graph

namespace Shape

variable {g : Graph} {E : Option NodeId → Prop} {up : Bool} {s : Shape} {i : NodeId}

/-- A walk through a tree is at most as deep as the tree has nodes, if its last node is marked or
leads to nothing but other exits. In a marked tree this holds of walks from the exits, too. -/
theorem Fits.shallow_and_exits (hs : s.Fits g E up) (hlt : ∀ i ∈ s.nodes, i < g.size)
    (hq : up = false → ∀ i, s.last = some i → ∀ j ∈ g.next i, j ∈ s.exits.tail) :
    g.Shallow (s.nodes.length + 1) s.entry ∧
      (up = true → ∀ j ∈ s.exits, g.Shallow (s.nodes.length + 1) (some j)) := by
  induction s generalizing E up with
  | nil => exact ⟨trivial, by simp [exits]⟩
  | node i l b o r ihb iho ihr =>
    obtain ⟨hf, hl, hb, ho, hr⟩ := hs
    obtain ⟨hbody, hbx⟩ := ihb hb (fun j hj => hlt j (by simp [nodes, hj])) (by simp)
    obtain ⟨hothers, hox⟩ := iho ho (fun j hj => hlt j (by simp [nodes, hj])) (by simp)
    have hlen : (node i l b o r).nodes.length =
        b.nodes.length + o.nodes.length + r.nodes.length + 1 := by
      simp only [nodes, List.length_cons, List.length_append]
      omega
    rw [hlen]
    -- the exits of the content and of the other alternatives
    have hinner : ∀ j ∈ (if l then [] else b.exits) ++ o.exits,
        g.Shallow (b.nodes.length + o.nodes.length + 1) (some j) := by
      intro j hj
      rcases List.mem_append.mp hj with hj | hj
      · cases l
        · exact (hbx rfl j hj).mono (by omega)
        · simp at hj
      · exact (hox rfl j hj).mono (by omega)
    have hrest : up = true ∨ r ≠ nil → g.Shallow (r.nodes.length + 1) r.entry ∧
        (up = true → ∀ j ∈ r.exits, g.Shallow (r.nodes.length + 1) (some j)) := by
      intro hor
      refine ihr hr (fun j hj => hlt j (by simp [nodes, hj])) fun hu k hk j hj => ?_
      have hne : r ≠ nil := hor.resolve_left (by simp [hu])
      simpa [exits, hne] using hq hu k (by simpa [last, hne] using hk) j hj
    have hnode : g.Shallow (b.nodes.length + o.nodes.length + r.nodes.length + 1 + 1) (some i) := by
      refine ⟨hlt i (by simp [nodes]), ?_⟩
      rintro p (⟨hj⟩ | _ | ⟨hy⟩ | ⟨hup⟩)
      · rw [← hj, ← hf.entry_body]
        exact hbody.mono (by omega)
      · rw [← hf.entry_others]
        exact hothers.mono (by omega)
      · rcases Graph.mem_alternatives hy with hj | ⟨q, hd, hy⟩
        · rw [← hj, ← hf.entry_body]
          exact hbody.mono (by omega)
        · rw [hf.entry_others, hd] at hothers
          exact (hothers.of_call (.content hy)).mono (by omega)
      · rw [hl.up] at hup
        by_cases hn : r = nil
        · subst hn
          cases hj : g.next i with
          | none => trivial
          | some j =>
            have hmem := hq (by simpa [isNil] using hup) i (by simp [last, isNil]) j hj
            exact (hinner j (by simpa [exits, isNil] using hmem)).mono (by omega)
        · rw [(hl.of_ne hn).1]
          exact (hrest (.inr hn)).1.mono (by omega)
    refine ⟨hnode, fun hu j hj => ?_⟩
    simp only [exits] at hj
    split at hj
    · rcases List.mem_cons.mp hj with rfl | hj
      · exact hnode
      · exact (hinner j hj).mono (by omega)
    · exact ((hrest (.inl hu)).2 hu j hj).mono (by omega)

theorem Fits.shallow (hs : s.Fits g E up) (hlt : ∀ i ∈ s.nodes, i < g.size)
    (hq : up = false → ∀ i, s.last = some i → ∀ j ∈ g.next i, j ∈ s.exits.tail) :
    g.Shallow (s.nodes.length + 1) s.entry :=
  (hs.shallow_and_exits hlt hq).1

end Shape

namespace Graph

variable {g : Graph} {r i : NodeId} {s : Shape} {p : Option NodeId}

/-- No walk from a node of a production is deeper than the graph is large. -/
theorem Closed.shallow (hs : Closed g r s) (hi : i ∈ s.nodes) :
    g.Shallow (g.size + 1) (some i) := by
  obtain ⟨l, b, o, x, q, vp, hf, hsub, hv⟩ := hs.fits.exists_node hi
  have hend : vp = false → ∀ k, (Shape.node i l b o x).last = some k →
      ∀ j ∈ g.next k, j ∈ (Shape.node i l b o x).exits.tail := fun h k hk j hj => by
    rw [hf.next_of_mem_exits k (Shape.mem_exits_of_last hk), (hv h).1] at hj
    cases hj
  refine (hf.shallow (fun j hj => hs.lt j (hsub.subset hj)) hend).mono ?_
  exact Nat.succ_le_succ (length_le_of_nodup (hs.nodup.sublist hsub)
    fun j hj => hs.lt j (hsub.subset hj))

/-! ### Walks that `up` bounds -/

section

variable {bounds : Bounds} {deletable : SymbolId → Bool} {deletable? : SymbolId → Option Bool}
  {m n : Nat}
  (hd : ∀ i a, g.kind i = .nonterminal a → deletable? a = some (deletable a))
include hd

theorem groupDeletable?_eq_from (hp : g.Shallow n p) :
    g.groupDeletable? bounds deletable? p = some (g.groupDeletableFrom deletable n p) := by
  induction n generalizing p with
  | zero => exact hp.elim
  | succ n ih =>
    cases p with
    | none =>
      rw [groupDeletable?]
      rfl
    | some i =>
      have hsub {j} (hj : (g.kind i).sub? = some j) := ih (hp.of_call (.sub hj))
      have hdown := ih (hp.of_call .down)
      have hnext (hu : (g.node i).up = false) := ih (hp.of_call (.next hu))
      rw [groupDeletable?, groupDeletableFrom, node?_eq hp.lt, some_bind]
      have hrest (here : Bool) : (do
            let here ← some here
            if here then (if (g.node i).up then some true
              else g.groupDeletable? bounds deletable? (g.node i).next) else some false) =
          some (here && ((g.node i).up || g.groupDeletableFrom deletable n (g.node i).next)) := by
        cases here with
        | false => rfl
        | true =>
          cases hu : (g.node i).up with
          | true => rfl
          | false => exact hnext hu
      cases hk : (g.node i).kind with
      | nonterminal a =>
        dsimp only
        rw [hd i a hk]
        exact hrest _
      | alt sub down =>
        have hs := hsub (congrArg NodeKind.sub? hk)
        have hd : (g.kind i).down? = down := congrArg NodeKind.down? hk
        rw [hd] at hdown
        dsimp only
        rw [hs, hdown]
        cases g.groupDeletableFrom deletable n (some sub) with
        | true => exact hrest true
        | false => cases down <;> exact hrest _
      | _ => exact hrest _

theorem groupDeletable?_eq (hp : g.Shallow (g.size + 1) p) :
    g.groupDeletable? bounds deletable? p = some (g.groupDeletable deletable p) :=
  groupDeletable?_eq_from hd hp

theorem nodeDeletable?_eq (hi : g.Shallow (g.size + 1) (some i)) :
    g.nodeDeletable? bounds deletable? i = some (g.nodeDeletable deletable i) := by
  have hgroup {q} (hq : g.Calls i q) :
      g.groupDeletable? bounds deletable? q = some (g.groupDeletable deletable q) :=
    groupDeletable?_eq hd ((hi.of_call hq).mono g.size.le_succ)
  rw [nodeDeletable?, nodeDeletable, node?_eq hi.lt, some_bind,
    show (g.node i).kind = g.kind i from rfl]
  cases hk : g.kind i with
  | nonterminal a => exact hd i a hk
  | alt sub down =>
    have hs := hgroup (.sub (congrArg NodeKind.sub? hk))
    have hd := hgroup .down
    rw [hk, NodeKind.down?] at hd
    dsimp only
    rw [hs, hd]
    cases g.groupDeletable deletable (some sub) <;> cases down <;> rfl
  | _ => rfl

/-! ### Walks along `next` -/

theorem restDeletable?_eq_from {L : List NodeId} (hL : Chain g.next p L)
    (hs : ∀ i ∈ L, g.Shallow (g.size + 1) (some i)) (hn : L.length < n) :
    g.restDeletable? bounds deletable? p = some (g.restDeletableFrom deletable n p) := by
  induction L generalizing p n with
  | nil =>
    obtain ⟨n, rfl⟩ : ∃ k, n = k + 1 := ⟨n - 1, by omega⟩
    cases hL
    rw [restDeletable?]
    rfl
  | cons i L ih =>
    obtain ⟨n, rfl⟩ : ∃ k, n = k + 1 := ⟨n - 1, by omega⟩
    obtain ⟨rfl, hL⟩ := hL
    have hi := hs i List.mem_cons_self
    have hrest := ih hL (fun j hj => hs j (List.mem_cons_of_mem _ hj)) (Nat.lt_of_succ_lt_succ hn)
    rw [restDeletable?, restDeletableFrom, nodeDeletable?_eq hd hi, node?_eq hi.lt,
      some_bind, some_bind,
      show (g.node i).next = g.next i from rfl, hrest]
    cases g.nodeDeletable deletable i <;> rfl

theorem Closed.restDeletable?_eq (hs : Closed g r s) (hi : i ∈ s.nodes) :
    g.restDeletable? bounds deletable? (some i) = some (g.restDeletable deletable (some i)) := by
  obtain ⟨L, hL, hn, hm⟩ := hs.exists_chain hi
  refine restDeletable?_eq_from hd hL (fun j hj => hs.shallow (hm j hj)) (Nat.lt_succ_of_le ?_)
  exact length_le_of_nodup hn fun j hj => hs.lt j (hm j hj)

end

/-! ### Alternatives -/

/-- The alternatives of a group are below each other. -/
theorem alternatives?_eq_from {bounds : Bounds} {m n : Nat} (hi : g.Shallow n (some i))
    (hn : n ≤ m + 1) : g.alternatives? bounds (some i) = some (g.alternativesFrom m i) := by
  induction n generalizing i m with
  | zero => exact hi.elim
  | succ n ih =>
    rw [alternatives?, node?_eq hi.lt, some_bind,
      show (g.node i).kind = g.kind i from rfl]
    cases hk : g.kind i with
    | alt sub down =>
      have hd := hi.of_call .down
      rw [hk, NodeKind.down?] at hd
      obtain ⟨m, rfl⟩ : ∃ k, m = k + 1 := ⟨m - 1, by have := hd.pos; omega⟩
      rw [alternativesFrom, hk]
      cases down with
      | none => simp [alternatives?]
      | some q => simp [ih hd (Nat.le_of_succ_le_succ hn)]
    | _ => cases m <;> simp [alternativesFrom, hk]

theorem alternatives?_eq {bounds : Bounds} (hi : g.Shallow (g.size + 1) (some i)) :
    g.alternatives? bounds (some i) = some (g.alternatives i) :=
  alternatives?_eq_from hi le_rfl

end Graph

end Lookahead
