import Lookahead.Proofs.Depth
import Lookahead.Proofs.Productions

/-!
# Building comes to an end

The operations that put pieces together follow the lists of their exits and of their alternatives,
and marking a context walks through a piece. All of them come to an end on an open piece
(`Open.redirect?_eq`, `Open.alternative?_eq`, `Open.markContext?_eq`).
-/

namespace Lookahead

namespace Graph

variable {bounds : Bounds} {g h k : Graph} {step : NodeId → Option NodeId} {p q : Option NodeId}
  {i : NodeId} {L N : List NodeId} {n : Nat} {a b : Piece} {s x : Shape} {target : Option NodeId}

/-! ### Lists of exits and of alternatives -/

theorem redirect?_eq (hc : Chain g.next p L) (hd : L.Nodup) (hl : ∀ i ∈ L, i < g.size)
    (hf : L.length < n) : redirect? bounds target g p = some (redirect target n g p) := by
  induction L generalizing g p n with
  | nil =>
    rw [show p = none from hc, redirect?]
    cases n <;> rfl
  | cons i L ih =>
    obtain ⟨rfl, hc⟩ := hc
    obtain ⟨n, rfl⟩ : ∃ k, n = k + 1 := ⟨n - 1, by omega⟩
    rw [List.nodup_cons] at hd
    have hi := hl i List.mem_cons_self
    rw [redirect?, redirect, node?_eq hi, some_bind, setNext?_eq hi, some_bind]
    refine ih (hc.congr fun j hj => ?_) hd.2 (fun j hj => ?_) (Nat.lt_of_succ_lt_succ hf)
    · rw [next_setNext, if_neg]
      rintro ⟨rfl, -⟩
      exact hd.1 hj
    · rw [size_setNext]
      exact hl j (List.mem_cons_of_mem _ hj)

theorem follow?_eq {f : NodeId → Option (Option NodeId)} (hc : Chain step (some i) L)
    (hs : ∀ j ∈ L, f j = some (step j)) (hf : L.length ≤ n + 1) :
    follow? f i = some (follow step n i) := by
  induction L generalizing i n with
  | nil => cases hc
  | cons j L ih =>
    obtain ⟨hi, hc⟩ := hc
    cases hi
    rw [follow?, hs _ List.mem_cons_self, some_bind]
    cases hj : step j with
    | none => cases n <;> simp [follow, hj]
    | some q =>
      rw [hj] at hc
      obtain ⟨n, rfl⟩ : ∃ k, n = k + 1 := by
        cases L with
        | nil => cases hc
        | cons => exact ⟨n - 1, by simp at hf; omega⟩
      rw [follow, hj]
      exact ih hc (fun k hk => hs k (List.mem_cons_of_mem _ hk)) (by simpa using hf)

theorem Open.redirect?_eq (hp : Open g a s) :
    redirect? bounds target g (some a.exits) = some (g.redirectExits a.exits target) := by
  have := length_le_of_nodup hp.exits_nodup hp.exits_lt
  exact Graph.redirect?_eq hp.chain hp.exits_nodup hp.exits_lt (by omega)

theorem Open.finish?_eq (hp : Open g a s) : g.finish? bounds a = some (g.finish a) :=
  hp.redirect?_eq

theorem Open.sequence?_eq (hp : Open g a s) (b : Piece) :
    g.sequence? bounds a b = some (g.sequence a b) := by
  rw [sequence?, hp.redirect?_eq]
  rfl

theorem Open.entry_lt (hp : Open g a s) : a.entry < g.size :=
  hp.lt _ (Shape.mem_nodes_of_entry hp.entry)

theorem Open.exit_lt (hp : Open g a s) : a.exits < g.size :=
  hp.lt _ hp.exits_mem

theorem Open.firstAlternative?_eq (hp : Open g a s) :
    g.firstAlternative? bounds a = some (g.firstAlternative a) := by
  rw [firstAlternative?, node?_eq hp.entry_lt, some_bind]
  simp only [snd_add]
  rw [setUp?_eq, some_bind, setNext?_eq]
  · rfl
  · simp
  · exact hp.exit_lt.trans (by simp)

theorem Open.option?_eq (hp : Open g a s) : g.option? bounds a = some (g.option a) := by
  rw [option?, node?_eq hp.entry_lt, some_bind]
  simp only [snd_add]
  rw [setUp?_eq, some_bind, setNext?_eq]
  · rfl
  · simp
  · exact hp.exit_lt.trans (by simp)

theorem Open.iteration?_eq (hp : Open g a s) : g.iteration? bounds a = some (g.iteration a) := by
  have hc : Chain (((g.add (.iter a.entry) (g.node a.entry).line).1.setUp a.exits).next)
      (some a.exits) s.exits := hp.chain.congr fun i _ => by simp
  have hlen := length_le_of_nodup hp.exits_nodup hp.exits_lt
  rw [iteration?, node?_eq hp.entry_lt, some_bind]
  simp only [snd_add]
  rw [setUp?_eq, some_bind, Graph.redirect?_eq (n := 2 * (g.size + 1) + 1) hc hp.exits_nodup]
  · simp [Graph.iteration, redirectExits]
  · exact fun i hi => (hp.exits_lt i hi).trans (by simp)
  · exact Nat.lt_succ_of_le (hlen.trans (by omega))
  · exact hp.exit_lt.trans (by simp)

theorem Open.alternative?_eq (ha : Open g a s) (hs : s.IsOther g) (hbe : b.entry < g.size)
    (hbx : b.exits < g.size) : g.alternative? bounds a b = some (g.alternative a b) := by
  obtain ⟨g₁, hg⟩ : ∃ g₁, (g.add (.alt b.entry none) (g.node b.entry).line).1 = g₁ := ⟨_, rfl⟩
  have hsize : g₁.size = g.size + 1 := by rw [← hg, size_add]
  have ha₁ : Open g₁ a s := ha.congr (by omega) fun i hi => by
    rw [← hg, node_add, if_neg (ha.lt i hi).ne]
  have hs₁ : s.IsOther g₁ := hs.congr fun i hi => by
    rw [← hg, kind_add, if_neg (ha.lt i hi).ne]
  obtain ⟨g₂, hg₂⟩ : ∃ g₂, (g₁.setUp g.size).setUp b.exits = g₂ := ⟨_, rfl⟩
  have hsize₂ : g₂.size = g₁.size := by rw [← hg₂, size_setUp, size_setUp]
  have hkind : ∀ i, g₂.kind i = g₁.kind i := fun i => by rw [← hg₂, kind_setUp, kind_setUp]
  -- the last of the alternatives so far
  have hheads := ha₁.fits.chain_heads hs₁
  rw [ha.entry] at hheads
  have hlen := length_le_of_nodup (ha.nodup.sublist s.heads_sublist) ha₁.heads_lt
  have hne : s.heads ≠ [] := Shape.heads_ne_nil ha.ne_nil
  have hdown := follow?_eq (n := g₁.size) (f := fun j => do
    return (← g₂.node? bounds j).kind.down?) hheads (fun j hj => by
      rw [node?_eq (hsize₂ ▸ ha₁.heads_lt j hj)]
      exact congrArg (fun k : NodeKind => some k.down?) (hkind j)) (by omega)
  have hlast : follow (fun j => (g₁.kind j).down?) g₁.size a.entry = s.heads.getLast hne :=
    follow_eq_getLast hheads (by omega) hne
  obtain ⟨sub, d, hk⟩ := ha₁.fits.kind_of_mem_heads hs₁ _ (List.getLast_mem hne)
  have hl : s.heads.getLast hne < g₂.size := hsize₂ ▸ ha₁.heads_lt _ (List.getLast_mem hne)
  rw [← hlast] at hk hl
  generalize hle : follow (fun j => (g₁.kind j).down?) g₁.size a.entry = l at hdown hk hl
  -- the last of the exits, which neither the marks nor the link to the new alternative change
  obtain ⟨g₃, hg₃⟩ : ∃ g₃, g₂.setKind l (.alt sub (some g.size)) = g₃ := ⟨_, rfl⟩
  have hsize₃ : g₃.size = g₁.size := by rw [← hg₃, size_setKind, hsize₂]
  have hlinks : g₃.next = g₁.next := funext fun i => by rw [← hg₃, ← hg₂]; simp
  have hxlen := (length_le_of_nodup ha.exits_nodup ha₁.exits_lt).trans g₁.size.le_succ
  have hnext := follow?_eq (n := g₁.size) (f := fun j => do
    return (← g₃.node? bounds j).next) ha₁.chain (fun j hj => by
      rw [node?_eq (hsize₃ ▸ ha₁.exits_lt j hj)]
      exact congrArg some (congrFun hlinks j)) hxlen
  have hend : follow g₁.next g₁.size a.exits < g₃.size := by
    rw [follow_eq_getLast ha₁.chain hxlen ha.exits_ne_nil, hsize₃]
    exact ha₁.exits_lt _ (List.getLast_mem _)
  have hk₂ : (g₂.node l).kind = .alt sub d := (hkind l).trans hk
  rw [alternative?, node?_eq hbe, some_bind]
  simp only [snd_add, hg]
  rw [setUp?_eq (hsize ▸ g.size.lt_succ_self), some_bind,
    setUp?_eq (by rw [size_setUp, hsize]; exact Nat.lt_succ_of_lt hbx), some_bind, hg₂,
    hdown, some_bind, node?_eq hl, some_bind, hk₂]
  dsimp only
  rw [setKind?_eq hl, some_bind, hg₃, hnext, some_bind, setNext?_eq hend, some_bind,
    setNext?_eq (by rw [size_setNext, hsize₃, hsize]; exact g.size.lt_succ_self), some_bind]
  simp only [Graph.alternative, snd_add, hg, hg₂, hkind, hsize₂, hle, hk, hg₃, hlinks, hsize₃]
  rfl

/-! ### Marking a context -/

/-- The graph with all characters marked as context. -/
def allContext (g : Graph) : Graph :=
  ⟨g.nodes.map fun n => { n with kind := n.kind.inContext }⟩

@[simp] theorem size_allContext (g : Graph) : g.allContext.size = g.size :=
  Array.size_map

theorem node_allContext (g : Graph) (i : NodeId) :
    g.allContext.node i = { g.node i with kind := (g.kind i).inContext } := by
  simp only [allContext, kind, node, Array.getD_eq_getD_getElem?, Array.getElem?_map]
  cases g.nodes[i]? <;> rfl

@[simp] theorem kind_allContext (g : Graph) (i : NodeId) :
    g.allContext.kind i = (g.kind i).inContext :=
  congrArg Node.kind (g.node_allContext i)

@[simp] theorem next_allContext (g : Graph) (i : NodeId) : g.allContext.next i = g.next i := by
  rw [next, node_allContext]
  rfl

@[simp] theorem up_allContext (g : Graph) (i : NodeId) :
    (g.allContext.node i).up = (g.node i).up := by
  rw [node_allContext]

@[simp] theorem inContext_inContext (k : NodeKind) : k.inContext.inContext = k.inContext := by
  cases k <;> rfl

theorem allContext_setKind (g : Graph) (i : NodeId) :
    (g.setKind i (g.kind i).inContext).allContext = g.allContext := by
  simp only [allContext, setKind, modify]
  congr 1
  apply Array.ext_getElem?
  intro j
  simp only [Array.getElem?_map, Array.getElem?_modify]
  by_cases hij : i = j
  · subst hij
    cases hn : g.nodes[i]? with
    | none => simp
    | some m =>
      have : g.kind i = m.kind := by simp [kind, node, Array.getD_eq_getD_getElem?, hn]
      simp [this]
  · simp [hij]

@[simp] theorem sub?_inContext (k : NodeKind) : k.inContext.sub? = k.sub? := by
  cases k <;> rfl

@[simp] theorem down?_inContext (k : NodeKind) : k.inContext.down? = k.down? := by
  cases k <;> rfl

theorem inContext_eq_alt {k : NodeKind} {c : NodeId} {d : Option NodeId} :
    k.inContext = .alt c d ↔ k = .alt c d := by
  cases k <;> simp [NodeKind.inContext]

theorem alternatives_allContext (g : Graph) (i : NodeId) :
    g.allContext.alternatives i = g.alternatives i := by
  rw [alternatives, size_allContext, alternatives]
  generalize g.size = n
  induction n generalizing i with
  | zero => rfl
  | succ n ih =>
    simp only [alternativesFrom, ih, kind_allContext]
    cases g.kind i <;> rfl

theorem Calls.of_down (hd : (g.kind i).down? = p) : g.Calls i p :=
  hd ▸ .down

theorem calls_allContext : g.allContext.Calls i p ↔ g.Calls i p := by
  constructor
  · rintro (⟨hj⟩ | _ | ⟨hy⟩ | ⟨hu⟩)
    · exact .sub (by simpa using hj)
    · simpa using Calls.down (g := g) (i := i)
    · exact .content (by simpa [alternatives_allContext] using hy)
    · simpa using Calls.next (g := g) (i := i) (by simpa using hu)
  · rintro (⟨hj⟩ | _ | ⟨hy⟩ | ⟨hu⟩)
    · exact .sub (by simpa using hj)
    · simpa using Calls.down (g := g.allContext) (i := i)
    · exact .content (by simpa [alternatives_allContext] using hy)
    · simpa using Calls.next (g := g.allContext) (i := i) (by simpa using hu)

theorem Shallow.of_allContext (hg : h.allContext = g.allContext) (hp : g.Shallow n p) :
    h.Shallow n p :=
  hp.of_calls (by rw [← size_allContext, hg, size_allContext]) fun i q hq => by
    rwa [← calls_allContext, ← hg, calls_allContext]

theorem isOther_allContext : s.IsOther g.allContext ↔ s.IsOther g := by
  cases s with
  | nil => exact Iff.rfl
  | node j l b o r => simp only [Shape.IsOther, kind_allContext, inContext_eq_alt]

theorem refers_allContext {l : NodeKind} {loop : Bool} :
    Shape.Refers g.allContext l.inContext loop s x ↔ Shape.Refers g l loop s x := by
  cases l with
  | alt c d => exact and_congr_right' (and_congr_right' (and_congr_right' isOther_allContext))
  | _ => exact Iff.rfl

/-- Whether a tree fits does not depend on what is marked as context. -/
theorem fits_allContext {E : Option NodeId → Prop} {up : Bool} :
    s.Fits g.allContext E up ↔ s.Fits g E up := by
  induction s generalizing E up with
  | nil => exact Iff.rfl
  | node i l b o r ihb iho ihr =>
    have hlead : Shape.Leads g.allContext E up i r ↔ Shape.Leads g E up i r :=
      ⟨fun ⟨hn, hu⟩ => ⟨by simpa using hn, by simpa using hu⟩,
        fun ⟨hn, hu⟩ => ⟨by simpa using hn, by simpa using hu⟩⟩
    simp only [Shape.Fits, kind_allContext, refers_allContext, hlead, ihb, iho, ihr]

theorem Open.of_allContext (hg : h.allContext = g.allContext) (hp : Open g a s) : Open h a s where
  fits := by
    rw [← fits_allContext, hg, fits_allContext]
    exact hp.fits
  nodup := hp.nodup
  lt := by
    rw [← size_allContext, hg, size_allContext]
    exact hp.lt
  entry := hp.entry
  chain := by
    have hn : h.next = g.next := funext fun i => by
      rw [← next_allContext, hg, next_allContext]
    rw [hn]
    exact hp.chain

/-- Marking changes nothing but codes. -/
@[simp] theorem allContext_markContextFrom (n : Nat) (g : Graph) (p : Option NodeId) :
    (markContextFrom n g p).allContext = g.allContext :=
  markContextFrom_preserves (P := (·.allContext = g.allContext))
    (fun h i hh => (allContext_setKind h i).trans hh) n rfl p

@[simp] theorem allContext_markInside (n : Nat) (g : Graph) (i : NodeId) :
    (g.markInside n i).allContext = g.allContext :=
  markInside_preserves (P := (·.allContext = g.allContext))
    (fun h i hh => (allContext_setKind h i).trans hh)
    (fun hh p => (allContext_markContextFrom n _ p).trans hh) rfl i

@[simp] theorem allContext_markContext (g : Graph) (p : Option NodeId) :
    (g.markContext p).allContext = g.allContext :=
  allContext_markContextFrom ..

@[simp] theorem size_markContext (g : Graph) (p : Option NodeId) :
    (g.markContext p).size = g.size := by
  rw [← size_allContext, allContext_markContext, size_allContext]

theorem markContext?_eq_from (hp : g.Shallow n p) :
    markContext? bounds g p = some (markContextFrom n g p) := by
  induction n generalizing g p with
  | zero => exact hp.elim
  | succ n ih =>
    cases p with
    | none =>
      rw [markContext?]
      rfl
    | some i =>
      -- the same from a graph in which some of the characters are marked already
      have step {h : Graph} {q : Option NodeId} (hg : h.allContext = g.allContext)
          (hq : g.Calls i q) : markContext? bounds h q = some (markContextFrom n h q) :=
        ih ((hp.of_call hq).of_allContext hg)
      have rest : (if (g.node i).up then some (g.markInside n i)
            else markContext? bounds (g.markInside n i) (g.node i).next) =
          some (markContextFrom (n + 1) g (some i)) := by
        rw [markContextFrom_some]
        cases hu : (g.node i).up with
        | true => rfl
        | false => exact step (allContext_markInside n g i) (.next hu)
      rw [← rest, markContext?, node?_eq hp.lt, some_bind, markInside,
        show (g.node i).kind = g.kind i from rfl]
      cases hk : g.kind i with
      | alt c d =>
        have hc := step rfl (.sub (congrArg NodeKind.sub? hk))
        have hd := step (q := d) (allContext_markContextFrom n g (some c))
          (.of_down (congrArg NodeKind.down? hk))
        simp only [hc, hd, Option.bind_eq_bind, Option.bind_some]
        rfl
      | iter c | opt c =>
        have hc := step rfl (.sub (congrArg NodeKind.sub? hk))
        simp only [hc, Option.bind_eq_bind, Option.bind_some]
        rfl
      | _ =>
        dsimp only
        rw [setKind?_eq hp.lt]
        rfl

/-- Marking walks from `p` through nodes of `N` and leaves the others alone. -/
theorem node_markContextFrom (hN : ∀ i ∈ N, ∀ q, g.Calls i q → ∀ j ∈ q, j ∈ N)
    (hm : ∀ i ∈ p, i ∈ N) {j : NodeId} (hj : j ∉ N) :
    (markContextFrom n g p).node j = g.node j := by
  induction n generalizing g p with
  | zero => rfl
  | succ n ih =>
    cases p with
    | none => rfl
    | some i =>
      have hi := hm i rfl
      have step {h : Graph} {q : Option NodeId} (hg : h.allContext = g.allContext)
          (hh : h.node j = g.node j) (hq : g.Calls i q) :
          (markContextFrom n h q).node j = g.node j := by
        rw [ih (g := h) (fun k hk r hr => hN k hk r ?_) (hN i hi q hq), hh]
        rwa [← calls_allContext, ← hg, calls_allContext]
      have hin : (g.markInside n i).node j = g.node j := by
        unfold markInside
        cases hk : g.kind i with
        | alt c d =>
          have hc := step rfl rfl (.sub (congrArg NodeKind.sub? hk))
          exact step (allContext_markContextFrom n g (some c)) hc
            (.of_down (congrArg NodeKind.down? hk))
        | iter c | opt c => exact step rfl rfl (.sub (congrArg NodeKind.sub? hk))
        | _ =>
          dsimp only
          rw [node_setKind, if_neg]
          rintro ⟨rfl, -⟩
          exact hj hi
      rw [markContextFrom_some]
      cases hu : (g.node i).up with
      | true => exact hin
      | false => exact step (allContext_markInside n g i) hin (.next hu)

end Graph

namespace Shape

variable {g : Graph} {E : Option NodeId → Prop} {up : Bool} {s : Shape} {i : NodeId}

/-- A walk through a tree stays in it. -/
theorem Fits.mem_of_calls (hs : s.Fits g E up)
    (hq : up = false → ∀ i, s.last = some i → ∀ j ∈ g.next i, j ∈ s.exits.tail) :
    ∀ i ∈ s.nodes, ∀ p, g.Calls i p → ∀ j ∈ p, j ∈ s.nodes := by
  induction s generalizing E up with
  | nil => simp [nodes]
  | node i l b o r ihb iho ihr =>
    obtain ⟨hf, hl, hb, ho, hr⟩ := hs
    have hbody := ihb hb (by simp)
    have hothers := iho ho (by simp)
    have hbn : ∀ j ∈ b.nodes, j ∈ (node i l b o r).nodes := fun j hj => by simp [nodes, hj]
    have hon : ∀ j ∈ o.nodes, j ∈ (node i l b o r).nodes := fun j hj => by simp [nodes, hj]
    have hrn : ∀ j ∈ r.nodes, j ∈ (node i l b o r).nodes := fun j hj => by simp [nodes, hj]
    intro k hk p hp j hj
    simp only [nodes, List.mem_cons, List.mem_append] at hk
    rcases hk with rfl | hk | hk | hk
    · cases hp with
      | sub hs =>
        cases hj
        exact hbn j (mem_nodes_of_entry (hf.entry_body.trans hs))
      | down => exact hon j (mem_nodes_of_entry (hf.entry_others.trans hj))
      | content hy =>
        cases hj
        rcases Graph.mem_alternatives hy with hs | ⟨q, hd, hy⟩
        · exact hbn _ (mem_nodes_of_entry (hf.entry_body.trans hs))
        · exact hon _ (hothers q (mem_nodes_of_entry (hf.entry_others.trans hd)) _ (.content hy) _
            rfl)
      | next hu =>
        rw [hl.up] at hu
        by_cases hn : r = nil
        · subst hn
          have hx := hq (by simpa [isNil] using hu) k (by simp [last, isNil]) j hj
          exact exits_subset _ j (List.mem_of_mem_tail hx)
        · rw [(hl.of_ne hn).1] at hj
          exact hrn j (mem_nodes_of_entry hj)
    · exact hbn j (hbody k hk p hp j hj)
    · exact hon j (hothers k hk p hp j hj)
    · refine hrn j (ihr hr (fun hu i hi j hj => ?_) k hk p hp j hj)
      have hne : r ≠ nil := by
        rintro rfl
        cases hi
      simpa [exits, hne] using hq hu i (by simpa [last, hne] using hi) j hj

end Shape

namespace Graph

variable {g h : Graph} {a : Piece} {s x : Shape}

/-- The last node of an open piece leads to its second exit, if it has one. -/
theorem Open.next_last (hp : Open g a s) {i : NodeId} (hi : s.last = some i) :
    ∀ j ∈ g.next i, j ∈ s.exits.tail := by
  intro j hj
  have hc := hp.chain
  rw [← s.head_exits] at hi
  cases hx : s.exits with
  | nil => simp [hx] at hi
  | cons k L =>
    rw [hx] at hc hi
    obtain ⟨-, hc⟩ := hc
    cases hi
    rw [Option.mem_def.mp hj] at hc
    cases L with
    | nil => cases hc
    | cons m L =>
      cases hc.1
      exact List.mem_cons_self

theorem Open.shallow (hp : Open g a s) : g.Shallow (g.size + 1) (some a.entry) := by
  have hs := hp.fits.shallow hp.lt fun _ i hi => hp.next_last hi
  rw [hp.entry] at hs
  exact hs.mono (Nat.succ_le_succ (length_le_of_nodup hp.nodup hp.lt))

theorem Open.markContext?_eq (hp : Open g a s) :
    g.markContext? bounds (some a.entry) = some (g.markContext (some a.entry)) :=
  markContext?_eq_from hp.shallow

/-- Marking a piece as context changes no node outside of it. -/
theorem Open.node_markContext_of_not_mem (hp : Open g a s) {i : NodeId} (hi : i ∉ s.nodes) :
    (g.markContext (some a.entry)).node i = g.node i := by
  refine node_markContextFrom (hp.fits.mem_of_calls fun _ i hi => hp.next_last hi) ?_ hi
  rintro i ⟨⟩
  exact Shape.mem_nodes_of_entry hp.entry

end Graph

end Lookahead
