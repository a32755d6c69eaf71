import Mathlib
import Lookahead.Proofs.Reordered
import Lookahead.Proofs.Uses
import Lookahead.Proofs.Walks

/-!
# Where productions lie

Productions that are declared without a fault lie behind each other in the graph, each with the
nodes of its own that its right-hand side asks for (`Production.Lies`). What is known of a table in
which a list of productions has been declared is collected in `Table.Declared`; one more production
keeps it (`Table.Declared.declare`), and so do all of them (`Table.declared_productions`).
-/

namespace Lookahead

theorem Expr.mem_nodes_shape {α : Type} {e : Expr α} {n i : Nat} :
    i ∈ (e.shape n).nodes ↔ n ≤ i ∧ i < n + e.size := by
  have hcons {j : Nat} {L : List Nat} : i ∈ j :: L ↔ i = j ∨ i ∈ L := List.mem_cons
  induction e generalizing n with
  | empty | atom a =>
    simp only [shape, size, Shape.nodes, List.append_nil, hcons, List.not_mem_nil, or_false]
    omega
  | seq e f ihe ihf =>
    simp only [shape, size, Shape.nodes_append, List.mem_append, ihe, ihf]
    omega
  | alt e f ihe ihf =>
    simp only [shape, size]
    split
    · rw [(Shape.nodes_addOther _ _).mem_iff]
      simp only [Shape.nodes, List.append_nil, List.mem_append, hcons, ihe, ihf]
      omega
    · simp only [Shape.nodes, List.append_nil, List.mem_append, hcons, ihe, ihf]
      omega
  | group b e ih =>
    cases b <;> simp only [shape, size, Shape.nodes, List.append_nil, hcons, ih] <;> omega

namespace Production

open Table Lookahead.Graph

/-- The production has a graph, whose nodes are numbered from `n` on. -/
structure Lies (t : Table) (p : Production) (n : Nat) : Prop where
  closed : ∃ a r, t.find? p.name.text = some a ∧ (t.symbol a).root = some r ∧
    t.graph.Closed r (p.body.shape n)
  stands : p.body.Stands t n
  le : n + p.body.size ≤ t.graph.size

variable {t : Table} {p : Production}

/-- What a production that is declared without a fault adds to the graph and to its symbol. -/
structure Draws (t u : Table) (p : Production) (a : SymbolId) : Prop where
  find : u.find? p.name.text = some a
  free : (t.symbol a).root = none
  others : ∀ s, s ≠ a → (u.symbol s).root = (t.symbol s).root
  rooted : (u.symbol a).root.isSome = true
  lies : p.Lies u t.graph.size
  size : u.graph.size = t.graph.size + p.body.size
  node : ∀ i < t.graph.size, u.graph.node i = t.graph.node i

theorem draws (ht : Grown t) (hp : p.Worded) (h : (p.declare t).reports = []) :
    ∃ a, Draws t (p.declare t).value p a := by
  obtain ⟨hopens, hbody⟩ := reports_declare_eq_nil.mp h
  have hin := enters ht.registered hp hopens
  have hu := ht.of_continues hin.continues hin.graph
  obtain ⟨hs, -⟩ := p.body.makes_build hu.registered hu.allows
  obtain ⟨hk, hst⟩ := p.body.stands_build hu.registered hu.allows hp.body
  have hsize := Expr.size_of_makes hs
  obtain ⟨haug, -⟩ := Expr.augments_build p.body hu.registered hp.body hbody
  rw [value_declare]
  generalize (p.body.build Atom.build (enter t p).1).value = q at hs hk hst hsize haug
  generalize (enter t p).2 = a at hin
  have hq := hs.continues.registered hu.registered
  have hclose := augments_close a q
  have hfind := hclose.find _ _ (haug.find _ _ hin.find)
  have hlt : a < q.1.symbols.size := hq.lt_of_find (haug.find _ _ hin.find)
  have hroot (s : SymbolId) : ((close a q).symbol s).root =
      if s = a then some q.2.entry else (t.symbol s).root := by
    have hs' : ((close a q).symbol s).root = (if a = s ∧ s < q.1.symbols.size then
        { q.1.symbol s with root := some q.2.entry } else q.1.symbol s).root :=
      congrArg Symbol.root (symbol_modifySymbol ..)
    rw [hs']
    by_cases hsa : s = a
    · subst hsa
      rw [if_pos ⟨rfl, hlt⟩, if_pos rfl]
    · rw [if_neg fun h => hsa h.1.symm, if_neg hsa, hs.continues.grows.root,
        hin.continues.grows.root]
  have hgraph : (close a q).graph = q.1.graph.finish q.2 := rfl
  have hclosed : (close a q).graph.Closed q.2.entry (p.body.shape t.graph.size) := by
    rw [hgraph, ← hin.graph]
    exact hs.built.piece.finish
  have hsize' : (close a q).graph.size = t.graph.size + p.body.size := by
    rw [hgraph, Graph.finish, size_redirectExits, hsize, hin.graph]
  refine ⟨a, hfind, hin.free, fun s hs => by rw [hroot, if_neg hs], by rw [hroot, if_pos rfl]; rfl,
    ⟨⟨a, q.2.entry, hfind, by rw [hroot, if_pos rfl], hclosed⟩, ?_, hsize'.ge⟩, hsize',
    fun i hi => ?_⟩
  · rw [← hin.graph]
    exact hst.keeps hq hclose.keeps hp.body fun i _ => by rw [hgraph, Graph.look_finish]
  · rw [← hin.graph] at hi
    rw [hgraph, hs.built.node_finish hi, hin.graph]

/-- A production stays where it lies. -/
theorem Lies.keeps {u : Table} {n : Nat} (ht : Registered t) (h : p.Lies t n) (hp : p.Worded)
    (hu : Augments t u) (hroot : ∀ s, (t.symbol s).root.isSome = true →
      (u.symbol s).root = (t.symbol s).root) (hsize : t.graph.size ≤ u.graph.size)
    (hnode : ∀ i < t.graph.size, u.graph.node i = t.graph.node i) : p.Lies u n := by
  obtain ⟨⟨a, r, ha, hr, hs⟩, hst, hle⟩ := h
  refine ⟨⟨a, r, hu.find _ _ ha, (hroot a (by rw [hr]; rfl)).trans hr, hs.congr hsize ?_ ?_ ?_⟩,
    hst.keeps ht hu.keeps hp.body fun i hi => ?_, hle.trans hsize⟩
  · exact fun i hi => by rw [kind, hnode i (hs.lt i hi), kind]
  · exact fun i hi => by rw [next, hnode i (hs.lt i hi), next]
  · exact fun i hi => by rw [hnode i (hs.lt i hi)]
  · rw [look, kind, hnode i (hi.trans_le hle), look, kind]

end Production

namespace Table

/-- The productions have been declared without a fault behind `base`. -/
structure Declared (base : Table) (ps : List Production) (t : Table) : Prop where
  grown : Grown t
  augments : Augments base t
  valid : ∀ p ∈ ps, p.Valid t
  rooted : ∀ s, (t.symbol s).root.isSome = true ↔ ∃ p ∈ ps, t.find? p.name.text = some s
  names : (ps.map (·.name.text)).Nodup
  lies : ∀ p ∈ ps, ∃ n, p.Lies t n
  apart : t.Apart
  size : t.graph.size = base.graph.size + (ps.map (·.body.size)).sum
  node : ∀ i < base.graph.size, t.graph.node i = base.graph.node i
  /-- The graph has no other nodes. -/
  inside : ∀ i < t.graph.size, base.graph.size ≤ i →
    ∃ p ∈ ps, ∃ n, p.Lies t n ∧ n ≤ i ∧ i < n + p.body.size

variable {base t u : Table} {ps : List Production} {p : Production}

theorem Laid.lt (ht : t.Laid) {a : SymbolId} {i : NodeId} (hi : t.Within a i) :
    i < t.graph.size := by
  obtain ⟨r, s, -, hs, hi⟩ := ht.within_iff.mp hi
  exact hs.lt i hi

theorem Apart.draws {a : SymbolId} (ha : t.Apart) (ht : t.Laid)
    (h : Production.Draws t u p a) : u.Apart := by
  -- a production is either new, behind all old nodes, or what it was
  have hnew {i : NodeId} (hi : u.Within a i) : t.graph.size ≤ i := by
    obtain ⟨b, r, hb, hr, hs⟩ := h.lies.closed
    obtain rfl : a = b := Option.some.inj (h.find.symm.trans hb)
    exact (Expr.mem_nodes_shape.mp ((within_iff_of_closed hr hs).mp hi)).1
  have hold {s : SymbolId} {i : NodeId} (hs : s ≠ a) (hi : u.Within s i) : t.Within s i := by
    induction hi with
    | root hr => exact .root ((h.others s hs).symm.trans hr)
    | next _ hj ih => exact ih.next (by rwa [Graph.next, ← h.node _ (ht.lt ih)])
    | sub _ hj ih => exact ih.sub (by rwa [Graph.kind, ← h.node _ (ht.lt ih)])
    | down _ hj ih => exact ih.down (by rwa [Graph.kind, ← h.node _ (ht.lt ih)])
  intro b c i hb hc
  by_cases hba : b = a <;> by_cases hca : c = a
  · exact hba.trans hca.symm
  · exact absurd (hnew (hba ▸ hb)) (Nat.not_le_of_lt (ht.lt (hold hca hc)))
  · exact absurd (hnew (hca ▸ hc)) (Nat.not_le_of_lt (ht.lt (hold hba hb)))
  · exact ha b c i (hold hba hb) (hold hca hc)

/-- Productions stay where they lie when one more is declared. -/
theorem Declared.lies_declare (h : Declared base ps t) (hps : ∀ q ∈ ps, q.Worded) (hp : p.Worded)
    (hsilent : (p.declare t).reports = []) {q : Production} (hq : q ∈ ps) {n : Nat}
    (hn : q.Lies t n) : q.Lies (p.declare t).value n := by
  have hreg := h.grown.registered
  obtain ⟨a, hd⟩ := Production.draws h.grown hp hsilent
  obtain ⟨haug, -⟩ := Production.augments_declare hreg hp hsilent
  refine hn.keeps hreg (hps q hq) haug (fun s hs => hd.others s ?_)
    (hd.size ▸ Nat.le_add_right ..) hd.node
  rintro rfl
  simp [hd.free] at hs

/-- One more production. -/
theorem Declared.declare (h : Declared base ps t) (hps : ∀ q ∈ ps, q.Worded) (hp : p.Worded)
    (hsilent : (p.declare t).reports = []) : Declared base (ps ++ [p]) (p.declare t).value := by
  have hreg := h.grown.registered
  have hu := Production.grown_declare h.grown p
  obtain ⟨a, hd⟩ := Production.draws h.grown hp hsilent
  obtain ⟨haug, hv⟩ := Production.augments_declare hreg hp hsilent
  have hkeep {q : Production} (hq : q ∈ ps) {n : Nat} (hn : q.Lies t n) :=
    h.lies_declare hps hp hsilent hq hn
  generalize (p.declare t).value = u at hu hd haug hv hkeep
  refine ⟨hu, h.augments.trans hreg haug, fun q hq => ?_, fun s => ?_, ?_, fun q hq => ?_,
    h.apart.draws h.grown.laid hd, ?_, fun i hi => ?_, fun i hi hbase => ?_⟩
  · rcases List.mem_append.mp hq with hq | hq
    · exact (h.valid q hq).augments hreg (hps q hq) haug
    · obtain rfl := List.mem_singleton.mp hq
      exact hv
  · simp only [List.mem_append, List.mem_singleton, or_and_right, exists_or, exists_eq_left]
    by_cases hsa : s = a
    · subst hsa
      exact iff_of_true hd.rooted (.inr hd.find)
    · rw [hd.others s hsa, h.rooted]
      refine ⟨fun ⟨q, hq, hs⟩ => .inl ⟨q, hq, haug.find _ _ hs⟩, ?_⟩
      rintro (⟨q, hq, hs⟩ | hs)
      · obtain ⟨r, hr, -⟩ := (h.valid q hq).head
        obtain rfl : r = s := Option.some.inj ((haug.find _ _ hr).symm.trans hs)
        exact ⟨q, hq, hr⟩
      · exact absurd (Option.some.inj (hs.symm.trans hd.find)) hsa
  · rw [List.map_append, List.nodup_append]
    refine ⟨h.names, List.nodup_singleton _, fun n hn m hm hnm => ?_⟩
    obtain ⟨q, hq, rfl⟩ := List.mem_map.mp hn
    obtain rfl : m = p.name.text := by simpa using hm
    obtain ⟨r, hr, -⟩ := (h.valid q hq).head
    obtain rfl : r = a := Option.some.inj ((haug.find _ _ hr).symm.trans (hnm ▸ hd.find))
    have hsome := (h.rooted r).mpr ⟨q, hq, hr⟩
    simp [hd.free] at hsome
  · rcases List.mem_append.mp hq with hq | hq
    · obtain ⟨n, hn⟩ := h.lies q hq
      exact ⟨n, hkeep hq hn⟩
    · obtain rfl := List.mem_singleton.mp hq
      exact ⟨_, hd.lies⟩
  · rw [hd.size, h.size, List.map_append, List.sum_append, List.map_singleton, List.sum_singleton,
      Nat.add_assoc]
  · rw [hd.node i (hi.trans_le (h.size ▸ Nat.le_add_right ..)), h.node i hi]
  · by_cases hold : i < t.graph.size
    · obtain ⟨q, hq, n, hn, hi⟩ := h.inside i hold hbase
      exact ⟨q, by simp [hq], n, hkeep hq hn, hi⟩
    · exact ⟨p, by simp, _, hd.lies, Nat.le_of_not_lt hold, hd.size ▸ hi⟩

theorem Declared.nil (hb : Grown base) (hroot : ∀ s, (base.symbol s).root = none) :
    Declared base [] base where
  grown := hb
  augments := .refl base
  valid p hp := absurd hp List.not_mem_nil
  rooted s := by simp [hroot]
  names := .nil
  lies p hp := absurd hp List.not_mem_nil
  apart a b i ha _ := by
    obtain ⟨r, s, hr, -⟩ := hb.laid.within_iff.mp ha
    exact absurd ((hroot a).symm.trans hr) (by simp)
  size := rfl
  node _ _ := rfl
  inside i hi h := absurd hi (Nat.not_lt_of_le h)

/-- Further productions, one after the other. -/
theorem Declared.foldlM {qs : List Production} (h : Declared base ps t)
    (hps : ∀ p ∈ ps ++ qs, p.Worded) (hs : (qs.foldlM Production.declare t).reports = []) :
    Declared base (ps ++ qs) (qs.foldlM Production.declare t).value := by
  induction qs generalizing ps t with
  | nil => simpa using h
  | cons q qs ih =>
    rw [List.foldlM_cons, Noted.reports_bind, List.append_eq_nil_iff] at hs
    have hq := h.declare (fun p hp => hps p (List.mem_append_left _ hp)) (hps q (by simp)) hs.1
    rw [List.append_cons] at hps ⊢
    exact ih hq hps hs.2

theorem Declared.lies_foldlM {qs : List Production} (h : Declared base ps t)
    (hps : ∀ p ∈ ps ++ qs, p.Worded) (hs : (qs.foldlM Production.declare t).reports = [])
    (hp : p ∈ ps) {n : Nat} (hn : p.Lies t n) :
    p.Lies (qs.foldlM Production.declare t).value n := by
  induction qs generalizing ps t with
  | nil => exact hn
  | cons q qs ih =>
    rw [List.foldlM_cons, Noted.reports_bind, List.append_eq_nil_iff] at hs
    have hold : ∀ p ∈ ps, p.Worded := fun p hp => hps p (List.mem_append_left _ hp)
    have hnew : q.Worded := hps q (by simp)
    rw [List.append_cons] at hps
    exact ih (h.declare hold hnew hs.1) hps hs.2 (List.mem_append_left _ hp)
      (h.lies_declare hold hnew hs.1 hp hn)

/-- All productions, behind a table without productions. -/
theorem declared_productions (hb : Grown base) (hroot : ∀ s, (base.symbol s).root = none)
    (hps : ∀ p ∈ ps, p.Worded) (h : (ps.foldlM Production.declare base).reports = []) :
    Declared base ps (ps.foldlM Production.declare base).value :=
  have hall : Declared base ([] ++ ps) _ := (Declared.nil hb hroot).foldlM hps h
  hall

end Table

/-! ### The same words -/

namespace Expr

variable {α β : Type} {f : α → β} {P : β → Prop}

theorem all_map {e : Expr α} : (e.map f).All P ↔ e.All fun a => P (f a) := by
  induction e with
  | empty | atom a => exact Iff.rfl
  | seq e g ihe ihg | alt e g ihe ihg => exact and_congr ihe ihg
  | group b e ih => exact ih

theorem isAlt_map (e : Expr α) : (e.map f).isAlt = e.isAlt := by cases e <;> rfl

theorem size_map (e : Expr α) : (e.map f).size = e.size := by
  induction e with
  | empty | atom a => rfl
  | seq e g ihe ihg => simp only [map, size, ihe, ihg]
  | alt e g ihe ihg => simp only [map, size, ihe, ihg, isAlt_map]
  | group b e ih => cases b <;> simp only [map, size, ih]

end Expr

theorem Token.worded_word (t : Token) : t.word.Worded ↔ t.Worded :=
  ⟨fun h => ⟨h.literal, h.valid⟩, fun h => ⟨h.literal, h.valid⟩⟩

namespace Atom

variable {t : Table}

theorem worded_word (a : Atom) : (a.map Token.word).Worded ↔ a.Worded := by
  cases a with
  | symbol weak name attributes => exact Token.worded_word name
  | _ => exact Iff.rfl

theorem valid_word (a : Atom) : (a.map Token.word).Valid t ↔ a.Valid t := by
  cases a with
  | symbol weak name attributes =>
    have hsome : (attributes.map Token.word).isSome = attributes.isSome := Option.isSome_map ..
    simp only [map, Valid, hsome, Symbol.suits_iff, Token.kind_word]
    exact Iff.rfl
  | _ => exact Iff.rfl

end Atom

namespace Production

variable {t : Table} {p q : Production}

theorem worded_word (p : Production) : (p.map Token.word).Worded ↔ p.Worded :=
  ⟨fun h => ⟨h.ident, (Token.worded_word _).mp h.name,
      (Expr.all_map.mp h.body).mono fun a => a.worded_word.mp⟩,
    fun h => ⟨h.ident, (Token.worded_word _).mpr h.name,
      Expr.all_map.mpr (h.body.mono fun a => a.worded_word.mpr)⟩⟩

theorem valid_word (p : Production) : (p.map Token.word).Valid t ↔ p.Valid t := by
  have hattr : (p.attributes.map Token.word).isSome = p.attributes.isSome := Option.isSome_map ..
  refine ⟨fun h => ⟨?_, (Expr.all_map.mp h.body).mono fun a => a.valid_word.mp⟩,
    fun h => ⟨?_, Expr.all_map.mpr (h.body.mono fun a => a.valid_word.mpr)⟩⟩
  · exact hattr ▸ h.head
  · exact hattr.symm ▸ h.head

end Production

namespace Table

variable {base t u : Table} {ps qs : List Production}

/-- Productions that have been declared without a fault can be declared one by one in any other
order. -/
theorem Declared.bound (hps : ∀ p ∈ ps ++ qs, p.Worded) (hd : Declared base ps u)
    (hb : Bound base u t) (hqs : ∀ q ∈ qs, q.Valid t)
    (hnames : ((ps ++ qs).map (·.name.text)).Nodup) :
    (qs.foldlM Production.declare u).reports = [] ∧
      Bound base (qs.foldlM Production.declare u).value t := by
  induction qs generalizing ps u with
  | nil => exact ⟨rfl, hb⟩
  | cons q qs ih =>
    have hq := hps q (by simp)
    obtain ⟨hsilent, hbound⟩ := Production.silent_declare hb hq (hqs q (by simp)) fun s hs => by
      -- only the heads of productions declared so far have roots
      by_contra hroot
      obtain ⟨p, hp, hps⟩ := (hd.rooted s).mp (Option.isSome_iff_ne_none.mpr hroot)
      have hname : p.name.text = q.name.text := (name_of_find hps).symm.trans (name_of_find hs)
      rw [List.map_append, List.nodup_append] at hnames
      exact hnames.2.2 _ (List.mem_map_of_mem hp) q.name.text (by simp) hname
    have hnext := hd.declare (fun p hp => hps p (List.mem_append_left _ hp)) hq hsilent
    rw [List.append_cons] at hps hnames
    obtain ⟨hs, hb⟩ := ih hps hnext hbound (fun q h => hqs q (by simp [h])) hnames
    rw [List.foldlM_cons, Noted.reports_bind, hsilent, hs]
    exact ⟨rfl, hb⟩

/-- The tables of the same productions in two orders. -/
theorem Declared.permuted (hb : Grown base) (hroot : ∀ s, (base.symbol s).root = none)
    (hps : ∀ p ∈ ps, p.Worded) (ht : Declared base ps t)
    (hperm : (qs.map (·.map Token.word)).Perm (ps.map (·.map Token.word))) :
    (qs.foldlM Production.declare base).reports = [] ∧
      Declared base qs (qs.foldlM Production.declare base).value ∧
      Heralds (qs.foldlM Production.declare base).value t := by
  have hsame {q : Production} (hq : q ∈ qs) : ∃ p ∈ ps, p.map Token.word = q.map Token.word :=
    List.mem_map.mp (hperm.subset (List.mem_map_of_mem hq))
  have hworded (q : Production) (hq : q ∈ qs) : q.Worded := by
    obtain ⟨p, hp, hpq⟩ := hsame hq
    exact q.worded_word.mp (hpq ▸ p.worded_word.mpr (hps p hp))
  have hnames : (qs.map (·.name.text)).Nodup := by
    have := hperm.map fun p : Production => p.name.text
    simp only [List.map_map] at this
    exact this.nodup_iff.mpr ht.names
  have hbound : Bound base base t :=
    ⟨hb.registered, hb.registered, .refl base, ht.augments, fun n s hs => ?_⟩
  · have hall : ∀ q ∈ [] ++ qs, q.Worded := hworded
    obtain ⟨hs, hbound⟩ := (Declared.nil hb hroot).bound hall hbound
      (fun q hq => by
        obtain ⟨p, hp, hpq⟩ := hsame hq
        exact q.valid_word.mp (hpq ▸ p.valid_word.mpr (ht.valid p hp))) hnames
    exact ⟨hs, declared_productions hb hroot hworded hs, hbound.heralds⟩
  · have hlt := hb.registered.lt_of_find hs
    exact ⟨s, ht.augments.find n s hs, ht.augments.keeps.kind s hlt, ht.augments.attributes s hlt⟩

end Table

end Lookahead
