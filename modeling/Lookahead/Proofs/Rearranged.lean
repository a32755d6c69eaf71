import Lookahead.Proofs.Mirror
import Lookahead.Proofs.Placement

/-!
# Productions in two orders

A production has the same tree wherever it lies in a graph, so the nodes of one production in two
graphs correspond (`Shape.Fits.linked`, `Expr.Stands.like`). Tables in which the same productions
have been declared in two orders mirror each other (`Table.Rearranged.mirrors`).
-/

namespace Lookahead

open Relator

/-! ### One tree in two graphs -/

/-- The links of the nodes lead to corresponding nodes. -/
structure Graph.Linked (N : NodeId → NodeId → Prop) (g h : Graph) (i j : NodeId) : Prop where
  next : Option.Rel N (g.next i) (h.next j)
  up : (h.node j).up = (g.node i).up
  sub : Option.Rel N (g.kind i).sub? (h.kind j).sub?
  down : Option.Rel N (g.kind i).down? (h.kind j).down?

namespace Shape

/-- The tree with other numbers for its nodes. -/
def map (f : NodeId → NodeId) : Shape → Shape
  | nil => nil
  | node i l b o r => node (f i) l (b.map f) (o.map f) (r.map f)

variable {N : NodeId → NodeId → Prop} {g h : Graph} {f f' : NodeId → NodeId} {s x : Shape}
  {p q : Option NodeId} {up : Bool}

theorem map_append : (s.append x).map f = (s.map f).append (x.map f) := by
  induction s with
  | nil => rfl
  | node i l b o r _ _ ih => rw [append, map, map, append, ih]

theorem map_addOther : (s.addOther x).map f = (s.map f).addOther (x.map f) := by
  induction s with
  | nil => rfl
  | node i l b o r _ ih _ => rw [addOther, map, map, addOther, ih]

theorem isNil_map : (s.map f).isNil = s.isNil := by cases s <;> rfl

theorem rel_entry (hN : ∀ i ∈ s.nodes, N (f i) (f' i)) :
    Option.Rel N (s.map f).entry (s.map f').entry := by
  cases s with
  | nil => exact .none
  | node i l b o r => exact .some (hN i (by simp [nodes]))

/-- The links of a tree that lies in two graphs lead to corresponding nodes. -/
theorem Fits.linked (hs : (s.map f).Fits g (· = p) up) (hs' : (s.map f').Fits h (· = q) up)
    (hpq : Option.Rel N p q) (hN : ∀ i ∈ s.nodes, N (f i) (f' i)) :
    ∀ i ∈ s.nodes, Graph.Linked N g h (f i) (f' i) := by
  induction s generalizing p q up with
  | nil => simp [nodes]
  | node i l b o r ihb iho ihr =>
    have hnext := hs.next_eq
    have hnext' := hs'.next_eq
    obtain ⟨hk, hl, hb, ho, hr⟩ := hs
    obtain ⟨hk', hl', hb', ho', hr'⟩ := hs'
    simp only [nodes, List.forall_mem_cons, List.forall_mem_append] at hN ⊢
    obtain ⟨hi, hNb, hNo, hNr⟩ := hN
    have hexit : Option.Rel N ((r.map f).exitTo p) ((r.map f').exitTo q) := by
      unfold exitTo
      rw [isNil_map, isNil_map]
      split
      · exact hpq
      · exact rel_entry hNr
    rw [after_eq] at hb ho hb' ho'
    have hbody := ihb (p := if l then some (f i) else (r.map f).exitTo p)
      (q := if l then some (f' i) else (r.map f').exitTo q) (by cases l <;> simpa using hb)
      (by cases l <;> simpa using hb') (by cases l <;> simp [hexit, hi]) hNb
    refine ⟨⟨?_, ?_, ?_, ?_⟩, hbody, iho ho ho' hexit hNo, ihr hr hr' hpq hNr⟩
    · rwa [hnext, hnext']
    · rw [hl.up, hl'.up, isNil_map, isNil_map]
    · rw [← hk.entry_body, ← hk'.entry_body]
      exact rel_entry hNb
    · rw [← hk.entry_others, ← hk'.entry_others]
      exact rel_entry hNo

end Shape

namespace Expr

variable {α β : Type} {f : α → β}

theorem shape_map (e : Expr α) (n : Nat) : (e.map f).shape n = e.shape n := by
  induction e generalizing n with
  | empty | atom a => rfl
  | seq e g ihe ihg => simp only [map, shape, ihe, ihg, size_map]
  | alt e g ihe ihg => simp only [map, shape, ihe, ihg, size_map, isAlt_map]
  | group b e ih => cases b <;> simp only [map, shape, ih, size_map]

/-- The tree is the same wherever it is. -/
theorem shape_add (e : Expr α) (n k : Nat) : e.shape (n + k) = (e.shape k).map (n + ·) := by
  induction e generalizing k with
  | empty | atom a => rfl
  | seq e g ihe ihg => simp only [shape, ihe, ihg, Shape.map_append, Nat.add_assoc]
  | alt e g ihe ihg =>
    simp only [shape]
    split <;> simp only [ihe, ihg, Shape.map_addOther, Shape.map, Nat.add_assoc]
  | group b e ih => cases b <;> simp only [shape, ih, Shape.map, Nat.add_assoc]

end Expr

/-! ### What the nodes stand for -/

/-- Kinds are alike if they are so without their links, and the links correspond. -/
theorem NodeKind.Like.of_bare {S : SymbolId → SymbolId → Prop} {N : NodeId → NodeId → Prop}
    {k l : NodeKind} (h : k.bare.Like S (fun _ _ => True) l.bare) (hs : Option.Rel N k.sub? l.sub?)
    (hd : Option.Rel N k.down? l.down?) : k.Like S N l := by
  cases k <;> cases l <;> cases h <;> first
    | exact .alt (by simpa [sub?] using hs) hd
    | exact .opt (by simpa [sub?] using hs)
    | exact .iter (by simpa [sub?] using hs)
    | (constructor; assumption)
    | constructor

section

variable {t u : Table} {S : SymbolId → SymbolId → Prop}

/-- Names that are the same words stand for corresponding symbols of one kind. -/
structure Table.Renders (S : SymbolId → SymbolId → Prop) (t u : Table) : Prop where
  kind : ∀ a b, S a b → (u.symbol b).kind = (t.symbol a).kind
  resolve : ∀ name name' a b, name'.word = name.word → Atom.resolve? t name = some a →
    Atom.resolve? u name' = some b → S a b

/-- The atom is no wildcard. -/
def Atom.Plain : Atom → Prop
  | .any _ => False
  | _ => True

instance : DecidablePred Atom.Plain
  | .any _ => isFalse id
  | .symbol .. | .sync _ | .action _ | .resolver _ => isTrue trivial

instance Expr.decidableAll {α : Type} {P : α → Prop} [DecidablePred P] :
    ∀ e : Expr α, Decidable (e.All P)
  | .empty => isTrue trivial
  | .atom a => inferInstanceAs (Decidable (P a))
  | .seq e f | .alt e f =>
    haveI := decidableAll (P := P) e
    haveI := decidableAll (P := P) f
    inferInstanceAs (Decidable (_ ∧ _))
  | .group _ e => decidableAll (P := P) e

theorem Atom.plain_map (f : Token → Token) (a : Atom) : (a.map f).Plain ↔ a.Plain := by
  cases a <;> exact Iff.rfl

theorem Atom.Stands.like {a b : Atom} {i j : NodeId} (h : Table.Renders S t u) (ha : a.Stands t i)
    (hb : b.Stands u j) (hab : b.map Token.word = a.map Token.word) (hva : a.Valid t)
    (hvb : b.Valid u) (hpa : a.Plain) :
    (t.graph.kind i).bare.Like S (fun _ _ => True) (u.graph.kind j).bare := by
  cases a with
  | symbol weak name attributes =>
    cases b with
    | symbol weak' name' attributes' =>
      injection hab with hweak hname _
      obtain ⟨-, r, hr, -⟩ := hva
      obtain ⟨-, r', hr', -⟩ := hvb
      obtain ⟨s, hs, hi⟩ := ha
      obtain ⟨s', hs', hj⟩ := hb
      obtain rfl : r = s := by simpa [Table.Means, hr] using hs
      obtain rfl : r' = s' := by simpa [Table.Means, hr'] using hs'
      have hS := h.resolve name name' r r' hname hr hr'
      have hki : (t.graph.kind i).bare = _ := congrArg Look.kind hi
      have hkj : (u.graph.kind j).bare = _ := congrArg Look.kind hj
      rw [hki, hkj, h.kind r r' hS, hweak]
      cases (t.symbol r).kind <;> cases weak <;> constructor <;> exact hS
    | _ => cases hab
  | any w => exact hpa.elim
  | sync w | action w | resolver w =>
    have hki : (t.graph.kind i).bare = _ := congrArg Look.kind ha
    cases b <;> first | cases hab | skip
    have hkj : (u.graph.kind j).bare = _ := congrArg Look.kind hb
    rw [hki, hkj]
    constructor

/-- From `n` and `m` on there are `d` nodes that are alike but for their links. -/
def Table.LookAlike (S : SymbolId → SymbolId → Prop) (t u : Table) (n m d : Nat) : Prop :=
  ∀ k < d, (t.graph.kind (n + k)).bare.Like S (fun _ _ => True) (u.graph.kind (m + k)).bare

theorem Table.LookAlike.append {n m d e : Nat} (h : LookAlike S t u n m d)
    (h' : LookAlike S t u (n + d) (m + d) e) : LookAlike S t u n m (d + e) := by
  intro k hk
  by_cases hlt : k < d
  · exact h k hlt
  · have := h' (k - d) (by omega)
    rwa [Nat.add_assoc, Nat.add_assoc, Nat.add_sub_cancel' (Nat.le_of_not_lt hlt)] at this

/-- A single node. -/
theorem Table.LookAlike.single {n m : Nat}
    (h : (t.graph.kind n).bare.Like S (fun _ _ => True) (u.graph.kind m).bare) :
    LookAlike S t u n m 1 := by
  intro k hk
  rwa [Nat.lt_one_iff.mp hk]

/-- The nodes of an expression stand for the same in two tables. -/
theorem Expr.Stands.like {e f : Expr Atom} {n m : Nat} (h : Table.Renders S t u) (he : e.Stands t n)
    (hf : f.Stands u m) (hef : f.map (Atom.map Token.word) = e.map (Atom.map Token.word))
    (hve : e.All (Atom.Valid t)) (hvf : f.All (Atom.Valid u))
    (hpe : e.All Atom.Plain) : Table.LookAlike S t u n m e.size := by
  have hsize {e f : Expr Atom} (hef : f.map (Atom.map Token.word) = e.map (Atom.map Token.word)) :
      f.size = e.size := by rw [← size_map, hef, size_map]
  induction e generalizing f n m with
  | empty =>
    cases f <;> cases hef
    have hki : (t.graph.kind n).bare = _ := congrArg Look.kind he
    have hkj : (u.graph.kind m).bare = _ := congrArg Look.kind hf
    refine .single ?_
    rw [hki, hkj]
    exact .empty
  | atom a =>
    cases f with
    | atom b =>
      injection hef with hab
      exact .single (Atom.Stands.like h he hf hab hve hvf hpe)
    | _ => cases hef
  | seq e e' ihe ihe' =>
    cases f with
    | seq f f' =>
      injection hef with h₁ h₂
      obtain ⟨hf, hf'⟩ := hf
      rw [hsize h₁] at hf'
      exact (ihe he.1 hf h₁ hve.1 hvf.1 hpe.1).append (ihe' he.2 hf' h₂ hve.2 hvf.2 hpe.2)
    | _ => cases hef
  | alt e e' ihe ihe' =>
    cases f with
    | alt f f' =>
      have hlen := hsize hef
      injection hef with h₁ h₂
      obtain ⟨hf, hf', hforks'⟩ := hf
      obtain ⟨he, he', hforks⟩ := he
      rw [hsize h₁] at hf' hforks'
      rw [hsize h₂, hlen] at hforks'
      have hcontents := (ihe he hf h₁ hve.1 hvf.1 hpe.1).append
        (ihe' he' hf' h₂ hve.2 hvf.2 hpe.2)
      refine hcontents.append fun k hk => ?_
      have hki : (t.graph.kind (n + (e.size + e'.size) + k)).bare = .alt 0 none :=
        hforks _ (by omega) (by simp only [size]; omega)
      have hkj : (u.graph.kind (m + (e.size + e'.size) + k)).bare = .alt 0 none :=
        hforks' _ (by omega) (by simp only [size]; omega)
      rw [hki, hkj]
      exact .alt trivial .none
    | _ => cases hef
  | group b e ih =>
    cases f with
    | group b' f =>
      injection hef with hb h₁
      subst hb
      obtain ⟨hf, hsquare', hcurly'⟩ := hf
      obtain ⟨he, hsquare, hcurly⟩ := he
      rw [hsize h₁] at hsquare' hcurly'
      have hcontent := ih he hf h₁ hve hvf hpe
      cases b' with
      | square =>
        have hki : (t.graph.kind (n + e.size)).bare = .opt 0 := hsquare rfl
        have hkj : (u.graph.kind (m + e.size)).bare = .opt 0 := hsquare' rfl
        refine hcontent.append (.single ?_)
        rw [hki, hkj]
        exact .opt trivial
      | curly =>
        have hki : (t.graph.kind (n + e.size)).bare = .iter 0 := hcurly rfl
        have hkj : (u.graph.kind (m + e.size)).bare = .iter 0 := hcurly' rfl
        refine hcontent.append (.single ?_)
        rw [hki, hkj]
        exact .iter trivial
      | round | context => exact hcontent
    | _ => cases hef

end

/-! ### The same productions behind one table -/

namespace Table

/-- The same productions have been declared behind `base` without a fault, in any two orders. There
are no wildcards in them. -/
structure Rearranged (base : Table) (ps qs : List Production) (t u : Table) : Prop where
  registered : Registered base
  left : Declared base ps t
  right : Declared base qs u
  perm : (qs.map (·.map Token.word)).Perm (ps.map (·.map Token.word))
  heralds : Heralds t u
  heralds' : Heralds u t
  plain : ∀ p ∈ ps, p.body.All Atom.Plain
  clear : ∀ i < base.graph.size, ∀ set, base.graph.kind i ≠ .any set

/-- Symbols of the tables that correspond: what has been there before, what the same name stands for
since, and what is added next. -/
inductive Counterpart (base t u : Table) : SymbolId → SymbolId → Prop
  | old {a} (h : a < base.symbols.size) : Counterpart base t u a a
  | new {n a b} (h : base.find? n = none) (ha : t.find? n = some a) (hb : u.find? n = some b) :
      Counterpart base t u a b
  | next : Counterpart base t u t.symbols.size u.symbols.size

/-- Nodes at the same place of one production. -/
inductive Parallel (ps qs : List Production) (t u : Table) : NodeId → NodeId → Prop
  | intro {p q n m k} (hp : p ∈ ps) (hq : q ∈ qs) (hpq : q.map Token.word = p.map Token.word)
      (hn : p.Lies t n) (hm : q.Lies u m) (hk : k < p.body.size) :
      Parallel ps qs t u (n + k) (m + k)

variable {base t u T U : Table} {ps qs : List Production} {a b : SymbolId} {i j : NodeId}
  {n : String} {p q : Production}

theorem Counterpart.symm (h : Counterpart base t u a b) : Counterpart base u t b a := by
  cases h with
  | old h => exact .old h
  | new h ha hb => exact .new h hb ha
  | next => exact .next

theorem text_of_word (h : q.map Token.word = p.map Token.word) : q.name.text = p.name.text := by
  have := congrArg (fun p : Production => p.name.text) h
  exact this

theorem body_of_word (h : q.map Token.word = p.map Token.word) :
    q.body.map (Atom.map Token.word) = p.body.map (Atom.map Token.word) :=
  congrArg Production.body h

theorem plain_body_of_word (h : q.map Token.word = p.map Token.word)
    (hq : q.body.All Atom.Plain) : p.body.All Atom.Plain := by
  have hall (e : Expr Atom) : (e.map (Atom.map Token.word)).All Atom.Plain ↔ e.All Atom.Plain := by
    simp only [Expr.all_map, Atom.plain_map]
  rwa [← hall, ← body_of_word h, hall]

theorem size_body_of_word (h : q.map Token.word = p.map Token.word) :
    q.body.size = p.body.size := by
  rw [← Expr.size_map q.body, body_of_word h, Expr.size_map]

theorem shape_body_of_word (h : q.map Token.word = p.map Token.word) (m : Nat) :
    q.body.shape m = (p.body.shape 0).map (m + ·) := by
  rw [← Expr.shape_map q.body, body_of_word h, Expr.shape_map]
  exact p.body.shape_add m 0

/-- The links of a production lead to the same places. -/
theorem Parallel.linked (hij : Parallel ps qs t u i j) :
    Graph.Linked (Parallel ps qs t u) t.graph u.graph i j := by
  obtain ⟨hp, hq, hqp, hn, hm, hk⟩ := hij
  rename_i p q n m k
  obtain ⟨-, r, -, -, hs⟩ := hn.closed
  obtain ⟨-, r', -, -, hs'⟩ := hm.closed
  have hfits := hs.fits
  have hfits' := hs'.fits
  rw [shape_body_of_word rfl] at hfits
  rw [shape_body_of_word hqp] at hfits'
  have hmem {l : Nat} : l ∈ (p.body.shape 0).nodes ↔ l < p.body.size := by
    simpa using Expr.mem_nodes_shape (e := p.body) (n := 0) (i := l)
  exact hfits.linked hfits' .none
    (fun l hl => .intro hp hq hqp hn hm (hmem.mp hl)) k (hmem.mpr hk)

theorem lt_of_root (ha : (t.symbol a).root.isSome = true) : a < t.symbols.size := by
  by_contra hle
  rw [symbol_of_size_le (Nat.le_of_not_lt hle)] at ha
  cases ha

/-- A symbol that is found under a new name is new. -/
theorem Augments.size_le_of_find (h : Augments base t) (hb : Registered base) (ht : Registered t)
    (hn : base.find? n = none) (ha : t.find? n = some a) : base.symbols.size ≤ a := by
  by_contra hlt
  have hlt : a < base.symbols.size := Nat.lt_of_not_le hlt
  have hmem := List.mem_of_find?_eq_some ha
  have hkind : (base.symbol a).kind = .terminal ∨ (base.symbol a).kind = .nonterminal := by
    rw [← h.keeps.kind a hlt]
    rcases List.mem_append.mp hmem with hmem | hmem
    · exact .inl ((ht.mem .terminal a).mp (Array.mem_toList_iff.mp hmem)).2
    · exact .inr ((ht.mem .nonterminal a).mp (Array.mem_toList_iff.mp hmem)).2
  have hmem : a ∈ base.terminals.toList ++ base.nonterminals.toList := by
    rw [List.mem_append, Array.mem_toList_iff, Array.mem_toList_iff]
    exact hkind.imp (fun hk => (hb.mem .terminal a).mpr ⟨hlt, hk⟩)
      fun hk => (hb.mem .nonterminal a).mpr ⟨hlt, hk⟩
  have := List.find?_eq_none.mp hn a hmem
  rw [← h.keeps.name a hlt, name_of_find ha] at this
  exact this (beq_self_eq_true n)

namespace Rearranged

variable (h : Rearranged base ps qs t u)
include h

theorem exists_right (hp : p ∈ ps) : ∃ q ∈ qs, q.map Token.word = p.map Token.word :=
  List.mem_map.mp (h.perm.symm.subset (List.mem_map_of_mem hp))

theorem symm : Rearranged base qs ps u t where
  registered := h.registered
  left := h.right
  right := h.left
  perm := h.perm.symm
  heralds := h.heralds'
  heralds' := h.heralds
  plain q hq := by
    obtain ⟨p, hp, hpq⟩ := List.mem_map.mp (h.perm.subset (List.mem_map_of_mem hq))
    exact plain_body_of_word hpq (h.plain p hp)
  clear := h.clear

/-- The symbols under one name correspond. -/
theorem counterpart (ha : t.find? n = some a) (hb : u.find? n = some b) :
    Counterpart base t u a b := by
  cases hn : base.find? n with
  | none => exact .new hn ha hb
  | some c =>
    obtain rfl := Option.some.inj ((h.left.augments.find n c hn).symm.trans ha)
    obtain rfl := Option.some.inj ((h.right.augments.find n c hn).symm.trans hb)
    exact .old (h.registered.lt_of_find hn)

theorem counterpart_unique {c : SymbolId} (hb : Counterpart base t u a b)
    (hc : Counterpart base t u a c) : b = c := by
  have hnew {n : String} {a : SymbolId} (hn : base.find? n = none) (ha : t.find? n = some a) :
      base.symbols.size ≤ a ∧ a < t.symbols.size :=
    ⟨h.left.augments.size_le_of_find h.registered h.left.grown.registered hn ha,
      h.left.grown.registered.lt_of_find ha⟩
  have hle := h.left.augments.keeps.size_le
  cases hb with
  | old hlt =>
    cases hc with
    | old => rfl
    | new hn ha => exact absurd hlt (Nat.not_lt_of_le (hnew hn ha).1)
    | next => exact absurd hlt (Nat.not_lt_of_le hle)
  | new hn ha hb =>
    cases hc with
    | old hlt => exact absurd hlt (Nat.not_lt_of_le (hnew hn ha).1)
    | new hn' ha' hc =>
      obtain rfl := (name_of_find ha).symm.trans (name_of_find ha')
      exact Option.some.inj (hb.symm.trans hc)
    | next => exact absurd (hnew hn ha).2 (Nat.lt_irrefl _)
  | next =>
    generalize hs : t.symbols.size = s at hc hle hnew
    cases hc with
    | old hlt => exact absurd hlt (Nat.not_lt_of_le hle)
    | new hn ha => exact absurd (hnew hn ha).2 (Nat.lt_irrefl _)
    | next => rfl

theorem counterpart_kind (hab : Counterpart base t u a b) :
    (u.symbol b).kind = (t.symbol a).kind := by
  cases hab with
  | old hlt => rw [h.left.augments.keeps.kind a hlt, h.right.augments.keeps.kind a hlt]
  | new hn ha hb =>
    obtain ⟨c, hc, hk, -⟩ := h.heralds _ _ ha
    obtain rfl := Option.some.inj (hb.symm.trans hc)
    exact hk
  | next => rw [symbol_of_size_le le_rfl, symbol_of_size_le le_rfl]

theorem counterpart_name (hab : Counterpart base t u a b) :
    (u.symbol b).name = (t.symbol a).name := by
  cases hab with
  | old hlt => rw [h.left.augments.keeps.name a hlt, h.right.augments.keeps.name a hlt]
  | new hn ha hb => rw [name_of_find ha, name_of_find hb]
  | next => rw [symbol_of_size_le le_rfl, symbol_of_size_le le_rfl]

theorem counterpart_lt (ha : a < t.symbols.size) (hab : Counterpart base t u a b) :
    b < u.symbols.size := by
  cases hab with
  | old hlt => exact hlt.trans_le h.right.augments.keeps.size_le
  | new hn ha hb => exact h.right.grown.registered.lt_of_find hb
  | next => exact absurd ha (Nat.lt_irrefl _)

/-- Symbols that correspond are both there, or both are next. -/
theorem counterpart_cases (hab : Counterpart base t u a b) :
    a < t.symbols.size ∧ b < u.symbols.size ∨ a = t.symbols.size ∧ b = u.symbols.size := by
  by_cases ha : a < t.symbols.size
  · exact .inl ⟨ha, h.counterpart_lt ha hab⟩
  · cases hab with
    | old hlt => exact absurd (hlt.trans_le h.left.augments.keeps.size_le) ha
    | new hn hta hub => exact absurd (h.left.grown.registered.lt_of_find hta) ha
    | next => exact .inr ⟨rfl, rfl⟩

/-- Every symbol has a counterpart. -/
theorem exists_counterpart (ha : a < t.symbols.size) : ∃ b, Counterpart base t u a b := by
  by_cases hlt : a < base.symbols.size
  · exact ⟨a, .old hlt⟩
  · have hfind := h.left.augments.named a (Nat.le_of_not_lt hlt) ha
    obtain ⟨b, hb, -⟩ := h.heralds _ _ hfind
    exact ⟨b, h.counterpart hfind hb⟩

/-! ### Roots -/

/-- What has a production in one order has the same one in the other. -/
theorem exists_production (ha : (t.symbol a).root.isSome = true)
    (hab : Counterpart base t u a b) : ∃ p ∈ ps, ∃ q ∈ qs,
      q.map Token.word = p.map Token.word ∧ t.find? p.name.text = some a ∧
      u.find? q.name.text = some b := by
  obtain ⟨p, hp, hpa⟩ := (h.left.rooted a).mp ha
  obtain ⟨q, hq, hqp⟩ := h.exists_right hp
  obtain ⟨c, hc, -⟩ := (h.right.valid q hq).head
  obtain rfl := h.counterpart_unique (h.counterpart hpa (text_of_word hqp ▸ hc)) hab
  exact ⟨p, hp, q, hq, hqp, hpa, hc⟩

/-- Symbols with productions correspond if they have one name. -/
theorem counterpart_of_name (ha : (t.symbol a).root.isSome = true)
    (hb : (u.symbol b).root.isSome = true) (hab : (u.symbol b).name = (t.symbol a).name) :
    Counterpart base t u a b := by
  obtain ⟨p, -, hp⟩ := (h.left.rooted a).mp ha
  obtain ⟨q, -, hq⟩ := (h.right.rooted b).mp hb
  rw [name_of_find hp, name_of_find hq] at hab
  exact h.counterpart hp (hab ▸ hq)

theorem root_isSome (hab : Counterpart base t u a b) (ha : (t.symbol a).root.isSome = true) :
    (u.symbol b).root.isSome = true := by
  obtain ⟨p, -, q, hq, -, -, hb⟩ := h.exists_production ha hab
  exact (h.right.rooted b).mpr ⟨q, hq, hb⟩

/-- The productions of symbols that correspond start at nodes that do. -/
theorem rel_root (hab : Counterpart base t u a b) :
    Option.Rel (Parallel ps qs t u) (t.symbol a).root (u.symbol b).root := by
  cases ha : (t.symbol a).root with
  | none =>
    cases hb : (u.symbol b).root with
    | none => exact .none
    | some r =>
      have := h.symm.root_isSome hab.symm (by rw [hb]; rfl)
      simp [ha] at this
  | some r =>
    obtain ⟨p, hp, q, hq, hqp, hpa, hqb⟩ := h.exists_production (by rw [ha]; rfl) hab
    obtain ⟨n, hn⟩ := h.left.lies p hp
    obtain ⟨m, hm⟩ := h.right.lies q hq
    obtain ⟨a', r', ha', hr, hs⟩ := hn.closed
    obtain rfl := Option.some.inj (hpa.symm.trans ha')
    obtain rfl := Option.some.inj (ha.symm.trans hr)
    obtain ⟨b', r', hb', hr', hs'⟩ := hm.closed
    obtain rfl := Option.some.inj (hqb.symm.trans hb')
    -- both are the first node of the tree
    have hpar {k : Nat} (hk : k ∈ (p.body.shape 0).nodes) : Parallel ps qs t u (n + k) (m + k) :=
      .intro hp hq hqp hn hm (by simpa using Expr.mem_nodes_shape.mp hk)
    have := Shape.rel_entry (fun k hk => hpar hk)
    rwa [← shape_body_of_word rfl, ← shape_body_of_word hqp, hs.entry, hs'.entry, ← hr'] at this

/-! ### Nodes -/

theorem resolve {name name' : Token} (hname : name'.word = name.word)
    (ha : Atom.resolve? t name = some a) (hb : Atom.resolve? u name' = some b) :
    Counterpart base t u a b := by
  have hspelling := congrArg Token.spelling hname
  have hkind := congrArg Token.kind hname
  change name'.spelling = name.spelling at hspelling
  change name'.kind = name.kind at hkind
  unfold Atom.resolve? at ha hb
  rw [hspelling, hkind] at hb
  cases hft : t.find? (String.ofList name.spelling) with
  | some c =>
    obtain ⟨d, hfu, -⟩ := h.heralds _ _ hft
    simp only [hft, hfu, Option.some.injEq] at ha hb
    exact ha ▸ hb ▸ h.counterpart hft hfu
  | none =>
    cases hfu : u.find? (String.ofList name.spelling) with
    | some d =>
      obtain ⟨c, hc, -⟩ := h.heralds' _ _ hfu
      simp [hft] at hc
    | none =>
      simp only [hft, hfu] at ha hb
      split at ha
      · cases ha
      · rename_i hident
        rw [if_neg hident] at hb
        have hlit (t : Table) (ht : t.literals = base.literals) (n : String) :
            t.literal? n = base.literal? n := by rw [literal?, ht, literal?]
        rw [hlit t h.left.augments.literals] at ha
        rw [hlit u h.right.augments.literals] at hb
        obtain rfl := Option.some.inj (ha.symm.trans hb)
        exact .old (h.registered.lt_of_literal ha)

/-- Nodes at the same place are alike. -/
theorem like (hij : Parallel ps qs t u i j) :
    (t.graph.kind i).Like (Counterpart base t u) (Parallel ps qs t u) (u.graph.kind j) := by
  have hlinked := hij.linked
  obtain ⟨hp, hq, hqp, hn, hm, hk⟩ := hij
  have hrenders : Renders (Counterpart base t u) t u :=
    ⟨fun _ _ => h.counterpart_kind, fun _ _ _ _ => h.resolve⟩
  exact .of_bare (Expr.Stands.like hrenders hn.stands hm.stands (body_of_word hqp)
    (h.left.valid _ hp).body (h.right.valid _ hq).body (h.plain _ hp) _ hk)
    hlinked.sub hlinked.down

theorem within (hij : Parallel ps qs t u i j) : ∃ a b, Counterpart base t u a b ∧
    a < t.symbols.size ∧ (t.symbol a).kind = .nonterminal ∧ t.Within a i ∧ u.Within b j := by
  obtain ⟨hp, hq, hqp, hn, hm, hk⟩ := hij
  obtain ⟨a, r, ha, hr, hs⟩ := hn.closed
  obtain ⟨b, r', hb, hr', hs'⟩ := hm.closed
  obtain ⟨a', ha', hkind, -⟩ := (h.left.valid _ hp).head
  obtain rfl := Option.some.inj (ha.symm.trans ha')
  refine ⟨a, b, h.counterpart ha (text_of_word hqp ▸ hb), h.left.grown.registered.lt_of_find ha,
    hkind, (within_iff_of_closed hr hs).mpr (Expr.mem_nodes_shape.mpr (by omega)),
    (within_iff_of_closed hr' hs').mpr (Expr.mem_nodes_shape.mpr ?_)⟩
  rw [size_body_of_word hqp]
  omega

theorem size_eq : u.graph.size = t.graph.size := by
  have hsum := (h.perm.map fun p => p.body.size).sum_nat
  simp only [List.map_map, Function.comp_def, Production.map, Expr.size_map] at hsum
  rw [h.left.size, h.right.size, hsum]

/-- There are no wildcards in the graph. -/
theorem kind_ne_any (i : NodeId) (set : IndexSet) : t.graph.kind i ≠ .any set := by
  intro hk
  by_cases hi : i < t.graph.size
  · by_cases hbase : base.graph.size ≤ i
    · obtain ⟨p, hp, n, hn, hni, hin⟩ := h.left.inside i hi hbase
      obtain ⟨q, hq, hqp⟩ := h.exists_right hp
      obtain ⟨m, hm⟩ := h.right.lies q hq
      have hlike := h.like (.intro hp hq hqp hn hm (Nat.sub_lt_left_of_lt_add hni hin))
      rw [Nat.add_sub_cancel' hni, hk] at hlike
      cases hlike
    · have hlt := Nat.lt_of_not_le hbase
      rw [Graph.kind, h.left.node i hlt] at hk
      exact h.clear i hlt set hk
  · rw [Graph.kind, Graph.node_of_size_le (Nat.le_of_not_lt hi)] at hk
    cases hk

end Rearranged

/-! ### The end of the productions -/

/-- The table `T` is `t` with one more terminal and with other sets for wildcards. -/
structure Completes (t T : Table) : Prop where
  size : T.symbols.size = t.symbols.size + 1
  kind : ∀ s < t.symbols.size, (T.symbol s).kind = (t.symbol s).kind
  name : ∀ s < t.symbols.size, (T.symbol s).name = (t.symbol s).name
  root : ∀ s, (T.symbol s).root = (t.symbol s).root
  last : (T.symbol t.symbols.size).kind = .terminal ∧
    (T.symbol t.symbols.size).name = invalidName
  graph : Graph.Alike t.graph T.graph
  eof : T.eof = t.eof

theorem Completes.within (h : Completes t T) (hi : t.Within a i) : T.Within a i := by
  induction hi with
  | root hr => exact .root ((h.root a).trans hr)
  | next _ hj ih => exact ih.next ((h.graph.next _).trans hj)
  | sub _ hj ih => exact ih.sub ((h.graph.sub? _).trans hj)
  | down _ hj ih => exact ih.down ((h.graph.down? _).trans hj)

theorem Completes.within_of (h : Completes t T) (hi : T.Within a i) : t.Within a i := by
  induction hi with
  | root hr => exact .root ((h.root a).symm.trans hr)
  | next _ hj ih => exact ih.next ((h.graph.next _).symm.trans hj)
  | sub _ hj ih => exact ih.sub ((h.graph.sub? _).symm.trans hj)
  | down _ hj ih => exact ih.down ((h.graph.down? _).symm.trans hj)

theorem Completes.apart (h : Completes t T) (ht : t.Apart) : T.Apart :=
  fun a b i ha hb => ht a b i (h.within_of ha) (h.within_of hb)

/-- Tables of the same productions in two orders mirror each other. -/
theorem Rearranged.mirrors (h : Rearranged base ps qs t u) (ht : Completes t T)
    (hu : Completes u U) (hstart : Option.Rel (Counterpart base t u) T.start U.start) :
    Mirrors (Counterpart base t u) (Parallel ps qs t u) T U := by
  refine
    { unique := ⟨fun a b c hac hbc => h.symm.counterpart_unique hac.symm hbc.symm,
        fun a b c hab hac => h.counterpart_unique hab hac⟩
      lt := fun a b hab => ?_
      kind := fun a b hab => ?_
      name := fun a b hab => ?_
      named := fun a b ha hb hab => ?_
      root := fun a b hab => ?_
      left := fun a ha _ => ?_
      right := fun b hb _ => ?_
      node := fun i j hij => (h.like hij).outline (ht.graph.kind i) (hu.graph.kind j)
      next := fun i j hij => ?_
      up := fun i j hij => ?_
      within := fun i j hij => ?_
      size := ?_
      start := hstart
      eof := ?_ }
  · rw [ht.size, hu.size]
    rcases h.counterpart_cases hab with ⟨ha, hb⟩ | ⟨rfl, rfl⟩
    · exact ⟨Nat.lt_succ_of_lt ha, Nat.lt_succ_of_lt hb⟩
    · exact ⟨Nat.lt_succ_self _, Nat.lt_succ_self _⟩
  · rcases h.counterpart_cases hab with ⟨ha, hb⟩ | ⟨rfl, rfl⟩
    · rw [ht.kind a ha, hu.kind b hb, h.counterpart_kind hab]
    · rw [ht.last.1, hu.last.1]
  · rcases h.counterpart_cases hab with ⟨ha, hb⟩ | ⟨rfl, rfl⟩
    · rw [ht.name a ha, hu.name b hb, h.counterpart_name hab]
    · rw [ht.last.2, hu.last.2]
  · rw [ht.root] at ha
    rw [hu.root] at hb
    rw [ht.name a (lt_of_root ha), hu.name b (lt_of_root hb)] at hab
    exact h.counterpart_of_name ha hb hab
  · rw [ht.root, hu.root]
    exact h.rel_root hab
  · rw [ht.size] at ha
    rcases Nat.lt_succ_iff_lt_or_eq.mp ha with ha | rfl
    · exact h.exists_counterpart ha
    · exact ⟨_, .next⟩
  · rw [hu.size] at hb
    rcases Nat.lt_succ_iff_lt_or_eq.mp hb with hb | rfl
    · obtain ⟨a, ha⟩ := h.symm.exists_counterpart hb
      exact ⟨a, ha.symm⟩
    · exact ⟨_, .next⟩
  · rw [ht.graph.next, hu.graph.next]
    exact hij.linked.next
  · rw [ht.graph.up, hu.graph.up]
    exact hij.linked.up
  · obtain ⟨a, b, hab, ha, hk, hi, hj⟩ := h.within hij
    exact ⟨a, b, hab, (ht.kind a ha).trans hk, ht.within hi, hu.within hj⟩
  · rw [ht.graph.size, hu.graph.size, h.size_eq]
  · rw [ht.eof, hu.eof, h.left.augments.eof, h.right.augments.eof]
    exact .old ((h.registered.mem .terminal _).mp h.registered.eof).1

end Table

end Lookahead
