import Lookahead.Proofs.HaltingChecks
import Lookahead.Proofs.Unique

/-!
# Reachability is exact

A walk through a group marks what its nodes mention, and all that is mentioned from there on
(`Table.Formed.toured_reachFrom`). So the marked nonterminals are those that occur in some form that
the start symbol derives (`Table.Formed.get_reached_iff`), and the check reports the others, each of
them once (`Grammar.unreachable_of_parse`).
-/

namespace Lookahead

namespace Table

variable {t u : Table} {a b c : SymbolId} {i : NodeId} {q : Option NodeId} {m n l : IndexSet}
  {k : Nat}

/-! ### What productions mention -/

/-- There is a node for `b` in the production of `a`. -/
def Mentions (t : Table) (a b : SymbolId) : Prop :=
  ∃ i, t.Within a i ∧ t.graph.kind i = .nonterminal b

/-- The nonterminal occurs in a form that the start symbol derives. -/
def Occurs (t : Table) (a : SymbolId) : Prop :=
  ∃ s f, t.start = some s ∧ t.Derives [.nonterminal s] f ∧ .nonterminal a ∈ f

theorem Mentions.mem_nonterminals (ht : t.Formed) (h : t.Mentions a b) : b ∈ t.nonterminals := by
  obtain ⟨i, -, hk⟩ := h
  exact ht.allows_nonterminal hk

/-- What is read from a production is mentioned in it. -/
theorem Spells.mentions {P : Part} {f : Form} (h : t.Spells P f)
    (hP : ∀ i ∈ P.start, t.Within a i) : ∀ c, .nonterminal c ∈ f → t.Mentions a c := by
  induction h with
  | nonterminal hk =>
    intro c hc
    cases List.mem_singleton.mp hc
    exact ⟨_, hP _ rfl, hk⟩
  | content hk _ ih => exact ih fun j hj => (hP _ rfl).sub (by rw [hk]; exact hj)
  | alternative hk _ ih => exact ih fun j hj => (hP _ rfl).sub (by rw [hk]; exact hj)
  | other hk _ ih => exact ih fun j hj => (hP _ rfl).down (by rw [hk]; exact hj)
  | again hk _ _ ihu ihv =>
    intro c hc
    exact (List.mem_append.mp hc).elim
      (ihu (fun j hj => (hP _ rfl).sub (by rw [hk]; exact hj)) c) (ihv hP c)
  | groupLast _ _ ih => exact ih hP
  | groupStep _ _ _ ihu ihv | restStep _ _ ihu ihv =>
    intro c hc
    exact (List.mem_append.mp hc).elim (ihu hP c) (ihv (fun j hj => (hP _ rfl).next hj) c)
  | _ => simp

theorem Produces.mentions {f : Form} (h : t.Produces a f) (hc : .nonterminal c ∈ f) :
    t.Mentions a c := by
  obtain ⟨r, hr, h⟩ := h
  exact h.mentions (fun i hi => .root (hr.trans hi)) c hc

/-- A node spells what its content does. -/
theorem Spells.of_body {loop : Bool} {body others : Shape} {f : Form}
    (h : t.Spells (.group body.entry) f)
    (hr : Shape.Refers t.graph (t.graph.kind i) loop body others) (hb : body ≠ .nil) :
    t.Spells (.node i) f := by
  have he := hr.entry_body
  cases hk : t.graph.kind i with
  | opt sub =>
    rw [he, hk] at h
    exact .content hk h
  | iter sub =>
    rw [he, hk] at h
    rw [← List.append_nil f]
    exact .again hk h (.stop hk)
  | alt sub down =>
    rw [he, hk] at h
    exact .alternative hk h
  | _ =>
    rw [hk] at he
    exact absurd (Shape.entry_eq_none.mp (show body.entry = none from he)) hb

/-- A node spells what its other alternatives do. -/
theorem Spells.of_others {p : Option NodeId → Prop} {loop : Bool} {body others : Shape} {f : Form}
    (h : t.Spells (.group others.entry) f)
    (hr : Shape.Refers t.graph (t.graph.kind i) loop body others)
    (ho : others.Fits t.graph p true) (hne : others ≠ .nil) : t.Spells (.node i) f := by
  have he := hr.entry_others
  cases others with
  | nil => exact absurd rfl hne
  | node x _ _ _ _ =>
    cases hk : t.graph.kind i with
    | alt sub down =>
      rw [hk] at hr he
      obtain ⟨-, -, -, rfl, -⟩ := hr
      obtain rfl : some x = down := he
      exact .other hk ((spells_group_last ho.2.1.of_nil.2).mp h)
    | _ =>
      rw [hk] at he
      cases he

/-- Whatever node of a group is for a nonterminal, the group spells a form with it. -/
theorem exists_spells_mentioning (hw : t.Wild) (ha : ∀ i, t.Allows (t.graph.kind i))
    {s : Shape} {up : Bool} (hs : s.Fits t.graph (· = q) up) (hq : up = false → q = none)
    (hi : i ∈ s.nodes) (hk : t.graph.kind i = .nonterminal c) :
    ∃ f, t.Spells (.group s.entry) f ∧ .nonterminal c ∈ f := by
  induction s generalizing q up with
  | nil => simp [Shape.nodes] at hi
  | node j loop body others rest ihb iho ihr =>
    have hnodes := (exists_spells_fits hw ha hs hq).2
    have hb := hs.body
    have ho := hs.others
    obtain ⟨hf, hl, -, -, hr⟩ := hs
    obtain ⟨⟨v, hv⟩, -⟩ := exists_spells_fits hw ha hr hq
    have hnode (hj : ∃ f, t.Spells (.node j) f ∧ .nonterminal c ∈ f) :
        ∃ f, t.Spells (.group (some j)) f ∧ .nonterminal c ∈ f := by
      obtain ⟨f, hf, hc⟩ := hj
      obtain ⟨g, hg⟩ := exists_spells_group hl hq hf hv
      exact ⟨f ++ g, hg, List.mem_append_left g hc⟩
    simp only [Shape.nodes, List.mem_cons, List.mem_append] at hi
    rw [Shape.entry]
    rcases hi with rfl | hi | hi | hi
    · exact hnode ⟨_, .nonterminal hk, List.mem_singleton_self _⟩
    · have hne : body ≠ .nil := fun hn => by simp [hn, Shape.nodes] at hi
      obtain ⟨f, hu, hc⟩ := ihb hb (by simp) hi
      exact hnode ⟨f, hu.of_body hf hne, hc⟩
    · have hne : others ≠ .nil := fun hn => by simp [hn, Shape.nodes] at hi
      obtain ⟨f, hu, hc⟩ := iho ho (by simp) hi
      exact hnode ⟨f, hu.of_others hf ho hne, hc⟩
    · have hne : rest ≠ .nil := fun hn => by simp [hn, Shape.nodes] at hi
      obtain ⟨hnext, hup⟩ := hl.of_ne hne
      obtain ⟨f, hu, hc⟩ := ihr hr hq hi
      obtain ⟨g, hg⟩ := hnodes j (by simp [Shape.nodes])
      exact ⟨g ++ f, .groupStep hup hg (by rwa [hnext]), List.mem_append_right g hc⟩

/-- A production can be read with whatever it mentions. -/
theorem Formed.exists_produces (ht : t.Formed) (hw : t.Wild) (h : t.Mentions a c) :
    ∃ f, t.Produces a f ∧ .nonterminal c ∈ f := by
  obtain ⟨i, hi, hk⟩ := h
  obtain ⟨r, s, hr, hs, hi⟩ := ht.within_iff.mp hi
  obtain ⟨f, hf, hc⟩ := exists_spells_mentioning hw ht.allows hs.fits (fun _ => rfl) hi hk
  rw [hs.entry] at hf
  exact ⟨f, ht.produces_of_group hr hf, hc⟩

/-- What is mentioned where something occurs occurs as well. -/
theorem Formed.occurs_mentioned (ht : t.Formed) (hw : t.Wild) (h : t.Occurs a)
    (hc : t.Mentions a c) : t.Occurs c := by
  obtain ⟨s, f, hs, hd, hf⟩ := h
  obtain ⟨x, y, rfl⟩ := List.append_of_mem hf
  obtain ⟨g, hg, hc⟩ := ht.exists_produces hw hc
  exact ⟨s, x ++ (g ++ y), hs, hd.tail (.intro x y hg), by simp [hc]⟩

theorem Formed.occurs_of_calls {S : Stack} (ht : t.Formed) (hw : t.Wild) (h : t.Calls a S) :
    t.Occurs a := by
  induction h with
  | start hs => exact ⟨_, _, hs, .refl _, List.mem_singleton_self _⟩
  | call _ hi hk ih => exact ht.occurs_mentioned hw ih ⟨_, hi, hk⟩

/-! ### The walk -/

/-- A nonterminal with the index `j` mentions one with the index `k`. -/
def MentionsAt (t : Table) (j k : Nat) : Prop :=
  ∃ b ∈ t.nonterminals, ∃ c, t.Mentions b c ∧ (t.symbol b).index = j ∧ (t.symbol c).index = k

/-- The walk from the marks `m` to the marks `n` has passed the nodes of `N`, and has gone on with
every production that it came upon. -/
structure Toured (t : Table) (N : List NodeId) (m n : IndexSet) : Prop where
  walk : IndexSet.Marking t.MentionsAt (fun _ => True) none m n
  marked : ∀ i ∈ N, ∀ b, t.graph.kind i = .nonterminal b → n.get (t.symbol b).index = true

theorem Toured.nil (t : Table) (m : IndexSet) : Toured t [] m m := ⟨.refl m, by simp⟩

theorem Toured.append {N M : List NodeId} (h : Toured t N m n) (h' : Toured t M n l) :
    Toured t (N ++ M) m l where
  walk := h.walk.trans h'.walk
  marked i hi b hk := by
    rcases List.mem_append.mp hi with hi | hi
    · exact h'.walk.mono _ (h.marked i hi b hk)
    · exact h'.marked i hi b hk

/-- A walk with that much fuel passes all nodes of a group. -/
def Tours (t : Table) (k : Nat) : Prop :=
  ∀ (s : Shape) (q : Option NodeId) (up : Bool) (m : IndexSet), s.Fits t.graph (· = q) up →
    (up = false → q = none) → m.size = t.nonterminalCount →
      m.unmarked * (t.graph.size + 1) + s.nodes.length < k →
        Toured t s.nodes m (t.reachFrom k s.entry m)

theorem reachFrom_none (t : Table) (k : Nat) (m : IndexSet) : t.reachFrom k none m = m := by
  cases k <;> rfl

/-- At a node for no nonterminal the walk goes through the content and the other alternatives. -/
theorem reachNode_of_ne (h : ∀ b, t.graph.kind i ≠ .nonterminal b) (k : Nat) (m : IndexSet) :
    t.reachNode k i m =
      t.reachFrom k (t.graph.kind i).down? (t.reachFrom k (t.graph.kind i).sub? m) := by
  unfold reachNode
  cases hk : t.graph.kind i with
  | nonterminal b => exact absurd hk (h b)
  | _ => simp [NodeKind.sub?, NodeKind.down?, reachFrom_none]

/-- A nonterminal that is marked for the first time leads the walk through its production. -/
theorem Tours.production (hk : Tours t k) (ht : t.Formed) (ha : a ∈ t.nonterminals)
    (hm : m.size = t.nonterminalCount) (hn : m.get (t.symbol a).index = false)
    (hf : (m.insert (t.symbol a).index).unmarked * (t.graph.size + 1) + t.graph.size < k) :
    IndexSet.Marking t.MentionsAt (fun _ => True) none m
        (t.reachFrom k (t.symbol a).root (m.insert (t.symbol a).index)) ∧
      (t.reachFrom k (t.symbol a).root (m.insert (t.symbol a).index)).get (t.symbol a).index =
        true := by
  have hlt : (t.symbol a).index < m.size :=
    hm ▸ ht.registered.index_lt_size (k := .nonterminal) (by decide) ha
  have hmark : IndexSet.Marking t.MentionsAt (fun _ => True) (some (t.symbol a).index) m _ :=
    .mark hlt hn trivial
  have htour : IndexSet.Marking t.MentionsAt (fun _ => True) none (m.insert (t.symbol a).index)
        (t.reachFrom k (t.symbol a).root (m.insert (t.symbol a).index)) ∧
      ∀ c, t.Mentions a c →
        (t.reachFrom k (t.symbol a).root (m.insert (t.symbol a).index)).get (t.symbol c).index =
          true := by
    cases hr : (t.symbol a).root with
    | none =>
      rw [reachFrom_none]
      refine ⟨.refl _, fun c ⟨i, hi, _⟩ => ?_⟩
      obtain ⟨r, -, hr', -⟩ := ht.within_iff.mp hi
      cases hr.symm.trans hr'
    | some r =>
      obtain ⟨s, hs⟩ := ht.laid a r hr
      have hlen := length_nodes_lt hs (List.Sublist.refl _)
      have h := hk s none false (m.insert (t.symbol a).index) hs.fits (fun _ => rfl)
        (IndexSet.size_insert.trans hm) (by omega)
      rw [hs.entry] at h
      refine ⟨h.walk, fun c ⟨i, hi, hc⟩ => ?_⟩
      exact h.marked i ((within_iff_of_closed hr hs).mp hi) c hc
  have hwalk := hmark.trans htour.1
  refine ⟨hwalk.close ?_, hwalk.marked _ rfl⟩
  rintro _ ⟨b, hb, c, hc, hindex, rfl⟩
  obtain rfl := ht.registered.index_inj (k := .nonterminal) (by decide) hb ha hindex
  exact htour.2 c hc

/-- A node for a nonterminal that leaves it marked has been passed. -/
theorem Toured.here (hk : t.graph.kind i = .nonterminal b)
    (hwalk : IndexSet.Marking t.MentionsAt (fun _ => True) none m n)
    (hn : n.get (t.symbol b).index = true) : Toured t [i] m n where
  walk := hwalk
  marked j hj c hc := by
    rw [List.mem_singleton.mp hj, hk] at hc
    cases hc
    exact hn

/-- The walk through a node passes all nodes inside it. -/
theorem Tours.node (hk : Tours t k) (ht : t.Formed) {loop up : Bool} {body others rest : Shape}
    (hs : (Shape.node i loop body others rest).Fits t.graph (· = q) up)
    (hm : m.size = t.nonterminalCount)
    (hf : m.unmarked * (t.graph.size + 1) + (body.nodes.length + others.nodes.length) < k) :
    Toured t (i :: (body.nodes ++ others.nodes)) m (t.reachNode k i m) := by
  have hb := hs.body
  have ho := hs.others
  obtain ⟨hr, -, -, -, -⟩ := hs
  by_cases hn : ∃ b, t.graph.kind i = .nonterminal b
  · obtain ⟨b, hkind⟩ := hn
    rw [hkind] at hr
    obtain ⟨-, rfl, rfl⟩ := hr
    have hmem := ht.allows_nonterminal hkind
    unfold reachNode
    rw [hkind]
    dsimp only
    split
    · exact .here hkind (.refl m) ‹_›
    · rename_i hget
      have hget : m.get (t.symbol b).index = false := by simpa using hget
      have hlt : (t.symbol b).index < m.size :=
        hm ▸ ht.registered.index_lt_size (k := .nonterminal) (by decide) hmem
      -- the mark that is new pays for the walk through the production
      have hless := Nat.mul_le_mul_right (t.graph.size + 1) (IndexSet.unmarked_insert hlt hget)
      rw [Nat.succ_mul] at hless
      obtain ⟨hwalk, hmark⟩ := hk.production ht hmem hm hget (by omega)
      exact .here hkind hwalk hmark
  · rw [reachNode_of_ne (fun b hk => hn ⟨b, hk⟩), ← hr.entry_body, ← hr.entry_others]
    have hhere : Toured t [i] m m := ⟨.refl m, fun j hj b hk =>
      absurd ⟨b, List.mem_singleton.mp hj ▸ hk⟩ hn⟩
    have hbody := hk body _ _ m hb (by simp) hm (by omega)
    have hfuel := Nat.mul_le_mul_right (t.graph.size + 1) hbody.walk.unmarked_le
    have hothers := hk others _ _ _ ho (by simp) (hbody.walk.size.trans hm) (by omega)
    exact hhere.append (hbody.append hothers)

/-- A walk passes all nodes of a group, and the productions of all that it marks on the way. Between
two new marks it is no longer than the graph is large. -/
theorem Formed.toured_reachFrom (ht : t.Formed) (k : Nat) : Tours t k := by
  induction k with
  | zero => exact fun s q up m _ _ _ hf => absurd hf (Nat.not_lt_zero _)
  | succ k ih =>
    intro s q up m hs hq hm hf
    cases s with
    | nil => exact .nil t m
    | node i loop body others rest =>
      simp only [Shape.nodes, List.length_cons, List.length_append] at hf
      have hnode := ih.node ht hs hm (by omega)
      have hfuel := Nat.mul_le_mul_right (t.graph.size + 1) hnode.walk.unmarked_le
      have hwhole : Shape.nodes (.node i loop body others rest) =
          i :: (body.nodes ++ others.nodes) ++ rest.nodes := by
        simp [Shape.nodes]
      rw [Shape.entry, reachFrom_some, hwhole]
      refine hnode.append ?_
      obtain ⟨-, hl, -, -, hx⟩ := hs
      by_cases hn : rest = .nil
      · obtain ⟨hnext, hup⟩ := (hn ▸ hl).of_nil
        have hend : (if (t.node i).up then t.reachNode k i m
            else t.reachFrom k (t.node i).next (t.reachNode k i m)) = t.reachNode k i m := by
          cases up with
          | true => exact if_pos hup
          | false =>
            rw [show (t.node i).next = none from hnext.trans (hq rfl), reachFrom_none, ite_self]
        rw [hend, hn]
        exact .nil t _
      · obtain ⟨hnext, hup⟩ := hl.of_ne hn
        rw [if_neg (by rw [show (t.node i).up = false from hup]; exact Bool.false_ne_true),
          show (t.node i).next = rest.entry from hnext]
        exact ih rest q up _ hx hq (hnode.walk.size.trans hm) (by omega)

/-! ### The marks -/

variable (ht : t.Formed)
include ht

/-- From the start symbol the walk goes to all that is mentioned. -/
theorem Formed.marking_reached {s : SymbolId} (hs : t.start = some s) :
    IndexSet.Marking t.MentionsAt (fun _ => True) none (.empty t.nonterminalCount) t.reached ∧
      t.reached.get (t.symbol s).index = true := by
  have hreached : t.reached = t.reachFrom ((t.nonterminalCount + 1) * (t.graph.size + 1))
      (t.symbol s).root ((IndexSet.empty t.nonterminalCount).insert (t.symbol s).index) := by
    rw [reached, hs]
  have hunmarked : ((IndexSet.empty t.nonterminalCount).insert (t.symbol s).index).unmarked ≤
      t.nonterminalCount :=
    (IndexSet.unmarked_le_size _).trans_eq (IndexSet.size_insert.trans (IndexSet.size_empty _))
  rw [hreached]
  refine (ht.toured_reachFrom _).production ht (ht.registered.start s hs) (IndexSet.size_empty _)
    (IndexSet.get_empty ..) ?_
  have := Nat.mul_le_mul_right (t.graph.size + 1) hunmarked
  rw [Nat.succ_mul]
  omega

theorem Formed.get_reached_of_occurs (h : t.Occurs a) :
    t.reached.get (t.symbol a).index = true := by
  obtain ⟨s, f, hs, hd, ha⟩ := h
  obtain ⟨hwalk, hstart⟩ := ht.marking_reached hs
  -- along a derivation all nonterminals are marked
  have hall : ∀ b, .nonterminal b ∈ f →
      b ∈ t.nonterminals ∧ t.reached.get (t.symbol b).index = true := by
    clear ha
    induction hd with
    | refl =>
      intro b hb
      cases List.mem_singleton.mp hb
      exact ⟨ht.registered.start s hs, hstart⟩
    | tail _ hstep ih =>
      obtain @⟨x, c, v, y, hv⟩ := hstep
      obtain ⟨hc, hmark⟩ := ih c (by simp)
      intro b hb
      simp only [List.mem_append] at hb
      rcases hb with hb | hb | hb
      · exact ih b (by simp [hb])
      · have hmention := hv.mentions hb
        refine ⟨hmention.mem_nonterminals ht, ?_⟩
        exact hwalk.closed _ _ ⟨hmark, IndexSet.get_empty ..⟩ nofun ⟨c, hc, b, hmention, rfl, rfl⟩
      · exact ih b (by simp [hb])
  exact (hall a ha).2

/-- The marked nonterminals are those that occur in a form that the start symbol derives. -/
theorem Formed.get_reached_iff (hw : t.Wild) (ha : a ∈ t.nonterminals) :
    t.reached.get (t.symbol a).index = true ↔ t.Occurs a := by
  refine ⟨fun h => ?_, ht.get_reached_of_occurs⟩
  obtain ⟨S, hS⟩ := ht.called_reached a ha h
  exact ht.occurs_of_calls hw hS

open Classical in
theorem Formed.checkReached_eq (hw : t.Wild) : t.checkReached.events =
      (t.nonterminals.toList.filter fun a => ¬ t.Occurs a).map (fun a =>
        .report (.error (.unreachable (t.symbol a).name))) ∧
    (t.checkReached.value = true ↔ ∀ a ∈ t.nonterminals, t.Occurs a) := by
  refine ⟨?_, ?_⟩
  · simp only [checkReached, reportUnless, nonterminalSymbols, List.filter_map, List.map_map]
    refine congrArg _ (List.filter_congr fun a ha => ?_)
    have := ht.get_reached_iff hw (Array.mem_toList_iff.mp ha)
    rw [Bool.eq_iff_iff, decide_eq_true_eq, ← this]
    simp
  · exact value_reportUnless.trans (forall₂_congr fun a ha => ht.get_reached_iff hw ha)

omit ht in
/-- The check looks at what has been declared only. -/
theorem SameDeclared.checkReached (h : SameDeclared t u) : u.checkReached = t.checkReached := by
  have hwalk (k : Nat) (p : Option NodeId) (m : IndexSet) :
      u.reachFrom k p m = t.reachFrom k p m := by
    induction k generalizing p m with
    | zero => rfl
    | succ k ih =>
      cases p with
      | none => rfl
      | some i =>
        have hup : (u.node i).up = (t.node i).up := h.graph.up i
        have hnext : (u.node i).next = (t.node i).next := h.graph.next i
        have hnode : u.reachNode k i m = t.reachNode k i m := by
          unfold reachNode
          rcases h.graph.kind_cases i with hk | ⟨x, y, hu, ht⟩ | ⟨x, y, hu, ht⟩
          · rw [hk]
            simp only [h.index, h.root, ih]
          · rw [hu, ht]
          · rw [hu, ht]
        rw [reachFrom_some, reachFrom_some, hup, hnext, hnode, ih]
  have hmarks : u.reached = t.reached := by
    unfold reached nonterminalCount
    rw [h.start, h.nonterminals, h.graph.size]
    simp only [h.index, h.root, hwalk]
  unfold Table.checkReached reportUnless nonterminalSymbols
  simp only [hmarks, h.nonterminals, List.filter_map, List.map_map, List.isEmpty_map,
    Function.comp_def, h.index, h.name]

end Table

/-- The nonterminals of a definition without faults all have names of their own. -/
theorem Definition.nodup_names {d : Definition} (hw : d.sections.Worded)
    (hd : d.table.reports = []) :
    (d.table.value.nonterminals.toList.map fun a => (d.table.value.symbol a).name).Nodup := by
  obtain ⟨hsilent, s, hs⟩ := reports_table_eq_nil.mp hd
  have hdistinct := Sections.distinct_declare hw hsilent
  obtain ⟨hc, -⟩ := completes_table hs
  have hnone := (Table.find?_eq_none_iff hdistinct.registered).mpr fun s hs _ =>
    hdistinct.valid s hs
  have hfirst := hdistinct.first_of_find hnone hc.size hc.kind hc.name hc.last.2
  have hreg := d.formed_table.1.registered
  have hlisted {a : SymbolId} (ha : a ∈ d.table.value.nonterminals.toList) :=
    (hreg.mem .nonterminal a).mp (Array.mem_toList_iff.mp ha)
  have hne {r s : SymbolId} (hr : r ∈ d.table.value.nonterminals.toList)
      (hs : s ∈ d.table.value.nonterminals.toList)
      (he : (d.table.value.symbol r).name = (d.table.value.symbol s).name) : ¬ r < s := by
    intro hlt
    cases (hlisted hr).2.symm.trans (hfirst s (hlisted hs).1 r hlt he)
  refine (List.nodup_map_iff_inj_on (hreg.nodup_listed (k := .nonterminal) (by decide))).mpr ?_
  intro r hr s hs he
  exact Nat.le_antisymm (Nat.le_of_not_lt (hne hs hr he.symm)) (Nat.le_of_not_lt (hne hr hs he))

namespace Grammar

variable {source : String} {cfg : Config} {log : Log} {g : Grammar}

open Classical in
/-- If a text is read without an error, the check reports the nonterminals that occur in no form
that the start symbol derives, each of them once and in the order of declaration, and passes if
there are none. It finds the same before and after the sets are computed. -/
theorem unreachable_of_parse (hg : (Grammar.parse source cfg log).2 = .ok g)
    (hlog : (Grammar.parse source cfg log).1.errorCount = log.errorCount) :
    g.table.checkReached.events =
        (g.table.nonterminals.toList.filter fun a =>
          ¬ ∃ s f, g.table.start = some s ∧ g.table.Derives [.nonterminal s] f ∧
            .nonterminal a ∈ f).map (fun a =>
              .report (.error (.unreachable (g.table.symbol a).name))) ∧
      (g.table.nonterminals.toList.map fun a => (g.table.symbol a).name).Nodup ∧
      (g.table.checkReached.value = true ↔ ∀ a ∈ g.table.nonterminals,
        ∃ s f, g.table.start = some s ∧ g.table.Derives [.nonterminal s] f ∧
          .nonterminal a ∈ f) ∧
      g.table.computeSets.value.checkReached = g.table.checkReached := by
  obtain ⟨ht, -, hw⟩ := formed_parse hg
  obtain ⟨hevents, hvalue⟩ := ht.checkReached_eq hw
  refine ⟨hevents, ?_, hvalue, ht.sameDeclared_computeSets.checkReached⟩
  obtain ⟨d, hd, rfl⟩ := exists_read hg
  exact Definition.nodup_names (Definition.worded_of_read hd) (reports_of_errorCount_eq hd hlog)

/-- Nonterminals mentioned in groups of all kinds, and two that mention each other only. -/
def secluded : String :=
  "COMPILER A\nPRODUCTIONS\nA = \x7b \"x\" [ \"y\" | ( \"z\" | B ) \"u\" ] \x7d.\nB = \"b\" [C].\n" ++
    "C = \"c\" \x7b C \x7d.\nD = \"d\" E.\nE = [D] B.\nEND A."

set_option maxRecDepth 100000 in
open Classical in
/-- The check reports the latter two. -/
theorem unreachable_secluded : ∃ g, (Grammar.parse secluded default {}).2 = .ok g ∧
    (Grammar.parse secluded default {}).1.errorCount = Log.errorCount {} ∧
    ((g.table.nonterminals.toList.filter fun a =>
      ¬ ∃ s f, g.table.start = some s ∧ g.table.Derives [.nonterminal s] f ∧
        .nonterminal a ∈ f).map fun a => (g.table.symbol a).name) = ["D", "E"] := by
  obtain ⟨g, hg, h⟩ := exists_ok_of_any (x := (Grammar.parse secluded default {}).2)
    (P := fun g => g.table.checkReached.reports ==
      [.error (.unreachable "D"), .error (.unreachable "E")]) (by decide +kernel)
  have hlog : (Grammar.parse secluded default {}).1.errorCount = Log.errorCount {} := by
    decide +kernel
  obtain ⟨hevents, -⟩ := unreachable_of_parse hg hlog
  refine ⟨g, hg, hlog, ?_⟩
  have hnames := beq_iff_eq.mp h
  rw [Noted.reports, hevents, List.filterMap_map] at hnames
  have hinj : Function.Injective fun n => Diagnostic.error (.unreachable n) := fun m n h => by
    cases h
    rfl
  refine hinj.list_map (Eq.trans ?_ hnames)
  rw [List.map_map, ← List.filterMap_eq_map]
  rfl

end Grammar

end Lookahead
