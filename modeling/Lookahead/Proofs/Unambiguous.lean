import Lookahead.Proofs.Conflicts

/-!
# Grammars without conflicts

Where nothing is in conflict, the next terminal tells how to go on (`Table.Forced`). Two runs that
read the same word from the same stack can then differ in no move (`Table.Forcing.eq_of_run`), so a
word has one derivation (`Grammar.forced_of_analyze`).
-/

namespace Lookahead

namespace Table

variable {t : Table} {a b : SymbolId} {i : NodeId} {q q' : Option NodeId} {br br' : Branch}
  {x : Frame} {S X X' : Stack} {cs cs' : List Choice} {u u' w : List SymbolId}

/-- Behind two choices at one node, different terminals come next. -/
def Forcing (t : Table) : Prop :=
  ∀ a i br br' q q' b, b ∈ t.terminals → t.Options i br q → t.Options i br' q' →
    t.Comes a i q b → t.Comes a i q' b → br = br'

/-- A word of terminals has at most one derivation, and the next terminal tells which choice it
makes. -/
structure Forced (t : Table) : Prop where
  choice : t.Forcing
  unique : ∀ w, (∀ b ∈ w, b ∈ t.terminals) → ∀ cs cs', t.Derivation cs w → t.Derivation cs' w →
    cs = cs'

theorem Options.eq_of_eq (hq : t.Options i br q) (hq' : t.Options i br q') : q = q' := by
  cases hq with
  | @take _ _ p hk hp =>
    generalize hbr : Branch.take p.1 = br at hq'
    cases hq' with
    | take =>
      injection hbr with h
      rw [h]
    | _ => cases hbr
  | enter hk =>
    cases hq' with
    | enter hk' =>
      rcases hk with hk | hk <;> rcases hk' with hk' | hk' <;> cases hk.symm.trans hk' <;> rfl
  | leave =>
    cases hq' with
    | leave => rfl

/-! ### No conflicts -/

open Classical in
/-- At an option or iteration without conflict, no terminal can come next both inside and behind. -/
theorem not_comes_of_conflictsAt {sub : NodeId} (h : t.conflictsAt a i = [])
    (hk : t.graph.kind i = .opt sub ∨ t.graph.kind i = .iter sub) (hb : b ∈ t.terminals) :
    ¬ (t.Comes a i (some sub) b ∧ t.Comes a i (t.graph.next i) b) := by
  have hgroup : t.conflictsAt a i =
      if ∃ w, t.Spells (.group (some sub)) w ∧ t.Derives w [] then [t.ll1 a none .deletableContent]
      else (t.terminals.toList.filter fun b =>
        t.Comes a i (some sub) b ∧ t.Comes a i (t.graph.next i) b).map
          fun b => t.ll1 a (some b) .deletableAndSuccessor := by
    unfold conflictsAt
    rcases hk with hk | hk <;> rw [hk]
  rw [hgroup] at h
  split at h
  · cases h
  · intro hc
    exact List.filter_eq_nil_iff.mp (List.map_eq_nil_iff.mp h) b (Array.mem_toList_iff.mpr hb)
      (decide_eq_true hc)

open Classical in
/-- At alternatives without conflict, a terminal comes next behind one of them only. -/
theorem eq_of_alternatives {sub : NodeId} {down : Option NodeId} {p p' : NodeId × Option NodeId}
    (h : t.conflictsAt a i = []) (hk : t.graph.kind i = .alt sub down) (hb : b ∈ t.terminals)
    (hp : p ∈ t.graph.alternatives i) (hp' : p' ∈ t.graph.alternatives i)
    (hc : t.Comes a i (some p.1) b) (hc' : t.Comes a i (some p'.1) b) : p = p' := by
  unfold conflictsAt at h
  rw [hk] at h
  have hle := List.flatMap_eq_nil_iff.mp h b (Array.mem_toList_iff.mpr hb)
  rw [List.replicate_eq_nil_iff, List.countP_eq_length_filter] at hle
  have hm {p : NodeId × Option NodeId} (hp : p ∈ t.graph.alternatives i)
      (hc : t.Comes a i (some p.1) b) :
      p ∈ (t.graph.alternatives i).filter fun p => t.Comes a i (some p.1) b :=
    List.mem_filter.mpr ⟨hp, decide_eq_true hc⟩
  have hm' := hm hp' hc'
  have hm := hm hp hc
  rcases hl : (t.graph.alternatives i).filter fun p => t.Comes a i (some p.1) b with
    _ | ⟨x, _ | ⟨y, l⟩⟩
  · rw [hl] at hm
    cases hm
  · rw [hl, List.mem_singleton] at hm hm'
    rw [hm, hm']
  · rw [hl] at hle
    simp at hle

theorem eq_of_conflictsAt (h : t.conflictsAt a i = []) (hb : b ∈ t.terminals)
    (hq : t.Options i br q) (hq' : t.Options i br' q') (hc : t.Comes a i q b)
    (hc' : t.Comes a i q' b) : br = br' := by
  cases hq with
  | take hk hp =>
    cases hq' with
    | take hk' hp' => rw [eq_of_alternatives h hk hb hp hp' hc hc']
    | enter hk' | leave hk' => rcases hk' with hk' | hk' <;> cases hk.symm.trans hk'
  | @enter sub hk =>
    cases hq' with
    | take hk' => rcases hk with hk | hk <;> cases hk.symm.trans hk'
    | enter => rfl
    | leave => exact absurd ⟨hc, hc'⟩ (not_comes_of_conflictsAt h hk hb)
  | leave hk =>
    cases hq' with
    | take hk' => rcases hk with hk | hk <;> cases hk.symm.trans hk'
    | enter hk' => exact absurd ⟨hc', hc⟩ (not_comes_of_conflictsAt h hk' hb)
    | leave => rfl

/-! ### One run -/

/-- What a move from a node does, as the kind of the node has it. -/
theorem Move.of_kind (h : t.Move (a, some i) cs u X) : match t.graph.kind i with
    | .terminal b | .weak b => cs = [] ∧ u = [b] ∧ X = [(a, t.graph.next i)]
    | .any _ => cs = [] ∧ (∃ b, u = [b]) ∧ X = [(a, t.graph.next i)]
    | .nonterminal b => cs = [] ∧ u = [] ∧
        ∃ r, (t.symbol b).root = some r ∧ X = [(b, some r), (a, t.graph.next i)]
    | .alt _ _ | .opt _ | .iter _ => ∃ br q, t.Options i br q ∧ cs = [⟨i, br⟩] ∧ u = [] ∧
        X = [(a, q)]
    | _ => cs = [] ∧ u = [] ∧ X = [(a, t.graph.next i)] := by
  cases h with
  | terminal hk => rcases hk with hk | hk <;> rw [hk] <;> exact ⟨rfl, rfl, rfl⟩
  | any hk =>
    rw [hk]
    exact ⟨rfl, ⟨_, rfl⟩, rfl⟩
  | call hk hr =>
    rw [hk]
    exact ⟨rfl, rfl, _, hr, rfl⟩
  | blank hk =>
    generalize t.graph.kind i = k at hk
    cases k <;> first | exact ⟨rfl, rfl, rfl⟩ | cases hk
  | choose hq =>
    cases id hq with
    | take hk =>
      rw [hk]
      exact ⟨_, _, hq, rfl, rfl, rfl⟩
    | enter hk | leave hk =>
      rcases hk with hk | hk <;> rw [hk] <;> exact ⟨_, _, hq, rfl, rfl, rfl⟩

/-- Two moves from one frame are choices at the same node, or the same move, up to the terminal that
a wildcard reads. -/
theorem Move.eq_or_choose (hx : t.Move x cs u X) (hx' : t.Move x cs' u' X') :
    (cs = cs' ∧ u.length = u'.length ∧ X = X') ∨ ∃ a i br br' q q', x = (a, some i) ∧
      t.Options i br q ∧ t.Options i br' q' ∧ (cs = [⟨i, br⟩] ∧ u = [] ∧ X = [(a, q)]) ∧
        cs' = [⟨i, br'⟩] ∧ u' = [] ∧ X' = [(a, q')] := by
  obtain ⟨a, _ | i⟩ := x
  · cases hx
    cases hx'
    exact .inl ⟨rfl, rfl, rfl⟩
  have h := hx.of_kind
  have h' := hx'.of_kind
  cases hk : t.graph.kind i <;> rw [hk] at h h'
  case alt | opt | iter =>
    obtain ⟨br, q, hq, h⟩ := h
    obtain ⟨br', q', hq', h'⟩ := h'
    exact .inr ⟨a, i, br, br', q, q', rfl, hq, hq', h, h'⟩
  case nonterminal =>
    obtain ⟨rfl, rfl, r, hr, rfl⟩ := h
    obtain ⟨rfl, rfl, r', hr', rfl⟩ := h'
    cases hr.symm.trans hr'
    exact .inl ⟨rfl, rfl, rfl⟩
  case any =>
    obtain ⟨rfl, ⟨b, rfl⟩, rfl⟩ := h
    obtain ⟨rfl, ⟨b', rfl⟩, rfl⟩ := h'
    exact .inl ⟨rfl, rfl, rfl⟩
  all_goals
    obtain ⟨rfl, rfl, rfl⟩ := h
    obtain ⟨rfl, rfl, rfl⟩ := h'
    exact .inl ⟨rfl, rfl, rfl⟩

theorem exists_upcoming (he : t.eof ∈ t.terminals) (hw : ∀ b ∈ w, b ∈ t.terminals) :
    ∃ b ∈ t.terminals, (w ++ [t.eof]).head? = some b := by
  cases w with
  | nil => exact ⟨_, he, rfl⟩
  | cons b w => exact ⟨b, hw b (by simp), rfl⟩

/-- Runs to the end that read the same word make the same choices: at each node, the next terminal
of the word comes next behind both. -/
theorem Forcing.eq_of_run (hf : t.Forcing) (he : t.eof ∈ t.terminals)
    (hw : ∀ b ∈ w, b ∈ t.terminals) (hS : t.Arrives S) (h : t.Run S cs w [])
    (h' : t.Run S cs' w []) : cs = cs' := by
  generalize hE : ([] : Stack) = E at h
  induction h generalizing cs' with
  | stop =>
    subst hE
    exact (run_nil_iff.mp h').1.symm
  | @move x X S E cs ds u v hx h ih =>
    subst hE
    generalize hT : x :: S = T at h'
    generalize hW : u ++ v = W at h'
    generalize hE : ([] : Stack) = E at h'
    cases h' with
    | stop =>
      subst hE
      cases hT
    | @move x X' S' _ cs' ds' u' v' hx' h' =>
      subst hE
      obtain ⟨rfl, rfl⟩ := List.cons_eq_cons.mp hT
      have harr := hS.run (.of_move hx _)
      have hv : ∀ b ∈ v, b ∈ t.terminals := fun b hb => hw b (by simp [hb])
      rcases hx.eq_or_choose hx' with ⟨rfl, hlen, rfl⟩ | ⟨a, i, br, br', q, q', rfl, hq, hq',
        ⟨rfl, rfl, rfl⟩, rfl, rfl, rfl⟩
      · obtain ⟨-, rfl⟩ := List.append_inj hW hlen
        rw [ih hv harr h' rfl]
      · obtain rfl : v = v' := hW
        obtain ⟨b, hb, hhead⟩ := exists_upcoming he hv
        obtain rfl := hf a i br br' q q' b hb hq hq' ⟨S, hS, _, _, h, hhead⟩
          ⟨S, hS, _, _, h', hhead⟩
        obtain rfl := hq.eq_of_eq hq'
        rw [ih hv harr h' rfl]

/-- Where nothing is in conflict, derivations are forced. -/
theorem Formed.forced (ht : t.Formed)
    (h : ∀ a ∈ t.nonterminals, ∀ i, t.Passed a i → t.conflictsAt a i = []) : t.Forced := by
  have hf : t.Forcing := by
    intro a i br br' q q' b hb hq hq' hc hc'
    obtain ⟨S, hS, -⟩ := id hc
    obtain ⟨hcall, hi⟩ := hS.upheld ht
    exact eq_of_conflictsAt (h a (hcall.mem_nonterminals ht) i (hi i rfl)) hb hq hq' hc hc'
  refine ⟨hf, fun w hw cs cs' h h' => ?_⟩
  obtain ⟨s, r, hs, hr, h⟩ := h
  obtain ⟨s', r', hs', hr', h'⟩ := h'
  cases hs.symm.trans hs'
  cases hr.symm.trans hr'
  exact hf.eq_of_run ht.registered.eof hw ⟨s, r, _, _, hs, hr, .stop _⟩ h h'

end Table

namespace Grammar

variable {source : String} {cfg : Config} {log log' : Log} {g : Grammar}

/-- A grammar about which there are no warnings is unambiguous. -/
theorem forced_of_analyze (h : (Grammar.parse source cfg log).2 = .ok g)
    (hg : g.table.graph.isPlain = true) (ha : (g.analyze log').2.2 = true)
    (hc : (g.analyze log').2.1.table.checkConflicts.reports = []) :
    (g.analyze log').2.1.table.Forced := by
  obtain ⟨ht, hr, hany, hres⟩ := computed_of_analyze h hg ha
  have hnil := ht.reports_checkConflicts hr hany hres
  rw [hc] at hnil
  have hnil := List.nil_perm.mp hnil
  refine ht.formed.forced fun a ha i hi => ?_
  have hproduction := List.flatMap_eq_nil_iff.mp hnil a (Array.mem_toList_iff.mpr ha)
  exact List.flatMap_eq_nil_iff.mp hproduction i (ht.formed.mem_places.mpr hi)

/-- Terms in parentheses. -/
def nested : String :=
  "COMPILER Nested\nPRODUCTIONS\n" ++
    "Nested = \"n\" | \"(\" Nested \x7b \"+\" Nested \x7d [ \";\" ] \")\".\nEND Nested."

set_option maxRecDepth 100000 in
theorem accepted_nested : ∃ g, (Grammar.parse nested default {}).2 = .ok g ∧
    (g.table.graph.isPlain && (g.analyze {}).2.2 &&
      (g.analyze {}).2.1.table.checkConflicts.reports.isEmpty) = true :=
  exists_ok_of_any (by decide +kernel)

theorem forced_nested : ∃ g, (Grammar.parse nested default {}).2 = .ok g ∧
    (g.analyze {}).2.1.table.checkConflicts.reports = [] ∧ (g.analyze {}).2.1.table.Forced := by
  obtain ⟨g, hg, h⟩ := accepted_nested
  obtain ⟨h, hnil⟩ := (Bool.and_eq_true ..).mp h
  obtain ⟨hplain, hok⟩ := (Bool.and_eq_true ..).mp h
  have hnil := List.isEmpty_iff.mp hnil
  exact ⟨g, hg, hnil, forced_of_analyze hg hplain hok hnil⟩

end Grammar

end Lookahead
