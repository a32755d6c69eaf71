import Lookahead.Proofs.HaltingChecks
import Lookahead.Proofs.HaltingProductions

/-!
# Reading and analysing come to an end

Nothing that a definition makes of its graphs goes round for ever: the graph of every expression is
built in finitely many steps, whatever its atoms are (`Expr.build?_eq`), and so is the table of
every definition (`Definition.table?_eq`). In the table of a grammar that can be read all walks and
loops of the analysis come to an end (`Table.Halts`), and what they find is what the analysis finds
(`Grammar.halts_of_parse`).
-/

namespace Lookahead

namespace Table

/-- The walks of the analysis come to an end wherever in a production they start, with whatever
marks, and its loops with whatever they have found so far. -/
structure Halts (t : Table) : Prop where
  rest : ∀ p, (∀ i ∈ p, t.Inside i) → (t.restDeletable? .unchecked p).isSome
  group : ∀ p, (∀ i ∈ p, t.Inside i) → (t.groupDeletable? .unchecked p).isSome
  first : ∀ p m, (∀ i ∈ p, t.Inside i) → m.size = t.graph.size →
    (t.firstFrom? .unchecked p m).isSome
  leading : ∀ p, (∀ i ∈ p, t.Inside i) → (t.leadingWildcard? .unchecked p).isSome
  restrict : ∀ p es, (∀ i ∈ p, t.Inside i) → (restrictFrom? .unchecked t p es).isSome
  follow : ∀ a p m es, (∀ i ∈ p, t.Inside i) → m.size = t.graph.size →
    (followFrom? .unchecked a (t, m) p es).isSome
  complete : ∀ r, ∀ a ∈ t.nonterminals, ∀ m : IndexSet, m.size = t.nonterminalCount →
    (completeFrom? .unchecked r (t, m) a).isSome
  sync : ∀ a p m es, (∀ i ∈ p, t.Inside i) → m.size = t.graph.size →
    (syncFrom? .unchecked a (t, m) p es).isSome
  reach : ∀ p m, (∀ i ∈ p, t.Inside i) → m.size = t.nonterminalCount →
    (t.reachFrom? .unchecked p m).isSome
  singles : ∀ p, (∀ i ∈ p, t.Inside i) → (t.singlesFrom? .unchecked p).isSome
  terminates : ∀ p m, (∀ i ∈ p, t.Inside i) → (t.terminatesFrom? .unchecked m p).isSome
  conflicts : ∀ a p es, (∀ i ∈ p, t.Inside i) → (t.conflictsFrom? .unchecked a p es).isSome
  resolvers : ∀ a c p es, (∀ i ∈ p, t.Inside i) → (t.resolversFrom? .unchecked a c p es).isSome
  closeDeletable : (t.closeDeletable? .unchecked).isSome
  closeTerminating : ∀ m, (t.closeTerminating? .unchecked m).isSome
  pruneSteps : ∀ l, (pruneSteps? l).isSome

/-- Work that comes to an end has a result, whatever has happened before. -/
theorem isSome_of_run {α : Type} {x : Work α} {y : Noted α} (h : x = y.run) (es : List Event) :
    (x es).isSome := by
  rw [h]
  rfl

theorem Formed.halts {t : Table} (ht : t.Formed) : t.Halts where
  rest p hp := by rw [ht.restDeletable?_eq hp]; rfl
  group p hp := by rw [ht.groupDeletable?_eq hp]; rfl
  first p m hp hm := by rw [ht.proper.firstFrom?_eq_from hm m.unmarked.lt_succ_self hp]; rfl
  leading p hp := by rw [ht.leadingWildcard?_eq hp]; rfl
  restrict p es hp := isSome_of_run (ht.proper.restrictFrom?_eq_from (ht.shallow hp) hp) es
  follow a p m es hp hm :=
    isSome_of_run (Proper.followFrom?_eq_from (q := (t, m)) ht.proper nofun nofun hm
      m.unmarked.lt_succ_self hp) es
  complete r a ha m hm := by
    have he : completeFrom? .unchecked r (t, m) a = some _ :=
      Formed.completeFrom?_eq_from ht nofun hm m.unmarked.lt_succ_self ha
    rw [he]
    rfl
  sync a p m es hp hm :=
    isSome_of_run (Proper.syncFrom?_eq_from (q := (t, m)) ht.proper nofun hm
      m.unmarked.lt_succ_self hp) es
  reach p m hp hm := by rw [ht.reachFrom?_eq_from (ht.shallow hp) hp hm le_rfl]; rfl
  singles p hp := by rw [ht.singlesFrom?_eq_from (ht.shallow hp) hp]; rfl
  terminates p m hp := by
    have he : t.terminatesFrom? .unchecked m p = some _ :=
      ht.terminatesFrom?_eq_from nofun (ht.shallow hp)
    rw [he]
    rfl
  conflicts a p es hp :=
    isSome_of_run (ht.proper.conflictsFrom?_eq_from nofun (ht.shallow hp) hp) es
  resolvers a c p es hp :=
    isSome_of_run (ht.proper.resolversFrom?_eq_from nofun (ht.shallow hp) hp) es
  closeDeletable := by
    rw [ht.closeDeletable?_eq_from (n := t.nonterminalCount + 1) (by omega)]
    rfl
  closeTerminating m := by
    have he : t.closeTerminating? .unchecked m = some _ :=
      ht.closeTerminating?_eq_from nofun m.unmarked.lt_succ_self
    rw [he]
    rfl
  pruneSteps l := by rw [pruneSteps?_eq l.length.lt_succ_self]; rfl

end Table

namespace Grammar

variable {source : String} {cfg : Config} {log : Log} {g : Grammar}

/-- All that is done with the graphs of a grammar that can be read comes to an end: its table is
built from the text in finitely many steps, the analysis of the table is, and so are all walks and
loops of the analysis on every table that differs in the sets alone. -/
theorem halts_of_parse (h : (Grammar.parse source cfg log).2 = .ok g) :
    (∃ d, Definition.read source = .ok d ∧ d.table? .unchecked = d.table.run ∧
        g.table = d.table.value) ∧
      (∀ faulty, g.table.analyze? .unchecked faulty = (g.table.analyze faulty).run) ∧
        ∀ t, g.table.SameOutline t → t.Halts := by
  have ht := (formed_parse h).1
  refine ⟨?_, fun faulty => ht.analyze?_eq faulty fun _ => ht.proper,
    fun t hs => (hs.formed ht).halts⟩
  unfold Grammar.parse at h
  split at h
  · rename_i d hd
    cases h
    exact ⟨d, hd, Definition.table?_eq nofun, rfl⟩
  · cases h

/-- An iteration inside an iteration that deletes itself, alternatives with nested loops, two
nonterminals that refer to each other, and a token with a context. -/
def circling : String :=
  "COMPILER A\nCHARACTERS d = \"0\".\n" ++
    "TOKENS t = d \x7bd | \"1\" [d]\x7d CONTEXT (\"2\" \x7bd\x7d).\n" ++
    "PRODUCTIONS\nA = \x7b[B] \x7bANY\x7d\x7d t.\nB = (A | t B | ) SYNC.\nEND A."

set_option maxRecDepth 100000 in
theorem halts_circling : ∃ g, (Grammar.parse circling default {}).2 = .ok g ∧
    ((∃ d, Definition.read circling = .ok d ∧ d.table? .unchecked = d.table.run ∧
        g.table = d.table.value) ∧
      (∀ faulty, g.table.analyze? .unchecked faulty = (g.table.analyze faulty).run) ∧
        ∀ t, g.table.SameOutline t → t.Halts) := by
  obtain ⟨g, hg, -⟩ := exists_ok_of_any (x := (Grammar.parse circling default {}).2)
    (P := fun g => g.table.graph.size == 15) (by decide +kernel)
  exact ⟨g, hg, halts_of_parse hg⟩

end Grammar

end Lookahead
