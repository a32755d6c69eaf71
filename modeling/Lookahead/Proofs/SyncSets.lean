import Mathlib
import Lookahead.Proofs.Unique

/-!
# What synchronisation points skip to

In the table of a text without errors no node belongs to two productions (`Grammar.apart_parse`), so
no synchronisation point is given what follows the wrong nonterminal. In the end each of them has
the end of input, what can come next there and, if nothing more has to come in its production, what
follows the nonterminal; and the union of all sets is the union of these
(`Grammar.syncsExact_of_parse`).
-/

namespace Lookahead

namespace Table

variable {t : Table} {a : SymbolId} {i : NodeId} {n : Nat}

/-- The sets of synchronisation points, and their union. -/
structure SyncsExact (t : Table) : Prop where
  size : ∀ a ∈ t.nonterminals, ∀ i x, t.Within a i → t.graph.kind i = .sync x →
    x.size = t.terminalCount
  get : ∀ a ∈ t.nonterminals, ∀ i x, t.Within a i → t.graph.kind i = .sync x →
    ∀ n < t.terminalCount, x.get n = true ↔ n = (t.symbol t.eof).index ∨
      (t.firstSet (t.graph.next i)).get n = true ∨
      (t.restDeletable (t.graph.next i) = true ∧ (t.symbol a).follow.get n = true)
  size_syncs : t.syncs.size = t.terminalCount
  get_syncs : ∀ n < t.terminalCount, t.syncs.get n = true ↔ n = (t.symbol t.eof).index ∨
    ∃ a ∈ t.nonterminals, ∃ i x, t.Within a i ∧ t.graph.kind i = .sync x ∧ x.get n = true

theorem size_syncSet (t : Table) (a : SymbolId) (i : NodeId) :
    (t.syncSet a i).size = t.terminalCount :=
  IndexSet.size_insert.trans (size_expected ..)

theorem Formed.get_syncSet_iff (ht : t.Formed) (hn : n < t.terminalCount) :
    (t.syncSet a i).get n = true ↔ n = (t.symbol t.eof).index ∨
      (t.firstSet (t.graph.next i)).get n = true ∨
      (t.restDeletable (t.graph.next i) = true ∧ (t.symbol a).follow.get n = true) := by
  have heof : (t.symbol t.eof).index < (t.expected (t.graph.next i) a).value.size :=
    (size_expected ..).symm ▸ ht.registered.index_lt ht.registered.eof
  rw [syncSet, IndexSet.get_insert_iff heof, get_expected_iff hn, @eq_comm _ n]

theorem Synchronised.syncsExact (h : t.Synchronised) (ht : t.Formed) : t.SyncsExact where
  size a ha i x hi hx := h.filled a ha i x hi hx ▸ size_syncSet t a i
  get a ha i x hi hx _ hn := h.filled a ha i x hi hx ▸ ht.get_syncSet_iff hn
  size_syncs := h.size
  get_syncs := h.syncs

/-- The sets that come before leave the productions as they are. -/
theorem Formed.syncsExact_computeSets (ht : t.Formed) (hap : t.Apart) :
    t.computeSets.value.SyncsExact := by
  have hsame := ht.sameDeclared_computeSets.toSameOutline
  have hu := hsame.formed ht
  have hap := hsame.apart hap
  simp only [computeSets, Noted.value_bind, Noted.value_pure] at hu hap ⊢
  generalize t.computeDeletable.value.computeFirst.value.computeWildcards.value.computeFollow.value
    = w at hu hap ⊢
  have hw := (sameGrammar_computeSyncs w).1.symm.outline
  exact ((hw.formed hu).synchronised_computeSyncs (hw.apart hap)).syncsExact hu

end Table

/-- Where nothing is wrong with a definition, each production has nodes of its own. -/
theorem Definition.apart_table {d : Definition} (hw : ∀ p ∈ d.sections.productions, p.Worded)
    (hd : d.table.reports = []) : d.table.value.Apart := by
  obtain ⟨hsections, s, hs⟩ := reports_table_eq_nil.mp hd
  obtain ⟨t, hb, hroot, hfront, hsilent⟩ := exists_base hsections
  have hdeclared := Table.declared_productions hb hroot hw hsilent
  rw [← hfront] at hdeclared
  exact (completes_table hs).1.apart hdeclared.apart

namespace Grammar

variable {source : String} {cfg : Config} {log : Log} {g : Grammar}

theorem apart_parse (hg : (Grammar.parse source cfg log).2 = .ok g)
    (hlog : (Grammar.parse source cfg log).1.errorCount = log.errorCount) : g.table.Apart := by
  obtain ⟨d, hd, rfl⟩ := exists_read hg
  exact Definition.apart_table (Definition.worded_of_read hd).productions
    (reports_of_errorCount_eq hd hlog)

/-- If a text is read without an error, all synchronisation points get exactly what they have to
skip to, and so does their union. -/
theorem syncsExact_of_parse (hg : (Grammar.parse source cfg log).2 = .ok g)
    (hlog : (Grammar.parse source cfg log).1.errorCount = log.errorCount) :
    g.table.computeSets.value.SyncsExact :=
  (formed_parse hg).1.syncsExact_computeSets (apart_parse hg hlog)

/-- Synchronisation points at the end of alternatives, options and iterations. -/
def resumable : String :=
  "COMPILER A\nPRODUCTIONS\nA = \x7b \"x\" ( SYNC | \"y\" [ B SYNC ] ) \x7d \"z\".\n" ++
    "B = \"b\" ( ANY SYNC | \"c\" ).\nEND A."

set_option maxRecDepth 100000 in
/-- One of them has the terminal `x`, with which the iteration starts again. -/
theorem sync_resumable : ∃ g, (Grammar.parse resumable default {}).2 = .ok g ∧
    (Grammar.parse resumable default {}).1.errorCount = Log.errorCount {} ∧
    ∃ a ∈ g.table.computeSets.value.nonterminals, ∃ i x,
      g.table.computeSets.value.Within a i ∧
        g.table.computeSets.value.graph.kind i = .sync x ∧ x.get 1 = true := by
  obtain ⟨g, hg, h⟩ := exists_ok_of_any (x := (Grammar.parse resumable default {}).2)
    (P := fun g => decide (1 < g.table.computeSets.value.terminalCount ∧
      g.table.computeSets.value.syncs.get 1 = true ∧
      1 ≠ (g.table.computeSets.value.symbol g.table.computeSets.value.eof).index))
    (by decide +kernel)
  have hlog : (Grammar.parse resumable default {}).1.errorCount = Log.errorCount {} := by
    decide +kernel
  obtain ⟨hlt, hget, hne⟩ := of_decide_eq_true h
  exact ⟨g, hg, hlog,
    (((syncsExact_of_parse hg hlog).get_syncs 1 hlt).mp hget).resolve_left hne⟩

end Grammar

end Lookahead
