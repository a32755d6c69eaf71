import Lookahead.Proofs.Displaced
import Lookahead.Proofs.Reordered

/-!
# Layout

Two texts are laid out differently if they consist of tokens of the same kinds and with the same
texts (`SameWords`), with any white space and any comments between them. Nothing but the places in
reports, symbols and nodes tells such texts apart: they are read to the same end, their tables are
the same without places, and so are the analyses of these (`Grammar.layout_irrelevant`).
-/

namespace Lookahead

/-- Both texts consist of tokens, and these have the same kinds and texts. -/
structure SameWords (source source' : String) : Prop where
  accepted : (Token.read source).rejected = none
  accepted' : (Token.read source').rejected = none
  words : (Token.read source').tokens.map (fun t => (t.kind, t.text)) =
    (Token.read source).tokens.map fun t => (t.kind, t.text)

theorem SameWords.displaced {source source' : String} (h : SameWords source source') :
    List.Forall₂ Token.Displaced (Token.read source).tokens (Token.read source').tokens := by
  refine Token.forall₂_of_map_word (R := Token.Displaced) ?_ fun _ _ _ hw => hw.symm
  have hwords := congrArg (List.map fun p => (⟨p.1, p.2.toList, default, default⟩ : Token)) h.words
  simp only [List.map_map, Function.comp_def, Token.text, String.toList_ofList] at hwords
  exact hwords

/-! ### Definitions -/

/-- Texts with the same words are read as displaced definitions, or up to the same point and with
the same complaint. -/
theorem SameWords.read {source source' : String} (h : SameWords source source') :
    (∃ d d', Definition.read source = .ok d ∧ Definition.read source' = .ok d' ∧
      d.Related Token.Displaced d') ∨
    ∃ b b', Definition.read source = .error b ∧ Definition.read source' = .error b' ∧
      b'.error.bare = b.error.bare ∧ b.sections.Related Token.Displaced b'.sections ∧
      b.last.Related Token.Displaced b'.last := by
  have hread := Definition.related_readTokens Token.alike_displaced _ _ h.displaced
  unfold Definition.read
  simp only [h.accepted, h.accepted']
  generalize Definition.readTokens (Token.read source).tokens = r at hread
  generalize Definition.readTokens (Token.read source').tokens = r' at hread
  cases hread with
  | done hd _ => exact .inl ⟨_, _, rfl, rfl, hd⟩
  | stopped hp he => exact .inr ⟨_, _, rfl, rfl, he, hp.1, hp.2⟩

/-! ### Logs -/

namespace Log

/-- The logs hold the same reports in the same order, wherever something was found. -/
def Displaced (log log' : Log) : Prop :=
  log'.reports.toList.map Diagnostic.unplaced = log.reports.toList.map Diagnostic.unplaced

variable {log log' : Log} (h : log.Displaced log')
include h

theorem Displaced.hasErrors : log'.hasErrors = log.hasErrors :=
  hasErrors_congr (by rw [errorCount_eq, h, errorCount_eq])

theorem Displaced.recordAll {α β : Type} {R : α → β → Prop} {x : Noted α} {y : Noted β}
    (hxy : Noted.Matches R x y) (cfg : Config) :
    (log.recordAll cfg x.events).Displaced (log'.recordAll cfg y.events) := by
  have hshown : (shown cfg y.reports).map Diagnostic.unplaced =
      (shown cfg x.reports).map Diagnostic.unplaced := by
    rw [map_shown, hxy.reports, map_shown]
  rw [Displaced, reports_recordAll, reports_recordAll, List.map_append, List.map_append, h]
  exact congrArg _ hshown

end Log

/-! ### Grammars -/

namespace Grammar

variable {source source' : String} {g g' : Grammar} {cfg : Config} {log log' : Log}

/-- The grammar without line numbers and positions. -/
def unplaced (g : Grammar) : Grammar := ⟨g.config, g.table.unplaced⟩

/-- What a text is read as, without places: a grammar, or a kind of error and what was expected. -/
def outcome (r : Except SyntaxError Grammar) : Except SyntaxError Grammar :=
  (r.mapError SyntaxError.bare).map unplaced

/-- Two analyses come to the same verdict and the same table, and report the same in the same
order. -/
structure SameAnalysis (r r' : Log × Grammar × Bool) : Prop where
  verdict : r'.2.2 = r.2.2
  grammar : r'.2.1.unplaced = r.2.1.unplaced
  reports : r.1.Displaced r'.1

theorem parse_displaced (h : SameWords source source') (cfg : Config) (hlog : log.Displaced log') :
    outcome (parse source' cfg log').2 = outcome (parse source cfg log).2 ∧
      (parse source cfg log).1.Displaced (parse source' cfg log').1 := by
  unfold parse
  obtain ⟨d, d', hd, hd', hdd⟩ | ⟨b, b', hb, hb', he, hs, hl⟩ := h.read
  · have htable := Definition.matches_table hdd
    simp only [hd, hd', Definition.configure_eq hdd]
    refine ⟨?_, hlog.recordAll htable _⟩
    exact congrArg (fun t => Except.ok (Grammar.mk (d.configure cfg) t)) htable.value
  · simp only [hb, hb']
    refine ⟨congrArg Except.error he, hlog.recordAll (R := Eq) (.bind (Sections.matches_declare hs)
      fun _ _ h => Fragment.matches_declare h hl) cfg⟩

theorem analyze_displaced (h : g'.unplaced = g.unplaced) (hlog : log.Displaced log') :
    SameAnalysis (g.analyze log) (g'.analyze log') := by
  have htable : Table.Displaced g.table g'.table := (congrArg Grammar.table h :)
  have hconfig : g'.config = g.config := (congrArg Grammar.config h :)
  have hanalyze := Table.Displaced.matches_analyze htable log.hasErrors
  have hreports := hlog.recordAll hanalyze g.config
  simp only [analyze, hlog.hasErrors, hconfig]
  refine ⟨?_, ?_, hreports⟩
  · rw [hreports.hasErrors, hanalyze.value.2]
  · exact congrArg (Grammar.mk g.config) hanalyze.value.1

/-- Layout does not matter: texts with the same words are read to the same end, with the same
reports, and where they are read as grammars, these have the same configuration, the same tables
without places and the same analyses, for all logs that hold the same reports. -/
theorem layout_irrelevant (h : SameWords source source') (cfg : Config) (log : Log) :
    outcome (parse source' cfg log).2 = outcome (parse source cfg log).2 ∧
      (parse source cfg log).1.Displaced (parse source' cfg log).1 ∧
      ∀ g g', (parse source cfg log).2 = .ok g → (parse source' cfg log).2 = .ok g' →
        g'.unplaced = g.unplaced ∧ ∀ later later' : Log, later.Displaced later' →
          SameAnalysis (g.analyze later) (g'.analyze later') := by
  have hself : log.Displaced log := rfl
  obtain ⟨houtcome, hlog⟩ := parse_displaced h cfg hself
  refine ⟨houtcome, hlog, fun g g' hg hg' => ?_⟩
  rw [hg, hg'] at houtcome
  have hsame : g'.unplaced = g.unplaced := Except.ok.inj houtcome
  exact ⟨hsame, fun _ _ hlater => analyze_displaced hsame hlater⟩

/-- A text on one line. -/
def dense : String :=
  "COMPILER L PRODUCTIONS L = IF(x) [\"a\"] I<.x.>. I<x> = \x7b\"a\"\x7d. END L."

/-- The same words on many lines, with a comment. -/
def spread : String :=
  "COMPILER L\n\nPRODUCTIONS // a list\nL =\n IF(x) [\"a\"]\tI<.x.>.\nI <x>\n= \x7b \"a\" \x7d.\nEND L."

set_option maxRecDepth 100000 in
theorem sameWords_spread : SameWords dense spread :=
  ⟨by decide +kernel, by decide +kernel, by decide +kernel⟩

set_option maxRecDepth 100000 in
theorem layout_spread : ∃ g g', (parse dense default {}).2 = .ok g ∧
    (parse spread default {}).2 = .ok g' ∧ g' ≠ g ∧ g'.unplaced = g.unplaced ∧
    SameAnalysis (g.analyze (parse dense default {}).1)
      (g'.analyze (parse spread default {}).1) := by
  obtain ⟨-, hlog, h⟩ := layout_irrelevant sameWords_spread default {}
  obtain ⟨g, hg, hline⟩ := exists_ok_of_any (x := (parse dense default {}).2)
    (P := fun g => (g.table.symbol 1).line == 1) (by decide +kernel)
  obtain ⟨g', hg', hline'⟩ := exists_ok_of_any (x := (parse spread default {}).2)
    (P := fun g => (g.table.symbol 1).line == 4) (by decide +kernel)
  obtain ⟨hsame, hanalyze⟩ := h g g' hg hg'
  refine ⟨g, g', hg, hg', ?_, hsame, hanalyze _ _ hlog⟩
  rintro rfl
  simp only [beq_iff_eq] at hline hline'
  omega

end Grammar

end Lookahead
