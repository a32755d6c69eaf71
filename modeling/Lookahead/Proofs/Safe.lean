import Lookahead.Proofs.Arenas
import Lookahead.Proofs.Counters
import Lookahead.Proofs.Faultless
import Lookahead.Proofs.HaltingChecks
import Lookahead.Proofs.HaltingProductions
import Lookahead.Proofs.Regular

/-!
# Nothing is accessed that is not there

Reading a text and analysing its table with all accesses checked comes to what they come to
unchecked, for every text and every configuration (`Grammar.safe`): no index is out of its range, no
number is taken below zero, no slice leaves its text and no range runs downwards. That holds on all
ways through the work, those that end with a syntax error too; where faults were reported the table
is not looked at any more.
-/

namespace Lookahead

section

variable (bounds : Bounds)

/-! ### Checked directives and logs -/

/-- There are ten slots. -/
def Tracing.mergeChar? (t : Tracing) (c : Char) : Option Tracing :=
  if c.isDigit then do
    let n ← bounds.sub c.toNat '0'.toNat
    bounds.guard (n < 10) ⟨t.slots.insert n⟩
  else match Category.ofLetter? c with
    | some k => bounds.guard (k.slot < 10) (t.enable k)
    | none => some t

def Config.applyDirective? (cfg : Config) (s : String) : Option Config :=
  if s.toList.contains '=' then some (cfg.applyOption s)
  else do return { cfg with tracing := ← s.toList.foldlM (Tracing.mergeChar? bounds) cfg.tracing }

def Sections.configure? (s : Sections) (cfg : Config) : Option Config :=
  s.directives.foldlM (fun cfg t => cfg.applyDirective? bounds t.text) cfg

def Log.record? (cfg : Config) (log : Log) : Event → Option Log
  | .report d => some (log.record cfg (.report d))
  | .listing k text => bounds.guard (k.slot < 10) (log.record cfg (.listing k text))

def Log.recordAll? (cfg : Config) (log : Log) (es : List Event) : Option Log :=
  es.foldlM (Log.record? bounds cfg) log

/-! ### Checked reading and analysis -/

/-- What the tokens of a text come to. -/
def Definition.ofStream (s : Token.Stream) : Except Broken Definition :=
  match s.rejected with
  | some p => .error ⟨{}, .nothing, .invalidCharacter ⟨p.line + 1, p.col + 1⟩⟩
  | none =>
    match readTokens s.tokens with
    | .done d _ => .ok d
    | .stopped (sections, last) err => .error ⟨sections, last, err⟩

namespace Grammar

def parse? (source : String) (cfg : Config) (log : Log) :
    Option (Log × Except SyntaxError Grammar) := do
  match Definition.ofStream (← Token.read? bounds source) with
  | .ok d =>
    let cfg ← d.sections.configure? bounds cfg
    let (t, es) ← d.table? bounds []
    return (← log.recordAll? bounds cfg es, .ok ⟨cfg, t⟩)
  | .error b =>
    let _ ← b.sections.configure? bounds cfg
    let (_, es) ← b.declare? bounds []
    return (← log.recordAll? bounds cfg es, .error b.error)

def analyze? (g : Grammar) (log : Log) : Option (Log × Grammar × Bool) := do
  let ((t, ok), es) ← g.table.analyze? bounds log.hasErrors []
  let log ← log.recordAll? bounds g.config es
  return (log, ⟨g.config, t⟩, ok && !log.hasErrors)

end Grammar

end

variable {bounds : Bounds}

/-! ### Directives and logs -/

theorem Category.slot_lt (k : Category) : k.slot < 10 := by
  cases k <;> decide

theorem Tracing.mergeChar?_eq (t : Tracing) (c : Char) :
    t.mergeChar? bounds c = some (t.mergeChar c) := by
  unfold mergeChar? mergeChar
  split
  · rename_i hc
    have hc : 48 ≤ c.val ∧ c.val ≤ 57 := by simpa [Char.isDigit] using hc
    have hlow : '0'.toNat ≤ c.toNat := hc.1
    have hhigh : c.toNat ≤ '9'.toNat := hc.2
    rw [Bounds.sub_eq fun _ => hlow, some_bind, Bounds.guard_eq fun _ => ?_]
    exact Nat.lt_succ_of_le (Nat.sub_le_sub_right hhigh '0'.toNat)
  · cases Category.ofLetter? c with
    | some k => exact Bounds.guard_eq (fun _ => k.slot_lt) _
    | none => rfl

theorem Config.applyDirective?_eq (cfg : Config) (s : String) :
    cfg.applyDirective? bounds s = some (cfg.applyDirective s) := by
  unfold applyDirective? applyDirective
  split
  · rfl
  · rw [(foldlM_eq_some (P := fun _ => True) (fun t _ c _ => ⟨t.mergeChar?_eq c, trivial⟩)
      trivial).1]
    rfl

theorem Sections.configure?_eq (s : Sections) (cfg : Config) : s.configure? bounds cfg =
    some (s.directives.foldl (fun cfg t => cfg.applyDirective t.text) cfg) :=
  (foldlM_eq_some (P := fun _ => True) (fun cfg _ t _ => ⟨cfg.applyDirective?_eq t.text, trivial⟩)
    trivial).1

theorem Log.recordAll?_eq (cfg : Config) (log : Log) (es : List Event) :
    log.recordAll? bounds cfg es = some (log.recordAll cfg es) := by
  refine (foldlM_eq_some (P := fun _ => True) (fun log _ e _ => ⟨?_, trivial⟩) trivial).1
  cases e with
  | report d => rfl
  | listing k text => exact Bounds.guard_eq (fun _ => k.slot_lt) _

/-! ### Reading and analysis -/

namespace Grammar

variable {source : String} {cfg : Config} {log : Log} {g : Grammar}

theorem parse?_eq (source : String) (cfg : Config) (log : Log) :
    parse? bounds source cfg log = some (parse source cfg log) := by
  have hread : Definition.ofStream (Token.read source) = Definition.read source := rfl
  unfold parse? parse
  rw [Token.read?_eq, some_bind, hread]
  cases hd : Definition.read source with
  | ok d =>
    dsimp only
    rw [d.sections.configure?_eq, some_bind,
      Definition.table?_eq fun _ => Definition.sound_of_read hd]
    simp only [Noted.run, some_bind, Log.recordAll?_eq]
    rfl
  | error b =>
    dsimp only
    rw [b.sections.configure?_eq, some_bind,
      Broken.declare?_eq fun _ => Broken.sound_of_read hd]
    simp only [Noted.run, some_bind, Log.recordAll?_eq]
    rfl

theorem analyze?_eq (hg : g.table.Formed) (hp : log.hasErrors = false → g.table.Proper bounds) :
    g.analyze? bounds log = some (g.analyze log) := by
  unfold analyze? analyze
  rw [hg.analyze?_eq _ hp]
  simp only [Noted.run, some_bind, Log.recordAll?_eq]
  rfl

theorem proper_parse (hg : (Grammar.parse source cfg log).2 = .ok g)
    (hlog : (Grammar.parse source cfg log).1.errorCount = log.errorCount) :
    g.table.Proper .checked := by
  obtain ⟨d, hd, rfl⟩ := exists_read hg
  exact Definition.proper_table (reports_of_errorCount_eq hd hlog)

/-- All accesses succeed, in reading a text and in analysing the table it gives, with the log that
reading leaves or any other that has errors if that one does. In the table everything refers to what
is in it, and as long as no error was reported terminals stand where terminals do. -/
theorem safe (source : String) (cfg : Config) (log : Log) :
    parse? .checked source cfg log = some (parse source cfg log) ∧
      ∀ g, (parse source cfg log).2 = .ok g →
        (∀ later : Log, ((parse source cfg log).1.hasErrors = true → later.hasErrors = true) →
          g.analyze? .checked later = some (g.analyze later)) ∧
        g.table.Contained ∧
        ((parse source cfg log).1.errorCount = log.errorCount → ∀ i a,
          g.table.graph.kind i = .terminal a ∨ g.table.graph.kind i = .weak a →
            a ∈ g.table.terminals ∧ (g.table.symbol a).index < g.table.terminalCount) := by
  refine ⟨parse?_eq .., fun g hg => ⟨fun later hlater => ?_, ?_, fun hlog i a hk => ?_⟩⟩
  · refine analyze?_eq (formed_parse hg).1 fun hnone => proper_parse hg ?_
    have hnone : (parse source cfg log).1.hasErrors = false :=
      Bool.eq_false_iff.mpr fun he => Bool.false_ne_true (hnone.symm.trans (hlater he))
    have hcount := Log.hasErrors_eq_false_iff.mp hnone
    obtain ⟨d, hd, -⟩ := exists_read hg
    have hsum : (parse source cfg log).1.errorCount = _ := errorCount_parse hd
    omega
  · obtain ⟨d, -, rfl⟩ := exists_read hg
    exact d.contained_table
  · have hp := proper_parse hg hlog
    have ha := hp.terminal rfl i a hk
    exact ⟨ha, hp.registered.index_lt_size (k := .terminal) (by decide) ha⟩

/-- The text of a pragma in a production, which is a fault: the pragma has no place among the
terminals. -/
def misused : String :=
  "COMPILER A $F3\nPRAGMAS\np = \"a\".\nPRODUCTIONS\nA = \"a\" \x7b\"x\"\x7d.\nEND A."

set_option maxRecDepth 100000 in
theorem safe_misused : ∃ g, (parse misused default {}).2 = .ok g ∧
    (parse misused default {}).1.hasErrors = true ∧
      g.analyze? .checked (parse misused default {}).1 =
        some (g.analyze (parse misused default {}).1) ∧ g.table.Contained := by
  obtain ⟨g, hg, -⟩ := exists_ok_of_any (x := (parse misused default {}).2)
    (P := fun g => g.table.graph.size == 4) (by decide +kernel)
  obtain ⟨hanalyze, hcontained, -⟩ := (safe misused default {}).2 g hg
  have hcount : (parse misused default {}).1.errorCount = 1 := by decide +kernel
  have herrors : (parse misused default {}).1.hasErrors = true := Bool.of_not_eq_false fun h => by
    rw [Log.hasErrors_eq_false_iff.mp h] at hcount
    cases hcount
  exact ⟨g, hg, herrors, hanalyze _ id, hcontained⟩

end Grammar

end Lookahead
