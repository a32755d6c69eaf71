import Lookahead.Analysis
import Lookahead.Definition.Table

/-!
# Grammars

A grammar is a table with the configuration that its text and the caller have chosen. Reading and
analysing one adds to a log.
-/

namespace Lookahead

structure Grammar where
  config : Config
  table : Table
deriving Inhabited

namespace Grammar

/-- Reads a grammar text. The directives in it take part in the configuration. -/
def parse (source : String) (cfg : Config) (log : Log) : Log × Except SyntaxError Grammar :=
  match Definition.read source with
  | .ok d =>
    let cfg := d.configure cfg
    let t := d.table
    (log.recordAll cfg t.events, .ok ⟨cfg, t.value⟩)
  | .error b => (log.recordAll cfg b.events, .error b.error)

/-- Whether the grammar is accepted, which it is not if the log holds an error. -/
def analyze (g : Grammar) (log : Log) : Log × Grammar × Bool :=
  let r := g.table.analyze log.hasErrors
  let log := log.recordAll g.config r.events
  (log, ⟨g.config, r.value.1⟩, r.value.2 && !log.hasErrors)

end Grammar

end Lookahead
