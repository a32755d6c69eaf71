import Lookahead.CommandLine

/-!
# The program

Reads the grammar file, prints what the run says, and writes the trace.
-/

namespace Lookahead.CommandLine

/-- Writes the trace of a run, if there is one; an unwritable file is a failure after the reports
have been printed. -/
def finish (a : Arguments) (grammarDir : String) (o : Outcome) : IO UInt32 := do
  IO.print o.output
  match o.trace with
  | none => return o.exitCode
  | some trace =>
    let path := a.tracePath grammarDir
    match ← (IO.FS.writeFile path trace).toBaseIO with
    | .ok () =>
      IO.print (traceNotice path)
      return o.exitCode
    | .error e =>
      IO.eprintln ("Error: failed to write trace output to " ++ path ++ ": " ++ toString e)
      return failureCode

/-- The directory of an absolute path. -/
def directory (path : String) : String :=
  let cs := path.toList.reverse.dropWhile (· ≠ '/') |>.drop 1
  if cs.isEmpty then "/" else String.ofList cs.reverse

def main (args : List String) : IO UInt32 := do
  match read args with
  | .error h =>
    IO.print h.output
    if let .refused e := h then IO.eprintln ("error: " ++ e.message)
    return h.exitCode
  | .ok (a, input) =>
    let loaded ← (do
      let path ← IO.FS.realPath input
      return (path.toString, ← IO.FS.readFile path) : IO (String × String)).toBaseIO
    match loaded with
    | .error e =>
      IO.eprintln ("Error: failed to read " ++ input ++ ": " ++ toString e)
      return failureCode
    | .ok (path, source) => finish a (directory path) (run a source)

end Lookahead.CommandLine

def main (args : List String) : IO UInt32 := Lookahead.CommandLine.main args
