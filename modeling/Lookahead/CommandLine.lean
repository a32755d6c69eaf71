import Lookahead.Grammar
import Lookahead.Text.Column

/-!
# The command line

The arguments name a grammar file and set the configuration. What is written is decided here; the
files are read and written by the caller.
-/

namespace Lookahead.CommandLine

/-- Why a list of arguments is refused. -/
inductive UsageError where
  | unknownOption (name : String)
  | missingValue (name : String)
  | unwantedValue (name : String)
  | repeated (name : String)
  | missingInput
  | furtherInput (path : String)
deriving DecidableEq, Repr, Inhabited

namespace UsageError

def message : UsageError → String
  | unknownOption o => "unexpected argument '" ++ o ++ "' found"
  | missingValue o => "a value is required for '" ++ o ++ "' but none was supplied"
  | unwantedValue o => "unexpected value for '" ++ o ++ "' found; no more were expected"
  | repeated o => "the argument '" ++ o ++ "' cannot be used multiple times"
  | missingInput => "the path of the grammar file was not provided"
  | furtherInput p => "unexpected argument '" ++ p ++ "' found"

end UsageError

inductive Opt where
  | trace
  | outputDir
  | namespaceName
  | tokenPrefix
  | lines
  | noMisplacedResolver
  | help
  | version
deriving DecidableEq, Repr, Inhabited

namespace Opt

/-- In the order of the help text. -/
def all : List Opt :=
  [trace, outputDir, namespaceName, tokenPrefix, lines, noMisplacedResolver, help, version]

/-- The text that messages name an option by. -/
def long : Opt → String
  | trace => "--trace"
  | outputDir => "--output-dir"
  | namespaceName => "--namespace"
  | tokenPrefix => "--token-prefix"
  | lines => "--lines"
  | noMisplacedResolver => "--no-misplaced-resolver"
  | help => "--help"
  | version => "--version"

/-- The letter of the short form. -/
def short? : Opt → Option Char
  | outputDir => some 'o'
  | help => some 'h'
  | version => some 'V'
  | _ => none

/-- How the help text names the value, for an option that takes one. -/
def valueName? : Opt → Option String
  | trace => some "FLAGS"
  | outputDir => some "DIR"
  | namespaceName => some "NS"
  | tokenPrefix => some "P"
  | _ => none

def takesValue (o : Opt) : Bool := o.valueName?.isSome

def about : Opt → String
  | trace => "Trace output flags (any of A F G I J P S X, or digits)"
  | outputDir => "The directory where trace.txt is written [default: the grammar's directory]"
  | namespaceName => "The namespace of the generated parser"
  | tokenPrefix => "The prefix of token names"
  | lines => "Ask the code generator for source line directives (not used by the analysis)"
  | noMisplacedResolver => "Do not warn about resolvers that resolve no LL(1) conflict"
  | help => "Print help"
  | version => "Print version"

/-- The line of the help text. -/
def row (o : Opt) : String :=
  let short := match o.short? with
    | some c => String.ofList ['-', c, ',', ' ']
    | none => "    "
  let value := match o.valueName? with
    | some v => " <" ++ v ++ ">"
    | none => ""
  "  " ++ short ++ Text.cell 25 (o.long ++ value) ++ o.about ++ "\n"

end Opt

def helpText : String :=
  "Usage: ellone [OPTIONS] <INPUT>\n\n" ++
    "Arguments:\n  <INPUT>  The path of grammar definition file\n\n" ++
    "Options:\n" ++ String.join (Opt.all.map Opt.row)

def versionText : String := "ellone-cli 0.0.0-dev\n"

/-- Why arguments lead to no run. -/
inductive Halt where
  | refused (e : UsageError)
  | help
  | version
deriving DecidableEq, Repr, Inhabited

/-- The options given so far with their values, and the path. -/
structure Arguments where
  options : List (Opt × String) := []
  input : Option String := none
deriving DecidableEq, Repr, Inhabited

namespace Arguments

def get? (a : Arguments) (o : Opt) : Option String := a.options.lookup o

def has (a : Arguments) (o : Opt) : Bool := (a.get? o).isSome

/-- An option may be given once. A directory has a name that is not empty. -/
def give (a : Arguments) (o : Opt) (value : String) : Except UsageError Arguments :=
  if a.has o then .error (.repeated o.long)
  else if o = .outputDir ∧ value = "" then .error (.missingValue o.long)
  else .ok { a with options := (o, value) :: a.options }

def giveInput (a : Arguments) (path : String) : Except UsageError Arguments :=
  if a.input.isSome then .error (.furtherInput path)
  else if path = "" then .error .missingInput
  else .ok { a with input := some path }

end Arguments

/-- What an argument is, as long as options may follow. -/
inductive Word where
  /-- An option, with the value attached to it. -/
  | option (o : Opt) (value : Option String)
  /-- `--`: only paths follow. -/
  | endOfOptions
  | unknown (s : String)
  | plain (s : String)
deriving DecidableEq, Repr, Inhabited

/-- `--name`, `--name=value`, `-o`, `-ovalue` and `-o=value` are options; a single minus sign is
not. -/
def Word.ofString (s : String) : Word :=
  match s.toList with
  | ['-', '-'] => .endOfOptions
  | '-' :: '-' :: cs =>
    let name := String.ofList ('-' :: '-' :: cs.takeWhile (· ≠ '='))
    match Opt.all.find? (·.long == name), cs.dropWhile (· ≠ '=') with
    | none, _ => .unknown s
    | some o, [] => .option o none
    | some o, _ :: value => .option o (some (String.ofList value))
  | '-' :: c :: cs =>
    match Opt.all.find? (·.short? == some c) with
    | none => .unknown s
    | some o =>
      if o.takesValue ∧ cs ≠ [] then
        .option o (some (String.ofList (if cs.head? = some '=' then cs.tail else cs)))
      else .option o none
  | _ => .plain s

/-- Takes the arguments one after another. The value of an option is attached to it or is the next
argument, unless that is an option itself. The first mistake or request for information ends it,
whatever may follow. -/
def take : Arguments → List String → Except Halt Arguments
  | a, [] => .ok a
  | a, s :: rest =>
    match Word.ofString s with
    | .unknown s => .error (.refused (.unknownOption s))
    | .endOfOptions => (rest.foldlM Arguments.giveInput a).mapError .refused
    | .plain s => do take (← (a.giveInput s).mapError .refused) rest
    | .option o (some value) =>
      if o.takesValue then do take (← (a.give o value).mapError .refused) rest
      else .error (.refused (.unwantedValue o.long))
    | .option .help none => .error .help
    | .option .version none => .error .version
    | .option o none =>
      if o.takesValue then
        match rest with
        | [] => .error (.refused (.missingValue o.long))
        | s :: rest =>
          match Word.ofString s with
          | .plain value => do take (← (a.give o value).mapError .refused) rest
          | _ => .error (.refused (.missingValue o.long))
      else do take (← (a.give o "").mapError .refused) rest

/-- The arguments and the path of the grammar file. -/
def read (args : List String) : Except Halt (Arguments × String) := do
  let a ← take {} args
  match a.input with
  | some path => return (a, path)
  | none => throw (.refused .missingInput)

namespace Arguments

def config (a : Arguments) : Config :=
  let d : Config := {}
  { d with
    namespaceName := a.get? .namespaceName
    tokenPrefix := (a.get? .tokenPrefix).getD d.tokenPrefix
    emitLines := a.has .lines
    suppressResolverWarnings := a.has .noMisplacedResolver
    tracing := Tracing.parse ((a.get? .trace).getD "") }

/-- Where the trace goes: into the output directory, or next to the grammar. -/
def tracePath (a : Arguments) (grammarDir : String) : String :=
  let dir := (a.get? .outputDir).getD grammarDir
  if dir.toList.getLast? = some '/' then dir ++ "trace.txt" else dir ++ "/trace.txt"

end Arguments

/-- What a run prints, whether it accepts the grammar, and the trace to be written. -/
structure Outcome where
  output : String
  accepted : Bool
  trace : Option String
deriving DecidableEq, Repr, Inhabited

def line (s : String) : String := s ++ "\n"

/-- The reports on a grammar and the number of errors among them; for a text that is no grammar,
only why it is none. -/
def run (a : Arguments) (source : String) : Outcome :=
  let (log, r) := Grammar.parse source a.config {}
  match r with
  | .error e => ⟨line e.message, false, none⟩
  | .ok g =>
    let (log, _, ok) := g.analyze log
    ⟨String.join (log.reports.toList.map fun d => line d.text) ++
        line (toString log.errorCount ++ " errors detected"),
      ok, if log.trace = "" then none else some log.trace⟩

/-- Printed once the trace has been written. -/
def traceNotice (path : String) : String := line ("trace output is in " ++ path)

/-- The exit code of a run that could do all it had to. -/
def Outcome.exitCode (o : Outcome) : UInt32 := if o.accepted then 0 else 1

def failureCode : UInt32 := 1

namespace Halt

def exitCode : Halt → UInt32
  | refused _ => 2
  | help | version => 0

/-- What is printed instead of reports. -/
def output : Halt → String
  | refused _ => ""
  | help => helpText
  | version => versionText

end Halt

end Lookahead.CommandLine
