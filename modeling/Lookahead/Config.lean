import Lookahead.Config.Tracing
import Lookahead.Text.Identifier

/-!
# Configuration

What the caller and the directives of a grammar choose. Of these choices the analysis only looks
at `suppressResolverWarnings` and `tracing`, and only to decide what it prints.
-/

namespace Lookahead

structure Config where
  namespaceName : Option String := none
  tokenPrefix : String := "_"
  /-- Whether a parser has to see the end of input after the start symbol. -/
  checkEOF : Bool := true
  emitLines : Bool := false
  suppressResolverWarnings : Bool := false
  tracing : Tracing := {}
deriving DecidableEq, Inhabited

/-- The stretches between separators. -/
def splitOnChar (sep : Char) : List Char → List (List Char)
  | [] => [[]]
  | c :: cs =>
    match splitOnChar sep cs with
    | [] => [[c]]
    | p :: ps => if c = sep then [] :: p :: ps else (c :: p) :: ps

namespace Config

def mergeTracing (cfg : Config) (s : String) : Config :=
  { cfg with tracing := cfg.tracing.merge s }

/-- What the values of options are written with. -/
def alphabet : Text.Alphabet := .unicode18

/-- Identifiers separated by dots. -/
def isNamespace (cs : List Char) : Bool := (splitOnChar '.' cs).all alphabet.isIdentifier

/-- A namespace counts only if none is set yet. Unknown keys and ill-formed values are ignored. -/
def setOption (cfg : Config) (key : String) (value : List Char) : Config :=
  if key = "$namespace" then
    if isNamespace value ∧ cfg.namespaceName = none then
      { cfg with namespaceName := some (String.ofList value) }
    else cfg
  else if key = "$tokenPrefix" then
    if value.all alphabet.isWordChar then { cfg with tokenPrefix := String.ofList value } else cfg
  else if key = "$checkEOF" then
    { cfg with checkEOF := String.ofList value == "true" }
  else cfg

/-- An option `$key=value`; without an equals sign the value is empty. -/
def applyOption (cfg : Config) (s : String) : Config :=
  let cs := s.toList
  cfg.setOption (String.ofList (cs.takeWhile (· ≠ '='))) ((cs.dropWhile (· ≠ '=')).drop 1)

/-- A directive with an equals sign is an option, any other one a trace string. -/
def applyDirective (cfg : Config) (s : String) : Config :=
  if s.toList.contains '=' then cfg.applyOption s else cfg.mergeTracing s

end Config

end Lookahead
