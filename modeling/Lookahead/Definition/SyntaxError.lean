import Lookahead.Diagnostic

/-!
# Syntax errors

Why a text is no grammar definition. Reading stops at the first of them.
-/

namespace Lookahead

/-- What could have stood where something else was found. -/
inductive Expected where
  | compiler
  | productions
  | ending
  | ident
  | set
  | char
  | identOrString
  | tokenFactor
  | factor
  | equals
  | dot
  | lparen
  | rparen
  | rbracket
  | rbrace
deriving DecidableEq, Repr, Inhabited

namespace Expected

def text : Expected → String
  | compiler => "\"COMPILER\""
  | productions => "\"PRODUCTIONS\""
  | ending => "\"END\""
  | ident => "ident"
  | set => "set"
  | char => "char"
  | identOrString => "ident or string"
  | tokenFactor => "token factor"
  | factor => "factor"
  | equals => "\"=\""
  | dot => "\".\""
  | lparen => "\"(\""
  | rparen => "\")\""
  | rbracket => "\"]\""
  | rbrace => "\"\x7d\""

end Expected

inductive SyntaxError where
  /-- A character that starts no token, or a token without an end. -/
  | invalidCharacter (l : Location)
  | expected (what : Expected) (l : Location)
  | unterminated (l : Location)
  | unexpectedEnd (what : Expected)
  | tooDeep (l : Location)
deriving DecidableEq, Repr, Inhabited

namespace SyntaxError

def located (l : Location) (s : String) : String :=
  "-- line " ++ toString l.line ++ " col " ++ toString l.col ++ ": " ++ s

def message : SyntaxError → String
  | invalidCharacter l => located l "invalid character"
  | expected what l => located l (what.text ++ " expected")
  | unterminated l => located l "unterminated literal"
  | unexpectedEnd what => "-- end of file: " ++ what.text ++ " expected"
  | tooDeep l => located l "nesting too deep"

end SyntaxError

end Lookahead
