import Lookahead.Diagnostic
import Lookahead.Text.Width

/-!
# Tokens

The words of a grammar text, with the places where they start and stop.
-/

namespace Lookahead

/-- A point between two characters: lines and columns from 0, and the offset in bytes. -/
structure Place where
  line : Nat := 0
  col : Nat := 0
  byte : Nat := 0
deriving DecidableEq, Repr, Inhabited

namespace Place

/-- Past one character. A tabulator counts as four columns. -/
def step (p : Place) (c : Char) : Place :=
  if c = '\n' then ⟨p.line + 1, 0, p.byte + c.utf8Size⟩
  else if c = '\t' then ⟨p.line, p.col + 4, p.byte + c.utf8Size⟩
  else ⟨p.line, p.col + Text.width c, p.byte + c.utf8Size⟩

def advance (p : Place) (cs : List Char) : Place := cs.foldl step p

theorem advance_append (p : Place) (cs ds : List Char) :
    p.advance (cs ++ ds) = (p.advance cs).advance ds := List.foldl_append

end Place

inductive Keyword where
  | compiler | characters | tokens | pragmas | productions | ending
  | any | sync | weak | context
deriving DecidableEq, Repr, Inhabited

namespace Keyword

def spelling : Keyword → String
  | compiler => "COMPILER"
  | characters => "CHARACTERS"
  | tokens => "TOKENS"
  | pragmas => "PRAGMAS"
  | productions => "PRODUCTIONS"
  | ending => "END"
  | any => "ANY"
  | sync => "SYNC"
  | weak => "WEAK"
  | context => "CONTEXT"

def all : List Keyword :=
  [compiler, characters, tokens, pragmas, productions, ending, any, sync, weak, context]

def ofSpelling? (cs : List Char) : Option Keyword := all.find? fun k => k.spelling.toList == cs

end Keyword

namespace Token

inductive Kind where
  | equals | dot | dotDot | plus | minus | bar
  | lparen | rparen | lbracket | rbracket | lbrace | rbrace
  | keyword (k : Keyword)
  | ident
  /-- A literal between double quotes. -/
  | string
  /-- A literal between single quotes. -/
  | char
  /-- Text between angle brackets. -/
  | attributes
  /-- Text between `(.` and `.)`. -/
  | action
  /-- `IF` and a condition in parentheses. -/
  | resolver
  /-- A dollar sign, letters, and possibly an equals sign and a value. -/
  | directive
  /-- A literal that runs into the end of its line. -/
  | unterminated
deriving DecidableEq, Repr, Inhabited

end Token

/-- `chars` is the text from `start` to `stop`, delimiters included. -/
structure Token where
  kind : Token.Kind
  chars : List Char
  start : Place
  stop : Place
deriving DecidableEq, Repr, Inhabited

namespace Token

def text (t : Token) : String := String.ofList t.chars

/-- The text of a literal without its quotes. -/
def inner (t : Token) : List Char := (t.chars.drop 1).dropLast

/-- The line of the token, counted from 1. -/
def line (t : Token) : Nat := t.start.line + 1

def location (t : Token) : Location := ⟨t.line, t.start.col + 1⟩

end Token

end Lookahead
