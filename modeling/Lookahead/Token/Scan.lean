import Lookahead.Token
import Lookahead.Text.Identifier

/-!
# Reading tokens

`scan` finds how long the token, comment or run of blanks at the start of a text is, taking the
longest one that fits; `Token.read` cuts the whole text that way. A text that nothing fits is
rejected at the start of the token that it breaks off in, or, inside a comment, behind the last
character that was passed over.
-/

namespace Lookahead.Token

def isBlank (c : Char) : Bool := c == ' ' || c == '\t' || c == '\n' || c == '\r'

/-- Carriage returns with a line feed, or one carriage return alone; 0 if no line ends here. -/
def lineEndLength (cs : List Char) : Nat :=
  let n := (cs.takeWhile (· == '\r')).length
  match cs.drop n with
  | '\n' :: _ => n + 1
  | _ => min n 1

/-- The length of a literal up to and including the quote `q`, or of what there is of it when its
line ends first (`false`). A backslash protects the next character, line ends included. -/
def literalLength (q : Char) : List Char → Option (Bool × Nat)
  | [] => none
  | '\\' :: _ :: cs => (literalLength q cs).map fun r => (r.1, r.2 + 2)
  | c :: cs =>
    if c = q then some (true, 1)
    else if lineEndLength (c :: cs) ≠ 0 then some (false, lineEndLength (c :: cs))
    else (literalLength q cs).map fun r => (r.1, r.2 + 1)

/-- The length up to the bracket that closes the last of `depth` open ones. -/
def balancedLength (opening closing : Char) : Nat → List Char → Option Nat
  | _, [] => none
  | depth, c :: cs =>
    if c = closing then
      if depth ≤ 1 then some 1 else (balancedLength opening closing (depth - 1) cs).map (· + 1)
    else if c = opening then (balancedLength opening closing (depth + 1) cs).map (· + 1)
    else (balancedLength opening closing depth cs).map (· + 1)

/-- The length up to and including the first `.)`. -/
def actionLength : List Char → Option Nat
  | [] => none
  | '.' :: ')' :: _ => some 2
  | _ :: cs => (actionLength cs).map (· + 1)

/-- The length of `IF`, blanks and a parenthesis. -/
def resolverHeadLength : List Char → Option Nat
  | 'I' :: 'F' :: cs =>
    let n := (cs.takeWhile isBlank).length
    match cs.drop n with
    | '(' :: _ => some (n + 3)
    | _ => none
  | _ => none

/-- What names in a grammar are written with. -/
def alphabet : Text.Alphabet := .unicode13

def isDirectiveChar (c : Char) : Bool :=
  alphabet.isWordChar c || c == '.' || c == ':' || c == '-'

/-- The length of a directive behind its dollar sign; 0 if there is none. -/
def directiveLength (cs : List Char) : Nat :=
  let n := (cs.takeWhile isDirectiveChar).length
  if n = 0 then 0
  else match cs.drop n with
    | '=' :: ds => n + 1 + (ds.takeWhile isDirectiveChar).length
    | _ => n

/-- The length of a comment that starts with two slashes, line end included, given the text behind
the slashes. -/
def lineCommentLength (cs : List Char) : Except Nat Nat :=
  let n := (cs.takeWhile fun c => c != '\r' && c != '\n').length
  if n = cs.length then .error (if n = 0 then 0 else n + 2)
  else .ok (n + 2 + lineEndLength (cs.drop n))

/-- The length of a comment of which `n` characters have been read and `depth` comments are still
open; behind `passed` characters a new token might have started. -/
def blockCommentLength : (depth n passed : Nat) → List Char → Except Nat Nat
  | _, _, passed, [] => .error passed
  | depth, n, passed, '/' :: '*' :: cs => blockCommentLength (depth + 1) (n + 2) passed cs
  | depth, n, passed, '*' :: '/' :: cs =>
    if depth ≤ 1 then .ok (n + 2) else blockCommentLength (depth - 1) (n + 2) passed cs
  | depth, n, _, _ :: cs => blockCommentLength depth (n + 1) (n + 1) cs

/-- What the start of a text is: something to pass over or a token, and its length. -/
abbrev Lexeme := Option Kind × Nat

/-- The kind of a single character that is a token of its own. -/
def punctuation? : Char → Option Kind
  | '=' => some .equals
  | '.' => some .dot
  | '+' => some .plus
  | '-' => some .minus
  | '|' => some .bar
  | '(' => some .lparen
  | ')' => some .rparen
  | '[' => some .lbracket
  | ']' => some .rbracket
  | '{' => some .lbrace
  | '}' => some .rbrace
  | _ => none

def wordKind (cs : List Char) : Kind :=
  match Keyword.ofSpelling? cs with
  | some k => .keyword k
  | none => .ident

/-- A token of `head` characters with a body whose length is known if the body ends. -/
def delimited (k : Kind) (head : Nat) : Option Nat → Except Nat Lexeme
  | some n => .ok (some k, head + n)
  | none => .error 0

def scanLiteral (k : Kind) (q : Char) (cs : List Char) : Except Nat Lexeme :=
  match literalLength q cs with
  | some (true, n) => .ok (some k, n + 1)
  | some (false, n) => .ok (some .unterminated, n + 1)
  | none => .error 0

def scanWord (cs : List Char) : Except Nat Lexeme :=
  match cs with
  | [] => .error 0
  | c :: ds =>
    if alphabet.startsIdentifier c then
      let n := (ds.takeWhile alphabet.isWordChar).length + 1
      .ok (some (wordKind (cs.take n)), n)
    else match punctuation? c with
      | some k => .ok (some k, 1)
      | none => .error 0

/-- The token, comment or run of blanks that a text starts with, or how far behind the start the
text is rejected. -/
def scan (cs : List Char) : Except Nat Lexeme :=
  match cs with
  | '/' :: '/' :: ds => (lineCommentLength ds).map fun n => (none, n)
  | '/' :: '*' :: ds => (blockCommentLength 1 2 0 ds).map fun n => (none, n)
  | '"' :: ds => scanLiteral .string '"' ds
  | '\'' :: ds => scanLiteral .char '\'' ds
  | '(' :: '.' :: ds => delimited .action 2 (actionLength ds)
  | '.' :: '.' :: _ => .ok (some .dotDot, 2)
  | '<' :: ds => delimited .attributes 1 (balancedLength '<' '>' 1 ds)
  | '$' :: ds =>
    if directiveLength ds = 0 then .error 0 else .ok (some .directive, directiveLength ds + 1)
  | _ =>
    match resolverHeadLength cs with
    | some n => delimited .resolver n (balancedLength '(' ')' 1 (cs.drop n))
    | none =>
      let n := (cs.takeWhile isBlank).length
      if n ≠ 0 then .ok (none, n) else scanWord cs

/-- The tokens of a text, up to the place where it is rejected, if it is. -/
structure Stream where
  tokens : List Token
  rejected : Option Place
deriving Inhabited

/-- Reads a text that starts at `p`. Every step takes at least one character, so `fuel` above the
length of the text is never used up. -/
def readFrom : (fuel : Nat) → (p : Place) → List Char → Stream
  | 0, _, _ => ⟨[], none⟩
  | _, _, [] => ⟨[], none⟩
  | fuel + 1, p, cs =>
    match scan cs with
    | .error n => ⟨[], some (p.advance (cs.take n))⟩
    | .ok (kind, n) =>
      let stop := p.advance (cs.take n)
      let s := readFrom fuel stop (cs.drop n)
      match kind with
      | none => s
      | some k => { s with tokens := ⟨k, cs.take n, p, stop⟩ :: s.tokens }

def read (source : String) : Stream :=
  let cs := source.toList
  readFrom (cs.length + 1) {} cs

end Lookahead.Token
