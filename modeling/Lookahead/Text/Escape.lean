import Lookahead.CharSet

/-!
# Escape sequences

Inside a literal a backslash starts the name of one character. `unescape` reads such text and
counts the malformed sequences, which stand for nothing; `escape` writes it.
-/

namespace Lookahead.Text

/-- The character that a letter after a backslash names. -/
def namedEscape? : Char → Option Char
  | '\\' => some '\\'
  | '\'' => some '\''
  | '"' => some '"'
  | 'r' => some '\r'
  | 'n' => some '\n'
  | 't' => some '\t'
  | '0' => some '\x00'
  | 'a' => some '\x07'
  | 'b' => some '\x08'
  | 'f' => some '\x0c'
  | 'v' => some '\x0b'
  | _ => none

def hexDigit? (c : Char) : Option Nat :=
  if '0' ≤ c ∧ c ≤ '9' then some (c.toNat - '0'.toNat)
  else if 'a' ≤ c ∧ c ≤ 'f' then some (c.toNat - 'a'.toNat + 10)
  else if 'A' ≤ c ∧ c ≤ 'F' then some (c.toNat - 'A'.toNat + 10)
  else none

/-- The number that the hexadecimal digits denote. -/
def hexValue? (cs : List Char) : Option Nat :=
  cs.foldlM (fun n c => (hexDigit? c).map (16 * n + ·)) 0

/-- The character with the code that the digits denote: below the greatest character of a set,
and not half of a surrogate pair. -/
def hexChar? (cs : List Char) : Option Char :=
  (hexValue? cs).bind fun n => if n < maxChar ∧ n.isValidChar then some (Char.ofNat n) else none

/-- Text without escape sequences, and how many of them were malformed. -/
structure Unescaped where
  chars : List Char
  faults : Nat
deriving DecidableEq, Repr, Inhabited

namespace Unescaped

def cons (c : Char) (u : Unescaped) : Unescaped := ⟨c :: u.chars, u.faults⟩

def fault (u : Unescaped) : Unescaped := ⟨u.chars, u.faults + 1⟩

end Unescaped

/-- Reads escape sequences: a letter of `namedEscape?`, or `u` or `x` and four hexadecimal digits.
A malformed sequence is left out together with the character after the backslash, or the four
characters in the place of digits, or the rest of the text if there are fewer than four. -/
def unescape : List Char → Unescaped
  | [] => ⟨[], 0⟩
  | '\\' :: e :: cs =>
    match namedEscape? e with
    | some c => (unescape cs).cons c
    | none =>
      if e = 'u' ∨ e = 'x' then
        match cs with
        | h₁ :: h₂ :: h₃ :: h₄ :: cs =>
          match hexChar? [h₁, h₂, h₃, h₄] with
          | some c => (unescape cs).cons c
          | none => (unescape cs).fault
        | _ => ⟨[], 1⟩
      else (unescape cs).fault
  | ['\\'] => ⟨[], 1⟩
  | c :: cs => (unescape cs).cons c

/-- At least four hexadecimal digits. -/
def hexDigits (n : Nat) : List Char :=
  let ds := Nat.toDigits 16 n
  List.replicate (4 - ds.length) '0' ++ ds

def escapeChar (c : Char) : List Char :=
  if c = '\\' then ['\\', '\\']
  else if c = '\'' then ['\\', '\'']
  else if c = '"' then ['\\', '"']
  else if c = '\t' then ['\\', 't']
  else if c = '\r' then ['\\', 'r']
  else if c = '\n' then ['\\', 'n']
  else if c.toNat < 0x20 ∨ 0x7F < c.toNat then '\\' :: '0' :: 'x' :: hexDigits c.toNat
  else [c]

/-- Writes a backslash before quotes and backslashes, names tabs and line ends, and writes every
other character that is not printable ASCII as its code. -/
def escape (cs : List Char) : List Char := cs.flatMap escapeChar

end Lookahead.Text
