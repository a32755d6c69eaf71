import Lookahead.Text.CodePoints

/-!
# Identifiers

A letter or an underscore, then letters, digits, underscores and marks, where letters and the
rest are those of all scripts. Which characters these are grows with the versions of Unicode: the
names in a grammar are written with those of one version, the values of options with those of a
later one.
-/

namespace Lookahead.Text

/-- The characters outside ASCII that identifiers are written with. -/
structure Alphabet where
  /-- What may stand anywhere (`XID_Start`). -/
  letters : List CodePointRanges
  /-- What may stand anywhere but in front (`XID_Continue`). -/
  marks : List CodePointRanges

namespace Alphabet

def unicode13 : Alphabet := ⟨[identifierStart], [identifierContinue]⟩

def unicode18 : Alphabet :=
  ⟨[identifierStart, recentIdentifierStart], [identifierContinue, recentIdentifierContinue]⟩

end Alphabet

def isAsciiLetter (c : Char) : Bool :=
  (decide ('a' ≤ c) && decide (c ≤ 'z')) || (decide ('A' ≤ c) && decide (c ≤ 'Z'))

namespace Alphabet

/-- The underscore is no letter. -/
def isLetter (a : Alphabet) (c : Char) : Bool :=
  if c.toNat < 0x80 then isAsciiLetter c else a.letters.any (·.contains c.toNat)

def isWordChar (a : Alphabet) (c : Char) : Bool :=
  if c.toNat < 0x80 then isAsciiLetter c || (decide ('0' ≤ c) && decide (c ≤ '9')) || c == '_'
  else a.letters.any (·.contains c.toNat) || a.marks.any (·.contains c.toNat)

def startsIdentifier (a : Alphabet) (c : Char) : Bool := a.isLetter c || c == '_'

def isIdentifier (a : Alphabet) : List Char → Bool
  | [] => false
  | c :: cs => a.startsIdentifier c && cs.all a.isWordChar

end Alphabet

end Lookahead.Text
