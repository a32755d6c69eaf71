import Lookahead.Text.CodePoints

/-!
# Display width

How many columns a character takes where text is shown on a screen.
-/

namespace Lookahead.Text

/-- None for combining and invisible characters, two for wide ones, three for the Khmer sign that
abbreviates "and so on", and one for the rest, control characters included. -/
def width (c : Char) : Nat :=
  if c.toNat < 0x80 then 1
  else if zeroWidth.contains c.toNat then 0
  else if doubleWidth.contains c.toNat then 2
  else if c.toNat = 0x17D8 then 3
  else 1

end Lookahead.Text
