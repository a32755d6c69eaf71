/-!
# Columns

Text set in columns. Widths count characters.
-/

namespace Lookahead.Text

def blanks (n : Nat) : String := String.ofList (List.replicate n ' ')

/-- Flush right, as wide as needed. -/
def flushRight (n : Nat) (s : String) : String := blanks (n - s.length) ++ s

/-- Flush left in a column of exactly `n` characters; what does not fit is cut off. -/
def cell (n : Nat) (s : String) : String :=
  let cs := s.toList.take n
  String.ofList (cs ++ List.replicate (n - cs.length) ' ')

end Lookahead.Text
