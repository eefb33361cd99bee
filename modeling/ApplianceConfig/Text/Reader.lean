/-!
# Readers

Texts are read from the front, and what is left is read on.
-/

namespace ApplianceConfig.Text

/-- A reader takes a value from the front of a text and gives what is behind it. -/
abbrev Reader (α : Type) := List Char → Option (α × List Char)

/-- What is behind a character that has to stand in front. -/
def expect? (c : Char) : List Char → Option (List Char)
  | d :: rest => if d = c then some rest else none
  | [] => none

theorem length_dropWhile_le (p : Char → Bool) (cs : List Char) :
    (cs.dropWhile p).length ≤ cs.length :=
  (List.dropWhile_sublist p).length_le

end ApplianceConfig.Text
