/-
Filling lines with words.

`wrap` cuts a text at its blanks and puts each piece on the current line as long
as the line stays within the width; a piece wider than a whole line stands on a
line of its own.  Width is counted in UTF-16 code units.
-/
import AttributeGraph.Text.Blank
import AttributeGraph.Text.Units

namespace AttributeGraph.Text

/-- The line that a piece makes when it is put behind the current one. -/
def extendLine (current word : List Char) : List Char :=
  if current = [] then word else current ++ ' ' :: word

/-- Fill lines with the pieces, the first one behind what the current line already holds. -/
def fill (width : Nat) : List Char → List (List Char) → List (List Char)
  | current, [] => if current = [] then [] else [current]
  | current, word :: rest =>
    if current ≠ [] ∧ width < unitLength (extendLine current word) then
      current :: fill width word rest
    else
      fill width (extendLine current word) rest

/-- The lines of a text for a given width. -/
def wrap (width : Nat) (text : List Char) : List (List Char) := fill width [] (pieces text)

end AttributeGraph.Text
