/-
Length and order by UTF-16 code unit.

A character outside the basic plane counts as two units, a high and a low
surrogate, and texts are sorted by their units: such a character sorts before
the characters from U+E000 to U+FFFF although its code point is larger.
-/

namespace AttributeGraph.Text

/-- The UTF-16 code units of a character. -/
def charUnits (c : Char) : List Nat :=
  let n := c.toNat
  if n < 0x10000 then [n]
  else [0xD800 + (n - 0x10000) / 0x400, 0xDC00 + (n - 0x10000) % 0x400]

/-- The UTF-16 code units of a text. -/
def units (cs : List Char) : List Nat := cs.flatMap charUnits

/-- The number of UTF-16 code units of a text. -/
def unitLength (cs : List Char) : Nat := (units cs).length

/-- The order of texts by their code units. -/
def unitsLE (a b : String) : Bool := !List.lex (units b.toList) (units a.toList) Nat.blt

/-- Texts in ascending order of code units. -/
def sortByUnits (texts : List String) : List String := texts.mergeSort unitsLE

theorem unitLength_append (a b : List Char) :
    unitLength (a ++ b) = unitLength a + unitLength b := by
  simp [unitLength, units]

end AttributeGraph.Text
