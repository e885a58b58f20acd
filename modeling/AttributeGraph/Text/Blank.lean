/-
White space: which characters are blank, and what it means to trim a text or to
cut it at its blanks.

The class is fixed as data: the five ASCII controls from tab to carriage return,
the space, the no-break space, the spaces of the general punctuation block, the
two separators, and the byte order mark.  `isBlank_of_isWhitespace` says that it
holds all that is white space in ASCII.
-/

namespace AttributeGraph.Text

/-- The blank characters. -/
def isBlank (c : Char) : Bool :=
  let n := c.toNat
  (9 ≤ n && n ≤ 13) || n == 0x20 || n == 0xA0 || n == 0x1680 || (0x2000 ≤ n && n ≤ 0x200A) ||
    n == 0x2028 || n == 0x2029 || n == 0x202F || n == 0x205F || n == 0x3000 || n == 0xFEFF

theorem isBlank_of_isWhitespace (c : Char) (h : c.isWhitespace = true) : isBlank c = true := by
  simp only [Char.isWhitespace, Bool.or_eq_true, decide_eq_true_eq] at h
  rcases h with ((rfl | rfl) | rfl) | rfl <;> rfl

/-- A text without the blanks at its two ends. -/
def trim (cs : List Char) : List Char :=
  ((cs.dropWhile isBlank).reverse.dropWhile isBlank).reverse

/-- The pieces of a text between its runs of blanks.  A text that begins or ends with a blank
has an empty piece there. -/
def pieces : List Char → List (List Char)
  | [] => [[]]
  | c :: rest =>
    if isBlank c then
      match rest with
      | d :: _ => if isBlank d then pieces rest else [] :: pieces rest
      | [] => [[], []]
    else
      match pieces rest with
      | [] => [[c]]
      | p :: ps => (c :: p) :: ps

end AttributeGraph.Text
