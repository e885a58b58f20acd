/-
Patterns of texts, and how a match is looked for.

A pattern is made of the two ends of a text and of single characters outside a class, put together
by sequence, repetition and option.  From a place in a text, `Pattern.after` lists what may be left
behind a match in the order in which it is tried: a repetition or an option first takes as much as
it can, and a turn that takes nothing is not tried.  A text is searched from its first place on.

The characters are those of the text, whole code points, and a line break is one like any other:
the ends are those of the whole text, never of a line.
-/
import AttributeGraph.Text.Blank

namespace AttributeGraph.Text

/-- What a class of characters lists. -/
inductive ClassItem where
  | dot
  | blank
deriving DecidableEq

namespace ClassItem

/-- Whether a character is listed. -/
def has : ClassItem → Char → Bool
  | dot, c => c = '.'
  | blank, c => isBlank c

/-- The item as it is written. -/
def toText : ClassItem → String
  | dot => "."
  | blank => "\\s"

end ClassItem

/-- A pattern. -/
inductive Pattern where
  /-- The beginning of the text. -/
  | start
  /-- The end of the text. -/
  | stop
  /-- A character outside a class. -/
  | noneOf (items : List ClassItem)
  /-- A match of one pattern and behind it a match of another one. -/
  | seq (p q : Pattern)
  /-- Any number of matches. -/
  | many (p : Pattern)
  /-- At most one match. -/
  | maybe (p : Pattern)
deriving DecidableEq

namespace Pattern

/-- A pattern in the place of a single character: anything that is longer stands in a group. -/
def grouped : Pattern → String → String
  | noneOf _, written => written
  | _, written => "(?:" ++ written ++ ")"

/-- The pattern as it is written. -/
def toText : Pattern → String
  | start => "^"
  | stop => "$"
  | noneOf items => "[^" ++ String.join (items.map ClassItem.toText) ++ "]"
  | seq p q => p.toText ++ q.toText
  | many p => p.grouped p.toText ++ "*"
  | maybe p => p.grouped p.toText ++ "?"

/-- What may be left after any number of turns that take something, most turns first; no more than
`n` turns can. -/
def afterTurns (turn : List Char → List (List Char)) : Nat → List Char → List (List Char)
  | 0, cs => [cs]
  | n + 1, cs =>
    ((turn cs).filter fun rest => rest.length < cs.length).flatMap (afterTurns turn n) ++ [cs]

/-- What may be left behind a match at the beginning of `cs`, which ends a text of `total`
characters. -/
def after (total : Nat) : Pattern → List Char → List (List Char)
  | start, cs => if cs.length = total then [cs] else []
  | stop, cs => if cs = [] then [cs] else []
  | noneOf _, [] => []
  | noneOf items, c :: rest => if items.any (·.has c) then [] else [rest]
  | seq p q, cs => (p.after total cs).flatMap (q.after total)
  | many p, cs => afterTurns (p.after total) cs.length cs
  | maybe p, cs => (p.after total cs).filter (fun rest => rest.length < cs.length) ++ [cs]

/-- Whether there is a match from some place of `cs` on, where `cs` ends a text of `total`
characters. -/
def found (total : Nat) (p : Pattern) : List Char → Bool
  | [] => p.after total [] ≠ []
  | c :: rest => p.after total (c :: rest) ≠ [] || p.found total rest

/-- Whether there is a match anywhere in a text. -/
def test (p : Pattern) (text : String) : Bool := p.found text.toList.length text.toList

end Pattern

end AttributeGraph.Text
