/-
Terminal control sequences: painting a text and stripping what was painted.

A sequence is an introducer (ESC or the one-character CSI), any number of
opening marks, optionally numeric parameters parted by semicolons, and a final
character.  A parameter has at most four digits and a digit may also be the
final character, so where several readings are possible they are tried in a
fixed order, longest parameters first; `strip` removes the first reading that
ends in a final character.  An introducer that starts no sequence stays.
-/

namespace AttributeGraph.Text.Ansi

/-- The characters that start a sequence. -/
def isIntroducer (c : Char) : Bool := c.toNat == 0x1B || c.toNat == 0x9B

/-- The marks that may follow the introducer. -/
def isMark (c : Char) : Bool := ['[', ']', '(', ')', '#', ';', '?'].contains c

/-- The characters that end a sequence. -/
def isFinal (c : Char) : Bool :=
  c.isDigit || ('A' ≤ c && c ≤ 'P') || ('R' ≤ c && c ≤ 'T') || c == 'Z' || c == 'c' ||
    ('f' ≤ c && c ≤ 'n') || ['t', 'q', 'r', 'y', '=', '>', '<', '~'].contains c

/-- What may be left after at most `n` digits, most digits first; the last entry is the text
itself. -/
def afterDigits : Nat → List Char → List (List Char)
  | 0, cs => [cs]
  | _ + 1, [] => [[]]
  | n + 1, c :: rest => if c.isDigit then afterDigits n rest ++ [c :: rest] else [c :: rest]

/-- What may be left after any number of further parameters, most of them first. -/
def afterParameters : Nat → List Char → List (List Char)
  | 0, cs => [cs]
  | n + 1, ';' :: rest => (afterDigits 4 rest).flatMap (afterParameters n) ++ [';' :: rest]
  | _ + 1, cs => [cs]

/-- What may be left after the optional parameters, in the order in which it is tried. -/
def afterNumbers : List Char → List (List Char)
  | [] => [[]]
  | c :: rest =>
    if c.isDigit then
      (afterDigits 3 rest).flatMap (afterParameters rest.length) ++ [c :: rest]
    else [c :: rest]

/-- What is left behind the sequence whose introducer has just been read. -/
def afterSequence? (cs : List Char) : Option (List Char) :=
  (afterNumbers (cs.dropWhile isMark)).findSome? fun
    | [] => none
    | c :: rest => if isFinal c then some rest else none

/-- Drop the next `skip` characters, then every control sequence. -/
def stripFrom : Nat → List Char → List Char
  | _, [] => []
  | skip + 1, _ :: rest => stripFrom skip rest
  | 0, c :: rest =>
    if isIntroducer c then
      match afterSequence? rest with
      | some behind => stripFrom (rest.length - behind.length) rest
      | none => c :: stripFrom 0 rest
    else c :: stripFrom 0 rest

/-- The text without its control sequences. -/
def strip (text : String) : String := String.ofList (stripFrom 0 text.toList)

/-- A way to paint: the sequence that switches it on. -/
inductive Style where
  | red
  | bold
deriving DecidableEq

namespace Style

/-- The sequence that switches the style on. -/
def start : Style → String
  | red => "\x1b[31m"
  | bold => "\x1b[1m"

end Style

/-- The sequence that ends the innermost style. -/
def reset : String := "\x1b[0m"

/-- The text in the given styles, the first one outermost. -/
def styled (text : String) (styles : List Style) : String :=
  styles.foldr (fun style inner => style.start ++ inner ++ reset) text

end AttributeGraph.Text.Ansi
