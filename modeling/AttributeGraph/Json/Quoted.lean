/-
Quoted texts of JSON: writing and reading what stands between two quotes.

Written are a backslash before a quote or a backslash, a short escape for the
five controls that have one, four hexadecimal digits for the other controls, and
every other character as it is.  Read is every escape of the format, two escaped
surrogates standing for one character.

A text is a list of characters, so it has no place for half of a pair.  A
surrogate that is escaped on its own is read as the replacement character
U+FFFD, and what is read then differs from the text of code units that the
format allows there.  Nothing that is written has such an escape.
-/

namespace AttributeGraph.Json

/-- A hexadecimal digit, in lower case. -/
def hexDigit (n : Nat) : Char :=
  if n < 10 then Char.ofNat (48 + n) else Char.ofNat (87 + n)

/-- The number that a hexadecimal digit stands for. -/
def hexValue? (c : Char) : Option Nat :=
  if '0' ≤ c ∧ c ≤ '9' then some (c.toNat - 48)
  else if 'a' ≤ c ∧ c ≤ 'f' then some (c.toNat - 87)
  else if 'A' ≤ c ∧ c ≤ 'F' then some (c.toNat - 55)
  else none

/-- A character as it is written inside quotes. -/
def escapeChar (c : Char) : List Char :=
  let n := c.toNat
  if c = '"' then ['\\', '"']
  else if c = '\\' then ['\\', '\\']
  else if n = 8 then ['\\', 'b']
  else if n = 9 then ['\\', 't']
  else if n = 10 then ['\\', 'n']
  else if n = 12 then ['\\', 'f']
  else if n = 13 then ['\\', 'r']
  else if n < 32 then ['\\', 'u', '0', '0', hexDigit (n / 16), hexDigit (n % 16)]
  else [c]

/-- A text as it is written inside quotes. -/
def escape (cs : List Char) : List Char := cs.flatMap escapeChar

/-- A text in quotes. -/
def quoted (cs : List Char) : List Char := '"' :: escape cs ++ ['"']

/-- A text in quotes, as a string. -/
def quote (s : String) : String := String.ofList (quoted s.toList)

/-- The code unit that four hexadecimal digits write, and what follows them. -/
def readUnit? : List Char → Option (Nat × List Char)
  | a :: b :: c :: d :: rest => do
    let a ← hexValue? a
    let b ← hexValue? b
    let c ← hexValue? c
    let d ← hexValue? d
    return (((a * 16 + b) * 16 + c) * 16 + d, rest)
  | _ => none

/-- The low surrogate written next, and what follows it. -/
def readLow? : List Char → Option (Nat × List Char)
  | '\\' :: 'u' :: rest =>
    match readUnit? rest with
    | some (low, behind) => if 0xDC00 ≤ low ∧ low < 0xE000 then some (low, behind) else none
    | none => none
  | _ => none

/-- Read a text up to its closing quote, with at most `fuel` characters and escapes; what is left
follows the quote.  A surrogate without its partner is replaced. -/
def readQuoted : Nat → List Char → Option (List Char × List Char)
  | 0, _ => none
  | _ + 1, [] => none
  | _ + 1, '"' :: rest => some ([], rest)
  | fuel + 1, '\\' :: 'u' :: rest =>
    match readUnit? rest with
    | none => none
    | some (unit, behind) =>
      let paired := if 0xD800 ≤ unit ∧ unit < 0xDC00 then readLow? behind else none
      match paired with
      | some (low, behind') =>
        let c := Char.ofNat (0x10000 + (unit - 0xD800) * 0x400 + (low - 0xDC00))
        (readQuoted fuel behind').map fun (cs, r) => (c :: cs, r)
      | none =>
        let c := if 0xD800 ≤ unit ∧ unit < 0xE000 then Char.ofNat 0xFFFD else Char.ofNat unit
        (readQuoted fuel behind).map fun (cs, r) => (c :: cs, r)
  | fuel + 1, '\\' :: e :: rest =>
    let c? := match e with
      | '"' => some '"'
      | '\\' => some '\\'
      | '/' => some '/'
      | 'b' => some (Char.ofNat 8)
      | 'f' => some (Char.ofNat 12)
      | 'n' => some '\n'
      | 'r' => some '\r'
      | 't' => some '\t'
      | _ => none
    match c? with
    | some c => (readQuoted fuel rest).map fun (cs, r) => (c :: cs, r)
    | none => none
  | fuel + 1, c :: rest =>
    if c.toNat < 32 ∨ c = '\\' then none
    else (readQuoted fuel rest).map fun (cs, r) => (c :: cs, r)

end AttributeGraph.Json
