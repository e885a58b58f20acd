/-
Reading JSON text.

The reader accepts exactly the texts of the format: one value, blanks of the
format around every token, nothing behind it.  Objects come out in key order
with the last value of a repeated key.  Each reader gets a bound on its depth
and length that the length of the text always satisfies.
-/
import AttributeGraph.Json.Quoted
import AttributeGraph.Value

namespace AttributeGraph.Json

/-- The blanks between tokens. -/
def isSpace (c : Char) : Bool := c = ' ' || c = '\t' || c = '\n' || c = '\r'

/-- The text behind its leading blanks. -/
def skipSpace (cs : List Char) : List Char := cs.dropWhile isSpace

/-- The number that digits write. -/
def digitsValue (cs : List Char) : Nat := cs.foldl (fun n c => 10 * n + (c.toNat - 48)) 0

/-- The integer digits of a number: a lone zero, or digits that do not start with one. -/
def readInteger? : List Char → Option (List Char × List Char)
  | '0' :: rest => some (['0'], rest)
  | cs =>
    match cs.takeWhile Char.isDigit with
    | [] => none
    | digits => some (digits, cs.dropWhile Char.isDigit)

/-- The optional digits behind a decimal point; none if the point stands without digits. -/
def readFraction? : List Char → Option (List Char × List Char)
  | '.' :: rest =>
    match rest.takeWhile Char.isDigit with
    | [] => none
    | digits => some (digits, rest.dropWhile Char.isDigit)
  | cs => some ([], cs)

/-- The optional exponent; none if its letter stands without digits. -/
def readExponent? (cs : List Char) : Option (Int × List Char) :=
  match cs with
  | c :: rest =>
    if c = 'e' ∨ c = 'E' then
      let (negative, digits) := match rest with
        | '-' :: r => (true, r)
        | '+' :: r => (false, r)
        | r => (false, r)
      match digits.takeWhile Char.isDigit with
      | [] => none
      | ds =>
        let n : Int := digitsValue ds
        some (if negative then -n else n, digits.dropWhile Char.isDigit)
    else some (0, cs)
  | [] => some (0, [])

/-- A number and what follows it. -/
def readNumber? (cs : List Char) : Option (Value × List Char) := do
  let (negative, cs) := match cs with
    | '-' :: rest => (true, rest)
    | _ => (false, cs)
  let (whole, cs) ← readInteger? cs
  let (fraction, cs) ← readFraction? cs
  let (exponent, cs) ← readExponent? cs
  let mantissa := digitsValue (whole ++ fraction)
  return (.number (Decimal.readFloat negative mantissa (exponent - fraction.length)), cs)

mutual
/-- A value and what follows it. -/
def readValue : Nat → List Char → Option (Value × List Char)
  | 0, _ => none
  | fuel + 1, cs =>
    match skipSpace cs with
    | 'n' :: 'u' :: 'l' :: 'l' :: rest => some (.null, rest)
    | 't' :: 'r' :: 'u' :: 'e' :: rest => some (.bool true, rest)
    | 'f' :: 'a' :: 'l' :: 's' :: 'e' :: rest => some (.bool false, rest)
    | '"' :: rest =>
      (readQuoted (rest.length + 1) rest).map fun (s, r) => (.text (String.ofList s), r)
    | '[' :: rest =>
      match skipSpace rest with
      | ']' :: rest' => some (.array [], rest')
      | rest' => (readElements fuel rest').map fun (vs, r) => (.array vs, r)
    | '\x7b' :: rest =>
      match skipSpace rest with
      | '\x7d' :: rest' => some (.record [], rest')
      | rest' => (readFields fuel rest').map fun (fs, r) => (.record fs, r)
    | rest => readNumber? rest
termination_by structural fuel => fuel
/-- One element of an array and the ones behind it, up to the closing bracket. -/
def readElements : Nat → List Char → Option (List Value × List Char)
  | 0, _ => none
  | fuel + 1, cs =>
    match readValue fuel cs with
    | none => none
    | some (v, rest) =>
      match skipSpace rest with
      | ']' :: rest' => some ([v], rest')
      | ',' :: rest' => (readElements fuel rest').map fun (vs, r) => (v :: vs, r)
      | _ => none
termination_by structural fuel => fuel
/-- One property of an object and the ones behind it, up to the closing brace. -/
def readFields : Nat → List Char → Option (List (String × Value) × List Char)
  | 0, _ => none
  | fuel + 1, cs =>
    match skipSpace cs with
    | '"' :: rest =>
      match readQuoted (rest.length + 1) rest with
      | none => none
      | some (key, rest) =>
        match skipSpace rest with
        | ':' :: rest =>
          match readValue fuel rest with
          | none => none
          | some (v, rest) =>
            match skipSpace rest with
            | '\x7d' :: rest' => some ([(String.ofList key, v)], rest')
            | ',' :: rest' =>
              (readFields fuel rest').map fun (fs, r) => ((String.ofList key, v) :: fs, r)
            | _ => none
        | _ => none
    | _ => none
termination_by structural fuel => fuel
end

/-- The value that a JSON text writes; none if the text is not JSON. -/
def parse? (text : String) : Option Value :=
  let cs := text.toList
  match readValue (cs.length + 1) cs with
  | some (v, rest) => if skipSpace rest = [] then some v else none
  | none => none

end AttributeGraph.Json
