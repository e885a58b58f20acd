/-
Writing data as JSON text without spaces.

A property that is `undefined` is left out and an element that is `undefined` is
written as `null`, as are the numbers that JSON has no text for.
-/
import AttributeGraph.Json.Quoted
import AttributeGraph.Value

namespace AttributeGraph.Json

/-- A number as JSON text. -/
def numberText (x : Float) : String :=
  if x.isNaN || x.isInf then "null" else Decimal.floatText x

mutual
/-- The JSON text of a value. -/
def print : Value → List Char
  | .undefined => "null".toList
  | .null => "null".toList
  | .bool b => (if b then "true" else "false").toList
  | .number x => (numberText x).toList
  | .text s => quoted s.toList
  | .array elements => '[' :: printElements elements
  | .object fields => '\x7b' :: printFields true fields
termination_by structural v => v
/-- The elements of an array and its closing bracket. -/
def printElements : List Value → List Char
  | [] => [']']
  | [v] => print v ++ [']']
  | v :: rest => print v ++ ',' :: printElements rest
termination_by structural l => l
/-- The properties of an object and its closing brace; `first` tells that none is written yet. -/
def printFields : Bool → List (String × Value) → List Char
  | _, [] => ['\x7d']
  | first, (_, .undefined) :: rest => printFields first rest
  | first, (k, v) :: rest =>
    (if first then [] else [',']) ++ quoted k.toList ++ ':' :: print v ++ printFields false rest
termination_by structural _ l => l
end

/-- The JSON text of a value, as a string. -/
def toText (v : Value) : String := String.ofList (print v)

end AttributeGraph.Json
