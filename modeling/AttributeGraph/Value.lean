/-
Untyped data: what a description file, an options object or the context of an
error may hold before its shape is known.

Beside the values of a JSON text there is `undefined`, the value of a property
that was given without one.  An object lists its properties in *key order*: the
keys that are canonical array indices first, in ascending order, then all others
in order of first appearance; a repeated key keeps its place and takes the last
value.  `Value.record` puts properties into that order.
-/
import AttributeGraph.OrderedMap
import AttributeGraph.Decimal.Notation

namespace AttributeGraph

/-- A piece of untyped data. -/
inductive Value where
  | undefined
  | null
  | bool (b : Bool)
  | number (x : Float)
  | text (s : String)
  | array (elements : List Value)
  | object (fields : List (String × Value))
deriving Inhabited

namespace Value

/-! ### Key order -/

/-- The number that a key writes in canonical form, at most the largest array index. -/
def index? (key : String) : Option Nat :=
  let cs := key.toList
  if cs ≠ [] ∧ cs.all Char.isDigit = true ∧ (cs = ['0'] ∨ cs.head? ≠ some '0') then
    let n := cs.foldl (fun n c => 10 * n + (c.toNat - 48)) 0
    if n ≤ 4294967294 then some n else none
  else none

/-- Put an indexed property where its index belongs. -/
def placeIndexed {ν : Type} (n : Nat) (e : String × ν) :
    List (Nat × String × ν) → List (Nat × String × ν)
  | [] => [(n, e)]
  | (m, f) :: rest => if n < m then (n, e) :: (m, f) :: rest else (m, f) :: placeIndexed n e rest

/-- Properties with distinct keys in key order. -/
def inKeyOrder {ν : Type} (fields : List (String × ν)) : List (String × ν) :=
  let indexed := fields.foldr
    (fun e placed => match index? e.1 with
      | some n => placeIndexed n e placed
      | none => placed) []
  indexed.map Prod.snd ++ fields.filter fun e => (index? e.1).isNone

/-- An object with the given properties, later ones replacing earlier ones of the same key. -/
def record (fields : List (String × Value)) : Value :=
  .object (inKeyOrder (OrderedMap.ofList fields).entries)

/-- The property of an object, `undefined` when there is none or the value is no object. -/
def get (v : Value) (key : String) : Value :=
  match v with
  | .object fields => (fields.lookup key).getD .undefined
  | _ => .undefined

/-! ### Plain text -/

mutual
/-- A value as plain text: elements are joined by commas, and an object shows none of its
properties. -/
def toText : Value → String
  | .undefined => "undefined"
  | .null => "null"
  | .bool b => if b then "true" else "false"
  | .number x => Decimal.floatText x
  | .text s => s
  | .array elements => ",".intercalate (elementTexts elements)
  | .object _ => "[object Object]"
termination_by structural v => v
/-- The texts of the elements of an array; one without a value is empty. -/
def elementTexts : List Value → List String
  | [] => []
  | .undefined :: rest => "" :: elementTexts rest
  | .null :: rest => "" :: elementTexts rest
  | v :: rest => v.toText :: elementTexts rest
termination_by structural l => l
end

/-- The text of a value that is one. -/
def text? : Value → Option String
  | .text s => some s
  | _ => none

/-- Whether a value says anything: it is neither `undefined` nor `null`, nor false, nor zero or no
number, nor the empty text. -/
def isGiven : Value → Bool
  | .undefined | .null => false
  | .bool b => b
  | .number x => !(x == 0 || x.isNaN)
  | .text s => s ≠ ""
  | .array _ | .object _ => true

end Value

end AttributeGraph
