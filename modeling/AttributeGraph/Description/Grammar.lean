/-
The grammar of descriptions, and how it is read.

Reading goes through a value once and lists every violation in a fixed order:
for a group first what is missing, then what is unknown, then property after
property.  The description that comes with the list is complete exactly if the
list is empty; `Description.parse` accepts a value in that case and
otherwise fails with all violations.  A value is accepted exactly if it meets the
schema of descriptions, `descriptionSchema`.
-/
import AttributeGraph.Description
import AttributeGraph.Error
import AttributeGraph.Json.Parser
import AttributeGraph.Text.Blank

namespace AttributeGraph

/-- What a value can violate. -/
inductive Violation where
  | notObject
  | notArray
  | notString
  | notBoolean
  | emptyString
  | notAllowed
  | unknownKey
  | missingKey (key : String)
  | badPattern
  | badKey
deriving DecidableEq

namespace Violation

/-- What is said of the violation. -/
def message : Violation → String
  | notObject => "must be object"
  | notArray => "must be array"
  | notString => "must be string"
  | notBoolean => "must be boolean"
  | emptyString => "must NOT have fewer than 1 characters"
  | notAllowed => "must be equal to one of the allowed values"
  | unknownKey => "must NOT have additional properties"
  | missingKey key => s!"must have required property '{key}'"
  | badPattern => "must match pattern \"^[^.\\s](?:[^.]*[^.\\s])?$\""
  | badKey => "property name must be valid"

end Violation

/-- A place in a value: the keys that lead to it, each behind a slash. -/
structure Pointer where
  text : String
deriving DecidableEq, Inhabited

namespace Pointer

/-- The whole value. -/
def root : Pointer := ⟨""⟩

/-- A key as it is written in a pointer: a tilde and a slash are escaped. -/
def escape (key : String) : String :=
  String.ofList (key.toList.flatMap fun c =>
    if c = '~' then ['~', '0'] else if c = '/' then ['~', '1'] else [c])

/-- The place of a property or element. -/
def child (p : Pointer) (key : String) : Pointer := ⟨p.text ++ "/" ++ escape key⟩

end Pointer

/-- A violation and where it is. -/
structure Issue where
  place : Pointer
  violation : Violation
deriving DecidableEq

/-- The issue as text; a slash stands for the whole value. -/
def Issue.text (i : Issue) : String :=
  (if i.place.text = "" then "/" else i.place.text) ++ " " ++ i.violation.message

/-- What was read, and the issues met on the way. -/
structure Reading (α : Type) where
  value : α
  issues : List Issue

namespace Reading

variable {α β : Type}

instance : Monad Reading where
  pure a := ⟨a, []⟩
  bind r f :=
    let next := f r.value
    ⟨next.value, r.issues ++ next.issues⟩

/-- An issue, with something in place of what could not be read. -/
def issue (place : Pointer) (violation : Violation) (a : α) : Reading α := ⟨a, [⟨place, violation⟩]⟩

/-- An issue where a condition fails. -/
def check (place : Pointer) (violation : Violation) (holds : Bool) : Reading Unit :=
  ⟨(), if holds then [] else [⟨place, violation⟩]⟩

end Reading

/-! ### Single properties -/

/-- Whether a value counts as absent. -/
def Value.isUndefined : Value → Bool
  | .undefined => true
  | _ => false

/-- A property that is present. -/
def fieldOf (key : String) (fields : List (String × Value)) : Option Value :=
  (fields.lookup key).filter fun v => !v.isUndefined

/-- One issue for every key that is not among the known ones. -/
def readClosed (p : Pointer) (known : List String) : List (String × Value) → Reading Unit
  | [] => return ()
  | (key, _) :: rest => do
    Reading.check p .unknownKey (known.contains key)
    readClosed p known rest

/-- A text. -/
def readText (p : Pointer) : Value → Reading String
  | .text s => return s
  | _ => Reading.issue p .notString ""

/-- A text that is not empty. -/
def readNonEmpty (p : Pointer) : Value → Reading String
  | .text s => if s = "" then Reading.issue p .emptyString s else return s
  | _ => Reading.issue p .notString ""

/-- A truth value. -/
def readBoolean (p : Pointer) : Value → Reading Bool
  | .bool b => return b
  | _ => Reading.issue p .notBoolean false

/-- A kind of group. -/
def readKind (p : Pointer) : Value → Reading Kind
  | .text s =>
    match Kind.ofText? s with
    | some k => return k
    | none => Reading.issue p .notAllowed .generic
  | _ => Reading.issue p .notAllowed .generic

/-- A property that may be absent. -/
def readOptional {α : Type} (p : Pointer) (key : String) (read : Pointer → Value → Reading α)
    (fields : List (String × Value)) : Reading (Option α) :=
  match fieldOf key fields with
  | none => return none
  | some v => do return some (← read (p.child key) v)

/-- Whether a key can name an attribute: it has no dot, and its ends are no blanks. -/
def isAttributeName (key : String) : Bool :=
  let isEnd (c : Char) : Bool := c ≠ '.' && !Text.isBlank c
  match key.toList with
  | [] => false
  | c :: rest =>
    isEnd c &&
      match rest.getLast? with
      | none => true
      | some last => rest.dropLast.all (· ≠ '.') && isEnd last

/-- Two issues for every key that names no attribute. -/
def readKeys (p : Pointer) : List (String × Value) → Reading Unit
  | [] => return ()
  | (key, _) :: rest => do
    Reading.check p .badPattern (isAttributeName key)
    Reading.check p .badKey (isAttributeName key)
    readKeys p rest

/-- The type name that a group filed per type must have. -/
def readOwnTypeName (p : Pointer) : Value → Reading Unit
  | .object fields =>
    match fieldOf "typeName" fields with
    | none => Reading.issue p (.missingKey "typeName") ()
    | some v => do let _ ← readNonEmpty (p.child "typeName") v
  | _ => Reading.issue p .notObject ()

/-! ### Groups and items -/

/-- The properties that a group may have. -/
def groupKeys : List String :=
  ["name", "typeName", "superTypeName", "validated", "kind", "attributes"]

/-- The properties that an item may have. -/
def itemKeys : List String := ["group", "keyGroup", "typeGroups", "keyTypeGroups"]

mutual
/-- A group. -/
def readGroup (p : Pointer) : Value → Reading Description
  | .object fields => do
    Reading.check p (.missingKey "name") (fieldOf "name" fields).isSome
    readClosed p groupKeys fields
    let name ← readOptional p "name" readText fields
    let typeName ← readOptional p "typeName" readNonEmpty fields
    let superTypeName ← readOptional p "superTypeName" readNonEmpty fields
    let validated ← readOptional p "validated" readBoolean fields
    let kind ← readOptional p "kind" readKind fields
    let attributes ← readAttributesIn p fields
    return ⟨name.getD "", typeName, superTypeName, validated, kind, attributes⟩
  | _ => Reading.issue p .notObject default
termination_by structural v => v
/-- The attributes among the properties of a group. -/
def readAttributesIn (p : Pointer) :
    List (String × Value) → Reading (Option (List (String × NestedDescription)))
  | [] => return none
  | (key, v) :: rest =>
    if key = "attributes" then readAttributes (p.child key) v else readAttributesIn p rest
termination_by structural fields => fields
/-- The attributes of a group: first their names, then their items. -/
def readAttributes (p : Pointer) : Value → Reading (Option (List (String × NestedDescription)))
  | .object fields => do
    readKeys p fields
    return some (← readItems p fields)
  | .undefined => return none
  | _ => Reading.issue p .notObject none
termination_by structural v => v
/-- The items of a group. -/
def readItems (p : Pointer) : List (String × Value) → Reading (List (String × NestedDescription))
  | [] => return []
  | (key, v) :: rest => do
    let item ← readItem (p.child key) v
    let items ← readItems p rest
    return (key, item) :: items
termination_by structural fields => fields
/-- An item. -/
def readItem (p : Pointer) : Value → Reading NestedDescription
  | .object fields => do
    readClosed p itemKeys fields
    let group ← readGroupIn p "group" fields
    let keyGroup ← readGroupIn p "keyGroup" fields
    let typeGroups ← readTypedIn p "typeGroups" fields
    let keyTypeGroups ← readTypedIn p "keyTypeGroups" fields
    return ⟨group, typeGroups, keyGroup, keyTypeGroups⟩
  | _ => Reading.issue p .notObject default
termination_by structural v => v
/-- A nested group among the properties of an item. -/
def readGroupIn (p : Pointer) (key : String) :
    List (String × Value) → Reading (Option Description)
  | [] => return none
  | (k, v) :: rest =>
    if k = key then
      if v.isUndefined then return none else do return some (← readGroup (p.child key) v)
    else readGroupIn p key rest
termination_by structural fields => fields
/-- Groups filed per type among the properties of an item. -/
def readTypedIn (p : Pointer) (key : String) :
    List (String × Value) → Reading (Option (List Description))
  | [] => return none
  | (k, v) :: rest => if k = key then readTyped (p.child key) v else readTypedIn p key rest
termination_by structural fields => fields
/-- Groups filed per type. -/
def readTyped (p : Pointer) : Value → Reading (Option (List Description))
  | .array elements => do return some (← readElements p 0 elements)
  | .undefined => return none
  | _ => Reading.issue p .notArray none
termination_by structural v => v
/-- Groups filed per type, from the given place on. -/
def readElements (p : Pointer) (n : Nat) : List Value → Reading (List Description)
  | [] => return []
  | v :: rest => do
    let group ← readGroup (p.child (toString n)) v
    readOwnTypeName (p.child (toString n)) v
    let groups ← readElements p (n + 1) rest
    return group :: groups
termination_by structural elements => elements
end

namespace Description

/-- The error for a text that is not JSON. -/
def notJson : Error :=
  .parse
    { message := "Group description is not valid JSON"
      cause := some ⟨"SyntaxError", "<json>"⟩ } []

/-- The value that an input stands for: a text is read as JSON. -/
def inputValue : Value → Except Error Value
  | .text s =>
    match Json.parse? s with
    | some v => .ok v
    | none => .error notJson
  | v => .ok v

/-- The error for a value with the given issues. -/
def invalid (first : Issue) (more : List Issue) : Error :=
  .parse { message := s!"Invalid group description: {first.text}" }
    ((first :: more).map Issue.text)

/-- The value of an input together with the description that it is. -/
def read (input : Value) : Except Error (Value × Description) := do
  let v ← inputValue input
  let r := readGroup .root v
  match r.issues with
  | [] => return (v, r.value)
  | first :: more => throw (invalid first more)

/-- The value of an input, provided that it is a description. -/
def parse (input : Value) : Except Error Value := (read input).map Prod.fst

end Description

end AttributeGraph
