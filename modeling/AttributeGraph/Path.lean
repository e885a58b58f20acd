/-
Attribute paths: dotted texts and their segments.

A segment names one attribute: it is not empty, has no dot, and neither starts
nor ends with a blank.  A path is a non-empty list of segments, and the type
says so.  `Path.parse` reads a path from a dotted text or from a list
that is already cut; a list with a single element is cut like a text.
-/
import AttributeGraph.Error
import AttributeGraph.Text.Blank

namespace AttributeGraph

/-- Whether a text can name an attribute. -/
def IsSegment (s : String) : Prop :=
  s.toList ≠ [] ∧ '.' ∉ s.toList ∧ Text.trim s.toList = s.toList

instance (s : String) : Decidable (IsSegment s) := by unfold IsSegment; infer_instance

/-- One or more attribute names, each leading into the group nested below the one before. -/
structure Path where
  head : String
  tail : List String
  /-- Every segment names an attribute. -/
  valid : ∀ s ∈ head :: tail, IsSegment s
deriving DecidableEq

/-- What a caller may pass as a path. -/
inductive PathInput where
  | undefined
  | null
  | text (s : String)
  | segments (names : List String)
deriving DecidableEq, Inhabited

namespace PathInput

/-- The pieces between the dots of a text. -/
def split (s : String) : List String := (s.toList.splitOn '.').map String.ofList

/-- The segments that an input holds, valid or not. -/
def pieces : PathInput → List String
  | undefined => []
  | null => []
  | text s => split s
  | segments [s] => split s
  | segments names => names

/-- The input as untyped data. -/
def toValue : PathInput → Value
  | undefined => .undefined
  | null => .null
  | text s => .text s
  | segments names => .array (names.map Value.text)

end PathInput

namespace Path

/-- The segments in order. -/
def segments (p : Path) : List String := p.head :: p.tail

/-- The path with the given segments, if there are any and all name attributes. -/
def ofSegments? : List String → Option Path
  | [] => none
  | head :: tail =>
    if valid : ∀ s ∈ head :: tail, IsSegment s then some ⟨head, tail, valid⟩ else none

/-- Read a path. -/
def parse (input : PathInput) : Except Error Path :=
  match ofSegments? input.pieces with
  | some p => .ok p
  | none => .error (.invalidPath input.toValue)

/-- The first segments of a list up to and including the given place; a negative place counts
from behind the last segment. -/
def upTo (place : Int) (segments : List String) : List String :=
  let stop := place + 1
  segments.take (if stop < 0 then segments.length + stop else stop).toNat

/-- Segments as a dotted text. -/
def format (segments : List String) : String := ".".intercalate segments

/-- The path as a dotted text. -/
def toText (p : Path) : String := format p.segments

/-- A dotted text lengthened by a name. -/
def join (parent name : String) : String := if parent = "" then name else s!"{parent}.{name}"

end Path

end AttributeGraph
