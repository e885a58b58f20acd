/-
Options of the operations, with their defaults and ranges.

Options come as untyped data.  `RawOptions.resolve` fills in the defaults, a
field that is present overriding its default even if it is `undefined`, and
refuses what is out of range; resolved options are in range by their types.
Fields that mean nothing to this library are kept as they were given.
-/
import AttributeGraph.Diagnostic
import AttributeGraph.ObjectType

namespace AttributeGraph

/-- What becomes of unknown attributes. -/
inductive Reaction where
  /-- They make the validation fail. -/
  | error
  /-- They are reported as diagnostics. -/
  | warn
deriving DecidableEq, Inhabited

namespace Reaction

/-- The reaction as text. -/
def text : Reaction → String
  | error => "error"
  | warn => "warn"

end Reaction

/-- Options of a validation. -/
structure ValidationPolicy where
  reaction : Reaction := .error
  /-- How many nested groups deep a validation descends. -/
  maxDepth : Nat := 32
  /-- A validation looks at one level at least. -/
  one_le_maxDepth : 1 ≤ maxDepth := by decide
  /-- The fields given beside these two. -/
  others : List (String × Value) := []

/-- Options of a restoration. -/
structure RestorationPolicy where
  /-- Whether type names are resolved once the groups are built. -/
  resolvesNames : Bool := false
  /-- The fields given beside this one. -/
  others : List (String × Value) := []

/-- Options as they are given: untyped fields, and the collaborators that were passed. -/
structure RawOptions where
  hierarchy : Option Hierarchy := none
  diagnostics : Option Sink := none
  validation : List (String × Value) := []
  restore : List (String × Value) := []

/-- Options in range. -/
structure Options where
  hierarchy : Hierarchy := .lineage
  diagnostics : Sink := .console
  validation : ValidationPolicy := {}
  restore : RestorationPolicy := {}

namespace RawOptions

/-- The reaction that an option names. -/
def readReaction (v : Value) : Except Error Reaction :=
  match v with
  | .text "error" => .ok .error
  | .text "warn" => .ok .warn
  | _ => .error (.config
      s!"validation.unknownAttributes must be 'error' or 'warn', got {v.toText}"
      (some "validation.unknownAttributes"))

/-- The positive integer that a number is. -/
def positive? : Value → Option { n : Nat // 1 ≤ n }
  | .number x =>
    ((Decimal.Binary64.ofFloat? x).bind Decimal.Binary64.toNat?).bind fun n =>
      if h : 1 ≤ n then some ⟨n, h⟩ else none
  | _ => none

/-- The depth that an option gives. -/
def readDepth (v : Value) : Except Error { n : Nat // 1 ≤ n } :=
  match positive? v with
  | some depth => .ok depth
  | none => .error (.config
      s!"validation.maxDepth must be a positive integer, got {v.toText}"
      (some "validation.maxDepth"))

/-- Whether type names are resolved, as an option says. -/
def readResolvesNames (v : Value) : Except Error Bool :=
  match v with
  | .bool b => .ok b
  | _ => .error (.config "restore.resolveTypes must be a boolean" (some "restore.resolveTypes"))

/-- The value of a field, its default if it is not given. -/
def field (fields : List (String × Value)) (key : String) (default : Value) : Value :=
  ((OrderedMap.ofList fields).find? key).getD default

/-- The fields whose keys are not among the given ones. -/
def beside (keys : List String) (fields : List (String × Value)) : List (String × Value) :=
  (OrderedMap.ofList fields).entries.filter fun f => f.1 ∉ keys

/-- The options of a validation. -/
def readValidation (fields : List (String × Value)) : Except Error ValidationPolicy := do
  let reaction ← readReaction (field fields "unknownAttributes" (.text "error"))
  let depth ← readDepth (field fields "maxDepth" (.number 32))
  return ⟨reaction, depth.1, depth.2, beside ["unknownAttributes", "maxDepth"] fields⟩

/-- The options of a restoration. -/
def readRestoration (fields : List (String × Value)) : Except Error RestorationPolicy := do
  let resolvesNames ← readResolvesNames (field fields "resolveTypes" (.bool false))
  return ⟨resolvesNames, beside ["resolveTypes"] fields⟩

/-- Fill in the defaults and check the ranges. -/
def resolve (o : RawOptions) : Except Error Options := do
  let validation ← readValidation o.validation
  let restore ← readRestoration o.restore
  return {
    hierarchy := o.hierarchy.getD .lineage
    diagnostics := o.diagnostics.getD .console
    validation := validation
    restore := restore }

end RawOptions

end AttributeGraph
