/-
When one group covers another.

A group covers another if it declares every attribute that the other declares,
with nested groups that cover the other's.  The comparison is deliberately
generous in one place: where the other group has a nested group and this one has
none at all, the comparison of the two groups ends at once with a yes, whatever
attributes remain, and a diagnostic says so.

Pairs that are being compared count as covered when they are met again.  They
are marked while they are compared, and every mark is taken back.
-/
import AttributeGraph.Diagnostic
import AttributeGraph.Heap.Chain
import AttributeGraph.Path

namespace AttributeGraph

/-- What one slot says about the comparison of two groups. -/
inductive SlotVerdict where
  | proceed
  | fail
  /-- The slot is empty on this side only. -/
  | shortCircuit
deriving DecidableEq, Inhabited

/-- The pairs being compared, and the diagnostics emitted so far. -/
structure CoverageState where
  marks : List (GroupId × GroupId) := []
  diagnostics : List Diagnostic := []
deriving Inhabited

/-- A comparison in progress; none if it runs out of depth. -/
abbrev Covering (α : Type) := StateT CoverageState Option α

namespace Covering

/-- Compare with a pair marked. -/
def within (pair : GroupId × GroupId) (body : Covering Bool) : Covering Bool := do
  modify fun s => { s with marks := pair :: s.marks }
  let r ← body
  modify fun s => { s with marks := s.marks.erase pair }
  return r

/-- Emit a diagnostic. -/
def report (d : Diagnostic) : Covering Unit :=
  modify fun s => { s with diagnostics := s.diagnostics ++ [d] }

/-- The outcome of the first slot that does not let the comparison proceed. -/
def firstOf : List (Covering SlotVerdict) → Covering SlotVerdict
  | [] => return .proceed
  | slot :: rest => do
    match ← slot with
    | .proceed => firstOf rest
    | outcome => return outcome

end Covering

namespace Heap

/-- How a comparison of two groups is continued in their slots. -/
abbrev Compare := GroupId → Option GroupId → Covering Bool

/-- Compare the primary groups of two slots. -/
def coverPrimary (compare : Compare) (mine theirs : Option GroupId) : Covering SlotVerdict :=
  match mine, theirs with
  | some g, _ => return if ← compare g theirs then .proceed else .fail
  | none, some _ => return .shortCircuit
  | none, none => return .proceed

/-- Compare groups filed per type, in the order of this side. -/
def coverEntries (compare : Compare) (theirs : OrderedMap TypeTag GroupId) :
    List (TypeTag × GroupId) → Covering SlotVerdict
  | [] => return .proceed
  | (k, g) :: rest => do
    if ← compare g (theirs.find? k) then coverEntries compare theirs rest else return .fail

/-- Compare the groups that two slots file per type. -/
def coverTyped (compare : Compare) (mine theirs : Option (OrderedMap TypeTag GroupId)) :
    Covering SlotVerdict :=
  match mine, theirs with
  | none, _ => return .proceed
  | some _, none => return .shortCircuit
  | some mine, some theirs => coverEntries compare theirs mine.entries

/-- Compare two items: value, key, typed values, typed keys. -/
def coverItem (compare : Compare) (mine theirs : Item) : Covering SlotVerdict :=
  Covering.firstOf
    [coverPrimary compare mine.value.primary theirs.value.primary,
      coverPrimary compare mine.key.primary theirs.key.primary,
      coverTyped compare mine.value.byType theirs.value.byType,
      coverTyped compare mine.key.byType theirs.key.byType]

/-- Compare the items of a group with those of another, in the order of the other. -/
def coverItems (h : Heap) (compare : Compare) (g : GroupId) :
    List (String × ItemId) → Covering Bool
  | [] => return true
  | (name, theirs) :: rest =>
    match (h.group g).items.find? name with
    | none => return false
    | some mine => do
      match ← coverItem compare (h.item mine) (h.item theirs) with
      | .fail => return false
      | .shortCircuit =>
        Covering.report (.shortCircuit (Path.join (h.pathTo g) name))
        return true
      | .proceed => h.coverItems compare g rest

/-- Compare two groups, at most `fuel` pairs deep. -/
def coversWithin (h : Heap) : Nat → Compare
  | 0, _, _ => failure
  | _ + 1, _, none => return false
  | fuel + 1, g, some other => do
    if other = g then return true
    else if !(h.group g).hasAttributes then return !(h.group other).hasAttributes
    else if !(h.group other).hasAttributes then return true
    else if (g, other) ∈ (← get).marks then return true
    else
      Covering.within (g, other)
        (h.coverItems (h.coversWithin fuel) g (h.group other).items.entries)

/-- How deep pairs of groups can be compared within one another. -/
def coverageDepth (h : Heap) : Nat := (h.groups.size + 1) * (h.groups.size + 1) + 1

/-- Whether a group covers another one, with the diagnostics of the comparison. -/
def coverage (h : Heap) (g : GroupId) (other : Option GroupId) : Bool × List Diagnostic :=
  match (h.coversWithin h.coverageDepth g other).run {} with
  | some (r, s) => (r, s.diagnostics)
  | none => (false, [])

end Heap

/-- How the attributes of one group relate to those of another. -/
inductive Relation where
  | equal
  | superset
  | subset
  | incomparable
deriving DecidableEq, Inhabited

namespace Relation

/-- The relation as text. -/
def text : Relation → String
  | equal => "equal"
  | superset => "superset"
  | subset => "subset"
  | incomparable => "incomparable"

/-- The relation of two groups of which it is known who covers whom. -/
def ofCoverage (covers coveredBy : Bool) : Relation :=
  match covers, coveredBy with
  | true, true => equal
  | true, false => superset
  | false, true => subset
  | false, false => incomparable

end Relation

/-- The relation of a group to another one. -/
def Heap.relation (h : Heap) (g other : GroupId) : Relation :=
  .ofCoverage (h.coverage g (some other)).1 (h.coverage other (some g)).1

end AttributeGraph
