/-
Describing the groups of a heap.

A group is described with its items and the groups nested in them.  Its super
group is recorded, by type name, only where it is a sibling: a group of the same
slot.  A shared group is described wherever it occurs.  A group that is nested
in itself has no description; the groups on the way are marked, and meeting a
marked one is an error.
-/
import AttributeGraph.Description
import AttributeGraph.Error
import AttributeGraph.Heap.Chain

namespace AttributeGraph

/-- A description in progress: it marks groups and may fail; none if it runs out of depth. -/
abbrev Describing (α : Type) := StateT (List GroupId) (ExceptT Error Option) α

namespace Heap

/-- The groups of a slot: the typed ones, then the primary one if it is not among them. -/
def siblings (s : Slot) : List GroupId :=
  (OrderedSet.ofList (s.typed ++ s.primary.toList)).toList

/-- The typed groups of a slot, a primary one among them first. -/
def typedInOrder (s : Slot) : List GroupId :=
  match s.primary with
  | some p => if p ∈ s.typed then p :: s.typed.erase p else s.typed
  | none => s.typed

/-- Describe a slot: its typed groups, then its primary group unless it is one of them. -/
def slotDescriptions (describe : List GroupId → GroupId → Describing Description) (s : Slot) :
    Describing (Option Description × Option (List Description)) := do
  let typed ← (typedInOrder s).mapM (describe (siblings s))
  let primary ← (s.primary.filter (· ∉ s.typed)).toList.mapM (describe (siblings s))
  return (primary.head?, if typed.isEmpty then none else some typed)

/-- Describe an item: the slot of its value, then that of its key. -/
def itemDescription (describe : List GroupId → GroupId → Describing Description) (i : Item) :
    Describing NestedDescription := do
  let (group, typeGroups) ← slotDescriptions describe i.value
  let (keyGroup, keyTypeGroups) ← slotDescriptions describe i.key
  return ⟨group, typeGroups, keyGroup, keyTypeGroups⟩

/-- The type name of a group's super group, if that is a sibling. -/
def siblingTypeName (h : Heap) (siblings : List GroupId) (g : GroupId) : Option String :=
  ((h.group g).above.filter (· ∈ siblings)).bind fun s => (h.group s).typeName

/-- Describe a group among its siblings, at most `fuel` groups deep. -/
def describeWithin (h : Heap) : Nat → List GroupId → GroupId → Describing Description
  | 0, _, _ => StateT.lift (ExceptT.mk none)
  | fuel + 1, siblings, g => do
    let x := h.group g
    if g ∈ (← get) then throw (.descriptionCycle (.text (h.pathTo g)) x.name)
    modify (g :: ·)
    let attributes ← x.items.entries.mapM fun e => do
      return (e.1, ← itemDescription (h.describeWithin fuel) (h.item e.2))
    modify (·.erase g)
    let kind := (h.variantOf g).kind
    return {
      name := x.name
      typeName := x.typeName
      superTypeName := h.siblingTypeName siblings g
      validated := if x.validated then some true else none
      kind := if kind = .generic then none else some kind
      attributes :=
        if x.hasAttributes then some (attributes.filter fun e => e.1 ≠ "__proto__") else none }

/-- The description of a group.  An attribute named `__proto__` is left out, since no object can
hold it as a property. -/
def description (h : Heap) (g : GroupId) : Except Error Description :=
  match (h.describeWithin (h.groups.size + 2) [] g).run [] with
  | some (.ok (d, _)) => .ok d
  | some (.error e) => .error e
  | none => .ok default

end Heap

end AttributeGraph
