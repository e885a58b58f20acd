/-
Copying a graph of groups node by node.

`Heap.copyFor` first plans a copy and then lays it out.  Here the copy is made on the way:
a group or an item is made when it is met for the first time and remembered as the copy of
its source before anything that it is linked to is copied, so a cycle comes back to the
node that has been made.  Until its links have been copied, that node is only half built.

An item that is met from a group nested in it is made with the copy of its owner, which
may have made the item already.  One that is met from the group that it is filed in is made
for the copy of that group, which then files it and becomes its owner.
-/
import AttributeGraph.Heap.Specialization

namespace AttributeGraph

/-- The heap that copies are made in, and what has been made of which node, latest first. -/
structure Copies where
  heap : Heap
  groups : List (GroupId × GroupId) := []
  items : List (ItemId × ItemId) := []

/-- Copying in progress.  It fails with the first group that the factory refuses; none if it runs
out of depth. -/
abbrev Copying (α : Type) := StateT Copies (ExceptT (GroupId × Cause) Option) α

namespace Heap

/-- A new group with the variant that a factory issued. -/
def allocIssued (h : Heap) (x : Group) : Issued → GroupId × Heap
  | .fresh v => h.allocGroup x v
  | .existing v => (⟨h.groups.size⟩, { h with groups := h.groups.push { x with variant := v } })

/-- The copy of a group before it is linked to anything. -/
def unlinked (h : Heap) (g : GroupId) : Group :=
  let x := h.group g
  { name := x.name
    type := x.type
    typeName := x.typeName.or (x.type.map ObjectType.name)
    validated := x.validated }

end Heap

namespace Copying

/-- Change a group that has been made. -/
def editGroup (made : GroupId) (change : Group → Group) : Copying Unit :=
  modify fun s => { s with heap := s.heap.alterGroup made change }

/-- Change an item that has been made. -/
def editItem (made : ItemId) (change : Item → Item) : Copying Unit :=
  modify fun s => { s with heap := s.heap.alterItem made change }

/-- Make the copy of a group, without links. -/
def addGroup (h : Heap) (f : Factory) (g : GroupId) : Copying GroupId := do
  match f.issue h g with
  | .error cause => throw (g, cause)
  | .ok issued =>
    let s ← get
    let (made, heap) := s.heap.allocIssued (h.unlinked g) issued
    set { s with heap, groups := (g, made) :: s.groups }
    return made

/-- Make the copy of an item, without nested groups. -/
def addItem (h : Heap) (i : ItemId) (owner : GroupId) : Copying ItemId := do
  let s ← get
  let (made, heap) := s.heap.allocItem { name := (h.item i).name, owner }
  set { s with heap, items := (i, made) :: s.items }
  return made

/-- File an item in a group under its name; the group becomes its owner. -/
def adopt (made : GroupId) (item : ItemId) : Copying Unit := do
  editItem item fun x => { x with owner := made }
  let name := ((← get).heap.item item).name
  editGroup made fun x => { x with items := x.items.insert name item }

/-- Copy the primary group of one side of an item. -/
def copyPrimary (copy : GroupId → Copying GroupId) (x : Item) (made : ItemId) (side : Side) :
    Copying Unit := do
  let primary ← (x.slot side).primary.mapM copy
  editItem made (Item.mapSlot side fun s => { s with primary })

/-- Copy the groups that one side of an item files per type. -/
def copyTyped (copy : GroupId → Copying GroupId) (x : Item) (made : ItemId) (side : Side) :
    Copying Unit := do
  let byType ← (x.slot side).byType.mapM fun m => do
    return OrderedMap.ofList (← m.entries.mapM fun e => do return (e.1, ← copy e.2))
  editItem made (Item.mapSlot side fun s => { s with byType })

/-- What a group is told about the copy of the item that it is nested in: that is `made`, if the
group is nested in `i`. -/
def toldOf (h : Heap) (i : Option ItemId) (made : Option ItemId) (g : GroupId) : Option ItemId :=
  if (h.group g).nestedIn = i then made else none

section Links

variable (h : Heap) (copy : GroupId → Option ItemId → Copying GroupId)

/-- Copy the groups nested in an item. -/
def fillItem (i : ItemId) (made : ItemId) : Copying Unit := do
  let x := h.item i
  let nested (g : GroupId) := copy g (toldOf h (some i) (some made) g)
  copyPrimary nested x made .value
  copyPrimary nested x made .key
  copyTyped nested x made .value
  copyTyped nested x made .key

/-- Copy an item that has not been met, for a given owner. -/
def makeItem (i : ItemId) (owner : GroupId) : Copying ItemId := do
  let made ← addItem h i owner
  fillItem h copy i made
  return made

/-- Copy an item, for a group if there is one that it is made for. -/
def copyItem (i : ItemId) (owner : Option GroupId) : Copying ItemId := do
  match (← get).items.lookup i, owner with
  | some made, _ => return made
  | none, some owner => makeItem h copy i owner
  | none, none =>
    let owner ← copy (h.item i).owner none
    match (← get).items.lookup i with
    | some made => return made
    | none => makeItem h copy i owner

/-- Copy the item that a group is nested in, unless its copy is known. -/
def copyParent (g : GroupId) : Option ItemId → Copying (Option ItemId)
  | some made => return some made
  | none => (h.group g).nestedIn.mapM fun i => copyItem h copy i none

/-- Copy the items of a group, and file each of them in the copy of the group. -/
def copyItems (items : List ItemId) (made : GroupId) : Copying Unit :=
  forM items fun i => do adopt made (← copyItem h copy i (some made))

/-- Copy what a group is linked to. -/
def fillGroup (g : GroupId) (parent : Option ItemId) (made : GroupId) : Copying Unit := do
  let x := h.group g
  let nestedIn ← copyParent h copy g parent
  editGroup made fun y => { y with nestedIn }
  let related (s : GroupId) := copy s (toldOf h x.nestedIn nestedIn s)
  let above ← x.above.mapM related
  editGroup made fun y => { y with above }
  let below ← x.below.mapM fun s => do return OrderedSet.ofList (← s.toList.mapM related)
  editGroup made fun y => { y with below }
  copyItems h copy x.itemIds made

end Links

/-- Copy a group, at most `depth` groups deep, and tell it the copy of the item that it is nested in
if that is known. -/
def copyGroup (h : Heap) (f : Factory) : Nat → GroupId → Option ItemId → Copying GroupId
  | 0, _, _ => StateT.lift (ExceptT.mk none)
  | depth + 1, g, parent => do
    match (← get).groups.lookup g with
    | some made => return made
    | none =>
      let made ← addGroup h f g
      fillGroup h (copyGroup h f depth) g parent made
      return made

end Copying

/-- Copy a group with everything that it is linked to, node by node.  What has been made when a
group is refused is linked from nowhere. -/
def Heap.copyNodewise (h : Heap) (root : GroupId) (f : Factory) (depth : Nat) :
    Option (Outcome GroupId) :=
  match ((Copying.copyGroup h f depth root none).run { heap := h }).run with
  | some (.ok (made, s)) => some { heap := s.heap, answer := .ok made }
  | some (.error (g, cause)) =>
    some
      { heap := h
        diagnostics := [.cloneFailed (h.pathTo g) (h.group g).name f.label]
        answer := .error (h.cloneError f g cause) }
  | none => none

end AttributeGraph
