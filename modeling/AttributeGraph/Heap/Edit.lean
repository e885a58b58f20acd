/-
Changing groups: attributes are added, nested groups registered, items removed.

Adding a path creates what is missing of it, item by item and group by group; a
created group has the variant of the group above it.  Registering a nested group
files it under its type tag, if it has one, and decides whether it becomes the
primary group of its slot.  A path is checked before anything is changed.
-/
import AttributeGraph.Heap.Lookup
import AttributeGraph.Diagnostic

namespace AttributeGraph

/-- What an operation leaves behind: the heap, the diagnostics, and an answer or an error. -/
structure Outcome (α : Type) where
  heap : Heap
  diagnostics : List Diagnostic := []
  answer : Except Error α

namespace Slot

/-- Register a group whose type tag `tagOf` tells.  Without a tag it becomes primary.  With one it
is filed under it, and becomes primary if there is no primary group, or one without a tag, or one
with the same tag. -/
def register (tagOf : GroupId → Option TypeTag) (s : Slot) (g : GroupId) : Slot :=
  match tagOf g with
  | none => { s with primary := some g }
  | some k =>
    let byType := some ((s.byType.getD .empty).insert k g)
    match s.primary with
    | none => ⟨some g, byType⟩
    | some p => if tagOf p = none ∨ tagOf p = some k then ⟨some g, byType⟩ else ⟨some p, byType⟩

end Slot

namespace Heap

/-! ### Single fields -/

/-- A group by name, type, type name and variant; a type lends its name where none is given. -/
def createGroup (h : Heap) (name : String) (type : Option ObjectType) (typeName : Option String)
    (validated : Bool) (v : Variant) : GroupId × Heap :=
  h.allocGroup
    { name := name, type := type, typeName := typeName.or (type.map ObjectType.name)
      validated := validated } v

/-- Rename a group. -/
def setName (h : Heap) (g : GroupId) (name : String) : Heap :=
  h.alterGroup g fun x => { x with name := name }

/-- Flag a group as checked or unchecked. -/
def setValidated (h : Heap) (g : GroupId) (validated : Bool) : Heap :=
  h.alterGroup g fun x => { x with validated := validated }

/-- Set the type of a group and leave its type name. -/
def setType (h : Heap) (g : GroupId) (type : Option ObjectType) : Heap :=
  h.alterGroup g fun x => { x with type := type }

/-- Set the type name of a group and leave its type. -/
def setTypeName (h : Heap) (g : GroupId) (typeName : Option String) : Heap :=
  h.alterGroup g fun x => { x with typeName := typeName }

/-- Set the super group of a group and leave the sub groups of the other. -/
def setAbove (h : Heap) (g : GroupId) (super : Option GroupId) : Heap :=
  h.alterGroup g fun x => { x with above := super }

/-- Set the sub groups of a group and leave the super groups of the others. -/
def setBelow (h : Heap) (g : GroupId) (subs : Option (List GroupId)) : Heap :=
  h.alterGroup g fun x => { x with below := subs.map .ofList }

/-- Change the settings of a group's variant, and with them those of every group that shares
them. -/
def setVariant (h : Heap) (g : GroupId) (f : Variant → Variant) : Heap :=
  h.alterVariant (h.group g).variant f

/-! ### Nested groups of an item -/

/-- Let a group be nested in an item. -/
def setNestedIn (h : Heap) (g : GroupId) (i : ItemId) : Heap :=
  h.alterGroup g fun x => { x with nestedIn := some i }

/-- Make a group the primary one of a slot. -/
def setRoot (h : Heap) (side : Side) (i : ItemId) (g : GroupId) : Heap :=
  (h.setNestedIn g i).alterItem i (Item.mapSlot side fun s => { s with primary := some g })

/-- Register a group in a slot. -/
def register (h : Heap) (side : Side) (i : ItemId) (g : GroupId) : Heap :=
  (h.setNestedIn g i).alterItem i (Item.mapSlot side fun s => s.register h.tag? g)

/-- Register groups in order. -/
def registerAll (h : Heap) (side : Side) (i : ItemId) (gs : List GroupId) : Heap :=
  gs.foldl (fun h g => h.register side i g) h

/-! ### Items of a group -/

/-- The item of a name, created if there is none. -/
def ensureItem (h : Heap) (g : GroupId) (name : String) : ItemId × Heap :=
  match (h.group g).items.find? name with
  | some i => (i, h)
  | none =>
    let (i, h) := h.allocItem { name := name, owner := g }
    (i, h.alterGroup g fun x => { x with items := x.items.insert name i })

/-- The primary nested group of an item, created if there is none.  It is named after the item
and has the variant of the group `g`. -/
def ensureNested (h : Heap) (g : GroupId) (i : ItemId) (name : String) : GroupId × Heap :=
  match (h.item i).value.primary with
  | some nested => (nested, h)
  | none =>
    let (nested, h) := h.allocGroup { name := name } (h.variantOf g)
    (nested, h.setRoot .value i nested)

/-- The item of a path, created with everything that leads to it. -/
def ensurePath (h : Heap) (g : GroupId) (head : String) : List String → ItemId × Heap
  | [] => h.ensureItem g head
  | next :: rest =>
    let (i, h) := h.ensureItem g head
    let (nested, h) := h.ensureNested g i head
    h.ensurePath nested next rest

/-- File an item in a group, which becomes its owner. -/
def fileItem (h : Heap) (g : GroupId) (i : ItemId) : Heap :=
  let h := h.alterItem i fun x => { x with owner := g }
  h.alterGroup g fun x => { x with items := x.items.insert (h.item i).name i }

/-! ### Operations on paths -/

/-- The item of a path, created on demand. -/
def reachItem (h : Heap) (g : GroupId) (input : PathInput) (create : Bool) :
    Except Error (Option ItemId × Heap) := do
  let p ← Path.parse input
  if create then
    let (i, h) := h.ensurePath g p.head p.tail
    return (some i, h)
  else
    return (h.itemAt? g p, h)

/-- Add an attribute, and register nested groups on one side of it. -/
def addNested (h : Heap) (side : Side) (g : GroupId) (input : PathInput) (nested : List GroupId) :
    Except Error Heap := do
  let p ← Path.parse input
  let (i, h) := h.ensurePath g p.head p.tail
  return h.registerAll side i nested

/-- Add an attribute, with nested groups for its value. -/
def addPath (h : Heap) (g : GroupId) (input : PathInput) (nested : List GroupId := []) :
    Except Error Heap :=
  h.addNested .value g input nested

/-- Add an attribute that is a map, with nested groups for its keys. -/
def addKeyPath (h : Heap) (g : GroupId) (input : PathInput) (nested : List GroupId) :
    Except Error Heap :=
  h.addNested .key g input nested

/-- Add attributes in order, up to the first path that is none. -/
def addPaths (h : Heap) (g : GroupId) : List String → Outcome Unit
  | [] => { heap := h, answer := .ok () }
  | path :: rest =>
    match h.addPath g (.text path) with
    | .ok h => h.addPaths g rest
    | .error e => { heap := h, answer := .error e }

/-- Remove the item of a path from the group that owns it. -/
def removePath (h : Heap) (g : GroupId) (input : PathInput) : Except Error Heap := do
  let p ← Path.parse input
  match h.itemAt? g p with
  | none => return h
  | some i =>
    let item := h.item i
    return h.alterGroup item.owner fun x => { x with items := x.items.erase item.name }

/-! ### What they come to -/

section Results

variable {h h' : Heap} {g : GroupId} {input : PathInput}

/-- Nested groups are registered in the item of a path, which is created where it is missing. -/
theorem addNested_eq_ok {side : Side} {nested : List GroupId}
    (hadd : h.addNested side g input nested = .ok h') :
    ∃ p, Path.parse input = .ok p ∧ h' = (h.ensurePath g p.head p.tail).2.registerAll side
      (h.ensurePath g p.head p.tail).1 nested := by
  unfold addNested at hadd
  cases hp : Path.parse input with
  | error e =>
    rw [hp] at hadd
    cases hadd
  | ok p =>
    rw [hp] at hadd
    exact ⟨p, rfl, (Except.ok.inj hadd).symm⟩

/-- The item of a path is created, or it is looked up and nothing changes. -/
theorem reachItem_eq_ok {create : Bool} {found : Option ItemId}
    (hreach : h.reachItem g input create = .ok (found, h')) :
    ∃ p, Path.parse input = .ok p ∧
      (create = true ∧ h' = (h.ensurePath g p.head p.tail).2 ∨
        create = false ∧ found = h.itemAt? g p ∧ h' = h) := by
  unfold reachItem at hreach
  cases hp : Path.parse input with
  | error e =>
    rw [hp] at hreach
    cases hreach
  | ok p =>
    rw [hp] at hreach
    cases create with
    | true => exact ⟨p, rfl, .inl ⟨rfl, (Prod.mk.inj (Except.ok.inj hreach)).2.symm⟩⟩
    | false =>
      obtain ⟨hfound, hh⟩ := Prod.mk.inj (Except.ok.inj hreach)
      exact ⟨p, rfl, .inr ⟨rfl, hfound.symm, hh.symm⟩⟩

/-- The name of the item of a path is erased from the items of its owner. -/
theorem removePath_of_parse {p : Path} (hp : Path.parse input = .ok p) :
    h.removePath g input = .ok (match h.itemAt? g p with
      | none => h
      | some i => h.alterGroup (h.item i).owner fun x =>
          { x with items := x.items.erase (h.item i).name }) := by
  rw [removePath, hp]
  show (match h.itemAt? g p with | none => _ | some i => _) = _
  cases h.itemAt? g p <;> rfl

theorem removePath_eq_ok (hremove : h.removePath g input = .ok h') :
    h' = h ∨ ∃ i, h' = h.alterGroup (h.item i).owner fun x =>
      { x with items := x.items.erase (h.item i).name } := by
  cases hp : Path.parse input with
  | error e =>
    rw [removePath, hp] at hremove
    cases hremove
  | ok p =>
    rw [removePath_of_parse hp] at hremove
    rw [← Except.ok.inj hremove]
    cases h.itemAt? g p with
    | none => exact .inl rfl
    | some i => exact .inr ⟨i, rfl⟩

end Results

end Heap

end AttributeGraph
