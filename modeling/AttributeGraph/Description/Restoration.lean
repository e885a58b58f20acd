/-
Building groups from descriptions.

The groups of a slot are built and registered in order, the typed ones before
the primary one.  Then each group that names a super type is inserted below the
first sibling of that type name; if there is none, a diagnostic says so and the
group stays without a super group.
-/
import AttributeGraph.Attempt
import AttributeGraph.Description.Grammar
import AttributeGraph.Heap.Resolution
import AttributeGraph.Heap.Subclass
import AttributeGraph.Options

namespace AttributeGraph

/-- What is built so far. -/
structure Restoration where
  heap : Heap
  diagnostics : List Diagnostic := []
deriving Inhabited

/-- A step of a restoration. -/
abbrev Restoring (α : Type) := StateM Restoration α

/-- What all groups of a restoration share. -/
structure RestorationScope where
  hierarchy : Hierarchy
  /-- The registry of every copy group. -/
  copies : CopyRegistryId

/-- A restored group and the super type that its description names. -/
structure BuiltGroup where
  superTypeName : Option String
  group : GroupId

namespace Restoring

/-- Change the heap. -/
def edit (f : Heap → Heap) : Restoring Unit := modify fun r => { r with heap := f r.heap }

/-- Change the heap and answer. -/
def build {α : Type} (f : Heap → α × Heap) : Restoring α :=
  modifyGet fun r =>
    let (a, heap) := f r.heap
    (a, { r with heap := heap })

/-- Link a group below its super type, given the groups of its slot. -/
def linkSuper (s : RestorationScope) (siblings : List BuiltGroup) (r : BuiltGroup) :
    Restoring Unit := do
  match r.superTypeName with
  | none => return
  | some superTypeName =>
    let h := (← get).heap
    let isParent (c : BuiltGroup) : Bool :=
      c.group ≠ r.group && (h.group c.group).typeName = some superTypeName
    match siblings.find? isParent with
    | some parent => edit fun h => h.insertBelow s.hierarchy parent.group r.group
    | none =>
      let d := Diagnostic.superTypeUnresolved (h.pathTo r.group) (h.group r.group).name
        superTypeName
      modify fun r => { r with diagnostics := r.diagnostics ++ [d] }

/-- Link the groups of a slot below their super types. -/
def linkSupers (s : RestorationScope) (siblings : List BuiltGroup) : Restoring Unit :=
  siblings.forM (linkSuper s siblings)

/-- The variant of a restored group. -/
def variantOfKind (s : RestorationScope) : Kind → Variant
  | .generic => .generic
  | .fetch => .fetch false
  | .load => .load
  | .copy => .copy { copies := s.copies, cascade := .tree }

mutual
/-- Build a group. -/
def makeGroup (s : RestorationScope) : Description → Restoring GroupId
  | ⟨name, typeName, _, validated, kind, attributes⟩ => do
    let g ← build fun h =>
      h.createGroup name none typeName (validated.getD false) (variantOfKind s (kind.getD .generic))
    makeAttributes s g attributes
    return g
termination_by structural d => d
/-- Build the attributes of a group, if there are any. -/
def makeAttributes (s : RestorationScope) (g : GroupId) :
    Option (List (String × NestedDescription)) → Restoring Unit
  | none => return
  | some attributes => makeItems s g attributes
termination_by structural attributes => attributes
/-- Build the items of a group. -/
def makeItems (s : RestorationScope) (g : GroupId) :
    List (String × NestedDescription) → Restoring Unit
  | [] => return
  | (name, item) :: rest => do
    let i ← build fun h => h.ensureItem g name
    makeItem s i item
    makeItems s g rest
termination_by structural attributes => attributes
/-- Build what is nested in an item. -/
def makeItem (s : RestorationScope) (i : ItemId) : NestedDescription → Restoring Unit
  | ⟨group, typeGroups, keyGroup, keyTypeGroups⟩ => do
    let typed ← makeTyped s typeGroups
    edit fun h => h.registerAll .value i (typed.map BuiltGroup.group)
    let primary ← makePrimary s .value i group
    linkSupers s (typed ++ primary)
    let typed ← makeTyped s keyTypeGroups
    edit fun h => h.registerAll .key i (typed.map BuiltGroup.group)
    let primary ← makePrimary s .key i keyGroup
    linkSupers s (typed ++ primary)
termination_by structural d => d
/-- Build the primary group of a slot, if there is one. -/
def makePrimary (s : RestorationScope) (side : Side) (i : ItemId) :
    Option Description → Restoring (List BuiltGroup)
  | none => return []
  | some d => do
    let g ← makeGroup s d
    edit fun h => h.setRoot side i g
    return [⟨d.superTypeName, g⟩]
termination_by structural d => d
/-- Build the typed groups of a slot, if there are any. -/
def makeTyped (s : RestorationScope) : Option (List Description) → Restoring (List BuiltGroup)
  | none => return []
  | some ds => makeGroups s ds
termination_by structural ds => ds
/-- Build groups in order. -/
def makeGroups (s : RestorationScope) : List Description → Restoring (List BuiltGroup)
  | [] => return []
  | d :: rest => do
    let g ← makeGroup s d
    let more ← makeGroups s rest
    return ⟨d.superTypeName, g⟩ :: more
termination_by structural ds => ds
end

end Restoring

namespace Heap

/-- The error for a root that names a super type. -/
def rootSuperType (name : String) : Error :=
  .parse
    { message := s!"Root group '{name}' cannot extend a sibling group"
      context := some (.of [("path", .text ""), ("groupName", .text name)]) }
    ["/superTypeName is only allowed on nested groups"]

/-- Build a description that has been read. -/
def restoreDescription (h : Heap) (d : Description) (hierarchy : Hierarchy) :
    GroupId × Restoration :=
  let (copies, h) := h.allocCopyRegistry
  (Restoring.makeGroup ⟨hierarchy, copies⟩ d).run { heap := h }

/-- Build groups from a description given as text or as data. -/
def restore (h : Heap) (input : Value) (options : RawOptions) (resolver : Option Resolver) :
    Outcome GroupId :=
  let failed (e : Error) : Outcome GroupId := { heap := h, answer := .error e }
  match options.resolve with
  | .error e => failed e
  | .ok resolved =>
    if resolved.restore.resolvesNames ∧ resolver.isNone then
      failed (.config "restore.resolveTypes requires a type resolver"
        (some "restore.resolveTypes"))
    else
      match Description.read input with
      | .error e => failed e
      | .ok (_, d) =>
        if d.superTypeName.isSome then failed (rootSuperType d.name)
        else
          let (g, r) := h.restoreDescription d resolved.hierarchy
          match resolver, resolved.restore.resolvesNames with
          | some resolver, true =>
            let resolution := r.heap.resolveNames g resolver
            { heap := resolution.heap
              diagnostics := r.diagnostics
              answer := resolution.answer.map fun _ => g }
          | _, _ => { heap := r.heap, diagnostics := r.diagnostics, answer := .ok g }

/-- Build groups from a description; an error about groups is an answer and is not raised. -/
def tryRestore (h : Heap) (input : Value) (options : RawOptions) (resolver : Option Resolver) :
    Except Raised (Except Raised GroupId) :=
  capture Raised.isGroup ((h.restore input options resolver).answer.mapError .group)

end Heap

end AttributeGraph
