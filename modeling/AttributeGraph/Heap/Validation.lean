/-
Checking groups against their types.

Every attribute that a group declares must exist on the group's type or on an
ancestor of it.  A nested group without a type of its own is checked against the
type that the attribute leads to.  Groups found clean are flagged, and a flagged
group is not looked at again; a group without a describable type is reported and
left.  Nested groups are entered up to a given depth only.

Groups are visited depth first, each at most once in a run.
-/
import AttributeGraph.Heap.Edit
import AttributeGraph.Options
import AttributeGraph.Registry

namespace AttributeGraph

/-- A validation in progress: the flags live in the heap. -/
structure ValidationState where
  heap : Heap
  visited : List GroupId := []
  failures : List Failure := []
  diagnostics : List Diagnostic := []
deriving Inhabited

/-- A step of a validation; none if it runs out of depth. -/
abbrev Validating (α : Type) := StateT ValidationState Option α

namespace Heap

/-- How a validation enters a group: the type implied for it, and its depth. -/
abbrev Check := GroupId → Option ObjectType → Nat → Validating Unit

/-- Check one item of a group, then the groups nested in it. -/
def checkItem (visit : Check) (maxDepth : Nat) (g : GroupId) (i : ItemId) (d : TypeProfile)
    (depth : Nat) : Validating Unit := do
  let h := (← get).heap
  let item := h.item i
  match d.attribute? item.name with
  | none =>
    let typeName := d.type.name
    let failure : Failure :=
      { path := Path.join (h.pathTo g) item.name
        message := s!"Attribute '{item.name}' is not defined on {typeName}"
        typeName := some typeName }
    modify fun r => { r with failures := r.failures ++ [failure] }
  | some a =>
    if depth + 1 ≤ maxDepth then
      (item.value.primary.toList ++ item.value.typed).forM fun n => visit n a.target (depth + 1)
      (item.key.primary.toList ++ item.key.typed).forM fun n => visit n a.keyTarget (depth + 1)

/-- Check a group and all that it leads to, at most `fuel` groups deep. -/
def checkGroup (profileOf : ObjectType → Option TypeProfile) (maxDepth : Nat) : Nat → Check
  | 0, _, _, _ => failure
  | fuel + 1, g, implied, depth => do
    let run ← get
    let x := run.heap.group g
    if x.validated ∨ g ∈ run.visited then return
    set { run with visited := g :: run.visited }
    let type := x.type.or implied
    match type.bind profileOf with
    | none =>
      let typeName := x.typeName.or (type.map ObjectType.name)
      let diagnostic := Diagnostic.typeUnresolved (run.heap.pathTo g) x.name typeName
      modify fun r => { r with diagnostics := r.diagnostics ++ [diagnostic] }
    | some d =>
      let visit := checkGroup profileOf maxDepth fuel
      let before := run.failures.length
      x.itemIds.forM fun i => checkItem visit maxDepth g i d depth
      if (← get).failures.length = before then
        modify fun r => { r with heap := r.heap.setValidated g true }
      x.above.toList.forM fun s => visit s (d.parent?.map TypeProfile.type) depth
      x.subs.forM fun s => visit s none depth

/-- The run of a validation. -/
def validationEnd (h : Heap) (g : GroupId) (profileOf : ObjectType → Option TypeProfile)
    (maxDepth : Nat) : ValidationState :=
  match (checkGroup profileOf maxDepth (h.groups.size + 2) g none 0).run { heap := h } with
  | some (_, run) => run
  | none => { heap := h }

/-- Check a group against its type.  Failures are answered, or make the operation fail. -/
def validate (h : Heap) (g : GroupId) (profileOf : ObjectType → Option TypeProfile)
    (options : ValidationPolicy) : Outcome (List Failure) :=
  let run := h.validationEnd g profileOf options.maxDepth
  match run.failures, options.reaction with
  | [], _ => { heap := run.heap, diagnostics := run.diagnostics, answer := .ok [] }
  | failures, .warn =>
    { heap := run.heap
      diagnostics := run.diagnostics ++ failures.map Diagnostic.unknownAttribute
      answer := .ok failures }
  | failures, .error =>
    let paths := ", ".intercalate (failures.map Failure.path)
    { heap := run.heap
      diagnostics := run.diagnostics
      answer := .error (.validation { message := s!"Unknown attributes: {paths}" } failures) }

/-- Check a group with untyped options. -/
def validateWith (h : Heap) (g : GroupId) (profileOf : ObjectType → Option TypeProfile)
    (options : RawOptions) : Outcome (List Failure) :=
  match options.resolve with
  | .ok resolved => h.validate g profileOf resolved.validation
  | .error e => { heap := h, answer := .error e }

end Heap

end AttributeGraph
