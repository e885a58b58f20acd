/-
Turning type names into types, for a whole graph of groups.

The groups reachable through super, sub and nested links are visited depth
first, each once.  A group with a type name and no type gets its type when it is
visited; once the groups nested in an item have been visited, the item files
them under the type tags they have now.  The order of these changes is fixed by
the links alone, so it is worked out first and then carried out up to the first
name that the resolver refuses.
-/
import AttributeGraph.Exploration
import AttributeGraph.Heap.Edit
import AttributeGraph.Registry

namespace AttributeGraph.Heap

/-- A single change. -/
inductive Change where
  /-- Give a group its type. -/
  | resolve (g : GroupId)
  /-- File the nested groups of an item under their present keys. -/
  | refile (i : ItemId)
deriving DecidableEq

/-- What is still to be visited or changed. -/
inductive ResolutionTask where
  | group (g : GroupId)
  | item (i : ItemId)
  | refile (i : ItemId)
deriving DecidableEq

/-- The groups visited and the changes to be made, both latest first. -/
structure ResolutionPlan where
  seen : List GroupId := []
  changes : List Change := []
deriving DecidableEq

/-- What follows from visiting a group. -/
def resolutionTasks (h : Heap) (g : GroupId) : List ResolutionTask :=
  let x := h.group g
  x.above.toList.map .group ++ x.subs.map .group ++ x.itemIds.map .item

/-- Take one task. -/
def resolutionStep (h : Heap) (p : ResolutionPlan) :
    ResolutionTask → ResolutionPlan × List ResolutionTask
  | .group g =>
    if g ∈ p.seen then (p, [])
    else ({ seen := g :: p.seen, changes := .resolve g :: p.changes }, h.resolutionTasks g)
  | .item i => (p, (h.item i).nested.map .group ++ [.refile i])
  | .refile i => ({ p with changes := .refile i :: p.changes }, [])

/-- The steps that a task takes, not counting the groups that it leads to for the first time. -/
def resolutionCost (h : Heap) : ResolutionTask → Nat
  | .item i => (h.item i).nested.length + 2
  | _ => 1

/-- The steps that visiting all groups takes. -/
def resolutionBound (h : Heap) : Nat :=
  totalCost (fun g => totalCost h.resolutionCost (h.resolutionTasks g)) h.groupIds

/-- The changes that tasks lead to, in order. -/
def resolutionPlan (h : Heap) (todo : List ResolutionTask) : List Change :=
  match explore h.resolutionStep (h.resolutionBound + totalCost h.resolutionCost todo) {} todo with
  | some p => p.changes.reverse
  | none => []

/-- File groups under their present keys; one without a key keeps the old one.  Of groups that
come to share a key the last one stays, in the first one's place. -/
def refiled (h : Heap) (groups : OrderedMap TypeTag GroupId) : OrderedMap TypeTag GroupId :=
  .ofList (groups.entries.map fun e => ((h.tag? e.2).getD e.1, e.2))

/-- Carry out a change. -/
def apply (h : Heap) (resolver : Resolver) : Change → Except Error Heap
  | .resolve g =>
    match (h.group g).type, (h.group g).typeName with
    | none, some name =>
      match resolver name with
      | .ok type => .ok (h.setType g (some type))
      | .error cause => .error (.typeResolution name (some cause))
    | _, _ => .ok h
  | .refile i =>
    let refile (s : Slot) : Slot := { s with byType := s.byType.map h.refiled }
    .ok (h.alterItem i fun x => { x with value := refile x.value, key := refile x.key })

/-- Carry out changes in order, up to the first that fails. -/
def applyAll (h : Heap) (resolver : Resolver) : List Change → Outcome Unit
  | [] => { heap := h, answer := .ok () }
  | c :: rest =>
    match h.apply resolver c with
    | .ok h => h.applyAll resolver rest
    | .error e => { heap := h, answer := .error e }

/-- Resolve the type names of all groups reachable from a group. -/
def resolveNames (h : Heap) (g : GroupId) (resolver : Resolver) : Outcome Unit :=
  h.applyAll resolver (h.resolutionPlan [.group g])

/-- Resolve the type names of all groups reachable from an item, and file its groups anew. -/
def resolveItemNames (h : Heap) (i : ItemId) (resolver : Resolver) : Outcome Unit :=
  h.applyAll resolver (h.resolutionPlan [.item i])

end AttributeGraph.Heap
