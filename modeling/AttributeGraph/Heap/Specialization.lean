/-
Copying a graph of groups for another engine.

A factory decides which variant each group of the copy gets; it may refuse a
group, and then nothing is copied.  Everything that the root is linked to is
copied with it, each group and each item once, so shared nodes stay shared and
cycles close again.

The nodes are first collected in the order in which they are met: a group before
its owning item, super group, sub groups and items, an item before its nested
groups.  The factory is asked in that order.  The copy of the `n`-th node met is
the `n`-th new node, and its links are those of the node, relocated.  An item
that is filed in several groups belongs to the copy of the one whose items were
finished last.  Copying node by node, `Heap.copyNodewise`, comes to the same.
-/
import AttributeGraph.Exploration
import AttributeGraph.Heap.Edit

namespace AttributeGraph

/-- The variant that a factory issues for a group. -/
inductive Issued where
  /-- One of the copy's own. -/
  | fresh (v : Variant)
  /-- Settings that the heap has already, such as those of the group that is copied. -/
  | existing (v : VariantId)
deriving DecidableEq

/-- What decides about the variants of copied groups. -/
structure Factory where
  /-- How the factory is called in diagnostics and errors. -/
  label : String
  /-- The variant for a group of a heap, or why there is none. -/
  issue : Heap → GroupId → Except Cause Issued

namespace Factory

/-- Copies keep their settings. -/
def clone : Factory := ⟨"clone", fun h g => .ok (.fresh (h.variantOf g))⟩

/-- Copies are for a fetch engine, and load relationships if the group did. -/
def fetch : Factory := ⟨"fetch", fun h g => .ok (.fresh (.fetch (h.variantOf g).loadsAll))⟩

/-- Copies are for a load engine. -/
def load : Factory := ⟨"load", fun _ _ => .ok (.fresh .load)⟩

/-- Copies are for a copy engine; all share one registry and cascade through the whole tree. -/
def copy (copies : CopyRegistryId) : Factory :=
  ⟨"copy", fun _ _ => .ok (.fresh (.copy { copies := copies, cascade := .tree }))⟩

end Factory

namespace Heap

/-! ### Collecting -/

/-- What is still to be met. -/
inductive CopyTask where
  | group (g : GroupId)
  /-- An item met from a group nested in it: first its owner, then the item. -/
  | owning (i : ItemId)
  | item (i : ItemId)
  /-- An item filed in a group, once the item is finished. -/
  | file (i : ItemId) (g : GroupId)
deriving DecidableEq

/-- The nodes met and the items filed, all latest first. -/
structure CopyPlan where
  groups : List GroupId := []
  items : List ItemId := []
  filed : List (ItemId × GroupId) := []
deriving DecidableEq

/-- What follows from meeting a group. -/
def groupCopyTasks (h : Heap) (g : GroupId) : List CopyTask :=
  let x := h.group g
  x.nestedIn.toList.map .owning ++ x.above.toList.map .group ++ x.subs.map .group ++
    x.itemIds.flatMap fun i => [.item i, .file i g]

/-- What follows from meeting an item. -/
def itemCopyTasks (h : Heap) (i : ItemId) : List CopyTask :=
  let x := h.item i
  (x.value.primary.toList ++ x.key.primary.toList ++ x.value.typed ++ x.key.typed).map .group

/-- Take one task. -/
def copyStep (h : Heap) (p : CopyPlan) : CopyTask → CopyPlan × List CopyTask
  | .group g =>
    if g ∈ p.groups then (p, []) else ({ p with groups := g :: p.groups }, h.groupCopyTasks g)
  | .owning i => if i ∈ p.items then (p, []) else (p, [.group (h.item i).owner, .item i])
  | .item i =>
    if i ∈ p.items then (p, []) else ({ p with items := i :: p.items }, h.itemCopyTasks i)
  | .file i g => ({ p with filed := (i, g) :: p.filed }, [])

/-- The steps that a task takes, not counting the nodes that it leads to for the first time. -/
def copyCost : CopyTask → Nat
  | .owning _ => 3
  | _ => 1

/-- The steps that meeting all nodes takes. -/
def copyBound (h : Heap) : Nat :=
  totalCost (fun g => totalCost copyCost (h.groupCopyTasks g)) h.groupIds +
    totalCost (fun i => totalCost copyCost (h.itemCopyTasks i)) h.itemIds + 1

/-- Everything that a group is linked to, in the order in which it is met. -/
def copyPlan (h : Heap) (root : GroupId) : CopyPlan :=
  match explore h.copyStep h.copyBound {} [.group root] with
  | some p => { groups := p.groups.reverse, items := p.items.reverse, filed := p.filed }
  | none => {}

/-! ### Relocating -/

/-- The address of a group's copy. -/
def copyOfGroup (h : Heap) (p : CopyPlan) (g : GroupId) : GroupId :=
  ⟨h.groups.size + p.groups.idxOf g⟩

/-- The address of an item's copy. -/
def copyOfItem (h : Heap) (p : CopyPlan) (i : ItemId) : ItemId :=
  ⟨h.items.size + p.items.idxOf i⟩

/-- A slot with relocated links. -/
def relocateSlot (h : Heap) (p : CopyPlan) (s : Slot) : Slot where
  primary := s.primary.map (h.copyOfGroup p)
  byType := s.byType.map (·.mapValues (h.copyOfGroup p))

/-- An item with relocated links. -/
def relocateItem (h : Heap) (p : CopyPlan) (i : ItemId) : Item :=
  let x := h.item i
  { name := x.name
    owner := h.copyOfGroup p ((p.filed.lookup i).getD x.owner)
    value := h.relocateSlot p x.value
    key := h.relocateSlot p x.key }

/-- A group with relocated links and the variant at the given address. -/
def relocateGroup (h : Heap) (p : CopyPlan) (g : GroupId) (v : VariantId) : Group :=
  let x := h.group g
  { name := x.name
    type := x.type
    typeName := x.typeName.or (x.type.map ObjectType.name)
    above := x.above.map (h.copyOfGroup p)
    below := x.below.map (·.map (h.copyOfGroup p))
    nestedIn := x.nestedIn.map (h.copyOfItem p)
    validated := x.validated
    variant := v
    items := x.items.mapValues (h.copyOfItem p) }

/-- Add the copy of a group to a heap that begins with the original one. -/
def pushCopy (h : Heap) (p : CopyPlan) (new : Heap) (g : GroupId) (issued : Issued) : Heap :=
  match issued with
  | .fresh v =>
    { new with
      groups := new.groups.push (h.relocateGroup p g ⟨new.variants.size⟩)
      variants := new.variants.push v }
  | .existing v => { new with groups := new.groups.push (h.relocateGroup p g v) }

/-- Add the copies of all nodes. -/
def pushCopies (h : Heap) (p : CopyPlan) (issued : List (GroupId × Issued)) : Heap :=
  let withGroups := issued.foldl (fun new e => h.pushCopy p new e.1 e.2) h
  { withGroups with items := withGroups.items ++ (p.items.map (h.relocateItem p)).toArray }

/-! ### Asking the factory -/

/-- The variants of the groups in order; or the first group that is refused, and why. -/
def issueAll (h : Heap) (f : Factory) :
    List GroupId → Except (GroupId × Cause) (List (GroupId × Issued))
  | [] => .ok []
  | g :: rest =>
    match f.issue h g with
    | .error cause => .error (g, cause)
    | .ok issued => (h.issueAll f rest).map ((g, issued) :: ·)

/-- The error for a group that a factory refused. -/
def cloneError (h : Heap) (f : Factory) (g : GroupId) (cause : Cause) : Error :=
  let name := (h.group g).name
  .clone
    { message := s!"Could not produce a {f.label} node for group '{name}'"
      context := some (.of [("groupName", .text name), ("path", .text (h.pathTo g))])
      cause := some cause }

/-- Copy a group with everything that it is linked to. -/
def copyFor (h : Heap) (root : GroupId) (f : Factory) : Outcome GroupId :=
  let p := h.copyPlan root
  match h.issueAll f p.groups with
  | .ok issued => { heap := h.pushCopies p issued, answer := .ok (h.copyOfGroup p root) }
  | .error (g, cause) =>
    { heap := h
      diagnostics := [.cloneFailed (h.pathTo g) (h.group g).name f.label]
      answer := .error (h.cloneError f g cause) }

/-! ### The standard conversions -/

/-- Copy a group as it is. -/
def duplicate (h : Heap) (g : GroupId) : Outcome GroupId := h.copyFor g .clone

/-- Convert a group unless it is of the kind already. -/
def convert (h : Heap) (g : GroupId) (kind : Kind) (f : Factory) : Outcome GroupId :=
  if (h.variantOf g).kind = kind then { heap := h, answer := .ok g } else h.copyFor g f

/-- The group for a fetch engine. -/
def forFetch (h : Heap) (g : GroupId) : Outcome GroupId := h.convert g .fetch .fetch

/-- The group for a load engine. -/
def forLoad (h : Heap) (g : GroupId) : Outcome GroupId := h.convert g .load .load

/-- The group for a copy engine, with the given registry or a new one. -/
def forCopy (h : Heap) (g : GroupId) (copies : Option CopyRegistryId) : Outcome GroupId :=
  match copies with
  | some copies => h.convert g .copy (.copy copies)
  | none =>
    let (copies, h) := h.allocCopyRegistry
    h.convert g .copy (.copy copies)

end Heap

/-- The engines that a group can be specialized for on demand. -/
inductive Engine where
  | fetch
  | load
  | copy
deriving DecidableEq, Inhabited

namespace Engine

/-- Every engine. -/
def all : List Engine := [fetch, load, copy]

/-- The engine as text. -/
def text : Engine → String
  | fetch => "fetch"
  | load => "load"
  | copy => "copy"

/-- The engine that a text names. -/
def ofText? (s : String) : Option Engine := all.find? fun e => e.text = s

end Engine

/-- The group for an engine. -/
def Heap.forEngine (h : Heap) (g : GroupId) : Engine → Outcome GroupId
  | .fetch => h.forFetch g
  | .load => h.forLoad g
  | .copy => h.forCopy g none

end AttributeGraph
