/-
When two groups are equal.

Equal groups declare the same names, with equal nested groups in every slot and
equal super groups.  Names, types and variants of the groups do not count.  The
definition goes round in circles where the graph does, so it is read as the
largest such relation: two groups are equal unless some walk from them leads to
a pair that differs on the surface.

`obligations` says what two groups must have in common on the surface and which
pairs must then be equal; the test works through all pairs that the first one
leads to, each once.
-/
import AttributeGraph.Exploration
import AttributeGraph.Heap

namespace AttributeGraph.Heap

/-- Two groups, or their absence, that have to be equal. -/
abbrev Demand := Option GroupId × Option GroupId

/-- What has to be equal for two groups filed per type to agree; none if their keys differ. -/
def typedDemands (a b : OrderedMap TypeTag GroupId) : Option (List Demand) :=
  if a.size ≠ b.size then none
  else a.entries.mapM fun e => (b.find? e.1).map fun g => (some e.2, some g)

/-- What has to be equal for two slots to be. -/
def slotDemands (a b : Slot) : Option (List Demand) :=
  typedDemands (a.byType.getD .empty) (b.byType.getD .empty)

/-- What has to be equal for two items to be; none if they differ on the surface. -/
def itemDemands (a b : Item) : Option (List Demand) :=
  if a.name ≠ b.name then none
  else do
    let values ← slotDemands a.value b.value
    let keys ← slotDemands a.key b.key
    return (a.value.primary, b.value.primary) :: (a.key.primary, b.key.primary) :: values ++ keys

/-- What has to be equal for two groups to be; none if they differ on the surface. -/
def obligations (h : Heap) (a b : GroupId) : Option (List Demand) :=
  let x := h.group a
  let y := h.group b
  if x.items.size ≠ y.items.size then none
  else do
    let demands ← x.items.entries.mapM fun e =>
      (y.items.find? e.1).bind fun j => itemDemands (h.item e.2) (h.item j)
    return demands.flatten ++ [(x.above, y.above)]

/-- The pairs that a comparison has met, latest first, and whether it found a difference. -/
structure Comparison where
  seen : List (GroupId × GroupId) := []
  differ : Bool := false
deriving DecidableEq

/-- Look at one demand. -/
def compareStep (h : Heap) (c : Comparison) : Demand → Comparison × List Demand
  | (none, none) => (c, [])
  | (some a, some b) =>
    if c.differ ∨ a = b ∨ (a, b) ∈ c.seen then (c, [])
    else
      match h.obligations a b with
      | none => ({ c with differ := true }, [])
      | some demands => ({ c with seen := (a, b) :: c.seen }, demands)
  | _ => ({ c with differ := true }, [])

/-- How many demands a group can raise. -/
def demandCount (h : Heap) (g : GroupId) : Nat :=
  totalCost (fun i => 2 + (h.item i).value.typed.length + (h.item i).key.typed.length)
    (h.group g).itemIds + 1

/-- The steps that a comparison may take beside one for each demand that it starts with. -/
def comparisonBound (h : Heap) : Nat := h.groups.size * totalCost h.demandCount h.groupIds

/-- Whether all demands are met. -/
def meets (h : Heap) (demands : List Demand) : Bool :=
  match explore h.compareStep (h.comparisonBound + demands.length) {} demands with
  | some c => !c.differ
  | none => false

/-- Whether two groups, or their absence, are equal. -/
def groupsAgree (h : Heap) (a b : Option GroupId) : Bool := h.meets [(a, b)]

/-- Whether two items are equal. -/
def itemsAgree (h : Heap) (i j : ItemId) : Bool :=
  match itemDemands (h.item i) (h.item j) with
  | none => false
  | some demands => h.meets demands

end AttributeGraph.Heap
