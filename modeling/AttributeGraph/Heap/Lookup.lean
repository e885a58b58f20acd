/-
Reading attributes: by path, by name, and all of them.

Every reader falls back from a group to its super group.  A path is first walked
through the groups nested in one group.  Where an item is missing on the way the
whole path is tried again one level further up; where an item is present but has
no nested group for a longer path, the search is over.
-/
import AttributeGraph.Heap.Chain
import AttributeGraph.Path

namespace AttributeGraph

/-- Where a walk along a path ends. -/
inductive Reached where
  /-- At the item of the last segment. -/
  | found (i : ItemId)
  /-- Before a segment that no item has. -/
  | missing
  /-- At an item without the nested group that the next segment needs. -/
  | blocked
deriving DecidableEq

namespace Heap

/-- Walk along a path from a group, through nested groups only. -/
def locate (h : Heap) (g : GroupId) (head : String) : List String → Reached
  | [] =>
    match (h.group g).items.find? head with
    | none => .missing
    | some i => .found i
  | next :: rest =>
    match (h.group g).items.find? head with
    | none => .missing
    | some i =>
      match (h.item i).value.primary with
      | none => .blocked
      | some nested => h.locate nested next rest

/-- The item that the first group of a chain finds which does not lack one. -/
def resolveAlong (h : Heap) (p : Path) : List GroupId → Option ItemId
  | [] => none
  | g :: above =>
    match h.locate g p.head p.tail with
    | .found i => some i
    | .blocked => none
    | .missing => h.resolveAlong p above

/-- The item of a path. -/
def itemAt? (h : Heap) (g : GroupId) (p : Path) : Option ItemId :=
  h.resolveAlong p (h.superChain g)

/-- Whether some group of a chain resolves a path. -/
def containsAlong (h : Heap) (p : Path) : List GroupId → Bool
  | [] => false
  | g :: above => (h.resolveAlong p (g :: above)).isSome || h.containsAlong p above

/-- Whether a group or one above it has an attribute. -/
def hasPath (h : Heap) (g : GroupId) (p : Path) : Bool :=
  h.containsAlong p (h.superChain g)

/-- The nested group of the item that the first group of a chain resolves a path to. -/
def groupAlong (h : Heap) (p : Path) : List GroupId → Option GroupId
  | [] => none
  | g :: above =>
    match h.resolveAlong p (g :: above) with
    | some i => (h.item i).value.primary
    | none => h.groupAlong p above

/-- The nested group that a path leads to. -/
def nestedAt? (h : Heap) (g : GroupId) (p : Path) : Option GroupId :=
  h.groupAlong p (h.superChain g)

/-- Whether a group or one above it declares a name. -/
def hasName (h : Heap) (g : GroupId) (name : String) : Bool :=
  (h.superChain g).any fun g' => (h.group g').items.contains name

/-- The names declared along a chain, those of the uppermost group first. -/
def namesAlong (h : Heap) : List GroupId → OrderedSet String
  | [] => .empty
  | g :: above => (h.group g).items.keys.foldl .insert (h.namesAlong above)

/-- The names of a group and of the groups above it. -/
def names (h : Heap) (g : GroupId) : List String := (h.namesAlong (h.superChain g)).toList

/-- The items declared along a chain; those further down replace inherited ones in place. -/
def itemsAlong (h : Heap) : List GroupId → OrderedMap String ItemId
  | [] => .empty
  | g :: above =>
    (h.group g).items.entries.foldl (fun all e => all.insert e.1 e.2) (h.itemsAlong above)

/-- The items of a group, inherited ones included. -/
def allItems (h : Heap) (g : GroupId) : OrderedMap String ItemId := h.itemsAlong (h.superChain g)

end Heap

end AttributeGraph
