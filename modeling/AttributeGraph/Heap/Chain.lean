/-
Two ways up from a group: along its super groups, and along the items that it is
nested in.

Both climbs stop where they would meet a group again, so they end on every heap.
The first climb gives the chain along which attributes are inherited, the second
one the dotted path of a nested group.
-/
import AttributeGraph.Heap

namespace AttributeGraph.Heap

/-- Climb from super group to super group, at most `fuel` groups, not past a group already seen. -/
def climbSupers (h : Heap) : Nat → List GroupId → GroupId → List GroupId
  | 0, _, _ => []
  | fuel + 1, seen, g =>
    if g ∈ seen then []
    else
      match (h.group g).above with
      | none => [g]
      | some s => g :: h.climbSupers fuel (g :: seen) s

/-- A group and the groups above it, each once, nearest first. -/
def superChain (h : Heap) (g : GroupId) : List GroupId := h.climbSupers (h.groups.size + 2) [] g

/-- Climb to the top of the super groups, or to the first group that is met again. -/
def climbToRoot (h : Heap) : Nat → List GroupId → GroupId → GroupId
  | 0, _, g => g
  | fuel + 1, seen, g =>
    if g ∈ seen then g
    else
      match (h.group g).above with
      | none => g
      | some s => h.climbToRoot fuel (g :: seen) s

/-- The group at the top of the super groups. -/
def topGroup (h : Heap) (g : GroupId) : GroupId := h.climbToRoot (h.groups.size + 2) [] g

/-- The names of the items that a group is nested in, outermost first, behind the given names. -/
def climbOwners (h : Heap) : Nat → List GroupId → GroupId → List String → List String
  | 0, _, _, names => names
  | fuel + 1, seen, g, names =>
    if g ∈ seen then names
    else
      match (h.group g).nestedIn with
      | none => names
      | some i => h.climbOwners fuel (g :: seen) (h.item i).owner ((h.item i).name :: names)

/-- The dotted path from the outermost group to a group, empty for a root. -/
def pathTo (h : Heap) (g : GroupId) : String :=
  ".".intercalate (h.climbOwners (h.groups.size + 2) [] g [])

end AttributeGraph.Heap
