/-
All attribute paths of a group, sorted.

Inherited attributes are listed with the group's own, and every group nested for
the value of an attribute contributes its attributes behind the attribute's
name.  A group that is nested in itself is not entered a second time.
-/
import AttributeGraph.Heap.Lookup
import AttributeGraph.Text.Units

namespace AttributeGraph.Heap

/-- The groups nested for the value of an item: the typed ones and the primary one. -/
def valueGroups (i : Item) : List GroupId :=
  (OrderedSet.ofList (i.value.typed ++ i.value.primary.toList)).toList

/-- The paths of a group as lists of names, at most `fuel` groups deep and without entering the
groups on the way to it. -/
def pathsBelow (h : Heap) : Nat → List GroupId → GroupId → List (List String)
  | 0, _, _ => []
  | fuel + 1, onPath, g =>
    if g ∈ onPath then []
    else
      (h.allItems g).entries.flatMap fun e =>
        [e.1] ::
          ((valueGroups (h.item e.2)).flatMap (h.pathsBelow fuel (g :: onPath))).map (e.1 :: ·)

/-- The dotted attribute paths of a group in ascending order of code units, each once. -/
def paths (h : Heap) (g : GroupId) : List String :=
  Text.sortByUnits
    (OrderedSet.ofList
      ((h.pathsBelow (h.groups.size + 2) [] g).map Path.format)).toList

end AttributeGraph.Heap
