/-
Groups for sub types: linking them below a group and finding the one that fits.

A group inserted below another takes over the subclass groups there whose types
derive from its own, so the tree stays ordered by specificity.  Finding a group
for a described type tries the type itself, then its ancestors, nearest first:
among the typed groups of the owning item if there is one, and otherwise in the
tree of subclass groups below the top of the hierarchy.
-/
import AttributeGraph.Exploration
import AttributeGraph.Heap.Chain
import AttributeGraph.Registry

namespace AttributeGraph.Heap

/-! ### Inserting -/

/-- Whether a child of the receiver belongs below the inserted group. -/
def derivesFrom (h : Heap) (relation : Hierarchy) (g child : GroupId) : Bool :=
  match (h.group g).type, (h.group child).type with
  | some super, some sub => child ≠ g && relation.subsumes super sub
  | _, _ => false

/-- Move a child from one group below another. -/
def reparent (h : Heap) (child old new : GroupId) : Heap :=
  let h := h.alterGroup new fun x =>
    { x with below := some ((x.below.getD .empty).insert child) }
  let h := h.alterGroup child fun x => { x with above := some new }
  h.alterGroup old fun x => { x with below := x.below.map (·.erase child) }

/-- Link a group directly below another one, above the children there that derive from it. -/
def insertBelow (h : Heap) (relation : Hierarchy) (parent g : GroupId) : Heap :=
  if g = parent then h
  else
    let children := (h.group parent).subs
    let h := h.alterGroup g fun x => { x with above := some parent }
    let h := children.foldl
      (fun h child =>
        if h.derivesFrom relation g child then h.reparent child parent g else h) h
    h.alterGroup parent fun x =>
      { x with below := some ((x.below.getD .empty).insert g) }

/-! ### Finding -/

/-- Whether a group stands for a type: it has the type, or no type yet and the type's name. -/
def standsFor (h : Heap) (type : ObjectType) (g : GroupId) : Bool :=
  match (h.group g).type with
  | some t => t = type
  | none => (h.group g).typeName = some type.name

/-- The groups a search has met, latest first, and the one that it found. -/
structure Search where
  seen : List GroupId := []
  found : Option GroupId := none
deriving DecidableEq

/-- Look at one group of a subclass tree. -/
def searchStep (h : Heap) (type : ObjectType) (s : Search) (g : GroupId) :
    Search × List GroupId :=
  if s.found.isSome ∨ g ∈ s.seen then (s, [])
  else if h.standsFor type g then ({ s with found := some g }, [])
  else ({ s with seen := g :: s.seen }, (h.group g).subs)

/-- The steps that a search through subclass groups may take. -/
def searchBound (h : Heap) : Nat := totalCost (fun g => (h.group g).subs.length) h.groupIds + 1

/-- The first group of a subclass tree, depth first, that stands for a type. -/
def findInTree (h : Heap) (type : ObjectType) (root : GroupId) : Option GroupId :=
  (explore (h.searchStep type) h.searchBound {} [root]).bind Search.found

/-- The group at this place of the tree that stands for a type. -/
def placeFor (h : Heap) (g : GroupId) (type : ObjectType) : Option GroupId :=
  match (h.group g).nestedIn with
  | some i =>
    let slot := (h.item i).value
    (slot.find? (.type type)).or (slot.find? (.name type.name))
  | none => h.findInTree type (h.topGroup g)

/-- The group that applies to a described type, the group itself if there is none more specific. -/
def groupFor (h : Heap) (g : GroupId) (d : TypeProfile) : GroupId :=
  let group := h.group g
  if group.type = none ∨ group.type = some d.type then g
  else if group.isLinked then
    (d.levels.findSome? fun level => h.placeFor g level.type).getD g
  else g

end AttributeGraph.Heap
