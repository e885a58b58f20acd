/-
Groups, items and their links.

Groups refer to one another and to items in every direction: upwards to a super
group, downwards to subclass groups, from an item to its nested groups and back.
Such graphs are stored in a heap and every link is an address, so shared nodes
and cycles need no special care.  Settings of variants have addresses of their
own because two groups may share them.

Reading an address that the heap does not have gives a node without links; a
heap is `Closed` if no link leads to such an address.  The lemmas
`group_alterGroup`, `item_alterItem` and their like say what each write does to each read.
-/
import AttributeGraph.ObjectType
import AttributeGraph.OrderedMap
import AttributeGraph.OrderedSet
import AttributeGraph.Variant

namespace AttributeGraph

/-- The address of a group. -/
structure GroupId where
  index : Nat
deriving DecidableEq, Inhabited

/-- The address of an item. -/
structure ItemId where
  index : Nat
deriving DecidableEq, Inhabited

/-- The address of a variant. -/
structure VariantId where
  index : Nat
deriving DecidableEq, Inhabited

/-- Pairs of addresses compare like the addresses. -/
instance : LawfulBEq (GroupId × GroupId) := inferInstance

/-- The nested groups of an item for one side of an attribute. -/
structure Slot where
  /-- The group that applies when no type is asked for. -/
  primary : Option GroupId := none
  /-- The groups filed per type of a polymorphic attribute. -/
  byType : Option (OrderedMap TypeTag GroupId) := none
deriving DecidableEq, Inhabited

namespace Slot

/-- The groups filed per type. -/
def typed (s : Slot) : List GroupId := (s.byType.map OrderedMap.values).getD []

/-- The group filed under a key. -/
def find? (s : Slot) (k : TypeTag) : Option GroupId := s.byType.bind (·.find? k)

/-- The primary group, or the group filed under a key. -/
def get? (s : Slot) : Option TypeTag → Option GroupId
  | none => s.primary
  | some k => s.find? k

end Slot

/-- One attribute of a group. -/
structure Item where
  name : String
  /-- The group that declares the attribute. -/
  owner : GroupId
  /-- What to include below the value of the attribute. -/
  value : Slot := {}
  /-- What to include below the keys of an attribute that is a map. -/
  key : Slot := {}
deriving DecidableEq, Inhabited

/-- The two sides of an attribute that can have nested groups. -/
inductive Side where
  | value
  | key
deriving DecidableEq, Inhabited

namespace Item

/-- The slot of a side. -/
def slot (i : Item) : Side → Slot
  | .value => i.value
  | .key => i.key

/-- Change the slot of a side. -/
def mapSlot (side : Side) (f : Slot → Slot) (i : Item) : Item :=
  match side with
  | .value => { i with value := f i.value }
  | .key => { i with key := f i.key }

/-- The distinct nested groups: the two primary groups, then the typed ones. -/
def nested (i : Item) : List GroupId :=
  (OrderedSet.ofList
    (i.value.primary.toList ++ i.key.primary.toList ++ i.value.typed ++ i.key.typed)).toList

end Item

/-- A named set of attributes of one type. -/
structure Group where
  name : String := ""
  type : Option ObjectType := none
  /-- The name of the type, possibly still to be resolved. -/
  typeName : Option String := none
  above : Option GroupId := none
  below : Option (OrderedSet GroupId) := none
  /-- The item that the group is nested in. -/
  nestedIn : Option ItemId := none
  /-- Whether the attributes are known to exist. -/
  validated : Bool := false
  variant : VariantId := ⟨0⟩
  /-- The attributes declared by the group itself. -/
  items : OrderedMap String ItemId := .empty
deriving DecidableEq, Inhabited

namespace Group

/-- Under what an item files the group. -/
def tag? (g : Group) : Option TypeTag :=
  match g.type with
  | some t => some (.type t)
  | none => g.typeName.map .name

/-- The subclass groups in order. -/
def subs (g : Group) : List GroupId := (g.below.map OrderedSet.toList).getD []

/-- The items in order. -/
def itemIds (g : Group) : List ItemId := g.items.values

/-- Whether the group declares an attribute. -/
def hasAttributes (g : Group) : Bool := !g.items.isEmpty

/-- Whether the group has groups above or below it. -/
def isLinked (g : Group) : Bool := !g.subs.isEmpty || g.above.isSome

end Group

/-- All groups, items and variants, by address. -/
structure Heap where
  groups : Array Group := #[]
  items : Array Item := #[]
  variants : Array Variant := #[]
  /-- The number of copy registries handed out. -/
  copyRegistries : Nat := 0
deriving DecidableEq, Inhabited

namespace Heap

/-- The heap without nodes. -/
def empty : Heap := {}

/-! ### Reading -/

/-- The group at an address. -/
def group (h : Heap) (g : GroupId) : Group := h.groups.getD g.index {}

/-- The item at an address. -/
def item (h : Heap) (i : ItemId) : Item := h.items.getD i.index default

/-- The variant at an address. -/
def variant (h : Heap) (v : VariantId) : Variant := h.variants.getD v.index .generic

/-- The variant of a group. -/
def variantOf (h : Heap) (g : GroupId) : Variant := h.variant (h.group g).variant

/-- Under what an item files the group. -/
def tag? (h : Heap) (g : GroupId) : Option TypeTag := (h.group g).tag?

/-- Whether an address is that of a group of the heap. -/
def HasGroup (h : Heap) (g : GroupId) : Prop := g.index < h.groups.size

/-- Whether an address is that of an item of the heap. -/
def HasItem (h : Heap) (i : ItemId) : Prop := i.index < h.items.size

instance (h : Heap) (g : GroupId) : Decidable (h.HasGroup g) :=
  inferInstanceAs (Decidable (_ < _))

instance (h : Heap) (i : ItemId) : Decidable (h.HasItem i) :=
  inferInstanceAs (Decidable (_ < _))

/-- The groups of the heap. -/
def groupIds (h : Heap) : List GroupId := (List.range h.groups.size).map GroupId.mk

/-- The items of the heap. -/
def itemIds (h : Heap) : List ItemId := (List.range h.items.size).map ItemId.mk

/-! ### Writing -/

/-- Change the group at an address. -/
def alterGroup (h : Heap) (g : GroupId) (f : Group → Group) : Heap :=
  { h with groups := h.groups.modify g.index f }

/-- Change the item at an address. -/
def alterItem (h : Heap) (i : ItemId) (f : Item → Item) : Heap :=
  { h with items := h.items.modify i.index f }

/-- Change the variant at an address. -/
def alterVariant (h : Heap) (v : VariantId) (f : Variant → Variant) : Heap :=
  { h with variants := h.variants.modify v.index f }

/-- A new group with a variant of its own. -/
def allocGroup (h : Heap) (g : Group) (v : Variant) : GroupId × Heap :=
  (⟨h.groups.size⟩,
    { h with
      groups := h.groups.push { g with variant := ⟨h.variants.size⟩ }
      variants := h.variants.push v })

/-- A new item. -/
def allocItem (h : Heap) (i : Item) : ItemId × Heap :=
  (⟨h.items.size⟩, { h with items := h.items.push i })

/-- A new copy registry. -/
def allocCopyRegistry (h : Heap) : CopyRegistryId × Heap :=
  (⟨h.copyRegistries⟩, { h with copyRegistries := h.copyRegistries + 1 })

/-! ### What a write does to a read -/

theorem group_alterGroup (h : Heap) (g g' : GroupId) (f : Group → Group) :
    (h.alterGroup g f).group g' =
      if g = g' ∧ h.HasGroup g' then f (h.group g') else h.group g' := by
  obtain ⟨n⟩ := g
  obtain ⟨m⟩ := g'
  simp only [group, alterGroup, HasGroup, Array.getD_eq_getD_getElem?, Array.getElem?_modify,
    GroupId.mk.injEq]
  by_cases hn : n = m
  · by_cases hm : m < h.groups.size
    · simp [hn, hm]
    · simp [hn, hm]
  · simp [hn]

@[simp] theorem item_alterGroup (h : Heap) (g : GroupId) (f : Group → Group) (i : ItemId) :
    (h.alterGroup g f).item i = h.item i := rfl

theorem item_alterItem (h : Heap) (i i' : ItemId) (f : Item → Item) :
    (h.alterItem i f).item i' =
      if i = i' ∧ h.HasItem i' then f (h.item i') else h.item i' := by
  obtain ⟨n⟩ := i
  obtain ⟨m⟩ := i'
  simp only [item, alterItem, HasItem, Array.getD_eq_getD_getElem?, Array.getElem?_modify,
    ItemId.mk.injEq]
  by_cases hn : n = m
  · by_cases hm : m < h.items.size
    · simp [hn, hm]
    · simp [hn, hm]
  · simp [hn]

@[simp] theorem group_alterItem (h : Heap) (i : ItemId) (f : Item → Item) (g : GroupId) :
    (h.alterItem i f).group g = h.group g := rfl

/-! ### Closed heaps -/

/-- Every link of a group leads to a node of the heap. -/
structure GroupClosed (h : Heap) (g : Group) : Prop where
  super : ∀ s ∈ g.above, h.HasGroup s
  subs : ∀ s ∈ g.subs, h.HasGroup s
  nestedIn : ∀ i ∈ g.nestedIn, h.HasItem i
  items : ∀ i ∈ g.itemIds, h.HasItem i
  variant : g.variant.index < h.variants.size

/-- Every link of an item leads to a node of the heap. -/
structure ItemClosed (h : Heap) (i : Item) : Prop where
  owner : h.HasGroup i.owner
  nested : ∀ g ∈ i.nested, h.HasGroup g

/-- Every link leads to a node of the heap. -/
structure Closed (h : Heap) : Prop where
  group : ∀ g, h.HasGroup g → h.GroupClosed (h.group g)
  item : ∀ i, h.HasItem i → h.ItemClosed (h.item i)

end Heap

end AttributeGraph
