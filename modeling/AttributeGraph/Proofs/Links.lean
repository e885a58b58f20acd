/-
What a group is linked to.

Groups and items are the nodes of one graph.  `Link` has a constructor for every
field of a node that refers to another node, and `Reaches` follows any number of
them.  `Nests` keeps only the way from a group to the groups nested in its items,
which is what comparing, describing and restoring follow.
-/
import AttributeGraph.Heap
import AttributeGraph.Proofs.Ordered
import Mathlib.Logic.Relation
import Mathlib.Tactic.ByContra
import Mathlib.Tactic.Tauto

namespace AttributeGraph

/-- A group or an item. -/
inductive Node where
  | group (g : GroupId)
  | item (i : ItemId)
deriving DecidableEq

namespace Slot

/-- The groups of a slot, the primary one first. -/
def groups (s : Slot) : List GroupId := s.primary.toList ++ s.typed

theorem mem_groups {s : Slot} {g : GroupId} :
    g ∈ s.groups ↔ s.primary = some g ∨ g ∈ s.typed := by
  simp [groups]

theorem mem_typed_iff {s : Slot} {g : GroupId} : g ∈ s.typed ↔ ∃ k, s.find? k = some g := by
  cases hs : s.byType with
  | none => simp [typed, find?, hs]
  | some m => simp [typed, find?, hs, OrderedMap.mem_values]

/-- The groups filed per type, a slot without a map counting as one that files none. -/
theorem values_getD (s : Slot) : (s.byType.getD .empty).values = s.typed := by
  cases hs : s.byType <;> simp [typed, hs, OrderedMap.values, OrderedMap.empty]

theorem find?_getD (s : Slot) (k : TypeTag) : (s.byType.getD .empty).find? k = s.find? k := by
  cases hs : s.byType <;> simp [find?, hs, OrderedMap.find?, OrderedMap.empty]

theorem mem_groups_of_find? {s : Slot} {k : TypeTag} {g : GroupId} (hg : s.find? k = some g) :
    g ∈ s.groups :=
  mem_groups.2 (.inr (mem_typed_iff.2 ⟨k, hg⟩))

end Slot

theorem Group.mem_subs_addSub {x : Group} {g w : GroupId} :
    w ∈ ({ x with below := some ((x.below.getD .empty).insert g) } : Group).subs ↔
      w ∈ x.subs ∨ w = g := by
  rw [show w ∈ x.subs ↔ w ∈ x.below.getD .empty from ?_]
  · exact OrderedSet.mem_insert _ _ _
  · rw [subs]
    cases x.below <;> exact Iff.rfl

theorem Group.mem_subs_removeSub {x : Group} {g w : GroupId} :
    w ∈ ({ x with below := x.below.map (·.erase g) } : Group).subs ↔ w ∈ x.subs ∧ w ≠ g := by
  simp only [subs]
  cases x.below with
  | none => simp
  | some l => exact OrderedSet.mem_erase l g w

theorem Item.mem_nested {i : Item} {g : GroupId} :
    g ∈ i.nested ↔ ∃ side, g ∈ (i.slot side).groups := by
  have hsides : (∃ side, g ∈ (i.slot side).groups) ↔ g ∈ i.value.groups ∨ g ∈ i.key.groups := by
    constructor
    · intro hg
      obtain ⟨side, hg⟩ := hg
      cases side with
      | value => exact .inl hg
      | key => exact .inr hg
    · intro hg
      rcases hg with hg | hg
      · exact ⟨.value, hg⟩
      · exact ⟨.key, hg⟩
  rw [hsides]
  simp only [nested, OrderedSet.mem_ofList, Slot.groups, List.mem_append]
  tauto

namespace Heap

variable {h : Heap}

/-- One node refers to another one. -/
inductive Link (h : Heap) : Node → Node → Prop
  | above {g s : GroupId} (hs : (h.group g).above = some s) : Link h (.group g) (.group s)
  | below {g s : GroupId} (hs : s ∈ (h.group g).subs) : Link h (.group g) (.group s)
  | nestedIn {g : GroupId} {i : ItemId} (hi : (h.group g).nestedIn = some i) :
      Link h (.group g) (.item i)
  | item {g : GroupId} {i : ItemId} (hi : i ∈ (h.group g).itemIds) : Link h (.group g) (.item i)
  | owner (i : ItemId) : Link h (.item i) (.group (h.item i).owner)
  | nested {i : ItemId} {g : GroupId} (side : Side) (hg : g ∈ ((h.item i).slot side).groups) :
      Link h (.item i) (.group g)

/-- Links lead from one node to another. -/
def Reaches (h : Heap) : Node → Node → Prop := Relation.ReflTransGen h.Link

theorem Reaches.refl (n : Node) : h.Reaches n n := Relation.ReflTransGen.refl

theorem Reaches.tail {a b c : Node} (hab : h.Reaches a b) (hbc : h.Link b c) : h.Reaches a c :=
  Relation.ReflTransGen.tail hab hbc

/-! ### Links by their ends -/

section Ends

variable {h' : Heap} {g s : GroupId} {i j : ItemId} {n : Node}

theorem link_group_group_iff :
    h.Link (.group g) (.group s) ↔ (h.group g).above = some s ∨ s ∈ (h.group g).subs := by
  constructor
  · rintro (hs | hs)
    · exact .inl hs
    · exact .inr hs
  · rintro (hs | hs)
    · exact .above hs
    · exact .below hs

theorem link_group_item_iff :
    h.Link (.group g) (.item i) ↔ (h.group g).nestedIn = some i ∨ i ∈ (h.group g).itemIds := by
  constructor
  · rintro (_ | _ | hi | hi)
    · exact .inl hi
    · exact .inr hi
  · rintro (hi | hi)
    · exact .nestedIn hi
    · exact .item hi

theorem link_item_group_iff :
    h.Link (.item i) (.group g) ↔
      (h.item i).owner = g ∨ ∃ side, g ∈ ((h.item i).slot side).groups := by
  constructor
  · rintro (_ | _ | _ | _ | _ | ⟨side, hg⟩)
    · exact .inl rfl
    · exact .inr ⟨side, hg⟩
  · rintro (rfl | ⟨side, hg⟩)
    · exact .owner i
    · exact .nested side hg

theorem not_link_item_item : ¬ h.Link (.item i) (.item j) := by
  rintro ⟨⟩

/-- A group has the links that it has in another heap if it is the same there. -/
theorem link_congr_group (hsame : h'.group g = h.group g) :
    h'.Link (.group g) n ↔ h.Link (.group g) n := by
  cases n with
  | group s => rw [link_group_group_iff, link_group_group_iff, hsame]
  | item i => rw [link_group_item_iff, link_group_item_iff, hsame]

/-- An item has the links that it has in another heap if it is the same there. -/
theorem link_congr_item (hsame : h'.item i = h.item i) :
    h'.Link (.item i) n ↔ h.Link (.item i) n := by
  cases n with
  | group g => rw [link_item_group_iff, link_item_group_iff, hsame]
  | item j => exact iff_of_false not_link_item_item not_link_item_item

end Ends

/-- A group holds another one in a slot of one of its items. -/
inductive Nests (h : Heap) : GroupId → GroupId → Prop
  | intro {x y : GroupId} {i : ItemId} (side : Side) (hi : i ∈ (h.group x).itemIds)
      (hy : y ∈ ((h.item i).slot side).groups) : Nests h x y

/-- A group lies in the tree of groups nested below another one. -/
def Within (h : Heap) : GroupId → GroupId → Prop := Relation.ReflTransGen h.Nests

/-! ### Addresses outside the heap -/

/-- Behind the last group there are only empty ones. -/
theorem group_of_not_hasGroup {g : GroupId} (hg : ¬ h.HasGroup g) : h.group g = {} := by
  have hle : h.groups.size ≤ g.index := Nat.le_of_not_lt hg
  simp [group, Array.getD_eq_getD_getElem?, hle]

/-- Behind the last item there are only items without nested groups. -/
theorem item_of_not_hasItem {i : ItemId} (hi : ¬ h.HasItem i) : h.item i = default := by
  have hle : h.items.size ≤ i.index := Nat.le_of_not_lt hi
  simp [item, Array.getD_eq_getD_getElem?, hle]

theorem mem_groupIds {g : GroupId} : g ∈ h.groupIds ↔ h.HasGroup g := by
  obtain ⟨n⟩ := g
  simp [groupIds, HasGroup]

theorem mem_itemIds {i : ItemId} : i ∈ h.itemIds ↔ h.HasItem i := by
  obtain ⟨n⟩ := i
  simp [itemIds, HasItem]

/-- A group that declares an attribute is in the heap. -/
theorem hasGroup_of_mem_itemIds {g : GroupId} {i : ItemId} (hi : i ∈ (h.group g).itemIds) :
    h.HasGroup g := by
  by_contra hg
  rw [group_of_not_hasGroup hg] at hi
  exact List.not_mem_nil hi

/-! ### Links of a closed heap -/

theorem Closed.hasGroup_above (hclosed : h.Closed) {g s : GroupId} (hg : h.HasGroup g)
    (hs : (h.group g).above = some s) : h.HasGroup s :=
  (hclosed.group g hg).super s hs

theorem mem_itemIds_of_find? {g : GroupId} {n : String} {i : ItemId}
    (hi : (h.group g).items.find? n = some i) : i ∈ (h.group g).itemIds :=
  OrderedMap.mem_values.2 ⟨n, hi⟩

theorem Closed.hasGroup_nested (hclosed : h.Closed) {x y : GroupId} (hxy : h.Nests x y) :
    h.HasGroup y := by
  obtain ⟨side, hi, hy⟩ := hxy
  have hitem := (hclosed.group x (hasGroup_of_mem_itemIds hi)).items _ hi
  exact (hclosed.item _ hitem).nested y (Item.mem_nested.2 ⟨side, hy⟩)

theorem Closed.hasGroup_within (hclosed : h.Closed) {g : GroupId} (hg : h.HasGroup g) :
    ∀ x, h.Within g x → h.HasGroup x := by
  intro x hx
  induction hx with
  | refl => exact hg
  | tail _ hxy _ => exact hclosed.hasGroup_nested hxy

end Heap

end AttributeGraph
