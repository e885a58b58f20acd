/-
Heaps as the operations build them.

Beside having no link out of the heap, every group files its items under their
own names, and no slot files groups per type without having a primary group.
All three can be decided, so a concrete heap is well formed by computation.

This is the invariant of the operations: they keep it, so every heap that they lead
to is well formed (`Reachable.wellFormed`, with the operations).  A theorem about one
tree of groups needs it only of the nodes of that tree (`WellFormedBelow`).
-/
import AttributeGraph.Proofs.Links

namespace AttributeGraph

/-- A slot that files groups per type has a primary group. -/
def Slot.Rooted (s : Slot) : Prop := s.typed ≠ [] → s.primary.isSome = true

instance (s : Slot) : Decidable s.Rooted := by unfold Slot.Rooted; infer_instance

theorem Slot.rooted_empty : ({} : Slot).Rooted := fun hne => absurd rfl hne

namespace Heap

variable {h : Heap}

/-- Every group files its items under their own names. -/
def ItemsNamed (h : Heap) : Prop :=
  ∀ g n i, (h.group g).items.find? n = some i → (h.item i).name = n

/-- Nothing leads out of the heap, items are filed under their names, and slots are rooted. -/
structure WellFormed (h : Heap) : Prop where
  closed : h.Closed
  named : h.ItemsNamed
  rooted : ∀ i side, ((h.item i).slot side).Rooted

/-- A group and all groups nested below it are well formed: they are in the heap, with no link out of
it, file their items under their names, and have rooted slots. -/
structure WellFormedBelow (h : Heap) (g : GroupId) : Prop where
  hasGroup : ∀ x, h.Within g x → h.HasGroup x
  closed : ∀ x, h.Within g x → h.GroupClosed (h.group x)
  named : ∀ x, h.Within g x → ∀ n i, (h.group x).items.find? n = some i → (h.item i).name = n
  rooted : ∀ x, h.Within g x → ∀ i ∈ (h.group x).itemIds, ∀ side, ((h.item i).slot side).Rooted

/-- In a well-formed heap every group is. -/
theorem WellFormed.below (hwf : h.WellFormed) {g : GroupId} (hg : h.HasGroup g) :
    h.WellFormedBelow g where
  hasGroup := hwf.closed.hasGroup_within hg
  closed x hx := hwf.closed.group x (hwf.closed.hasGroup_within hg x hx)
  named x _ := hwf.named x
  rooted _ _ i _ := hwf.rooted i

/-- What holds of every group of the heap, and of the group that stands for all others, holds of
all. -/
theorem forall_group {P : Group → Prop} (hnone : P {}) (hall : ∀ g ∈ h.groupIds, P (h.group g))
    (g : GroupId) : P (h.group g) := by
  by_cases hg : h.HasGroup g
  · exact hall g (mem_groupIds.2 hg)
  · rw [group_of_not_hasGroup hg]
    exact hnone

/-- Behind the last item there are only empty slots. -/
theorem rooted_of_not_hasItem {i : ItemId} (hi : ¬ h.HasItem i) (side : Side) :
    ((h.item i).slot side).Rooted := by
  rw [item_of_not_hasItem hi]
  cases side <;> exact Slot.rooted_empty

/-! ### Deciding it -/

instance (h : Heap) (g : Group) : Decidable (h.GroupClosed g) :=
  decidable_of_iff
    ((∀ s ∈ g.above, h.HasGroup s) ∧ (∀ s ∈ g.subs, h.HasGroup s) ∧
      (∀ i ∈ g.nestedIn, h.HasItem i) ∧
      (∀ i ∈ g.itemIds, h.HasItem i) ∧ g.variant.index < h.variants.size)
    ⟨fun ⟨hs, hb, hn, hi, hv⟩ => ⟨hs, hb, hn, hi, hv⟩,
      fun ⟨hs, hb, hn, hi, hv⟩ => ⟨hs, hb, hn, hi, hv⟩⟩

instance (h : Heap) (i : Item) : Decidable (h.ItemClosed i) :=
  decidable_of_iff (h.HasGroup i.owner ∧ ∀ g ∈ i.nested, h.HasGroup g)
    ⟨fun ⟨ho, hn⟩ => ⟨ho, hn⟩, fun ⟨ho, hn⟩ => ⟨ho, hn⟩⟩

instance (h : Heap) : Decidable h.Closed :=
  decidable_of_iff
    ((∀ g ∈ h.groupIds, h.GroupClosed (h.group g)) ∧ ∀ i ∈ h.itemIds, h.ItemClosed (h.item i))
    ⟨fun ⟨hg, hi⟩ => ⟨fun g hmem => hg g (mem_groupIds.2 hmem),
        fun i hmem => hi i (mem_itemIds.2 hmem)⟩,
      fun ⟨hg, hi⟩ => ⟨fun g hmem => hg g (mem_groupIds.1 hmem),
        fun i hmem => hi i (mem_itemIds.1 hmem)⟩⟩

/-- It is enough to look at the groups of the heap, entry by entry. -/
theorem itemsNamed_iff :
    (∀ g ∈ h.groupIds, ∀ e ∈ (h.group g).items.entries, (h.item e.2).name = e.1) ↔
      h.ItemsNamed := by
  constructor
  · intro hall g n i hi
    exact hall g (mem_groupIds.2 (hasGroup_of_mem_itemIds (mem_itemIds_of_find? hi))) (n, i)
      (OrderedMap.find?_eq_some_iff.1 hi)
  · intro hnamed g _ e he
    exact hnamed g e.1 e.2 (OrderedMap.find?_eq_some_iff.2 he)

instance (h : Heap) : Decidable h.ItemsNamed := decidable_of_iff _ itemsNamed_iff

/-- It is enough to look at the items of the heap. -/
theorem rooted_iff :
    (∀ i ∈ h.itemIds, (h.item i).value.Rooted ∧ (h.item i).key.Rooted) ↔
      ∀ i side, ((h.item i).slot side).Rooted := by
  constructor
  · intro hall i side
    by_cases hi : h.HasItem i
    · have hslots := hall i (mem_itemIds.2 hi)
      cases side with
      | value => exact hslots.1
      | key => exact hslots.2
    · exact rooted_of_not_hasItem hi side
  · exact fun hall i _ => ⟨hall i .value, hall i .key⟩

instance (h : Heap) : Decidable (∀ i side, ((h.item i).slot side).Rooted) :=
  decidable_of_iff _ rooted_iff

instance (h : Heap) : Decidable h.WellFormed :=
  decidable_of_iff (h.Closed ∧ h.ItemsNamed ∧ ∀ i side, ((h.item i).slot side).Rooted)
    ⟨fun ⟨hc, hn, hr⟩ => ⟨hc, hn, hr⟩, fun ⟨hc, hn, hr⟩ => ⟨hc, hn, hr⟩⟩

end Heap

end AttributeGraph
