/-
Changing a heap leaves it well formed.

`Upkeep` relates a heap to what an operation makes of it: the new heap is well
formed and still has every node of the old one.  It is shown once for each kind
of write, given that the node written leads to nodes of the heap and that items
stay filed under their names, and then for each operation that is built from
writes.  The nodes that an operation is given have to be nodes of the heap.
-/
import AttributeGraph.Heap.Subclass
import AttributeGraph.Proofs.Filling
import AttributeGraph.Proofs.Resolving
import AttributeGraph.Proofs.WellFormed

namespace AttributeGraph

/-! ### Slots -/

namespace Slot

variable {tagOf : GroupId → Option TypeTag} {s : Slot} {g x : GroupId}

theorem rooted_of_primary (hs : s.primary = some g) : s.Rooted := by
  intro _
  rw [hs]
  rfl

/-- Whatever has been registered, there is a primary group: the one before or the new one. -/
theorem primary_register (tagOf : GroupId → Option TypeTag) (s : Slot) (g : GroupId) :
    ∃ p, (s.register tagOf g).primary = some p ∧ (p = g ∨ s.primary = some p) := by
  unfold register
  cases tagOf g with
  | none => exact ⟨g, rfl, .inl rfl⟩
  | some k =>
    cases s.primary with
    | none => exact ⟨g, rfl, .inl rfl⟩
    | some p =>
      by_cases hp : tagOf p = none ∨ tagOf p = some k
      · exact ⟨g, by simp only [if_pos hp], .inl rfl⟩
      · exact ⟨p, by simp only [if_neg hp], .inr rfl⟩

theorem mem_typed_register (hx : x ∈ (s.register tagOf g).typed) : x = g ∨ x ∈ s.typed := by
  obtain ⟨k, hk⟩ := mem_typed_iff.1 hx
  cases hg : tagOf g with
  | none =>
    unfold register at hk
    rw [hg] at hk
    exact .inr (mem_typed_iff.2 ⟨k, hk⟩)
  | some l =>
    rw [find?_register hg] at hk
    by_cases hkl : k = l
    · rw [if_pos hkl] at hk
      exact .inl (Option.some.inj hk).symm
    · rw [if_neg hkl] at hk
      exact .inr (mem_typed_iff.2 ⟨k, hk⟩)

theorem mem_groups_register (hx : x ∈ (s.register tagOf g).groups) : x = g ∨ x ∈ s.groups := by
  rcases mem_groups.1 hx with hp | ht
  · obtain ⟨p, hreg, hp'⟩ := primary_register tagOf s g
    rw [hreg] at hp
    obtain rfl := Option.some.inj hp
    exact hp'.imp_right fun hp' => mem_groups.2 (.inl hp')
  · exact (mem_typed_register ht).imp_right fun ht => mem_groups.2 (.inr ht)

end Slot

namespace Heap

variable {a b c h : Heap} {side : Side} {i : ItemId} {g : GroupId}

/-! ### Closed nodes -/

theorem GroupClosed.mono {x : Group} (hx : a.GroupClosed x)
    (hgroups : ∀ g, a.HasGroup g → b.HasGroup g) (hitems : ∀ i, a.HasItem i → b.HasItem i)
    (hvariants : a.variants.size ≤ b.variants.size) : b.GroupClosed x where
  super s hs := hgroups s (hx.super s hs)
  subs s hs := hgroups s (hx.subs s hs)
  nestedIn i hi := hitems i (hx.nestedIn i hi)
  items i hi := hitems i (hx.items i hi)
  variant := Nat.lt_of_lt_of_le hx.variant hvariants

theorem ItemClosed.mono {x : Item} (hx : a.ItemClosed x)
    (hgroups : ∀ g, a.HasGroup g → b.HasGroup g) : b.ItemClosed x where
  owner := hgroups _ hx.owner
  nested g hg := hgroups g (hx.nested g hg)

theorem ItemClosed.slot {x : Item} (hx : h.ItemClosed x) (side : Side)
    (hg : g ∈ (x.slot side).groups) : h.HasGroup g :=
  hx.nested g (Item.mem_nested.2 ⟨side, hg⟩)

/-- An item is closed if its owner and the groups of its slots are groups of the heap. -/
theorem itemClosed_of_slots {x : Item} (howner : h.HasGroup x.owner)
    (hslots : ∀ side, ∀ g ∈ (x.slot side).groups, h.HasGroup g) : h.ItemClosed x where
  owner := howner
  nested g hg := by
    obtain ⟨side, hg⟩ := Item.mem_nested.1 hg
    exact hslots side g hg

/-! ### Slots that are filed anew -/

theorem mem_typed_refile {s : Slot} {x : GroupId} (hx : x ∈ (h.refile s).typed) : x ∈ s.typed :=
  Slot.mem_typed_retag hx

theorem mem_groups_refile {s : Slot} {x : GroupId} (hx : x ∈ (h.refile s).groups) :
    x ∈ s.groups := by
  rw [Slot.mem_groups] at hx ⊢
  exact hx.imp_right mem_typed_refile

theorem rooted_refile {s : Slot} (hs : s.Rooted) : (h.refile s).Rooted := by
  intro hne
  obtain ⟨x, hx⟩ := List.exists_mem_of_ne_nil _ hne
  exact hs (List.ne_nil_of_mem (mem_typed_refile hx))

/-! ### Single writes -/

/-- What has become of a heap is well formed, and still has its nodes. -/
structure Upkeep (a b : Heap) : Prop where
  wellFormed : b.WellFormed
  hasGroup : ∀ g, a.HasGroup g → b.HasGroup g
  hasItem : ∀ i, a.HasItem i → b.HasItem i

theorem WellFormed.upkeep (hwf : h.WellFormed) : Upkeep h h := ⟨hwf, fun _ hg => hg, fun _ hi => hi⟩

theorem empty_wellFormed : empty.WellFormed := by decide

namespace Upkeep

theorem trans (hab : Upkeep a b) (hbc : Upkeep b c) : Upkeep a c where
  wellFormed := hbc.wellFormed
  hasGroup g hg := hbc.hasGroup g (hab.hasGroup g hg)
  hasItem i hi := hbc.hasItem i (hab.hasItem i hi)

/-- A group is changed into one that is closed and whose items are filed under their names. -/
theorem alterGroup (hab : Upkeep a b) {f : Group → Group}
    (hf : b.HasGroup g → b.GroupClosed (f (b.group g)) ∧
      ∀ n i, (f (b.group g)).items.find? n = some i → (b.item i).name = n) :
    Upkeep a (b.alterGroup g f) where
  wellFormed := by
    have hwf := hab.wellFormed
    refine ⟨⟨fun x hx => ?_, fun i hi => ?_⟩, fun x n i hi => ?_, hwf.rooted⟩
    · rw [hasGroup_alterGroup] at hx
      refine GroupClosed.mono (a := b) ?_ (fun _ => hasGroup_alterGroup.2) (fun _ hi => hi)
        (Nat.le_refl _)
      by_cases hxg : x = g
      · subst hxg
        rw [group_alterGroup_self hx]
        exact (hf hx).1
      · rw [group_alterGroup_of_ne hxg]
        exact hwf.closed.group x hx
    · exact (hwf.closed.item i hi).mono fun _ => hasGroup_alterGroup.2
    · rw [group_alterGroup] at hi
      by_cases hx : g = x ∧ b.HasGroup x
      · rw [if_pos hx, ← hx.1] at hi
        exact (hf (hx.1 ▸ hx.2)).2 n i hi
      · rw [if_neg hx] at hi
        exact hwf.named x n i hi
  hasGroup x hx := hasGroup_alterGroup.2 (hab.hasGroup x hx)
  hasItem := hab.hasItem

/-- The links of a group are changed, but not its items. -/
theorem relink (hab : Upkeep a b) {f : Group → Group} (hitems : ∀ x, (f x).items = x.items)
    (hf : b.HasGroup g → b.GroupClosed (f (b.group g))) : Upkeep a (b.alterGroup g f) := by
  refine hab.alterGroup fun hg => ⟨hf hg, fun n i hi => ?_⟩
  rw [hitems] at hi
  exact hab.wellFormed.named g n i hi

/-- An item is changed into one that is closed, has the same name, and has rooted slots. -/
theorem alterItem (hab : Upkeep a b) {f : Item → Item} (hname : ∀ x, (f x).name = x.name)
    (hf : b.HasItem i → b.ItemClosed (f (b.item i)) ∧ ∀ side, ((f (b.item i)).slot side).Rooted) :
    Upkeep a (b.alterItem i f) where
  wellFormed := by
    have hwf := hab.wellFormed
    refine ⟨⟨fun x hx => ?_, fun j hj => ?_⟩, fun x n j hj => ?_, fun j side => ?_⟩
    · exact (hwf.closed.group x hx).mono (fun _ hg => hg) (fun _ => hasItem_alterItem.2)
        (Nat.le_refl _)
    · rw [hasItem_alterItem] at hj
      refine ItemClosed.mono (a := b) ?_ fun _ hg => hg
      by_cases hji : j = i
      · subst hji
        rw [item_alterItem_self hj]
        exact (hf hj).1
      · rw [item_alterItem_of_ne hji]
        exact hwf.closed.item j hj
    · rw [item_alterItem]
      by_cases hji : i = j ∧ b.HasItem j
      · rw [if_pos hji, hname]
        exact hwf.named x n j hj
      · rw [if_neg hji]
        exact hwf.named x n j hj
    · rw [item_alterItem]
      by_cases hji : i = j ∧ b.HasItem j
      · rw [if_pos hji, ← hji.1]
        exact (hf (hji.1 ▸ hji.2)).2 side
      · rw [if_neg hji]
        exact hwf.rooted j side
  hasGroup := hab.hasGroup
  hasItem j hj := hasItem_alterItem.2 (hab.hasItem j hj)

/-- The groups of a slot are changed. -/
theorem alterSlot (hab : Upkeep a b) {f : Slot → Slot}
    (hf : ∀ s : Slot, (∀ g ∈ s.groups, b.HasGroup g) → ∀ g ∈ (f s).groups, b.HasGroup g)
    (hrooted : ∀ s : Slot, s.Rooted → (f s).Rooted) :
    Upkeep a (b.alterItem i (Item.mapSlot side f)) := by
  refine hab.alterItem (Item.name_mapSlot side f) fun hi => ⟨?_, fun side' => ?_⟩
  · have hclosed := hab.wellFormed.closed.item i hi
    refine itemClosed_of_slots (by cases side <;> exact hclosed.owner) fun side' => ?_
    rw [Item.slot_mapSlot]
    by_cases hside : side' = side
    · rw [if_pos hside]
      exact hf _ fun g hg => hclosed.slot side' hg
    · rw [if_neg hside]
      exact fun g hg => hclosed.slot side' hg
  · rw [Item.slot_mapSlot]
    by_cases hside : side' = side
    · rw [if_pos hside]
      exact hrooted _ (hab.wellFormed.rooted i side')
    · rw [if_neg hside]
      exact hab.wellFormed.rooted i side'

/-- A group without links is added. -/
theorem allocGroup (hab : Upkeep a b) {x : Group} (v : Variant) (habove : x.above = none)
    (hbelow : x.below = none) (hnested : x.nestedIn = none) (hitems : x.items = .empty) :
    Upkeep a (b.allocGroup x v).2 where
  wellFormed := by
    have hwf := hab.wellFormed
    have hold : ∀ g, b.HasGroup g → (b.allocGroup x v).2.HasGroup g :=
      fun g hg => hasGroup_allocGroup.2 (.inl hg)
    have hsize : (b.allocGroup x v).2.variants.size = b.variants.size + 1 := Array.size_push _
    refine ⟨⟨fun g hg => ?_, fun i hi => (hwf.closed.item i hi).mono hold⟩, fun g n i hi => ?_,
      hwf.rooted⟩
    · rcases hasGroup_allocGroup.1 hg with hg | rfl
      · have hne : g ≠ (b.allocGroup x v).1 := fun hnew => absurd (hnew ▸ hg) (Nat.lt_irrefl _)
        rw [group_allocGroup hne]
        exact (hwf.closed.group g hg).mono hold (fun _ hi => hi) (by omega)
      · rw [group_allocGroup_self]
        refine ⟨fun s hs => ?_, fun s hs => ?_, fun i hi => ?_, fun i hi => ?_, ?_⟩
        · rw [habove] at hs
          cases hs
        · rw [Group.subs, hbelow] at hs
          cases hs
        · rw [hnested] at hi
          cases hi
        · rw [Group.itemIds, hitems] at hi
          cases hi
        · rw [hsize]
          exact Nat.lt_succ_self _
    · by_cases hg : g = (b.allocGroup x v).1
      · rw [hg, group_allocGroup_self, hitems] at hi
        cases hi
      · rw [group_allocGroup hg] at hi
        exact hwf.named g n i hi
  hasGroup g hg := hasGroup_allocGroup.2 (.inl (hab.hasGroup g hg))
  hasItem := hab.hasItem

/-- An item without nested groups is added. -/
theorem allocItem (hab : Upkeep a b) (hg : b.HasGroup g) (name : String) :
    Upkeep a (b.allocItem { name := name, owner := g }).2 where
  wellFormed := by
    have hwf := hab.wellFormed
    have hold : ∀ i, b.HasItem i → (b.allocItem { name := name, owner := g }).2.HasItem i :=
      fun i hi => hasItem_allocItem.2 (.inl hi)
    have hne : ∀ i, b.HasItem i → i ≠ (b.allocItem { name := name, owner := g }).1 :=
      fun i hi hnew => absurd (hnew ▸ hi) (Nat.lt_irrefl _)
    refine ⟨⟨fun x hx => ?_, fun i hi => ?_⟩, fun x n i hi => ?_, fun i side => ?_⟩
    · exact (hwf.closed.group x hx).mono (fun _ hg => hg) hold (Nat.le_refl _)
    · rcases hasItem_allocItem.1 hi with hi | rfl
      · rw [item_allocItem (hne i hi)]
        exact (hwf.closed.item i hi).mono fun _ hg => hg
      · rw [item_allocItem_self]
        exact ⟨hg, fun z hz => absurd hz List.not_mem_nil⟩
    · have hx := hasGroup_of_mem_itemIds (mem_itemIds_of_find? hi)
      rw [item_allocItem (hne i ((hwf.closed.group x hx).items i (mem_itemIds_of_find? hi)))]
      exact hwf.named x n i hi
    · by_cases hi : i = (b.allocItem { name := name, owner := g }).1
      · rw [hi, item_allocItem_self]
        cases side <;> exact Slot.rooted_empty
      · rw [item_allocItem hi]
        exact hwf.rooted i side
  hasGroup := hab.hasGroup
  hasItem i hi := hasItem_allocItem.2 (.inl (hab.hasItem i hi))

/-- The settings of a variant are changed. -/
theorem alterVariant (hab : Upkeep a b) (v : VariantId) (f : Variant → Variant) :
    Upkeep a (b.alterVariant v f) where
  wellFormed := by
    have hwf := hab.wellFormed
    refine ⟨⟨fun g hg => ?_, fun i hi => (hwf.closed.item i hi).mono fun _ hg => hg⟩, hwf.named,
      hwf.rooted⟩
    have hsize : (b.alterVariant v f).variants.size = b.variants.size := Array.size_modify
    exact (hwf.closed.group g hg).mono (fun _ hg => hg) (fun _ hi => hi) (Nat.le_of_eq hsize.symm)
  hasGroup := hab.hasGroup
  hasItem := hab.hasItem

/-! ### Single fields -/

theorem createGroup (hab : Upkeep a b) (name : String) (type : Option ObjectType)
    (typeName : Option String) (validated : Bool) (v : Variant) :
    Upkeep a (b.createGroup name type typeName validated v).2 ∧
      (b.createGroup name type typeName validated v).2.HasGroup
        (b.createGroup name type typeName validated v).1 :=
  ⟨hab.allocGroup v rfl rfl rfl rfl, hasGroup_allocGroup.2 (.inr rfl)⟩

/-- The name, the type and the flag of a group lead nowhere. -/
theorem relabel (hab : Upkeep a b) {f : Group → Group}
    (hf : ∀ x, ∃ name type typeName validated,
      f x = { x with name := name, type := type, typeName := typeName, validated := validated }) :
    Upkeep a (b.alterGroup g f) := by
  refine hab.relink (fun x => ?_) fun hg => ?_
  · obtain ⟨name, type, typeName, validated, hx⟩ := hf x
    rw [hx]
  · obtain ⟨name, type, typeName, validated, hx⟩ := hf (b.group g)
    rw [hx]
    exact { hab.wellFormed.closed.group g hg with }

theorem setAbove (hab : Upkeep a b) (g : GroupId) {super : Option GroupId}
    (hsuper : ∀ s ∈ super, b.HasGroup s) : Upkeep a (b.setAbove g super) :=
  hab.relink (fun _ => rfl) fun hg => { hab.wellFormed.closed.group g hg with super := hsuper }

theorem setBelow (hab : Upkeep a b) (g : GroupId) {subs : Option (List GroupId)}
    (hsubs : ∀ s ∈ subs.getD [], b.HasGroup s) : Upkeep a (b.setBelow g subs) := by
  refine hab.relink (fun _ => rfl) fun hg =>
    { hab.wellFormed.closed.group g hg with subs := fun s hs => hsubs s ?_ }
  cases subs with
  | none => exact absurd hs List.not_mem_nil
  | some l => exact OrderedSet.mem_ofList.1 hs

theorem setVariant (hab : Upkeep a b) (g : GroupId) (f : Variant → Variant) :
    Upkeep a (b.setVariant g f) :=
  hab.alterVariant _ f

/-! ### Nested groups -/

theorem setNestedIn (hab : Upkeep a b) (g : GroupId) (hi : b.HasItem i) :
    Upkeep a (b.setNestedIn g i) := by
  refine hab.relink (fun _ => rfl) fun hg =>
    { hab.wellFormed.closed.group g hg with nestedIn := fun j hj => ?_ }
  rw [← Option.some.inj hj]
  exact hi

theorem setRoot (hab : Upkeep a b) (side : Side) (hg : b.HasGroup g) (hi : b.HasItem i) :
    Upkeep a (b.setRoot side i g) := by
  refine (hab.setNestedIn g hi).alterSlot (fun s hs x hx => ?_) fun s _ =>
    Slot.rooted_of_primary rfl
  rcases Slot.mem_groups.1 hx with hp | ht
  · rw [← Option.some.inj hp]
    exact hasGroup_alterGroup.2 hg
  · exact hs x (Slot.mem_groups.2 (.inr ht))

theorem register (hab : Upkeep a b) (side : Side) (hg : b.HasGroup g) (hi : b.HasItem i) :
    Upkeep a (b.register side i g) := by
  refine (hab.setNestedIn g hi).alterSlot (fun s hs x hx => ?_) fun s _ => ?_
  · rcases Slot.mem_groups_register hx with rfl | hx
    · exact hasGroup_alterGroup.2 hg
    · exact hs x hx
  · obtain ⟨p, hp, -⟩ := Slot.primary_register b.tag? s g
    exact Slot.rooted_of_primary hp

theorem registerAll (hab : Upkeep a b) (side : Side) {gs : List GroupId}
    (hgs : ∀ g ∈ gs, b.HasGroup g) (hi : b.HasItem i) : Upkeep a (b.registerAll side i gs) := by
  induction gs generalizing b with
  | nil => exact hab
  | cons g gs ih =>
    rw [List.forall_mem_cons] at hgs
    have hreg := hab.wellFormed.upkeep.register side hgs.1 hi
    exact ih (hab.trans hreg) (fun x hx => hreg.hasGroup x (hgs.2 x hx)) (hreg.hasItem i hi)

/-! ### Items -/

/-- An item of the heap is filed under its name. -/
theorem fileUnder (hab : Upkeep a b) {n : String} (hi : b.HasItem i) (hname : (b.item i).name = n) :
    Upkeep a (b.alterGroup g fun x => { x with items := x.items.insert n i }) := by
  have hfind : ∀ m j, ((b.group g).items.insert n i).find? m = some j →
      m = n ∧ j = i ∨ (b.group g).items.find? m = some j := by
    intro m j hj
    rw [OrderedMap.find?_insert] at hj
    by_cases hm : m = n
    · rw [if_pos hm] at hj
      exact .inl ⟨hm, (Option.some.inj hj).symm⟩
    · rw [if_neg hm] at hj
      exact .inr hj
  refine hab.alterGroup fun hg => ⟨?_, fun m j hj => ?_⟩
  · have hclosed := hab.wellFormed.closed.group g hg
    refine { hclosed with items := fun j hj => ?_ }
    obtain ⟨m, hj⟩ := OrderedMap.mem_values.1 hj
    rcases hfind m j hj with ⟨-, rfl⟩ | hj
    · exact hi
    · exact hclosed.items j (mem_itemIds_of_find? hj)
  · rcases hfind m j hj with ⟨rfl, rfl⟩ | hj
    · exact hname
    · exact hab.wellFormed.named g m j hj

theorem ensureItem (hab : Upkeep a b) (hg : b.HasGroup g) (name : String) :
    Upkeep a (b.ensureItem g name).2 ∧
      (b.ensureItem g name).2.HasItem (b.ensureItem g name).1 := by
  unfold Heap.ensureItem
  cases hi : (b.group g).items.find? name with
  | some i => exact ⟨hab, (hab.wellFormed.closed.group g hg).items i (mem_itemIds_of_find? hi)⟩
  | none =>
    have hnew : (b.allocItem { name := name, owner := g }).2.HasItem
        (b.allocItem { name := name, owner := g }).1 := hasItem_allocItem.2 (.inr rfl)
    refine ⟨(hab.allocItem hg name).fileUnder hnew ?_, hnew⟩
    rw [item_allocItem_self]

theorem ensureNested (hab : Upkeep a b) (g : GroupId) (hi : b.HasItem i) (name : String) :
    Upkeep a (b.ensureNested g i name).2 ∧
      (b.ensureNested g i name).2.HasGroup (b.ensureNested g i name).1 := by
  unfold Heap.ensureNested
  cases hnested : (b.item i).value.primary with
  | some nested =>
    refine ⟨hab, (hab.wellFormed.closed.item i hi).slot .value ?_⟩
    exact Slot.mem_groups.2 (.inl hnested)
  | none =>
    have hnew : (b.allocGroup { name := name } (b.variantOf g)).2.HasGroup
        (b.allocGroup { name := name } (b.variantOf g)).1 := hasGroup_allocGroup.2 (.inr rfl)
    have halloc := hab.allocGroup (x := { name := name }) (b.variantOf g) rfl rfl rfl rfl
    exact ⟨halloc.setRoot .value hnew hi, hasGroup_alterGroup.2 hnew⟩

/-- The item of a path is an item of the heap. -/
theorem ensurePath (rest : List String) : ∀ {b : Heap} (g : GroupId) (head : String), Upkeep a b →
    b.HasGroup g → Upkeep a (b.ensurePath g head rest).2 ∧
      (b.ensurePath g head rest).2.HasItem (b.ensurePath g head rest).1 := by
  induction rest with
  | nil =>
    intro b g head hab hg
    exact hab.ensureItem hg head
  | cons next rest ih =>
    intro b g head hab hg
    obtain ⟨hitem, hi⟩ := hab.ensureItem hg head
    obtain ⟨hnested, hn⟩ := hitem.ensureNested g hi head
    exact ih _ next hnested hn

/-- An item of the heap is given to a group and filed in it. -/
theorem fileItem (hab : Upkeep a b) (hg : b.HasGroup g) (hi : b.HasItem i) :
    Upkeep a (b.fileItem g i) := by
  have howner : Upkeep a (b.alterItem i fun x => { x with owner := g }) := by
    refine hab.alterItem (fun _ => rfl) fun hi => ⟨?_, fun side => ?_⟩
    · exact ⟨hg, (hab.wellFormed.closed.item i hi).nested⟩
    · have hrooted := hab.wellFormed.rooted i side
      cases side <;> exact hrooted
  exact howner.fileUnder (hasItem_alterItem.2 hi) rfl

/-- An item is removed from a group. -/
theorem eraseItem (hab : Upkeep a b) (g : GroupId) (n : String) :
    Upkeep a (b.alterGroup g fun x => { x with items := x.items.erase n }) := by
  have hfind : ∀ m j, ((b.group g).items.erase n).find? m = some j →
      (b.group g).items.find? m = some j := by
    intro m j hj
    rw [OrderedMap.find?_erase] at hj
    by_cases hm : m = n
    · rw [if_pos hm] at hj
      cases hj
    · rw [if_neg hm] at hj
      exact hj
  refine hab.alterGroup fun hg => ⟨?_, fun m j hj => hab.wellFormed.named g m j (hfind m j hj)⟩
  have hclosed := hab.wellFormed.closed.group g hg
  refine { hclosed with items := fun j hj => ?_ }
  obtain ⟨m, hj⟩ := OrderedMap.mem_values.1 hj
  exact hclosed.items j (mem_itemIds_of_find? (hfind m j hj))

/-! ### Paths -/

theorem addNested (hab : Upkeep a b) (side : Side) {input : PathInput} {nested : List GroupId}
    (hg : b.HasGroup g) (hnested : ∀ x ∈ nested, b.HasGroup x)
    (hc : b.addNested side g input nested = .ok c) : Upkeep a c := by
  obtain ⟨p, -, rfl⟩ := addNested_eq_ok hc
  obtain ⟨hpath, hi⟩ := ensurePath p.tail g p.head hab.wellFormed.upkeep hg
  exact hab.trans (hpath.registerAll side (fun x hx => hpath.hasGroup x (hnested x hx)) hi)

theorem addPaths (paths : List String) : ∀ {b : Heap}, Upkeep a b → b.HasGroup g →
    Upkeep a (b.addPaths g paths).heap := by
  induction paths with
  | nil => exact fun hab _ => hab
  | cons path rest ih =>
    intro b hab hg
    unfold Heap.addPaths
    cases hc : b.addPath g (.text path) with
    | error e => exact hab
    | ok c =>
      have hbc := hab.wellFormed.upkeep.addNested .value hg (fun x hx => absurd hx List.not_mem_nil)
        hc
      exact ih (hab.trans hbc) (hbc.hasGroup g hg)

theorem reachItem (hab : Upkeep a b) {input : PathInput} {create : Bool} {found : Option ItemId}
    (hg : b.HasGroup g) (hc : b.reachItem g input create = .ok (found, c)) : Upkeep a c := by
  obtain ⟨p, -, ⟨-, rfl⟩ | ⟨-, -, rfl⟩⟩ := reachItem_eq_ok hc
  · exact (ensurePath p.tail g p.head hab hg).1
  · exact hab

theorem removePath (hab : Upkeep a b) {input : PathInput} (hc : b.removePath g input = .ok c) :
    Upkeep a c := by
  rcases removePath_eq_ok hc with rfl | ⟨i, rfl⟩
  · exact hab
  · exact hab.eraseItem _ _

/-! ### Super and sub groups -/

theorem addSub (hab : Upkeep a b) {s : GroupId} (hs : b.HasGroup s) :
    Upkeep a (b.alterGroup g fun x =>
      { x with below := some ((x.below.getD .empty).insert s) }) := by
  refine hab.relink (fun _ => rfl) fun hg => ?_
  have hclosed := hab.wellFormed.closed.group g hg
  refine { hclosed with subs := fun z hz => ?_ }
  rcases Group.mem_subs_addSub.1 hz with hz | rfl
  · exact hclosed.subs z hz
  · exact hs

theorem removeSub (hab : Upkeep a b) (s : GroupId) :
    Upkeep a (b.alterGroup g fun x => { x with below := x.below.map (·.erase s) }) := by
  refine hab.relink (fun _ => rfl) fun hg => ?_
  have hclosed := hab.wellFormed.closed.group g hg
  exact { hclosed with subs := fun z hz => hclosed.subs z (Group.mem_subs_removeSub.1 hz).1 }

theorem setSuper (hab : Upkeep a b) {s : GroupId} (hs : b.HasGroup s) :
    Upkeep a (b.alterGroup g fun x => { x with above := some s }) := by
  refine hab.setAbove g fun z hz => ?_
  rw [← Option.some.inj hz]
  exact hs

theorem reparent (hab : Upkeep a b) {child old new : GroupId} (hchild : b.HasGroup child)
    (hnew : b.HasGroup new) : Upkeep a (b.reparent child old new) := by
  have hsuper := (hab.addSub (g := new) hchild).setSuper (g := child) (hasGroup_alterGroup.2 hnew)
  exact hsuper.removeSub child

theorem insertBelow (hab : Upkeep a b) (relation : Hierarchy) {parent : GroupId}
    (hparent : b.HasGroup parent) (hg : b.HasGroup g) :
    Upkeep a (b.insertBelow relation parent g) := by
  -- the children are moved one after the other
  have hmoved : ∀ (children : List GroupId) {c : Heap}, Upkeep b c →
      (∀ s ∈ children, b.HasGroup s) →
      Upkeep b (children.foldl (fun h child =>
        if h.derivesFrom relation g child then h.reparent child parent g else h) c) := by
    intro children
    induction children with
    | nil => exact fun hbc _ => hbc
    | cons s rest ih =>
      intro c hbc hall
      rw [List.forall_mem_cons] at hall
      refine ih ?_ hall.2
      show Upkeep b (if c.derivesFrom relation g s then _ else _)
      by_cases hderives : c.derivesFrom relation g s
      · rw [if_pos hderives]
        exact hbc.reparent (hbc.hasGroup s hall.1) (hbc.hasGroup g hg)
      · rw [if_neg hderives]
        exact hbc
  unfold Heap.insertBelow
  by_cases heq : g = parent
  · rw [if_pos heq]
    exact hab
  · rw [if_neg heq]
    have hsuper := hab.wellFormed.upkeep.setSuper (g := g) hparent
    have hchildren := hmoved (b.group parent).subs hsuper
      (hab.wellFormed.closed.group parent hparent).subs
    exact hab.trans (hchildren.addSub (hchildren.hasGroup g hg))

/-! ### Resolving type names -/

theorem refileItem (hab : Upkeep a b) (i : ItemId) : Upkeep a (b.alterItem i b.refileItem) := by
  refine hab.alterItem (fun _ => rfl) fun hi => ⟨?_, fun side => ?_⟩
  · have hclosed := hab.wellFormed.closed.item i hi
    refine itemClosed_of_slots hclosed.owner fun side z hz => hclosed.slot side ?_
    rw [slot_refileItem] at hz
    exact mem_groups_refile hz
  · rw [slot_refileItem]
    exact rooted_refile (hab.wellFormed.rooted i side)

theorem applyAll {resolver : Resolver} (changes : List Change) {b : Heap} (hab : Upkeep a b) :
    Upkeep a (b.applyAll resolver changes).heap := by
  refine keeps_applyAll (fun h g t hah => ?_) (fun h i hah => hah.refileItem i) resolver changes hab
  exact hah.relabel fun x => ⟨_, _, _, _, rfl⟩

end Upkeep

end Heap

end AttributeGraph
