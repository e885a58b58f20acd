/-
How a heap grows while groups are built in it.

Building adds nodes and fills in the ones that it has just added.  `Grows` says
that all other nodes are as before, and `Retains` says of a part of a heap, given
by the first addresses that belong to it, that it is still there in a later heap.
What may still change in that part are the types of groups, the items that groups
are nested in, the keys under which typed groups are filed, and the super and sub
groups of those groups that are singled out.

`Tidy` holds of the added nodes at any time: no group has a type yet, and every
item files its groups under the tags that they have.
-/
import AttributeGraph.Heap.Edit
import AttributeGraph.Proofs.Links

namespace AttributeGraph

/-! ### What a write does to a read -/

namespace Heap

variable {h : Heap}

@[simp] theorem hasGroup_alterGroup {g x : GroupId} {f : Group → Group} :
    (h.alterGroup g f).HasGroup x ↔ h.HasGroup x := by
  simp [HasGroup, alterGroup]

@[simp] theorem hasItem_alterGroup {g : GroupId} {f : Group → Group} {i : ItemId} :
    (h.alterGroup g f).HasItem i ↔ h.HasItem i := Iff.rfl

@[simp] theorem hasGroup_alterItem {i : ItemId} {f : Item → Item} {g : GroupId} :
    (h.alterItem i f).HasGroup g ↔ h.HasGroup g := Iff.rfl

@[simp] theorem hasItem_alterItem {i j : ItemId} {f : Item → Item} :
    (h.alterItem i f).HasItem j ↔ h.HasItem j := by
  simp [HasItem, alterItem]

theorem group_alterGroup_self {g : GroupId} (hg : h.HasGroup g) (f : Group → Group) :
    (h.alterGroup g f).group g = f (h.group g) := by
  rw [group_alterGroup, if_pos ⟨rfl, hg⟩]

theorem group_alterGroup_of_ne {g x : GroupId} (hne : x ≠ g) (f : Group → Group) :
    (h.alterGroup g f).group x = h.group x := by
  rw [group_alterGroup, if_neg fun hx => hne hx.1.symm]

theorem item_alterItem_self {i : ItemId} (hi : h.HasItem i) (f : Item → Item) :
    (h.alterItem i f).item i = f (h.item i) := by
  rw [item_alterItem, if_pos ⟨rfl, hi⟩]

theorem item_alterItem_of_ne {i j : ItemId} (hne : j ≠ i) (f : Item → Item) :
    (h.alterItem i f).item j = h.item j := by
  rw [item_alterItem, if_neg fun hj => hne hj.1.symm]

/-- A field that a write leaves alone reads as before. -/
theorem group_alterGroup_field {α : Type} (field : Group → α) {f : Group → Group}
    (hf : ∀ x, field (f x) = field x) (g x : GroupId) :
    field ((h.alterGroup g f).group x) = field (h.group x) := by
  rw [group_alterGroup]
  by_cases hx : g = x ∧ h.HasGroup x
  · rw [if_pos hx, hf]
  · rw [if_neg hx]

theorem item_alterItem_field {α : Type} (field : Item → α) {f : Item → Item}
    (hf : ∀ x, field (f x) = field x) (i j : ItemId) :
    field ((h.alterItem i f).item j) = field (h.item j) := by
  rw [item_alterItem]
  by_cases hj : i = j ∧ h.HasItem j
  · rw [if_pos hj, hf]
  · rw [if_neg hj]

theorem hasGroup_allocGroup {x : Group} {v : Variant} {g : GroupId} :
    (h.allocGroup x v).2.HasGroup g ↔ h.HasGroup g ∨ g = (h.allocGroup x v).1 := by
  obtain ⟨n⟩ := g
  simp only [HasGroup, allocGroup, Array.size_push, GroupId.mk.injEq]
  omega

theorem group_allocGroup_self (x : Group) (v : Variant) :
    (h.allocGroup x v).2.group (h.allocGroup x v).1 = { x with variant := ⟨h.variants.size⟩ } := by
  simp [group, allocGroup, Array.getD_eq_getD_getElem?]

theorem group_allocGroup {x : Group} {v : Variant} {g : GroupId}
    (hg : g ≠ (h.allocGroup x v).1) : (h.allocGroup x v).2.group g = h.group g := by
  obtain ⟨n⟩ := g
  have hn : n ≠ h.groups.size := fun hn => hg (hn ▸ rfl)
  simp [group, allocGroup, Array.getD_eq_getD_getElem?, Array.getElem?_push, hn]

theorem variant_allocGroup_self (x : Group) (v : Variant) :
    (h.allocGroup x v).2.variant ⟨h.variants.size⟩ = v := by
  simp [variant, allocGroup, Array.getD_eq_getD_getElem?]

theorem variant_allocGroup {x : Group} {v : Variant} {w : VariantId}
    (hw : w.index < h.variants.size) : (h.allocGroup x v).2.variant w = h.variant w := by
  have hne : w.index ≠ h.variants.size := Nat.ne_of_lt hw
  simp [variant, allocGroup, Array.getD_eq_getD_getElem?, Array.getElem?_push, hne]

theorem hasItem_allocItem {x : Item} {i : ItemId} :
    (h.allocItem x).2.HasItem i ↔ h.HasItem i ∨ i = (h.allocItem x).1 := by
  obtain ⟨n⟩ := i
  simp only [HasItem, allocItem, Array.size_push, ItemId.mk.injEq]
  omega

theorem item_allocItem_self (x : Item) : (h.allocItem x).2.item (h.allocItem x).1 = x := by
  simp [item, allocItem, Array.getD_eq_getD_getElem?]

theorem item_allocItem {x : Item} {i : ItemId} (hi : i ≠ (h.allocItem x).1) :
    (h.allocItem x).2.item i = h.item i := by
  obtain ⟨n⟩ := i
  have hn : n ≠ h.items.size := fun hn => hi (hn ▸ rfl)
  simp [item, allocItem, Array.getD_eq_getD_getElem?, Array.getElem?_push, hn]

/-! ### Growing -/

/-- Apart from the groups of `G` and the items of `I`, every node of a heap is in the other one as
it was. -/
structure Grows (G : GroupId → Prop) (I : ItemId → Prop) (a b : Heap) : Prop where
  hasGroup : ∀ g, a.HasGroup g → b.HasGroup g
  hasItem : ∀ i, a.HasItem i → b.HasItem i
  hasVariant : a.variants.size ≤ b.variants.size
  group : ∀ g, a.HasGroup g → ¬ G g → b.group g = a.group g
  item : ∀ i, a.HasItem i → ¬ I i → b.item i = a.item i
  variant : ∀ v : VariantId, v.index < a.variants.size → b.variant v = a.variant v

/-- No node is singled out. -/
abbrev Nothing {α : Type} (_ : α) : Prop := False

namespace Grows

variable {G G' : GroupId → Prop} {I I' : ItemId → Prop} {a b c : Heap}

theorem refl (a : Heap) : Grows G I a a :=
  ⟨fun _ hg => hg, fun _ hi => hi, Nat.le_refl _, fun _ _ _ => rfl, fun _ _ _ => rfl,
    fun _ _ => rfl⟩

theorem trans (hab : Grows G I a b) (hbc : Grows G' I' b c)
    (hG : ∀ g, a.HasGroup g → G' g → G g) (hI : ∀ i, a.HasItem i → I' i → I i) : Grows G I a c where
  hasGroup g hg := hbc.hasGroup g (hab.hasGroup g hg)
  hasItem i hi := hbc.hasItem i (hab.hasItem i hi)
  hasVariant := Nat.le_trans hab.hasVariant hbc.hasVariant
  group g hg hne := by
    rw [hbc.group g (hab.hasGroup g hg) fun hg' => hne (hG g hg hg'), hab.group g hg hne]
  item i hi hne := by
    rw [hbc.item i (hab.hasItem i hi) fun hi' => hne (hI i hi hi'), hab.item i hi hne]
  variant v hv := by
    rw [hbc.variant v (Nat.lt_of_lt_of_le hv hab.hasVariant), hab.variant v hv]

/-- Nodes that were not there need not be singled out. -/
theorem mono (hab : Grows G I a b) (hG : ∀ g, a.HasGroup g → G g → G' g)
    (hI : ∀ i, a.HasItem i → I i → I' i) : Grows G' I' a b :=
  { hab with
    group := fun g hg hne => hab.group g hg fun hg' => hne (hG g hg hg')
    item := fun i hi hne => hab.item i hi fun hi' => hne (hI i hi hi') }

/-- A group that keeps the address of its variant keeps the variant. -/
theorem variantOf (hab : Grows G I a b) {g : GroupId}
    (hin : (a.group g).variant.index < a.variants.size)
    (hsame : (b.group g).variant = (a.group g).variant) : b.variantOf g = a.variantOf g := by
  rw [Heap.variantOf, hsame, hab.variant _ hin, Heap.variantOf]

theorem alterGroup (hab : Grows G I a b) {g : GroupId} (hg : a.HasGroup g → G g)
    (f : Group → Group) : Grows G I a (b.alterGroup g f) where
  hasGroup x hx := hasGroup_alterGroup.2 (hab.hasGroup x hx)
  hasItem := hab.hasItem
  hasVariant := hab.hasVariant
  group x hx hne := by
    have hxg : x ≠ g := by
      intro hxg
      subst hxg
      exact hne (hg hx)
    rw [group_alterGroup_of_ne hxg, hab.group x hx hne]
  item := hab.item
  variant := hab.variant

theorem alterItem (hab : Grows G I a b) {i : ItemId} (hi : a.HasItem i → I i) (f : Item → Item) :
    Grows G I a (b.alterItem i f) where
  hasGroup := hab.hasGroup
  hasItem j hj := hasItem_alterItem.2 (hab.hasItem j hj)
  hasVariant := hab.hasVariant
  group := hab.group
  item j hj hne := by
    have hji : j ≠ i := by
      intro hji
      subst hji
      exact hne (hi hj)
    rw [item_alterItem_of_ne hji, hab.item j hj hne]
  variant := hab.variant

theorem allocGroup (hab : Grows G I a b) (x : Group) (v : Variant) :
    Grows G I a (b.allocGroup x v).2 where
  hasGroup g hg := hasGroup_allocGroup.2 (.inl (hab.hasGroup g hg))
  hasItem := hab.hasItem
  hasVariant := by
    show a.variants.size ≤ (b.variants.push v).size
    rw [Array.size_push]
    exact Nat.le_succ_of_le hab.hasVariant
  group g hg hne := by
    have hin := hab.hasGroup g hg
    rw [group_allocGroup (fun hg' => absurd (hg' ▸ hin) (Nat.lt_irrefl _)), hab.group g hg hne]
  item := hab.item
  variant w hw := by
    rw [variant_allocGroup (Nat.lt_of_lt_of_le hw hab.hasVariant), hab.variant w hw]

theorem allocItem (hab : Grows G I a b) (x : Item) : Grows G I a (b.allocItem x).2 where
  hasGroup := hab.hasGroup
  hasItem i hi := hasItem_allocItem.2 (.inl (hab.hasItem i hi))
  hasVariant := hab.hasVariant
  group := hab.group
  item i hi hne := by
    have hin := hab.hasItem i hi
    rw [item_allocItem (fun hi' => absurd (hi' ▸ hin) (Nat.lt_irrefl _)), hab.item i hi hne]
  variant := hab.variant

theorem groups_le (hab : Grows G I a b) : a.groups.size ≤ b.groups.size := by
  by_contra hlt
  exact Nat.lt_irrefl _ (hab.hasGroup ⟨b.groups.size⟩ (Nat.lt_of_not_le hlt))

theorem items_le (hab : Grows G I a b) : a.items.size ≤ b.items.size := by
  by_contra hlt
  exact Nat.lt_irrefl _ (hab.hasItem ⟨b.items.size⟩ (Nat.lt_of_not_le hlt))

end Grows

end Heap

/-! ### Staying as it is -/

/-- What no later change touches: the name, the type name, the flag, the variant and the items. -/
def Group.core (x : Group) : Group :=
  { x with type := none, above := none, below := none, nestedIn := none }

theorem Group.of_core {x y : Group} (hxy : x.core = y.core) :
    x.name = y.name ∧ x.typeName = y.typeName ∧ x.validated = y.validated ∧
      x.variant = y.variant ∧ x.items = y.items := by
  simpa [core] using hxy

/-- A slot files its groups under the tags that they have. -/
def Slot.Filed (tagOf : GroupId → Option TypeTag) (s : Slot) : Prop :=
  ∀ k z, s.find? k = some z → tagOf z = some k

/-- The groups that a slot files have tags, and different ones. -/
structure Slot.Distinguishes (tagOf : GroupId → Option TypeTag) (s : Slot) : Prop where
  tagged : ∀ z ∈ s.typed, (tagOf z).isSome = true
  distinct : (s.typed.map tagOf).Nodup

/-- Groups that are filed under their tags have different ones. -/
theorem Slot.Filed.distinguishes {tagOf : GroupId → Option TypeTag} {s : Slot}
    (hs : s.Filed tagOf) : s.Distinguishes tagOf := by
  constructor
  · intro z hz
    obtain ⟨k, hk⟩ := Slot.mem_typed_iff.1 hz
    rw [hs k z hk]
    rfl
  · cases hm : s.byType with
    | none =>
      rw [Slot.typed, hm]
      exact List.nodup_nil
    | some m =>
      -- the tags are the keys, and no key occurs twice
      have htags : s.typed.map tagOf = m.keys.map some := by
        rw [Slot.typed, hm]
        show (m.entries.map Prod.snd).map tagOf = (m.entries.map Prod.fst).map some
        rw [List.map_map, List.map_map]
        refine List.map_congr_left fun e he => hs e.1 e.2 ?_
        rw [Slot.find?, hm]
        exact OrderedMap.find?_eq_some_iff.2 he
      rw [htags]
      exact m.nodup_keys.map fun _ _ hkl => Option.some.inj hkl

/-- Two slots hold the same groups in the same order, perhaps under other keys. -/
structure Slot.Same (s t : Slot) : Prop where
  primary : s.primary = t.primary
  typed : s.typed = t.typed

/-- Two items have the same name and hold the same groups. -/
structure Item.Same (i j : Item) : Prop where
  name : i.name = j.name
  slot : ∀ side, Slot.Same (i.slot side) (j.slot side)

theorem Slot.Same.trans {s t u : Slot} (hst : Slot.Same s t) (htu : Slot.Same t u) :
    Slot.Same s u :=
  ⟨hst.primary.trans htu.primary, hst.typed.trans htu.typed⟩

theorem Slot.Same.groups {s t : Slot} (hst : Slot.Same s t) : s.groups = t.groups := by
  rw [Slot.groups, Slot.groups, hst.primary, hst.typed]

theorem Item.Same.refl (i : Item) : Item.Same i i := ⟨rfl, fun _ => ⟨rfl, rfl⟩⟩

theorem Item.Same.trans {i j k : Item} (hij : Item.Same i j) (hjk : Item.Same j k) :
    Item.Same i k :=
  ⟨hij.name.trans hjk.name, fun side => (hij.slot side).trans (hjk.slot side)⟩

namespace Heap

/-- The part of a heap from the `n`th group and the `m`th item on is still there in another heap;
the groups of `L` may have other super and sub groups. -/
structure Retains (n m : Nat) (L : GroupId → Prop) (b c : Heap) : Prop where
  hasGroup : ∀ g, b.HasGroup g → c.HasGroup g
  hasItem : ∀ i, b.HasItem i → c.HasItem i
  hasVariant : b.variants.size ≤ c.variants.size
  core : ∀ g, n ≤ g.index → b.HasGroup g → (c.group g).core = (b.group g).core
  links : ∀ g, n ≤ g.index → b.HasGroup g → ¬ L g →
    (c.group g).above = (b.group g).above ∧ (c.group g).below = (b.group g).below
  item : ∀ i, m ≤ i.index → b.HasItem i → Item.Same (c.item i) (b.item i)
  variant : ∀ v : VariantId, v.index < b.variants.size → c.variant v = b.variant v

theorem Grows.retains {G : GroupId → Prop} {I : ItemId → Prop} {n m : Nat} {L : GroupId → Prop}
    {b c : Heap} (hbc : Grows G I b c) (hG : ∀ g, n ≤ g.index → b.HasGroup g → ¬ G g)
    (hI : ∀ i, m ≤ i.index → b.HasItem i → ¬ I i) : Retains n m L b c where
  hasGroup := hbc.hasGroup
  hasItem := hbc.hasItem
  hasVariant := hbc.hasVariant
  core g hn hg := by rw [hbc.group g hg (hG g hn hg)]
  links g hn hg _ := by
    rw [hbc.group g hg (hG g hn hg)]
    exact ⟨rfl, rfl⟩
  item i hm hi := by
    rw [hbc.item i hi (hI i hm hi)]
    exact .refl _
  variant := hbc.variant

namespace Retains

variable {n m n' m' : Nat} {L L' : GroupId → Prop} {b c d : Heap}

theorem refl (b : Heap) : Retains n m L b b :=
  (Grows.refl (G := Nothing) (I := Nothing) b).retains (fun _ _ _ h => h) fun _ _ _ h => h

theorem groups_le (hbc : Retains n m L b c) : b.groups.size ≤ c.groups.size := by
  by_contra hlt
  exact Nat.lt_irrefl _ (hbc.hasGroup ⟨c.groups.size⟩ (Nat.lt_of_not_le hlt))

theorem items_le (hbc : Retains n m L b c) : b.items.size ≤ c.items.size := by
  by_contra hlt
  exact Nat.lt_irrefl _ (hbc.hasItem ⟨c.items.size⟩ (Nat.lt_of_not_le hlt))

/-- What is still there later is there now, and may change as much. -/
theorem trans (hbc : Retains n m L b c) (hcd : Retains n' m' L' c d) (hn : n' ≤ n) (hm : m' ≤ m)
    (hL : ∀ g, n ≤ g.index → b.HasGroup g → L' g → L g) : Retains n m L b d where
  hasGroup g hg := hcd.hasGroup g (hbc.hasGroup g hg)
  hasItem i hi := hcd.hasItem i (hbc.hasItem i hi)
  hasVariant := Nat.le_trans hbc.hasVariant hcd.hasVariant
  core g hng hg := by
    rw [hcd.core g (Nat.le_trans hn hng) (hbc.hasGroup g hg), hbc.core g hng hg]
  links g hng hg hne := by
    obtain ⟨habove, hbelow⟩ := hcd.links g (Nat.le_trans hn hng) (hbc.hasGroup g hg)
      fun hL' => hne (hL g hng hg hL')
    rw [habove, hbelow]
    exact hbc.links g hng hg hne
  item i hmi hi := (hcd.item i (Nat.le_trans hm hmi) (hbc.hasItem i hi)).trans (hbc.item i hmi hi)
  variant v hv := by
    rw [hcd.variant v (Nat.lt_of_lt_of_le hv hbc.hasVariant), hbc.variant v hv]

/-- A smaller part is retained too. -/
theorem mono (hbc : Retains n m L b c) (hn : n ≤ n') (hm : m ≤ m')
    (hL : ∀ g, n' ≤ g.index → b.HasGroup g → L g → L' g) : Retains n' m' L' b c :=
  (refl b).trans hbc hn hm hL

/-- A change of a group that leaves its core and, unless it may change, its links alone. -/
theorem alterGroup (hbc : Retains n m L b c) {g : GroupId} {f : Group → Group}
    (hcore : ∀ x, (f x).core = x.core)
    (hlinks : L g ∨ ∀ x, (f x).above = x.above ∧ (f x).below = x.below) :
    Retains n m L b (c.alterGroup g f) where
  hasGroup x hx := hasGroup_alterGroup.2 (hbc.hasGroup x hx)
  hasItem := hbc.hasItem
  hasVariant := hbc.hasVariant
  core x hn hx := by rw [group_alterGroup_field Group.core hcore, hbc.core x hn hx]
  links x hn hx hne := by
    rw [← (hbc.links x hn hx hne).1, ← (hbc.links x hn hx hne).2]
    by_cases hxg : x = g
    · subst hxg
      rcases hlinks with hL | hlinks
      · exact absurd hL hne
      · rw [group_alterGroup_self (hbc.hasGroup x hx)]
        exact hlinks _
    · rw [group_alterGroup_of_ne hxg]
      exact ⟨rfl, rfl⟩
  item := hbc.item
  variant := hbc.variant

/-- A change of an item that does not belong to the part. -/
theorem alterItem (hbc : Retains n m L b c) {i : ItemId} (hi : i.index < m) (f : Item → Item) :
    Retains n m L b (c.alterItem i f) where
  hasGroup := hbc.hasGroup
  hasItem j hj := hasItem_alterItem.2 (hbc.hasItem j hj)
  hasVariant := hbc.hasVariant
  core := hbc.core
  links := hbc.links
  item j hm hj := by
    have hji : j ≠ i := by
      intro hji
      subst hji
      exact absurd hi (Nat.not_lt.2 hm)
    rw [item_alterItem_of_ne hji]
    exact hbc.item j hm hj
  variant := hbc.variant

end Retains

/-! ### Tidy heaps -/

/-- The tag of a group is that of its type and type name. -/
theorem tag?_eq {h h' : Heap} {g : GroupId} (htype : (h'.group g).type = (h.group g).type)
    (htypeName : (h'.group g).typeName = (h.group g).typeName) : h'.tag? g = h.tag? g := by
  unfold tag? Group.tag?
  rw [htype, htypeName]

/-- Only groups of the heap have a tag. -/
theorem hasGroup_of_tag? {h : Heap} {g : GroupId} {k : TypeTag} (hg : h.tag? g = some k) :
    h.HasGroup g := by
  by_contra hout
  rw [tag?, group_of_not_hasGroup hout] at hg
  cases hg

/-- The nodes that a heap has beside those of a base: groups have no type, and items file their
groups under the tags that these have. -/
structure Tidy (base h : Heap) : Prop where
  untyped : ∀ g, ¬ base.HasGroup g → (h.group g).type = none
  filed : ∀ i, ¬ base.HasItem i → ∀ side, ((h.item i).slot side).Filed h.tag?

namespace Tidy

variable {base h : Heap}

/-- A heap has no nodes beside its own. -/
theorem refl (base : Heap) : Tidy base base where
  untyped g hg := by rw [group_of_not_hasGroup hg]
  filed i hi side k z hz := by
    rw [item_of_not_hasItem hi] at hz
    cases side <;> cases hz

theorem alterGroup (ht : Tidy base h) (g : GroupId) {f : Group → Group}
    (htype : ∀ x, (f x).type = x.type) (htypeName : ∀ x, (f x).typeName = x.typeName) :
    Tidy base (h.alterGroup g f) where
  untyped x hx := by
    rw [group_alterGroup_field Group.type htype]
    exact ht.untyped x hx
  filed i hi side k z hz := by
    rw [tag?_eq (group_alterGroup_field Group.type htype g z)
      (group_alterGroup_field Group.typeName htypeName g z)]
    exact ht.filed i hi side k z hz

theorem alterItem (ht : Tidy base h) {i : ItemId} {f : Item → Item}
    (hf : ∀ side, ((f (h.item i)).slot side).Filed h.tag?) : Tidy base (h.alterItem i f) where
  untyped := ht.untyped
  filed j hj side := by
    rw [item_alterItem]
    by_cases hij : i = j ∧ h.HasItem j
    · rw [if_pos hij, ← hij.1]
      exact hf side
    · rw [if_neg hij]
      exact ht.filed j hj side

theorem allocGroup (ht : Tidy base h) {x : Group} (hx : x.type = none) (v : Variant) :
    Tidy base (h.allocGroup x v).2 where
  untyped g hg := by
    by_cases hnew : g = (h.allocGroup x v).1
    · rw [hnew, group_allocGroup_self]
      exact hx
    · rw [group_allocGroup hnew]
      exact ht.untyped g hg
  filed i hi side k z hz := by
    have htag : h.tag? z = some k := ht.filed i hi side k z hz
    have hold : z ≠ (h.allocGroup x v).1 := fun hz' =>
      absurd (hz' ▸ hasGroup_of_tag? htag) (Nat.lt_irrefl _)
    rw [tag?, group_allocGroup hold]
    exact htag

theorem allocItem (ht : Tidy base h) (name : String) (owner : GroupId) :
    Tidy base (h.allocItem { name := name, owner := owner }).2 where
  untyped := ht.untyped
  filed i hi side k z hz := by
    by_cases hnew : i = (h.allocItem { name := name, owner := owner }).1
    · rw [hnew, item_allocItem_self] at hz
      cases side <;> cases hz
    · rw [item_allocItem hnew] at hz
      exact ht.filed i hi side k z hz

end Tidy

end Heap

end AttributeGraph
