/-
Where restored groups are.

A group that has just been built is nested in no item, and building what comes
next does not touch it; then it is put into a slot of the item that it was built
for and nested in this item.  So at any time every group in a slot of an added
item is nested in that item (`Placed`), and resolving type names, which may only
take groups out of slots, leaves it so.

Going down from a restored root through the slots of items therefore retraces the
way up, item by item, and the path of a group is made of the names on the way
(`Placed.inPlaceBelow`).
-/
import AttributeGraph.Proofs.Climbing
import AttributeGraph.Proofs.Ownership
import AttributeGraph.Proofs.Untangled

namespace AttributeGraph

variable {a b c h base : Heap} {g x y : GroupId} {i j : ItemId} {side : Side}

namespace Heap

/-! ### Nesting what has been built -/

/-- Beside a base there are groups with items that are not of the base either, and every group in a
slot of such an item is nested in it. -/
structure Placed (base h : Heap) : Prop where
  hasGroup : ∀ g, base.HasGroup g → h.HasGroup g
  hasItem : ∀ i, base.HasItem i → h.HasItem i
  home : h.ItemsAtHome
  items : ∀ g, ¬ base.HasGroup g → ∀ i ∈ (h.group g).itemIds, ¬ base.HasItem i
  nested : ∀ i, ¬ base.HasItem i → ∀ side, ∀ x ∈ ((h.item i).slot side).groups,
    ¬ base.HasGroup x ∧ (h.group x).nestedIn = some i

/-- Items stay at home while types change. -/
theorem Retyped.itemsAtHome (hab : Retyped a b) (hhome : a.ItemsAtHome) : b.ItemsAtHome := by
  intro g i hi
  rw [hab.itemIds] at hi
  rw [hab.hasItem, hab.owner]
  exact hhome g i hi

namespace Placed

/-- Nothing has been added yet. -/
theorem refl (hhome : h.ItemsAtHome) : Placed h h where
  hasGroup _ hg := hg
  hasItem _ hi := hi
  home := hhome
  items g hg i hi := absurd (hasGroup_of_mem_itemIds hi) hg
  nested i hi side x hx := by
    rw [item_of_not_hasItem hi] at hx
    cases side <;> cases hx

variable (hp : Placed base h)

include hp

theorem allocCopyRegistry : Placed base h.allocCopyRegistry.2 := { hp with }

/-- A change of a group that leaves its items alone and, if it is nested, where it is nested. -/
theorem alterGroup (g : GroupId) {f : Group → Group} (hitems : ∀ x, (f x).items = x.items)
    (hnested : ∀ j, (h.group g).nestedIn = some j → (f (h.group g)).nestedIn = some j) :
    Placed base (h.alterGroup g f) where
  hasGroup x hx := hasGroup_alterGroup.2 (hp.hasGroup x hx)
  hasItem := hp.hasItem
  home := ((KeepsHomes.refl h).relink g hitems).itemsAtHome hp.home
  items x hx i hi := by
    rw [Group.itemIds, group_alterGroup_field Group.items hitems] at hi
    exact hp.items x hx i hi
  nested j hj side x hx := by
    obtain ⟨hfresh, hin⟩ := hp.nested j hj side x hx
    refine ⟨hfresh, ?_⟩
    rw [group_alterGroup]
    by_cases hgx : g = x ∧ h.HasGroup x
    · rw [if_pos hgx, ← hgx.1]
      exact hnested j (hgx.1 ▸ hin)
    · rwa [if_neg hgx]

theorem createGroup (name : String) (type : Option ObjectType) (typeName : Option String)
    (validated : Bool) (v : Variant) :
    Placed base (h.createGroup name type typeName validated v).2 where
  hasGroup x hx := hasGroup_allocGroup.2 (.inl (hp.hasGroup x hx))
  hasItem := hp.hasItem
  home := ((KeepsHomes.refl h).allocGroup rfl v).itemsAtHome hp.home
  items x hx i hi := by
    by_cases hnew : x = (h.createGroup name type typeName validated v).1
    · rw [hnew, Heap.createGroup, group_allocGroup_self] at hi
      cases hi
    · rw [Heap.createGroup, group_allocGroup hnew] at hi
      exact hp.items x hx i hi
  nested i hi side x hx := by
    obtain ⟨hfresh, hin⟩ := hp.nested i hi side x hx
    have hold : x ≠ (h.createGroup name type typeName validated v).1 := fun heq =>
      absurd (heq ▸ hasGroup_of_nestedIn hin) (Nat.lt_irrefl _)
    rw [Heap.createGroup, group_allocGroup hold]
    exact ⟨hfresh, hin⟩

theorem ensureItem (hg : ¬ base.HasGroup g) (n : String) :
    Placed base (h.ensureItem g n).2 ∧ ¬ base.HasItem (h.ensureItem g n).1 := by
  have hhome := hp.home.ensureItem g n
  cases hn : (h.group g).items.find? n with
  | some i =>
    unfold Heap.ensureItem
    rw [hn]
    exact ⟨hp, hp.items g hg i (mem_itemIds_of_find? hn)⟩
  | none =>
    rw [ensureItem_of_none hn] at hhome ⊢
    have hnew : ¬ base.HasItem ⟨h.items.size⟩ := fun hi => Nat.lt_irrefl _ (hp.hasItem _ hi)
    refine ⟨⟨fun x hx => hasGroup_alterGroup.2 (hp.hasGroup x hx),
      fun i hi => hasItem_allocItem.2 (.inl (hp.hasItem i hi)), hhome, fun x hx i hi => ?_,
      fun i hi side x hx => ?_⟩, hnew⟩
    · rw [group_alterGroup] at hi
      split at hi
      · rcases OrderedMap.mem_values_insert hi with rfl | hi
        · exact hnew
        · exact hp.items x hx i hi
      · exact hp.items x hx i hi
    · rw [item_alterGroup] at hx
      rw [group_alterGroup_field Group.nestedIn (by exact fun _ => rfl)]
      by_cases hi' : i = (h.allocItem { name := n, owner := g }).1
      · rw [hi', item_allocItem_self] at hx
        cases side <;> cases hx
      · rw [item_allocItem hi'] at hx
        exact hp.nested i hi side x hx

/-- A slot of an item comes to hold a group that is nested in the item. -/
theorem mapSlot {f : Slot → Slot} (hf : ∀ s, ∀ x ∈ (f s).groups, x = g ∨ x ∈ s.groups)
    (hfresh : ¬ base.HasGroup g) (hg : (h.group g).nestedIn = some i) :
    Placed base (h.alterItem i (Item.mapSlot side f)) where
  hasGroup := hp.hasGroup
  hasItem j hj := hasItem_alterItem.2 (hp.hasItem j hj)
  home := ((KeepsHomes.refl h).alterItem i fun x => by cases side <;> rfl).itemsAtHome hp.home
  items := hp.items
  nested j hj side' x hx := by
    have hold := hp.nested j hj side' x
    rw [item_alterItem] at hx
    by_cases hij : i = j ∧ h.HasItem j
    · rw [if_pos hij, Item.slot_mapSlot] at hx
      by_cases hside : side' = side
      · rw [if_pos hside] at hx
        rcases hf _ x hx with rfl | hx
        · exact ⟨hfresh, hij.1 ▸ hg⟩
        · exact hold hx
      · rw [if_neg hside] at hx
        exact hold hx
    · rw [if_neg hij] at hx
      exact hold hx

/-- A group is nested in an item and put into a slot of it, provided that it was nested in no other
one. -/
theorem nest {f : Slot → Slot} (hf : ∀ s, ∀ x ∈ (f s).groups, x = g ∨ x ∈ s.groups)
    (hin : h.HasGroup g) (hfresh : ¬ base.HasGroup g)
    (hg : ∀ j, (h.group g).nestedIn = some j → j = i) :
    Placed base ((h.setNestedIn g i).alterItem i (Item.mapSlot side f)) := by
  refine (hp.alterGroup g (by exact fun _ => rfl) fun j hj => ?_).mapSlot hf hfresh ?_
  · rw [hg j hj]
  · rw [group_alterGroup_self hin]

omit hp in
/-- Resolving type names takes no group to another item. -/
theorem retyped (hp : Placed base a) (hab : Retyped a b) : Placed base b where
  hasGroup g hg := (hab.hasGroup g).2 (hp.hasGroup g hg)
  hasItem i hi := (hab.hasItem i).2 (hp.hasItem i hi)
  home := hab.itemsAtHome hp.home
  items g hg i hi := by
    rw [hab.itemIds] at hi
    exact hp.items g hg i hi
  nested i hi side x hx := by
    rw [hab.nestedIn]
    exact hp.nested i hi side x (hab.groups i side x hx)

end Placed

/-! ### Building -/

/-- Building has led from one heap to another one, and groups are nested where they were. -/
structure Places (base a b : Heap) : Prop where
  placed : Placed base b
  hasGroup : ∀ g, a.HasGroup g → b.HasGroup g
  nestedIn : ∀ g, a.HasGroup g → (b.group g).nestedIn = (a.group g).nestedIn

/-- A group has been built and is not nested in any item, unless it is the given one. -/
structure Loose (base : Heap) (i : Option ItemId) (a b : Heap) (g : GroupId) : Prop where
  fresh : ¬ base.HasGroup g
  new : ¬ a.HasGroup g
  inHeap : b.HasGroup g
  nestedIn : ∀ j, (b.group g).nestedIn = some j → some j = i

namespace Places

theorem start (hp : Placed base h) : Places base h h := ⟨hp, fun _ hg => hg, fun _ _ => rfl⟩

theorem trans (hab : Places base a b) (hbc : Places base b c) : Places base a c where
  placed := hbc.placed
  hasGroup g hg := hbc.hasGroup g (hab.hasGroup g hg)
  nestedIn g hg := (hbc.nestedIn g (hab.hasGroup g hg)).trans (hab.nestedIn g hg)

theorem createGroup (hp : Placed base h) (name : String) (typeName : Option String)
    (validated : Bool) (v : Variant) :
    let made := h.createGroup name none typeName validated v
    Places base h made.2 ∧ Loose base none h made.2 made.1 := by
  have hnew : ¬ h.HasGroup (h.createGroup name none typeName validated v).1 := Nat.lt_irrefl _
  refine ⟨⟨hp.createGroup name none typeName validated v,
    fun g hg => hasGroup_allocGroup.2 (.inl hg), fun g hg => ?_⟩,
    fun hg => hnew (hp.hasGroup _ hg), hnew, hasGroup_allocGroup.2 (.inr rfl), fun j hj => ?_⟩
  · rw [Heap.createGroup, group_allocGroup fun heq => hnew (heq ▸ hg)]
  · rw [Heap.createGroup, group_allocGroup_self] at hj
    cases hj

theorem ensureItem (hp : Placed base h) (hg : ¬ base.HasGroup g) (n : String) :
    Places base h (h.ensureItem g n).2 where
  placed := (hp.ensureItem hg n).1
  hasGroup x hx := hasGroup_ensureItem.2 hx
  nestedIn x _ := by
    cases hn : (h.group g).items.find? n with
    | some i =>
      unfold Heap.ensureItem
      rw [hn]
    | none =>
      rw [ensureItem_of_none hn]
      exact group_alterGroup_field Group.nestedIn (by exact fun _ => rfl) g x

/-- A loose group is nested in an item and put into a slot of it. -/
theorem nest (hab : Places base a b) {f : Slot → Slot}
    (hf : ∀ s, ∀ x ∈ (f s).groups, x = g ∨ x ∈ s.groups) (hg : Loose base (some i) a b g) :
    Places base a ((b.setNestedIn g i).alterItem i (Item.mapSlot side f)) where
  placed := hab.placed.nest hf hg.inHeap hg.fresh fun j hj => Option.some.inj (hg.nestedIn j hj)
  hasGroup x hx := hasGroup_alterGroup.2 (hab.hasGroup x hx)
  nestedIn x hx := by
    have hne : x ≠ g := fun heq => hg.new (heq ▸ hx)
    rw [group_alterItem, setNestedIn, group_alterGroup_of_ne hne]
    exact hab.nestedIn x hx

theorem setRoot (hab : Places base a b) (side : Side) (hg : Loose base (some i) a b g) :
    Places base a (b.setRoot side i g) := by
  refine hab.nest (fun s x hx => ?_) hg
  rcases Slot.mem_groups.1 hx with hx | hx
  · exact .inl (Option.some.inj hx).symm
  · exact .inr (Slot.mem_groups.2 (.inr hx))

theorem registerAll (hab : Places base a b) (side : Side) {gs : List GroupId}
    (hgs : ∀ g ∈ gs, Loose base (some i) a b g) :
    Places base a (b.registerAll side i gs) := by
  induction gs generalizing b with
  | nil => exact hab
  | cons g gs ih =>
    rw [List.forall_mem_cons] at hgs
    refine ih (hab.nest (fun s x hx => Slot.mem_groups_register hx) hgs.1) fun x hx => ?_
    have hx := hgs.2 x hx
    refine ⟨hx.fresh, hx.new, hasGroup_alterGroup.2 hx.inHeap, fun j hj => ?_⟩
    change ((b.setNestedIn g i).group x).nestedIn = some j at hj
    rw [setNestedIn, group_alterGroup] at hj
    by_cases hgx : g = x ∧ b.HasGroup x
    · rw [if_pos hgx] at hj
      exact hj.symm
    · rw [if_neg hgx] at hj
      exact hx.nestedIn j hj

theorem insertBelow (hab : Places base a b) (relation : Hierarchy) (parent g : GroupId) :
    Places base a (b.insertBelow relation parent g) := by
  refine keeps_insertBelow (fun h g f hf hah => ?_) relation parent g hab
  have hitems : ∀ x, (f x).items = x.items := fun x => by
    obtain ⟨s, t, hx⟩ := hf x
    rw [hx]
  have hnested : ∀ x, (f x).nestedIn = x.nestedIn := fun x => by
    obtain ⟨s, t, hx⟩ := hf x
    rw [hx]
  refine ⟨hah.placed.alterGroup g hitems fun j hj => (hnested _).trans hj,
    fun x hx => hasGroup_alterGroup.2 (hah.hasGroup x hx), fun x hx => ?_⟩
  rw [group_alterGroup_field Group.nestedIn hnested]
  exact hah.nestedIn x hx

end Places

/-- Every group that is nested somewhere while others are built is nested there for good. -/
theorem places_construction (base : Heap) : Construction (Places base) (Loose base none)
    (fun _ g => ¬ base.HasGroup g) (fun _ i => ¬ base.HasItem i) where
  self hab := .start hab.placed
  trans hab hbc := hab.trans hbc
  hasGroup hg := hg.inHeap
  before hab hg := { hg with new := fun hin => hg.new (hab.hasGroup _ hin) }
  made hg hbc :=
    { hg with
      inHeap := hbc.hasGroup _ hg.inHeap
      nestedIn := by
        rw [hbc.nestedIn _ hg.inHeap]
        exact hg.nestedIn }
  kept hab hg := hab.hasGroup _ hg
  opened _ hg := hg
  hosts _ hi := hi
  create name typeName validated v hstart := by
    obtain ⟨hplaces, hloose⟩ := Places.createGroup hstart.placed name typeName validated v
    exact ⟨hplaces, hloose, hloose.fresh⟩
  ensureItem n hstart hg := ⟨.ensureItem hstart.placed hg n, (hstart.placed.ensureItem hg n).2⟩
  registerAll side hab _ hgs := hab.registerAll side fun g hg =>
    { hgs g hg with nestedIn := fun j hj => absurd ((hgs g hg).nestedIn j hj) (by simp) }
  setRoot side hab _ hg := hab.setRoot side
    { hg with nestedIn := fun j hj => absurd (hg.nestedIn j hj) (by simp) }
  insertBelow hierarchy hab _ _ := hab.insertBelow hierarchy _ _

/-! ### Going down from a root -/

/-- Names lead from a root down to a group, from one group to a group in a slot of an item of the
name. -/
inductive Descends (h : Heap) (root : GroupId) : List String → GroupId → Prop
  | root : Descends h root [] root
  | step {q : List String} {y x : GroupId} {n : String} {i : ItemId} (side : Side)
      (hq : Descends h root q y) (hi : (h.group y).items.find? n = some i)
      (hx : x ∈ ((h.item i).slot side).groups) : Descends h root (q ++ [n]) x

/-- Every group in a slot below a root is nested in the item of the slot, and its path joins the
names that lead to it. -/
def InPlaceBelow (h : Heap) (root : GroupId) : Prop :=
  ∀ q y n i, h.Descends root q y → (h.group y).items.find? n = some i →
    ∀ side, ∀ x ∈ ((h.item i).slot side).groups,
      (h.group x).nestedIn = some i ∧ h.pathTo x = Path.format (q ++ [n])

/-- The way down to an added group is the way up from it. -/
theorem Placed.climbs (hp : Placed base h) (hnamed : h.ItemsNamed) {root : GroupId}
    (hroot : Loose base none a h root) {q : List String} (hq : h.Descends root q x) :
    ¬ base.HasGroup x ∧ h.Climbs root q x := by
  have htop : (h.group root).nestedIn = none :=
    Option.eq_none_iff_forall_ne_some.2 fun j hj => absurd (hroot.nestedIn j hj) (by simp)
  induction hq with
  | root => exact ⟨hroot.fresh, .root hroot.inHeap htop⟩
  | @step q y x n i side _ hi hx ih =>
    obtain ⟨hfresh, hup⟩ := ih
    have hlisted := mem_itemIds_of_find? hi
    obtain ⟨hfresh', hnested⟩ := hp.nested i (hp.items y hfresh i hlisted) side x hx
    refine ⟨hfresh', ?_⟩
    rw [← hnamed y n i hi]
    rw [← (hp.home y i hlisted).2] at hup
    exact hup.step hnested

/-- **Groups that have been added below a root that is nested nowhere are in their places.** -/
theorem Placed.inPlaceBelow (hp : Placed base h) (hnamed : h.ItemsNamed) {root : GroupId}
    (hroot : Loose base none a h root) : h.InPlaceBelow root := by
  intro q y n i hq hi side x hx
  obtain ⟨hfresh, -⟩ := hp.climbs hnamed hroot hq
  obtain ⟨-, hup⟩ := hp.climbs hnamed hroot (.step side hq hi hx)
  exact ⟨(hp.nested i (hp.items y hfresh i (mem_itemIds_of_find? hi)) side x hx).2, hup.pathTo_eq⟩

/-! ### Restoring -/

/-- What has been restored from a description is nested where it belongs, and the root nowhere. -/
theorem placed_restoreDescription (hhome : h.ItemsAtHome) (d : Description)
    (hierarchy : Hierarchy) :
    Placed h (h.restoreDescription d hierarchy).2.heap ∧
      Loose h none h.allocCopyRegistry.2 (h.restoreDescription d hierarchy).2.heap
        (h.restoreDescription d hierarchy).1 := by
  obtain ⟨g, h', hbuilds, hplaces, hloose⟩ := (places_construction h).exists_group
    ⟨hierarchy, h.allocCopyRegistry.1⟩ d _ (.start (Placed.refl hhome).allocCopyRegistry)
  obtain ⟨ds, hrun⟩ := hbuilds []
  have heq : h.restoreDescription d hierarchy = (g, ⟨h', ds⟩) := hrun
  rw [heq]
  exact ⟨hplaces.placed, hloose⟩

theorem Retyped.loose (hab : Retyped a b) {root : GroupId} (hroot : Loose base none c a root) :
    Loose base none c b root :=
  { hroot with
    inHeap := (hab.hasGroup root).2 hroot.inHeap
    nestedIn := by
      rw [hab.nestedIn]
      exact hroot.nestedIn }

/-- **A restoration keeps items at home**, whether it succeeds or not. -/
theorem ItemsAtHome.restore (hhome : h.ItemsAtHome) (input : Value) (options : RawOptions)
    (resolver : Option Resolver) : (h.restore input options resolver).heap.ItemsAtHome := by
  rcases h.heap_restore input options resolver with heq | ⟨d, hierarchy, heq | ⟨_, changes, heq⟩⟩
  · rw [heq]
    exact hhome
  · rw [heq]
    exact (placed_restoreDescription hhome d hierarchy).1.home
  · rw [heq]
    exact ((placed_restoreDescription hhome d hierarchy).1.retyped (.applyAll _ changes)).home

/-- **What has been restored is in its place.** -/
theorem ItemsAtHome.inPlaceBelow_restore (hhome : h.ItemsAtHome) (hwf : h.WellFormed)
    {input : Value} {options : RawOptions} {resolver : Option Resolver} {root : GroupId}
    (hanswer : (h.restore input options resolver).answer = .ok root) :
    (h.restore input options resolver).heap.InPlaceBelow root := by
  obtain ⟨o, v, d, -, -, hread, -⟩ := exists_read_of_restore hanswer
  obtain ⟨o, F, ds, -, hrun, hretyped⟩ := exists_of_restore hread hanswer
  obtain ⟨hplaced, hloose⟩ := placed_restoreDescription hhome d o.hierarchy
  rw [hrun] at hplaced hloose
  exact (hplaced.retyped hretyped).inPlaceBelow
    (hwf.upkeep.restore input options resolver).wellFormed.named (hretyped.loose hloose)

end Heap

end AttributeGraph
