/-
What building a description keeps.

Whatever is described, building consists of the same few writes: a group is
created, an item is added to a group that has just been created, groups that have
just been built are nested in the item, and some of them are linked.  `Construction`
lists what has to be shown of these writes for a relation between heaps to hold
between the heap before and the heap after.  Then it does hold, for every
description (`Construction.exists_group`); the induction over descriptions is made
here once.

A relation holds between a heap and itself where the heap is as it should be, so
`Step h h` says that building may start.
-/
import AttributeGraph.Proofs.Building

namespace AttributeGraph

open Restoring

/-- The writes that building consists of lead from one heap to the next one.  `Made a b g` says that
a group of `b` has been built since `a`, `Open h g` that items may be added to a group, and
`Hosts h i` that groups may be nested in an item. -/
structure Construction (Step : Heap → Heap → Prop) (Made : Heap → Heap → GroupId → Prop)
    (Open : Heap → GroupId → Prop) (Hosts : Heap → ItemId → Prop) : Prop where
  self : ∀ {a b}, Step a b → Step b b
  trans : ∀ {a b c}, Step a b → Step b c → Step a c
  /-- What has been built since a heap is there, and has been built since any heap before. -/
  hasGroup : ∀ {a b g}, Made a b g → b.HasGroup g
  before : ∀ {a b c g}, Step a b → Made b c g → Made a c g
  /-- Building goes on beside what has been built. -/
  made : ∀ {a b c g}, Made a b g → Step b c → Made a c g
  kept : ∀ {a b g}, Step a b → a.HasGroup g → b.HasGroup g
  opened : ∀ {a b g}, Step a b → Open a g → Open b g
  hosts : ∀ {a b i}, Step a b → Hosts a i → Hosts b i
  create : ∀ {h} name typeName validated v, Step h h →
    let made := h.createGroup name none typeName validated v
    Step h made.2 ∧ Made h made.2 made.1 ∧ Open made.2 made.1
  ensureItem : ∀ {h g} n, Step h h → Open h g →
    Step h (h.ensureItem g n).2 ∧ Hosts (h.ensureItem g n).2 (h.ensureItem g n).1
  registerAll : ∀ {a b i gs} side, Step a b → Hosts a i → (∀ g ∈ gs, Made a b g) →
    Step a (b.registerAll side i gs)
  setRoot : ∀ {a b i g} side, Step a b → Hosts a i → Made a b g → Step a (b.setRoot side i g)
  insertBelow : ∀ {a b p g} hierarchy, Step a b → b.HasGroup p → b.HasGroup g →
    Step a (b.insertBelow hierarchy p g)

namespace Construction

variable {Step : Heap → Heap → Prop} {Made : Heap → Heap → GroupId → Prop}
  {Open : Heap → GroupId → Prop} {Hosts : Heap → ItemId → Prop}
  (C : Construction Step Made Open Hosts) {a b h : Heap} {s : RestorationScope}
  {hierarchy : Hierarchy} {siblings todo : List BuiltGroup}

include C

theorem linkBelow (hab : Step a b) {r : BuiltGroup} (hr : b.HasGroup r.group)
    (hsiblings : ∀ c ∈ siblings, b.HasGroup c.group) :
    Step a (b.linkBelow hierarchy siblings r) := by
  unfold Heap.linkBelow
  cases hp : b.superAmong siblings r with
  | none => exact hab
  | some p =>
    obtain ⟨c, hc, rfl⟩ := List.mem_map.1 (Heap.mem_of_superAmong hp).1
    exact C.insertBelow hierarchy hab (hsiblings c hc) hr

theorem linkAll (hab : Step a b) (htodo : ∀ r ∈ todo, b.HasGroup r.group)
    (hsiblings : ∀ c ∈ siblings, b.HasGroup c.group) :
    Step a (b.linkAll hierarchy siblings todo) := by
  induction todo generalizing b with
  | nil => exact hab
  | cons r todo ih =>
    rw [List.forall_mem_cons] at htodo
    have hlink : Step b (b.linkBelow hierarchy siblings r) :=
      C.linkBelow (C.self hab) htodo.1 hsiblings
    exact ih (C.trans hab hlink) (fun x hx => C.kept hlink (htodo.2 x hx))
      fun c hc => C.kept hlink (hsiblings c hc)

/-- The groups of one slot are built, nested in the item, and linked among themselves. -/
theorem exists_slot (side : Side) {i : ItemId} {typeGroups : Option (List Description)}
    {group : Option Description} (hi : Hosts h i)
    (htyped : ∃ rs h', (makeTyped s typeGroups).Builds h rs h' ∧ Step h h' ∧
      ∀ r ∈ rs, Made h h' r.group)
    (hprimary : ∀ h, Step h h → Hosts h i → ∃ rs h', (makePrimary s side i group).Builds h rs h' ∧
      Step h h' ∧ ∀ r ∈ rs, h'.HasGroup r.group) :
    ∃ h', (makeSlot s side i typeGroups group).Builds h ⟨⟩ h' ∧ Step h h' := by
  obtain ⟨ts, h₁, hts, hstep₁, hmade⟩ := htyped
  have hstep₂ : Step h (h₁.registerAll side i (ts.map BuiltGroup.group)) :=
    C.registerAll side hstep₁ hi fun g hg => by
      obtain ⟨r, hr, rfl⟩ := List.mem_map.1 hg
      exact hmade r hr
  have hin₂ : ∀ r ∈ ts, (h₁.registerAll side i (ts.map BuiltGroup.group)).HasGroup r.group :=
    fun r hr => Heap.hasGroup_registerAll.2 (C.hasGroup (hmade r hr))
  obtain ⟨ps, h₃, hps, hstep₃, hin₃⟩ := hprimary _ (C.self hstep₂) (C.hosts hstep₂ hi)
  have hin : ∀ r ∈ ts ++ ps, h₃.HasGroup r.group := by
    intro r hr
    rcases List.mem_append.1 hr with hr | hr
    · exact C.kept hstep₃ (hin₂ r hr)
    · exact hin₃ r hr
  refine ⟨h₃.linkAll s.hierarchy (ts ++ ps) (ts ++ ps), ?_, ?_⟩
  · exact hts.bind ((Builds.edit _ _).bind (hps.bind (Builds.linkSupers s _ _)))
  · exact C.linkAll (C.trans hstep₂ hstep₃) hin hin

omit C

mutual
/-- **Building a group leads from a heap to one that it is related to.** -/
theorem exists_group (C : Construction Step Made Open Hosts) (s : RestorationScope)
    (d : Description) (h : Heap) (hstart : Step h h) :
    ∃ g h', (makeGroup s d).Builds h g h' ∧ Step h h' ∧ Made h h' g := by
  obtain ⟨name, typeName, superTypeName, validated, kind, attributes⟩ := d
  obtain ⟨hstep₁, hmade, hopen⟩ := C.create name typeName (validated.getD false)
    (variantOfKind s (kind.getD .generic)) hstart
  obtain ⟨h₂, hattributes, hstep₂⟩ := C.exists_attributes s _ attributes _ (C.self hstep₁) hopen
  exact ⟨_, h₂, (Builds.build _ h).bind (hattributes.bind (Builds.pure _ _)),
    C.trans hstep₁ hstep₂, C.made hmade hstep₂⟩
theorem exists_attributes (C : Construction Step Made Open Hosts) (s : RestorationScope)
    (g : GroupId) (attributes : Option (List (String × NestedDescription))) (h : Heap)
    (hstart : Step h h) (hg : Open h g) :
    ∃ h', (makeAttributes s g attributes).Builds h ⟨⟩ h' ∧ Step h h' := by
  cases attributes with
  | none => exact ⟨h, Builds.pure _ h, hstart⟩
  | some attributes => exact C.exists_items s g attributes h hstart hg
theorem exists_items (C : Construction Step Made Open Hosts) (s : RestorationScope) (g : GroupId)
    (attributes : List (String × NestedDescription)) (h : Heap) (hstart : Step h h)
    (hg : Open h g) :
    ∃ h', (makeItems s g attributes).Builds h ⟨⟩ h' ∧ Step h h' := by
  cases attributes with
  | nil => exact ⟨h, Builds.pure _ h, hstart⟩
  | cons e rest =>
    obtain ⟨name, item⟩ := e
    obtain ⟨hstep₁, hi⟩ := C.ensureItem name hstart hg
    obtain ⟨h₂, hitem, hstep₂⟩ := C.exists_item s _ item _ (C.self hstep₁) hi
    have hstep := C.trans hstep₁ hstep₂
    obtain ⟨h₃, hrest, hstep₃⟩ := C.exists_items s g rest h₂ (C.self hstep) (C.opened hstep hg)
    exact ⟨h₃, (Builds.build _ h).bind (hitem.bind hrest), C.trans hstep hstep₃⟩
theorem exists_item (C : Construction Step Made Open Hosts) (s : RestorationScope) (i : ItemId)
    (item : NestedDescription) (h : Heap) (hstart : Step h h) (hi : Hosts h i) :
    ∃ h', (makeItem s i item).Builds h ⟨⟩ h' ∧ Step h h' := by
  obtain ⟨group, typeGroups, keyGroup, keyTypeGroups⟩ := item
  obtain ⟨h₁, hvalue, hstep₁⟩ := C.exists_slot (s := s) .value hi
    (C.exists_typed s typeGroups h hstart) (C.exists_primary s .value i group)
  have hstart₁ := C.self hstep₁
  obtain ⟨h₂, hkey, hstep₂⟩ := C.exists_slot (s := s) .key (C.hosts hstep₁ hi)
    (C.exists_typed s keyTypeGroups h₁ hstart₁) (C.exists_primary s .key i keyGroup)
  rw [makeItem_eq]
  exact ⟨h₂, hvalue.bind hkey, C.trans hstep₁ hstep₂⟩
theorem exists_primary (C : Construction Step Made Open Hosts) (s : RestorationScope)
    (side : Side) (i : ItemId) (group : Option Description) (h : Heap) (hstart : Step h h)
    (hi : Hosts h i) :
    ∃ rs h', (makePrimary s side i group).Builds h rs h' ∧ Step h h' ∧
      ∀ r ∈ rs, h'.HasGroup r.group := by
  cases group with
  | none => exact ⟨[], h, Builds.pure _ h, hstart, fun r hr => absurd hr List.not_mem_nil⟩
  | some d =>
    obtain ⟨g, h₁, hgroup, hstep, hmade⟩ := C.exists_group s d h hstart
    refine ⟨[⟨d.superTypeName, g⟩], _, hgroup.bind ((Builds.edit _ _).bind (Builds.pure _ _)),
      C.setRoot side hstep hi hmade, fun r hr => ?_⟩
    rw [List.mem_singleton.1 hr]
    exact Heap.hasGroup_alterGroup.2 (C.hasGroup hmade)
theorem exists_typed (C : Construction Step Made Open Hosts) (s : RestorationScope)
    (ds : Option (List Description)) (h : Heap) (hstart : Step h h) :
    ∃ rs h', (makeTyped s ds).Builds h rs h' ∧ Step h h' ∧
      ∀ r ∈ rs, Made h h' r.group := by
  cases ds with
  | none => exact ⟨[], h, Builds.pure _ h, hstart, fun r hr => absurd hr List.not_mem_nil⟩
  | some ds => exact C.exists_groups s ds h hstart
theorem exists_groups (C : Construction Step Made Open Hosts) (s : RestorationScope)
    (ds : List Description) (h : Heap) (hstart : Step h h) :
    ∃ rs h', (makeGroups s ds).Builds h rs h' ∧ Step h h' ∧
      ∀ r ∈ rs, Made h h' r.group := by
  cases ds with
  | nil => exact ⟨[], h, Builds.pure _ h, hstart, fun r hr => absurd hr List.not_mem_nil⟩
  | cons d rest =>
    obtain ⟨g, h₁, hgroup, hstep₁, hmade⟩ := C.exists_group s d h hstart
    obtain ⟨rs, h₂, hrest, hstep₂, hall⟩ := C.exists_groups s rest h₁ (C.self hstep₁)
    exact ⟨⟨d.superTypeName, g⟩ :: rs, h₂, hgroup.bind (hrest.bind (Builds.pure _ _)),
      C.trans hstep₁ hstep₂, List.forall_mem_cons.2
        ⟨C.made hmade hstep₂, fun r hr => C.before hstep₁ (hall r hr)⟩⟩
end

end Construction

end AttributeGraph
