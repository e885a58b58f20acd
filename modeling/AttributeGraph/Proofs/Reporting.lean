/-
What a restoration reports.

Building appends diagnostics to those there are (`Emits`), and the only step that
has something to report is linking the groups of a slot: it reports those that
name a super type which no other group of the slot has (`Emits.linkSupers`).

When this happens the groups of the slot are nested in their item.  What is
nested then stays where it is while building goes on (`Settles`), and links change
nothing but links (`Relinked`), so it makes no difference at which time between
two links a group is asked for its path.
-/
import AttributeGraph.Proofs.Climbing
import AttributeGraph.Proofs.Ownership

namespace AttributeGraph

/-! ### Reports -/

namespace Restoring

variable {α β : Type}

/-- A step of a restoration leads from one heap to another one, answers and adds diagnostics. -/
def Emits (m : Restoring α) (h : Heap) (a : α) (h' : Heap) (es : List Diagnostic) : Prop :=
  ∀ ds, m.run ⟨h, ds⟩ = (a, ⟨h', ds ++ es⟩)

namespace Emits

theorem pure (a : α) (h : Heap) : Emits (Pure.pure a) h a h [] := by
  intro ds
  rw [List.append_nil]
  rfl

theorem bind {m : Restoring α} {f : α → Restoring β} {a : α} {b : β} {h h' h'' : Heap}
    {es es' : List Diagnostic} (hm : Emits m h a h' es) (hf : Emits (f a) h' b h'' es') :
    Emits (m >>= f) h b h'' (es ++ es') := by
  intro ds
  rw [StateT.run_bind, hm, ← List.append_assoc]
  exact hf (ds ++ es)

theorem edit (f : Heap → Heap) (h : Heap) : Emits (edit f) h ⟨⟩ (f h) [] := by
  intro ds
  rw [List.append_nil]
  rfl

theorem build (f : Heap → α × Heap) (h : Heap) : Emits (build f) h (f h).1 (f h).2 [] := by
  intro ds
  rw [List.append_nil]
  rfl

end Emits

end Restoring

namespace Heap

variable {a b c h base : Heap} {g x y z : GroupId} {i : ItemId} {q r : List String} {side : Side}

/-! ### Nested groups that stay where they are -/

/-- Groups keep their names, those that are nested somewhere stay there, and items stay in their
groups. -/
structure Settles (a b : Heap) : Prop where
  hasGroup : ∀ g, a.HasGroup g → b.HasGroup g
  name : ∀ g, a.HasGroup g → (b.group g).name = (a.group g).name
  typeName : ∀ g, a.HasGroup g → (b.group g).typeName = (a.group g).typeName
  nestedIn : ∀ g i, (a.group g).nestedIn = some i → (b.group g).nestedIn = some i
  hasItem : ∀ i, a.HasItem i → b.HasItem i
  item : ∀ i, a.HasItem i →
    (b.item i).name = (a.item i).name ∧ (b.item i).owner = (a.item i).owner

namespace Settles

theorem refl (a : Heap) : Settles a a :=
  ⟨fun _ hg => hg, fun _ _ => rfl, fun _ _ => rfl, fun _ _ hi => hi, fun _ hi => hi,
    fun _ _ => ⟨rfl, rfl⟩⟩

theorem trans (hab : Settles a b) (hbc : Settles b c) : Settles a c where
  hasGroup g hg := hbc.hasGroup g (hab.hasGroup g hg)
  name g hg := (hbc.name g (hab.hasGroup g hg)).trans (hab.name g hg)
  typeName g hg := (hbc.typeName g (hab.hasGroup g hg)).trans (hab.typeName g hg)
  nestedIn g i hi := hbc.nestedIn g i (hab.nestedIn g i hi)
  hasItem i hi := hbc.hasItem i (hab.hasItem i hi)
  item i hi := by
    obtain ⟨hname, howner⟩ := hbc.item i (hab.hasItem i hi)
    exact ⟨hname.trans (hab.item i hi).1, howner.trans (hab.item i hi).2⟩

theorem grows (hab : Grows Nothing Nothing a b) : Settles a b where
  hasGroup := hab.hasGroup
  name g hg := by rw [hab.group g hg fun hno => hno]
  typeName g hg := by rw [hab.group g hg fun hno => hno]
  nestedIn g i hi := by rwa [hab.group g (hasGroup_of_nestedIn hi) fun hno => hno]
  hasItem := hab.hasItem
  item i hi := by
    rw [hab.item i hi fun hno => hno]
    exact ⟨rfl, rfl⟩

/-- A change of a group that leaves its names alone and, if it is nested, where it is nested. -/
theorem alterGroup (hab : Settles a b) (g : GroupId) {f : Group → Group}
    (hname : ∀ x, (f x).name = x.name) (htypeName : ∀ x, (f x).typeName = x.typeName)
    (hnested : ∀ j, (b.group g).nestedIn = some j → (f (b.group g)).nestedIn = some j) :
    Settles a (b.alterGroup g f) where
  hasGroup x hx := hasGroup_alterGroup.2 (hab.hasGroup x hx)
  name x hx := by rw [group_alterGroup_field Group.name hname, hab.name x hx]
  typeName x hx := by rw [group_alterGroup_field Group.typeName htypeName, hab.typeName x hx]
  nestedIn x j hj := by
    have hj := hab.nestedIn x j hj
    rw [group_alterGroup]
    by_cases hgx : g = x ∧ b.HasGroup x
    · rw [if_pos hgx, ← hgx.1]
      exact hnested j (hgx.1 ▸ hj)
    · rwa [if_neg hgx]
  hasItem := hab.hasItem
  item := hab.item

theorem mapSlot (hab : Settles a b) (side : Side) (i : ItemId) (f : Slot → Slot) :
    Settles a (b.alterItem i (Item.mapSlot side f)) where
  hasGroup := hab.hasGroup
  name := hab.name
  typeName := hab.typeName
  nestedIn := hab.nestedIn
  hasItem j hj := hasItem_alterItem.2 (hab.hasItem j hj)
  item j hj := by
    rw [item_alterItem]
    by_cases hij : i = j ∧ b.HasItem j
    · rw [if_pos hij, ← (hab.item j hj).1, ← (hab.item j hj).2]
      cases side <;> exact ⟨rfl, rfl⟩
    · rw [if_neg hij]
      exact hab.item j hj

end Settles

/-- A group is nested in an item and put into a slot of it, provided that it was nested in no other
one. -/
theorem settles_nest (hg : ∀ j, (h.group g).nestedIn = some j → j = i) (side : Side)
    (f : Slot → Slot) : Settles h ((h.setNestedIn g i).alterItem i (Item.mapSlot side f)) := by
  refine ((Settles.refl h).alterGroup g ?_ ?_ fun j hj => ?_).mapSlot side i f
  · exact fun _ => rfl
  · exact fun _ => rfl
  · rw [hg j hj]

theorem nestedIn_nest (h : Heap) (g : GroupId) (i : ItemId) (side : Side) (f : Slot → Slot)
    (hx : h.HasGroup x) :
    (((h.setNestedIn g i).alterItem i (Item.mapSlot side f)).group x).nestedIn =
      if x = g then some i else (h.group x).nestedIn := by
  rw [group_alterItem, setNestedIn]
  by_cases hxg : x = g
  · rw [if_pos hxg, hxg, group_alterGroup_self (hxg ▸ hx)]
  · rw [if_neg hxg, group_alterGroup_of_ne hxg]

/-- Groups that have been built are nested in the item that they are registered in. -/
theorem settles_registerAll (side : Side) (i : ItemId) {gs : List GroupId}
    (hgs : ∀ g ∈ gs, h.HasGroup g ∧ ∀ j, (h.group g).nestedIn = some j → j = i) :
    Settles h (h.registerAll side i gs) ∧
      ∀ g ∈ gs, ((h.registerAll side i gs).group g).nestedIn = some i := by
  induction gs generalizing h with
  | nil => exact ⟨.refl h, fun g hg => absurd hg List.not_mem_nil⟩
  | cons g gs ih =>
    rw [List.forall_mem_cons] at hgs
    obtain ⟨⟨hin, hg⟩, hgs⟩ := hgs
    have hfirst : Settles h (h.register side i g) := settles_nest hg side _
    have hnested : ((h.register side i g).group g).nestedIn = some i := by
      rw [register, nestedIn_nest h g i side _ hin, if_pos rfl]
    obtain ⟨hrest, hall⟩ := ih (h := h.register side i g) fun x hx => by
      refine ⟨hfirst.hasGroup x (hgs x hx).1, fun j hj => ?_⟩
      rw [register, nestedIn_nest h g i side _ (hgs x hx).1] at hj
      by_cases hxg : x = g
      · rw [if_pos hxg] at hj
        exact (Option.some.inj hj).symm
      · rw [if_neg hxg] at hj
        exact (hgs x hx).2 j hj
    exact ⟨hfirst.trans hrest, List.forall_mem_cons.2 ⟨hrest.nestedIn g i hnested, hall⟩⟩

/-! ### Links among siblings -/

/-- Nothing but super and sub groups has changed. -/
structure Relinked (a b : Heap) : Prop where
  items : b.items = a.items
  hasGroup : ∀ g, a.HasGroup g → b.HasGroup g
  name : ∀ g, (b.group g).name = (a.group g).name
  typeName : ∀ g, (b.group g).typeName = (a.group g).typeName
  nestedIn : ∀ g, (b.group g).nestedIn = (a.group g).nestedIn

namespace Relinked

theorem refl (a : Heap) : Relinked a a :=
  ⟨rfl, fun _ hg => hg, fun _ => rfl, fun _ => rfl, fun _ => rfl⟩

theorem item (hab : Relinked a b) (i : ItemId) : b.item i = a.item i := by
  rw [Heap.item, Heap.item, hab.items]

theorem settles (hab : Relinked a b) : Settles a b where
  hasGroup := hab.hasGroup
  name g _ := hab.name g
  typeName g _ := hab.typeName g
  nestedIn g i hi := (hab.nestedIn g).trans hi
  hasItem i hi := by
    rw [HasItem, hab.items]
    exact hi
  item i _ := by
    rw [hab.item]
    exact ⟨rfl, rfl⟩

theorem linkBelow (hab : Relinked a b) (hierarchy : Hierarchy) (siblings : List BuiltGroup)
    (r : BuiltGroup) : Relinked a (b.linkBelow hierarchy siblings r) := by
  unfold Heap.linkBelow
  cases b.superAmong siblings r with
  | none => exact hab
  | some p =>
    refine keeps_insertBelow (fun h g f hf hah => ?_) hierarchy p r.group hab
    have hkept : ∀ x, (f x).name = x.name ∧ (f x).typeName = x.typeName ∧
        (f x).nestedIn = x.nestedIn := fun x => by
      obtain ⟨s, t, hx⟩ := hf x
      rw [hx]
      exact ⟨rfl, rfl, rfl⟩
    exact ⟨hah.items, fun x hx => hasGroup_alterGroup.2 (hah.hasGroup x hx),
      fun x => (group_alterGroup_field Group.name (fun x => (hkept x).1) g x).trans (hah.name x),
      fun x => (group_alterGroup_field Group.typeName (fun x => (hkept x).2.1) g x).trans
        (hah.typeName x),
      fun x => (group_alterGroup_field Group.nestedIn (fun x => (hkept x).2.2) g x).trans
        (hah.nestedIn x)⟩

theorem linkAll (hab : Relinked a b) (hierarchy : Hierarchy) (siblings todo : List BuiltGroup) :
    Relinked a (b.linkAll hierarchy siblings todo) := by
  induction todo generalizing b with
  | nil => exact hab
  | cons r todo ih => exact ih (hab.linkBelow hierarchy siblings r)

/-- The way up from a group is as before. -/
theorem climbs (hab : Relinked a b) (hq : a.Climbs g q x) : b.Climbs g q x :=
  hq.congr hab.hasGroup hab.nestedIn (fun i => by rw [hab.item]) fun i => by rw [hab.item]

end Relinked

/-- The super type that a built group names, if no other group of the slot has it. -/
def missingSuper (h : Heap) (siblings : List BuiltGroup) (r : BuiltGroup) : Option String :=
  r.superTypeName.filter fun _ => h.superAmong siblings r = none

/-- The built groups that name a super type which no other group of the slot has, with its name. -/
def missingSupers (h : Heap) (siblings todo : List BuiltGroup) : List (GroupId × String) :=
  todo.filterMap fun r => (h.missingSuper siblings r).map (Prod.mk r.group)

/-- What is reported of a group below an attribute when a super type is missing. -/
def missingReport (h : Heap) (n : String) (p : GroupId × String) : Diagnostic :=
  .superTypeUnresolved n (h.group p.1).name p.2

theorem Relinked.missingSupers (hab : Relinked a b) (siblings todo : List BuiltGroup) :
    b.missingSupers siblings todo = a.missingSupers siblings todo := by
  unfold Heap.missingSupers missingSuper
  simp only [superAmong_congr fun c (_ : c ∈ siblings) => hab.typeName c.group]

theorem Relinked.missingReport (hab : Relinked a b) (n : String) :
    b.missingReport n = a.missingReport n := by
  funext p
  rw [Heap.missingReport, Heap.missingReport, hab.name]

end Heap

namespace Restoring

variable {h : Heap} {top : GroupId} {n : String} {siblings : List BuiltGroup}

/-- Linking a group reports it if it names a super type that is missing. -/
theorem Emits.linkSuper (s : RestorationScope) {r : BuiltGroup} (hup : h.Climbs top [n] r.group) :
    Emits (linkSuper s siblings r) h ⟨⟩ (h.linkBelow s.hierarchy siblings r)
      ((h.missingSupers siblings [r]).map (h.missingReport n)) := by
  have hpath : h.pathTo r.group = n := hup.pathTo_eq
  obtain ⟨superTypeName, g⟩ := r
  cases superTypeName with
  | none => exact Emits.pure _ h
  | some m =>
    intro ds
    let isParent (c : BuiltGroup) : Bool := c.group ≠ g && (h.group c.group).typeName = some m
    have hsuper : h.superAmong siblings ⟨some m, g⟩ =
        (siblings.find? isParent).map BuiltGroup.group := rfl
    have hrun : (Restoring.linkSuper s siblings ⟨some m, g⟩).run ⟨h, ds⟩ =
        (linkFound s ⟨some m, g⟩ (.superTypeUnresolved (h.pathTo g) (h.group g).name m)
          (siblings.find? isParent)).run ⟨h, ds⟩ := rfl
    rw [hrun, hpath, Heap.linkBelow, Heap.missingSupers, List.filterMap_cons, Heap.missingSuper,
      hsuper]
    cases siblings.find? isParent with
    | none => rfl
    | some p => exact Emits.edit (fun h => h.insertBelow s.hierarchy p.group g) h ds

/-- **Of the groups of a slot those are reported that name a super type which is missing**, with
the name of the attribute that leads to them. -/
theorem Emits.linkSupers (s : RestorationScope)
    (hup : ∀ r ∈ siblings, h.Climbs top [n] r.group) :
    Emits (linkSupers s siblings) h ⟨⟩ (h.linkAll s.hierarchy siblings siblings)
      ((h.missingSupers siblings siblings).map (h.missingReport n)) := by
  have hall : ∀ (todo : List BuiltGroup) (h : Heap), (∀ r ∈ todo, h.Climbs top [n] r.group) →
      Emits (todo.forM (Restoring.linkSuper s siblings)) h ⟨⟩
        (h.linkAll s.hierarchy siblings todo)
        ((h.missingSupers siblings todo).map (h.missingReport n)) := by
    intro todo
    induction todo with
    | nil => exact fun h _ => Emits.pure _ h
    | cons r todo ih =>
      intro h hup
      rw [List.forall_mem_cons] at hup
      have hlink := (Heap.Relinked.refl h).linkBelow s.hierarchy siblings r
      have hrest := ih (h.linkBelow s.hierarchy siblings r) fun c hc => hlink.climbs (hup.2 c hc)
      rw [hlink.missingSupers, hlink.missingReport] at hrest
      have hsplit : h.missingSupers siblings (r :: todo) =
          h.missingSupers siblings [r] ++ h.missingSupers siblings todo :=
        List.filterMap_append (l := [r])
      rw [hsplit, List.map_append]
      exact (Emits.linkSuper s hup.1).bind hrest
  exact hall siblings h hup

end Restoring

end AttributeGraph
