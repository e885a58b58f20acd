/-
What is built from a description.

`Built` relates a group to the description that it was built from: the surface is
as described, every attribute has an item, and the groups of a slot are those
built from its descriptions, linked among themselves.  It is stated for a heap in
which everything is finished.  While a group is built the heap goes on changing,
so what a step guarantees is said of every later heap that retains what the step
has built; the caller shows that its own changes retain it.
-/
import AttributeGraph.Proofs.Describing
import AttributeGraph.Proofs.Filling
import AttributeGraph.Proofs.Related

namespace AttributeGraph

/-! ### Restorations in progress -/

namespace Restoring

variable {α β : Type}

/-- A step of a restoration leads from one heap to another one and answers. -/
def Builds (m : Restoring α) (h : Heap) (a : α) (h' : Heap) : Prop :=
  ∀ ds, ∃ ds', m.run ⟨h, ds⟩ = (a, ⟨h', ds'⟩)

theorem Builds.pure (a : α) (h : Heap) : Builds (Pure.pure a) h a h := fun ds => ⟨ds, rfl⟩

theorem Builds.bind {m : Restoring α} {f : α → Restoring β} {a : α} {b : β} {h h' h'' : Heap}
    (hm : Builds m h a h') (hf : Builds (f a) h' b h'') : Builds (m >>= f) h b h'' := by
  intro ds
  obtain ⟨ds', hm⟩ := hm ds
  obtain ⟨ds'', hf⟩ := hf ds'
  refine ⟨ds'', ?_⟩
  rw [StateT.run_bind, hm]
  exact hf

theorem Builds.edit (f : Heap → Heap) (h : Heap) : Builds (edit f) h ⟨⟩ (f h) := fun ds => ⟨ds, rfl⟩

theorem Builds.build (f : Heap → α × Heap) (h : Heap) : Builds (build f) h (f h).1 (f h).2 :=
  fun ds => ⟨ds, rfl⟩

/-- Link a group below the one found for it, or report that none was. -/
def linkFound (s : RestorationScope) (r : BuiltGroup) (d : Diagnostic) :
    Option BuiltGroup → Restoring Unit
  | some p => edit fun h => h.insertBelow s.hierarchy p.group r.group
  | none => modify fun r => { r with diagnostics := r.diagnostics ++ [d] }

theorem Builds.linkSuper (s : RestorationScope) (siblings : List BuiltGroup) (r : BuiltGroup)
    (h : Heap) :
    Builds (linkSuper s siblings r) h ⟨⟩ (h.linkBelow s.hierarchy siblings r) := by
  intro ds
  unfold Restoring.linkSuper
  cases hname : r.superTypeName with
  | none =>
    rw [Heap.linkBelow, Heap.superAmong, hname]
    exact ⟨ds, rfl⟩
  | some n =>
    let d := Diagnostic.superTypeUnresolved (h.pathTo r.group) (h.group r.group).name n
    let isParent (c : BuiltGroup) : Bool :=
      c.group ≠ r.group && (h.group c.group).typeName = some n
    have hsuper : h.superAmong siblings r = (siblings.find? isParent).map BuiltGroup.group := by
      rw [Heap.superAmong, hname]
      rfl
    unfold Heap.linkBelow
    rw [hsuper]
    show ∃ ds', (linkFound s r d (siblings.find? isParent)).run ⟨h, ds⟩ = _
    cases siblings.find? isParent with
    | none => exact ⟨ds ++ [d], rfl⟩
    | some p => exact ⟨ds, rfl⟩

theorem Builds.linkSupers (s : RestorationScope) (siblings : List BuiltGroup) (h : Heap) :
    Builds (linkSupers s siblings) h ⟨⟩ (h.linkAll s.hierarchy siblings siblings) := by
  have hall : ∀ (todo : List BuiltGroup) (h : Heap),
      Builds (todo.forM (Restoring.linkSuper s siblings)) h ⟨⟩
        (h.linkAll s.hierarchy siblings todo) := by
    intro todo
    induction todo with
    | nil => exact fun h => Builds.pure _ h
    | cons r todo ih => exact fun h => (Builds.linkSuper s siblings r h).bind (ih _)
  exact hall siblings h

/-- Build one slot of an item. -/
def makeSlot (s : RestorationScope) (side : Side) (i : ItemId)
    (typeGroups : Option (List Description)) (group : Option Description) : Restoring Unit := do
  let typed ← makeTyped s typeGroups
  edit fun h => h.registerAll side i (typed.map BuiltGroup.group)
  let primary ← makePrimary s side i group
  linkSupers s (typed ++ primary)

/-- An item is built slot by slot. -/
theorem makeItem_eq (s : RestorationScope) (i : ItemId) (item : NestedDescription) :
    makeItem s i item = (do
      makeSlot s .value i item.typeGroups item.group
      makeSlot s .key i item.keyTypeGroups item.keyGroup) := by
  obtain ⟨group, typeGroups, keyGroup, keyTypeGroups⟩ := item
  rfl

theorem makeTyped_eq (s : RestorationScope) (ds : Option (List Description)) :
    makeTyped s ds = makeGroups s (ds.getD []) := by
  cases ds <;> rfl

end Restoring

/-! ### What has been built -/

namespace Heap

variable {base F : Heap} {P Q : GroupId → Description → Prop}

/-- A group is built from a description, and the super type that this names is noted. -/
def BuiltFrom (P : GroupId → Description → Prop) (r : BuiltGroup) (d : Description) : Prop :=
  r.superTypeName = d.superTypeName ∧ P r.group d

/-- The typed groups of a slot have type names, and different ones. -/
def Distinguished (typed : List Description) : Prop :=
  (∀ d ∈ typed, d.typeName.isSome = true) ∧ (typed.map Description.typeName).Nodup

/-- The groups that stay filed of those that are registered: of several with the same type name the
last one, in the place of the first one. -/
def filedGroups (F : Heap) (ts : List BuiltGroup) : List GroupId :=
  (OrderedMap.ofList (ts.map fun r => ((F.group r.group).typeName, r.group))).values

theorem filedGroups_congr {h : Heap} {ts : List BuiltGroup}
    (hnames : ∀ r ∈ ts, (F.group r.group).typeName = (h.group r.group).typeName) :
    F.filedGroups ts = h.filedGroups ts := by
  unfold filedGroups
  rw [List.map_congr_left fun r hr => by rw [hnames r hr]]

theorem mem_of_mem_filedGroups {ts : List BuiltGroup} {z : GroupId} (hz : z ∈ F.filedGroups ts) :
    z ∈ ts.map BuiltGroup.group := by
  have hmem := OrderedMap.mem_values_ofList hz
  rwa [List.map_map] at hmem

/-- Groups with different type names all stay filed. -/
theorem filedGroups_of_nodup {ts : List BuiltGroup}
    (hnames : (ts.map fun r => (F.group r.group).typeName).Nodup) :
    F.filedGroups ts = ts.map BuiltGroup.group := by
  unfold filedGroups
  rw [OrderedMap.values, OrderedMap.entries_ofList (by rwa [List.map_map]), List.map_map]
  rfl

/-- The groups that stay filed have different type names. -/
theorem nodup_typeName_filedGroups (F : Heap) (ts : List BuiltGroup) :
    ((F.filedGroups ts).map fun z => (F.group z).typeName).Nodup := by
  let m := OrderedMap.ofList (ts.map fun r => ((F.group r.group).typeName, r.group))
  have hkeys : (F.filedGroups ts).map (fun z => (F.group z).typeName) = m.keys := by
    rw [filedGroups, OrderedMap.values, OrderedMap.keys, List.map_map]
    refine List.map_congr_left fun e he => ?_
    -- a group is filed under the type name that it has
    have hmem := OrderedMap.mem_of_find?_ofList (OrderedMap.find?_eq_some_iff.2 he)
    obtain ⟨r, -, hr⟩ := List.mem_map.1 hmem
    obtain ⟨hname, hgroup⟩ := Prod.mk.inj hr
    rw [Function.comp_apply, ← hname, ← hgroup]
  rw [hkeys]
  exact m.nodup_keys

/-- A slot holds groups of `ts`, built from the descriptions of typed groups, and the group of `ps`,
built from that of a primary one, and they are linked among themselves. -/
structure SlotBuilt (F : Heap) (P : GroupId → Description → Prop) (s : Slot)
    (typed : List Description) (lone : Option Description) (ts ps : List BuiltGroup) : Prop where
  typed : List.Forall₂ (BuiltFrom P) ts typed
  lone : List.Forall₂ (BuiltFrom P) ps lone.toList
  filed : s.typed = F.filedGroups ts
  primary : s.primary = (ps.head?.map BuiltGroup.group).or s.typed.head?
  distinct : ((ts ++ ps).map BuiltGroup.group).Nodup
  above : ∀ r ∈ ts ++ ps, (F.group r.group).above = F.superAmong (ts ++ ps) r
  below : ∀ r ∈ ts ++ ps, ∀ w ∈ (F.group r.group).subs, w ∈ (ts ++ ps).map BuiltGroup.group

/-- A slot where typed groups and a primary one have been put holds just these. -/
theorem mem_groups_of_put {t : Slot} {ps : List BuiltGroup}
    (hprimary : t.primary = (ps.head?.map BuiltGroup.group).or t.typed.head?)
    (hlone : ps = ps.head?.toList) {z : GroupId} :
    z ∈ t.groups ↔ z ∈ t.typed ∨ z ∈ ps.map BuiltGroup.group := by
  rw [Slot.mem_groups, hprimary, Option.or_eq_some_iff]
  constructor
  · rintro ((hp | ⟨-, hp⟩) | hz)
    · obtain ⟨r, hr, rfl⟩ := Option.map_eq_some_iff.1 hp
      exact .inr (List.mem_map_of_mem (List.mem_of_head? hr))
    · exact .inl (List.mem_of_head? hp)
    · exact .inl hz
  · rintro (hz | hz)
    · exact .inr hz
    · obtain ⟨r, hr, rfl⟩ := List.mem_map.1 hz
      rw [hlone] at hr
      rw [Option.mem_toList.1 hr]
      exact .inl (.inl rfl)

namespace SlotBuilt

variable {s : Slot} {typed : List Description} {lone : Option Description}
  {ts ps : List BuiltGroup} (hs : SlotBuilt F P s typed lone ts ps)

include hs

/-- The groups of the slot are built from the descriptions in order. -/
theorem built : List.Forall₂ (BuiltFrom P) (ts ++ ps) (typed ++ lone.toList) :=
  List.rel_append hs.typed hs.lone

theorem lone_eq : ps = ps.head?.toList := eq_head?_of_forall₂ hs.lone.flip

theorem mem_groups {z : GroupId} :
    z ∈ s.groups ↔ z ∈ F.filedGroups ts ∨ z ∈ ps.map BuiltGroup.group := by
  rw [mem_groups_of_put hs.primary hs.lone_eq, hs.filed]

/-- Whatever the slot holds has been built for it. -/
theorem mem_of_mem_groups {z : GroupId} (hz : z ∈ s.groups) :
    z ∈ (ts ++ ps).map BuiltGroup.group := by
  rw [List.map_append, List.mem_append]
  exact (hs.mem_groups.1 hz).imp_left mem_of_mem_filedGroups

theorem not_mem_typed {p : BuiltGroup} (hp : p ∈ ps) : p.group ∉ s.typed := by
  intro hmem
  rw [hs.filed] at hmem
  have hdistinct := hs.distinct
  rw [List.map_append, List.nodup_append] at hdistinct
  exact hdistinct.2.2 _ (mem_of_mem_filedGroups hmem) _ (List.mem_map_of_mem hp) rfl

/-- The typed groups are described in the order in which they are filed. -/
theorem typedInOrder_eq : typedInOrder s = s.typed := by
  have hprimary := hs.primary
  unfold typedInOrder
  cases hps : ps.head? with
  | some p =>
    rw [hps] at hprimary
    rw [show s.primary = some p.group from hprimary]
    exact if_neg (hs.not_mem_typed (List.mem_of_head? hps))
  | none =>
    rw [hps] at hprimary
    rw [show s.primary = s.typed.head? from hprimary]
    cases s.typed with
    | nil => rfl
    | cons x rest =>
      dsimp only [List.head?_cons]
      rw [if_pos List.mem_cons_self, List.erase_cons_head]

theorem lonePrimary_eq : (lonePrimary s).toList = ps.map BuiltGroup.group := by
  have hprimary := hs.primary
  have hlone := hs.lone_eq
  unfold lonePrimary
  cases hps : ps.head? with
  | some p =>
    rw [hps] at hprimary hlone
    rw [show s.primary = some p.group from hprimary, Option.filter_some,
      if_pos (by simpa using hs.not_mem_typed (List.mem_of_head? hps)), hlone]
    rfl
  | none =>
    rw [hps] at hprimary hlone
    rw [show s.primary = s.typed.head? from hprimary, hlone]
    cases s.typed with
    | nil => rfl
    | cons x rest =>
      rw [List.head?_cons, Option.filter_some, if_neg (by simp)]
      rfl

/-- The groups that stay filed are described, then the primary one. -/
theorem described_eq : describedGroups s = F.filedGroups ts ++ ps.map BuiltGroup.group := by
  rw [describedGroups, hs.typedInOrder_eq, hs.filed, hs.lonePrimary_eq]

/-- Typed groups with different type names are all filed, in order. -/
theorem filed_of_distinguished (hnames : ∀ z e, P z e → (F.group z).typeName = e.typeName)
    (htyped : Distinguished typed) : s.typed = ts.map BuiltGroup.group := by
  refine hs.filed.trans (filedGroups_of_nodup ?_)
  rw [map_eq_of_forall₂ (fun r e (hr : BuiltFrom P r e) => hnames r.group e hr.2) hs.typed]
  exact htyped.2

end SlotBuilt

/-- An item beside those of a base is built from the description of an attribute. -/
structure ItemBuilt (base F : Heap) (P : GroupId → Description → Prop) (i : ItemId) (n : String)
    (item : NestedDescription) : Prop where
  fresh : ¬ base.HasItem i
  inHeap : F.HasItem i
  name : (F.item i).name = n
  slots : ∀ side, ∃ ts ps,
    SlotBuilt F P ((F.item i).slot side) (item.typed side) (item.lone side) ts ps

/-- A group beside those of a base is built from a description, and the groups nested in it are in
the sense of `P`. -/
structure GroupBuilt (base F : Heap) (P : GroupId → Description → Prop) (y : GroupId)
    (d : Description) : Prop where
  fresh : ¬ base.HasGroup y
  inHeap : F.HasGroup y
  name : (F.group y).name = d.name
  typeName : (F.group y).typeName = d.typeName
  validated : (F.group y).validated = d.validated.getD false
  kind : (F.variantOf y).kind = d.kind.getD .generic
  items : List.Forall₂ (fun a e => a.1 = e.1 ∧ ItemBuilt base F P e.2 a.1 a.2) d.fields
    (F.group y).items.entries

/-- A group and all that is nested in it are built from a description. -/
inductive Built (base F : Heap) : GroupId → Description → Prop
  | intro {y : GroupId} {d : Description} (P : GroupId → Description → Prop)
      (hP : ∀ z e, P z e → Built base F z e) (hy : GroupBuilt base F P y d) : Built base F y d

theorem BuiltFrom.mono (hPQ : ∀ z e, P z e → Q z e) {r : BuiltGroup} {d : Description}
    (hr : BuiltFrom P r d) : BuiltFrom Q r d :=
  ⟨hr.1, hPQ _ _ hr.2⟩

theorem SlotBuilt.mono (hPQ : ∀ z e, P z e → Q z e) {s : Slot} {typed : List Description}
    {lone : Option Description} {ts ps : List BuiltGroup} (hs : SlotBuilt F P s typed lone ts ps) :
    SlotBuilt F Q s typed lone ts ps :=
  { hs with
    typed := hs.typed.imp fun _ _ => BuiltFrom.mono hPQ
    lone := hs.lone.imp fun _ _ => BuiltFrom.mono hPQ }

theorem ItemBuilt.mono (hPQ : ∀ z e, P z e → Q z e) {i : ItemId} {n : String}
    {item : NestedDescription} (hi : ItemBuilt base F P i n item) : ItemBuilt base F Q i n item :=
  { hi with
    slots := by
      intro side
      obtain ⟨ts, ps, hs⟩ := hi.slots side
      exact ⟨ts, ps, hs.mono hPQ⟩ }

/-- A group that is built from a description holds groups that are. -/
theorem Built.group {y : GroupId} {d : Description} (hy : Built base F y d) :
    GroupBuilt base F (Built base F) y d := by
  obtain ⟨P, hP, hy⟩ := hy
  exact { hy with items := hy.items.imp fun _ _ hi => ⟨hi.1, hi.2.mono hP⟩ }

/-- Every item of a built group is built from an attribute of the description. -/
theorem GroupBuilt.exists_field {y : GroupId} {d : Description} (hy : GroupBuilt base F P y d)
    {n : String} {i : ItemId} (hi : (F.group y).items.find? n = some i) :
    ∃ a ∈ d.fields, a.1 = n ∧ ItemBuilt base F P i a.1 a.2 :=
  exists_left_of_mem hy.items (OrderedMap.find?_eq_some_iff.1 hi)

/-- A group is built for a slot of a description, or for one of what is nested in it. -/
inductive BuiltInside (base F : Heap) : Description → GroupId → Prop
  | slot {d : Description} {a : String × NestedDescription} {side : Side} {s : Slot}
      {ts ps : List BuiltGroup} {x : GroupId} (ha : a ∈ d.fields)
      (hs : SlotBuilt F (Built base F) s (a.2.typed side) (a.2.lone side) ts ps)
      (hx : x ∈ (ts ++ ps).map BuiltGroup.group) : BuiltInside base F d x
  | nested {d e : Description} {a : String × NestedDescription} {side : Side} {x : GroupId}
      (ha : a ∈ d.fields) (he : e ∈ a.2.groups side) (hx : BuiltInside base F e x) :
      BuiltInside base F d x

/-! ### What building a group guarantees -/

/-- A group has been built from a description: it is the first new one, nothing else has changed,
and every later heap that retains it has it as described. -/
structure Made (base h h' : Heap) (y : GroupId) (d : Description) : Prop where
  grows : Grows Nothing Nothing h h'
  tidy : Tidy base h'
  index : y.index = h.groups.size
  inHeap : h'.HasGroup y
  above : (h'.group y).above = none
  below : (h'.group y).below = none
  typeName : (h'.group y).typeName = d.typeName
  built : ∀ F, Retains h.groups.size h.items.size (· = y) h' F → Built base F y d
  /-- All other groups that are new have been built inside. -/
  inside : ∀ F, Retains h.groups.size h.items.size (· = y) h' F →
    ∀ x, h'.HasGroup x → ¬ h.HasGroup x → x = y ∨ BuiltInside base F d x

/-- Wherever a description is built, a group is. -/
def Makes (s : RestorationScope) (d : Description) : Prop :=
  ∀ base h, Grows Nothing Nothing base h → Tidy base h →
    ∃ y h', (Restoring.makeGroup s d).Builds h y h' ∧ Made base h h' y d

/-- Groups have been built from descriptions, one by one. -/
structure MadeAll (base h h' : Heap) (ts : List BuiltGroup) (ds : List Description) : Prop where
  grows : Grows Nothing Nothing h h'
  tidy : Tidy base h'
  fresh : ∀ r ∈ ts, ¬ h.HasGroup r.group
  inHeap : ∀ r ∈ ts, h'.HasGroup r.group
  distinct : (ts.map BuiltGroup.group).Nodup
  above : ∀ r ∈ ts, (h'.group r.group).above = none
  below : ∀ r ∈ ts, (h'.group r.group).below = none
  typeName : List.Forall₂ (fun r d => (h'.group r.group).typeName = d.typeName) ts ds
  built : ∀ F, Retains h.groups.size h.items.size (· ∈ ts.map BuiltGroup.group) h' F →
    List.Forall₂ (BuiltFrom (Built base F)) ts ds
  inside : ∀ F, Retains h.groups.size h.items.size (· ∈ ts.map BuiltGroup.group) h' F →
    ∀ x, h'.HasGroup x → ¬ h.HasGroup x →
      x ∈ ts.map BuiltGroup.group ∨ ∃ d ∈ ds, BuiltInside base F d x

theorem MadeAll.nil {h : Heap} (htidy : Tidy base h) : MadeAll base h h [] [] where
  grows := .refl h
  tidy := htidy
  fresh _ hr := absurd hr List.not_mem_nil
  inHeap _ hr := absurd hr List.not_mem_nil
  distinct := List.nodup_nil
  above _ hr := absurd hr List.not_mem_nil
  below _ hr := absurd hr List.not_mem_nil
  typeName := .nil
  built _ _ := .nil
  inside _ _ _ hin hno := absurd hin hno

/-- A group is built, and then others are. -/
theorem MadeAll.cons {h h₁ h₂ : Heap} {y : GroupId} {d : Description} {ts : List BuiltGroup}
    {ds : List Description} (hy : Made base h h₁ y d) (hts : MadeAll base h₁ h₂ ts ds) :
    MadeAll base h h₂ (⟨d.superTypeName, y⟩ :: ts) (d :: ds) := by
  have hkept : h₂.group y = h₁.group y := hts.grows.group y hy.inHeap fun hno => hno
  have hnew : ¬ h.HasGroup y := fun hin => absurd hy.index (Nat.ne_of_lt hin)
  have hold : y ∉ ts.map BuiltGroup.group := by
    intro hmem
    obtain ⟨r, hr, rfl⟩ := List.mem_map.1 hmem
    exact hts.fresh r hr hy.inHeap
  have hfirst : ∀ F, Retains h.groups.size h.items.size
      (· ∈ y :: ts.map BuiltGroup.group) h₂ F →
      Retains h.groups.size h.items.size (· = y) h₁ F := by
    intro F hF
    have hlater : Retains h.groups.size h.items.size (· = y) h₁ h₂ :=
      hts.grows.retains (fun _ _ _ hno => hno) fun _ _ _ hno => hno
    refine hlater.trans hF (Nat.le_refl _) (Nat.le_refl _) fun g _ hg hmem => ?_
    rcases List.mem_cons.1 hmem with hgy | hmem
    · exact hgy
    · obtain ⟨r, hr, rfl⟩ := List.mem_map.1 hmem
      exact absurd hg (hts.fresh r hr)
  have hrest : ∀ F, Retains h.groups.size h.items.size
      (· ∈ y :: ts.map BuiltGroup.group) h₂ F →
      Retains h₁.groups.size h₁.items.size (· ∈ ts.map BuiltGroup.group) h₂ F := by
    intro F hF
    refine hF.mono hy.grows.groups_le hy.grows.items_le fun g hn _ hmem => ?_
    rcases List.mem_cons.1 hmem with rfl | hmem
    · exact absurd hy.inHeap (Nat.not_lt.2 hn)
    · exact hmem
  refine ⟨?_, hts.tidy, ?_, ?_, List.nodup_cons.2 ⟨hold, hts.distinct⟩, ?_, ?_, ?_,
    fun F hF => .cons ⟨rfl, hy.built F (hfirst F hF)⟩ (hts.built F (hrest F hF)),
    fun F hF x hx hno => ?_⟩
  · exact hy.grows.trans hts.grows (fun _ _ hg => hg) fun _ _ hi => hi
  · exact List.forall_mem_cons.2 ⟨hnew, fun r hr hin => hts.fresh r hr (hy.grows.hasGroup _ hin)⟩
  · exact List.forall_mem_cons.2 ⟨hts.grows.hasGroup y hy.inHeap, hts.inHeap⟩
  · exact List.forall_mem_cons.2 ⟨by rw [hkept, hy.above], hts.above⟩
  · exact List.forall_mem_cons.2 ⟨by rw [hkept, hy.below], hts.below⟩
  · exact .cons (by rw [hkept, hy.typeName]) hts.typeName
  · by_cases hx₁ : h₁.HasGroup x
    · rcases hy.inside F (hfirst F hF) x hx₁ hno with rfl | hinside
      · exact .inl List.mem_cons_self
      · exact .inr ⟨d, List.mem_cons_self, hinside⟩
    · rcases hts.inside F (hrest F hF) x hx hx₁ with hmem | ⟨e, he, hinside⟩
      · exact .inl (List.mem_cons_of_mem y hmem)
      · exact .inr ⟨e, List.mem_cons_of_mem d he, hinside⟩

section Steps

variable {s : RestorationScope} {h : Heap} {side : Side} {i : ItemId}

open Restoring

theorem makeGroups_made {ds : List Description} (hds : ∀ d ∈ ds, Makes s d) :
    ∀ h, Grows Nothing Nothing base h → Tidy base h →
      ∃ ts h', (makeGroups s ds).Builds h ts h' ∧ MadeAll base h h' ts ds := by
  induction ds with
  | nil => exact fun h _ htidy => ⟨[], h, Builds.pure _ h, .nil htidy⟩
  | cons d ds ih =>
    intro h hgrows htidy
    rw [List.forall_mem_cons] at hds
    obtain ⟨y, h₁, hrun, hy⟩ := hds.1 base h hgrows htidy
    have hgrows₁ : Grows Nothing Nothing base h₁ :=
      hgrows.trans hy.grows (fun _ _ hg => hg) fun _ _ hi => hi
    obtain ⟨ts, h₂, hruns, hts⟩ := ih hds.2 h₁ hgrows₁ hy.tidy
    exact ⟨_, h₂, hrun.bind (hruns.bind (Builds.pure _ h₂)), .cons hy hts⟩

/-- Set the primary group of a slot, if there is one. -/
def setPrimary (h : Heap) (side : Side) (i : ItemId) (ps : List BuiltGroup) : Heap :=
  match ps.head? with
  | none => h
  | some r => h.setRoot side i r.group

theorem makePrimary_made (side : Side) (i : ItemId) {o : Option Description}
    (ho : ∀ d ∈ o, Makes s d)
    (hgrows : Grows Nothing Nothing base h) (htidy : Tidy base h) :
    ∃ ps h', (makePrimary s side i o).Builds h ps (h'.setPrimary side i ps) ∧
      MadeAll base h h' ps o.toList := by
  cases o with
  | none => exact ⟨[], h, Builds.pure _ h, .nil htidy⟩
  | some d =>
    obtain ⟨y, h', hrun, hy⟩ := ho d rfl base h hgrows htidy
    refine ⟨[⟨d.superTypeName, y⟩], h', ?_, .cons hy (.nil hy.tidy)⟩
    exact hrun.bind ((Builds.edit _ h').bind (Builds.pure _ _))

/-- One slot of an item has been built: nothing but the slot has changed, and every later heap
that retains what has been built has it as described. -/
structure MadeSlot (base h h' : Heap) (side : Side) (i : ItemId) (typed : List Description)
    (lone : Option Description) : Prop where
  grows : Grows Nothing (· = i) h h'
  tidy : Tidy base h'
  slot : ∃ t : Slot, h'.item i = (h.item i).mapSlot side (fun _ => t) ∧
    ∀ F, Retains h.groups.size h.items.size Nothing h' F →
      ∃ ts ps, SlotBuilt F (Built base F) t typed lone ts ps ∧
        ∀ x, h'.HasGroup x → ¬ h.HasGroup x → x ∈ (ts ++ ps).map BuiltGroup.group ∨
          ∃ d ∈ typed ++ lone.toList, BuiltInside base F d x

theorem tag?_of_untyped {g : GroupId} (hg : (h.group g).type = none) :
    h.tag? g = (h.group g).typeName.map .name := by
  unfold tag? Group.tag?
  rw [hg]

/-- The typed groups are registered in a slot that was empty. -/
theorem registered_slot {h₁ : Heap} {ts : List BuiltGroup} {typed : List Description}
    (hts : MadeAll base h h₁ ts typed) (hnamed : ∀ d ∈ typed, d.typeName.isSome = true)
    (hgrows : Grows Nothing Nothing base h) (hi : h.HasItem i) (hfresh : ¬ base.HasItem i)
    (hslot : (h.item i).slot side = {}) :
    ∃ t : Slot, (h₁.registerAll side i (ts.map BuiltGroup.group)).item i =
      (h.item i).mapSlot side (fun _ => t) ∧ t.typed = h₁.filedGroups ts ∧
      t.primary = t.typed.head? := by
  have hitem : h₁.item i = h.item i := hts.grows.item i hi fun hno => hno
  have hslot₁ : (h₁.item i).slot side = {} := by rw [hitem, hslot]
  have htags : ∀ r ∈ ts, h₁.tag? r.group = (h₁.group r.group).typeName.map .name := fun r hr =>
    tag?_of_untyped (hts.tidy.untyped r.group fun hin => hts.fresh r hr (hgrows.hasGroup _ hin))
  have hsome : ∀ g ∈ ts.map BuiltGroup.group, ∃ k, h₁.tag? g = some k := by
    intro g hg
    obtain ⟨r, hr, rfl⟩ := List.mem_map.1 hg
    obtain ⟨d, hd, hname⟩ := exists_right_of_mem hts.typeName hr
    obtain ⟨n, hn⟩ := Option.isSome_iff_exists.1 (hnamed d hd)
    exact ⟨.name n, by rw [htags r hr, hname, hn]; rfl⟩
  obtain ⟨t, ht, htyped, hprimary⟩ := registerAll_spec side hfresh _ h₁ .empty hts.tidy
    (hts.grows.hasItem i hi) (by rw [hslot₁]; rfl) (by rw [hslot₁]; rfl) hsome
  refine ⟨t, by rw [ht, hitem], ?_, hprimary⟩
  -- the tags are the type names, and different names make different tags
  have hkeys : ts.map (fun r => (h₁.tag? r.group, r.group)) =
      (ts.map fun r => ((h₁.group r.group).typeName, r.group)).map
        (Prod.map (Option.map .name) id) := by
    rw [List.map_map]
    exact List.map_congr_left fun r hr => Prod.ext (htags r hr) rfl
  rw [htyped, List.foldl_map, filedGroups, ← OrderedMap.values_ofList_map
    (Option.map_injective fun _ _ hname => TypeTag.name.inj hname), ← hkeys, OrderedMap.ofList,
    List.foldl_map]

/-- A new group that is not linked yet. -/
structure Unlinked (h : Heap) (g : GroupId) : Prop where
  inHeap : h.HasGroup g
  type : (h.group g).type = none
  above : (h.group g).above = none
  below : (h.group g).below = none

theorem Retains.unlinked {n m : Nat} {h' : Heap} {g : GroupId} (hr : Retains n m Nothing h h')
    (hn : n ≤ g.index) (hin : h.HasGroup g) (habove : (h.group g).above = none)
    (hbelow : (h.group g).below = none) (htype : (h'.group g).type = none) : Unlinked h' g := by
  obtain ⟨habove', hbelow'⟩ := hr.links g hn hin fun hno => hno
  exact ⟨hr.hasGroup g hin, htype, habove'.trans habove, hbelow'.trans hbelow⟩

theorem Retains.setPrimary {n m : Nat} {L : GroupId → Prop} {b : Heap} {ps : List BuiltGroup}
    (hr : Retains n m L b h) (hi : i.index < m) : Retains n m L b (h.setPrimary side i ps) := by
  unfold Heap.setPrimary
  cases ps.head? with
  | none => exact hr
  | some r => exact hr.setRoot hi

theorem Grows.setPrimary {G : GroupId → Prop} {I : ItemId → Prop} {a b : Heap}
    {ps : List BuiltGroup} (hab : Grows G I a b) (hG : ∀ r ∈ ps, a.HasGroup r.group → G r.group)
    (hI : a.HasItem i → I i) : Grows G I a (b.setPrimary side i ps) := by
  unfold Heap.setPrimary
  cases hp : ps.head? with
  | none => exact hab
  | some r => exact hab.setRoot (hG r (List.mem_of_head? hp)) hI

theorem Tidy.setPrimary {ps : List BuiltGroup} (ht : Tidy base h) (hi : ¬ base.HasItem i) :
    Tidy base (h.setPrimary side i ps) := by
  unfold Heap.setPrimary
  cases ps.head? with
  | none => exact ht
  | some r => exact ht.setRoot hi

theorem hasGroup_setPrimary {ps : List BuiltGroup} {x : GroupId} :
    (h.setPrimary side i ps).HasGroup x ↔ h.HasGroup x := by
  unfold Heap.setPrimary
  cases ps.head? with
  | none => exact Iff.rfl
  | some r => exact hasGroup_alterGroup

/-- Setting the primary group of a slot keeps the typed ones. -/
theorem item_setPrimary {ps : List BuiltGroup} {x : Item} {t : Slot} (hi : h.HasItem i)
    (hitem : h.item i = x.mapSlot side fun _ => t) :
    (h.setPrimary side i ps).item i = x.mapSlot side fun _ =>
      { t with primary := (ps.head?.map BuiltGroup.group).or t.primary } := by
  unfold Heap.setPrimary
  cases ps.head? with
  | none => exact hitem
  | some r =>
    show (h.setRoot side i r.group).item i = _
    rw [item_setRoot hi, hitem]
    cases side <;> rfl

section Slot

variable {h₁ h₃ : Heap} {ts ps : List BuiltGroup} {typed : List Description}
  {lone : Option Description}

/-- Registering and setting the primary group grow the heap by new groups only. -/
theorem grows_filled (hts : MadeAll base h h₁ ts typed)
    (hps : MadeAll base (h₁.registerAll side i (ts.map BuiltGroup.group)) h₃ ps lone.toList) :
    (∀ r ∈ ts ++ ps, ¬ h.HasGroup r.group) ∧
      Grows (fun g => ¬ h.HasGroup g) (· = i) h (h₃.setPrimary side i ps) := by
  have hgrows₁ : Grows (fun g => ¬ h.HasGroup g) (· = i) h h₁ :=
    hts.grows.mono (fun _ _ hno => hno.elim) fun _ _ hno => hno.elim
  have hgrows₂ : Grows (fun g => ¬ h.HasGroup g) (· = i) h
      (h₁.registerAll side i (ts.map BuiltGroup.group)) := by
    refine hgrows₁.registerAll (fun g hg _ => ?_) fun _ => rfl
    obtain ⟨r, hr, rfl⟩ := List.mem_map.1 hg
    exact hts.fresh r hr
  have hnew : ∀ r ∈ ps, ¬ h.HasGroup r.group := fun r hr hin =>
    hps.fresh r hr (hgrows₂.hasGroup _ hin)
  refine ⟨List.forall_mem_append.2 ⟨hts.fresh, hnew⟩, ?_⟩
  have hgrows := hgrows₂.trans hps.grows (fun _ _ hno => hno.elim) fun _ _ hno => hno.elim
  refine hgrows.setPrimary ?_ ?_
  · exact fun r hr _ => hnew r hr
  · exact fun _ => rfl

theorem retains_registered (h₁ : Heap) (side : Side) (ts : List BuiltGroup) (hi : h.HasItem i) :
    Retains h.groups.size h.items.size Nothing h₁
      (h₁.registerAll side i (ts.map BuiltGroup.group)) :=
  (Retains.refl h₁).registerAll hi

/-- What has been built of a slot is retained while it is filled. -/
theorem retains_filled (hi : h.HasItem i)
    (hps : MadeAll base (h₁.registerAll side i (ts.map BuiltGroup.group)) h₃ ps lone.toList) :
    Retains h.groups.size h.items.size Nothing h₁ (h₃.setPrimary side i ps) ∧
      Retains h.groups.size h.items.size Nothing h₃ (h₃.setPrimary side i ps) := by
  have hkept : Retains h.groups.size h.items.size Nothing
      (h₁.registerAll side i (ts.map BuiltGroup.group)) h₃ :=
    hps.grows.retains (fun _ _ _ hno => hno) fun _ _ _ hno => hno
  have hregistered := retains_registered h₁ side ts hi
  constructor
  · refine Retains.setPrimary ?_ hi
    exact hregistered.trans hkept (Nat.le_refl _) (Nat.le_refl _) fun _ _ _ hno => hno
  · exact (Retains.refl h₃).setPrimary hi

/-- Before they are linked, the groups of a slot are not linked. -/
theorem unlinked_filled (hgrows : Grows Nothing Nothing base h) (hi : h.HasItem i)
    (hfresh : ¬ base.HasItem i) (hts : MadeAll base h h₁ ts typed)
    (hps : MadeAll base (h₁.registerAll side i (ts.map BuiltGroup.group)) h₃ ps lone.toList) :
    ∀ r ∈ ts ++ ps, Unlinked (h₃.setPrimary side i ps) r.group := by
  have hnew := (grows_filled hts hps).1
  obtain ⟨hfirst, hlast⟩ := retains_filled hi hps
  have htype : ∀ r ∈ ts ++ ps, ((h₃.setPrimary side i ps).group r.group).type = none :=
    fun r hr => (hps.tidy.setPrimary hfresh).untyped _ fun hin => hnew r hr (hgrows.hasGroup _ hin)
  rw [List.forall_mem_append] at hnew htype ⊢
  constructor
  · intro r hr
    exact hfirst.unlinked (Nat.le_of_not_lt (hnew.1 r hr)) (hts.inHeap r hr) (hts.above r hr)
      (hts.below r hr) (htype.1 r hr)
  · intro r hr
    exact hlast.unlinked (Nat.le_of_not_lt (hnew.2 r hr)) (hps.inHeap r hr) (hps.above r hr)
      (hps.below r hr) (htype.2 r hr)

/-- The groups of a slot are different. -/
theorem distinct_filled (hi : h.HasItem i) (hts : MadeAll base h h₁ ts typed)
    (hps : MadeAll base (h₁.registerAll side i (ts.map BuiltGroup.group)) h₃ ps lone.toList) :
    ((ts ++ ps).map BuiltGroup.group).Nodup := by
  have hregistered := retains_registered h₁ side ts hi
  rw [List.map_append]
  refine List.nodup_append.2 ⟨hts.distinct, hps.distinct, ?_⟩
  intro x hx y hy hxy
  obtain ⟨r, hr, rfl⟩ := List.mem_map.1 hx
  obtain ⟨q, hq, rfl⟩ := List.mem_map.1 hy
  exact hps.fresh q hq (hxy ▸ hregistered.hasGroup _ (hts.inHeap r hr))

/-- The slot that has been filled. -/
theorem slot_filled (hgrows : Grows Nothing Nothing base h) (hi : h.HasItem i)
    (hfresh : ¬ base.HasItem i) (hslot : (h.item i).slot side = {})
    (hnamed : ∀ d ∈ typed, d.typeName.isSome = true)
    (hts : MadeAll base h h₁ ts typed)
    (hps : MadeAll base (h₁.registerAll side i (ts.map BuiltGroup.group)) h₃ ps lone.toList) :
    ∃ t : Slot, (h₃.setPrimary side i ps).item i = (h.item i).mapSlot side (fun _ => t) ∧
      t.typed = h₁.filedGroups ts ∧
      t.primary = (ps.head?.map BuiltGroup.group).or t.typed.head? := by
  obtain ⟨t, hitem, htyped, hprimary⟩ := registered_slot hts hnamed hgrows hi hfresh hslot
  have hi₁ : (h₁.registerAll side i (ts.map BuiltGroup.group)).HasItem i :=
    (retains_registered h₁ side ts hi).hasItem i (hts.grows.hasItem i hi)
  have hitem₃ : h₃.item i = (h.item i).mapSlot side fun _ => t := by
    rw [hps.grows.item i hi₁ fun hno => hno, hitem]
  refine ⟨_, item_setPrimary (hps.grows.hasItem i hi₁) hitem₃, htyped, ?_⟩
  show (ps.head?.map BuiltGroup.group).or t.primary = _
  rw [hprimary]
  rfl

/-- When the slot has been filled, its typed groups are still there. -/
theorem retains_typed (hi : h.HasItem i)
    (hps : MadeAll base (h₁.registerAll side i (ts.map BuiltGroup.group)) h₃ ps lone.toList)
    (hlater : Retains h.groups.size h.items.size (· ∈ (ts ++ ps).map BuiltGroup.group)
      (h₃.setPrimary side i ps) F) :
    Retains h.groups.size h.items.size (· ∈ ts.map BuiltGroup.group) h₁ F := by
  have hfirst := (retains_filled hi hps).1
  refine (hfirst.mono (Nat.le_refl _) (Nat.le_refl _) fun _ _ _ hno => hno.elim).trans hlater
    (Nat.le_refl _) (Nat.le_refl _) fun g _ hg hmem => ?_
  rw [List.map_append, List.mem_append] at hmem
  refine hmem.resolve_right fun hmem => ?_
  obtain ⟨r, hr, rfl⟩ := List.mem_map.1 hmem
  exact hps.fresh r hr ((retains_registered h₁ side ts hi).hasGroup _ hg)

/-- When the slot has been filled, its primary group is still there. -/
theorem retains_lone (hi : h.HasItem i) (hts : MadeAll base h h₁ ts typed)
    (hps : MadeAll base (h₁.registerAll side i (ts.map BuiltGroup.group)) h₃ ps lone.toList)
    (hlater : Retains h.groups.size h.items.size (· ∈ (ts ++ ps).map BuiltGroup.group)
      (h₃.setPrimary side i ps) F) :
    Retains (h₁.registerAll side i (ts.map BuiltGroup.group)).groups.size
      (h₁.registerAll side i (ts.map BuiltGroup.group)).items.size
      (· ∈ ps.map BuiltGroup.group) h₃ F := by
  have hlast := (retains_filled hi hps).2
  have hregistered := retains_registered h₁ side ts hi
  have hgroups := Nat.le_trans hts.grows.groups_le hregistered.groups_le
  have hitems := Nat.le_trans hts.grows.items_le hregistered.items_le
  refine (hlast.mono hgroups hitems fun _ _ _ hno => hno.elim).trans hlater hgroups hitems
    fun g hn _ hmem => ?_
  rw [List.map_append, List.mem_append] at hmem
  refine hmem.resolve_left fun hmem => ?_
  obtain ⟨r, hr, rfl⟩ := List.mem_map.1 hmem
  exact absurd (hregistered.hasGroup _ (hts.inHeap r hr)) (Nat.not_lt.2 hn)

/-- **The groups of a slot are built, registered and linked.** -/
theorem madeSlot (hierarchy : Hierarchy) (hgrows : Grows Nothing Nothing base h) (hi : h.HasItem i)
    (hfresh : ¬ base.HasItem i) (hslot : (h.item i).slot side = {})
    (hnamed : ∀ d ∈ typed, d.typeName.isSome = true)
    (hts : MadeAll base h h₁ ts typed)
    (hps : MadeAll base (h₁.registerAll side i (ts.map BuiltGroup.group)) h₃ ps lone.toList) :
    MadeSlot base h
      ((h₃.setPrimary side i ps).linkAll hierarchy (ts ++ ps) (ts ++ ps)) side i typed lone := by
  obtain ⟨hnew, hgrows₄⟩ := grows_filled hts hps
  obtain ⟨t, hitem, htyped, hprimary⟩ := slot_filled hgrows hi hfresh hslot hnamed hts hps
  have hunlinked := unlinked_filled hgrows hi hfresh hts hps
  have huntyped : ∀ r ∈ ts ++ ps, ((h₃.setPrimary side i ps).group r.group).type = none :=
    fun r hr => (hunlinked r hr).type
  have hlinked : Retains h.groups.size h.items.size (· ∈ (ts ++ ps).map BuiltGroup.group)
      (h₃.setPrimary side i ps)
      ((h₃.setPrimary side i ps).linkAll hierarchy (ts ++ ps) (ts ++ ps)) :=
    (Retains.refl _).linkAll (fun _ hr => hr) huntyped fun _ hr => List.mem_map_of_mem hr
  refine ⟨?_, (hps.tidy.setPrimary hfresh).linkAll huntyped, t, ?_, fun F hF => ⟨ts, ps, ?_⟩⟩
  · refine (hgrows₄.linkAll (fun _ hr => hr) huntyped fun r hr _ => hnew r hr).mono ?_ ?_
    · exact fun g hg hno => hno hg
    · exact fun _ _ hi => hi
  · have hsame : Grows (fun _ => True) Nothing (h₃.setPrimary side i ps)
        ((h₃.setPrimary side i ps).linkAll hierarchy (ts ++ ps) (ts ++ ps)) :=
      (Grows.refl _).linkAll (fun _ hr => hr) huntyped fun _ _ _ => trivial
    rw [hsame.item i (hgrows₄.hasItem i hi) fun hno => hno, hitem]
  · have hlater : Retains h.groups.size h.items.size (· ∈ (ts ++ ps).map BuiltGroup.group)
        (h₃.setPrimary side i ps) F :=
      hlinked.trans hF (Nat.le_refl _) (Nat.le_refl _) fun _ _ _ hno => hno.elim
    have hlinks : ∀ r ∈ ts ++ ps, (F.group r.group).above = _ ∧ (F.group r.group).below = _ :=
      fun r hr => hF.links r.group (Nat.le_of_not_lt (hnew r hr))
        (hlinked.hasGroup _ (hunlinked r hr).inHeap) fun hno => hno
    have hnames : ∀ r ∈ ts ++ ps, (F.group r.group).typeName =
        ((h₃.setPrimary side i ps).group r.group).typeName := by
      intro r hr
      have hcore := hlater.core r.group (Nat.le_of_not_lt (hnew r hr)) (hunlinked r hr).inHeap
      exact (Group.of_core hcore).2.1
    have hkept := retains_typed hi hps hlater
    have hfiled : F.filedGroups ts = h₁.filedGroups ts := filedGroups_congr fun r hr =>
      (Group.of_core (hkept.core r.group (Nat.le_of_not_lt (hts.fresh r hr)) (hts.inHeap r hr))).2.1
    refine ⟨⟨hts.built F hkept, hps.built F (retains_lone hi hts hps hlater),
      htyped.trans hfiled.symm, hprimary, distinct_filled hi hts hps, fun r hr => ?_,
      fun r hr w hw => ?_⟩, fun x hx hno => ?_⟩
    · rw [(hlinks r hr).1, superAmong_congr hnames]
      exact (above_linkAll (distinct_filled hi hts hps) fun q hq =>
        ⟨(hunlinked q hq).type, (hunlinked q hq).inHeap, (hunlinked q hq).above⟩).1 r hr
    · unfold Group.subs at hw
      rw [(hlinks r hr).2] at hw
      refine (mem_subs_linkAll huntyped hw).resolve_left fun hno => ?_
      unfold Group.subs at hno
      rw [(hunlinked r hr).below] at hno
      exact List.not_mem_nil hno
    · rw [hasGroup_linkAll huntyped, hasGroup_setPrimary] at hx
      rw [List.map_append, List.mem_append]
      by_cases hx₁ : h₁.HasGroup x
      · rcases hts.inside F hkept x hx₁ hno with hmem | ⟨d, hd, hinside⟩
        · exact .inl (.inl hmem)
        · exact .inr ⟨d, List.mem_append_left _ hd, hinside⟩
      · rcases hps.inside F (retains_lone hi hts hps hlater) x hx
          (fun hreg => hx₁ (hasGroup_registerAll.1 hreg)) with hmem | ⟨d, hd, hinside⟩
        · exact .inl (.inr hmem)
        · exact .inr ⟨d, List.mem_append_right _ hd, hinside⟩

end Slot

theorem makeSlot_made {typed : Option (List Description)} {lone : Option Description}
    (htyped : ∀ d ∈ typed.getD [], Makes s d) (hlone : ∀ d ∈ lone, Makes s d)
    (hnamed : ∀ d ∈ typed.getD [], d.typeName.isSome = true)
    (hgrows : Grows Nothing Nothing base h)
    (htidy : Tidy base h) (hi : h.HasItem i) (hfresh : ¬ base.HasItem i)
    (hslot : (h.item i).slot side = {}) :
    ∃ h', (makeSlot s side i typed lone).Builds h ⟨⟩ h' ∧
      MadeSlot base h h' side i (typed.getD []) lone := by
  obtain ⟨ts, h₁, hruns, hts⟩ := makeGroups_made htyped h hgrows htidy
  have hgrows₂ : Grows Nothing Nothing base (h₁.registerAll side i (ts.map BuiltGroup.group)) := by
    refine (hgrows.trans hts.grows (fun _ _ hg => hg) fun _ _ hi => hi).registerAll ?_ hfresh
    intro g hg hin
    obtain ⟨r, hr, rfl⟩ := List.mem_map.1 hg
    exact hts.fresh r hr (hgrows.hasGroup _ hin)
  obtain ⟨ps, h₃, hrun, hps⟩ := makePrimary_made side i hlone hgrows₂
    (hts.tidy.registerAll hfresh)
  refine ⟨_, ?_, madeSlot s.hierarchy hgrows hi hfresh hslot hnamed hts hps⟩
  unfold makeSlot
  rw [makeTyped_eq]
  exact hruns.bind ((Builds.edit _ h₁).bind (hrun.bind (Builds.linkSupers s _ _)))

/-- An item can be built: the groups of each slot can, and the typed ones have type names. -/
structure ItemReady (s : RestorationScope) (item : NestedDescription) : Prop where
  groups : ∀ side, ∀ d ∈ item.groups side, Makes s d
  named : ∀ side, ∀ d ∈ item.typed side, d.typeName.isSome = true

/-- A group is built for a slot of an item, or for one of what is nested in it. -/
def BuiltForItem (base F : Heap) (item : NestedDescription) (x : GroupId) : Prop :=
  ∃ side, (∃ t ts ps, SlotBuilt F (Built base F) t (item.typed side) (item.lone side) ts ps ∧
    x ∈ (ts ++ ps).map BuiltGroup.group) ∨ ∃ d ∈ item.groups side, BuiltInside base F d x

/-- An item has been built: nothing else has changed, and every later heap that retains it and what
has been built for it has it as described. -/
structure MadeItem (base h h' : Heap) (i : ItemId) (item : NestedDescription) : Prop where
  grows : Grows Nothing (· = i) h h'
  tidy : Tidy base h'
  name : (h'.item i).name = (h.item i).name
  built : ∀ F, Retains h.groups.size h.items.size Nothing h' F → Item.Same (F.item i) (h'.item i) →
    ∀ side, ∃ ts ps, SlotBuilt F (Built base F) ((F.item i).slot side) (item.typed side)
      (item.lone side) ts ps
  inside : ∀ F, Retains h.groups.size h.items.size Nothing h' F →
    ∀ x, h'.HasGroup x → ¬ h.HasGroup x → BuiltForItem base F item x

theorem SlotBuilt.same {F : Heap} {P : GroupId → Description → Prop} {t u : Slot}
    {typed : List Description} {lone : Option Description} {ts ps : List BuiltGroup}
    (hs : SlotBuilt F P t typed lone ts ps) (hut : Slot.Same u t) :
    SlotBuilt F P u typed lone ts ps :=
  { hs with
    filed := hut.typed.trans hs.filed
    primary := by rw [hut.primary, hs.primary, hut.typed] }

theorem makeItem_made {item : NestedDescription} (hready : ItemReady s item)
    (hgrows : Grows Nothing Nothing base h) (htidy : Tidy base h) (hi : h.HasItem i)
    (hfresh : ¬ base.HasItem i) (hempty : ∀ side, (h.item i).slot side = {}) :
    ∃ h', (makeItem s i item).Builds h ⟨⟩ h' ∧ MadeItem base h h' i item := by
  have htyped : ∀ side, ∀ d ∈ item.typed side, Makes s d := fun side d hd =>
    hready.groups side d (List.mem_append_left _ hd)
  have hlone : ∀ side, ∀ d ∈ item.lone side, Makes s d := fun side d hd =>
    hready.groups side d (List.mem_append_right _ (Option.mem_toList.2 hd))
  obtain ⟨h₁, hvalue, hmade⟩ := makeSlot_made (htyped .value) (hlone .value)
    (hready.named .value) hgrows htidy hi hfresh (hempty .value)
  obtain ⟨t, hitem, hbuilt⟩ := hmade.slot
  have hgrows₁ : Grows Nothing Nothing base h₁ :=
    hgrows.trans hmade.grows (fun _ _ hg => hg) fun j hj hji => hfresh (hji ▸ hj)
  obtain ⟨h₂, hkey, hmade'⟩ := makeSlot_made (htyped .key) (hlone .key)
    (hready.named .key) hgrows₁ hmade.tidy (hmade.grows.hasItem i hi) hfresh
    (show (h₁.item i).slot .key = {} by rw [hitem]; exact hempty .key)
  obtain ⟨u, hitem', hbuilt'⟩ := hmade'.slot
  have hfirst : ∀ F, Retains h.groups.size h.items.size Nothing h₂ F →
      Retains h.groups.size h.items.size Nothing h₁ F := by
    intro F hF
    have hlater : Retains h.groups.size h.items.size Nothing h₁ h₂ :=
      hmade'.grows.retains (fun _ _ _ hno => hno)
        fun j hm _ hji => absurd hi (Nat.not_lt.2 (hji ▸ hm))
    exact hlater.trans hF (Nat.le_refl _) (Nat.le_refl _) fun _ _ _ hno => hno
  have hsecond : ∀ F, Retains h.groups.size h.items.size Nothing h₂ F →
      Retains h₁.groups.size h₁.items.size Nothing h₂ F := fun F hF =>
    hF.mono hmade.grows.groups_le hmade.grows.items_le fun _ _ _ hno => hno
  refine ⟨h₂, ?_, ?_, hmade'.tidy, ?_, fun F hF hsame side => ?_, fun F hF x hx hno => ?_⟩
  · rw [makeItem_eq]
    exact hvalue.bind hkey
  · exact hmade.grows.trans hmade'.grows (fun _ _ hg => hg) fun _ _ hi => hi
  · rw [hitem', hitem]
    rfl
  · rw [hitem', hitem] at hsame
    have hslot := hsame.slot side
    cases side with
    | value =>
      obtain ⟨ts, ps, hs, -⟩ := hbuilt F (hfirst F hF)
      exact ⟨ts, ps, hs.same hslot⟩
    | key =>
      obtain ⟨ts, ps, hs, -⟩ := hbuilt' F (hsecond F hF)
      exact ⟨ts, ps, hs.same hslot⟩
  · by_cases hx₁ : h₁.HasGroup x
    · obtain ⟨ts, ps, hs, hinside⟩ := hbuilt F (hfirst F hF)
      exact ⟨.value, (hinside x hx₁ hno).imp_left fun hmem => ⟨t, ts, ps, hs, hmem⟩⟩
    · obtain ⟨ts, ps, hs, hinside⟩ := hbuilt' F (hsecond F hF)
      exact ⟨.key, (hinside x hx hx₁).imp_left fun hmem => ⟨u, ts, ps, hs, hmem⟩⟩

/-- The items of a group have been built: of the group only the items have changed, and every later
heap that retains what has been built has them as described. -/
structure MadeItems (base h h' : Heap) (y : GroupId) (fields : List (String × NestedDescription))
    (es : List (String × ItemId)) : Prop where
  grows : Grows (· = y) Nothing h h'
  tidy : Tidy base h'
  group : h'.group y = { h.group y with items := (h'.group y).items }
  entries : (h'.group y).items.entries = (h.group y).items.entries ++ es
  built : ∀ F, Retains h.groups.size h.items.size Nothing h' F →
    List.Forall₂ (fun a e => a.1 = e.1 ∧ ItemBuilt base F (Built base F) e.2 a.1 a.2) fields es
  inside : ∀ F, Retains h.groups.size h.items.size Nothing h' F →
    ∀ x, h'.HasGroup x → ¬ h.HasGroup x → ∃ a ∈ fields, BuiltForItem base F a.2 x

theorem ensureItem_of_none {y : GroupId} {n : String} (hn : (h.group y).items.find? n = none) :
    h.ensureItem y n = (⟨h.items.size⟩,
      (h.allocItem { name := n, owner := y }).2.alterGroup y fun x =>
        { x with items := x.items.insert n ⟨h.items.size⟩ }) := by
  unfold ensureItem
  rw [hn]
  rfl

theorem Grows.ensureItem (h : Heap) (y : GroupId) (n : String) :
    Grows (· = y) Nothing h (h.ensureItem y n).2 := by
  cases hn : (h.group y).items.find? n with
  | some i =>
    unfold Heap.ensureItem
    rw [hn]
    exact .refl h
  | none =>
    rw [ensureItem_of_none hn]
    refine Grows.alterGroup (Grows.allocItem (.refl h) _) ?_ _
    exact fun _ => rfl

theorem Tidy.ensureItem (ht : Tidy base h) (y : GroupId) (n : String) :
    Tidy base (h.ensureItem y n).2 := by
  cases hn : (h.group y).items.find? n with
  | some i =>
    unfold Heap.ensureItem
    rw [hn]
    exact ht
  | none =>
    rw [ensureItem_of_none hn]
    refine (ht.allocItem n y).alterGroup y ?_ ?_
    all_goals exact fun _ => rfl

theorem hasGroup_ensureItem {y x : GroupId} {n : String} :
    (h.ensureItem y n).2.HasGroup x ↔ h.HasGroup x := by
  cases hn : (h.group y).items.find? n with
  | some i =>
    unfold Heap.ensureItem
    rw [hn]
  | none =>
    rw [ensureItem_of_none hn]
    exact hasGroup_alterGroup

/-- An item that a group does not have yet is added behind the others, with empty slots. -/
theorem ensureItem_of_new {y : GroupId} {n : String} (hy : h.HasGroup y)
    (hn : (h.group y).items.find? n = none) :
    ¬ h.HasItem (h.ensureItem y n).1 ∧
      (h.ensureItem y n).2.item (h.ensureItem y n).1 = { name := n, owner := y } ∧
      (h.ensureItem y n).2.HasItem (h.ensureItem y n).1 ∧
      (h.ensureItem y n).2.group y =
        { h.group y with items := (h.group y).items.insert n (h.ensureItem y n).1 } := by
  rw [ensureItem_of_none hn]
  refine ⟨Nat.lt_irrefl _, ?_, hasItem_allocItem.2 (.inr rfl), ?_⟩
  · exact item_allocItem_self _
  · exact group_alterGroup_self hy _

/-- What an item holds is still there when the items behind it have been built. -/
theorem retains_behind {h h₁ h₂ h₃ F : Heap} {y : GroupId} (hy : h₁.HasGroup y)
    (hgroups : h.groups.size ≤ h₁.groups.size) (hitems : h.items.size ≤ h₁.items.size)
    (hmore : Grows (· = y) Nothing h₂ h₃)
    (hF : Retains h.groups.size h.items.size Nothing h₃ F) :
    Retains h₁.groups.size h₁.items.size Nothing h₂ F := by
  have hkept : Retains h₁.groups.size h₁.items.size Nothing h₂ h₃ :=
    hmore.retains (fun g hng _ hgy => absurd hy (Nat.not_lt.2 (hgy ▸ hng))) fun _ _ _ hno => hno
  exact hkept.trans hF hgroups hitems fun _ _ _ hno => hno

theorem makeItems_made {y : GroupId} (hfresh : ¬ base.HasGroup y) :
    ∀ (fields : List (String × NestedDescription)) (h : Heap), (∀ a ∈ fields, ItemReady s a.2) →
      Grows Nothing Nothing base h → Tidy base h → h.HasGroup y → (fields.map Prod.fst).Nodup →
      (∀ a ∈ fields, a.1 ∉ (h.group y).items.keys) →
      ∃ h' es, (makeItems s y fields).Builds h ⟨⟩ h' ∧ MadeItems base h h' y fields es := by
  intro fields
  induction fields with
  | nil =>
    intro h _ _ htidy _ _ _
    exact ⟨h, [], Builds.pure _ h, .refl h, htidy, rfl, (List.append_nil _).symm, fun _ _ => .nil,
      fun _ _ _ hin hno => absurd hin hno⟩
  | cons a fields ih =>
    intro h hready hgrows htidy hy hnames hnew
    obtain ⟨n, item⟩ := a
    rw [List.forall_mem_cons] at hready hnew
    rw [List.map_cons, List.nodup_cons] at hnames
    have hn : (h.group y).items.find? n = none := OrderedMap.find?_eq_none_iff.2 hnew.1
    obtain ⟨hnotIn, hitem₁, hin₁, hgroup₁⟩ := ensureItem_of_new hy hn
    have hensure := Builds.build (fun h => h.ensureItem y n) h
    have hgrows₁ := Grows.ensureItem h y n
    have htidy₁ := htidy.ensureItem y n
    have hsame₁ : ∀ x, (h.ensureItem y n).2.HasGroup x ↔ h.HasGroup x := fun x =>
      hasGroup_ensureItem
    generalize (h.ensureItem y n).1 = i at *
    generalize (h.ensureItem y n).2 = h₁ at *
    have hbase₁ : Grows Nothing Nothing base h₁ :=
      hgrows.trans hgrows₁ (fun g hg hgy => hfresh (hgy ▸ hg)) fun _ _ hno => hno
    have hnew₁ : ¬ base.HasItem i := fun hbase => hnotIn (hgrows.hasItem i hbase)
    obtain ⟨h₂, hrun, hmade⟩ := makeItem_made hready.1 hbase₁ htidy₁ hin₁ hnew₁
      (by rw [hitem₁]; exact fun side => by cases side <;> rfl)
    have hbase₂ : Grows Nothing Nothing base h₂ :=
      hbase₁.trans hmade.grows (fun _ _ hno => hno) fun j hj hji => hnew₁ (hji ▸ hj)
    have hgroup₂ : h₂.group y = h₁.group y :=
      hmade.grows.group y (hgrows₁.hasGroup y hy) fun hno => hno
    obtain ⟨h₃, es, hruns, hmore⟩ := ih h₂ hready.2 hbase₂ hmade.tidy
      (hmade.grows.hasGroup y (hgrows₁.hasGroup y hy)) hnames.2 (by
        intro a ha
        rw [hgroup₂, hgroup₁]
        show a.1 ∉ ((h.group y).items.insert n i).keys
        rw [OrderedMap.keys_insert, if_neg hnew.1, List.mem_append, List.mem_singleton, not_or]
        exact ⟨hnew.2 a ha, fun han => hnames.1 (List.mem_map.2 ⟨a, ha, han⟩)⟩)
    have hgrows₂ : Grows (· = y) Nothing h h₂ :=
      hgrows₁.trans hmade.grows (fun _ _ hno => hno.elim) fun j hj hji => hnotIn (hji ▸ hj)
    have hlater : ∀ F, Retains h.groups.size h.items.size Nothing h₃ F →
        Retains h₁.groups.size h₁.items.size Nothing h₂ F := fun F hF =>
      retains_behind (hgrows₁.hasGroup y hy) hgrows₁.groups_le hgrows₁.items_le hmore.grows hF
    have hlast : ∀ F, Retains h.groups.size h.items.size Nothing h₃ F →
        Retains h₂.groups.size h₂.items.size Nothing h₃ F := fun F hF =>
      hF.mono hgrows₂.groups_le hgrows₂.items_le fun _ _ _ hno => hno
    refine ⟨h₃, (n, i) :: es, hensure.bind (hrun.bind hruns), ?_, hmore.tidy, ?_, ?_,
      fun F hF => ?_, fun F hF x hx hno => ?_⟩
    · exact hgrows₂.trans hmore.grows (fun _ _ hgy => hgy) fun _ _ hno => hno
    · rw [hmore.group, hgroup₂, hgroup₁]
    · rw [hmore.entries, hgroup₂, hgroup₁]
      show OrderedMap.fileEntry n i (h.group y).items.entries ++ es = _
      rw [OrderedMap.fileEntry_of_not_mem i hnew.1, List.append_assoc]
      rfl
    · have hin₂ : h₂.HasItem i := hmade.grows.hasItem i hin₁
      have hsame : Item.Same (F.item i) (h₂.item i) := by
        rw [← hmore.grows.item i hin₂ fun hno => hno]
        exact hF.item i (Nat.le_of_not_lt hnotIn) (hmore.grows.hasItem i hin₂)
      have hname : (F.item i).name = n := by rw [hsame.name, hmade.name, hitem₁]
      exact .cons ⟨rfl, hnew₁, hF.hasItem i (hmore.grows.hasItem i hin₂), hname,
        hmade.built F (hlater F hF) hsame⟩ (hmore.built F (hlast F hF))
    · by_cases hx₂ : h₂.HasGroup x
      · exact ⟨(n, item), List.mem_cons_self, hmade.inside F (hlater F hF) x hx₂
          fun hx₁ => hno ((hsame₁ x).1 hx₁)⟩
      · obtain ⟨a, ha, hinside⟩ := hmore.inside F (hlast F hF) x hx hx₂
        exact ⟨a, List.mem_cons_of_mem _ ha, hinside⟩

/-- The group that a description starts with, before it has items. -/
def startGroup (h : Heap) (s : RestorationScope) (d : Description) : GroupId × Heap :=
  h.createGroup d.name none d.typeName (d.validated.getD false)
    (variantOfKind s (d.kind.getD .generic))

theorem makeGroup_eq (s : RestorationScope) (d : Description) :
    makeGroup s d = (do
      let g ← build fun h => h.startGroup s d
      makeItems s g d.fields
      return g) := by
  obtain ⟨name, typeName, superTypeName, validated, kind, attributes⟩ := d
  cases attributes <;> rfl

theorem group_startGroup (h : Heap) (s : RestorationScope) (d : Description) :
    (h.startGroup s d).2.group (h.startGroup s d).1 =
      { name := d.name, typeName := d.typeName, validated := d.validated.getD false
        variant := ⟨h.variants.size⟩ } := by
  refine (group_allocGroup_self _ _).trans ?_
  rw [Option.map_none, Option.or_none]

theorem kind_variantOfKind (s : RestorationScope) (k : Kind) : (variantOfKind s k).kind = k := by
  cases k <;> rfl

/-- **A group is built from a description** with different names whose items can be built. -/
theorem makes_of_ready {d : Description} (hnames : (d.fields.map Prod.fst).Nodup)
    (hready : ∀ a ∈ d.fields, ItemReady s a.2) : Makes s d := by
  intro base h hgrows htidy
  have hstart := Builds.build (fun h => h.startGroup s d) h
  have hgroup₁ := group_startGroup h s d
  have hvariant₁ : (h.startGroup s d).2.variant ⟨h.variants.size⟩ =
    variantOfKind s (d.kind.getD .generic) := variant_allocGroup_self _ _
  have hsize₁ : h.variants.size < (h.startGroup s d).2.variants.size := by
    show h.variants.size < (h.variants.push _).size
    rw [Array.size_push]
    exact Nat.lt_succ_self _
  have hindex : (h.startGroup s d).1.index = h.groups.size := rfl
  have hin₁ : (h.startGroup s d).2.HasGroup (h.startGroup s d).1 := hasGroup_allocGroup.2 (.inr rfl)
  have hstarted : ∀ x, (h.startGroup s d).2.HasGroup x ↔ h.HasGroup x ∨ x = (h.startGroup s d).1 :=
    fun x => hasGroup_allocGroup
  have hgrows₁ : Grows Nothing Nothing h (h.startGroup s d).2 := (Grows.refl h).allocGroup _ _
  have htidy₁ : Tidy base (h.startGroup s d).2 := htidy.allocGroup rfl _
  generalize (h.startGroup s d).1 = y at *
  generalize (h.startGroup s d).2 = h₁ at *
  have hnew : ¬ h.HasGroup y := fun hin => absurd hindex (Nat.ne_of_lt hin)
  have hfresh : ¬ base.HasGroup y := fun hbase => hnew (hgrows.hasGroup y hbase)
  obtain ⟨h₂, es, hrun, hmade⟩ := makeItems_made hfresh d.fields h₁ hready
    (hgrows.trans hgrows₁ (fun _ _ hno => hno) fun _ _ hno => hno) htidy₁ hin₁ hnames
    (by rw [hgroup₁]; exact fun a _ => List.not_mem_nil)
  have hin₂ := hmade.grows.hasGroup y hin₁
  have hgroup₂ := hmade.group
  have hentries := hmade.entries
  rw [hgroup₁] at hgroup₂ hentries
  have hitems₂ : ∀ F, Retains h.groups.size h.items.size (· = y) h₂ F →
      Retains h₁.groups.size h₁.items.size Nothing h₂ F := fun F hF =>
    hF.mono hgrows₁.groups_le hgrows₁.items_le fun g hng _ hgy =>
      absurd hin₁ (Nat.not_lt.2 (hgy ▸ hng))
  refine ⟨y, h₂, ?_, ?_, hmade.tidy, hindex, hin₂, ?_, ?_, ?_, fun F hF => ?_,
    fun F hF x hx hno => ?_⟩
  · rw [makeGroup_eq]
    exact hstart.bind (hrun.bind (Builds.pure y h₂))
  · exact hgrows₁.trans hmade.grows (fun g hg hgy => hnew (hgy ▸ hg)) fun _ _ hno => hno
  · rw [hgroup₂]
  · rw [hgroup₂]
  · rw [hgroup₂]
  · obtain ⟨hname, htypeName, hvalidated, hvariant, hitems⟩ :=
      Group.of_core (hF.core y (Nat.le_of_eq hindex.symm) hin₂)
    rw [hgroup₂] at hname htypeName hvalidated hvariant
    refine .intro (Built base F) (fun _ _ hz => hz) ⟨hfresh, hF.hasGroup y hin₂, hname, htypeName,
      hvalidated, ?_, ?_⟩
    · show (F.variant (F.group y).variant).kind = _
      rw [hvariant]
      show (F.variant ⟨h.variants.size⟩).kind = _
      rw [hF.variant ⟨h.variants.size⟩ (Nat.lt_of_lt_of_le hsize₁ hmade.grows.hasVariant),
        hmade.grows.variant ⟨h.variants.size⟩ hsize₁, hvariant₁, kind_variantOfKind]
    · rw [hitems, hentries]
      exact hmade.built F (hitems₂ F hF)
  · by_cases hxy : x = y
    · exact .inl hxy
    · obtain ⟨a, ha, side, hinside⟩ := hmade.inside F (hitems₂ F hF) x hx
        fun hx₁ => hno ((hstarted x).1 hx₁ |>.resolve_right hxy)
      rcases hinside with ⟨t, ts, ps, hs, hmem⟩ | ⟨e, he, hinside⟩
      · exact .inr (.slot ha hs hmem)
      · exact .inr (.nested ha he hinside)

end Steps

/-! ### Descriptions of groups can be built -/

section Recorded

variable {h : Heap} {s : Slot} {typed : List Description} {lone : Option Description}

/-- The typed groups of a slot have type names, and different ones. -/
structure SlotNamed (h : Heap) (s : Slot) : Prop where
  named : ∀ y ∈ s.typed, (h.group y).typeName.isSome = true
  distinct : (s.typed.map fun y => (h.group y).typeName).Nodup

/-- The groups that a slot files under their tags are different. -/
theorem nodup_typed (hfiled : s.Filed h.tag?) : s.typed.Nodup :=
  List.Nodup.of_map _ hfiled.distinguishes.distinct

theorem SlotStorable.slotNamed (hs : h.SlotStorable s) : h.SlotNamed s := by
  have hnamed : ∀ y ∈ s.typed, (h.group y).typeName.isSome = true := by
    intro y hy
    obtain ⟨k, hk⟩ := Slot.mem_typed_iff.1 hy
    exact (hs.filed k y hk).2
  refine ⟨hnamed, (nodup_typed fun k z hz => (hs.filed k z hz).1).map_on fun y hy z hz hyz => ?_⟩
  obtain ⟨n, hn⟩ := Option.isSome_iff_exists.1 (hnamed y hy)
  exact hs.distinct y (Slot.mem_groups.2 (.inr hy)) z (Slot.mem_groups.2 (.inr hz)) n hn (hyz ▸ hn)

theorem typedInOrder_perm (s : Slot) : (typedInOrder s).Perm s.typed := by
  unfold typedInOrder
  cases s.primary with
  | none => exact .refl _
  | some p =>
    by_cases hp : p ∈ s.typed
    · simp only [hp, if_true]
      exact (List.perm_cons_erase hp).symm
    · simp only [hp, if_false]
      exact .refl _

/-- The groups of a slot are described once each. -/
theorem SlotNamed.nodup_described (hs : h.SlotNamed s) : (describedGroups s).Nodup := by
  rw [describedGroups, List.nodup_append']
  refine ⟨(typedInOrder_perm s).nodup_iff.2 (hs.distinct.of_map _), Option.toList_nodup _, ?_⟩
  intro z hz hlone
  have hnot := (Option.filter_eq_some_iff.1 (Option.mem_toList.1 hlone)).2
  exact of_decide_eq_true hnot (mem_typedInOrder.1 hz)

/-- What has been built from typed groups with type names files groups with different ones. -/
theorem SlotBuilt.slotNamed {F : Heap} {P : GroupId → Description → Prop} {ts ps : List BuiltGroup}
    (hs : SlotBuilt F P s typed lone ts ps)
    (hnames : ∀ z e, P z e → (F.group z).typeName = e.typeName)
    (htyped : ∀ e ∈ typed, e.typeName.isSome = true) : F.SlotNamed s where
  named y hy := by
    rw [hs.filed] at hy
    obtain ⟨r, hr, rfl⟩ := List.mem_map.1 (mem_of_mem_filedGroups hy)
    obtain ⟨e, he, hre⟩ := exists_right_of_mem hs.typed hr
    rw [hnames r.group e hre.2]
    exact htyped e he
  distinct := by
    rw [hs.filed]
    exact F.nodup_typeName_filedGroups ts

/-- The descriptions of the typed groups of a slot name different types if the groups do. -/
theorem SlotNamed.distinguished (hs : h.SlotNamed s)
    (hrec : SlotRecorded h.Records s typed lone) : Distinguished typed := by
  constructor
  · intro d hd
    obtain ⟨y, hy, hyd⟩ := exists_left_of_mem hrec.typed hd
    rw [hyd.recorded.typeName]
    exact hs.named y (mem_typedInOrder.1 hy)
  · have hmap : (typedInOrder s).map (fun y => (h.group y).typeName) =
        typed.map Description.typeName :=
      map_eq_of_forall₂ (fun y d hyd => hyd.recorded.typeName.symm) hrec.typed
    rw [← hmap]
    exact ((typedInOrder_perm s).map _).nodup_iff.2 hs.distinct

end Recorded

/-- **What records a group that can be stored can be built.** -/
theorem Records.makes {h : Heap} {root : GroupId} (s : RestorationScope) (hstore : h.Storable root)
    {among : List GroupId} {g : GroupId} {d : Description} (hrec : h.Records among g d)
    (hg : h.Within root g) : Makes s d := by
  refine Records.induct (motive := fun _ g d => h.Within root g → Makes s d) ?_ hrec hg
  intro among g d hd hg
  refine makes_of_ready hd.nodup_names fun a ha => ?_
  obtain ⟨i, hi, hslots⟩ := hd.exists_item ha
  refine ⟨fun side e he => ?_, fun side => ?_⟩
  · rcases List.mem_append.1 he with he | he
    · obtain ⟨y, -, hgy, -, hmakes⟩ := exists_left_of_mem (hslots side).typed he
      exact hmakes (hg.tail hgy)
    · have hlone := Option.mem_toList.1 he
      obtain ⟨y, -, hgy, -, hmakes⟩ := exists_left_of_rel (hslots side).lone hlone
      exact hmakes (hg.tail hgy)
  · exact (((hstore.group g hg).slots i (mem_itemIds_of_find? hi) side).slotNamed.distinguished
      ((hslots side).mono fun _ _ _ hy => hy.2.1)).1

/-- **A description that can be built is built beside what the heap holds.** -/
theorem exists_made {d : Description} (hd : ∀ s, Makes s d) (h : Heap) (hierarchy : Hierarchy) :
    ∃ y F ds, h.restoreDescription d hierarchy = (y, ⟨F, ds⟩) ∧ Grows Nothing Nothing h F ∧
      Made h h.allocCopyRegistry.2 F y d := by
  have hgrows : Grows Nothing Nothing h h.allocCopyRegistry.2 := { Grows.refl h with }
  have htidy : Tidy h h.allocCopyRegistry.2 := { Tidy.refl h with }
  obtain ⟨y, F, hrun, hmade⟩ := hd ⟨hierarchy, h.allocCopyRegistry.1⟩ h _ hgrows htidy
  obtain ⟨ds, hrun⟩ := hrun []
  exact ⟨y, F, ds, hrun, hgrows.trans hmade.grows (fun _ _ hno => hno) fun _ _ hno => hno, hmade⟩

end Heap

end AttributeGraph
