/-
A group beside the one restored from its description.

Two groups are `Mates` if the same way leads to them from the two roots: through
attributes of the same name, and in every slot to the group of the same type
name.  This does not mention descriptions.  That one description records the
first group and has been built into the second follows step by step on the way
(`Mates.twins`), since in a slot that can be stored no two groups have the same
type name.

So everything the slots keep by different means comes together again in one
relation: the primary group, the order of the typed ones, their keys and the
super groups.  Where mates have the same types and the restored items file their
groups under the tags that these have, it is a simulation, so mates are equal.
-/
import AttributeGraph.Proofs.Building
import AttributeGraph.Proofs.Equality
import AttributeGraph.Proofs.Resolving

namespace AttributeGraph.Heap

variable {h F : Heap} {s t : Slot} {ts ps : List BuiltGroup} {x z : GroupId}

/-! ### Restored slots -/

/-- One description records a group and has been built into another one. -/
def Twins (h F : Heap) (among : List GroupId) (x z : GroupId) : Prop :=
  ∃ d, h.Records among x d ∧ Built h F z d

/-- A group of a slot has been restored, and its super type is noted. -/
structure Restored (h F : Heap) (among : List GroupId) (x : GroupId) (r : BuiltGroup) : Prop where
  twins : Twins h F among x r.group
  super : r.superTypeName = h.siblingTypeName among x

/-- The groups of a slot have been restored into another slot, one by one. -/
structure SlotRestored (h F : Heap) (s t : Slot) (ts ps : List BuiltGroup) : Prop where
  typed : List.Forall₂ (Restored h F (siblings s)) (typedInOrder s) ts
  lone : List.Forall₂ (Restored h F (siblings s)) (lonePrimary s).toList ps
  filed : t.typed = ts.map BuiltGroup.group
  primary : t.primary = (ps.head?.map BuiltGroup.group).or t.typed.head?
  above : ∀ r ∈ ts ++ ps, (F.group r.group).above = F.superAmong (ts ++ ps) r
  below : ∀ r ∈ ts ++ ps, ∀ w ∈ (F.group r.group).subs, w ∈ (ts ++ ps).map BuiltGroup.group

/-- Groups of two slots that have the same type name. -/
structure Alike (h F : Heap) (s t : Slot) (x z : GroupId) : Prop where
  left : x ∈ s.groups
  right : z ∈ t.groups
  typeName : (h.group x).typeName = (F.group z).typeName

theorem Twins.typeName {among : List GroupId} (hxz : Twins h F among x z) :
    (h.group x).typeName = (F.group z).typeName := by
  obtain ⟨d, hrec, hbuilt⟩ := hxz
  rw [hbuilt.group.typeName, hrec.recorded.typeName]

/-- What records a slot and has been built into another one restores it. -/
theorem slotRestored {typed : List Description} {lone : Option Description}
    (hs : h.SlotNamed s) (hrec : SlotRecorded h.Records s typed lone)
    (hbuilt : SlotBuilt F (Built h F) t typed lone ts ps) : SlotRestored h F s t ts ps := by
  have hpair : ∀ x r, (∃ d, h.Records (siblings s) x d ∧ BuiltFrom (Built h F) r d) →
      Restored h F (siblings s) x r := by
    intro x r hr
    obtain ⟨d, hx, hr⟩ := hr
    exact ⟨⟨d, hx, hr.2⟩, hr.1.trans hx.recorded.super⟩
  exact ⟨(forall₂_join hrec.typed hbuilt.typed).imp hpair,
    (forall₂_join (forall₂_toList hrec.lone) hbuilt.lone).imp hpair,
    hbuilt.filed_of_distinguished (fun _ _ hz => hz.group.typeName) (hs.distinguished hrec),
    hbuilt.primary, hbuilt.above, hbuilt.below⟩

/-- No two groups of a slot that can be stored have the same type name, or both none. -/
theorem SlotStorable.eq_of_typeName (hs : h.SlotStorable s) {x y : GroupId} (hx : x ∈ s.groups)
    (hy : y ∈ s.groups) (hxy : (h.group x).typeName = (h.group y).typeName) : x = y := by
  cases hn : (h.group x).typeName with
  | some n => exact hs.distinct x hx y hy n hn (hxy ▸ hn)
  | none =>
    -- a typed group has a type name, so both are the primary group
    have hprimary : ∀ w ∈ s.groups, (h.group w).typeName = none → s.primary = some w := by
      intro w hw hnone
      refine (Slot.mem_groups.1 hw).resolve_right fun htyped => ?_
      obtain ⟨k, hk⟩ := Slot.mem_typed_iff.1 htyped
      have hsome := (hs.filed k w hk).2
      rw [hnone] at hsome
      cases hsome
    have hsame := (hprimary x hx hn).symm.trans (hprimary y hy (hxy ▸ hn))
    exact Option.some.inj hsame

namespace SlotRestored

variable (hst : SlotRestored h F s t ts ps)

include hst

theorem exists_typed_right (hx : x ∈ s.typed) : ∃ r ∈ ts, Restored h F (siblings s) x r :=
  exists_right_of_mem hst.typed (mem_typedInOrder.2 hx)

theorem exists_typed_left (hz : z ∈ t.typed) :
    ∃ x ∈ s.typed, ∃ r ∈ ts, r.group = z ∧ Restored h F (siblings s) x r := by
  rw [hst.filed] at hz
  obtain ⟨r, hr, rfl⟩ := List.mem_map.1 hz
  obtain ⟨x, hx, hxr⟩ := exists_left_of_mem hst.typed hr
  exact ⟨x, mem_typedInOrder.1 hx, r, hr, rfl, hxr⟩

theorem mem_groups : z ∈ t.groups ↔ z ∈ (ts ++ ps).map BuiltGroup.group := by
  rw [mem_groups_of_put hst.primary (eq_head?_of_forall₂ hst.lone), hst.filed, List.map_append,
    List.mem_append]

/-- Every group of the slot that has been restored is a group of the new slot. -/
theorem group_mem {r : BuiltGroup} (hr : r ∈ ts ++ ps) : r.group ∈ t.groups :=
  hst.mem_groups.2 (List.mem_map_of_mem hr)

theorem exists_right (hx : x ∈ s.groups) : ∃ r ∈ ts ++ ps, Restored h F (siblings s) x r := by
  by_cases htyped : x ∈ s.typed
  · obtain ⟨r, hr, hxr⟩ := hst.exists_typed_right htyped
    exact ⟨r, List.mem_append_left ps hr, hxr⟩
  · have hprimary := (Slot.mem_groups.1 hx).resolve_right htyped
    have hlone : lonePrimary s = some x := by
      rw [lonePrimary, hprimary, Option.filter_some, if_pos (by simpa using htyped)]
    obtain ⟨r, hr, hxr⟩ := exists_right_of_mem hst.lone (Option.mem_toList.2 hlone)
    exact ⟨r, List.mem_append_right ts hr, hxr⟩

theorem exists_left (hz : z ∈ t.groups) :
    ∃ x ∈ s.groups, ∃ r ∈ ts ++ ps, r.group = z ∧ Restored h F (siblings s) x r := by
  obtain ⟨r, hr, rfl⟩ := List.mem_map.1 (hst.mem_groups.1 hz)
  rcases List.mem_append.1 hr with hts | hps
  · obtain ⟨x, hx, hxr⟩ := exists_left_of_mem hst.typed hts
    exact ⟨x, Slot.mem_groups.2 (.inr (mem_typedInOrder.1 hx)), r, hr, rfl, hxr⟩
  · obtain ⟨x, hx, hxr⟩ := exists_left_of_mem hst.lone hps
    exact ⟨x, mem_groups_of_lonePrimary (Option.mem_toList.1 hx), r, hr, rfl, hxr⟩

/-- A group and what has been restored from it have the same type name. -/
theorem alike {r : BuiltGroup} (hx : x ∈ s.groups) (hr : r ∈ ts ++ ps)
    (hxr : Restored h F (siblings s) x r) : Alike h F s t x r.group :=
  ⟨hx, hst.group_mem hr, hxr.twins.typeName⟩

/-- **Groups of the same type name have been restored one from the other.** -/
theorem restored_of_alike (hs : h.SlotStorable s) (hxz : Alike h F s t x z) :
    ∃ r ∈ ts ++ ps, r.group = z ∧ Restored h F (siblings s) x r := by
  obtain ⟨y, hy, r, hr, rfl, hyr⟩ := hst.exists_left hxz.right
  have hyx : y = x := hs.eq_of_typeName hy hxz.left (hyr.twins.typeName.trans hxz.typeName.symm)
  exact ⟨r, hr, rfl, hyx ▸ hyr⟩

theorem primary_alike (hrooted : s.Rooted) : Option.Rel (Alike h F s t) s.primary t.primary := by
  cases hp : s.primary with
  | none =>
    have htyped : s.typed = [] := by
      by_contra hne
      have hsome := hrooted hne
      rw [hp] at hsome
      cases hsome
    have hts := hst.typed
    have hps := hst.lone
    rw [typedInOrder, hp, htyped] at hts
    rw [lonePrimary, hp] at hps
    rw [hst.primary, hst.filed, List.forall₂_nil_left_iff.1 hts, List.forall₂_nil_left_iff.1 hps]
    exact .none
  | some p =>
    have hmem : p ∈ s.groups := Slot.mem_groups.2 (.inl hp)
    by_cases htyped : p ∈ s.typed
    · -- a typed primary group is described first, so it is the first one registered
      have hts := hst.typed
      have hps := hst.lone
      simp only [typedInOrder, hp, htyped, if_true] at hts
      rw [lonePrimary, hp, Option.filter_some, if_neg (by simpa using htyped)] at hps
      obtain ⟨r, rest, hpr, -, hcons⟩ := List.forall₂_cons_left_iff.1 hts
      rw [hst.primary, hst.filed, List.forall₂_nil_left_iff.1 hps, hcons]
      exact .some (hst.alike hmem (List.mem_append_left ps (hcons ▸ List.mem_cons_self)) hpr)
    · have hps := hst.lone
      rw [lonePrimary, hp, Option.filter_some, if_pos (by simpa using htyped)] at hps
      obtain ⟨r, rest, hpr, -, hcons⟩ := List.forall₂_cons_left_iff.1 hps
      rw [hst.primary, hcons]
      exact .some (hst.alike hmem (List.mem_append_right ts (hcons ▸ List.mem_cons_self)) hpr)

/-- Where groups of the same type name have the same tag, both slots file them under it. -/
theorem typed_alike (hs : h.SlotStorable s) (hfiled : t.Filed F.tag?)
    (htags : ∀ x z, Alike h F s t x z → F.tag? z = h.tag? x) (k : TypeTag) :
    Option.Rel (Alike h F s t) (s.find? k) (t.find? k) := by
  have hforth : ∀ x, s.find? k = some x → ∃ z, t.find? k = some z ∧ Alike h F s t x z := by
    intro x hx
    obtain ⟨r, hr, hxr⟩ := hst.exists_typed_right (Slot.mem_typed_iff.2 ⟨k, hx⟩)
    have hxz := hst.alike (Slot.mem_groups_of_find? hx) (List.mem_append_left ps hr) hxr
    have htyped : r.group ∈ t.typed := by
      rw [hst.filed]
      exact List.mem_map_of_mem hr
    obtain ⟨l, hl⟩ := Slot.mem_typed_iff.1 htyped
    have htag := (hfiled l _ hl).symm.trans ((htags x _ hxz).trans (hs.filed k x hx).1)
    exact ⟨r.group, Option.some.inj htag ▸ hl, hxz⟩
  have hback : ∀ z, t.find? k = some z → ∃ x, s.find? k = some x := by
    intro z hz
    obtain ⟨x, hx, r, hr, rfl, hxr⟩ := hst.exists_typed_left (Slot.mem_typed_iff.2 ⟨k, hz⟩)
    have hxz := hst.alike (Slot.mem_groups.2 (.inr hx)) (List.mem_append_left ps hr) hxr
    obtain ⟨l, hl⟩ := Slot.mem_typed_iff.1 hx
    have htag := (hs.filed l x hl).1.symm.trans ((htags x _ hxz).symm.trans (hfiled k _ hz))
    exact ⟨x, Option.some.inj htag ▸ hl⟩
  cases hx : s.find? k with
  | some x =>
    obtain ⟨z, hz, hxz⟩ := hforth x hx
    rw [hz]
    exact .some hxz
  | none =>
    cases hz : t.find? k with
    | none => exact .none
    | some z =>
      obtain ⟨x, hx'⟩ := hback z hz
      rw [hx] at hx'
      cases hx'

/-- The super groups of groups of the same type name have the same type name. -/
theorem above_alike (hs : h.SlotStorable s) (hxz : Alike h F s t x z) :
    Option.Rel (Alike h F s t) (h.group x).above (F.group z).above := by
  obtain ⟨r, hr, rfl, hxr⟩ := hst.restored_of_alike hs hxz
  rw [hst.above r hr]
  unfold superAmong
  rw [hxr.super]
  unfold siblingTypeName
  cases hp : (h.group x).above with
  | none => exact .none
  | some p =>
    obtain ⟨hmem, hne, hnamed⟩ := hs.super x hxz.left p hp
    obtain ⟨n, hn⟩ := Option.isSome_iff_exists.1 hnamed
    obtain ⟨q, hq, hpq⟩ := hst.exists_right hmem
    have hqn : (F.group q.group).typeName = some n := hpq.twins.typeName ▸ hn
    have hqr : q.group ≠ r.group := by
      intro hqr
      refine hne (hs.eq_of_typeName hmem hxz.left ?_)
      rw [hpq.twins.typeName, hqr, hxr.twins.typeName]
    rw [Option.filter_some, if_pos (by simpa using mem_siblings.2 hmem), Option.bind_some, hn,
      Option.bind_some]
    -- there is a candidate, so one is found, and it has the type name of the super group
    have hfound : ((ts ++ ps).find? fun c =>
        c.group ≠ r.group && (F.group c.group).typeName = some n).isSome = true := by
      rw [List.find?_isSome]
      exact ⟨q, hq, by simpa using ⟨hqr, hqn⟩⟩
    obtain ⟨c, hc⟩ := Option.isSome_iff_exists.1 hfound
    have hcn := List.find?_some hc
    simp only [Bool.and_eq_true, decide_eq_true_eq] at hcn
    rw [hc]
    exact .some ⟨hmem, hst.group_mem (List.mem_of_find?_eq_some hc), hn.trans hcn.2.symm⟩

/-- Sub groups of a restored group are groups of its slot. -/
theorem exists_alike_below (hz : z ∈ t.groups) {w : GroupId} (hw : w ∈ (F.group z).subs) :
    ∃ x, Alike h F s t x w := by
  obtain ⟨-, -, r, hr, rfl, -⟩ := hst.exists_left hz
  obtain ⟨q, hq, rfl⟩ := List.mem_map.1 (hst.below r hr w hw)
  obtain ⟨x, hx, q', hq', hqq', hxq⟩ := hst.exists_left (hst.group_mem hq)
  exact ⟨x, hqq' ▸ hst.alike hx hq' hxq⟩

end SlotRestored

/-! ### Mates -/

/-- Two groups lie below two roots under attributes of the same names, and in every slot on the way
the groups have the same type name. -/
inductive Mates (h F : Heap) (g y : GroupId) : GroupId → GroupId → Prop
  | root : Mates h F g y g y
  | nested {x z x' z' : GroupId} {n : String} {i j : ItemId} (side : Side) (hxz : Mates h F g y x z)
      (hi : (h.group x).items.find? n = some i) (hj : (F.group z).items.find? n = some j)
      (halike : Alike h F ((h.item i).slot side) ((F.item j).slot side) x' z') :
      Mates h F g y x' z'

/-- The groups of an item have been restored into a new item. -/
structure ItemRestored (h F : Heap) (n : String) (i j : ItemId) : Prop where
  fresh : ¬ h.HasItem j
  name : (F.item j).name = n
  slots : ∀ side, ∃ ts ps, SlotRestored h F ((h.item i).slot side) ((F.item j).slot side) ts ps

/-- A group and the one built from its description declare the same attributes, and the items of the
second are built from what records those of the first. -/
theorem rel_items {base : Heap} {P : List GroupId → GroupId → Description → Prop}
    {Q : GroupId → Description → Prop} {among : List GroupId} {d : Description}
    (hx : h.GroupRecorded P among x d) (hz : GroupBuilt base F Q z d) (n : String) :
    Option.Rel (fun i j => i ∈ (h.group x).itemIds ∧ ∃ item, ItemBuilt base F Q j n item ∧
        ∀ side, SlotRecorded P ((h.item i).slot side) (item.typed side) (item.lone side))
      ((h.group x).items.find? n) ((F.group z).items.find? n) := by
  cases hi : (h.group x).items.find? n with
  | some i =>
    have hname : n ∈ d.fields.map Prod.fst := hx.names.mem_iff.2 (OrderedMap.mem_keys_of_find? hi)
    obtain ⟨a, ha, rfl⟩ := List.mem_map.1 hname
    obtain ⟨e, he, hae, hitem⟩ := exists_right_of_mem hz.items ha
    rw [hae, OrderedMap.find?_eq_some_iff.2 he]
    exact .some ⟨mem_itemIds_of_find? hi, a.2, hae ▸ hitem, hx.slots a.1 a.2 i ha hi⟩
  | none =>
    cases hj : (F.group z).items.find? n with
    | none => exact .none
    | some j =>
      obtain ⟨a, ha, rfl, -⟩ := hz.exists_field hj
      obtain ⟨i, hi', -⟩ := hx.exists_item ha
      rw [hi] at hi'
      cases hi'

/-- Groups that have a description in common declare the same attributes, with restored items. -/
theorem Twins.items {among : List GroupId} (hxz : Twins h F among x z)
    (hnamed : ∀ i ∈ (h.group x).itemIds, ∀ side, h.SlotNamed ((h.item i).slot side)) (n : String) :
    Option.Rel (ItemRestored h F n) ((h.group x).items.find? n) ((F.group z).items.find? n) := by
  obtain ⟨d, hrec, hbuilt⟩ := hxz
  refine rel_mono (fun i j hij => ?_) (rel_items hrec.recorded hbuilt.group n)
  obtain ⟨hi, item, hitem, hslots⟩ := hij
  refine ⟨hitem.fresh, hitem.name, fun side => ?_⟩
  obtain ⟨ts, ps, hs⟩ := hitem.slots side
  exact ⟨ts, ps, slotRestored (hnamed i hi side) (hslots side) hs⟩

theorem Twins.slot {among : List GroupId} (hxz : Twins h F among x z)
    (hnamed : ∀ i ∈ (h.group x).itemIds, ∀ side, h.SlotNamed ((h.item i).slot side))
    {n : String} {i j : ItemId} (hi : (h.group x).items.find? n = some i)
    (hj : (F.group z).items.find? n = some j) (side : Side) :
    ∃ ts ps, SlotRestored h F ((h.item i).slot side) ((F.item j).slot side) ts ps := by
  have hitem := hxz.items hnamed n
  rw [hi, hj, rel_some_iff] at hitem
  exact hitem.slots side

theorem Twins.surface {among : List GroupId} (hxz : Twins h F among x z) :
    (F.group z).name = (h.group x).name ∧ (F.group z).typeName = (h.group x).typeName ∧
      (F.group z).validated = (h.group x).validated ∧
      (F.variantOf z).kind = (h.variantOf x).kind := by
  obtain ⟨d, hrec, hbuilt⟩ := hxz
  have hd := hrec.recorded
  have hz := hbuilt.group
  exact ⟨hz.name.trans hd.name, hz.typeName.trans hd.typeName, hz.validated.trans hd.validated,
    hz.kind.trans hd.kind⟩

namespace Mates

variable {g y : GroupId}

/-- The first of two mates lies in the tree below the first root. -/
theorem within (hxz : Mates h F g y x z) : h.Within g x := by
  induction hxz with
  | root => exact .refl
  | nested side _ hi _ halike ih => exact ih.tail ⟨side, mem_itemIds_of_find? hi, halike.left⟩

section Storable

variable (hstore : h.Storable g) (hroot : Twins h F [] g y)

include hstore

/-- The slots of mates can be stored. -/
theorem slotStorable (hxz : Mates h F g y x z) {n : String} {i : ItemId}
    (hi : (h.group x).items.find? n = some i) (side : Side) :
    h.SlotStorable ((h.item i).slot side) :=
  (hstore.group x hxz.within).slots i (mem_itemIds_of_find? hi) side

theorem slotNamed (hxz : Mates h F g y x z) :
    ∀ i ∈ (h.group x).itemIds, ∀ side, h.SlotNamed ((h.item i).slot side) :=
  fun i hi side => ((hstore.group x hxz.within).slots i hi side).slotNamed

include hroot

/-- **Mates have a description in common.** -/
theorem twins (hxz : Mates h F g y x z) : ∃ among, Twins h F among x z := by
  induction hxz with
  | root => exact ⟨[], hroot⟩
  | nested side hxz hi hj halike ih =>
    obtain ⟨among, htwins⟩ := ih
    obtain ⟨ts, ps, hst⟩ := htwins.slot (hxz.slotNamed hstore) hi hj side
    obtain ⟨r, -, rfl, hr⟩ := hst.restored_of_alike (hxz.slotStorable hstore hi side) halike
    exact ⟨_, hr.twins⟩

/-- Mates declare the same attributes. -/
theorem items (hxz : Mates h F g y x z) (n : String) :
    Option.Rel (ItemRestored h F n) ((h.group x).items.find? n) ((F.group z).items.find? n) := by
  obtain ⟨among, htwins⟩ := hxz.twins hstore hroot
  exact htwins.items (hxz.slotNamed hstore) n

/-- Every item of the second of two mates belongs to an item of the first. -/
theorem exists_item (hxz : Mates h F g y x z) {j : ItemId} (hj : j ∈ (F.group z).itemIds) :
    ∃ n i, (h.group x).items.find? n = some i ∧ (F.group z).items.find? n = some j ∧
      ItemRestored h F n i j := by
  obtain ⟨n, hj⟩ := OrderedMap.mem_values.1 hj
  obtain ⟨i, hi, hij⟩ := exists_left_of_rel (hxz.items hstore hroot n) hj
  exact ⟨n, i, hi, hj, hij⟩

/-- The super groups of mates are mates. -/
theorem above (hg : (h.group g).above = none) (hy : (F.group y).above = none)
    (hxz : Mates h F g y x z) :
    Option.Rel (Mates h F g y) (h.group x).above (F.group z).above := by
  cases hxz with
  | root =>
    rw [hg, hy]
    exact .none
  | nested side hxz hi hj halike =>
    obtain ⟨among, htwins⟩ := hxz.twins hstore hroot
    obtain ⟨ts, ps, hst⟩ := htwins.slot (hxz.slotNamed hstore) hi hj side
    exact rel_mono (fun _ _ => .nested side hxz hi hj)
      (hst.above_alike (hxz.slotStorable hstore hi side) halike)

/-- Where resolving leads from the second of two mates, there are mates again. -/
theorem exists_mate (hg : (h.group g).above = none) (hy : (F.group y).above = none)
    (hyb : (F.group y).below = none) (hxz : Mates h F g y x z) {w : GroupId}
    (hw : F.Leads z w) : ∃ v, Mates h F g y v w := by
  cases hw with
  | above hw =>
    obtain ⟨v, -, hvw⟩ := exists_left_of_rel (hxz.above hstore hroot hg hy) hw
    exact ⟨v, hvw⟩
  | below hw =>
    cases hxz with
    | root =>
      rw [Group.subs, hyb] at hw
      exact absurd hw List.not_mem_nil
    | nested side hxz hi hj halike =>
      obtain ⟨among, htwins⟩ := hxz.twins hstore hroot
      obtain ⟨ts, ps, hst⟩ := htwins.slot (hxz.slotNamed hstore) hi hj side
      obtain ⟨v, hv⟩ := hst.exists_alike_below halike.right hw
      exact ⟨v, .nested side hxz hi hj hv⟩
  | nested hw =>
    obtain ⟨side, hj, hw⟩ := hw
    obtain ⟨n, i, hi, hj, hij⟩ := hxz.exists_item hstore hroot hj
    obtain ⟨ts, ps, hst⟩ := hij.slots side
    obtain ⟨v, hv, r, hr, rfl, hvr⟩ := hst.exists_left hw
    exact ⟨v, .nested side hxz hi hj (hst.alike hv hr hvr)⟩

end Storable

end Mates

/-! ### Mates are equal -/

/-- A group has been restored in a heap and is finished: mates have the same types, and restored
items file their groups under the tags that these have. -/
structure Finished (h F : Heap) (g y : GroupId) : Prop where
  grows : Grows Nothing Nothing h F
  root : Twins h F [] g y
  above : (F.group y).above = none
  types : ∀ x z, Mates h F g y x z → (F.group z).type = (h.group x).type
  filed : ∀ x z, Mates h F g y x z → ∀ j ∈ (F.group z).itemIds, ∀ side,
    ((F.item j).slot side).Filed F.tag?

/-- The same way leads from two groups to two others: through attributes of the same name to groups
in the same place of a slot, and to super groups. -/
inductive Corresponds (F : Heap) (a b : GroupId) : GroupId → GroupId → Prop
  | start : Corresponds F a b a b
  | slot {x z x' z' : GroupId} {n : String} {i j : ItemId} (side : Side) (k : Option TypeTag)
      (hxz : Corresponds F a b x z) (hi : (F.group x).items.find? n = some i)
      (hj : (F.group z).items.find? n = some j) (hx : ((F.item i).slot side).get? k = some x')
      (hz : ((F.item j).slot side).get? k = some z') : Corresponds F a b x' z'
  | above {x z x' z' : GroupId} (hxz : Corresponds F a b x z) (hx : (F.group x).above = some x')
      (hz : (F.group z).above = some z') : Corresponds F a b x' z'

namespace Finished

variable {g y : GroupId} (hwf : h.WellFormedBelow g) (hg : (h.group g).above = none)
  (hstore : h.Storable g) (hF : Finished h F g y)

include hwf hstore hF

/-- The slots of restored items match those of the recorded ones. -/
theorem slotsMatch (hxz : Mates h F g y x z) {n : String} {i j : ItemId}
    (hi : (h.group x).items.find? n = some i) (hj : (F.group z).items.find? n = some j)
    (side : Side) :
    SlotsMatch (Mates h F g y) ((F.item i).slot side) ((F.item j).slot side) := by
  obtain ⟨among, htwins⟩ := hxz.twins hstore hF.root
  obtain ⟨ts, ps, hst⟩ := htwins.slot (hxz.slotNamed hstore) hi hj side
  have hitem : F.item i = h.item i := by
    have hclosed := hwf.closed x hxz.within
    exact hF.grows.item i (hclosed.items i (mem_itemIds_of_find? hi)) fun hno => hno
  have htags : ∀ x' z', Alike h F ((h.item i).slot side) ((F.item j).slot side) x' z' →
      F.tag? z' = h.tag? x' := by
    intro x' z' halike
    unfold tag? Group.tag?
    rw [hF.types x' z' (.nested side hxz hi hj halike), halike.typeName]
  have hrooted := hwf.rooted x hxz.within i (mem_itemIds_of_find? hi) side
  rw [hitem]
  refine ⟨rel_mono (fun _ _ => .nested side hxz hi hj) (hst.primary_alike hrooted),
    fun k => rel_mono (fun _ _ => .nested side hxz hi hj) ?_⟩
  exact hst.typed_alike (hxz.slotStorable hstore hi side)
    (hF.filed x z hxz j (mem_itemIds_of_find? hj) side) htags k

include hg

/-- **Mates match through mates.** -/
theorem groupsMatch (hxz : Mates h F g y x z) :
    F.GroupsMatch (Mates h F g y) x z ∧ F.SameNames x z := by
  have hgroup : F.group x = h.group x :=
    hF.grows.group x (hwf.hasGroup x hxz.within) fun hno => hno
  refine ⟨⟨fun n => ?_, ?_⟩, fun n i j hi hj => ?_⟩
  · rw [hgroup]
    refine rel_mono (fun i j hij => ?_) (rel_and (hxz.items hstore hF.root n) (fun i hi => hi)
      fun j hj => hj)
    obtain ⟨-, hi, hj⟩ := hij
    exact ⟨hF.slotsMatch hwf hstore hxz hi hj .value,
      hF.slotsMatch hwf hstore hxz hi hj .key⟩
  · rw [hgroup]
    exact hxz.above hstore hF.root hg hF.above
  · rw [hgroup] at hi
    have hitem := hxz.items hstore hF.root n
    rw [hi, hj, rel_some_iff] at hitem
    have hkept : F.item i = h.item i := by
      have hclosed := hwf.closed x hxz.within
      exact hF.grows.item i (hclosed.items i (mem_itemIds_of_find? hi)) fun hno => hno
    rw [hitem.name, hkept, hwf.named x hxz.within n i hi]

/-- **What has been restored is equal to what was described.** -/
theorem equal : F.groupsAgree (some y) (some g) = true := by
  have hsim : F.Simulation fun z x => Mates h F g y x z := by
    intro z x hxz
    obtain ⟨hmatch, hnames⟩ := hF.groupsMatch hwf hg hstore hxz
    exact obligations_iff.2 ⟨hmatch.swap.mono fun _ _ => .single,
      fun n j i hj hi => (hnames n i j hi hj).symm⟩
  refine meets_of_simulation hsim (fun z x hxz => ⟨?_, ?_⟩)
    (List.forall_mem_singleton.2 (.some (.single .root)))
  · obtain ⟨among, d, -, hbuilt⟩ := hxz.twins hstore hF.root
    exact hbuilt.group.inHeap
  · exact hF.grows.hasGroup x (hwf.hasGroup x hxz.within)

/-- Corresponding groups are mates. -/
theorem mates (hxz : Corresponds F g y x z) : Mates h F g y x z := by
  induction hxz with
  | start => exact .root
  | slot side k _ hi hj hx hz ih =>
    have hgroup := hF.grows.group _ (hwf.hasGroup _ ih.within) fun hno => hno
    rw [hgroup] at hi
    have hplace := (hF.slotsMatch hwf hstore ih hi hj side).get? k
    rw [hx, hz, rel_some_iff] at hplace
    exact hplace
  | above _ hx hz ih =>
    have habove := (hF.groupsMatch hwf hg hstore ih).1.above
    rw [hx, hz, rel_some_iff] at habove
    exact habove

/-- Corresponding groups have the same name, type name, flag and kind. -/
theorem surface (hxz : Corresponds F g y x z) :
    (F.group z).name = (F.group x).name ∧ (F.group z).typeName = (F.group x).typeName ∧
      (F.group z).validated = (F.group x).validated ∧
      (F.variantOf z).kind = (F.variantOf x).kind := by
  have hmates := hF.mates hwf hg hstore hxz
  have hx := hwf.hasGroup x hmates.within
  obtain ⟨among, htwins⟩ := hmates.twins hstore hF.root
  have hgroup : F.group x = h.group x := hF.grows.group x hx fun hno => hno
  have hvariant : F.variantOf x = h.variantOf x :=
    hF.grows.variantOf (hwf.closed x hmates.within).variant (by rw [hgroup])
  rw [hgroup, hvariant]
  exact htwins.surface

end Finished

end AttributeGraph.Heap
