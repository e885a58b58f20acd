/-
Paths that saving and restoring keep.

A description names the super group of a group by its type, and only where it is
a group of the same slot.  Restoring links the group below the first other one
that has the type.  So a slot is `SlotKept` if every super group is the first one
that is found in it under its type name.  That is so for every slot that has been
restored, unless a super group has been replaced (`SlotBuilt.kept`): of several
groups filed under one type name the last one stays, but links may lead to any.

Groups of one slot may have the same type name, so here a group and the one
restored from it are told by their place among the described ones (`Resaved`).
They declare the same attributes (`Reloaded.items`) and their super groups
correspond again (`Reloaded.above`), so they list the same paths.  Hence restored
groups keep their paths (`paths_resaved`), but not those that they inherit from a
group that has been replaced (`loses_path`).
-/
import AttributeGraph.Proofs.Listing
import AttributeGraph.Proofs.Redescribing

namespace AttributeGraph.Heap

variable {base h F : Heap} {s t : Slot} {g x y z : GroupId} {d : Description}

/-! ### What a description keeps -/

/-- The groups filed per type have different type names, and the super group of every group of the
slot is the first other one that is described with its type name. -/
structure SlotKept (h : Heap) (s : Slot) : Prop where
  named : h.SlotNamed s
  super : ∀ x ∈ s.groups, ∀ p, (h.group x).above = some p → ∃ n, (h.group p).typeName = some n ∧
    (describedGroups s).find? (fun c => c ≠ x && (h.group c).typeName = some n) = some p

/-- A group can be saved: it has no super group, and no group of its tree is nested in itself, has
an attribute that no object can hold or says something that cannot be read. -/
structure Savable (h : Heap) (g : GroupId) : Prop where
  top : (h.group g).above = none
  acyclic : h.Acyclic g
  inHeap : ∀ x, h.Within g x → h.HasGroup x
  noProto : ∀ x, h.Within g x → "__proto__" ∉ (h.group x).items.keys
  writable : h.Writable g

/-- A description keeps a group and all that is nested in it: climbing from the groups of the tree
comes to an end, and their slots are kept. -/
structure Kept (h : Heap) (g : GroupId) : Prop extends h.Savable g where
  ends : ∀ x, h.Within g x → h.EndsAbove x
  slots : ∀ x, h.Within g x → ∀ i ∈ (h.group x).itemIds, ∀ side, h.SlotKept ((h.item i).slot side)

theorem SlotKept.super_mem (hs : h.SlotKept s) (hx : x ∈ s.groups) {p : GroupId}
    (hp : (h.group x).above = some p) : p ∈ s.groups := by
  obtain ⟨n, -, hfound⟩ := hs.super x hx p hp
  exact mem_describedGroups.1 (List.mem_of_find?_eq_some hfound)

theorem Kept.listable (hg : h.Kept g) : h.Listable g where
  top := hg.top
  ends := hg.ends
  beside x y p hx hxy hp := by
    obtain ⟨side, hi, hy⟩ := hxy
    exact ⟨side, hi, (hg.slots x hx _ hi side).super_mem hy hp⟩
  acyclic := hg.acyclic

/-! ### Saved and restored slots -/

section Slot

variable {typed : List Description} {lone : Option Description} {ts ps : List BuiltGroup}
  (hs : h.SlotKept s) (hrec : SlotRecorded h.Records s typed lone)
  (hbuilt : SlotBuilt F (Built base F) t typed lone ts ps)

include hs hrec hbuilt

/-- What has been restored is described in the order in which it was. -/
theorem describedGroups_restored : describedGroups t = (ts ++ ps).map BuiltGroup.group := by
  have hfiled := hbuilt.filed_of_distinguished (fun _ _ hz => hz.group.typeName)
    (hs.named.distinguished hrec)
  rw [hbuilt.described_eq, ← hbuilt.filed, hfiled, List.map_append]

/-- Groups at the same place have a description in common. -/
theorem described_restored : List.Forall₂
    (fun x z => ∃ d, h.Records (siblings s) x d ∧ Built base F z d)
    (describedGroups s) (describedGroups t) := by
  rw [describedGroups_restored hs hrec hbuilt, List.forall₂_map_right_iff]
  refine (forall₂_join hrec.described hbuilt.built).imp fun x r hr => ?_
  obtain ⟨d, hx, -, hr⟩ := hr
  exact ⟨d, hx, hr⟩

/-- **The super groups of groups at the same place are at the same place.** -/
theorem above_restored {k : Nat} (hx : (describedGroups s)[k]? = some x)
    (hz : (describedGroups t)[k]? = some z) :
    Option.Rel (fun p q => ∃ j : Nat,
        (describedGroups s)[j]? = some p ∧ (describedGroups t)[j]? = some q)
      (h.group x).above (F.group z).above := by
  have hgroups := describedGroups_restored hs hrec hbuilt
  obtain ⟨r, hr, rfl⟩ : ∃ r, (ts ++ ps)[k]? = some r ∧ r.group = z := by
    rw [hgroups, List.getElem?_map] at hz
    exact Option.map_eq_some_iff.1 hz
  obtain ⟨d, hd, hxd⟩ := exists_right_of_getElem? hrec.described hx
  obtain ⟨d', hd', hrd⟩ := exists_right_of_getElem? hbuilt.built hr
  obtain rfl := Option.some.inj (hd.symm.trans hd')
  rw [hbuilt.above r (List.mem_of_getElem? hr), superAmong_eq, ← hgroups, hrd.1,
    hxd.recorded.super, siblingTypeName]
  have hmem := mem_describedGroups.1 (List.mem_of_getElem? hx)
  cases hp : (h.group x).above with
  | none => exact .none
  | some p =>
    obtain ⟨n, hn, hfound⟩ := hs.super x hmem p hp
    have hsibling := mem_siblings.2 (hs.super_mem hmem hp)
    -- both super groups are found by searching for the same type name
    have hsame := rel_find?_ne (p := fun c => (h.group c).typeName = some n)
      (q := fun c => (F.group c).typeName = some n) (fun a c hac => by
        obtain ⟨e, ha, hc⟩ := hac
        rw [hc.group.typeName, ha.recorded.typeName])
      (described_restored hs hrec hbuilt) hs.named.nodup_described (hgroups ▸ hbuilt.distinct) hx hz
    rw [hfound] at hsame
    rwa [Option.filter_some, if_pos (by simpa using hsibling), Option.bind_some, hn,
      Option.bind_some]

end Slot

/-- Items of the same name of two groups that have a description in common have slots that do. -/
theorem exists_slot_restored {among : List GroupId} (hx : h.Records among x d)
    (hz : Built base F z d) {n : String} {i j : ItemId} (hi : (h.group x).items.find? n = some i)
    (hj : (F.group z).items.find? n = some j) (side : Side) :
    ∃ typed lone ts ps, SlotRecorded h.Records ((h.item i).slot side) typed lone ∧
      SlotBuilt F (Built base F) ((F.item j).slot side) typed lone ts ps := by
  have hitem := rel_items hx.recorded hz.group n
  rw [hi, hj, rel_some_iff] at hitem
  obtain ⟨-, item, hbuilt, hslots⟩ := hitem
  obtain ⟨ts, ps, hs⟩ := hbuilt.slots side
  exact ⟨_, _, ts, ps, hslots side, hs⟩

/-! ### Restored groups are kept -/

/-- **A slot that has been built is kept** unless a super group has been replaced. -/
theorem SlotBuilt.kept {P : GroupId → Description → Prop} {typed : List Description}
    {lone : Option Description} {ts ps : List BuiltGroup}
    (hs : SlotBuilt F P s typed lone ts ps)
    (hnames : ∀ z e, P z e → (F.group z).typeName = e.typeName)
    (htyped : ∀ e ∈ typed, e.typeName.isSome = true)
    (hsuper : ∀ x ∈ s.groups, ∀ p, (F.group x).above = some p → p ∈ s.groups) : F.SlotKept s := by
  refine ⟨hs.slotNamed hnames htyped, fun x hx p hp => ?_⟩
  have hmem := hsuper x hx p hp
  obtain ⟨r, hr, rfl⟩ := List.mem_map.1 (hs.mem_of_mem_groups hx)
  rw [hs.above r hr, superAmong_eq] at hp
  obtain ⟨n, -, hfound⟩ := Option.bind_eq_some_iff.1 hp
  have hn : (F.group p).typeName = some n := by
    have hsome := List.find?_some hfound
    rw [Bool.and_eq_true, decide_eq_true_iff, decide_eq_true_iff] at hsome
    exact hsome.2
  refine ⟨n, hn, ?_⟩
  rw [hs.described_eq]
  rw [List.map_append] at hfound
  refine find?_append_of_subset (fun z hz => mem_of_mem_filedGroups hz) hfound ?_
    fun hfiled b hb hbn => ?_
  · -- what is not filed has been built for the primary place
    refine (hs.mem_groups.1 hmem).imp_right fun hlone htyped => ?_
    have hdistinct := hs.distinct
    rw [List.map_append, List.nodup_append'] at hdistinct
    exact hdistinct.2.2 htyped hlone
  · -- no other filed group has the type name
    rw [Bool.and_eq_true, decide_eq_true_iff, decide_eq_true_iff] at hbn
    have hnodup := F.nodup_typeName_filedGroups ts
    exact List.inj_on_of_nodup_map hnodup hb hfiled (hbn.2.trans hn.symm)

/-- No super group of a group of the tree has been replaced: each is in the slot of the group that
extends it. -/
def SupersBeside (h : Heap) (g : GroupId) : Prop :=
  ∀ x, h.Within g x → ∀ i ∈ (h.group x).itemIds, ∀ side, ∀ z ∈ ((h.item i).slot side).groups,
    ∀ p, (h.group z).above = some p → p ∈ ((h.item i).slot side).groups

section Built

variable (hd : d.Everywhere Description.Parsed) (hy : Built base F y d)

include hd hy

/-- The slots of a group that has been built from what has been read are built. -/
theorem Built.exists_slot {i : ItemId} (hi : i ∈ (F.group y).itemIds) (side : Side) :
    ∃ typed lone ts ps, SlotBuilt F (Built base F) ((F.item i).slot side) typed lone ts ps ∧
      ∀ e ∈ typed, e.typeName.isSome = true := by
  obtain ⟨hparsed, -⟩ := hd
  obtain ⟨n, hn⟩ := OrderedMap.mem_values.1 hi
  obtain ⟨a, ha, -, hitem⟩ := hy.group.exists_field hn
  obtain ⟨ts, ps, hs⟩ := hitem.slots side
  exact ⟨_, _, ts, ps, hs, hparsed.typed a ha side⟩

theorem Built.groupWritable : F.GroupWritable y where
  allowed n hn := by
    obtain ⟨hparsed, -⟩ := hd
    obtain ⟨i, hi⟩ := OrderedMap.exists_find?_of_mem_keys hn
    obtain ⟨a, ha, rfl, -⟩ := hy.group.exists_field hi
    exact hparsed.allowed a ha
  typeName n hn := by
    obtain ⟨hparsed, -⟩ := hd
    rw [hy.group.typeName] at hn
    exact hparsed.typeName n hn
  typed i hi side := by
    obtain ⟨typed, lone, ts, ps, hs, htyped⟩ := hy.exists_slot hd hi side
    exact (hs.slotNamed (fun _ _ hz => hz.group.typeName) htyped).named

/-- What has been restored can be saved, if all its attributes can be. -/
theorem Built.savable (htop : (F.group y).above = none)
    (hproto : ∀ x, F.Within y x → "__proto__" ∉ (F.group x).items.keys) : F.Savable y where
  top := htop
  acyclic x hx := by
    obtain ⟨e, he, hx⟩ := hy.within hd hx
    exact hx.acyclic he
  inHeap x hx := by
    obtain ⟨e, -, hx⟩ := hy.within hd hx
    exact hx.group.inHeap
  noProto := hproto
  writable x hx := by
    obtain ⟨e, he, hx⟩ := hy.within hd hx
    exact hx.groupWritable he

/-- What has been restored is kept, if no super group has been replaced. -/
theorem Built.kept (hsave : F.Savable y) (hends : ∀ x, F.Within y x → F.EndsAbove x)
    (hsuper : F.SupersBeside y) : F.Kept y where
  toSavable := hsave
  ends := hends
  slots x hx i hi side := by
    obtain ⟨e, he, hbuilt⟩ := hy.within hd hx
    obtain ⟨typed, lone, ts, ps, hs, htyped⟩ := hbuilt.exists_slot he hi side
    exact hs.kept (fun _ _ hz => hz.group.typeName) htyped (hsuper x hx i hi side)

end Built

/-- What is read is built with the usual options, if the root has no super type. -/
theorem exists_built (h : Heap) {input v : Value} (hinput : input.Regular)
    (hread : Description.read input = .ok (v, d)) (hsuper : d.superTypeName = none) :
    ∃ y, (h.restore input {} none).answer = .ok y ∧ d.Everywhere Description.Parsed ∧
      Built h (h.restore input {} none).heap y d ∧
      ((h.restore input {} none).heap.group y).above = none := by
  have ho : ({} : RawOptions).resolve = .ok {} := rfl
  obtain ⟨-, hparsed⟩ := Description.sameGroup_of_read hinput hread
  obtain ⟨y, F, ds, hrun, -, hmade⟩ := exists_made (fun s => hparsed.makes s) h
    ({} : Options).hierarchy
  rw [restore_deferred ho hread hsuper hrun rfl]
  exact ⟨y, rfl, hparsed, hmade.built F (.refl F), hmade.above⟩

/-! ### Saved and restored groups -/

/-- Two groups lie below two roots under attributes of the same names, and at the same places among
the described groups of all slots on the way. -/
inductive Resaved (h F : Heap) (g y : GroupId) : GroupId → GroupId → Prop
  | root : Resaved h F g y g y
  | nested {x z x' z' : GroupId} {n : String} {i j : ItemId} (side : Side) (k : Nat)
      (hxz : Resaved h F g y x z) (hi : (h.group x).items.find? n = some i)
      (hj : (F.group z).items.find? n = some j)
      (hx : (describedGroups ((h.item i).slot side))[k]? = some x')
      (hz : (describedGroups ((F.item j).slot side))[k]? = some z') : Resaved h F g y x' z'

/-- The first of the two groups lies in the tree below the first root. -/
theorem Resaved.within (hxz : Resaved h F g y x z) : h.Within g x := by
  induction hxz with
  | root => exact .refl
  | nested side _ _ hi _ hx _ ih =>
    exact ih.tail ⟨side, mem_itemIds_of_find? hi, mem_describedGroups.1 (List.mem_of_getElem? hx)⟩

/-- A group that a description keeps has been saved, and another one has been built from what was
read again. -/
structure Reloaded (h base F : Heap) (g y : GroupId) (d : Description) : Prop where
  kept : h.Kept g
  recorded : h.Records [] g d
  parsed : d.Everywhere Description.Parsed
  built : Built base F y d
  top : (F.group y).above = none

namespace Reloaded

variable (hF : Reloaded h base F g y d)

include hF

/-- **A saved group and the restored one have a description in common.** -/
theorem exists_description (hxz : Resaved h F g y x z) :
    ∃ among e, h.Records among x e ∧ Built base F z e := by
  induction hxz with
  | root => exact ⟨[], d, hF.recorded, hF.built⟩
  | nested side k hxz hi hj hx hz ih =>
    obtain ⟨among, e, hxe, hze⟩ := ih
    obtain ⟨typed, lone, ts, ps, hslot, hbuilt⟩ := exists_slot_restored hxe hze hi hj side
    have hkept := hF.kept.slots _ hxz.within _ (mem_itemIds_of_find? hi) side
    obtain ⟨w, hw, e', he'⟩ :=
      exists_right_of_getElem? (described_restored hkept hslot hbuilt) hx
    obtain rfl := Option.some.inj (hz.symm.trans hw)
    exact ⟨_, e', he'⟩

section Slot

variable (hxz : Resaved h F g y x z) {n : String} {i j : ItemId}
  (hi : (h.group x).items.find? n = some i) (hj : (F.group z).items.find? n = some j) (side : Side)

include hxz hi hj

/-- The slots of such groups have been saved and restored. -/
theorem slot : h.SlotKept ((h.item i).slot side) ∧ ∃ typed lone ts ps,
    SlotRecorded h.Records ((h.item i).slot side) typed lone ∧
      SlotBuilt F (Built base F) ((F.item j).slot side) typed lone ts ps := by
  obtain ⟨among, e, hxe, hze⟩ := hF.exists_description hxz
  exact ⟨hF.kept.slots x hxz.within i (mem_itemIds_of_find? hi) side,
    exists_slot_restored hxe hze hi hj side⟩

theorem exists_right {v : GroupId} (hv : v ∈ ((h.item i).slot side).groups) :
    ∃ w ∈ ((F.item j).slot side).groups, Resaved h F g y v w := by
  obtain ⟨hkept, typed, lone, ts, ps, hslot, hbuilt⟩ := hF.slot hxz hi hj side
  obtain ⟨k, hk⟩ := List.mem_iff_getElem?.1 (mem_describedGroups.2 hv)
  obtain ⟨w, hw, -⟩ := exists_right_of_getElem? (described_restored hkept hslot hbuilt) hk
  exact ⟨w, mem_describedGroups.1 (List.mem_of_getElem? hw), .nested side k hxz hi hj hk hw⟩

theorem exists_left {w : GroupId} (hw : w ∈ ((F.item j).slot side).groups) :
    ∃ v ∈ ((h.item i).slot side).groups, Resaved h F g y v w := by
  obtain ⟨hkept, typed, lone, ts, ps, hslot, hbuilt⟩ := hF.slot hxz hi hj side
  obtain ⟨k, hk⟩ := List.mem_iff_getElem?.1 (mem_describedGroups.2 hw)
  obtain ⟨v, hv, -⟩ := exists_right_of_getElem? (described_restored hkept hslot hbuilt).flip hk
  exact ⟨v, mem_describedGroups.1 (List.mem_of_getElem? hv), .nested side k hxz hi hj hv hk⟩

/-- The super group of a group that has been restored is in the same slot. -/
theorem super_mem {w q : GroupId} (hw : w ∈ ((F.item j).slot side).groups)
    (hq : (F.group w).above = some q) : q ∈ ((F.item j).slot side).groups := by
  obtain ⟨hkept, typed, lone, ts, ps, hslot, hbuilt⟩ := hF.slot hxz hi hj side
  obtain ⟨r, hr, rfl⟩ := List.mem_map.1 (hbuilt.mem_of_mem_groups hw)
  rw [hbuilt.above r hr] at hq
  rw [← mem_describedGroups, describedGroups_restored hkept hslot hbuilt]
  exact (mem_of_superAmong hq).1

end Slot

/-- The two groups declare attributes of the same names, with groups that correspond again. -/
theorem items (hxz : Resaved h F g y x z) (n : String) : Option.Rel
    (fun i j => (∀ v ∈ (h.item i).value.groups, ∃ w ∈ (F.item j).value.groups,
        Resaved h F g y v w) ∧
      ∀ w ∈ (F.item j).value.groups, ∃ v ∈ (h.item i).value.groups, Resaved h F g y v w)
    ((h.group x).items.find? n) ((F.group z).items.find? n) := by
  obtain ⟨among, e, hxe, hze⟩ := hF.exists_description hxz
  refine rel_mono (fun i j hij => ?_) (rel_and (rel_items hxe.recorded hze.group n)
    (fun i hi => hi) fun j hj => hj)
  obtain ⟨-, hi, hj⟩ := hij
  exact ⟨fun v hv => hF.exists_right hxz hi hj .value hv,
    fun w hw => hF.exists_left hxz hi hj .value hw⟩

/-- The super groups of the two groups correspond again. -/
theorem above (hxz : Resaved h F g y x z) :
    Option.Rel (Resaved h F g y) (h.group x).above (F.group z).above := by
  cases hxz with
  | root =>
    rw [hF.kept.top, hF.top]
    exact .none
  | nested side k hxz hi hj hx hz =>
    obtain ⟨hkept, typed, lone, ts, ps, hslot, hbuilt⟩ := hF.slot hxz hi hj side
    refine rel_mono (fun p q hpq => ?_) (above_restored hkept hslot hbuilt hx hz)
    obtain ⟨l, hp, hq⟩ := hpq
    exact .nested side l hxz hi hj hp hq

/-- Every item of the restored group belongs to an item of the saved one. -/
theorem exists_item (hxz : Resaved h F g y x z) {j : ItemId} (hj : j ∈ (F.group z).itemIds) :
    ∃ n i, (h.group x).items.find? n = some i ∧ (F.group z).items.find? n = some j := by
  obtain ⟨n, hj⟩ := OrderedMap.mem_values.1 hj
  obtain ⟨i, hi, -⟩ := exists_left_of_rel (hF.items hxz n) hj
  exact ⟨n, i, hi, hj⟩

/-- Every group of the restored tree has been restored from one of the saved tree. -/
theorem exists_of_within {w : GroupId} (hw : F.Within y w) : ∃ v, Resaved h F g y v w := by
  induction hw with
  | refl => exact ⟨g, .root⟩
  | tail _ hstep ih =>
    obtain ⟨x, hxz⟩ := ih
    obtain ⟨side, hj, hw⟩ := hstep
    obtain ⟨n, i, hi, hj⟩ := hF.exists_item hxz hj
    obtain ⟨v, -, hvw⟩ := hF.exists_left hxz hi hj side hw
    exact ⟨v, hvw⟩

/-- What a saved group lists, the restored one lists. -/
theorem follows : Follows h F (Resaved h F g y) where
  ends x _ hxz := hF.kept.ends x hxz.within
  items _ _ hxz n := rel_mono (fun _ _ hij => hij.1) (hF.items hxz n)
  above _ _ hxz := hF.above hxz

theorem endsAbove (hxz : Resaved h F g y x z) : F.EndsAbove z := by
  obtain ⟨l, hl⟩ := hF.kept.ends x hxz.within
  obtain ⟨l', hl', -⟩ := hl.exists_related hF.follows.above hxz
  exact ⟨l', hl'⟩

/-- What a restored group lists, the saved one lists. -/
theorem follows_back : Follows F h fun z x => Resaved h F g y x z where
  ends _ _ hxz := hF.endsAbove hxz
  items _ _ hxz n := rel_swap (rel_mono (fun _ _ hij => hij.2) (hF.items hxz n))
  above _ _ hxz := rel_swap (hF.above hxz)

/-- The restored tree can be listed. -/
theorem listable : F.Listable y where
  top := hF.top
  ends w hw := by
    obtain ⟨v, hvw⟩ := hF.exists_of_within hw
    exact hF.endsAbove hvw
  beside z w q hz hzw hq := by
    obtain ⟨x, hxz⟩ := hF.exists_of_within hz
    obtain ⟨side, hj, hw⟩ := hzw
    obtain ⟨n, i, hi, hj'⟩ := hF.exists_item hxz hj
    exact ⟨side, hj, hF.super_mem hxz hi hj' side hw hq⟩
  acyclic w hw := by
    obtain ⟨e, he, hw⟩ := hF.built.within hF.parsed hw
    exact hw.acyclic he

/-- **The restored group has the paths of the saved one.** -/
theorem paths_eq : F.paths y = h.paths g :=
  paths_eq_of_follows hF.kept.listable hF.listable hF.follows hF.follows_back .root

end Reloaded

/-! ### Saving and restoring -/

/-- **What is saved can be restored**: a group that can be saved has a description, and wherever
this is stored and read, a group is built from what has been read. -/
theorem Savable.exists_restored (hg : h.Savable g) :
    ∃ d, h.description g = .ok d ∧ ∀ (h' : Heap) (input : Value), Stores input d →
      ∃ y d', (h'.restore input {} none).answer = .ok y ∧ h.Records [] g d' ∧
        d'.Everywhere Description.Parsed ∧ Built h' (h'.restore input {} none).heap y d' ∧
        ((h'.restore input {} none).heap.group y).above = none := by
  obtain ⟨d, hd, hrec⟩ := description_records hg.noProto hg.acyclic
  refine ⟨d, hd, fun h' input hinput => ?_⟩
  obtain ⟨d', hread, hrec'⟩ := hrec.read_stored hg.writable hinput
  have hregular : input.Regular := by
    rcases hinput with rfl | rfl
    · exact hrec.plain.regular
    · exact .text _
  have hsuper : d'.superTypeName = none := by
    rw [hrec'.recorded.super, siblingTypeName, hg.top]
    rfl
  obtain ⟨y, hanswer, hparsed, hbuilt, htop⟩ := exists_built h' hregular hread hsuper
  exact ⟨y, d', hanswer, hrec', hparsed, hbuilt, htop⟩

/-- **Restored groups can be saved and restored, and keep their paths**, if no attribute has the
name that no object can hold.  The paths are kept where climbing from the groups of the tree comes
to an end and no super group has been replaced. -/
theorem paths_resaved {input : Value} (hinput : input.Regular)
    (hanswer : (h.restore input {} none).answer = .ok g)
    (hF : (h.restore input {} none).heap = F)
    (hproto : ∀ x, F.Within g x → "__proto__" ∉ (F.group x).items.keys) :
    ∃ d, F.description g = .ok d ∧ ∀ (h' : Heap) (input' : Value), Stores input' d →
      ∃ y, (h'.restore input' {} none).answer = .ok y ∧
        ((∀ x, F.Within g x → F.EndsAbove x) → F.SupersBeside g →
          (h'.restore input' {} none).heap.paths y = F.paths g) := by
  subst hF
  obtain ⟨-, v, e, -, -, hread, hsuper⟩ := exists_read_of_restore hanswer
  obtain ⟨g', hanswer', he, hbuilt, htop⟩ := exists_built h hinput hread hsuper
  obtain rfl := Except.ok.inj (hanswer.symm.trans hanswer')
  have hsave := hbuilt.savable he htop hproto
  obtain ⟨d, hd, hrestored⟩ := hsave.exists_restored
  refine ⟨d, hd, fun h' input' hinput' => ?_⟩
  obtain ⟨y, d', hanswer', hrec, hd', hy, htop'⟩ := hrestored h' input' hinput'
  refine ⟨y, hanswer', fun hends hbeside => ?_⟩
  have hkept := hbuilt.kept he hsave hends hbeside
  exact Reloaded.paths_eq ⟨hkept, hrec, hd', hy, htop'⟩

/-- A text is restored as the data that it stands for. -/
theorem restore_toText (h : Heap) {v : Value} (hv : v.Plain)
    (hdata : Description.inputValue v = .ok v) :
    h.restore (.text (Json.toText v)) {} none = h.restore v {} none := by
  have hread : Description.read (.text (Json.toText v)) = Description.read v := by
    rw [Description.read, Description.read, hdata, Description.inputValue, Json.parse?_toText hv]
  unfold restore
  rw [hread]

/-- What succeeds, as can be seen by computing it. -/
theorem exists_ok_of_any {α ε : Type} {e : Except ε α} {p : α → Bool}
    (he : e.toOption.any p = true) : ∃ a, e = .ok a ∧ p a = true := by
  cases e with
  | ok a => exact ⟨a, rfl, he⟩
  | error e => cases he

/-- A description of a workshop with a lead, who is a person or an employee; the description of a
person may be replaced by another one. -/
def workshop (replaced : Bool) : Value :=
  .object [
    ("name", .text "workshop"),
    ("attributes", .object [
      ("lead", .object [
        ("typeGroups", .array ([
          .object [("name", .text "a"), ("typeName", .text "Person"),
            ("attributes", .object [("name", .object [])])]] ++
          (if replaced then
            [.object [("name", .text "b"), ("typeName", .text "Person")]]
          else []) ++
          [.object [("name", .text "c"), ("typeName", .text "Employee"),
            ("superTypeName", .text "Person")]]))])])]

theorem plain_workshop (replaced : Bool) : (workshop replaced).Plain := by
  cases replaced
  all_goals
    unfold workshop
    repeat' first
      | exact .text _
      | refine .object rfl ?_
      | refine .array ?_
      | refine List.forall_mem_append.2 ⟨?_, ?_⟩
      | refine List.forall_mem_cons.2 ⟨?_, ?_⟩
      | exact fun _ h => absurd h List.not_mem_nil

theorem paths_resaved_workshop :
    let restored := Heap.empty.restore (.text (Json.toText (workshop false))) {} none
    restored.answer = .ok ⟨0⟩ ∧ "lead.name" ∈ restored.heap.paths ⟨0⟩ ∧
      ∃ d, restored.heap.description ⟨0⟩ = .ok d ∧ ∀ (h' : Heap) (input' : Value),
        Stores input' d → ∃ y, (h'.restore input' {} none).answer = .ok y ∧
          (h'.restore input' {} none).heap.paths y = restored.heap.paths ⟨0⟩ := by
  intro restored
  have hdata : restored = Heap.empty.restore (workshop false) {} none :=
    restore_toText .empty (plain_workshop false) rfl
  have hanswer : restored.answer = .ok ⟨0⟩ := by
    obtain ⟨y, hy, hzero⟩ := exists_ok_of_any (e := restored.answer) (p := fun y => y = ⟨0⟩) (by
      rw [hdata]
      decide +kernel)
    rw [hy, of_decide_eq_true hzero]
  have hgroups : ∀ x ∈ restored.heap.groupIds,
      "__proto__" ∉ (restored.heap.group x).items.keys ∧
      (∀ s ∈ (restored.heap.group x).above, s.index < x.index) ∧
      ∀ i ∈ (restored.heap.group x).itemIds, ∀ side ∈ [Side.value, Side.key],
        ∀ z ∈ ((restored.heap.item i).slot side).groups, ∀ p ∈ (restored.heap.group z).above,
          p ∈ ((restored.heap.item i).slot side).groups := by
    rw [hdata]
    decide +kernel
  have hproto : ∀ x, restored.heap.Within ⟨0⟩ x →
      "__proto__" ∉ (restored.heap.group x).items.keys := fun x _ =>
    forall_group (P := fun x => "__proto__" ∉ x.items.keys) List.not_mem_nil
      (fun x hx => (hgroups x hx).1) x
  have hbeside : restored.heap.SupersBeside ⟨0⟩ := by
    intro x _ i hi side z hz p hp
    have hx := mem_groupIds.2 (hasGroup_of_mem_itemIds hi)
    exact (hgroups x hx).2.2 i hi side (by cases side <;> decide) z hz p hp
  obtain ⟨d, hd, hrestored⟩ := paths_resaved (.text _) hanswer rfl hproto
  refine ⟨hanswer, mem_paths.2 (by rw [hdata]; decide +kernel), d, hd, fun h' input' hinput' => ?_⟩
  obtain ⟨y, hy, hpaths⟩ := hrestored h' input' hinput'
  exact ⟨y, hy, hpaths (fun x _ => endsAbove_of_earlier _ fun x hx => (hgroups x hx).2.1) hbeside⟩

/-- A text is accepted, and the text of what is saved is accepted again but has lost a path,
although climbing from the groups of the tree comes to an end. -/
def LosesPath (text : String) (p : String) : Prop :=
  ∃ F g d y, (Heap.empty.restore (.text text) {} none).answer = .ok g ∧
    (Heap.empty.restore (.text text) {} none).heap = F ∧ (∀ x, F.Within g x → F.EndsAbove x) ∧
    F.description g = .ok d ∧
    (F.restore (.text (Json.toText d.toValue)) {} none).answer = .ok y ∧ p ∈ F.paths g ∧
    p ∉ (F.restore (.text (Json.toText d.toValue)) {} none).heap.paths y

/-- A path is seen to be lost by computing what is restored. -/
theorem losesPath_of_any {v : Value} {p : String} (hv : v.Plain)
    (hdata : Description.inputValue v = .ok v) {F : Heap}
    (hF : (Heap.empty.restore v {} none).heap = F)
    (hearlier : ∀ x ∈ F.groupIds, ∀ s ∈ (F.group x).above, s.index < x.index)
    (hany : ((Heap.empty.restore v {} none).answer.toOption.any fun g =>
      p ∈ (F.pathsBelow (F.groups.size + 2) [] g).map Path.format &&
      (F.description g).toOption.any fun d =>
        let again := F.restore (.text (Json.toText d.toValue)) {} none
        again.answer.toOption.any fun y =>
          p ∉ (again.heap.pathsBelow (again.heap.groups.size + 2) [] y).map Path.format) = true) :
    LosesPath (Json.toText v) p := by
  obtain ⟨g, hg, hany⟩ := exists_ok_of_any hany
  rw [Bool.and_eq_true, decide_eq_true_iff] at hany
  obtain ⟨d, hd, hagain⟩ := exists_ok_of_any hany.2
  obtain ⟨y, hy, hlost⟩ := exists_ok_of_any hagain
  have htext := restore_toText .empty hv hdata
  refine ⟨F, g, d, y, ?_, ?_, fun x _ => endsAbove_of_earlier F hearlier, hd, hy,
    mem_paths.2 hany.1, fun hp => of_decide_eq_true hlost (mem_paths.1 hp)⟩
  · rw [htext, hg]
  · rw [htext, hF]

/-- A description of a group with an attribute of the name that no object can hold. -/
def shadowed : Value :=
  .object [("name", .text "g"),
    ("attributes", .object [("__proto__", .object []), ("id", .object [])])]

theorem plain_shadowed : shadowed.Plain := by
  unfold shadowed
  repeat' first
    | exact .text _
    | refine .object rfl ?_
    | refine List.forall_mem_cons.2 ⟨?_, ?_⟩
    | exact fun _ h => absurd h List.not_mem_nil

/-- **Paths are lost** where the super group of a group has been replaced by another one of the same
type name, and where an attribute has the name that no object can hold. -/
theorem loses_path :
    LosesPath (Json.toText (workshop true)) "lead.name" ∧
      LosesPath (Json.toText shadowed) "__proto__" :=
  ⟨losesPath_of_any (plain_workshop true) rfl rfl (by decide +kernel) (by decide +kernel),
    losesPath_of_any plain_shadowed rfl rfl (by decide +kernel) (by decide +kernel)⟩

end AttributeGraph.Heap
