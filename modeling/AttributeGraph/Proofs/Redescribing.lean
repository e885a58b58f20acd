/-
Describing undoes restoring.

A description in normal form says nothing that describing leaves out: no empty
list, no flag or kind that is the usual one, no super type that is not in the
same slot.  Such a description is built (`Everywhere.makes`), and the group that
has been built is described as it was (`runs_of_built`).

A built group cannot be nested in itself, because the description of a nested
group is a part of the description: `Everywhere` is what the inductions are on.
So the marks of the recording are the groups on the way down, all different, and
the depth that the heap allows is never used up.
-/
import AttributeGraph.Proofs.Parsing
import AttributeGraph.Proofs.RoundTrip

namespace AttributeGraph

/-! ### Descriptions in normal form -/

/-- An item in normal form: no list of groups is empty, no two groups of a slot have the same type
name, and whatever names a super type names that of another group of its slot. -/
structure NestedDescription.Normal (item : NestedDescription) : Prop where
  typeGroups : item.typeGroups ≠ some []
  keyTypeGroups : item.keyTypeGroups ≠ some []
  distinct : ∀ side, ((item.groups side).filterMap Description.typeName).Nodup
  super : ∀ side, ∀ e ∈ item.groups side, ∀ n, e.superTypeName = some n →
    ∃ c ∈ item.groups side, c ≠ e ∧ c.typeName = some n

namespace Description

/-- A group in normal form, the nested groups left aside: it is not said to be unchecked, nor to be
generic, nor to have no attributes, and no attribute has the name that no object can hold. -/
structure NormalHere (d : Description) : Prop where
  validated : d.validated ≠ some false
  kind : d.kind ≠ some .generic
  attributes : d.attributes ≠ some []
  noProto : "__proto__" ∉ d.fields.map Prod.fst
  items : ∀ a ∈ d.fields, a.2.Normal

/-- A group and all that is nested in it are in normal form. -/
def Normal (d : Description) : Prop := d.Everywhere NormalHere

variable {P Q : Description → Prop} {d : Description}

theorem Everywhere.and (hP : d.Everywhere P) (hQ : d.Everywhere Q) :
    d.Everywhere fun d => P d ∧ Q d := by
  induction hP with
  | intro here _ ih =>
    obtain ⟨here', nested'⟩ := hQ
    exact .intro ⟨here, here'⟩ fun a ha side e he => ih a ha side e he (nested' a ha side e he)

end Description

theorem NestedDescription.mem_groups_of_typed {item : NestedDescription} {side : Side}
    {d : Description} (hd : d ∈ item.typed side) : d ∈ item.groups side :=
  List.mem_append_left _ hd

theorem NestedDescription.mem_groups_of_lone {item : NestedDescription} {side : Side}
    {d : Description} (hd : item.lone side = some d) : d ∈ item.groups side :=
  List.mem_append_right _ (Option.mem_toList.2 hd)

namespace NestedDescription.Normal

variable {item : NestedDescription} (hitem : item.Normal)

include hitem

/-- A type name belongs to one group of a slot. -/
theorem eq_of_typeName {side : Side} {c e : Description} (hc : c ∈ item.groups side)
    (he : e ∈ item.groups side) {n : String} (hcn : c.typeName = some n)
    (hen : e.typeName = some n) : c = e := by
  by_contra hne
  have hpairwise := List.pairwise_filterMap.1 (hitem.distinct side)
  have : Std.Symm fun c e : Description =>
      ∀ m, c.typeName = some m → ∀ k, e.typeName = some k → m ≠ k :=
    ⟨fun c e hce m hm k hk hmk => hce k hk m hm hmk.symm⟩
  exact hpairwise.forall hc he hne n hcn n hen rfl

/-- The groups filed per type are told apart by their type names, if they have any. -/
theorem distinguished {side : Side} (htyped : ∀ d ∈ item.typed side, d.typeName.isSome = true) :
    Heap.Distinguished (item.typed side) := by
  refine ⟨htyped, List.pairwise_map.2 ?_⟩
  have hpairwise := List.pairwise_filterMap.1 (hitem.distinct side)
  refine (hpairwise.sublist (List.sublist_append_left _ _)).imp_of_mem fun hc _ hce heq => ?_
  obtain ⟨n, hn⟩ := Option.isSome_iff_exists.1 (htyped _ hc)
  exact hce n hn n (heq ▸ hn) rfl

end NestedDescription.Normal

/-- **A description that has been read can be built.** -/
theorem Description.Everywhere.makes (s : RestorationScope) {d : Description}
    (hd : d.Everywhere Description.Parsed) : Heap.Makes s d := by
  induction hd with
  | intro hparsed _ ih =>
    refine Heap.makes_of_ready hparsed.names fun a ha => ⟨fun side e he => ?_, hparsed.typed a ha⟩
    exact ih a ha side e he

/-! ### Built groups -/

namespace Heap

variable {base F : Heap} {P : GroupId → Description → Prop} {t : Slot} {ts ps : List BuiltGroup}

/-- What is nested in a built group is built from a part of the description. -/
theorem Built.nested {y z : GroupId} {d : Description} (hy : Built base F y d)
    (hyz : F.Nests y z) :
    ∃ a ∈ d.fields, ∃ side, ∃ e ∈ a.2.groups side, Built base F z e := by
  obtain ⟨side, hi, hz⟩ := hyz
  obtain ⟨n, hn⟩ := OrderedMap.mem_values.1 hi
  obtain ⟨a, ha, -, hitem⟩ := hy.group.exists_field hn
  obtain ⟨ts, ps, hs⟩ := hitem.slots side
  obtain ⟨r, hr, rfl⟩ := List.mem_map.1 (hs.mem_of_mem_groups hz)
  obtain ⟨e, he, -, hbuilt⟩ := exists_right_of_mem hs.built hr
  exact ⟨a, ha, side, e, he, hbuilt⟩

/-- Whatever lies below a built group is built from a description inside. -/
theorem Built.within {Q : Description → Prop} {y x : GroupId} {d : Description}
    (hd : d.Everywhere Q) (hy : Built base F y d) (hx : F.Within y x) :
    ∃ e, e.Everywhere Q ∧ Built base F x e := by
  induction hx with
  | refl => exact ⟨d, hd, hy⟩
  | tail _ hstep ih =>
    obtain ⟨e, ⟨-, hnested⟩, he⟩ := ih
    obtain ⟨a, ha, side, c, hc, hbuilt⟩ := he.nested hstep
    exact ⟨c, hnested a ha side c hc, hbuilt⟩

/-- No built group is nested in itself. -/
theorem Built.acyclic {Q : Description → Prop} {y : GroupId} {d : Description}
    (hd : d.Everywhere Q) (hy : Built base F y d) : ¬ Relation.TransGen F.Nests y y := by
  induction hd generalizing y with
  | intro _ _ ih =>
    intro hcycle
    obtain ⟨z, hyz, hzy⟩ := Relation.TransGen.head'_iff.1 hcycle
    obtain ⟨a, ha, side, e, he, hz⟩ := hy.nested hyz
    exact ih a ha side e he hz (Relation.TransGen.tail' hzy hyz)

/-! ### Built groups are described -/

open Describing (Runs)

/-- A description of every element, each leaving the marks as they are. -/
theorem runs_mapM {α β : Type} {f : α → Describing β} {marks : List GroupId} {l : List α}
    {bs : List β} (hf : List.Forall₂ (fun a b => Runs (f a) marks b marks) l bs) :
    Runs (l.mapM f) marks bs marks := by
  induction hf with
  | nil => exact Runs.pure [] marks
  | cons hb _ ih =>
    rw [List.mapM_cons]
    exact hb.bind (ih.bind (Runs.pure _ marks))

section Slot

variable {item : NestedDescription} {side : Side}

/-- A slot that is built from the descriptions of an item in normal form. -/
structure SlotNormal (F : Heap) (P : GroupId → Description → Prop) (t : Slot)
    (item : NestedDescription) (side : Side) (ts ps : List BuiltGroup) : Prop where
  built : SlotBuilt F P t (item.typed side) (item.lone side) ts ps
  normal : item.Normal
  typeName : ∀ z e, P z e → (F.group z).typeName = e.typeName
  typed : ∀ e ∈ item.typed side, e.typeName.isSome = true

namespace SlotNormal

variable (hs : SlotNormal F P t item side ts ps)

include hs

theorem typeName_group {r : BuiltGroup} {e : Description} (hr : BuiltFrom P r e) :
    (F.group r.group).typeName = e.typeName :=
  hs.typeName r.group e hr.2

/-- All typed groups are filed, since they have different type names. -/
theorem filed : t.typed = ts.map BuiltGroup.group :=
  hs.built.filed_of_distinguished hs.typeName (hs.normal.distinguished hs.typed)

theorem mem_groups {z : GroupId} : z ∈ t.groups ↔ z ∈ (ts ++ ps).map BuiltGroup.group := by
  rw [hs.built.mem_groups, ← hs.built.filed, hs.filed, List.map_append, List.mem_append]

/-- The super type that is written down is the one that the description names. -/
theorem siblingTypeName_eq {r : BuiltGroup} {e : Description} (hr : r ∈ ts ++ ps)
    (he : e ∈ item.groups side) (hre : BuiltFrom P r e) :
    F.siblingTypeName (siblings t) r.group = e.superTypeName := by
  unfold siblingTypeName
  rw [hs.built.above r hr]
  cases hn : e.superTypeName with
  | none =>
    rw [superAmong, hre.1, hn]
    rfl
  | some n =>
    -- another group of the slot has this type name, so one of them has been found
    obtain ⟨c, hc, hne, hcn⟩ := hs.normal.super side e he n hn
    obtain ⟨q, hq, hqc⟩ := exists_left_of_mem hs.built.built hc
    have hother : q.group ≠ r.group := by
      intro hqr
      refine hne (hs.normal.eq_of_typeName hc he hcn ?_)
      rw [← hs.typeName_group hre, ← hqr, hs.typeName_group hqc, hcn]
    cases hfound : (ts ++ ps).find? fun c =>
        c.group ≠ r.group && (F.group c.group).typeName = some n with
    | none =>
      have hno := List.find?_eq_none.1 hfound q hq
      rw [hs.typeName_group hqc, hcn] at hno
      simp [hother] at hno
    | some p =>
      have hp := List.find?_some hfound
      rw [Bool.and_eq_true, decide_eq_true_eq, decide_eq_true_eq] at hp
      have hmem : p.group ∈ siblings t := mem_siblings.2 (hs.mem_groups.2
        (List.mem_map_of_mem (List.mem_of_find?_eq_some hfound)))
      rw [superAmong, hre.1, hn, Option.bind_some, hfound, Option.map_some, Option.filter_some,
        if_pos (by simpa using hmem), Option.bind_some, hp.2]

/-- The slot is described as it was if its groups are. -/
theorem runs {describe : List GroupId → GroupId → Describing Description} {marks : List GroupId}
    {typeGroups : Option (List Description)} (hgiven : typeGroups ≠ some [])
    (htyped : item.typed side = typeGroups.getD [])
    (hall : ∀ r ∈ ts ++ ps, ∀ e ∈ item.groups side, BuiltFrom P r e →
      Runs (describe (siblings t) r.group) marks e marks) :
    Runs (slotDescriptions describe t) marks (item.lone side, typeGroups) marks := by
  have hts : Runs ((typedInOrder t).mapM (describe (siblings t))) marks (item.typed side)
      marks := by
    rw [hs.built.typedInOrder_eq, hs.filed]
    refine runs_mapM (List.forall₂_map_left_iff.2 ((forall₂_mem hs.built.typed).imp ?_))
    exact fun r e hre => hall r (List.mem_append_left _ hre.1) e
      (NestedDescription.mem_groups_of_typed hre.2.1) hre.2.2
  have hps : Runs ((lonePrimary t).toList.mapM (describe (siblings t))) marks
      (item.lone side).toList marks := by
    rw [hs.built.lonePrimary_eq]
    refine runs_mapM (List.forall₂_map_left_iff.2 ((forall₂_mem hs.built.lone).imp ?_))
    exact fun r e hre => hall r (List.mem_append_right _ hre.1) e
      (NestedDescription.mem_groups_of_lone (Option.mem_toList.1 hre.2.1)) hre.2.2
  have hpair : (item.lone side, typeGroups) = ((item.lone side).toList.head?,
      if (item.typed side).isEmpty then none else some (item.typed side)) := by
    rw [htyped, Option.head?_toList]
    match typeGroups, hgiven with
    | none, _ => rfl
    | some [], hgiven => exact absurd rfl hgiven
    | some (e :: es), _ => rfl
  rw [hpair]
  exact hts.bind (hps.bind (Runs.pure _ marks))

end SlotNormal

end Slot

/-- An item is described as it was if the groups in its slots are. -/
theorem runs_item {x : Item} {item : NestedDescription} {describe : List GroupId → GroupId →
    Describing Description} {marks : List GroupId} (hitem : item.Normal)
    (hall : ∀ side, ∃ ts ps, SlotNormal F P (x.slot side) item side ts ps ∧
      ∀ r ∈ ts ++ ps, ∀ e ∈ item.groups side, BuiltFrom P r e →
        Runs (describe (siblings (x.slot side)) r.group) marks e marks) :
    Runs (itemDescription describe x) marks item marks := by
  obtain ⟨ts, ps, hvalue, hdescribe⟩ := hall .value
  obtain ⟨keyTs, keyPs, hkey, hdescribeKey⟩ := hall .key
  obtain ⟨group, typeGroups, keyGroup, keyTypeGroups⟩ := item
  refine (hvalue.runs hitem.typeGroups rfl hdescribe).bind ?_
  exact (hkey.runs hitem.keyTypeGroups rfl hdescribeKey).bind (Runs.pure _ marks)

/-- What is written down of a built group is the description that it was built from. -/
theorem describedWith_eq {among : List GroupId} {y : GroupId} {d : Description}
    (hy : GroupBuilt base F P y d) (hd : d.NormalHere)
    (hsuper : F.siblingTypeName among y = d.superTypeName) :
    F.describedWith among y d.fields = d := by
  have hvalidated : (if (F.group y).validated then some true else none) = d.validated := by
    rw [hy.validated]
    match d.validated, hd.validated with
    | none, _ => rfl
    | some true, _ => rfl
    | some false, hno => exact absurd rfl hno
  have hkind : (if (F.variantOf y).kind = .generic then none else some (F.variantOf y).kind) =
      d.kind := by
    rw [hy.kind]
    match d.kind, hd.kind with
    | none, _ => rfl
    | some k, hno => exact if_neg fun hk => hno (congrArg some hk)
  have hkept : d.fields.filter (fun e => e.1 ≠ "__proto__") = d.fields := by
    rw [List.filter_eq_self]
    exact fun a ha => decide_eq_true fun hname => hd.noProto (hname ▸ List.mem_map_of_mem ha)
  have hattributes : (if (F.group y).hasAttributes then some d.fields else none) =
      d.attributes := by
    have hitems := hy.items.length_eq
    unfold Group.hasAttributes OrderedMap.isEmpty
    unfold Description.fields at hitems ⊢
    match d.attributes, hd.attributes, hitems with
    | none, _, hitems => rw [List.length_eq_zero_iff.1 hitems.symm]; rfl
    | some [], hno, _ => exact absurd rfl hno
    | some (a :: as), _, hitems =>
      cases hentries : (F.group y).items.entries with
      | nil => rw [hentries] at hitems; cases hitems
      | cons e es => rfl
  unfold describedWith
  rw [hy.name, hy.typeName, hsuper, hvalidated, hkind, hkept, hattributes]
  cases d
  rfl

/-- The attributes of a built group are described as they were if the groups nested in it are. -/
theorem GroupBuilt.runs_attributes {y : GroupId} {d : Description} {marks : List GroupId}
    {describe : List GroupId → GroupId → Describing Description}
    (hy : GroupBuilt base F (Built base F) y d) (hparsed : d.Parsed) (hnormal : d.NormalHere)
    (hnested : ∀ a ∈ d.fields, ∀ side, ∀ e ∈ a.2.groups side, ∀ among z, F.Nests y z →
      Built base F z e → F.siblingTypeName among z = e.superTypeName →
      Runs (describe among z) marks e marks) :
    Runs ((F.group y).items.entries.mapM fun e => do
      return (e.1, ← itemDescription describe (F.item e.2))) marks d.fields marks := by
  refine runs_mapM ((forall₂_mem hy.items.flip).imp fun e a hea => ?_)
  obtain ⟨he, ha, hname, hitem⟩ := hea
  have hpair : a = (e.1, a.2) := Prod.ext hname rfl
  have hslots : ∀ side, ∃ ts ps,
      SlotNormal F (Built base F) ((F.item e.2).slot side) a.2 side ts ps ∧
      ∀ r ∈ ts ++ ps, ∀ c ∈ a.2.groups side, BuiltFrom (Built base F) r c →
        Runs (describe (siblings ((F.item e.2).slot side)) r.group) marks c marks := by
    intro side
    obtain ⟨ts, ps, hs⟩ := hitem.slots side
    have hslot : SlotNormal F (Built base F) ((F.item e.2).slot side) a.2 side ts ps :=
      ⟨hs, hnormal.items a ha, fun z c hz => hz.group.typeName, hparsed.typed a ha side⟩
    refine ⟨ts, ps, hslot, fun r hr c hc hrc => ?_⟩
    have hyz : F.Nests y r.group := by
      refine .intro side (i := e.2) ?_ (hslot.mem_groups.2 (List.mem_map_of_mem hr))
      exact OrderedMap.mem_values.2 ⟨e.1, OrderedMap.find?_eq_some_iff.2 he⟩
    exact hnested a ha side c hc _ r.group hyz hrc.2 (hslot.siblingTypeName_eq hr hc hrc)
  rw [hpair]
  exact (runs_item (hnormal.items a ha) hslots).bind (Runs.pure _ _)

/-- **A built group is described as it was**, below groups each of which leads to the next. -/
theorem runs_of_built {d : Description} (hd : d.Everywhere fun d => d.Parsed ∧ d.NormalHere) :
    ∀ (fuel : Nat) (among : List GroupId) (y : GroupId) (marks : List GroupId),
      Built base F y d → F.siblingTypeName among y = d.superTypeName →
      (∀ m ∈ marks, F.HasGroup m ∧ Relation.TransGen F.Nests m y) → marks.Nodup →
      F.groups.size + 2 ≤ fuel + marks.length →
      Runs (F.describeWithin fuel among y) marks d marks := by
  induction hd with
  | @intro d here nested ih =>
    intro fuel among y marks hbuilt hsuper hmarks hnodup hle
    have hacyclic := hbuilt.acyclic (.intro here nested)
    have hy := hbuilt.group
    cases fuel with
    | zero =>
      have := length_le_of_nodup hnodup fun m hm => (hmarks m hm).1
      omega
    | succ fuel =>
      have hnew : y ∉ marks := fun hmem => hacyclic (hmarks y hmem).2
      -- one level down, the group itself is marked too
      have hattributes : Runs ((F.group y).items.entries.mapM fun e => do
          return (e.1, ← itemDescription (F.describeWithin fuel) (F.item e.2)))
          (y :: marks) d.fields (y :: marks) := by
        refine hy.runs_attributes here.1 here.2 fun a ha side e he among z hyz hz hsuper => ?_
        refine ih a ha side e he fuel among z (y :: marks) hz hsuper ?_
          (List.nodup_cons.2 ⟨hnew, hnodup⟩) ?_
        · refine List.forall_mem_cons.2 ⟨⟨hy.inHeap, .single hyz⟩, fun m hm => ?_⟩
          exact ⟨(hmarks m hm).1, (hmarks m hm).2.tail hyz⟩
        · rw [List.length_cons]
          omega
      rw [← describedWith_eq hy here.2 hsuper]
      exact runs_describeWithin hnew hattributes

/-! ### Restoring and describing -/

/-- **Describing undoes restoring**: what is accepted as a description in normal form is restored,
whatever the hierarchy of types, and the group is described as what was accepted, with the same
attributes and groups per type in the same order. -/
theorem description_restore (h : Heap) {input v : Value} {d : Description} (hinput : input.Regular)
    (hread : Description.read input = .ok (v, d)) (hroot : d.superTypeName = none)
    (hnormal : d.Normal) {options : RawOptions} {o : Options} (ho : options.resolve = .ok o)
    (hdefer : o.restore.resolvesNames = false) (resolver : Option Resolver) :
    ∃ y, (h.restore input options resolver).answer = .ok y ∧
      (h.restore input options resolver).heap.description y = .ok d ∧
      SameGroup v d.toValue := by
  obtain ⟨hsame, hparsed⟩ := Description.sameGroup_of_read hinput hread
  have hboth := hparsed.and hnormal
  obtain ⟨y, F, ds, hrun, -, hmade⟩ := exists_made (fun s => hparsed.makes s) h o.hierarchy
  rw [restore_deferred ho hread hroot hrun hdefer resolver]
  refine ⟨y, rfl, ?_, hsame⟩
  have hbuilt : Built h F y d := hmade.built F (.refl F)
  have hsuper : F.siblingTypeName [] y = d.superTypeName := by
    rw [hroot, siblingTypeName, hmade.above]
    rfl
  have hdescribed : Runs (F.describeWithin (F.groups.size + 2) [] y) [] d [] :=
    runs_of_built hboth _ [] y [] hbuilt hsuper (fun m hm => absurd hm List.not_mem_nil)
      List.nodup_nil (Nat.le_refl _)
  show F.description y = .ok d
  unfold description
  rw [show (F.describeWithin (F.groups.size + 2) [] y).run [] = some (.ok (d, [])) from hdescribed]

/-- An offer with lines of two types each of which names the other one as its super type. -/
def offer : Value :=
  .object [
    ("typeName", .text "Offer"), ("name", .text "offer"),
    ("attributes", .object [
      ("lines", .object [
        ("typeGroups", .array [
          .object [("name", .text "gift"), ("typeName", .text "Gift"),
            ("superTypeName", .text "Line"), ("attributes", .object [("card", .object [])])]]),
        ("group", .object [("name", .text "line"), ("typeName", .text "Line"),
          ("superTypeName", .text "Gift"), ("validated", .bool true), ("kind", .text "load")])]),
      ("date", .object [("keyGroup", .undefined)])])]

/-- The lines of the offer. -/
def offerLine : Description :=
  { name := "line", typeName := some "Line", superTypeName := some "Gift", validated := some true
    kind := some .load }

/-- The gifts among the lines of the offer. -/
def offerGift : Description :=
  { name := "gift", typeName := some "Gift", superTypeName := some "Line"
    attributes := some [("card", {})] }

/-- What the offer is read as. -/
def offerDescription : Description :=
  { name := "offer", typeName := some "Offer"
    attributes := some
      [("lines", { group := some offerLine, typeGroups := some [offerGift] }), ("date", {})] }

theorem regular_offer : offer.Regular := by decide +kernel

/-- The lines are in normal form: each type name that is named is that of the other group. -/
theorem normal_offerLines :
    NestedDescription.Normal { group := some offerLine, typeGroups := some [offerGift] } := by
  refine ⟨nofun, nofun, fun side => ?_, fun side e he n hn => ?_⟩
  · cases side with
    | value =>
      show ["Gift", "Line"].Nodup
      decide
    | key => exact List.nodup_nil
  · cases side with
    | value =>
      have hne : offerLine ≠ offerGift := fun h =>
        absurd (congrArg Description.name h) (by decide)
      rcases List.mem_cons.1 he with rfl | he
      · exact ⟨offerLine, List.mem_cons_of_mem _ List.mem_cons_self, hne, hn⟩
      · obtain rfl := List.mem_singleton.1 he
        exact ⟨offerGift, List.mem_cons_self, hne.symm, hn⟩
    | key => cases he

theorem normal_offerDescription : offerDescription.Normal := by
  have hbare : NestedDescription.Normal {} := by
    refine ⟨nofun, nofun, fun side => ?_, fun side e he => ?_⟩
    · cases side <;> exact List.nodup_nil
    · cases side <;> cases he
  have hbareGroups : ∀ side, ∀ e ∈ NestedDescription.groups {} side, e.Normal := by
    intro side e he
    cases side <;> cases he
  have hline : offerLine.Normal :=
    .intro ⟨nofun, nofun, nofun, nofun, fun a ha => by cases ha⟩ fun a ha => by cases ha
  have hgift : offerGift.Normal := by
    refine .intro ⟨nofun, nofun, nofun, by decide, ?_⟩ ?_
    · exact List.forall_mem_singleton.2 hbare
    · exact List.forall_mem_singleton.2 hbareGroups
  refine .intro ⟨nofun, nofun, nofun, by decide, ?_⟩ ?_
  · exact List.forall_mem_cons.2 ⟨normal_offerLines, List.forall_mem_singleton.2 hbare⟩
  · refine List.forall_mem_cons.2 ⟨fun side => ?_, List.forall_mem_singleton.2 hbareGroups⟩
    cases side with
    | value => exact List.forall_mem_cons.2 ⟨hgift, List.forall_mem_singleton.2 hline⟩
    | key => exact fun e he => by cases he

theorem description_restore_offer :
    ∃ y, (Heap.empty.restore offer {} none).answer = .ok y ∧
      (Heap.empty.restore offer {} none).heap.description y = .ok offerDescription ∧
      SameGroup offer offerDescription.toValue :=
  description_restore .empty regular_offer rfl rfl normal_offerDescription
    (show ({} : RawOptions).resolve = .ok {} from rfl) rfl none

end Heap

end AttributeGraph
