/-
What a description says of the group that it describes.

`Records` relates a group to its descriptions: the surface of the group is
written down, and every slot of every item is recorded by descriptions of the
groups in it, the typed ones in order and then the primary one unless it is
typed.  The order in which attributes stand does not count, so a description
that is stored and read again still records the same group.

`Describes` is what describing itself achieves: the attributes stand in their
order, and the one that no object can hold is left out.  The marks are the groups
on the way from the root, each nested in the one before, so a group that is
marked already is nested in itself, and the depth that the heap allows is never
used up (`description_ends`).  Wherever no group is nested in itself there is a
description, and it records the group (`description_records`).

A description is finite, so the way down from a described group comes to an end
wherever it goes (`Describes.acc`), and no group on it is nested in itself.  Hence
describing fails exactly where some group is, whatever else groups are linked to and
however often they are shared (`description_fails_iff`).
-/
import AttributeGraph.Description.Recording
import AttributeGraph.Path
import AttributeGraph.Proofs.Related
import AttributeGraph.Proofs.WellFormed

namespace AttributeGraph

/-! ### Parts of a description -/

/-- The attributes, none if there is no list of them. -/
def Description.fields (d : Description) : List (String × NestedDescription) :=
  d.attributes.getD []

namespace NestedDescription

/-- The descriptions of the typed groups of a side. -/
def typed (d : NestedDescription) : Side → List Description
  | .value => d.typeGroups.getD []
  | .key => d.keyTypeGroups.getD []

/-- The description of the primary group of a side, where that is not a typed one. -/
def lone (d : NestedDescription) : Side → Option Description
  | .value => d.group
  | .key => d.keyGroup

/-- The descriptions of the groups in the slot of a side, the primary one last. -/
def groups (d : NestedDescription) (side : Side) : List Description :=
  d.typed side ++ (d.lone side).toList

end NestedDescription

/-! ### Descriptions in progress -/

namespace Describing

variable {α β : Type}

/-- A description in progress succeeds, from marks to marks. -/
def Runs (m : Describing α) (marks : List GroupId) (a : α) (marks' : List GroupId) : Prop :=
  (m.run marks).run = some (.ok (a, marks'))

theorem Runs.pure (a : α) (marks : List GroupId) : Runs (Pure.pure a) marks a marks := rfl

theorem Runs.bind {m : Describing α} {f : α → Describing β} {a : α} {b : β}
    {marks marks' marks'' : List GroupId} (hm : Runs m marks a marks')
    (hf : Runs (f a) marks' b marks'') : Runs (m >>= f) marks b marks'' := by
  unfold Runs at hm hf ⊢
  rw [StateT.run_bind, ExceptT.run_bind, hm]
  exact hf

theorem Runs.get (marks : List GroupId) : Runs MonadState.get marks marks marks := rfl

theorem Runs.modify (f : List GroupId → List GroupId) (marks : List GroupId) :
    Runs (modify f) marks ⟨⟩ (f marks) := rfl

/-- A description in progress fails. -/
def Fails (m : Describing α) (marks : List GroupId) (e : Error) : Prop :=
  (m.run marks).run = some (.error e)

theorem Fails.throw (e : Error) (marks : List GroupId) :
    Fails (MonadExcept.throw e : Describing α) marks e := rfl

theorem Fails.bind {m : Describing α} {f : α → Describing β} {e : Error} {marks : List GroupId}
    (hm : Fails m marks e) : Fails (m >>= f) marks e := by
  unfold Fails at hm ⊢
  rw [StateT.run_bind, ExceptT.run_bind, hm]
  rfl

theorem Runs.bind_fails {m : Describing α} {f : α → Describing β} {a : α} {e : Error}
    {marks marks' : List GroupId} (hm : Runs m marks a marks') (hf : Fails (f a) marks' e) :
    Fails (m >>= f) marks e := by
  unfold Runs at hm
  unfold Fails at hf ⊢
  rw [StateT.run_bind, ExceptT.run_bind, hm]
  exact hf

/-- A description in progress yields something and leaves the marks as they are, or it fails. -/
def Ends (m : Describing α) (marks : List GroupId) (P : α → Prop) (E : Error → Prop) : Prop :=
  (∃ a, Runs m marks a marks ∧ P a) ∨ ∃ e, Fails m marks e ∧ E e

section Ends

variable {marks : List GroupId} {E : Error → Prop}

theorem Ends.pure {P : α → Prop} {a : α} (ha : P a) : Ends (Pure.pure a) marks P E :=
  .inl ⟨a, Runs.pure a marks, ha⟩

theorem Ends.bind {m : Describing α} {f : α → Describing β} {P : α → Prop} {Q : β → Prop}
    (hm : Ends m marks P E) (hf : ∀ a, P a → Ends (f a) marks Q E) :
    Ends (m >>= f) marks Q E := by
  rcases hm with ⟨a, hrun, ha⟩ | ⟨e, hfail, he⟩
  · rcases hf a ha with ⟨b, hnext, hb⟩ | ⟨e, hfail, he⟩
    · exact .inl ⟨b, hrun.bind hnext, hb⟩
    · exact .inr ⟨e, hrun.bind_fails hfail, he⟩
  · exact .inr ⟨e, hfail.bind, he⟩

/-- Every element is described, or the first one that cannot be makes the whole list fail. -/
theorem ends_mapM {P : α → β → Prop} {f : α → Describing β} {l : List α}
    (hf : ∀ a ∈ l, Ends (f a) marks (P a) E) : Ends (l.mapM f) marks (List.Forall₂ P l) E := by
  induction l with
  | nil => exact .pure .nil
  | cons a l ih =>
    rw [List.forall_mem_cons] at hf
    rw [List.mapM_cons]
    exact hf.1.bind fun b hb => (ih hf.2).bind fun bs hbs => .pure (.cons hb hbs)

end Ends

end Describing

/-! ### The groups of a slot in the order of their descriptions -/

namespace Heap

theorem mem_typedInOrder {s : Slot} {g : GroupId} : g ∈ typedInOrder s ↔ g ∈ s.typed := by
  unfold typedInOrder
  cases s.primary with
  | none => rfl
  | some p =>
    by_cases hp : p ∈ s.typed
    · simp only [hp, if_true]
      exact (List.perm_cons_erase hp).symm.mem_iff
    · simp only [hp, if_false]

theorem mem_siblings {s : Slot} {g : GroupId} : g ∈ siblings s ↔ g ∈ s.groups := by
  simp [siblings, Slot.groups, or_comm]

/-- The primary group of a slot, unless it is a typed one. -/
def lonePrimary (s : Slot) : Option GroupId := s.primary.filter (· ∉ s.typed)

theorem mem_groups_of_lonePrimary {s : Slot} {g : GroupId} (hg : lonePrimary s = some g) :
    g ∈ s.groups :=
  Slot.mem_groups.2 (.inl (Option.filter_eq_some_iff.1 hg).1)

/-- The groups of a slot in the order of their descriptions. -/
def describedGroups (s : Slot) : List GroupId := typedInOrder s ++ (lonePrimary s).toList

theorem mem_describedGroups {s : Slot} {g : GroupId} : g ∈ describedGroups s ↔ g ∈ s.groups := by
  rw [describedGroups, List.mem_append, mem_typedInOrder, Option.mem_toList, Slot.mem_groups,
    lonePrimary, Option.filter_eq_some_iff, decide_eq_true_iff]
  tauto

end Heap

/-! ### Recording a group -/

/-- Descriptions record the groups of a slot. -/
structure SlotRecorded (P : List GroupId → GroupId → Description → Prop) (s : Slot)
    (typed : List Description) (lone : Option Description) : Prop where
  typed : List.Forall₂ (P (Heap.siblings s)) (Heap.typedInOrder s) typed
  lone : Option.Rel (P (Heap.siblings s)) (Heap.lonePrimary s) lone

variable {P Q : List GroupId → GroupId → Description → Prop}

theorem SlotRecorded.described {s : Slot} {typed : List Description} {lone : Option Description}
    (hs : SlotRecorded P s typed lone) :
    List.Forall₂ (P (Heap.siblings s)) (Heap.describedGroups s) (typed ++ lone.toList) :=
  List.rel_append hs.typed (forall₂_toList hs.lone)

theorem SlotRecorded.mono {s : Slot} {typed : List Description} {lone : Option Description}
    (hPQ : ∀ y d, y ∈ s.groups → P (Heap.siblings s) y d → Q (Heap.siblings s) y d)
    (hs : SlotRecorded P s typed lone) : SlotRecorded Q s typed lone where
  typed := by
    have hmem : ∀ y ∈ Heap.typedInOrder s, y ∈ s.groups := by
      intro y hy
      exact Slot.mem_groups.2 (.inr (Heap.mem_typedInOrder.1 hy))
    have hboth := (List.forall₂_and_left _ _).2 ⟨hmem, hs.typed⟩
    exact hboth.imp fun y d hy => hPQ y d hy.1 hy.2
  lone := by
    have hlone := hs.lone
    cases hy : Heap.lonePrimary s with
    | none =>
      rw [hy] at hlone
      cases hlone
      exact .none
    | some y =>
      rw [hy] at hlone
      cases hlone with
      | some hd => exact .some (hPQ y _ (Heap.mem_groups_of_lonePrimary hy) hd)

namespace Heap

variable {h : Heap}

/-- A description records a group among its siblings, and its nested groups are recorded in the
sense of `P`. -/
structure GroupRecorded (h : Heap) (P : List GroupId → GroupId → Description → Prop)
    (among : List GroupId) (g : GroupId) (d : Description) : Prop where
  name : d.name = (h.group g).name
  typeName : d.typeName = (h.group g).typeName
  super : d.superTypeName = h.siblingTypeName among g
  validated : d.validated.getD false = (h.group g).validated
  kind : d.kind.getD .generic = (h.variantOf g).kind
  names : (d.fields.map Prod.fst).Perm (h.group g).items.keys
  slots : ∀ n item i, (n, item) ∈ d.fields → (h.group g).items.find? n = some i → ∀ side,
    SlotRecorded P ((h.item i).slot side) (item.typed side) (item.lone side)

/-- A description records a group and all that is nested in it. -/
inductive Records (h : Heap) : List GroupId → GroupId → Description → Prop
  | intro {among : List GroupId} {g : GroupId} {d : Description}
      (P : List GroupId → GroupId → Description → Prop)
      (hP : ∀ among g d, P among g d → Records h among g d)
      (hd : h.GroupRecorded P among g d) : Records h among g d

theorem GroupRecorded.mono {among : List GroupId} {g : GroupId} {d : Description}
    (hPQ : ∀ among y d, h.Nests g y → P among y d → Q among y d)
    (hd : h.GroupRecorded P among g d) : h.GroupRecorded Q among g d :=
  { hd with
    slots := by
      intro n item i hn hi side
      refine (hd.slots n item i hn hi side).mono fun y d hy => hPQ _ y d ?_
      exact .intro side (mem_itemIds_of_find? hi) hy }

theorem GroupRecorded.nodup_names {among : List GroupId} {g : GroupId} {d : Description}
    (hd : h.GroupRecorded P among g d) : (d.fields.map Prod.fst).Nodup :=
  hd.names.nodup_iff.2 (h.group g).items.nodup_keys

/-- Every attribute of a description belongs to an item. -/
theorem GroupRecorded.exists_item {among : List GroupId} {g : GroupId} {d : Description}
    (hd : h.GroupRecorded P among g d) {a : String × NestedDescription} (ha : a ∈ d.fields) :
    ∃ i, (h.group g).items.find? a.1 = some i ∧
      ∀ side, SlotRecorded P ((h.item i).slot side) (a.2.typed side) (a.2.lone side) := by
  have hkey : a.1 ∈ (h.group g).items.keys := hd.names.mem_iff.1 (List.mem_map_of_mem ha)
  obtain ⟨i, hi⟩ := OrderedMap.exists_find?_of_mem_keys hkey
  exact ⟨i, hi, hd.slots a.1 a.2 i ha hi⟩

/-- A description that records a group records all groups nested in it. -/
theorem Records.recorded {among : List GroupId} {g : GroupId} {d : Description}
    (hrec : h.Records among g d) : h.GroupRecorded h.Records among g d := by
  obtain ⟨P, hP, hd⟩ := hrec
  exact hd.mono fun among y d _ => hP among y d

/-- What holds of a recorded group whenever it holds of the groups nested in it, holds of all. -/
theorem Records.induct {motive : List GroupId → GroupId → Description → Prop}
    (step : ∀ among g d,
      h.GroupRecorded (fun among y d => h.Nests g y ∧ h.Records among y d ∧ motive among y d)
        among g d → motive among g d)
    {among : List GroupId} {g : GroupId} {d : Description} (hrec : h.Records among g d) :
    motive among g d := by
  induction hrec with
  | intro P hP hd ih =>
    exact step _ _ _ (hd.mono fun among y d hy hyd => ⟨hy, hP among y d hyd, ih among y d hyd⟩)

/-! ### What a description can hold -/

/-- A description can hold the groups of a slot: those filed per type have a type name and stand
under their present tags, no two groups have the same type name, and a super group is another
group of the slot that has a type name. -/
structure SlotStorable (h : Heap) (s : Slot) : Prop where
  filed : ∀ k y, s.find? k = some y → h.tag? y = some k ∧ (h.group y).typeName.isSome = true
  distinct : ∀ y ∈ s.groups, ∀ z ∈ s.groups, ∀ n, (h.group y).typeName = some n →
    (h.group z).typeName = some n → y = z
  super : ∀ y ∈ s.groups, ∀ p, (h.group y).above = some p →
    p ∈ s.groups ∧ p ≠ y ∧ (h.group p).typeName.isSome = true

/-- A description can hold a group, apart from what is nested in the groups of its slots. -/
structure GroupStorable (h : Heap) (g : GroupId) : Prop where
  segments : ∀ n ∈ (h.group g).items.keys, IsSegment n
  noProto : "__proto__" ∉ (h.group g).items.keys
  typeName : ∀ n, (h.group g).typeName = some n → n ≠ ""
  slots : ∀ i ∈ (h.group g).itemIds, ∀ side, h.SlotStorable ((h.item i).slot side)

/-- No group of the tree below a group is nested in itself. -/
def Acyclic (h : Heap) (g : GroupId) : Prop :=
  ∀ x, h.Within g x → ¬ Relation.TransGen h.Nests x x

/-- A description can hold a group and all that is nested in it. -/
structure Storable (h : Heap) (g : GroupId) : Prop where
  acyclic : h.Acyclic g
  group : ∀ x, h.Within g x → h.GroupStorable x

/-! ### Deciding it -/

instance (h : Heap) (s : Slot) : Decidable (h.SlotStorable s) :=
  decidable_of_iff
    ((∀ e ∈ (s.byType.getD .empty).entries,
        h.tag? e.2 = some e.1 ∧ (h.group e.2).typeName.isSome = true) ∧
      (∀ y ∈ s.groups, ∀ z ∈ s.groups, ∀ n ∈ (h.group y).typeName,
        (h.group z).typeName = some n → y = z) ∧
      ∀ y ∈ s.groups, ∀ p ∈ (h.group y).above,
        p ∈ s.groups ∧ p ≠ y ∧ (h.group p).typeName.isSome = true) <| by
    have hfiled : (∀ e ∈ (s.byType.getD .empty).entries,
        h.tag? e.2 = some e.1 ∧ (h.group e.2).typeName.isSome = true) ↔
        ∀ k y, s.find? k = some y → h.tag? y = some k ∧ (h.group y).typeName.isSome = true := by
      simp only [← Slot.find?_getD, OrderedMap.find?_eq_some_iff, Prod.forall]
    rw [hfiled]
    exact ⟨fun ⟨hf, hd, hs⟩ => ⟨hf, fun y hy z hz n hn => hd y hy z hz n hn, hs⟩,
      fun ⟨hf, hd, hs⟩ => ⟨hf, fun y hy z hz n hn => hd y hy z hz n hn, hs⟩⟩

instance (h : Heap) (g : GroupId) : Decidable (h.GroupStorable g) :=
  decidable_of_iff
    ((∀ n ∈ (h.group g).items.keys, IsSegment n) ∧ "__proto__" ∉ (h.group g).items.keys ∧
      (∀ n ∈ (h.group g).typeName, n ≠ "") ∧ ∀ i ∈ (h.group g).itemIds,
        h.SlotStorable (h.item i).value ∧ h.SlotStorable (h.item i).key) <| by
    constructor
    · intro hsegments
      obtain ⟨hsegments, hproto, hname, hslots⟩ := hsegments
      refine ⟨hsegments, hproto, hname, fun i hi side => ?_⟩
      cases side with
      | value => exact (hslots i hi).1
      | key => exact (hslots i hi).2
    · intro hsegments
      obtain ⟨hsegments, hproto, hname, hslots⟩ := hsegments
      exact ⟨hsegments, hproto, hname, fun i hi => ⟨hslots i hi .value, hslots i hi .key⟩⟩

/-- It is enough that every group of the heap can be stored and holds later ones only. -/
theorem storable_of_later {g : GroupId} (hclosed : h.Closed) (hg : h.HasGroup g)
    (hall : ∀ x ∈ h.groupIds, h.GroupStorable x ∧
      ∀ i ∈ (h.group x).itemIds, ∀ y ∈ (h.item i).nested, x.index < y.index) : h.Storable g := by
  have hwithin := hclosed.hasGroup_within hg
  have hlater : ∀ x y, Relation.TransGen h.Nests x y → x.index < y.index := by
    have hstep : ∀ x y, h.Nests x y → x.index < y.index := by
      intro x y hy
      obtain ⟨side, hi, hy⟩ := hy
      exact (hall x (mem_groupIds.2 (hasGroup_of_mem_itemIds hi))).2 _ hi y
        (Item.mem_nested.2 ⟨side, hy⟩)
    intro x y hxy
    induction hxy with
    | single hxy => exact hstep x _ hxy
    | tail _ hyz ih => exact Nat.lt_trans ih (hstep _ _ hyz)
  exact ⟨fun x _ hx => Nat.lt_irrefl _ (hlater x x hx),
    fun x hx => (hall x (mem_groupIds.2 (hwithin x hx))).1⟩

/-! ### Describing -/

open Describing (Runs Fails Ends ends_mapM)

theorem ends_slot {describe : List GroupId → GroupId → Describing Description} {s : Slot}
    {marks : List GroupId} {E : Error → Prop}
    (hs : ∀ y ∈ s.groups, Ends (describe (siblings s) y) marks (P (siblings s) y) E) :
    Ends (slotDescriptions describe s) marks
      (fun r => SlotRecorded P s (r.2.getD []) r.1) E := by
  have htyped : Ends ((typedInOrder s).mapM (describe (siblings s))) marks _ E :=
    ends_mapM fun y hy => hs y (Slot.mem_groups.2 (.inr (mem_typedInOrder.1 hy)))
  have hlone : Ends ((lonePrimary s).toList.mapM (describe (siblings s))) marks _ E :=
    ends_mapM fun y hy => hs y (mem_groups_of_lonePrimary (Option.mem_toList.1 hy))
  refine htyped.bind fun typed hall => hlone.bind fun lone hone => .pure ⟨?_, ?_⟩
  · -- no list and the empty list are the same typed groups
    cases typed <;> exact hall
  · cases hp : lonePrimary s with
    | none =>
      rw [hp] at hone
      obtain rfl := List.forall₂_nil_left_iff.1 hone
      exact .none
    | some p =>
      rw [hp] at hone
      obtain ⟨d, rest, hd, hrest, rfl⟩ := List.forall₂_cons_left_iff.1 hone
      exact .some hd

theorem ends_item {describe : List GroupId → GroupId → Describing Description} {i : Item}
    {marks : List GroupId} {E : Error → Prop}
    (hi : ∀ side, ∀ y ∈ (i.slot side).groups,
      Ends (describe (siblings (i.slot side)) y) marks (P (siblings (i.slot side)) y) E) :
    Ends (itemDescription describe i) marks (fun item =>
      ∀ side, SlotRecorded P (i.slot side) (item.typed side) (item.lone side)) E := by
  refine (ends_slot (hi .value)).bind fun value hvalue =>
    (ends_slot (hi .key)).bind fun key hkey => .pure fun side => ?_
  cases side with
  | value => exact hvalue
  | key => exact hkey

/-- The description of a group, given those of its attributes. -/
def describedWith (h : Heap) (among : List GroupId) (g : GroupId)
    (attributes : List (String × NestedDescription)) : Description where
  name := (h.group g).name
  typeName := (h.group g).typeName
  superTypeName := h.siblingTypeName among g
  validated := if (h.group g).validated then some true else none
  kind := if (h.variantOf g).kind = .generic then none else some (h.variantOf g).kind
  attributes :=
    if (h.group g).hasAttributes then some (attributes.filter fun e => e.1 ≠ "__proto__") else none

/-- A group that is not marked is described once its attributes are, with itself marked. -/
theorem runs_describeWithin {fuel : Nat} {among : List GroupId} {g : GroupId}
    {marks : List GroupId} {attributes : List (String × NestedDescription)} (hg : g ∉ marks)
    (hrun : Runs ((h.group g).items.entries.mapM fun e => do
      return (e.1, ← itemDescription (h.describeWithin fuel) (h.item e.2)))
      (g :: marks) attributes (g :: marks)) :
    Runs (h.describeWithin (fuel + 1) among g) marks (h.describedWith among g attributes)
      marks := by
  unfold describeWithin
  refine (Runs.get marks).bind ?_
  rw [if_neg hg]
  refine (Runs.modify _ marks).bind (hrun.bind ((Runs.modify _ _).bind ?_))
  rw [List.erase_cons_head]
  exact Runs.pure _ marks

/-- A group that is marked is nested in itself, and there is no description of it. -/
theorem fails_describeWithin {fuel : Nat} {among : List GroupId} {g : GroupId}
    {marks : List GroupId} (hg : g ∈ marks) : Fails (h.describeWithin (fuel + 1) among g) marks
      (.descriptionCycle (.text (h.pathTo g)) (h.group g).name) := by
  unfold describeWithin
  refine (Runs.get marks).bind_fails ?_
  rw [if_pos hg]
  exact (Fails.throw _ marks).bind

theorem ends_describeWithin {fuel : Nat} {among : List GroupId} {g : GroupId}
    {marks : List GroupId} {Q : List (String × NestedDescription) → Prop} {E : Error → Prop}
    (hg : g ∉ marks) (hends : Ends ((h.group g).items.entries.mapM fun e => do
      return (e.1, ← itemDescription (h.describeWithin fuel) (h.item e.2))) (g :: marks) Q E) :
    Ends (h.describeWithin (fuel + 1) among g) marks
      (fun d => ∃ attributes, d = h.describedWith among g attributes ∧ Q attributes) E := by
  rcases hends with ⟨attributes, hrun, hattributes⟩ | ⟨e, hfail, he⟩
  · exact .inl ⟨_, runs_describeWithin hg hrun, attributes, rfl, hattributes⟩
  · refine .inr ⟨e, ?_, he⟩
    unfold describeWithin
    refine (Runs.get marks).bind_fails ?_
    rw [if_neg hg]
    exact (Runs.modify _ marks).bind_fails hfail.bind

/-- An attribute is described under its name, with the groups nested in its item. -/
def FieldDescribed (h : Heap) (P : List GroupId → GroupId → Description → Prop)
    (e : String × ItemId) (a : String × NestedDescription) : Prop :=
  e.1 = a.1 ∧ ∀ side, SlotRecorded P ((h.item e.2).slot side) (a.2.typed side) (a.2.lone side)

/-- A description says of a group, and of all groups that are nested in it, what is to be written
down of them. -/
inductive Describes (h : Heap) : List GroupId → GroupId → Description → Prop
  | intro {among : List GroupId} {g : GroupId} {attributes : List (String × NestedDescription)}
      (P : List GroupId → GroupId → Description → Prop)
      (hP : ∀ among g d, P among g d → Describes h among g d)
      (hall : List.Forall₂ (h.FieldDescribed P) (h.group g).items.entries attributes) :
      Describes h among g (h.describedWith among g attributes)

/-- What is written down of a group and its attributes records the group. -/
theorem describedWith_recorded {among : List GroupId} {g : GroupId}
    {attributes : List (String × NestedDescription)}
    (hproto : "__proto__" ∉ (h.group g).items.keys)
    (hall : List.Forall₂ (h.FieldDescribed P) (h.group g).items.entries attributes) :
    h.GroupRecorded P among g (h.describedWith among g attributes) := by
  have hnames : (h.group g).items.keys = attributes.map Prod.fst :=
    map_eq_of_forall₂ (fun _ _ ha => ha.1) hall
  have hfields : (h.describedWith among g attributes).fields = attributes := by
    have hkept : attributes.filter (fun e => e.1 ≠ "__proto__") = attributes := by
      rw [List.filter_eq_self]
      intro a ha
      rw [hnames] at hproto
      exact decide_eq_true fun hname => hproto (hname ▸ List.mem_map_of_mem ha)
    show (if (h.group g).hasAttributes then some (attributes.filter _) else none).getD [] =
      attributes
    rw [hkept]
    cases hitems : (h.group g).items.entries with
    | nil =>
      rw [hitems] at hall
      obtain rfl := List.forall₂_nil_left_iff.1 hall
      cases (h.group g).hasAttributes <;> rfl
    | cons e rest =>
      rw [if_pos (by simp [Group.hasAttributes, OrderedMap.isEmpty, hitems])]
      rfl
  refine ⟨rfl, rfl, rfl, ?_, ?_, ?_, ?_⟩
  · show (if (h.group g).validated then some true else none).getD false = _
    cases (h.group g).validated <;> rfl
  · show (if (h.variantOf g).kind = .generic then none else some _).getD _ = _
    by_cases hkind : (h.variantOf g).kind = .generic
    · rw [if_pos hkind, hkind]
      rfl
    · rw [if_neg hkind]
      rfl
  · rw [hfields, hnames]
  · rw [hfields]
    intro n item i hn hi side
    obtain ⟨e, he, hname, hslots⟩ := exists_left_of_mem hall hn
    -- a name is filed once, so the entry is that of the item
    have hfound := OrderedMap.find?_eq_some_iff.2 he
    rw [show e.1 = n from hname, hi] at hfound
    obtain rfl := Option.some.inj hfound
    exact hslots side

/-- Different groups of the heap are no more than it holds. -/
theorem length_le_of_nodup {marks : List GroupId} (hnodup : marks.Nodup)
    (hmarks : ∀ m ∈ marks, h.HasGroup m) : marks.length ≤ h.groups.size := by
  have hsub : marks ⊆ h.groupIds := fun m hm => mem_groupIds.2 (hmarks m hm)
  have hle := (List.subperm_of_subset hnodup hsub).length_le
  rw [groupIds, List.length_map, List.length_range] at hle
  exact hle

/-- An error says that a group of a tree is nested in itself. -/
def CycleIn (h : Heap) (g : GroupId) (e : Error) : Prop :=
  ∃ x, h.Within g x ∧ Relation.TransGen h.Nests x x ∧
    e = .descriptionCycle (.text (h.pathTo x)) (h.group x).name

/-- Below the marked groups, each of which leads to the next, a group is described, or one of its
tree is nested in itself. -/
theorem describeWithin_ends {g : GroupId} :
    ∀ (fuel : Nat) (among : List GroupId) (x : GroupId) (marks : List GroupId),
      h.Within g x → (∀ m ∈ marks, h.HasGroup m ∧ Relation.TransGen h.Nests m x) → marks.Nodup →
      h.groups.size + 2 ≤ fuel + marks.length →
      Ends (h.describeWithin fuel among x) marks (h.Describes among x) (h.CycleIn g) := by
  intro fuel
  induction fuel with
  | zero =>
    intro among x marks _ hmarks hnodup hle
    have := length_le_of_nodup hnodup fun m hm => (hmarks m hm).1
    omega
  | succ fuel ih =>
    intro among x marks hx hmarks hnodup hle
    by_cases hmem : x ∈ marks
    · exact .inr ⟨_, fails_describeWithin hmem, x, hx, (hmarks x hmem).2, rfl⟩
    -- one level down, the group itself is marked too
    have hnested : ∀ among y, h.Nests x y →
        Ends (h.describeWithin fuel among y) (x :: marks) (h.Describes among y) (h.CycleIn g) := by
      intro among y hxy
      refine ih among y (x :: marks) (hx.tail hxy) ?_ (List.nodup_cons.2 ⟨hmem, hnodup⟩) ?_
      · intro m hm
        rcases List.mem_cons.1 hm with rfl | hm
        · obtain ⟨side, hi, hy⟩ := hxy
          exact ⟨hasGroup_of_mem_itemIds hi, .single ⟨side, hi, hy⟩⟩
        · exact ⟨(hmarks m hm).1, (hmarks m hm).2.tail hxy⟩
      · rw [List.length_cons]
        omega
    have hfields : ∀ e ∈ (h.group x).items.entries,
        Ends (do return (e.1, ← itemDescription (h.describeWithin fuel) (h.item e.2))) (x :: marks)
          (h.FieldDescribed h.Describes e) (h.CycleIn g) := by
      intro e he
      have hitem := OrderedMap.mem_values.2 ⟨e.1, OrderedMap.find?_eq_some_iff.2 he⟩
      refine (ends_item (i := h.item e.2) fun side y hy => hnested _ y (.intro side hitem hy)).bind
        fun item hitem => .pure ⟨rfl, hitem⟩
    have hends : Ends (h.describeWithin (fuel + 1) among x) marks _ _ :=
      ends_describeWithin hmem (ends_mapM hfields)
    rcases hends with ⟨d, hrun, attributes, rfl, hall⟩ | hfail
    · exact .inl ⟨_, hrun, .intro h.Describes (fun _ _ _ hd => hd) hall⟩
    · exact .inr hfail

/-- **A group has a description, or a group of its tree is nested in itself.** -/
theorem description_ends (h : Heap) (g : GroupId) :
    (∃ d, h.description g = .ok d ∧ h.Describes [] g d) ∨
      ∃ e, h.description g = .error e ∧ h.CycleIn g e := by
  have hends := describeWithin_ends (h := h) (h.groups.size + 2) [] g [] .refl
    (fun m hm => absurd hm List.not_mem_nil) List.nodup_nil (Nat.le_refl _)
  unfold description
  rcases hends with ⟨d, hrun, hd⟩ | ⟨e, hfail, he⟩
  · rw [show (h.describeWithin (h.groups.size + 2) [] g).run [] = some (.ok (d, [])) from hrun]
    exact .inl ⟨d, rfl, hd⟩
  · rw [show (h.describeWithin (h.groups.size + 2) [] g).run [] = some (.error e) from hfail]
    exact .inr ⟨e, rfl, he⟩

section Describe

variable {g : GroupId} (hproto : ∀ x, h.Within g x → "__proto__" ∉ (h.group x).items.keys)

include hproto

/-- Where nothing is left out, what is written down of groups records them. -/
theorem Describes.records {among : List GroupId} {x : GroupId} {d : Description}
    (hd : h.Describes among x d) (hx : h.Within g x) : h.Records among x d := by
  induction hd with
  | @intro among x attributes P hP hall ih =>
    have hrec : h.GroupRecorded P among x (h.describedWith among x attributes) :=
      describedWith_recorded (hproto x hx) hall
    exact .intro h.Records (fun _ _ _ hd => hd)
      (hrec.mono fun among y d hxy hyd => ih among y d hyd (hx.tail hxy))

/-- **A group has a description that records it** if no group of its tree is nested in itself or
has an attribute that no object can hold. -/
theorem description_records (hacyclic : h.Acyclic g) :
    ∃ d, h.description g = .ok d ∧ h.Records [] g d := by
  rcases description_ends h g with ⟨d, hd, hdescribes⟩ | ⟨e, -, x, hx, hcycle, -⟩
  · exact ⟨d, hd, hdescribes.records hproto .refl⟩
  · exact absurd hcycle (hacyclic x hx)

end Describe

/-! ### Groups nested in themselves -/

section SelfNesting

variable {g x : GroupId} {d : Description} {among : List GroupId}

/-- All groups nested in a described group are described too. -/
theorem FieldDescribed.nested {P : List GroupId → GroupId → Description → Prop}
    {attributes : List (String × NestedDescription)}
    (hall : List.Forall₂ (h.FieldDescribed P) (h.group x).items.entries attributes)
    {y : GroupId} (hxy : h.Nests x y) : ∃ among d, P among y d := by
  obtain ⟨side, hi, hy⟩ := hxy
  obtain ⟨n, hn⟩ := OrderedMap.mem_values.1 hi
  obtain ⟨a, -, -, hslots⟩ := exists_right_of_mem hall (OrderedMap.find?_eq_some_iff.1 hn)
  obtain ⟨d, -, hd⟩ := exists_right_of_mem (hslots side).described (mem_describedGroups.2 hy)
  exact ⟨_, d, hd⟩

/-- The way down from a described group comes to an end. -/
theorem Describes.acc (hd : h.Describes among x d) : Acc (fun y x => h.Nests x y) x := by
  induction hd with
  | intro P hP hall ih =>
    refine .intro _ fun y hxy => ?_
    obtain ⟨among, d, hd⟩ := FieldDescribed.nested hall hxy
    exact ih among y d hd

theorem not_nests_self_of_acc (hx : Acc (fun y x => h.Nests x y) x) :
    ¬ Relation.TransGen h.Nests x x := by
  induction hx with
  | intro x _ ih =>
    intro hcycle
    -- the first group on the way around is nested in itself too
    obtain ⟨y, hxy, hyx⟩ := Relation.TransGen.head'_iff.1 hcycle
    exact ih y hxy (Relation.TransGen.tail' hyx hxy)

/-- No group of a tree that has been described is nested in itself. -/
theorem Describes.acyclic (hd : h.Describes among g d) : h.Acyclic g := by
  intro x hx
  refine not_nests_self_of_acc ?_
  induction hx with
  | refl => exact hd.acc
  | tail _ hxy ih => exact ih.inv hxy

/-- **Describing a group fails exactly if a group of its tree is nested in itself**, and the error
names such a group.  Otherwise the group has a description, which says of every group of the tree
what is to be written down of it. -/
theorem description_fails_iff (h : Heap) (g : GroupId) :
    ((∃ e, h.description g = .error e) ↔
      ∃ x, h.Within g x ∧ Relation.TransGen h.Nests x x) ∧
    (∀ e, h.description g = .error e → h.CycleIn g e) ∧
    (h.Acyclic g → ∃ d, h.description g = .ok d ∧ h.Describes [] g d) := by
  rcases description_ends h g with ⟨d, hd, hdescribes⟩ | ⟨e, he, x, hx, hcycle, hname⟩
  · have hacyclic := hdescribes.acyclic
    rw [hd]
    refine ⟨iff_of_false ?_ ?_, fun e he => ?_, fun _ => ⟨d, rfl, hdescribes⟩⟩
    · rintro ⟨e, he⟩
      cases he
    · rintro ⟨x, hx, hcycle⟩
      exact hacyclic x hx hcycle
    · cases he
  · rw [he]
    refine ⟨iff_of_true ⟨e, rfl⟩ ⟨x, hx, hcycle⟩, fun e' he' => ?_, fun hacyclic => ?_⟩
    · obtain rfl := Except.error.inj he'
      exact ⟨x, hx, hcycle, hname⟩
    · exact absurd hcycle (hacyclic x hx)

end SelfNesting

end Heap

end AttributeGraph
