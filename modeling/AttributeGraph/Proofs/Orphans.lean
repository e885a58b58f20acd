/-
Groups whose super type is missing.

A description of a group is an orphan if it names a super type which no other
description in the same slot has.  `Description.orphans` lists the orphans inside a
description, each with the names of the attributes that lead to it, slot by slot.

Once groups have been built for a slot, the orphans among them can be told from
the descriptions alone (`missingSupers_orphans`), and in a heap an orphan is found
at the end of its names (`Located`).  This remains so while the group above, and
whatever is above that one, is nested somewhere (`Settles.located_under`).
-/
import AttributeGraph.Proofs.Reporting
import AttributeGraph.Proofs.Untangled

namespace AttributeGraph

/-! ### Orphans -/

/-- A described group that names a super type which no other group of its slot has. -/
structure Orphan where
  /-- The names of the attributes that lead to it. -/
  names : List String
  name : String
  superTypeName : String
deriving DecidableEq

namespace Orphan

/-- The same one, seen from the group that has an attribute. -/
def under (n : String) (o : Orphan) : Orphan := { o with names := n :: o.names }

/-- What is reported of it: of the names that lead to it only the last one. -/
def diagnostic (o : Orphan) : Diagnostic :=
  .superTypeUnresolved (o.names.getLast?.getD "") o.name o.superTypeName

/-- The names in front of the last one make no difference. -/
theorem diagnostic_under {o : Orphan} (ho : o.names ≠ []) (n : String) :
    (o.under n).diagnostic = o.diagnostic := by
  obtain ⟨names, name, superTypeName⟩ := o
  cases names with
  | nil => exact absurd rfl ho
  | cons m names =>
    unfold diagnostic under
    rw [List.getLast?_cons_cons]

end Orphan

/-- The groups of a slot that are orphans. -/
def slotOrphans (ds : List Description) : List Orphan :=
  ds.zipIdx.filterMap fun e =>
    (e.1.superTypeName.filter fun _ => Description.superPlace ds e.2 = none).map
      (Orphan.mk [] e.1.name)

mutual
/-- The orphans inside a description, slot by slot, those deeper down first. -/
def Description.orphans : Description → List Orphan
  | ⟨_, _, _, _, _, attributes⟩ => attributesOrphans attributes
termination_by structural d => d
/-- The orphans below the attributes of a group, if there are any. -/
def attributesOrphans : Option (List (String × NestedDescription)) → List Orphan
  | none => []
  | some attributes => itemsOrphans attributes
termination_by structural attributes => attributes
/-- The orphans below attributes, in order. -/
def itemsOrphans : List (String × NestedDescription) → List Orphan
  | [] => []
  | (n, item) :: rest => item.orphans.map (.under n) ++ itemsOrphans rest
termination_by structural attributes => attributes
/-- The orphans in the slots of an item and below. -/
def NestedDescription.orphans : NestedDescription → List Orphan
  | ⟨group, typeGroups, keyGroup, keyTypeGroups⟩ =>
    (typedOrphans typeGroups ++ loneOrphans group ++
      slotOrphans (typeGroups.getD [] ++ group.toList)) ++
    (typedOrphans keyTypeGroups ++ loneOrphans keyGroup ++
      slotOrphans (keyTypeGroups.getD [] ++ keyGroup.toList))
termination_by structural d => d
/-- The orphans inside the primary group of a slot, if there is one. -/
def loneOrphans : Option Description → List Orphan
  | none => []
  | some d => d.orphans
termination_by structural d => d
/-- The orphans inside the typed groups of a slot, if there are any. -/
def typedOrphans : Option (List Description) → List Orphan
  | none => []
  | some ds => groupsOrphans ds
termination_by structural ds => ds
/-- The orphans inside groups, in order. -/
def groupsOrphans : List Description → List Orphan
  | [] => []
  | d :: rest => d.orphans ++ groupsOrphans rest
termination_by structural ds => ds
end

/-- The orphans of one slot of an item: those inside its groups, then those that its groups are. -/
def NestedDescription.orphansIn (item : NestedDescription) (side : Side) : List Orphan :=
  (item.groups side).flatMap Description.orphans ++ slotOrphans (item.groups side)

theorem groupsOrphans_eq (ds : List Description) :
    groupsOrphans ds = ds.flatMap Description.orphans := by
  induction ds with
  | nil => rfl
  | cons d ds ih => rw [groupsOrphans, ih, List.flatMap_cons]

theorem itemsOrphans_eq (fields : List (String × NestedDescription)) :
    itemsOrphans fields = fields.flatMap fun a => a.2.orphans.map (.under a.1) := by
  induction fields with
  | nil => rfl
  | cons a fields ih => rw [itemsOrphans, ih, List.flatMap_cons]

theorem Description.orphans_eq (d : Description) :
    d.orphans = d.fields.flatMap fun a => a.2.orphans.map (.under a.1) := by
  rw [← itemsOrphans_eq]
  obtain ⟨_, _, _, _, _, attributes⟩ := d
  cases attributes <;> rfl

theorem flatMap_groups (typed : Option (List Description)) (lone : Option Description) :
    typedOrphans typed ++ loneOrphans lone =
      (typed.getD [] ++ lone.toList).flatMap Description.orphans := by
  have htyped : typedOrphans typed = (typed.getD []).flatMap Description.orphans := by
    cases typed with
    | none => rfl
    | some ds => exact groupsOrphans_eq ds
  have hlone : loneOrphans lone = lone.toList.flatMap Description.orphans := by
    cases lone with
    | none => rfl
    | some d => exact (List.append_nil _).symm
  rw [List.flatMap_append, htyped, hlone]

theorem NestedDescription.orphans_eq (item : NestedDescription) :
    item.orphans = item.orphansIn .value ++ item.orphansIn .key := by
  obtain ⟨group, typeGroups, keyGroup, keyTypeGroups⟩ := item
  rw [orphans, flatMap_groups, flatMap_groups]
  rfl

/-- An attribute leads to every orphan inside a description. -/
theorem Description.names_ne_nil {d : Description} {o : Orphan} (ho : o ∈ d.orphans) :
    o.names ≠ [] := by
  rw [d.orphans_eq] at ho
  obtain ⟨a, -, ho⟩ := List.mem_flatMap.1 ho
  obtain ⟨o, -, rfl⟩ := List.mem_map.1 ho
  exact List.cons_ne_nil a.1 o.names

namespace Heap

variable {a b c d h : Heap} {g x y z : GroupId} {i : ItemId} {q r : List String}

/-! ### Orphans in a heap -/

/-- Going up from a group past items with the given names leads to another group. -/
inductive Hangs (h : Heap) (y : GroupId) : List String → GroupId → Prop
  | self : Hangs h y [] y
  | step {q : List String} {x : GroupId} {i : ItemId} (hq : Hangs h y q (h.item i).owner)
      (hin : h.HasItem i) (hi : (h.group x).nestedIn = some i) :
      Hangs h y (q ++ [(h.item i).name]) x

/-- What hangs below a group hangs below whatever this one hangs below later. -/
theorem Settles.hangs (hab : Settles a b) (hz : a.Hangs y q z) (hy : b.Hangs g r y) :
    b.Hangs g (r ++ q) z := by
  induction hz with
  | self => rwa [List.append_nil]
  | @step q x i _ hin hi ih =>
    obtain ⟨hname, howner⟩ := hab.item i hin
    rw [← howner] at ih
    rw [← hname, ← List.append_assoc]
    exact .step ih (hab.hasItem i hin) (hab.nestedIn x i hi)

theorem Hangs.climbs (hz : h.Hangs y q z) (hy : h.HasGroup y) (htop : (h.group y).nestedIn = none) :
    h.Climbs y q z := by
  induction hz with
  | self => exact .root hy htop
  | step _ _ hi ih => exact ih.step hi

/-- A group that hangs below another one is the orphan that has been described. -/
structure Located (h : Heap) (y : GroupId) (o : Orphan) (z : GroupId) : Prop where
  inHeap : h.HasGroup z
  name : (h.group z).name = o.name
  hangs : h.Hangs y o.names z

theorem Settles.located (hab : Settles a b) {o : Orphan} (hz : a.Located y o z) :
    b.Located y o z where
  inHeap := hab.hasGroup z hz.inHeap
  name := (hab.name z hz.inHeap).trans hz.name
  hangs := hab.hangs hz.hangs .self

/-- An orphan inside a group is one below the item that the group is nested in later. -/
theorem Settles.located_under (hab : Settles a b) {o : Orphan} (hz : a.Located y o z)
    (hi : b.HasItem i) (hy : (b.group y).nestedIn = some i) :
    b.Located (b.item i).owner (o.under (b.item i).name) z where
  inHeap := hab.hasGroup z hz.inHeap
  name := (hab.name z hz.inHeap).trans hz.name
  hangs := hab.hangs hz.hangs (.step .self hi hy)

/-- Groups have been added, each of them listed once. -/
structure Adds (a b : Heap) (zs : List GroupId) : Prop where
  new : ∀ z ∈ zs, ¬ a.HasGroup z
  inHeap : ∀ z ∈ zs, b.HasGroup z
  nodup : zs.Nodup

namespace Adds

variable {zs ws : List GroupId}

theorem nil (a b : Heap) : Adds a b [] :=
  ⟨fun _ hz => absurd hz List.not_mem_nil, fun _ hz => absurd hz List.not_mem_nil, List.nodup_nil⟩

theorem append (hab : Adds a b zs) (hcd : Adds c d ws) (hbc : ∀ g, b.HasGroup g → c.HasGroup g)
    (hac : ∀ g, a.HasGroup g → c.HasGroup g) (hcd' : ∀ g, c.HasGroup g → d.HasGroup g) :
    Adds a d (zs ++ ws) where
  new := List.forall_mem_append.2 ⟨hab.new, fun z hz hin => hcd.new z hz (hac z hin)⟩
  inHeap := List.forall_mem_append.2 ⟨fun z hz => hcd' z (hbc z (hab.inHeap z hz)), hcd.inHeap⟩
  nodup := List.nodup_append'.2 ⟨hab.nodup, hcd.nodup, fun z hz hz' =>
    hcd.new z hz' (hbc z (hab.inHeap z hz))⟩

theorem subperm (hab : Adds a b zs) (hws : ws.Subperm zs) : Adds a b ws where
  new z hz := hab.new z (hws.subset hz)
  inHeap z hz := hab.inHeap z (hws.subset hz)
  nodup := by
    obtain ⟨us, hperm, hsub⟩ := hws
    exact hperm.nodup_iff.1 (hab.nodup.sublist hsub)

theorem later (hab : Adds a b zs) (hbc : ∀ g, b.HasGroup g → c.HasGroup g) : Adds a c zs :=
  { hab with inHeap := fun z hz => hbc z (hab.inHeap z hz) }

end Adds

/-! ### Groups of a slot -/

/-- A built group has the names that are described. -/
structure Described (h : Heap) (r : BuiltGroup) (d : Description) : Prop where
  superTypeName : r.superTypeName = d.superTypeName
  name : (h.group r.group).name = d.name
  typeName : (h.group r.group).typeName = d.typeName

theorem Described.settle {r : BuiltGroup} {e : Description} (hr : a.Described r e)
    (hab : Settles a b) (hin : a.HasGroup r.group) : b.Described r e where
  superTypeName := hr.superTypeName
  name := (hab.name r.group hin).trans hr.name
  typeName := (hab.typeName r.group hin).trans hr.typeName

theorem sublist_missingSupers (h : Heap) (rs todo : List BuiltGroup) :
    List.Sublist ((h.missingSupers rs todo).map Prod.fst) (todo.map BuiltGroup.group) := by
  induction todo with
  | nil => exact .refl []
  | cons r todo ih =>
    rw [missingSupers, List.filterMap_cons, List.map_cons]
    cases h.missingSuper rs r with
    | none => exact ih.cons r.group
    | some m => exact ih.cons_cons r.group

/-- **The built groups that miss a super type are the orphans of the slot.** -/
theorem missingSupers_orphans {rs : List BuiltGroup} {ds : List Description}
    (hbuilt : List.Forall₂ h.Described rs ds) (hdistinct : (rs.map BuiltGroup.group).Nodup) :
    List.Forall₂ (fun o p => o.names = [] ∧ (h.group p.1).name = o.name ∧ p.2 = o.superTypeName ∧
        p.1 ∈ rs.map BuiltGroup.group)
      (slotOrphans ds) (h.missingSupers rs rs) := by
  have hzip : h.missingSupers rs rs =
      rs.zipIdx.filterMap ((fun r => (h.missingSuper rs r).map (Prod.mk r.group)) ∘ Prod.fst) := by
    rw [← List.filterMap_map, List.zipIdx_map_fst]
    rfl
  rw [hzip]
  refine List.rel_filterMap ?_ (forall₂_mem (forall₂_zipIdx hbuilt.flip 0))
  rintro ⟨e, j⟩ ⟨c, k⟩ ⟨he, hc, hce, hjk⟩
  obtain rfl : j = k := hjk
  have hplace := rel_superAmong (hbuilt.imp fun _ _ hrd => ⟨hrd.superTypeName, hrd.typeName⟩)
    hdistinct (List.mk_mem_zipIdx_iff_getElem?.1 hc)
  have hmissing : Description.superPlace ds j = none ↔ h.superAmong rs c = none := by
    rw [← Option.not_isSome_iff_eq_none, ← Option.not_isSome_iff_eq_none,
      isSome_iff_of_rel hplace]
  have hmem : c.group ∈ rs.map BuiltGroup.group :=
    List.mem_map_of_mem (List.mem_of_getElem? (List.mk_mem_zipIdx_iff_getElem?.1 hc))
  show Option.Rel _ ((e.superTypeName.filter _).map _) ((c.superTypeName.filter _).map _)
  rw [hce.superTypeName]
  simp only [hmissing]
  cases e.superTypeName.filter fun _ => decide (h.superAmong rs c = none) with
  | none => exact .none
  | some m => exact .some ⟨rfl, hce.name, rfl, hmem⟩

end Heap

end AttributeGraph
