/-
What it takes for an attribute to be reported.

A type has an attribute if the type itself or one above it is registered with it
(`Registry.HasAttribute`); looking an attribute up in the profile of a type finds it
exactly then (`Registry.attribute?_eq_none_iff`).  So whatever a validation reports is an
attribute that the type in force for the group does not have, and no type above that one
either (`not_hasAttribute_of_reported`).

The type in force is the type of the group.  For a group that has none it is the type
that is implied by the way on which the group is met, and the name of a type that is
still to be resolved is not looked at.  A type of that name may well have an attribute
that is reported (`reported_of_deferred`).
-/
import AttributeGraph.Proofs.Encounters
import AttributeGraph.Proofs.Inserting

namespace AttributeGraph

namespace Registry

variable {r : Registry} {t u : ObjectType} {d : TypeProfile} {name : String}

/-- A type or one above it is registered with an attribute. -/
def HasAttribute (r : Registry) (t : ObjectType) (name : String) : Prop :=
  ∃ u ∈ t.lineage, ∃ level, r.level? u = some level ∧ level.attributes.find? name ≠ none

/-- What a type has the types below it have, too. -/
theorem HasAttribute.below (hu : r.HasAttribute u name) (ht : u ∈ t.lineage) :
    r.HasAttribute t name := by
  obtain ⟨v, hv, hlevel⟩ := hu
  exact ⟨v, (ObjectType.lineage_suffix ht).subset hv, hlevel⟩

/-- The levels of a profile are those of the registered types from the described one upwards. -/
theorem mem_levels (hprofile : r.profile? t = some d) {level : TypeLevel} :
    level ∈ d.levels ↔ ∃ u ∈ t.lineage, r.level? u = some level := by
  obtain ⟨own, hown, rfl⟩ := Option.map_eq_some_iff.1 hprofile
  have hlineage : t.lineage = t :: t.lineage.tail := by cases t <;> rfl
  rw [TypeProfile.levels, hlineage, List.mem_cons, List.mem_filterMap]
  simp [hown, eq_comm]

/-- **A profile lacks an attribute exactly if the type does not have it.** -/
theorem attribute?_eq_none_iff (hprofile : r.profile? t = some d) :
    d.attribute? name = none ↔ ¬ r.HasAttribute t name := by
  rw [TypeProfile.attribute?, List.findSome?_eq_none_iff]
  constructor
  · rintro hnone ⟨u, hu, level, hlevel, hsome⟩
    exact hsome (hnone level ((mem_levels hprofile).2 ⟨u, hu, hlevel⟩))
  · intro hnot level hlevel
    obtain ⟨u, hu, hlevel⟩ := (mem_levels hprofile).1 hlevel
    by_contra hsome
    exact hnot ⟨u, hu, level, hlevel, hsome⟩

end Registry

namespace Heap

variable {h : Heap} {r : Registry} {policy : ValidationPolicy} {maxDepth : Nat} {root x : GroupId}
  {i : ItemId} {d : TypeProfile}

/-- An item is reported under a type that is in force on a way to the group, and that type does not
have the attribute. -/
theorem exists_type_of_reported (hreported : h.Reported r.profile? maxDepth root x i d) :
    ∃ trail implied depth t, h.Way r.profile? maxDepth root (x :: trail) implied depth ∧
      (h.group x).type.or implied = some t ∧ ¬ r.HasAttribute t (h.item i).name := by
  obtain ⟨implied, depth, s, henters, hprofile, -, hnone⟩ := hreported
  obtain ⟨trail, hway⟩ := henters.exists_way fun t ht => by
    rw [List.mem_singleton.1 ht]
    exact .group .start List.nodup_nil (List.nil_subset _)
  obtain ⟨t, ht, hdescribed⟩ := Option.bind_eq_some_iff.1 hprofile
  exact ⟨trail, implied, depth, t, hway, ht, (Registry.attribute?_eq_none_iff hdescribed).1 hnone⟩

/-- **A validation reports only what the type in force does not have.**  The failures are those of
the reported items.  An item of a group with a type is an attribute that this type does not have.
One of a group without a type is an attribute that the type implied by some way to the group does
not have, and no type above it has. -/
theorem failures_undefined (hclosed : h.Closed) (hin : h.HasGroup root) :
    (∀ f, f ∈ (h.validationEnd root r.profile? policy.maxDepth).failures ↔
      ∃ x i d, h.Reported r.profile? policy.maxDepth root x i d ∧ f = h.unknownAttribute x i d) ∧
    ∀ x i d, h.Reported r.profile? policy.maxDepth root x i d → i ∈ (h.group x).itemIds ∧
      (∀ t, (h.group x).type = some t → ¬ r.HasAttribute t (h.item i).name) ∧
      ((h.group x).type = none → ∃ trail depth t,
        h.Way r.profile? policy.maxDepth root (x :: trail) (some t) depth ∧
        ∀ u ∈ t.lineage, ¬ r.HasAttribute u (h.item i).name) := by
  refine ⟨fun f => mem_failures_validationEnd hclosed hin, fun x i d hreported => ?_⟩
  obtain ⟨trail, implied, depth, t, hway, ht, hnot⟩ := exists_type_of_reported hreported
  obtain ⟨_, _, _, -, -, hi, -⟩ := hreported
  refine ⟨hi, fun u hu => ?_, fun hnone => ?_⟩
  · rw [hu, Option.some_or] at ht
    rwa [Option.some.inj ht]
  · rw [hnone, Option.none_or] at ht
    subst ht
    exact ⟨trail, depth, t, hway, fun u hu hhas => hnot (hhas.below hu)⟩

/-- A team whose lead is an employee, by a name that is still to be resolved. -/
def vacancy : Heap where
  groups := #[
    { name := "team", type := some (.root "Team" "Team"), items := .ofList [("lead", ⟨0⟩)] },
    { name := "lead", typeName := some "Employee", nestedIn := some ⟨0⟩
      items := .ofList [("salary", ⟨1⟩)] }]
  items := #[
    { name := "lead", owner := ⟨0⟩
      value := ⟨some ⟨1⟩, some (.ofList [(.name "Employee", ⟨1⟩)])⟩ },
    { name := "salary", owner := ⟨1⟩ }]
  variants := #[.generic]

theorem reported_vacancy : ∃ d, vacancy.Reported staffTypes.profile? 32 ⟨0⟩ ⟨1⟩ ⟨1⟩ d :=
  ⟨_, _, _, _, .items (by decide) rfl (.nested rfl (.here (by decide))), rfl, by decide, rfl⟩

/-- Persons lead teams, and no person has a salary. -/
theorem failures_undefined_vacancy :
    (vacancy.Closed ∧ vacancy.HasGroup ⟨0⟩) ∧
      (vacancy.validationEnd ⟨0⟩ staffTypes.profile? 32).failures = [{
        path := "lead.salary"
        message := "Attribute 'salary' is not defined on Person"
        typeName := some "Person" }] ∧
      ∃ trail depth t, vacancy.Way staffTypes.profile? 32 ⟨0⟩ (⟨1⟩ :: trail) (some t) depth ∧
        ∀ u ∈ t.lineage, ¬ staffTypes.HasAttribute u "salary" := by
  obtain ⟨d, hreported⟩ := reported_vacancy
  obtain ⟨-, hall⟩ := @failures_undefined vacancy staffTypes {} ⟨0⟩ (by decide) (by decide)
  obtain ⟨-, -, hdeferred⟩ := hall ⟨1⟩ ⟨1⟩ d hreported
  exact ⟨⟨by decide, by decide⟩, rfl, hdeferred rfl⟩

/-- **A type of the name that a group defers to may have what is reported.**  All types go by their
own names, and no two by the same one.  The lead of the team is an employee by name only, and is
taken for a person. -/
theorem reported_of_deferred :
    let employee : ObjectType := .sub "Employee" "Employee" (.root "Person" "Person")
    ((∀ e ∈ staffTypes.registrations.entries, e.2.name = e.1.name) ∧
        (staffTypes.registrations.entries.map fun e => e.2.name).Nodup) ∧
      vacancy.Closed ∧ (vacancy.group ⟨1⟩).type = none ∧
      (vacancy.group ⟨1⟩).typeName = staffTypes.nameFor employee ∧
      (∃ d, vacancy.Reported staffTypes.profile? 32 ⟨0⟩ ⟨1⟩ ⟨1⟩ d) ∧
      staffTypes.HasAttribute employee (vacancy.item ⟨1⟩).name :=
  ⟨⟨by decide, by decide⟩, by decide, rfl, rfl, reported_vacancy,
    _, List.mem_cons_self, _, rfl, by decide⟩

end Heap

end AttributeGraph
