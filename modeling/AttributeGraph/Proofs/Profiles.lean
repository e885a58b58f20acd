/-
What a catalog says of the types it knows.

A profile goes from one registered type to the nearest one above it
(`Registry.profile?_of_level`), and so it lists the registered types of a lineage in order
(`Catalog.types_of_profile?`).  A catalog works profiles out along the way and remembers them.
What it remembers is what the registry would say (`Catalog.Coherent`): describing a type keeps
this, because every profile that is remembered with it belongs to the same registry, and
registering a type keeps it, because nothing is remembered any more (`Catalog.coherent_after`).

So the answers depend only on the registrations so far, and of each type only the last one
counts (`Catalog.level?_after`).
-/
import AttributeGraph.Catalog
import AttributeGraph.Proofs.Inserting
import AttributeGraph.Proofs.Ordered

namespace AttributeGraph

/-! ### Profiles -/

theorem ObjectType.lineage_eq_cons (t : ObjectType) : t.lineage = t :: t.lineage.tail := by
  cases t <;> rfl

namespace TypeProfile

theorem length_ancestors_parent? {d p : TypeProfile} (hp : d.parent? = some p) :
    p.ancestors.length < d.ancestors.length := by
  obtain ⟨level, ancestors⟩ := d
  cases ancestors with
  | nil => cases hp
  | cons above ancestors =>
    obtain rfl := Option.some.inj hp
    exact Nat.lt_succ_self _

/-- The described type, then the types of the parent profile. -/
def types (d : TypeProfile) : List ObjectType :=
  d.type :: match _hp : d.parent? with
    | none => []
    | some p => p.types
termination_by d.ancestors.length
decreasing_by exact length_ancestors_parent? _hp

theorem types_eq_map (d : TypeProfile) : d.types = d.levels.map TypeLevel.type := by
  obtain ⟨level, ancestors⟩ := d
  induction ancestors generalizing level with
  | nil =>
    rw [types]
    rfl
  | cons above ancestors ih =>
    rw [types]
    exact congrArg (level.type :: ·) (ih above)

end TypeProfile

namespace Registry

variable {r : Registry} {t : ObjectType} {d : TypeProfile}

theorem contains_eq_isSome : r.registrations.contains t = (r.level? t).isSome := by
  rw [level?, Option.isSome_map, OrderedMap.contains]

/-- The levels of a profile are those of the registered types of the lineage. -/
theorem levels_profile? (hprofile : r.profile? t = some d) :
    d.levels = t.lineage.filterMap r.level? := by
  obtain ⟨level, hlevel, rfl⟩ := Option.map_eq_some_iff.1 hprofile
  rw [ObjectType.lineage_eq_cons, List.filterMap_cons_some hlevel]
  rfl

/-- Behind its own level the profile of a type goes on as that of the nearest registered type
above it. -/
theorem levels_above (t : ObjectType) : t.lineage.tail.filterMap r.level? =
    (((r.registeredAbove? t).bind r.profile?).map TypeProfile.levels).getD [] := by
  induction t with
  | root id name => rfl
  | sub id name parent ih =>
    rw [registeredAbove?, contains_eq_isSome]
    show parent.lineage.filterMap r.level? = _
    cases hlevel : r.level? parent with
    | none =>
      rw [ObjectType.lineage_eq_cons, List.filterMap_cons_none hlevel]
      exact ih
    | some level =>
      have hprofile : r.profile? parent = some ⟨level, parent.lineage.tail.filterMap r.level?⟩ := by
        rw [profile?, hlevel]
        rfl
      rw [Option.isSome_some, if_pos rfl, Option.bind_some, hprofile, ← levels_profile? hprofile]
      rfl

theorem profile?_of_level {level : TypeLevel} (hlevel : r.level? t = some level) :
    r.profile? t = some
      ⟨level, (((r.registeredAbove? t).bind r.profile?).map TypeProfile.levels).getD []⟩ := by
  rw [profile?, hlevel, levels_above]
  rfl

end Registry

namespace Catalog

/-! ### What is remembered -/

/-- Whatever is remembered is what the registry says. -/
def Coherent (c : Catalog) : Prop :=
  ∀ t d, c.remembered.find? t = some d → c.registry.profile? t = some d

theorem coherent_register (c : Catalog) (type : ObjectType) (name : Option String)
    (attributes : List Declaration) : (c.register type name attributes).Coherent :=
  fun _ _ hd => nomatch hd

/-- One more profile of the registry may be remembered. -/
theorem Coherent.remember {c : Catalog} (hc : c.Coherent) {t : ObjectType} {d : TypeProfile}
    (hd : c.registry.profile? t = some d) :
    Coherent { c with remembered := c.remembered.insert t d } := by
  intro u e he
  rw [OrderedMap.find?_insert] at he
  split at he
  · next hu =>
    obtain rfl := Option.some.inj he
    exact hu ▸ hd
  · exact hc u e he

/-- **A coherent catalog describes a type as its registry does**, and stays coherent. -/
theorem Coherent.describe {c : Catalog} (hc : c.Coherent) (t : ObjectType) :
    (c.describe t).1 = c.registry.profile? t ∧ (c.describe t).2.registry = c.registry ∧
      (c.describe t).2.Coherent := by
  fun_induction Catalog.describe c t with
  | case1 t d hd => exact ⟨(hc t d hd).symm, rfl, hc⟩
  | case2 t _ hlevel =>
    refine ⟨?_, rfl, hc⟩
    rw [Registry.profile?, hlevel]
    rfl
  | case3 t _ level hlevel parent c' hparent d ih =>
    have habove : parent = (c.registry.registeredAbove? t).bind c.registry.profile? ∧
        c'.registry = c.registry ∧ c'.Coherent := by
      split at hparent
      · next hs =>
        obtain ⟨rfl, rfl⟩ := Prod.mk.inj hparent
        exact ⟨by rw [hs]; rfl, rfl, hc⟩
      · next s hs =>
        obtain ⟨hfst, hregistry, hcoherent⟩ := ih s hs
        rw [hparent] at hfst hregistry hcoherent
        exact ⟨by rw [hs]; exact hfst, hregistry, hcoherent⟩
    obtain ⟨hparent, hregistry, hcoherent⟩ := habove
    have hd : c.registry.profile? t = some d := by
      rw [Registry.profile?_of_level hlevel, ← hparent]
    exact ⟨hd.symm, hregistry, hcoherent.remember (hregistry ▸ hd)⟩

/-! ### Histories -/

/-- What changes a catalog, or what it remembers. -/
inductive Call where
  | register (type : ObjectType) (name : Option String) (attributes : List Declaration)
  | describe (type : ObjectType)
deriving DecidableEq

/-- The catalog after a call. -/
def call (c : Catalog) : Call → Catalog
  | .register type name attributes => c.register type name attributes
  | .describe type => (c.describe type).2

/-- A new catalog after a sequence of calls. -/
def after (calls : List Call) : Catalog := calls.foldl call {}

/-- The attributes that a call registers a type with. -/
def Call.attributesFor (t : ObjectType) : Call → Option (List AttributeInfo)
  | .register type _ attributes =>
    if type = t then some (attributes.map Declaration.info) else none
  | .describe _ => none

/-- The attributes of the last registration of a type. -/
def latest (calls : List Call) (t : ObjectType) : Option (List AttributeInfo) :=
  calls.reverse.findSome? (Call.attributesFor t)

/-- A type has been registered. -/
def Registered (calls : List Call) (t : ObjectType) : Prop :=
  ∃ name attributes, Call.register t name attributes ∈ calls

variable {calls : List Call} {s t : ObjectType}

theorem isSome_latest_iff : (latest calls t).isSome = true ↔ Registered calls t := by
  rw [latest, List.findSome?_isSome_iff]
  constructor
  · rintro ⟨call, hcall, hsome⟩
    cases call with
    | register type name attributes =>
      rw [Call.attributesFor, Option.isSome_ite] at hsome
      exact ⟨name, attributes, hsome ▸ List.mem_reverse.1 hcall⟩
    | describe type => cases hsome
  · rintro ⟨name, attributes, hcall⟩
    exact ⟨_, List.mem_reverse.2 hcall, by rw [Call.attributesFor, if_pos rfl]; rfl⟩

instance (calls : List Call) : DecidablePred (Registered calls) :=
  fun _ => decidable_of_iff _ isSome_latest_iff

theorem after_concat (calls : List Call) (call : Call) :
    after (calls ++ [call]) = (after calls).call call := by
  rw [after, List.foldl_append]
  rfl

theorem latest_concat (calls : List Call) (call : Call) (t : ObjectType) :
    latest (calls ++ [call]) t = (call.attributesFor t).or (latest calls t) := by
  rw [latest, List.reverse_concat, List.findSome?_cons]
  cases call.attributesFor t <;> rfl

/-- **What is remembered is up to date**, whatever has been called. -/
theorem coherent_after (calls : List Call) : (after calls).Coherent := by
  induction calls using List.reverseRec with
  | nil => exact fun _ _ hd => nomatch hd
  | append_singleton calls call ih =>
    rw [after_concat]
    cases call with
    | register type name attributes => exact coherent_register _ type name attributes
    | describe type => exact (ih.describe type).2.2

/-- A type has the attributes of its last registration. -/
theorem level?_after (calls : List Call) (t : ObjectType) : (after calls).registry.level? t =
    (latest calls t).map fun attributes => ⟨t, .ofList (attributes.map fun a => (a.name, a))⟩ := by
  induction calls using List.reverseRec with
  | nil => rfl
  | append_singleton calls call ih =>
    rw [after_concat, latest_concat]
    cases call with
    | register type name attributes =>
      rw [Call.attributesFor]
      show ((OrderedMap.insert _ type _).find? t).map Registration.level = _
      rw [OrderedMap.find?_insert]
      by_cases ht : t = type
      · subst ht
        rw [if_pos rfl, if_pos rfl]
        rfl
      · rw [if_neg ht, if_neg (Ne.symm ht)]
        exact ih
    | describe type =>
      show ((after calls).describe type).2.registry.level? t = _
      rw [((coherent_after calls).describe type).2.1]
      exact ih

/-! ### Answers -/

theorem types_filterMap_level? (calls : List Call) (l : List ObjectType) :
    (l.filterMap (after calls).registry.level?).map TypeLevel.type =
      l.filter (Registered calls ·) := by
  induction l with
  | nil => rfl
  | cons t l ih =>
    rw [List.filterMap_cons, List.filter_cons, level?_after]
    cases hlatest : latest calls t with
    | none =>
      have ht : ¬ Registered calls t := by simp [← isSome_latest_iff, hlatest]
      simpa [ht] using ih
    | some attributes =>
      have ht : Registered calls t := by simp [← isSome_latest_iff, hlatest]
      simpa [ht] using ih

/-- A profile lists the registered types of the lineage. -/
theorem types_of_profile? {d : TypeProfile} (hd : (after calls).registry.profile? t = some d) :
    d.types = t.lineage.filter (Registered calls ·) := by
  rw [TypeProfile.types_eq_map, Registry.levels_profile? hd, types_filterMap_level?]

theorem attribute_level? (calls : List Call) (u : ObjectType) (n : String) :
    ((after calls).registry.level? u).bind (·.attributes.find? n) =
      (latest calls u).bind fun attributes => (attributes.filter (·.name = n)).getLast? := by
  rw [level?_after, Option.bind_map]
  refine congrArg (Option.bind _) (funext fun attributes => ?_)
  show (OrderedMap.ofList (attributes.map fun a => (a.name, a))).find? n = _
  rw [OrderedMap.find?_ofList_map, List.getLast?_filter, Option.map_id']

theorem findSome?_filterMap_level? (calls : List Call) (n : String) (l : List ObjectType) :
    (l.filterMap (after calls).registry.level?).findSome? (·.attributes.find? n) =
      l.findSome? fun u => (latest calls u).bind fun attributes =>
        (attributes.filter (·.name = n)).getLast? := by
  induction l with
  | nil => rfl
  | cons u l ih =>
    rw [List.findSome?_cons, ← attribute_level?, List.filterMap_cons]
    cases (after calls).registry.level? u with
    | none => exact ih
    | some level =>
      rw [List.findSome?_cons, ih]
      rfl

/-- **A catalog follows the hierarchy of the types.**  Whatever has been registered and described,
and how often, a registered type is described.  Its profile lists the registered types of its
lineage, nearest first.  A registered type counts as one above it, or as the type itself, just if
the profile lists it.  An attribute is the last one of its name in the last registration of the
nearest of these types whose last registration has one. -/
theorem describe_after (hs : Registered calls s) (ht : Registered calls t) :
    ∃ d, ((after calls).describe t).1 = some d ∧
      ((after calls).registry.subsumes s t = true ↔ s ∈ d.types) ∧
      d.types = t.lineage.filter (Registered calls ·) ∧
      ∀ n, d.attribute? n = t.lineage.findSome? fun u => (latest calls u).bind fun attributes =>
        (attributes.filter (·.name = n)).getLast? := by
  obtain ⟨attributes, hlatest⟩ := Option.isSome_iff_exists.1 (isSome_latest_iff.2 ht)
  have hlevel := level?_after calls t
  rw [hlatest] at hlevel
  have hprofile := Registry.profile?_of_level hlevel
  have hlevels := Registry.levels_profile? hprofile
  have htypes := types_of_profile? hprofile
  refine ⟨_, ((coherent_after calls).describe t).1.trans hprofile, ?_, ?_, fun n => ?_⟩
  · rw [htypes, List.mem_filter, Registry.subsumes, ObjectType.subsumes_iff]
    simp [hs]
  · exact htypes
  · rw [TypeProfile.attribute?, hlevels, findSome?_filterMap_level?]

/-- Employees are not registered, so the profile of managers goes on with persons.  When persons are
registered again they lose their rank, and what was remembered of managers is out of date. -/
theorem describe_after_managers :
    let person : ObjectType := .root "Person" "Person"
    let manager : ObjectType := .sub "Manager" "Manager" (.sub "Employee" "Employee" person)
    let calls : List Call := [
      .register person none [.named "name", .named "rank"],
      .register manager (some "Boss") [.named "reports", .full ⟨"reports", some person, none⟩],
      .describe manager,
      .register person (some "Human") [.named "name", .named "address"]]
    (Registered calls person ∧ Registered calls manager) ∧
      ∃ d, ((after calls).describe manager).1 = some d ∧ d.types = [manager, person] ∧
        person ∈ d.types ∧ d.attribute? "reports" = some ⟨"reports", some person, none⟩ ∧
        d.attribute? "address" = some ⟨"address", none, none⟩ ∧ d.attribute? "rank" = none := by
  intro person manager calls
  have hperson : Registered calls person := by decide
  have hmanager : Registered calls manager := by decide
  obtain ⟨d, hd, hsubsumes, htypes, hattribute⟩ := describe_after hperson hmanager
  refine ⟨⟨hperson, hmanager⟩, d, hd, htypes.trans (by decide), hsubsumes.1 (by decide), ?_, ?_, ?_⟩
  · exact (hattribute "reports").trans (by decide)
  · exact (hattribute "address").trans (by decide)
  · exact (hattribute "rank").trans (by decide)

end Catalog

end AttributeGraph
