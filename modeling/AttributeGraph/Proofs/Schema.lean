/-
The reader of descriptions and the schema.

The reader was written property by property, and the grammar (`Value.IsGroup`) says what
it accepts.  The schema says it once more, by keywords that each look at one side of a
value.  Every named schema admits exactly the values of its part of the grammar
(`Value.schemed`, by induction on the value), so **the reader reports nothing exactly if
the schema admits the value** (`descriptionSchema_admits_iff`).
-/
import AttributeGraph.Proofs.AttributeNames

namespace AttributeGraph

/-! ### What each keyword asks of a value -/

section Keywords

variable {table : List (String × Schema)} {beside keywords : List Keyword} {v : Value}

theorem Schema.admits_all_iff :
    (Schema.all keywords).Admits table v ↔ ∀ k ∈ keywords, Keyword.Holds table keywords k v :=
  ⟨fun hv => by cases hv with | all hall => exact hall, .all⟩

@[simp] theorem Schema.not_admits_never : ¬ Schema.never.Admits table v := nofun

namespace Keyword

@[simp] theorem holds_type_iff {t : ValueType} : Holds table beside (.type t) v ↔ t.Has v :=
  ⟨fun hv => by cases hv with | type ht => exact ht, .type⟩

@[simp] theorem holds_enum_iff {texts : List String} :
    Holds table beside (.enum texts) v ↔ ∃ s ∈ texts, v = .text s :=
  ⟨fun hv => by cases hv with | enum htext => exact htext, .enum⟩

@[simp] theorem holds_minLength_iff {n : Nat} :
    Holds table beside (.minLength n) v ↔ ∀ s, v = .text s → n ≤ s.length :=
  ⟨fun hv => by cases hv with | minLength hlength => exact hlength, .minLength⟩

@[simp] theorem holds_pattern_iff {p : Text.Pattern} :
    Holds table beside (.pattern p) v ↔ ∀ s, v = .text s → p.test s = true :=
  ⟨fun hv => by cases hv with | pattern hmatch => exact hmatch, .pattern⟩

@[simp] theorem holds_items_iff {s : Schema} : Holds table beside (.items s) v ↔
    ∀ elements, v = .array elements → ∀ e ∈ elements, s.Admits table e :=
  ⟨fun hv => by cases hv with | items hitems => exact hitems, .items⟩

@[simp] theorem holds_required_iff {keys : List String} : Holds table beside (.required keys) v ↔
    ∀ fields, v = .object fields → ∀ key ∈ keys, ∃ w, fieldOf key fields = some w :=
  ⟨fun hv => by cases hv with | required hkeys => exact hkeys, .required⟩

@[simp] theorem holds_properties_iff {schemas : List (String × Schema)} :
    Holds table beside (.properties schemas) v ↔ ∀ fields, v = .object fields → ∀ p ∈ schemas,
      ∀ w, fieldOf p.1 fields = some w → p.2.Admits table w :=
  ⟨fun hv => by cases hv with | properties hproperties => exact hproperties, .properties⟩

theorem holds_additionalProperties_iff {s : Schema} :
    Holds table beside (.additionalProperties s) v ↔ ∀ fields, v = .object fields →
      ∀ f ∈ fields, f.1 ∉ listed beside → s.Admits table f.2 :=
  ⟨fun hv => by cases hv with | additionalProperties hothers => exact hothers,
    .additionalProperties⟩

@[simp] theorem holds_propertyNames_iff {s : Schema} :
    Holds table beside (.propertyNames s) v ↔ ∀ fields, v = .object fields →
      ∀ f ∈ fields, s.Admits table (.text f.1) :=
  ⟨fun hv => by cases hv with | propertyNames hnames => exact hnames, .propertyNames⟩

@[simp] theorem holds_allOf_iff {schemas : List Schema} :
    Holds table beside (.allOf schemas) v ↔ ∀ s ∈ schemas, s.Admits table v :=
  ⟨fun hv => by cases hv with | allOf hall => exact hall, .allOf⟩

theorem holds_ref_iff {name : String} {s : Schema} (hname : table.lookup name = some s) :
    Holds table beside (.ref name) v ↔ s.Admits table v := by
  refine ⟨fun hv => ?_, .ref hname⟩
  cases hv with
  | ref hname' hs =>
    obtain rfl := Option.some.inj (hname.symm.trans hname')
    exact hs

end Keyword

/-- Where other properties meet no schema, there are none but those that are listed. -/
theorem Keyword.holds_closed_iff {fields : List (String × Value)} :
    Holds table beside (.additionalProperties .never) (.object fields) ↔
      ∀ f ∈ fields, f.1 ∈ listed beside := by
  simp [holds_additionalProperties_iff]

/-- A schema with a type admits only values of this type. -/
theorem Schema.not_admits_of_type {t : ValueType} {rest : List Keyword} (ht : ¬ t.Has v) :
    ¬ (Schema.all (.type t :: rest)).Admits table v := fun hv =>
  ht (Keyword.holds_type_iff.1 (admits_all_iff.1 hv _ List.mem_cons_self))

/-- A schema that only refers to another one. -/
theorem Schema.admits_ref_iff {name : String} {s : Schema} (hname : table.lookup name = some s) :
    (Schema.all [.ref name]).Admits table v ↔ s.Admits table v := by
  rw [admits_all_iff, List.forall_mem_singleton, Keyword.holds_ref_iff hname]

end Keywords

/-! ### The schemas of single properties -/

section Single

variable {v : Value}

theorem admits_text_iff :
    (Schema.all [.type .string]).Admits definitions v ↔ ∃ s, v = .text s := by
  simp [Schema.admits_all_iff, ValueType.Has]

theorem admits_boolean_iff :
    (Schema.all [.type .boolean]).Admits definitions v ↔ ∃ b, v = .bool b := by
  simp [Schema.admits_all_iff, ValueType.Has]

theorem nonEmptySchema_admits_iff : nonEmptySchema.Admits definitions v ↔ v.IsNonEmptyText := by
  have hmeaning : nonEmptySchema.Admits definitions v ↔
      (∃ s, v = .text s) ∧ ∀ s, v = .text s → 1 ≤ s.length := by
    simp [nonEmptySchema, Schema.admits_all_iff, ValueType.Has]
  rw [hmeaning]
  constructor
  · rintro ⟨⟨s, rfl⟩, hlength⟩
    refine ⟨s, fun hs => ?_, rfl⟩
    have hpos := hlength s rfl
    rw [hs] at hpos
    exact absurd hpos (by decide)
  · rintro ⟨s, hs, rfl⟩
    refine ⟨⟨s, rfl⟩, fun t ht => ?_⟩
    rw [← Value.text.inj ht, Nat.succ_le_iff, Nat.pos_iff_ne_zero]
    exact fun hlength => hs (String.length_eq_zero_iff.1 hlength)

theorem admits_kind_iff :
    (Schema.all [.enum ["generic", "fetch", "load", "copy"]]).Admits definitions v ↔ v.IsKind := by
  simp only [Schema.admits_all_iff, List.forall_mem_singleton, Keyword.holds_enum_iff, Value.IsKind]

theorem admits_name_iff {n : String} :
    (Schema.all [.type .string, .pattern namePattern]).Admits definitions (.text n) ↔
      IsSegment n := by
  simp [Schema.admits_all_iff, ValueType.Has, test_namePattern, isAttributeName_iff]

end Single

/-! ### Every part of the grammar has its schema -/

/-- The schema of each part of a description admits a value exactly if it is such a part. -/
structure Value.Schemed (v : Value) : Prop where
  group : groupSchema.Admits definitions v ↔ v.IsGroup
  attributes : attributesSchema.Admits definitions v ↔ v.IsAttributes
  item : itemSchema.Admits definitions v ↔ v.IsItem
  groups : typedGroupsSchema.Admits definitions v ↔ v.IsGroups

section Object

variable {fields : List (String × Value)}

theorem groupSchema_admits_object_iff : groupSchema.Admits definitions (.object fields) ↔
    (∃ w, fieldOf "name" fields = some w) ∧ (∀ f ∈ fields, f.1 ∈ groupKeys) ∧
      (∀ w, fieldOf "name" fields = some w → ∃ s, w = .text s) ∧
      (∀ w, fieldOf "typeName" fields = some w → w.IsNonEmptyText) ∧
      (∀ w, fieldOf "superTypeName" fields = some w → w.IsNonEmptyText) ∧
      (∀ w, fieldOf "validated" fields = some w → ∃ b, w = .bool b) ∧
      (∀ w, fieldOf "kind" fields = some w → w.IsKind) ∧
      ∀ w, fieldOf "attributes" fields = some w → attributesSchema.Admits definitions w := by
  rw [groupSchema, Schema.admits_all_iff]
  simp [ValueType.Has, Keyword.holds_closed_iff, Keyword.listed, groupKeys, admits_text_iff,
    admits_boolean_iff, admits_kind_iff, nonEmptySchema_admits_iff]

theorem attributesSchema_admits_object_iff : attributesSchema.Admits definitions (.object fields) ↔
    (∀ f ∈ fields, IsSegment f.1) ∧ ∀ f ∈ fields, itemSchema.Admits definitions f.2 := by
  have hitem : definitions.lookup "item" = some itemSchema := rfl
  rw [attributesSchema, Schema.admits_all_iff]
  simp [ValueType.Has, Keyword.listed, Keyword.holds_additionalProperties_iff, admits_name_iff,
    Schema.admits_ref_iff hitem]

theorem itemSchema_admits_object_iff : itemSchema.Admits definitions (.object fields) ↔
    (∀ f ∈ fields, f.1 ∈ itemKeys) ∧
      (∀ w, fieldOf "group" fields = some w → groupSchema.Admits definitions w) ∧
      (∀ w, fieldOf "keyGroup" fields = some w → groupSchema.Admits definitions w) ∧
      (∀ w, fieldOf "typeGroups" fields = some w → typedGroupsSchema.Admits definitions w) ∧
      ∀ w, fieldOf "keyTypeGroups" fields = some w →
        typedGroupsSchema.Admits definitions w := by
  have hgroup : definitions.lookup "group" = some groupSchema := rfl
  rw [itemSchema, Schema.admits_all_iff]
  simp [ValueType.Has, Keyword.holds_closed_iff, Keyword.listed, itemKeys,
    Schema.admits_ref_iff hgroup]

theorem typedGroupSchema_admits_iff {v : Value} : typedGroupSchema.Admits definitions v ↔
    v.HasTypeName ∧ groupSchema.Admits definitions v := by
  have hgroup : definitions.lookup "group" = some groupSchema := rfl
  have hmeaning : typedGroupSchema.Admits definitions v ↔ (∃ fields, v = .object fields) ∧
      (∀ fields, v = .object fields → ∃ t, fieldOf "typeName" fields = some t) ∧
      (∀ fields, v = .object fields → ∀ t, fieldOf "typeName" fields = some t →
        t.IsNonEmptyText) ∧ groupSchema.Admits definitions v := by
    rw [typedGroupSchema, Schema.admits_all_iff]
    simp [ValueType.Has, nonEmptySchema_admits_iff, Schema.admits_ref_iff hgroup]
  rw [hmeaning]
  constructor
  · rintro ⟨⟨fields, rfl⟩, hrequired, hproperties, hv⟩
    obtain ⟨t, ht⟩ := hrequired fields rfl
    exact ⟨⟨fields, rfl, t, ht, hproperties fields rfl t ht⟩, hv⟩
  · rintro ⟨⟨fields, rfl, t, ht, htext⟩, hv⟩
    refine ⟨⟨fields, rfl⟩, fun fields' heq => ?_, fun fields' heq w hw => ?_, hv⟩
    · rw [← Value.object.inj heq]
      exact ⟨t, ht⟩
    · rw [← Value.object.inj heq, ht] at hw
      exact Option.some.inj hw ▸ htext

theorem typedGroupsSchema_admits_array_iff {elements : List Value} :
    typedGroupsSchema.Admits definitions (.array elements) ↔
      ∀ v ∈ elements, v.HasTypeName ∧ groupSchema.Admits definitions v := by
  have htyped : definitions.lookup "typedGroup" = some typedGroupSchema := rfl
  rw [typedGroupsSchema, Schema.admits_all_iff]
  simp [ValueType.Has, Schema.admits_ref_iff htyped, typedGroupSchema_admits_iff]

variable (hall : ∀ f ∈ fields, f.2.Schemed)

include hall

/-- A property meets a schema if the values of all properties do exactly where they are part of the
grammar. -/
theorem forall_fieldOf_iff {key : String} {P Q : Value → Prop}
    (hiff : ∀ w : Value, w.Schemed → (P w ↔ Q w)) :
    (∀ w, fieldOf key fields = some w → P w) ↔ ∀ w, fieldOf key fields = some w → Q w := by
  refine forall_congr' fun w => forall_congr' fun hw => hiff w ?_
  obtain ⟨⟨f, hf, rfl⟩, -⟩ := mem_of_fieldOf hw
  exact hall f hf

theorem schemed_object : (Value.object fields).Schemed where
  group := by
    rw [groupSchema_admits_object_iff, forall_fieldOf_iff hall fun w hw => hw.attributes]
    constructor
    · intro hadmits
      obtain ⟨⟨v, hv⟩, hclosed, htext, htypeName, hsuper, hvalidated, hkind, hattributes⟩ :=
        hadmits
      obtain ⟨s, rfl⟩ := htext v hv
      exact .intro hclosed ⟨s, hv⟩ htypeName hsuper hvalidated hkind hattributes
    · intro hgroup
      obtain ⟨hclosed, ⟨s, hs⟩, htypeName, hsuper, hvalidated, hkind, hattributes⟩ := hgroup
      refine ⟨⟨_, hs⟩, hclosed, fun v hv => ⟨s, ?_⟩, htypeName, hsuper, hvalidated, hkind,
        hattributes⟩
      exact Option.some.inj (hv.symm.trans hs)
  attributes := by
    have hitems : (∀ f ∈ fields, itemSchema.Admits definitions f.2) ↔
        ∀ f ∈ fields, f.2.IsItem := forall₂_congr fun f hf => (hall f hf).item
    rw [attributesSchema_admits_object_iff, hitems]
    refine ⟨fun hadmits => .intro hadmits.1 hadmits.2, fun hattributes => ?_⟩
    obtain ⟨hnames, hitems⟩ := hattributes
    exact ⟨hnames, hitems⟩
  item := by
    rw [itemSchema_admits_object_iff]
    simp only [forall_fieldOf_iff hall fun w hw => hw.group,
      forall_fieldOf_iff hall fun w hw => hw.groups]
    constructor
    · intro hadmits
      obtain ⟨hclosed, hgroup, hkeyGroup, htypeGroups, hkeyTypeGroups⟩ := hadmits
      exact .intro hclosed hgroup hkeyGroup htypeGroups hkeyTypeGroups
    · intro hitem
      obtain ⟨hclosed, hgroup, hkeyGroup, htypeGroups, hkeyTypeGroups⟩ := hitem
      exact ⟨hclosed, hgroup, hkeyGroup, htypeGroups, hkeyTypeGroups⟩
  groups := by
    refine iff_of_false (Schema.not_admits_of_type ?_) nofun
    rintro ⟨elements, heq⟩
    cases heq

end Object

theorem schemed_of_not_object {v : Value} (hobject : ∀ fields, v ≠ .object fields)
    (hgroups : typedGroupsSchema.Admits definitions v ↔ v.IsGroups) : v.Schemed := by
  have htype : ¬ ValueType.object.Has v := fun hv => hobject _ hv.choose_spec
  refine ⟨iff_of_false (Schema.not_admits_of_type htype) ?_,
    iff_of_false (Schema.not_admits_of_type htype) ?_,
    iff_of_false (Schema.not_admits_of_type htype) ?_, hgroups⟩
  all_goals
    rintro ⟨⟩
    exact hobject _ rfl

theorem schemed_array {elements : List Value} (hall : ∀ v ∈ elements, v.Schemed) :
    (Value.array elements).Schemed := by
  refine schemed_of_not_object nofun ?_
  rw [typedGroupsSchema_admits_array_iff]
  constructor
  · exact fun hadmits => .intro (fun v hv => (hall v hv).group.1 (hadmits v hv).2) fun v hv =>
      (hadmits v hv).1
  · intro hgroups
    obtain ⟨hgroups, hnamed⟩ := hgroups
    exact fun v hv => ⟨hnamed v hv, (hall v hv).group.2 (hgroups v hv)⟩

theorem schemed_leaf {v : Value} (harray : ∀ elements, v ≠ .array elements)
    (hobject : ∀ fields, v ≠ .object fields) : v.Schemed := by
  refine schemed_of_not_object hobject (iff_of_false (Schema.not_admits_of_type ?_) ?_)
  · exact fun hv => harray _ hv.choose_spec
  · rintro ⟨⟩
    exact harray _ rfl

mutual
/-- **The schemas admit exactly what is of the grammar.** -/
theorem Value.schemed : ∀ v : Value, v.Schemed
  | .undefined => schemed_leaf nofun nofun
  | .null => schemed_leaf nofun nofun
  | .bool _ => schemed_leaf nofun nofun
  | .number _ => schemed_leaf nofun nofun
  | .text _ => schemed_leaf nofun nofun
  | .array elements => schemed_array (schemed_elements elements)
  | .object fields => schemed_object (schemed_fields fields)
termination_by structural v => v
theorem schemed_elements : ∀ elements : List Value, ∀ v ∈ elements, v.Schemed
  | [] => nofun
  | v :: rest => List.forall_mem_cons.2 ⟨Value.schemed v, schemed_elements rest⟩
termination_by structural elements => elements
theorem schemed_fields : ∀ fields : List (String × Value), ∀ f ∈ fields, f.2.Schemed
  | [] => nofun
  | (_, v) :: rest => List.forall_mem_cons.2 ⟨Value.schemed v, schemed_fields rest⟩
termination_by structural fields => fields
end

/-! ### What is read -/

/-- **The reader reports nothing exactly if the schema admits the value.** -/
theorem descriptionSchema_admits_iff (p : Pointer) (v : Value) :
    descriptionSchema.Admits definitions v ↔ (readGroup p v).issues = [] := by
  have hgroup : definitions.lookup "group" = some groupSchema := rfl
  rw [v.judged.group, ← v.schemed.group, descriptionSchema, Schema.admits_all_iff,
    List.forall_mem_singleton, Keyword.holds_allOf_iff, List.forall_mem_singleton,
    Schema.admits_ref_iff hgroup]

/-- Hence the value that an input stands for is accepted exactly if the schema admits it. -/
theorem Description.parse_eq_ok_iff_admits {input v w : Value} (hv : meaning? input = some v) :
    parse input = .ok w ↔ w = v ∧ descriptionSchema.Admits definitions v := by
  rw [descriptionSchema_admits_iff .root, v.judged.group]
  rcases read_cases hv with ⟨hgroup, d, hread⟩ | ⟨hno, first, more, hread⟩
  · rw [parse, hread]
    exact ⟨fun hw => ⟨(Except.ok.inj hw).symm, hgroup⟩, fun hw => congrArg Except.ok hw.1.symm⟩
  · rw [parse, hread]
    refine iff_of_false (fun hw => ?_) fun hw => hno hw.2
    cases hw

end AttributeGraph
