/-
Reading a description that has been written as data.

Written, a description is an object whose properties are those of a list of keys
and optional values, `Value.properties`; the reader looks each of them up.  What
is written of a group is read without a violation and records the same group
(`Records.read`), although the attributes may come back in another order.  What
is written is also plain data, so it survives as JSON text (`Records.plain`).
-/
import AttributeGraph.Description.Grammar
import AttributeGraph.Proofs.Describing
import AttributeGraph.Proofs.Json
import AttributeGraph.Proofs.KeyOrder
import Mathlib.Data.List.DropRight

namespace AttributeGraph

/-! ### Properties that are present -/

namespace Value

/-- The properties that have a value. -/
def properties (l : List (String × Option Value)) : List (String × Value) :=
  l.flatMap fun e => property e.1 e.2

theorem properties_cons (e : String × Option Value) (l : List (String × Option Value)) :
    properties (e :: l) = property e.1 e.2 ++ properties l := List.flatMap_cons

theorem mem_properties {l : List (String × Option Value)} {f : String × Value} :
    f ∈ properties l ↔ (f.1, some f.2) ∈ l := by
  obtain ⟨k, v⟩ := f
  simp only [properties, List.mem_flatMap, property, List.mem_map, Option.mem_toList]
  constructor
  · intro hf
    obtain ⟨⟨k', o⟩, he, w, hw, hf⟩ := hf
    obtain ⟨rfl, rfl⟩ := Prod.mk.inj hf
    rwa [← show o = some w from hw]
  · exact fun he => ⟨_, he, v, rfl, rfl⟩

theorem keys_properties (l : List (String × Option Value)) :
    ((properties l).map Prod.fst).Sublist (l.map Prod.fst) := by
  induction l with
  | nil => exact .slnil
  | cons e l ih =>
    rw [properties_cons, List.map_append, List.map_cons]
    cases e.2 with
    | none => exact ih.cons e.1
    | some v => exact ih.cons_cons e.1

theorem lookup_properties {key : String} {l : List (String × Option Value)}
    (hkeys : (l.map Prod.fst).Nodup) : (properties l).lookup key = (l.lookup key).join := by
  induction l with
  | nil => rfl
  | cons e l ih =>
    obtain ⟨k, o⟩ := e
    rw [List.map_cons, List.nodup_cons] at hkeys
    have hlookup := ih hkeys.2
    rw [properties_cons, List.lookup_cons]
    by_cases hkey : key = k
    · rw [hkey, beq_self_eq_true]
      cases o with
      | none =>
        rw [hkey] at hlookup
        have habsent : l.lookup k = none := by
          rw [← Option.not_isSome_iff_eq_none, OrderedMap.lookup_isSome_iff]
          exact hkeys.1
        rw [habsent] at hlookup
        exact hlookup
      | some v => exact List.lookup_cons_self
    · have hne : (key == k) = false := beq_eq_false_iff_ne.2 hkey
      rw [hne]
      cases o with
      | none => exact hlookup
      | some v =>
        show ((k, v) :: properties l).lookup key = _
        rw [List.lookup_cons, hne]
        exact hlookup

end Value

/-! ### Descriptions as properties -/

theorem attributeFields_eq (attributes : List (String × NestedDescription)) :
    attributeFields attributes = attributes.map fun a => (a.1, a.2.toValue) := by
  induction attributes with
  | nil => rfl
  | cons a attributes ih => rw [attributeFields, ih, List.map_cons]

theorem groupValues_eq (ds : List Description) : groupValues ds = ds.map Description.toValue := by
  induction ds with
  | nil => rfl
  | cons d ds ih => rw [groupValues, ih, List.map_cons]

namespace Description

/-- The properties of a group, by key. -/
def propertyList (d : Description) : List (String × Option Value) :=
  [("name", some (.text d.name)), ("typeName", d.typeName.map .text),
    ("superTypeName", d.superTypeName.map .text), ("validated", d.validated.map .bool),
    ("kind", d.kind.map fun k => .text k.text),
    ("attributes", d.attributes.map fun a => .record (attributeFields a))]

theorem toValue_eq (d : Description) : d.toValue = .object (Value.properties d.propertyList) := by
  obtain ⟨name, typeName, superTypeName, validated, kind, attributes⟩ := d
  cases attributes <;>
    simp [toValue, Value.properties, propertyList, attributesValue, Value.property]

theorem nodup_propertyList (d : Description) : (d.propertyList.map Prod.fst).Nodup := by
  show groupKeys.Nodup
  decide

theorem index?_propertyList (d : Description) :
    ∀ k ∈ d.propertyList.map Prod.fst, Value.index? k = none := by
  show ∀ k ∈ groupKeys, Value.index? k = none
  decide

end Description

namespace NestedDescription

/-- The properties of an item, by key. -/
def propertyList (d : NestedDescription) : List (String × Option Value) :=
  [("group", d.group.map Description.toValue),
    ("typeGroups", d.typeGroups.map fun ds => .array (groupValues ds)),
    ("keyGroup", d.keyGroup.map Description.toValue),
    ("keyTypeGroups", d.keyTypeGroups.map fun ds => .array (groupValues ds))]

theorem toValue_eq (d : NestedDescription) :
    d.toValue = .object (Value.properties d.propertyList) := by
  obtain ⟨group, typeGroups, keyGroup, keyTypeGroups⟩ := d
  cases group <;> cases typeGroups <;> cases keyGroup <;> cases keyTypeGroups <;> rfl

theorem nodup_propertyList (d : NestedDescription) : (d.propertyList.map Prod.fst).Nodup := by
  show ["group", "typeGroups", "keyGroup", "keyTypeGroups"].Nodup
  decide

theorem index?_propertyList (d : NestedDescription) :
    ∀ k ∈ d.propertyList.map Prod.fst, Value.index? k = none := by
  show ∀ k ∈ ["group", "typeGroups", "keyGroup", "keyTypeGroups"], Value.index? k = none
  decide

end NestedDescription

/-! ### Readers that look properties up -/

namespace Reading

variable {α β : Type}

theorem pure_bind (a : α) (f : α → Reading β) : (pure a >>= f) = f a := rfl

theorem check_true (p : Pointer) (v : Violation) : check p v true = pure () := rfl

end Reading

theorem fieldOf_properties {key : String} {l : List (String × Option Value)}
    (hkeys : (l.map Prod.fst).Nodup) :
    fieldOf key (Value.properties l) = (l.lookup key).join.filter fun v => !v.isUndefined := by
  rw [fieldOf, Value.lookup_properties hkeys]

theorem readClosed_eq {p : Pointer} {known : List String} {fields : List (String × Value)}
    (hknown : ∀ f ∈ fields, f.1 ∈ known) : readClosed p known fields = pure () := by
  induction fields with
  | nil => rfl
  | cons f fields ih =>
    obtain ⟨key, v⟩ := f
    rw [List.forall_mem_cons] at hknown
    have hkey : known.contains key = true := List.contains_iff_mem.2 hknown.1
    rw [readClosed, hkey, Reading.check_true, Reading.pure_bind, ih hknown.2]

theorem readAttributesIn_eq (p : Pointer) (fields : List (String × Value)) :
    readAttributesIn p fields =
      match fields.lookup "attributes" with
      | none => pure none
      | some v => readAttributes (p.child "attributes") v := by
  induction fields with
  | nil => rfl
  | cons f fields ih =>
    obtain ⟨key, v⟩ := f
    rw [readAttributesIn]
    by_cases hkey : key = "attributes"
    · rw [if_pos hkey, hkey, List.lookup_cons_self]
    · have hne : ("attributes" == key) = false := by simpa using fun h => hkey h.symm
      rw [if_neg hkey, List.lookup_cons, hne, ih]

theorem readGroupIn_eq (p : Pointer) (key : String) (fields : List (String × Value)) :
    readGroupIn p key fields =
      match fields.lookup key with
      | none => pure none
      | some v =>
        if v.isUndefined then pure none else do return some (← readGroup (p.child key) v) := by
  induction fields with
  | nil => rfl
  | cons f fields ih =>
    obtain ⟨k, v⟩ := f
    rw [readGroupIn]
    by_cases hkey : k = key
    · rw [if_pos hkey, hkey, List.lookup_cons_self]
    · have hne : (key == k) = false := by simpa using fun h => hkey h.symm
      rw [if_neg hkey, List.lookup_cons, hne, ih]

theorem readTypedIn_eq (p : Pointer) (key : String) (fields : List (String × Value)) :
    readTypedIn p key fields =
      match fields.lookup key with
      | none => pure none
      | some v => readTyped (p.child key) v := by
  induction fields with
  | nil => rfl
  | cons f fields ih =>
    obtain ⟨k, v⟩ := f
    rw [readTypedIn]
    by_cases hkey : k = key
    · rw [if_pos hkey, hkey, List.lookup_cons_self]
    · have hne : (key == k) = false := by simpa using fun h => hkey h.symm
      rw [if_neg hkey, List.lookup_cons, hne, ih]

/-! ### Names of attributes -/

namespace Text

/-- A trimmed text neither starts nor ends with a blank. -/
theorem ends_of_trim {cs : List Char} (htrim : trim cs = cs) :
    (∀ c, cs.head? = some c → isBlank c = false) ∧
      ∀ c, cs.getLast? = some c → isBlank c = false := by
  have hfront : cs.dropWhile isBlank = cs := by
    refine (List.dropWhile_suffix isBlank).eq_of_length ?_
    refine Nat.le_antisymm (List.dropWhile_suffix isBlank).length_le ?_
    have hle := (List.dropWhile_suffix (l := (cs.dropWhile isBlank).reverse) isBlank).length_le
    have hlen := congrArg List.length htrim
    rw [trim, List.length_reverse] at hlen
    rw [List.length_reverse] at hle
    omega
  have hback : cs.reverse.dropWhile isBlank = cs.reverse := by
    rw [trim, hfront] at htrim
    rw [← List.reverse_inj, htrim, List.reverse_reverse]
  have hhead : ∀ {l : List Char}, l.dropWhile isBlank = l → ∀ c, l.head? = some c →
      isBlank c = false := by
    intro l hl c hc
    cases l with
    | nil => cases hc
    | cons a l =>
      obtain rfl := Option.some.inj hc
      rw [List.dropWhile_cons] at hl
      by_contra hblank
      rw [if_pos (by simpa using hblank)] at hl
      have := (List.dropWhile_suffix (l := l) isBlank).length_le
      rw [hl, List.length_cons] at this
      omega
  refine ⟨hhead hfront, fun c hc => hhead hback c ?_⟩
  rwa [List.head?_reverse]

end Text

/-- What can be a segment of a path can name an attribute. -/
theorem isAttributeName_of_isSegment {n : String} (hn : IsSegment n) :
    isAttributeName n = true := by
  obtain ⟨hne, hdot, htrim⟩ := hn
  obtain ⟨hfirst, hlast⟩ := Text.ends_of_trim htrim
  have hend : ∀ c ∈ n.toList, Text.isBlank c = false →
      (decide (c ≠ '.') && !Text.isBlank c) = true := by
    intro c hc hblank
    have hne : c ≠ '.' := fun h => hdot (h ▸ hc)
    rw [hblank, decide_eq_true hne]
    rfl
  cases hcs : n.toList with
  | nil => exact absurd hcs hne
  | cons c rest =>
    rw [hcs] at hfirst hlast hdot hend
    simp only [isAttributeName, hcs]
    rw [hend c List.mem_cons_self (hfirst c rfl), Bool.true_and]
    cases hback : rest.getLast? with
    | none => rfl
    | some last =>
      have hmem : last ∈ rest := List.mem_of_getLast? hback
      have hlast' : (c :: rest).getLast? = some last := by
        rw [List.getLast?_cons, hback, Option.getD_some]
      dsimp only
      rw [hend last (List.mem_cons_of_mem c hmem) (hlast last hlast'), Bool.and_true,
        List.all_eq_true]
      intro d hd
      have hd' : d ∈ c :: rest := List.mem_cons_of_mem c (List.dropLast_subset rest hd)
      exact decide_eq_true fun h => hdot (h ▸ hd')

/-! ### What is written is plain data -/

/-- Properties under fixed keys that are no indices make plain data if their values are. -/
theorem plain_properties {l : List (String × Option Value)} (hkeys : (l.map Prod.fst).Nodup)
    (hindex : ∀ k ∈ l.map Prod.fst, Value.index? k = none)
    (hall : ∀ k v, (k, some v) ∈ l → v.Plain) : (Value.object (Value.properties l)).Plain := by
  have hsub := Value.keys_properties l
  refine .object (Value.record_of_none (hsub.nodup hkeys) ?_) ?_
  · intro e he
    exact hindex e.1 (hsub.subset (List.mem_map_of_mem he))
  · intro f hf
    exact hall f.1 f.2 (Value.mem_properties.1 hf)

theorem plain_groupValues {ds : List Description} (hds : ∀ d ∈ ds, d.toValue.Plain) :
    (Value.array (groupValues ds)).Plain := by
  rw [groupValues_eq]
  refine .array fun v hv => ?_
  obtain ⟨d, hd, rfl⟩ := List.mem_map.1 hv
  exact hds d hd

theorem plain_item {item : NestedDescription}
    (htyped : ∀ side, ∀ d ∈ item.typed side, d.toValue.Plain)
    (hlone : ∀ side, ∀ d ∈ item.lone side, d.toValue.Plain) : item.toValue.Plain := by
  rw [item.toValue_eq]
  refine plain_properties item.nodup_propertyList item.index?_propertyList fun k v hv => ?_
  simp only [NestedDescription.propertyList, List.mem_cons, List.not_mem_nil, or_false,
    Prod.mk.injEq, eq_comm (a := some v), Option.map_eq_some_iff] at hv
  rcases hv with ⟨-, d, hd, rfl⟩ | ⟨-, ds, hds, rfl⟩ | ⟨-, d, hd, rfl⟩ | ⟨-, ds, hds, rfl⟩
  · exact hlone .value d hd
  · exact plain_groupValues fun d hd => htyped .value d (by rwa [NestedDescription.typed, hds])
  · exact hlone .key d hd
  · exact plain_groupValues fun d hd => htyped .key d (by rwa [NestedDescription.typed, hds])

theorem plain_attributes {attributes : List (String × NestedDescription)}
    (hnames : (attributes.map Prod.fst).Nodup) (hall : ∀ a ∈ attributes, a.2.toValue.Plain) :
    (Value.record (attributeFields attributes)).Plain := by
  have hkeys : ((attributeFields attributes).map Prod.fst).Nodup := by
    rw [attributeFields_eq, List.map_map]
    exact hnames
  rw [Value.record_eq hkeys]
  refine .object (Value.record_inKeyOrder hkeys) fun f hf => ?_
  rw [(Value.inKeyOrder_perm _).mem_iff, attributeFields_eq] at hf
  obtain ⟨a, ha, rfl⟩ := List.mem_map.1 hf
  exact hall a ha

namespace Heap

variable {h : Heap} {among : List GroupId} {g : GroupId} {d : Description}

/-- What is written of a recorded group is plain data. -/
theorem Records.plain (hrec : h.Records among g d) : d.toValue.Plain := by
  refine Records.induct (motive := fun _ _ d => d.toValue.Plain) ?_ hrec
  intro among g d hd
  have hitems : ∀ a ∈ d.fields, a.2.toValue.Plain := by
    intro a ha
    obtain ⟨i, -, hslots⟩ := hd.exists_item ha
    refine plain_item (fun side e he => ?_) (fun side e he => ?_)
    · obtain ⟨y, -, hy⟩ := exists_left_of_mem (hslots side).typed he
      exact hy.2.2
    · obtain ⟨y, -, hy⟩ := exists_left_of_rel (hslots side).lone he
      exact hy.2.2
  rw [d.toValue_eq]
  refine plain_properties d.nodup_propertyList d.index?_propertyList fun k v hv => ?_
  simp only [Description.propertyList, List.mem_cons, List.not_mem_nil, or_false,
    Prod.mk.injEq, eq_comm (a := some v), Option.map_eq_some_iff, Option.some.injEq] at hv
  rcases hv with ⟨-, rfl⟩ | ⟨-, s, -, rfl⟩ | ⟨-, s, -, rfl⟩ | ⟨-, b, -, rfl⟩ | ⟨-, k, -, rfl⟩ |
    ⟨-, attributes, hattributes, rfl⟩
  · exact .text _
  · exact .text s
  · exact .text s
  · exact .bool b
  · exact .text k.text
  · have hfields : d.fields = attributes := by
      rw [Description.fields, hattributes, Option.getD_some]
    have hnames := hd.nodup_names
    rw [hfields] at hnames hitems
    exact plain_attributes hnames hitems

/-! ### What is written is read -/

/-- A property that may be absent is read as it was written. -/
theorem readOptional_properties {α : Type} {p : Pointer} {key : String}
    {read : Pointer → Value → Reading α} {l : List (String × Option Value)} {write : α → Value}
    {o : Option α} (hkeys : (l.map Prod.fst).Nodup) (hkey : l.lookup key = some (o.map write))
    (hread : ∀ a, o = some a →
      (write a).isUndefined = false ∧ read (p.child key) (write a) = pure a) :
    readOptional p key read (Value.properties l) = pure o := by
  rw [readOptional, fieldOf_properties hkeys, hkey]
  cases o with
  | none => rfl
  | some a =>
    obtain ⟨hdefined, hread⟩ := hread a rfl
    simp only [Option.map_some, Option.join_some, Option.filter_some, hdefined, Bool.not_false,
      if_true, hread, Reading.pure_bind]

theorem readNonEmpty_text {p : Pointer} {s : String} (hs : s ≠ "") :
    readNonEmpty p (.text s) = pure s := by
  rw [readNonEmpty, if_neg hs]

theorem readKind_text (p : Pointer) (k : Kind) : readKind p (.text k.text) = pure k := by
  cases k <;> rfl

/-- A group is read as it was written if its attributes are. -/
theorem readGroup_toValue {d : Description}
    {attributes : Option (List (String × NestedDescription))}
    (htypeName : ∀ n, d.typeName = some n → n ≠ "")
    (hsuper : ∀ n, d.superTypeName = some n → n ≠ "")
    (hnone : d.attributes = none → attributes = none)
    (hsome : ∀ as p, d.attributes = some as →
      readAttributes p (.record (attributeFields as)) = pure attributes) (p : Pointer) :
    readGroup p d.toValue = pure { d with attributes := attributes } := by
  have hkeys := d.nodup_propertyList
  have hpresent : (fieldOf "name" (Value.properties d.propertyList)).isSome = true := by
    rw [fieldOf_properties hkeys]
    rfl
  have hclosed : readClosed p groupKeys (Value.properties d.propertyList) = pure () := by
    refine readClosed_eq fun f hf => ?_
    exact (Value.keys_properties d.propertyList).subset (List.mem_map_of_mem hf)
  have hname :
      readOptional p "name" readText (Value.properties d.propertyList) = pure (some d.name) :=
    readOptional_properties hkeys (show _ = some ((some d.name).map Value.text) from rfl)
      fun _ _ => ⟨rfl, rfl⟩
  have htypeName : readOptional p "typeName" readNonEmpty (Value.properties d.propertyList) =
      pure d.typeName :=
    readOptional_properties hkeys rfl fun n hn => ⟨rfl, readNonEmpty_text (htypeName n hn)⟩
  have hsuper : readOptional p "superTypeName" readNonEmpty (Value.properties d.propertyList) =
      pure d.superTypeName :=
    readOptional_properties hkeys rfl fun n hn => ⟨rfl, readNonEmpty_text (hsuper n hn)⟩
  have hvalidated : readOptional p "validated" readBoolean (Value.properties d.propertyList) =
      pure d.validated :=
    readOptional_properties hkeys rfl fun _ _ => ⟨rfl, rfl⟩
  have hkind : readOptional p "kind" readKind (Value.properties d.propertyList) = pure d.kind :=
    readOptional_properties hkeys rfl fun k _ => ⟨rfl, readKind_text _ k⟩
  have hattributes : readAttributesIn p (Value.properties d.propertyList) = pure attributes := by
    rw [readAttributesIn_eq, Value.lookup_properties hkeys]
    show (match (d.attributes.map fun a => Value.record (attributeFields a)) with
      | none => pure none
      | some v => readAttributes (p.child "attributes") v) = pure attributes
    cases has : d.attributes with
    | none => rw [hnone has]; rfl
    | some as => exact hsome as _ has
  rw [d.toValue_eq, readGroup, hpresent, Reading.check_true, Reading.pure_bind, hclosed,
    Reading.pure_bind, hname, Reading.pure_bind, htypeName, Reading.pure_bind, hsuper,
    Reading.pure_bind, hvalidated, Reading.pure_bind, hkind, Reading.pure_bind, hattributes,
    Reading.pure_bind]
  rfl

/-- A group is read with its own type name. -/
theorem readOwnTypeName_toValue {d : Description} {n : String} (hd : d.typeName = some n)
    (hn : n ≠ "") (p : Pointer) : readOwnTypeName p d.toValue = pure () := by
  have hfield : fieldOf "typeName" (Value.properties d.propertyList) = some (.text n) := by
    rw [fieldOf_properties d.nodup_propertyList]
    show ((some (d.typeName.map Value.text)).join).filter _ = _
    rw [hd]
    rfl
  rw [d.toValue_eq, readOwnTypeName]
  simp only [hfield, readNonEmpty_text hn, Reading.pure_bind]

/-- What is written of a description is read, and what is read is related to the same group. -/
def ReadAs (S : GroupId → Description → Prop) (y : GroupId) (d : Description) : Prop :=
  ∃ d', (∀ p, readGroup p d.toValue = pure d') ∧ S y d'

section Slots

variable {S : GroupId → Description → Prop} {ys : List GroupId}

/-- Groups filed per type that are read one by one are read as a list. -/
theorem readElements_groupValues {ds : List Description}
    (hall : List.Forall₂ (fun y d => (∃ n, d.typeName = some n ∧ n ≠ "") ∧ ReadAs S y d) ys ds) :
    ∃ ds', (∀ p n, readElements p n (groupValues ds) = pure ds') ∧ List.Forall₂ S ys ds' := by
  induction hall with
  | nil => exact ⟨[], fun _ _ => rfl, .nil⟩
  | @cons y d ys ds hd _ ih =>
    obtain ⟨⟨n, htypeName, hn⟩, d', hread, hd'⟩ := hd
    obtain ⟨ds', hreads, hds'⟩ := ih
    refine ⟨d' :: ds', fun p k => ?_, .cons hd' hds'⟩
    rw [groupValues, readElements, hread, Reading.pure_bind, readOwnTypeName_toValue htypeName hn,
      Reading.pure_bind, hreads, Reading.pure_bind]

/-- The typed groups of a slot are read from the properties of an item. -/
theorem exists_read_typed {o : Option (List Description)}
    (hall : List.Forall₂ (fun y d => (∃ n, d.typeName = some n ∧ n ≠ "") ∧ ReadAs S y d) ys
      (o.getD [])) :
    ∃ o' : Option (List Description), List.Forall₂ S ys (o'.getD []) ∧
      ∀ p key (l : List (String × Option Value)), (l.map Prod.fst).Nodup →
        l.lookup key = some (o.map fun ds => .array (groupValues ds)) →
        readTypedIn p key (Value.properties l) = pure o' := by
  obtain ⟨ds', hreads, hds'⟩ := readElements_groupValues hall
  cases o with
  | none =>
    obtain rfl := List.forall₂_nil_right_iff.1 hall
    refine ⟨none, .nil, fun p key l hkeys hkey => ?_⟩
    rw [readTypedIn_eq, Value.lookup_properties hkeys, hkey]
    rfl
  | some ds =>
    refine ⟨some ds', hds', fun p key l hkeys hkey => ?_⟩
    rw [readTypedIn_eq, Value.lookup_properties hkeys, hkey]
    show readTyped (p.child key) (.array (groupValues ds)) = _
    rw [readTyped, show readElements (p.child key) 0 (groupValues ds) = _ from hreads _ 0]
    rfl

/-- The primary group of a slot is read from the properties of an item. -/
theorem exists_read_lone {x : Option GroupId} {o : Option Description}
    (hone : Option.Rel (ReadAs S) x o) :
    ∃ o', Option.Rel S x o' ∧
      ∀ p key (l : List (String × Option Value)), (l.map Prod.fst).Nodup →
        l.lookup key = some (o.map Description.toValue) →
        readGroupIn p key (Value.properties l) = pure o' := by
  cases hone with
  | none =>
    refine ⟨none, .none, fun p key l hkeys hkey => ?_⟩
    rw [readGroupIn_eq, Value.lookup_properties hkeys, hkey]
    rfl
  | @some y d hd =>
    obtain ⟨d', hread, hd'⟩ := hd
    refine ⟨some d', .some hd', fun p key l hkeys hkey => ?_⟩
    rw [readGroupIn_eq, Value.lookup_properties hkeys, hkey]
    show (if d.toValue.isUndefined then _ else _) = _
    have hdefined : d.toValue.isUndefined = false := by
      rw [d.toValue_eq]
      rfl
    rw [hdefined, if_neg Bool.false_ne_true, hread]
    rfl

end Slots

/-- An item is read if the groups nested in it are. -/
theorem readItem_toValue {P : List GroupId → GroupId → Description → Prop} {i : Item}
    {item : NestedDescription}
    (hslots : ∀ side, SlotRecorded (fun among => ReadAs (P among)) (i.slot side) (item.typed side)
      (item.lone side))
    (htyped : ∀ side, ∀ d ∈ item.typed side, ∃ n, d.typeName = some n ∧ n ≠ "") :
    ∃ item', (∀ p, readItem p item.toValue = pure item') ∧
      ∀ side, SlotRecorded P (i.slot side) (item'.typed side) (item'.lone side) := by
  have hboth : ∀ side, List.Forall₂
      (fun y d => (∃ n, d.typeName = some n ∧ n ≠ "") ∧ ReadAs (P (siblings (i.slot side))) y d)
      (typedInOrder (i.slot side)) (item.typed side) := by
    intro side
    have hflip := (List.forall₂_and_left _ _).2 ⟨htyped side, (hslots side).typed.flip⟩
    exact hflip.flip
  obtain ⟨typeGroups, htypeGroups, hreadTypeGroups⟩ := exists_read_typed (hboth .value)
  obtain ⟨keyTypeGroups, hkeyTypeGroups, hreadKeyTypeGroups⟩ := exists_read_typed (hboth .key)
  obtain ⟨group, hgroup, hreadGroup⟩ := exists_read_lone (hslots .value).lone
  obtain ⟨keyGroup, hkeyGroup, hreadKeyGroup⟩ := exists_read_lone (hslots .key).lone
  have hkeys := item.nodup_propertyList
  refine ⟨⟨group, typeGroups, keyGroup, keyTypeGroups⟩, fun p => ?_, fun side => ?_⟩
  · have hclosed : readClosed p itemKeys (Value.properties item.propertyList) = pure () := by
      refine readClosed_eq fun f hf => ?_
      have hmem := (Value.keys_properties item.propertyList).subset (List.mem_map_of_mem hf)
      have hknown : ∀ k ∈ item.propertyList.map Prod.fst, k ∈ itemKeys := by
        show ∀ k ∈ ["group", "typeGroups", "keyGroup", "keyTypeGroups"], k ∈ itemKeys
        decide
      exact hknown f.1 hmem
    rw [item.toValue_eq, readItem, hclosed, Reading.pure_bind, hreadGroup p "group" _ hkeys rfl,
      Reading.pure_bind, hreadKeyGroup p "keyGroup" _ hkeys rfl, Reading.pure_bind,
      hreadTypeGroups p "typeGroups" _ hkeys rfl, Reading.pure_bind,
      hreadKeyTypeGroups p "keyTypeGroups" _ hkeys rfl, Reading.pure_bind]
  · cases side with
    | value => exact ⟨htypeGroups, hgroup⟩
    | key => exact ⟨hkeyTypeGroups, hkeyGroup⟩

theorem readKeys_eq {p : Pointer} {fields : List (String × Value)}
    (hnames : ∀ f ∈ fields, isAttributeName f.1 = true) : readKeys p fields = pure () := by
  induction fields with
  | nil => rfl
  | cons f fields ih =>
    obtain ⟨key, v⟩ := f
    rw [List.forall_mem_cons] at hnames
    rw [readKeys, show isAttributeName key = true from hnames.1, Reading.check_true,
      Reading.pure_bind, Reading.check_true, Reading.pure_bind, ih hnames.2]

/-- Items that are read one by one are read as a list. -/
theorem exists_read_items {Q : String → NestedDescription → Prop} {fields : List (String × Value)}
    (hall : ∀ f ∈ fields, ∃ item, (∀ p, readItem p f.2 = pure item) ∧ Q f.1 item) :
    ∃ items, (∀ p, readItems p fields = pure items) ∧ items.map Prod.fst = fields.map Prod.fst ∧
      ∀ a ∈ items, Q a.1 a.2 := by
  induction fields with
  | nil => exact ⟨[], fun _ => rfl, rfl, fun a ha => absurd ha List.not_mem_nil⟩
  | cons f fields ih =>
    obtain ⟨key, v⟩ := f
    rw [List.forall_mem_cons] at hall
    obtain ⟨item, hread, hitem⟩ := hall.1
    obtain ⟨items, hreads, hnames, hitems⟩ := ih hall.2
    refine ⟨(key, item) :: items, fun p => ?_, ?_, List.forall_mem_cons.2 ⟨hitem, hitems⟩⟩
    · rw [readItems, show readItem (p.child key) v = pure item from hread _, Reading.pure_bind,
        hreads, Reading.pure_bind]
    · rw [List.map_cons, List.map_cons, hnames]

/-- Attributes are read if their items are; they may change their order. -/
theorem exists_read_attributes {Q : String → NestedDescription → Prop}
    {attributes : List (String × NestedDescription)} (hnames : (attributes.map Prod.fst).Nodup)
    (hallowed : ∀ a ∈ attributes, isAttributeName a.1 = true)
    (hall : ∀ a ∈ attributes, ∃ item, (∀ p, readItem p a.2.toValue = pure item) ∧ Q a.1 item) :
    ∃ items, (∀ p, readAttributes p (.record (attributeFields attributes)) = pure (some items)) ∧
      (items.map Prod.fst).Perm (attributes.map Prod.fst) ∧ ∀ a ∈ items, Q a.1 a.2 := by
  have hfields : (attributeFields attributes).map Prod.fst = attributes.map Prod.fst := by
    rw [attributeFields_eq, List.map_map]
    rfl
  have hperm := Value.inKeyOrder_perm (attributeFields attributes)
  have hmem : ∀ f ∈ Value.inKeyOrder (attributeFields attributes), ∃ a ∈ attributes,
      (a.1, a.2.toValue) = f := by
    intro f hf
    rw [hperm.mem_iff, attributeFields_eq] at hf
    exact List.mem_map.1 hf
  have hitems : ∀ f ∈ Value.inKeyOrder (attributeFields attributes), ∃ item,
      (∀ p, readItem p f.2 = pure item) ∧ Q f.1 item := by
    intro f hf
    obtain ⟨a, ha, rfl⟩ := hmem f hf
    exact hall a ha
  obtain ⟨items, hreads, hkeys, hQ⟩ := exists_read_items hitems
  refine ⟨items, fun p => ?_, ?_, hQ⟩
  · have hnamed : readKeys p (Value.inKeyOrder (attributeFields attributes)) = pure () := by
      refine readKeys_eq fun f hf => ?_
      obtain ⟨a, ha, rfl⟩ := hmem f hf
      exact hallowed a ha
    rw [Value.record_eq (by rwa [hfields]), readAttributes, hnamed, Reading.pure_bind, hreads,
      Reading.pure_bind]
  · rw [hkeys, ← hfields]
    exact hperm.map Prod.fst

/-- What is written of a group can be read, apart from what is nested in the groups of its slots:
the names of its attributes are allowed, its type name is not empty, and the groups filed per type
have one. -/
structure GroupWritable (h : Heap) (g : GroupId) : Prop where
  allowed : ∀ n ∈ (h.group g).items.keys, isAttributeName n = true
  typeName : ∀ n, (h.group g).typeName = some n → n ≠ ""
  typed : ∀ i ∈ (h.group g).itemIds, ∀ side, ∀ y ∈ ((h.item i).slot side).typed,
    (h.group y).typeName.isSome = true

/-- What is written of a group and all that is nested in it can be read. -/
def Writable (h : Heap) (root : GroupId) : Prop := ∀ x, h.Within root x → h.GroupWritable x

theorem Storable.writable {root : GroupId} (hstore : h.Storable root) : h.Writable root := by
  intro x hx
  have hgroup := hstore.group x hx
  refine ⟨fun n hn => isAttributeName_of_isSegment (hgroup.segments n hn), hgroup.typeName,
    fun i hi side y hy => ?_⟩
  obtain ⟨k, hk⟩ := Slot.mem_typed_iff.1 hy
  exact ((hgroup.slots i hi side).filed k y hk).2

/-- No group of a list has an empty type name. -/
def TypeNamesGiven (h : Heap) (among : List GroupId) : Prop :=
  ∀ s ∈ among, ∀ n, (h.group s).typeName = some n → n ≠ ""

/-- The super type that is written down is not empty if no type name is. -/
theorem siblingTypeName_ne {among : List GroupId} {g : GroupId} (hamong : h.TypeNamesGiven among)
    {n : String} (hn : h.siblingTypeName among g = some n) : n ≠ "" := by
  unfold siblingTypeName at hn
  obtain ⟨s, hs, hname⟩ := Option.bind_eq_some_iff.1 hn
  exact hamong s (by simpa using (Option.filter_eq_some_iff.1 hs).2) n hname

/-- What is written of a group is read, if the group is nested below the root. -/
def Readable (h : Heap) (root : GroupId) (among : List GroupId) (g : GroupId) (d : Description) :
    Prop :=
  h.Within root g → h.TypeNamesGiven among → ReadAs (h.Records among) g d

/-- What is written of an item is read if this holds of the groups in its slots. -/
theorem exists_read_item {root : GroupId} (hwrite : h.Writable root) (hg : h.Within root g)
    (hd : h.GroupRecorded
      (fun among y e => h.Nests g y ∧ h.Records among y e ∧ h.Readable root among y e) among g d)
    {a : String × NestedDescription} (ha : a ∈ d.fields) :
    ∃ item, (∀ p, readItem p a.2.toValue = pure item) ∧
      ∀ i, (h.group g).items.find? a.1 = some i → ∀ side,
        SlotRecorded h.Records ((h.item i).slot side) (item.typed side) (item.lone side) := by
  obtain ⟨i, hi, hslots⟩ := hd.exists_item ha
  have hslot : ∀ side, ∀ y ∈ ((h.item i).slot side).groups, h.Within root y := fun side y hy =>
    hg.tail (.intro side (mem_itemIds_of_find? hi) hy)
  have hgiven : ∀ side, h.TypeNamesGiven (siblings ((h.item i).slot side)) := by
    intro side s hs
    exact (hwrite s (hslot side s (mem_siblings.1 hs))).typeName
  obtain ⟨item, hread, hitem⟩ := readItem_toValue (P := h.Records)
    (fun side => (hslots side).mono fun y e _ he => he.2.2 (hg.tail he.1) (hgiven side)) (by
      intro side e he
      obtain ⟨y, hy, -, hrecy, -⟩ := exists_left_of_mem (hslots side).typed he
      have htyped := mem_typedInOrder.1 hy
      obtain ⟨n, hn⟩ := Option.isSome_iff_exists.1
        ((hwrite g hg).typed i (mem_itemIds_of_find? hi) side y htyped)
      have hy := hslot side y (Slot.mem_groups.2 (.inr htyped))
      refine ⟨n, ?_, (hwrite y hy).typeName n hn⟩
      rw [hrecy.recorded.typeName, hn])
  refine ⟨item, hread, fun j hj => ?_⟩
  obtain rfl := Option.some.inj (hi.symm.trans hj)
  exact hitem

/-- **What is written of a recorded group is read**, and what is read records the group. -/
theorem Records.read {root : GroupId} (hwrite : h.Writable root) (hrec : h.Records among g d) :
    h.Readable root among g d := by
  refine Records.induct (motive := h.Readable root) ?_ hrec
  intro among g d hd hg hgiven
  have hgroup := hwrite g hg
  have htypeName : ∀ n, d.typeName = some n → n ≠ "" := by
    rw [hd.typeName]
    exact hgroup.typeName
  have hsuper : ∀ n, d.superTypeName = some n → n ≠ "" := by
    rw [hd.super]
    exact fun n => siblingTypeName_ne hgiven
  obtain ⟨items, hreads, hperm, hall⟩ := exists_read_attributes
    (Q := fun n item => ∀ i, (h.group g).items.find? n = some i → ∀ side,
      SlotRecorded h.Records ((h.item i).slot side) (item.typed side) (item.lone side))
    hd.nodup_names
    (fun a ha => hgroup.allowed a.1 (hd.names.mem_iff.1 (List.mem_map_of_mem ha)))
    fun a ha => exists_read_item hwrite hg hd ha
  cases hattributes : d.attributes with
  | none =>
    have hnil : d.fields = [] := by rw [Description.fields, hattributes, Option.getD_none]
    refine ⟨{ d with attributes := none },
      readGroup_toValue htypeName hsuper (fun _ => rfl) (fun as p has => ?_), ?_⟩
    · rw [hattributes] at has
      cases has
    · have hnames := hd.names
      rw [hnil] at hnames
      exact .intro h.Records (fun _ _ _ he => he) ⟨hd.name, hd.typeName, hd.super, hd.validated,
        hd.kind, hnames, fun n item i hmem => absurd hmem List.not_mem_nil⟩
  | some attributes =>
    have hfields : d.fields = attributes := by
      rw [Description.fields, hattributes, Option.getD_some]
    refine ⟨{ d with attributes := some items },
      readGroup_toValue htypeName hsuper (fun hnone => ?_) (fun as p has => ?_), ?_⟩
    · rw [hattributes] at hnone
      cases hnone
    · rw [hattributes] at has
      rw [← Option.some.inj has, ← hfields]
      exact hreads p
    · exact .intro h.Records (fun _ _ _ he => he) ⟨hd.name, hd.typeName, hd.super, hd.validated,
        hd.kind, hperm.trans hd.names, fun n item i hmem hi => hall (n, item) hmem i hi⟩

/-- A description as it is stored: as data, or as JSON text. -/
def Stores (input : Value) (d : Description) : Prop :=
  input = d.toValue ∨ input = .text (Json.toText d.toValue)

/-- A stored description is read, and what is read records the group. -/
theorem Records.read_stored {root : GroupId} (hwrite : h.Writable root)
    (hrec : h.Records [] root d) {input : Value} (hinput : Stores input d) :
    ∃ d', Description.read input = .ok (d.toValue, d') ∧ h.Records [] root d' := by
  obtain ⟨d', hread, hrec'⟩ := hrec.read hwrite .refl fun s hs => absurd hs List.not_mem_nil
  have hvalue : Description.inputValue input = .ok d.toValue := by
    rcases hinput with rfl | rfl
    · rw [d.toValue_eq]
      rfl
    · rw [Description.inputValue, Json.parse?_toText hrec.plain]
  refine ⟨d', ?_, hrec'⟩
  simp only [Description.read, hvalue, bind, Except.bind, hread]
  rfl

end Heap

end AttributeGraph
