/-
What a value that is accepted says.

A value that is read without a violation is what the description writes, with
the properties of groups and items in any order: `SameGroup` compares those by
key, and goes through attributes and groups filed per type in their order.

What else the grammar asks for comes along (`Parsed`).  The names of the
attributes are different, because no object has a key twice, and none of them has
a dot or ends in a blank; no type name is empty, and every group filed per type
has one.
-/
import AttributeGraph.Proofs.Reading

namespace AttributeGraph

/-! ### Objects as they come -/

/-- Data whose objects have distinct keys in key order, as all objects do. -/
inductive Value.Regular : Value → Prop
  | undefined : Regular .undefined
  | null : Regular .null
  | bool (b : Bool) : Regular (.bool b)
  | number (x : Float) : Regular (.number x)
  | text (s : String) : Regular (.text s)
  | array {elements : List Value} (hall : ∀ v ∈ elements, Regular v) : Regular (.array elements)
  | object {fields : List (String × Value)} (horder : Value.record fields = .object fields)
      (hall : ∀ f ∈ fields, Regular f.2) : Regular (.object fields)

mutual
/-- Whether data is regular. -/
def Value.isRegular : Value → Bool
  | .undefined | .null | .bool _ | .number _ | .text _ => true
  | .array elements => elementsRegular elements
  | .object fields =>
    decide ((fields.map Prod.fst).Nodup ∧ (fields.map Prod.fst).Pairwise Value.Before) &&
      fieldsRegular fields
termination_by structural v => v
/-- Whether all elements of an array are regular. -/
def elementsRegular : List Value → Bool
  | [] => true
  | v :: rest => v.isRegular && elementsRegular rest
termination_by structural elements => elements
/-- Whether all properties of an object are regular. -/
def fieldsRegular : List (String × Value) → Bool
  | [] => true
  | (_, v) :: rest => v.isRegular && fieldsRegular rest
termination_by structural fields => fields
end

mutual
theorem Value.isRegular_iff : ∀ v : Value, v.isRegular = true ↔ v.Regular
  | .undefined => iff_of_true rfl .undefined
  | .null => iff_of_true rfl .null
  | .bool b => iff_of_true rfl (.bool b)
  | .number x => iff_of_true rfl (.number x)
  | .text s => iff_of_true rfl (.text s)
  | .array elements => by
    rw [Value.isRegular, elementsRegular_iff elements]
    exact ⟨.array, fun | .array hall => hall⟩
  | .object fields => by
    rw [Value.isRegular, Bool.and_eq_true, decide_eq_true_iff, ← Value.record_eq_object_iff,
      fieldsRegular_iff fields]
    exact ⟨fun hfields => .object hfields.1 hfields.2, fun | .object horder hall => ⟨horder, hall⟩⟩
theorem elementsRegular_iff : ∀ elements : List Value,
    elementsRegular elements = true ↔ ∀ v ∈ elements, v.Regular
  | [] => iff_of_true rfl fun _ hv => absurd hv List.not_mem_nil
  | v :: rest => by
    rw [elementsRegular, Bool.and_eq_true, v.isRegular_iff, elementsRegular_iff rest,
      List.forall_mem_cons]
theorem fieldsRegular_iff : ∀ fields : List (String × Value),
    fieldsRegular fields = true ↔ ∀ f ∈ fields, f.2.Regular
  | [] => iff_of_true rfl fun _ hf => absurd hf List.not_mem_nil
  | (_, v) :: rest => by
    rw [fieldsRegular, Bool.and_eq_true, v.isRegular_iff, fieldsRegular_iff rest,
      List.forall_mem_cons]
end

instance (v : Value) : Decidable v.Regular := decidable_of_iff _ v.isRegular_iff

theorem Value.Regular.record {fields : List (String × Value)} (hall : ∀ f ∈ fields, f.2.Regular) :
    (Value.record fields).Regular := by
  refine .object (Value.record_inKeyOrder (OrderedMap.ofList fields).nodup_keys) fun f hf => ?_
  have hmem := (Value.inKeyOrder_perm _).mem_iff.1 hf
  have hvalue := OrderedMap.mem_values_ofList (List.mem_map_of_mem (f := Prod.snd) hmem)
  obtain ⟨f', hf', heq⟩ := List.mem_map.1 hvalue
  exact heq ▸ hall f' hf'

theorem Value.Plain.regular {v : Value} (hv : v.Plain) : v.Regular := by
  induction hv with
  | null => exact .null
  | bool b => exact .bool b
  | text s => exact .text s
  | array _ ih => exact .array ih
  | object horder _ ih => exact .object horder ih

namespace Json

theorem regular_of_readNumber? {cs rest : List Char} {v : Value}
    (hv : readNumber? cs = some (v, rest)) : v.Regular := by
  simp only [readNumber?, Option.bind_eq_bind, Option.bind_eq_some_iff, Option.pure_def,
    Option.some.injEq, Prod.mk.injEq] at hv
  obtain ⟨_, _, _, _, _, _, rfl, _⟩ := hv
  exact .number _

/-- What the readers read up to a depth is regular. -/
structure ReadsRegular (fuel : Nat) : Prop where
  value : ∀ cs v rest, readValue fuel cs = some (v, rest) → v.Regular
  elements : ∀ cs vs rest, readElements fuel cs = some (vs, rest) → ∀ v ∈ vs, v.Regular
  fields : ∀ cs fs rest, readFields fuel cs = some (fs, rest) → ∀ f ∈ fs, f.2.Regular

namespace ReadsRegular

variable {fuel : Nat} (hfuel : ReadsRegular fuel)

include hfuel

theorem value_succ (cs : List Char) (v : Value) (rest : List Char)
    (hv : readValue (fuel + 1) cs = some (v, rest)) : v.Regular := by
  unfold readValue at hv
  split at hv
  · cases hv
    exact .null
  · cases hv
    exact .bool true
  · cases hv
    exact .bool false
  · obtain ⟨_, -, heq⟩ := Option.map_eq_some_iff.1 hv
    cases heq
    exact .text _
  · split at hv
    · cases hv
      exact .array fun v hv => absurd hv List.not_mem_nil
    · obtain ⟨_, hvs, heq⟩ := Option.map_eq_some_iff.1 hv
      cases heq
      exact .array (hfuel.elements _ _ _ hvs)
  · split at hv
    · cases hv
      exact .record fun f hf => absurd hf List.not_mem_nil
    · obtain ⟨_, hfs, heq⟩ := Option.map_eq_some_iff.1 hv
      cases heq
      exact .record (hfuel.fields _ _ _ hfs)
  · exact regular_of_readNumber? hv

theorem elements_succ (cs : List Char) (vs : List Value) (rest : List Char)
    (hvs : readElements (fuel + 1) cs = some (vs, rest)) : ∀ v ∈ vs, v.Regular := by
  unfold readElements at hvs
  split at hvs
  · cases hvs
  · rename_i v _ hfirst
    have hv := hfuel.value _ v _ hfirst
    split at hvs
    · cases hvs
      exact List.forall_mem_singleton.2 hv
    · obtain ⟨_, hmore, heq⟩ := Option.map_eq_some_iff.1 hvs
      cases heq
      exact List.forall_mem_cons.2 ⟨hv, hfuel.elements _ _ _ hmore⟩
    · cases hvs

theorem fields_succ (cs : List Char) (fs : List (String × Value)) (rest : List Char)
    (hfs : readFields (fuel + 1) cs = some (fs, rest)) : ∀ f ∈ fs, f.2.Regular := by
  unfold readFields at hfs
  split at hfs
  case h_2 => cases hfs
  split at hfs
  case h_1 => cases hfs
  split at hfs
  case h_2 => cases hfs
  split at hfs
  case h_1 => cases hfs
  rename_i v _ hfirst
  have hv := hfuel.value _ v _ hfirst
  split at hfs
  · cases hfs
    exact List.forall_mem_singleton.2 hv
  · obtain ⟨_, hmore, heq⟩ := Option.map_eq_some_iff.1 hfs
    cases heq
    exact List.forall_mem_cons.2 ⟨hv, hfuel.fields _ _ _ hmore⟩
  · cases hfs

end ReadsRegular

theorem readsRegular (fuel : Nat) : ReadsRegular fuel := by
  induction fuel with
  | zero =>
    refine ⟨fun _ _ _ hv => ?_, fun _ _ _ hvs => ?_, fun _ _ _ hfs => ?_⟩
    · cases hv
    · cases hvs
    · cases hfs
  | succ fuel ih => exact ⟨ih.value_succ, ih.elements_succ, ih.fields_succ⟩

/-- What is read from a text is regular. -/
theorem regular_of_parse? {text : String} {v : Value} (hv : parse? text = some v) : v.Regular := by
  unfold parse? at hv
  dsimp only at hv
  split at hv
  · rename_i w rest hread
    split_ifs at hv
    cases hv
    exact (readsRegular _).value _ _ _ hread
  · cases hv

end Json

/-- The value that a regular input stands for is regular. -/
theorem Description.regular_of_inputValue {input v : Value} (hinput : input.Regular)
    (hv : inputValue input = .ok v) : v.Regular := by
  unfold inputValue at hv
  split at hv
  · split at hv
    · rename_i hparse
      cases hv
      exact Json.regular_of_parse? hparse
    · cases hv
  · cases hv
    exact hinput

/-! ### The same description -/

mutual
/-- Two objects describe the same group: the attributes do so in their order, and all other
properties agree in any order. -/
inductive SameGroup : Value → Value → Prop
  | intro {fs gs : List (String × Value)}
      (surface : ∀ key, key ≠ "attributes" → fieldOf key fs = fieldOf key gs)
      (attributes : SameAttributes (fieldOf "attributes" fs) (fieldOf "attributes" gs)) :
      SameGroup (.object fs) (.object gs)
/-- Attributes of the same names, in their order, whose items are the same. -/
inductive SameAttributes : Option Value → Option Value → Prop
  | absent : SameAttributes none none
  | present {fs gs : List (String × Value)} (names : fs.map Prod.fst = gs.map Prod.fst)
      (items : List.Forall₂ SameItem (fs.map Prod.snd) (gs.map Prod.snd)) :
      SameAttributes (some (.object fs)) (some (.object gs))
/-- Two objects describe the same item: their properties agree in any order. -/
inductive SameItem : Value → Value → Prop
  | intro {fs gs : List (String × Value)}
      (nested : ∀ key, SameNested (fieldOf key fs) (fieldOf key gs)) :
      SameItem (.object fs) (.object gs)
/-- The same nested group, or the same groups filed per type in their order. -/
inductive SameNested : Option Value → Option Value → Prop
  | absent : SameNested none none
  | group {v w : Value} (same : SameGroup v w) : SameNested (some v) (some w)
  | typed {vs ws : List Value} (same : List.Forall₂ SameGroup vs ws) :
      SameNested (some (.array vs)) (some (.array ws))
end

/-! ### What holds of all groups of a description -/

/-- Something holds of a description and of all that are nested in it. -/
inductive Description.Everywhere (P : Description → Prop) : Description → Prop
  | intro {d : Description} (here : P d)
      (nested : ∀ a ∈ d.fields, ∀ side, ∀ e ∈ a.2.groups side, Everywhere P e) : Everywhere P d

/-- What is known of a group whose description has been read: its attributes have different names,
all of them allowed, its type name is not empty, and all groups filed per type have type names. -/
structure Description.Parsed (d : Description) : Prop where
  names : (d.fields.map Prod.fst).Nodup
  allowed : ∀ a ∈ d.fields, isAttributeName a.1 = true
  typeName : ∀ n, d.typeName = some n → n ≠ ""
  typed : ∀ a ∈ d.fields, ∀ side, ∀ e ∈ a.2.typed side, e.typeName.isSome = true

/-! ### Readers that succeed -/

namespace Reading

variable {α β : Type}

theorem eq_pure_iff {r : Reading α} {a : α} : r = pure a ↔ r.value = a ∧ r.issues = [] := by
  obtain ⟨b, issues⟩ := r
  exact Iff.of_eq (Reading.mk.injEq b issues a [])

theorem bind_eq_pure_iff {r : Reading α} {f : α → Reading β} {b : β} :
    r >>= f = pure b ↔ ∃ a, r = pure a ∧ f a = pure b := by
  simp only [eq_pure_iff]
  show (f r.value).value = b ∧ r.issues ++ (f r.value).issues = [] ↔ _
  rw [List.append_eq_nil_iff]
  constructor
  · exact fun hb => ⟨r.value, ⟨rfl, hb.2.1⟩, hb.1, hb.2.2⟩
  · rintro ⟨_, ⟨rfl, hissues⟩, hb⟩
    exact ⟨hb.1, hissues, hb.2⟩

theorem pure_inj {a b : α} : (pure a : Reading α) = pure b ↔ a = b := by
  rw [eq_pure_iff]
  exact ⟨fun h => h.1, fun h => ⟨h, rfl⟩⟩

theorem issue_ne_pure {p : Pointer} {v : Violation} {a b : α} : issue p v a ≠ pure b := by
  intro h
  cases (eq_pure_iff.1 h).2

theorem check_eq_pure_iff {p : Pointer} {v : Violation} {holds : Bool} {u : Unit} :
    check p v holds = pure u ↔ holds = true := by
  cases holds with
  | true => exact ⟨fun _ => rfl, fun _ => rfl⟩
  | false => exact ⟨fun h => absurd h issue_ne_pure, fun h => by cases h⟩

end Reading

section Fields

variable {p : Pointer} {key : String} {fields : List (String × Value)} {v : Value}

theorem text_of_readText {s : String} (hread : readText p v = pure s) : v = .text s := by
  unfold readText at hread
  split at hread
  · rw [Reading.pure_inj.1 hread]
  · exact absurd hread Reading.issue_ne_pure

theorem text_of_readNonEmpty {s : String} (hread : readNonEmpty p v = pure s) : v = .text s := by
  unfold readNonEmpty at hread
  split at hread
  · split_ifs at hread
    · exact absurd hread Reading.issue_ne_pure
    · rw [Reading.pure_inj.1 hread]
  · exact absurd hread Reading.issue_ne_pure

theorem ne_of_readNonEmpty {s : String} (hread : readNonEmpty p v = pure s) : s ≠ "" := by
  unfold readNonEmpty at hread
  split at hread
  · split_ifs at hread with hs
    · exact absurd hread Reading.issue_ne_pure
    · rwa [← Reading.pure_inj.1 hread]
  · exact absurd hread Reading.issue_ne_pure

theorem bool_of_readBoolean {b : Bool} (hread : readBoolean p v = pure b) : v = .bool b := by
  unfold readBoolean at hread
  split at hread
  · rw [Reading.pure_inj.1 hread]
  · exact absurd hread Reading.issue_ne_pure

theorem Kind.text_of_ofText? {s : String} {k : Kind} (hs : Kind.ofText? s = some k) :
    s = k.text := by
  unfold Kind.ofText? at hs
  split at hs
  all_goals cases hs
  all_goals rfl

theorem text_of_readKind {k : Kind} (hread : readKind p v = pure k) : v = .text k.text := by
  unfold readKind at hread
  split at hread
  · split at hread
    · rename_i hs
      rw [← Reading.pure_inj.1 hread, Kind.text_of_ofText? hs]
    · exact absurd hread Reading.issue_ne_pure
  · exact absurd hread Reading.issue_ne_pure

theorem fieldOf_of_not_mem (hkey : key ∉ fields.map Prod.fst) : fieldOf key fields = none := by
  rw [← OrderedMap.lookup_isSome_iff, Bool.not_eq_true, Option.isSome_eq_false_iff,
    Option.isNone_iff_eq_none] at hkey
  rw [fieldOf, hkey]
  rfl

/-- A property that may be absent was what is written of what was read. -/
theorem fieldOf_of_readOptional {α : Type} {read : Pointer → Value → Reading α} {write : α → Value}
    {o : Option α} (hwrite : ∀ p v a, read p v = pure a → v = write a)
    (hread : readOptional p key read fields = pure o) : fieldOf key fields = o.map write := by
  unfold readOptional at hread
  split at hread
  · rename_i hnone
    rw [hnone, ← Reading.pure_inj.1 hread]
    rfl
  · rename_i v hv
    obtain ⟨a, ha, hread⟩ := Reading.bind_eq_pure_iff.1 hread
    rw [hv, ← Reading.pure_inj.1 hread, hwrite _ _ _ ha]
    rfl

/-- What is known of everything that is read is known of a property that may be absent. -/
theorem of_readOptional {α : Type} {read : Pointer → Value → Reading α} {P : α → Prop}
    {o : Option α} (hP : ∀ p v a, read p v = pure a → P a)
    (hread : readOptional p key read fields = pure o) : ∀ a, o = some a → P a := by
  unfold readOptional at hread
  intro a ha
  split at hread
  · rw [← Reading.pure_inj.1 hread] at ha
    cases ha
  · obtain ⟨b, hb, hread⟩ := Reading.bind_eq_pure_iff.1 hread
    rw [← Reading.pure_inj.1 hread] at ha
    exact Option.some.inj ha ▸ hP _ _ b hb

theorem mem_of_readClosed {known : List String} {u : Unit}
    (hread : readClosed p known fields = pure u) : ∀ f ∈ fields, f.1 ∈ known := by
  induction fields with
  | nil => exact fun f hf => absurd hf List.not_mem_nil
  | cons f fields ih =>
    obtain ⟨_, hkey, hread⟩ := Reading.bind_eq_pure_iff.1 hread
    refine List.forall_mem_cons.2 ⟨?_, ih hread⟩
    exact List.contains_iff_mem.1 (Reading.check_eq_pure_iff.1 hkey)

theorem isAttributeName_of_readKeys {u : Unit} (hread : readKeys p fields = pure u) :
    ∀ f ∈ fields, isAttributeName f.1 = true := by
  induction fields with
  | nil => exact fun f hf => absurd hf List.not_mem_nil
  | cons f fields ih =>
    obtain ⟨_, hname, hread⟩ := Reading.bind_eq_pure_iff.1 hread
    obtain ⟨_, -, hread⟩ := Reading.bind_eq_pure_iff.1 hread
    exact List.forall_mem_cons.2 ⟨Reading.check_eq_pure_iff.1 hname, ih hread⟩

/-- Properties outside the known ones are absent. -/
theorem fieldOf_of_readClosed {known : List String} {u : Unit}
    (hread : readClosed p known fields = pure u) (hkey : key ∉ known) :
    fieldOf key fields = none := by
  refine fieldOf_of_not_mem fun hmem => ?_
  obtain ⟨f, hf, rfl⟩ := List.mem_map.1 hmem
  exact hkey (mem_of_readClosed hread f hf)

/-- An undefined property is as good as none. -/
theorem lookup_cases (key : String) (fields : List (String × Value)) :
    fields.lookup key = none ∧ fieldOf key fields = none ∨
      fields.lookup key = some .undefined ∧ fieldOf key fields = none ∨
      ∃ v, fields.lookup key = some v ∧ v.isUndefined = false ∧ fieldOf key fields = some v := by
  unfold fieldOf
  cases hv : fields.lookup key with
  | none => exact .inl ⟨rfl, rfl⟩
  | some v =>
    cases hdefined : v.isUndefined with
    | true =>
      cases v with
      | undefined => exact .inr (.inl ⟨rfl, rfl⟩)
      | _ => cases hdefined
    | false => exact .inr (.inr ⟨v, rfl, hdefined, by rw [Option.filter_some, hdefined]; rfl⟩)

theorem mem_of_fieldOf (hv : fieldOf key fields = some v) :
    (∃ f ∈ fields, f.2 = v) ∧ v.isUndefined = false := by
  obtain ⟨hv, hdefined⟩ := Option.filter_eq_some_iff.1 hv
  obtain ⟨before, after, rfl, -⟩ := List.lookup_eq_some_iff.1 hv
  exact ⟨⟨(key, v), List.mem_append_right before List.mem_cons_self, rfl⟩, by simpa using hdefined⟩

theorem readAttributesIn_fieldOf (p : Pointer) (fields : List (String × Value)) :
    readAttributesIn p fields =
      match fieldOf "attributes" fields with
      | none => pure none
      | some v => readAttributes (p.child "attributes") v := by
  rw [readAttributesIn_eq]
  rcases lookup_cases "attributes" fields with ⟨hl, hf⟩ | ⟨hl, hf⟩ | ⟨v, hl, -, hf⟩
  all_goals rw [hl, hf]
  rfl

theorem readGroupIn_fieldOf (p : Pointer) (key : String) (fields : List (String × Value)) :
    readGroupIn p key fields =
      match fieldOf key fields with
      | none => pure none
      | some v => do return some (← readGroup (p.child key) v) := by
  rw [readGroupIn_eq]
  rcases lookup_cases key fields with ⟨hl, hf⟩ | ⟨hl, hf⟩ | ⟨v, hl, hv, hf⟩
  · rw [hl, hf]
  · rw [hl, hf]
    rfl
  · rw [hl, hf]
    dsimp only
    rw [hv, if_neg Bool.false_ne_true]

theorem readTypedIn_fieldOf (p : Pointer) (key : String) (fields : List (String × Value)) :
    readTypedIn p key fields =
      match fieldOf key fields with
      | none => pure none
      | some v => readTyped (p.child key) v := by
  rw [readTypedIn_eq]
  rcases lookup_cases key fields with ⟨hl, hf⟩ | ⟨hl, hf⟩ | ⟨v, hl, -, hf⟩
  all_goals rw [hl, hf]
  rfl

end Fields

/-! ### Groups and items that were read -/

/-- Every property that is written is present. -/
theorem fieldOf_written {l : List (String × Option Value)} (hkeys : (l.map Prod.fst).Nodup)
    (hdefined : ∀ e ∈ l, ∀ v, e.2 = some v → v.isUndefined = false) (key : String) :
    fieldOf key (Value.properties l) = (l.lookup key).join := by
  rw [fieldOf_properties hkeys]
  cases hv : (l.lookup key).join with
  | none => rfl
  | some v =>
    obtain ⟨before, after, rfl, -⟩ := List.lookup_eq_some_iff.1 (Option.join_eq_some_iff.1 hv)
    have hv := hdefined _ (List.mem_append_right before List.mem_cons_self) v rfl
    rw [Option.filter_some, if_pos (by rw [hv]; rfl)]

theorem Description.isUndefined_toValue (d : Description) : d.toValue.isUndefined = false := by
  rw [d.toValue_eq]
  rfl

theorem Description.fieldOf_propertyList (d : Description) (key : String) :
    fieldOf key (Value.properties d.propertyList) = (d.propertyList.lookup key).join := by
  refine fieldOf_written d.nodup_propertyList (fun e he v hv => ?_) key
  simp only [propertyList, List.mem_cons, List.not_mem_nil, or_false] at he
  rcases he with rfl | rfl | rfl | rfl | rfl | rfl
  · cases hv
    rfl
  all_goals
    obtain ⟨_, -, rfl⟩ := Option.map_eq_some_iff.1 hv
    rfl

theorem NestedDescription.fieldOf_propertyList (item : NestedDescription) (key : String) :
    fieldOf key (Value.properties item.propertyList) = (item.propertyList.lookup key).join := by
  refine fieldOf_written item.nodup_propertyList (fun e he v hv => ?_) key
  simp only [propertyList, List.mem_cons, List.not_mem_nil, or_false] at he
  rcases he with rfl | rfl | rfl | rfl
  all_goals obtain ⟨d, -, rfl⟩ := Option.map_eq_some_iff.1 hv
  · exact d.isUndefined_toValue
  · rfl
  · exact d.isUndefined_toValue
  · rfl

theorem NestedDescription.mem_itemKeys (item : NestedDescription) :
    ∀ k ∈ item.propertyList.map Prod.fst, k ∈ itemKeys := by
  show ∀ k ∈ ["group", "typeGroups", "keyGroup", "keyTypeGroups"], k ∈ itemKeys
  decide

/-- A group that was read is an object with the properties of the description, the attributes left
aside. -/
theorem exists_object_of_readGroup {p : Pointer} {v : Value} {d : Description}
    (hread : readGroup p v = pure d) : ∃ fields, v = .object fields ∧
      (∀ key, key ≠ "attributes" →
        fieldOf key fields = fieldOf key (Value.properties d.propertyList)) ∧
      (∀ n, d.typeName = some n → n ≠ "") ∧ readAttributesIn p fields = pure d.attributes := by
  unfold readGroup at hread
  split at hread
  case h_2 => exact absurd hread Reading.issue_ne_pure
  rename_i fields
  obtain ⟨_, hpresent, hread⟩ := Reading.bind_eq_pure_iff.1 hread
  obtain ⟨_, hclosed, hread⟩ := Reading.bind_eq_pure_iff.1 hread
  obtain ⟨name, hname, hread⟩ := Reading.bind_eq_pure_iff.1 hread
  obtain ⟨typeName, htypeName, hread⟩ := Reading.bind_eq_pure_iff.1 hread
  obtain ⟨superTypeName, hsuper, hread⟩ := Reading.bind_eq_pure_iff.1 hread
  obtain ⟨validated, hvalidated, hread⟩ := Reading.bind_eq_pure_iff.1 hread
  obtain ⟨kind, hkind, hread⟩ := Reading.bind_eq_pure_iff.1 hread
  obtain ⟨attributes, hattributes, hread⟩ := Reading.bind_eq_pure_iff.1 hread
  obtain rfl := Reading.pure_inj.1 hread
  refine ⟨fields, rfl, fun key hkey => ?_,
    of_readOptional (fun _ _ _ => ne_of_readNonEmpty) htypeName, hattributes⟩
  have hname := fieldOf_of_readOptional (fun _ _ _ => text_of_readText) hname
  have htypeName := fieldOf_of_readOptional (fun _ _ _ => text_of_readNonEmpty) htypeName
  have hsuper := fieldOf_of_readOptional (fun _ _ _ => text_of_readNonEmpty) hsuper
  have hvalidated := fieldOf_of_readOptional (fun _ _ _ => bool_of_readBoolean) hvalidated
  have hkind := fieldOf_of_readOptional (fun _ _ _ => text_of_readKind) hkind
  by_cases hknown : key ∈ groupKeys
  · rw [Description.fieldOf_propertyList]
    simp only [groupKeys, List.mem_cons, List.not_mem_nil, or_false] at hknown
    rcases hknown with rfl | rfl | rfl | rfl | rfl | rfl
    · -- the name is there, so nothing is put in its place
      cases name with
      | none =>
        rw [hname] at hpresent
        cases Reading.check_eq_pure_iff.1 hpresent
      | some name => exact hname
    · exact htypeName
    · exact hsuper
    · exact hvalidated
    · exact hkind
    · exact absurd rfl hkey
  · rw [fieldOf_of_readClosed hclosed hknown,
      fieldOf_of_not_mem fun hmem => hknown ((Value.keys_properties _).subset hmem)]

/-- An item that was read is an object of known properties. -/
theorem exists_object_of_readItem {p : Pointer} {v : Value} {item : NestedDescription}
    (hread : readItem p v = pure item) : ∃ fields, v = .object fields ∧
      (∀ key ∉ itemKeys, fieldOf key fields = none) ∧
      readGroupIn p "group" fields = pure item.group ∧
      readGroupIn p "keyGroup" fields = pure item.keyGroup ∧
      readTypedIn p "typeGroups" fields = pure item.typeGroups ∧
      readTypedIn p "keyTypeGroups" fields = pure item.keyTypeGroups := by
  unfold readItem at hread
  split at hread
  case h_2 => exact absurd hread Reading.issue_ne_pure
  rename_i fields
  obtain ⟨_, hclosed, hread⟩ := Reading.bind_eq_pure_iff.1 hread
  obtain ⟨group, hgroup, hread⟩ := Reading.bind_eq_pure_iff.1 hread
  obtain ⟨keyGroup, hkeyGroup, hread⟩ := Reading.bind_eq_pure_iff.1 hread
  obtain ⟨typeGroups, htypeGroups, hread⟩ := Reading.bind_eq_pure_iff.1 hread
  obtain ⟨keyTypeGroups, hkeyTypeGroups, hread⟩ := Reading.bind_eq_pure_iff.1 hread
  obtain rfl := Reading.pure_inj.1 hread
  exact ⟨fields, rfl, fun key hkey => fieldOf_of_readClosed hclosed hkey, hgroup, hkeyGroup,
    htypeGroups, hkeyTypeGroups⟩

/-- A group filed per type has been read together with its type name. -/
theorem isSome_of_readOwnTypeName {p q : Pointer} {v : Value} {d : Description} {u : Unit}
    (hread : readGroup p v = pure d) (hown : readOwnTypeName q v = pure u) :
    d.typeName.isSome = true := by
  obtain ⟨fields, rfl, hsurface, -, -⟩ := exists_object_of_readGroup hread
  have htypeName := hsurface "typeName" (by decide)
  rw [Description.fieldOf_propertyList] at htypeName
  unfold readOwnTypeName at hown
  cases hd : d.typeName with
  | some n => rfl
  | none =>
    have hnone : fieldOf "typeName" fields = none := by
      rw [htypeName, Description.propertyList, hd]
      rfl
    dsimp only at hown
    rw [hnone] at hown
    exact absurd hown Reading.issue_ne_pure

/-- What is known of an item that has been read. -/
structure NestedDescription.Parsed (item : NestedDescription) : Prop where
  typed : ∀ side, ∀ d ∈ item.typed side, d.typeName.isSome = true
  nested : ∀ side, ∀ d ∈ item.groups side, d.Everywhere Description.Parsed

/-- Whatever a value is read as, it is the same as what was read, and this is known of it. -/
structure Understood (v : Value) : Prop where
  group : ∀ p d, readGroup p v = pure d → SameGroup v d.toValue ∧ d.Everywhere Description.Parsed
  typed : ∀ p ds, readTyped p v = pure (some ds) →
    (∃ vs, v = .array vs ∧ List.Forall₂ SameGroup vs (groupValues ds)) ∧
      ∀ d ∈ ds, d.typeName.isSome = true ∧ d.Everywhere Description.Parsed
  item : ∀ p item, readItem p v = pure item → SameItem v item.toValue ∧ item.Parsed
  attributes : ∀ p as, readAttributes p v = pure (some as) →
    SameAttributes (some v) (some (.record (attributeFields as))) ∧
      (as.map Prod.fst).Nodup ∧ ∀ a ∈ as, isAttributeName a.1 = true ∧ a.2.Parsed

section Understood

variable {p : Pointer} {key : String} {fields : List (String × Value)}

theorem readTyped_eq_none {v : Value} (hread : readTyped p v = pure none) :
    v.isUndefined = true := by
  unfold readTyped at hread
  split at hread
  · obtain ⟨ds, -, hds⟩ := Reading.bind_eq_pure_iff.1 hread
    cases Reading.pure_inj.1 hds
  · rfl
  · exact absurd hread Reading.issue_ne_pure

theorem readAttributes_eq_none {v : Value} (hread : readAttributes p v = pure none) :
    v.isUndefined = true := by
  unfold readAttributes at hread
  split at hread
  · obtain ⟨_, -, hread⟩ := Reading.bind_eq_pure_iff.1 hread
    obtain ⟨as, -, has⟩ := Reading.bind_eq_pure_iff.1 hread
    cases Reading.pure_inj.1 has
  · rfl
  · exact absurd hread Reading.issue_ne_pure

variable (hall : ∀ f ∈ fields, Understood f.2)

include hall

theorem sameNested_of_readGroupIn {o : Option Description}
    (hread : readGroupIn p key fields = pure o) :
    SameNested (fieldOf key fields) (o.map Description.toValue) ∧
      ∀ d ∈ o, d.Everywhere Description.Parsed := by
  rw [readGroupIn_fieldOf] at hread
  cases hv : fieldOf key fields with
  | none =>
    rw [hv] at hread
    obtain rfl := Reading.pure_inj.1 hread
    exact ⟨.absent, fun d hd => by cases hd⟩
  | some v =>
    rw [hv] at hread
    obtain ⟨d, hd, hread⟩ := Reading.bind_eq_pure_iff.1 hread
    obtain rfl := Reading.pure_inj.1 hread
    obtain ⟨⟨f, hf, rfl⟩, -⟩ := mem_of_fieldOf hv
    obtain ⟨hsame, hparsed⟩ := (hall f hf).group _ d hd
    refine ⟨.group hsame, fun e he => ?_⟩
    cases he
    exact hparsed

theorem sameNested_of_readTypedIn {o : Option (List Description)}
    (hread : readTypedIn p key fields = pure o) :
    SameNested (fieldOf key fields) (o.map fun ds => .array (groupValues ds)) ∧
      ∀ d ∈ o.getD [], d.typeName.isSome = true ∧ d.Everywhere Description.Parsed := by
  rw [readTypedIn_fieldOf] at hread
  cases hv : fieldOf key fields with
  | none =>
    rw [hv] at hread
    obtain rfl := Reading.pure_inj.1 hread
    exact ⟨.absent, fun d hd => absurd hd List.not_mem_nil⟩
  | some v =>
    rw [hv] at hread
    obtain ⟨⟨f, hf, rfl⟩, hdefined⟩ := mem_of_fieldOf hv
    cases o with
    | none => exact absurd (readTyped_eq_none hread) (by rw [hdefined]; exact Bool.false_ne_true)
    | some ds =>
      obtain ⟨⟨vs, hvs, hsame⟩, hds⟩ := (hall f hf).typed _ ds hread
      rw [hvs]
      exact ⟨.typed hsame, hds⟩

theorem sameAttributes_of_readAttributesIn {o : Option (List (String × NestedDescription))}
    (hread : readAttributesIn p fields = pure o) :
    SameAttributes (fieldOf "attributes" fields)
        (o.map fun as => .record (attributeFields as)) ∧
      ((o.getD []).map Prod.fst).Nodup ∧
      ∀ a ∈ o.getD [], isAttributeName a.1 = true ∧ a.2.Parsed := by
  rw [readAttributesIn_fieldOf] at hread
  cases hv : fieldOf "attributes" fields with
  | none =>
    rw [hv] at hread
    obtain rfl := Reading.pure_inj.1 hread
    exact ⟨.absent, List.nodup_nil, fun a ha => absurd ha List.not_mem_nil⟩
  | some v =>
    rw [hv] at hread
    obtain ⟨⟨f, hf, rfl⟩, hdefined⟩ := mem_of_fieldOf hv
    cases o with
    | none =>
      exact absurd (readAttributes_eq_none hread) (by rw [hdefined]; exact Bool.false_ne_true)
    | some as => exact (hall f hf).attributes _ as hread

/-- An object that is read as a group. -/
theorem understood_group (d : Description) (hread : readGroup p (.object fields) = pure d) :
    SameGroup (.object fields) d.toValue ∧ d.Everywhere Description.Parsed := by
  obtain ⟨_, heq, hsurface, htypeName, hattributes⟩ := exists_object_of_readGroup hread
  cases heq
  obtain ⟨hsame, hnames, hitems⟩ := sameAttributes_of_readAttributesIn hall hattributes
  constructor
  · rw [d.toValue_eq]
    refine .intro hsurface ?_
    rw [d.fieldOf_propertyList]
    exact hsame
  · exact .intro ⟨hnames, fun a ha => (hitems a ha).1, htypeName, fun a ha => (hitems a ha).2.typed⟩
      fun a ha => (hitems a ha).2.nested

/-- An object that is read as an item. -/
theorem understood_item (item : NestedDescription)
    (hread : readItem p (.object fields) = pure item) :
    SameItem (.object fields) item.toValue ∧ item.Parsed := by
  obtain ⟨_, heq, hothers, hgroup, hkeyGroup, htyped, hkeyTyped⟩ := exists_object_of_readItem hread
  cases heq
  obtain ⟨hsameGroup, hgroup⟩ := sameNested_of_readGroupIn hall hgroup
  obtain ⟨hsameKeyGroup, hkeyGroup⟩ := sameNested_of_readGroupIn hall hkeyGroup
  obtain ⟨hsameTyped, htyped⟩ := sameNested_of_readTypedIn hall htyped
  obtain ⟨hsameKeyTyped, hkeyTyped⟩ := sameNested_of_readTypedIn hall hkeyTyped
  refine ⟨?_, fun side => ?_, fun side d hd => ?_⟩
  · rw [item.toValue_eq]
    refine .intro fun key => ?_
    by_cases hknown : key ∈ itemKeys
    · rw [item.fieldOf_propertyList]
      simp only [itemKeys, List.mem_cons, List.not_mem_nil, or_false] at hknown
      rcases hknown with rfl | rfl | rfl | rfl
      · exact hsameGroup
      · exact hsameKeyGroup
      · exact hsameTyped
      · exact hsameKeyTyped
    · have hnone : fieldOf key (Value.properties item.propertyList) = none :=
        fieldOf_of_not_mem fun hmem =>
          hknown (item.mem_itemKeys key ((Value.keys_properties _).subset hmem))
      rw [hothers key hknown, hnone]
      exact .absent
  · cases side with
    | value => exact fun d hd => (htyped d hd).1
    | key => exact fun d hd => (hkeyTyped d hd).1
  · cases side with
    | value =>
      rcases List.mem_append.1 hd with hd | hd
      · exact (htyped d hd).2
      · exact hgroup d (Option.mem_toList.1 hd)
    | key =>
      rcases List.mem_append.1 hd with hd | hd
      · exact (hkeyTyped d hd).2
      · exact hkeyGroup d (Option.mem_toList.1 hd)

/-- Items that are read one by one. -/
theorem understood_items {as : List (String × NestedDescription)}
    (hread : readItems p fields = pure as) :
    fields.map Prod.fst = as.map Prod.fst ∧
      List.Forall₂ SameItem (fields.map Prod.snd) (as.map fun a => a.2.toValue) ∧
      ∀ a ∈ as, a.2.Parsed := by
  induction fields generalizing as with
  | nil =>
    obtain rfl := Reading.pure_inj.1 hread
    exact ⟨rfl, .nil, fun a ha => absurd ha List.not_mem_nil⟩
  | cons f fields ih =>
    obtain ⟨key, v⟩ := f
    rw [List.forall_mem_cons] at hall
    unfold readItems at hread
    obtain ⟨item, hitem, hread⟩ := Reading.bind_eq_pure_iff.1 hread
    obtain ⟨items, hitems, hread⟩ := Reading.bind_eq_pure_iff.1 hread
    obtain rfl := Reading.pure_inj.1 hread
    obtain ⟨hsame, hparsed⟩ := hall.1.item _ item hitem
    obtain ⟨hnames, hmore, hrest⟩ := ih hall.2 hitems
    refine ⟨?_, .cons hsame hmore, List.forall_mem_cons.2 ⟨hparsed, hrest⟩⟩
    rw [List.map_cons, List.map_cons, hnames]

/-- An object that is read as the attributes of a group. -/
theorem understood_attributes (horder : Value.record fields = .object fields)
    (as : List (String × NestedDescription))
    (hread : readAttributes p (.object fields) = pure (some as)) :
    SameAttributes (some (.object fields)) (some (.record (attributeFields as))) ∧
      (as.map Prod.fst).Nodup ∧ ∀ a ∈ as, isAttributeName a.1 = true ∧ a.2.Parsed := by
  unfold readAttributes at hread
  obtain ⟨_, hallowed, hread⟩ := Reading.bind_eq_pure_iff.1 hread
  obtain ⟨items, hitems, hread⟩ := Reading.bind_eq_pure_iff.1 hread
  obtain rfl := Option.some.inj (Reading.pure_inj.1 hread)
  obtain ⟨hnames, hsame, hparsed⟩ := understood_items hall hitems
  have hkeys := Value.record_eq_object_iff.1 horder
  have hwritten : (attributeFields items).map Prod.fst = items.map Prod.fst := by
    rw [attributeFields_eq, List.map_map]
    rfl
  -- the names decide the order, so what is written has it too
  have hrecord : Value.record (attributeFields items) = .object (attributeFields items) := by
    rw [Value.record_eq_object_iff, hwritten, ← hnames]
    exact hkeys
  have hallowed : ∀ a ∈ items, isAttributeName a.1 = true := by
    intro a ha
    have hname : a.1 ∈ fields.map Prod.fst := hnames ▸ List.mem_map_of_mem ha
    obtain ⟨f, hf, hfa⟩ := List.mem_map.1 hname
    exact hfa ▸ isAttributeName_of_readKeys hallowed f hf
  refine ⟨?_, hnames ▸ hkeys.1, fun a ha => ⟨hallowed a ha, hparsed a ha⟩⟩
  rw [hrecord]
  refine .present (hnames.trans hwritten.symm) ?_
  rw [attributeFields_eq, List.map_map]
  exact hsame

end Understood

/-- Groups filed per type that are read one by one. -/
theorem understood_elements {p : Pointer} {n : Nat} {vs : List Value} {ds : List Description}
    (hall : ∀ v ∈ vs, Understood v) (hread : readElements p n vs = pure ds) :
    List.Forall₂ SameGroup vs (groupValues ds) ∧
      ∀ d ∈ ds, d.typeName.isSome = true ∧ d.Everywhere Description.Parsed := by
  induction vs generalizing n ds with
  | nil =>
    obtain rfl := Reading.pure_inj.1 hread
    exact ⟨.nil, fun d hd => absurd hd List.not_mem_nil⟩
  | cons v vs ih =>
    rw [List.forall_mem_cons] at hall
    unfold readElements at hread
    obtain ⟨d, hd, hread⟩ := Reading.bind_eq_pure_iff.1 hread
    obtain ⟨_, hown, hread⟩ := Reading.bind_eq_pure_iff.1 hread
    obtain ⟨rest, hrest, hread⟩ := Reading.bind_eq_pure_iff.1 hread
    obtain rfl := Reading.pure_inj.1 hread
    obtain ⟨hsame, hparsed⟩ := hall.1.group _ d hd
    obtain ⟨hmore, hothers⟩ := ih hall.2 hrest
    exact ⟨.cons hsame hmore,
      List.forall_mem_cons.2 ⟨⟨isSome_of_readOwnTypeName hd hown, hparsed⟩, hothers⟩⟩

/-- **What is read of regular data is the same as the data.** -/
theorem Value.Regular.understood {v : Value} (hv : v.Regular) : Understood v := by
  induction hv with
  | @array elements _ ih =>
    refine ⟨fun p d hread => ?_, fun p ds hread => ?_, fun p item hread => ?_, fun p as hread => ?_⟩
    · exact absurd hread Reading.issue_ne_pure
    · obtain ⟨_, hds, hread⟩ := Reading.bind_eq_pure_iff.1 hread
      obtain rfl := Option.some.inj (Reading.pure_inj.1 hread)
      obtain ⟨hsame, hall⟩ := understood_elements ih hds
      exact ⟨⟨elements, rfl, hsame⟩, hall⟩
    · exact absurd hread Reading.issue_ne_pure
    · exact absurd hread Reading.issue_ne_pure
  | object horder _ ih =>
    refine ⟨fun p => understood_group ih, fun p ds hread => ?_, fun p => understood_item ih,
      fun p => understood_attributes ih horder⟩
    exact absurd hread Reading.issue_ne_pure
  | undefined =>
    refine ⟨fun p d hread => ?_, fun p ds hread => ?_, fun p item hread => ?_, fun p as hread => ?_⟩
    · exact absurd hread Reading.issue_ne_pure
    · cases Reading.pure_inj.1 hread
    · exact absurd hread Reading.issue_ne_pure
    · cases Reading.pure_inj.1 hread
  | _ =>
    refine ⟨fun p d hread => ?_, fun p ds hread => ?_, fun p item hread => ?_, fun p as hread => ?_⟩
    all_goals exact absurd hread Reading.issue_ne_pure

namespace Description

variable {input v : Value} {d : Description}

theorem readGroup_of_read (hread : read input = .ok (v, d)) :
    inputValue input = .ok v ∧ readGroup .root v = pure d := by
  simp only [read, bind, Except.bind] at hread
  split at hread
  · cases hread
  · rename_i w hw
    split at hread
    · rename_i hissues
      cases hread
      exact ⟨hw, Reading.eq_pure_iff.2 ⟨rfl, hissues⟩⟩
    · cases hread

/-- **An accepted value is the same as the description that it is read as.** -/
theorem sameGroup_of_read (hinput : input.Regular) (hread : read input = .ok (v, d)) :
    SameGroup v d.toValue ∧ d.Everywhere Parsed := by
  obtain ⟨hvalue, hgroup⟩ := readGroup_of_read hread
  exact (regular_of_inputValue hinput hvalue).understood.group _ d hgroup

end Description

end AttributeGraph
