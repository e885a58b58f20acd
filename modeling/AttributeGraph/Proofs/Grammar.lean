/-
The grammar of descriptions.

A description is a group: an object with the properties that a group can have, each
of its kind, whose attributes are objects that nest groups in turn.  `IsGroup` and
the predicates beside it say this without places, issues and order.  A property
that is undefined counts as absent.

The reader goes through a value once and reports an issue for whatever is wrong, so
it reports none exactly if the value is of the grammar (`Value.judged`, by
induction on the value).  Hence a value is accepted exactly if it is a group, and
any other value is an error with an issue (`Description.parse_iff_isGroup`).
-/
import AttributeGraph.Proofs.Parsing

namespace AttributeGraph

/-! ### What a description is made of -/

/-- A text that is not empty. -/
def Value.IsNonEmptyText (v : Value) : Prop := ∃ s, s ≠ "" ∧ v = .text s

/-- The text of one of the four kinds. -/
def Value.IsKind (v : Value) : Prop := ∃ s ∈ ["generic", "fetch", "load", "copy"], v = .text s

/-- A group that has a type name, as those that are filed per type do. -/
def Value.HasTypeName (v : Value) : Prop :=
  ∃ fields, v = .object fields ∧ ∃ t, fieldOf "typeName" fields = some t ∧ t.IsNonEmptyText

mutual
/-- A group: an object with a name and nothing but the properties of groups. -/
inductive Value.IsGroup : Value → Prop
  | intro {fields : List (String × Value)} (hclosed : ∀ f ∈ fields, f.1 ∈ groupKeys)
      (hname : ∃ s, fieldOf "name" fields = some (.text s))
      (htypeName : ∀ v, fieldOf "typeName" fields = some v → v.IsNonEmptyText)
      (hsuper : ∀ v, fieldOf "superTypeName" fields = some v → v.IsNonEmptyText)
      (hvalidated : ∀ v, fieldOf "validated" fields = some v → ∃ b, v = .bool b)
      (hkind : ∀ v, fieldOf "kind" fields = some v → v.IsKind)
      (hattributes : ∀ v, fieldOf "attributes" fields = some v → IsAttributes v) :
      IsGroup (.object fields)
/-- The attributes of a group: an object with an item for each name. -/
inductive Value.IsAttributes : Value → Prop
  | intro {fields : List (String × Value)} (hnames : ∀ f ∈ fields, IsSegment f.1)
      (hitems : ∀ f ∈ fields, IsItem f.2) : IsAttributes (.object fields)
/-- An item: an object with groups in some of its four properties, and nothing else. -/
inductive Value.IsItem : Value → Prop
  | intro {fields : List (String × Value)} (hclosed : ∀ f ∈ fields, f.1 ∈ itemKeys)
      (hgroup : ∀ v, fieldOf "group" fields = some v → IsGroup v)
      (hkeyGroup : ∀ v, fieldOf "keyGroup" fields = some v → IsGroup v)
      (htypeGroups : ∀ v, fieldOf "typeGroups" fields = some v → IsGroups v)
      (hkeyTypeGroups : ∀ v, fieldOf "keyTypeGroups" fields = some v → IsGroups v) :
      IsItem (.object fields)
/-- Groups filed per type. -/
inductive Value.IsGroups : Value → Prop
  | intro {elements : List Value} (hgroups : ∀ v ∈ elements, IsGroup v)
      (hnamed : ∀ v ∈ elements, v.HasTypeName) : IsGroups (.array elements)
end

/-! ### Names of attributes -/

theorem Text.dropWhile_isBlank {cs : List Char}
    (hfirst : ∀ c, cs.head? = some c → isBlank c = false) : cs.dropWhile isBlank = cs := by
  cases cs with
  | nil => rfl
  | cons c rest => rw [List.dropWhile_cons, hfirst c rfl, if_neg Bool.false_ne_true]

/-- A text that neither starts nor ends with a blank is trimmed. -/
theorem Text.trim_of_ends {cs : List Char} (hfirst : ∀ c, cs.head? = some c → isBlank c = false)
    (hlast : ∀ c, cs.getLast? = some c → isBlank c = false) : trim cs = cs := by
  rw [trim, dropWhile_isBlank hfirst, dropWhile_isBlank, List.reverse_reverse]
  intro c hc
  rw [List.head?_reverse] at hc
  exact hlast c hc

/-- Attributes have the names that can be segments of a path. -/
theorem isAttributeName_iff {n : String} : isAttributeName n = true ↔ IsSegment n := by
  refine ⟨fun hname => ?_, isAttributeName_of_isSegment⟩
  unfold isAttributeName at hname
  unfold IsSegment
  cases hcs : n.toList with
  | nil => simp [hcs] at hname
  | cons c rest =>
    simp only [hcs, Bool.and_eq_true, decide_eq_true_eq, Bool.not_eq_true'] at hname
    obtain ⟨⟨hdot, hblank⟩, hrest⟩ := hname
    -- the last character is not a blank, and no dot stands anywhere
    have hends : '.' ∉ rest ∧ ∀ d, rest.getLast? = some d → Text.isBlank d = false := by
      cases hback : rest.getLast? with
      | none => simp [List.getLast?_eq_none_iff.1 hback]
      | some last =>
        simp only [hback, Bool.and_eq_true, List.all_eq_true, decide_eq_true_eq,
          Bool.not_eq_true'] at hrest
        obtain ⟨hmiddle, hlast, hlastBlank⟩ := hrest
        refine ⟨fun hmem => ?_, fun d hd => Option.some.inj hd ▸ hlastBlank⟩
        rw [← List.dropLast_append_getLast? last hback, List.mem_append,
          List.mem_singleton] at hmem
        rcases hmem with hmem | hmem
        · exact hmiddle _ hmem rfl
        · exact hlast hmem.symm
    refine ⟨List.cons_ne_nil c rest, ?_, Text.trim_of_ends ?_ ?_⟩
    · exact List.not_mem_cons_of_ne_of_not_mem (Ne.symm hdot) hends.1
    · intro d hd
      exact Option.some.inj hd ▸ hblank
    · intro d hd
      rw [List.getLast?_cons] at hd
      cases hback : rest.getLast? with
      | none =>
        rw [hback] at hd
        exact Option.some.inj hd ▸ hblank
      | some last =>
        rw [hback] at hd
        exact hends.2 d (hback.trans hd)

/-! ### Readers that report nothing -/

namespace Reading

variable {α β : Type}

@[simp] theorem issues_pure (a : α) : (pure a : Reading α).issues = [] := rfl

@[simp] theorem issues_bind (r : Reading α) (f : α → Reading β) :
    (r >>= f).issues = r.issues ++ (f r.value).issues := rfl

@[simp] theorem issues_issue (p : Pointer) (v : Violation) (a : α) :
    (issue p v a).issues = [⟨p, v⟩] := rfl

@[simp] theorem issues_check_iff {p : Pointer} {v : Violation} {holds : Bool} :
    (check p v holds).issues = [] ↔ holds = true := by
  cases holds <;> simp [check]

end Reading

section Clean

variable {p : Pointer} {key : String} {fields : List (String × Value)} {v : Value}

theorem readClosed_clean {known : List String} :
    (readClosed p known fields).issues = [] ↔ ∀ f ∈ fields, f.1 ∈ known := by
  induction fields with
  | nil => simp [readClosed]
  | cons f fields ih =>
    rw [readClosed, Reading.issues_bind, List.append_eq_nil_iff, Reading.issues_check_iff, ih,
      List.contains_iff_mem, List.forall_mem_cons]

theorem readKeys_clean : (readKeys p fields).issues = [] ↔ ∀ f ∈ fields, IsSegment f.1 := by
  induction fields with
  | nil => simp [readKeys]
  | cons f fields ih =>
    simp only [readKeys, Reading.issues_bind, List.append_eq_nil_iff, Reading.issues_check_iff, ih,
      isAttributeName_iff, List.forall_mem_cons, and_self_left]

/-- A property reports nothing exactly if it is absent or its value is as it has to be. -/
theorem property_clean {α : Type} {read : Value → Reading (Option α)} {P : Value → Prop}
    (hread : ∀ f ∈ fields, f.2 ≠ .undefined → ((read f.2).issues = [] ↔ P f.2)) :
    ((match fieldOf key fields with
      | none => pure none
      | some v => read v : Reading (Option α))).issues = [] ↔
        ∀ v, fieldOf key fields = some v → P v := by
  cases hv : fieldOf key fields with
  | none => simp
  | some v =>
    obtain ⟨⟨f, hf, rfl⟩, hdefined⟩ := mem_of_fieldOf hv
    have hne : f.2 ≠ .undefined := fun heq => by simp [heq, Value.isUndefined] at hdefined
    simp [hread f hf hne]

theorem readOptional_clean {α : Type} {read : Pointer → Value → Reading α} {P : Value → Prop}
    (hread : ∀ p v, (read p v).issues = [] ↔ P v) :
    (readOptional p key read fields).issues = [] ↔ ∀ v, fieldOf key fields = some v → P v := by
  unfold readOptional
  exact property_clean fun f _ _ => by simp [hread]

theorem readText_clean (p : Pointer) (v : Value) :
    (readText p v).issues = [] ↔ ∃ s, v = .text s := by
  cases v <;> simp [readText]

theorem readNonEmpty_clean (p : Pointer) (v : Value) :
    (readNonEmpty p v).issues = [] ↔ v.IsNonEmptyText := by
  unfold Value.IsNonEmptyText
  cases v with
  | text s => by_cases hs : s = "" <;> simp [readNonEmpty, hs]
  | _ => simp [readNonEmpty]

theorem readBoolean_clean (p : Pointer) (v : Value) :
    (readBoolean p v).issues = [] ↔ ∃ b, v = .bool b := by
  cases v <;> simp [readBoolean]

theorem Kind.ofText?_eq_none_iff {s : String} :
    Kind.ofText? s = none ↔ s ∉ ["generic", "fetch", "load", "copy"] := by
  unfold Kind.ofText?
  split <;> simp_all

theorem readKind_clean (p : Pointer) (v : Value) : (readKind p v).issues = [] ↔ v.IsKind := by
  unfold Value.IsKind
  cases v with
  | text s =>
    cases hk : Kind.ofText? s with
    | none =>
      have hno := Kind.ofText?_eq_none_iff.1 hk
      simpa [readKind, hk] using hno
    | some k =>
      obtain rfl := Kind.text_of_ofText? hk
      simp [readKind, hk]
      cases k <;> simp [Kind.text]
  | _ => simp [readKind]

theorem readOwnTypeName_clean (p : Pointer) (v : Value) :
    (readOwnTypeName p v).issues = [] ↔ v.HasTypeName := by
  unfold Value.HasTypeName
  cases v with
  | object fields =>
    cases ht : fieldOf "typeName" fields with
    | none => simp [readOwnTypeName, ht]
    | some t => simp [readOwnTypeName, ht, readNonEmpty_clean]
  | _ => simp [readOwnTypeName]

end Clean

/-! ### The reader and the grammar -/

/-- The reader of each part of a description reports nothing exactly if a value is such a part. -/
structure Value.Judged (v : Value) : Prop where
  group : ∀ p, (readGroup p v).issues = [] ↔ v.IsGroup
  attributes : ∀ p, (readAttributes p v).issues = [] ↔ v = .undefined ∨ v.IsAttributes
  item : ∀ p, (readItem p v).issues = [] ↔ v.IsItem
  groups : ∀ p, (readTyped p v).issues = [] ↔ v = .undefined ∨ v.IsGroups

section Object

variable {p : Pointer} {key : String} {fields : List (String × Value)}
  (hall : ∀ f ∈ fields, f.2.Judged)

include hall

theorem readAttributesIn_clean : (readAttributesIn p fields).issues = [] ↔
    ∀ v, fieldOf "attributes" fields = some v → v.IsAttributes := by
  rw [readAttributesIn_fieldOf]
  exact property_clean fun f hf hne => by simp [(hall f hf).attributes, hne]

theorem readGroupIn_clean : (readGroupIn p key fields).issues = [] ↔
    ∀ v, fieldOf key fields = some v → v.IsGroup := by
  rw [readGroupIn_fieldOf]
  exact property_clean fun f hf _ => by simp [(hall f hf).group]

theorem readTypedIn_clean : (readTypedIn p key fields).issues = [] ↔
    ∀ v, fieldOf key fields = some v → v.IsGroups := by
  rw [readTypedIn_fieldOf]
  exact property_clean fun f hf hne => by simp [(hall f hf).groups, hne]

theorem readItems_clean :
    (readItems p fields).issues = [] ↔ ∀ f ∈ fields, f.2.IsItem := by
  induction fields with
  | nil => simp [readItems]
  | cons f fields ih =>
    rw [List.forall_mem_cons] at hall
    simp [readItems, hall.1.item, ih hall.2]

theorem judged_object : (Value.object fields).Judged where
  group p := by
    simp only [readGroup, Reading.issues_bind, Reading.issues_pure, List.append_nil,
      List.append_eq_nil_iff, Reading.issues_check_iff, readClosed_clean,
      readOptional_clean readText_clean, readOptional_clean readNonEmpty_clean,
      readOptional_clean readBoolean_clean, readOptional_clean readKind_clean,
      readAttributesIn_clean hall]
    constructor
    · intro hclean
      obtain ⟨hname, hclosed, htext, htypeName, hsuper, hvalidated, hkind, hattributes⟩ := hclean
      obtain ⟨v, hv⟩ := Option.isSome_iff_exists.1 hname
      obtain ⟨s, rfl⟩ := htext v hv
      exact .intro hclosed ⟨s, hv⟩ htypeName hsuper hvalidated hkind hattributes
    · intro hgroup
      obtain ⟨hclosed, ⟨s, hs⟩, htypeName, hsuper, hvalidated, hkind, hattributes⟩ := hgroup
      refine ⟨by rw [hs]; rfl, hclosed, fun v hv => ⟨s, ?_⟩, htypeName, hsuper, hvalidated, hkind,
        hattributes⟩
      exact Option.some.inj (hv.symm.trans hs)
  attributes p := by
    simp only [readAttributes, Reading.issues_bind, Reading.issues_pure, List.append_nil,
      List.append_eq_nil_iff, readKeys_clean, readItems_clean hall, reduceCtorEq, false_or]
    refine ⟨fun hclean => .intro hclean.1 hclean.2, fun hattributes => ?_⟩
    obtain ⟨hnames, hitems⟩ := hattributes
    exact ⟨hnames, hitems⟩
  item p := by
    simp only [readItem, Reading.issues_bind, Reading.issues_pure, List.append_nil,
      List.append_eq_nil_iff, readClosed_clean, readGroupIn_clean hall, readTypedIn_clean hall]
    constructor
    · intro hclean
      obtain ⟨hclosed, hgroup, hkeyGroup, htypeGroups, hkeyTypeGroups⟩ := hclean
      exact .intro hclosed hgroup hkeyGroup htypeGroups hkeyTypeGroups
    · intro hitem
      obtain ⟨hclosed, hgroup, hkeyGroup, htypeGroups, hkeyTypeGroups⟩ := hitem
      exact ⟨hclosed, hgroup, hkeyGroup, htypeGroups, hkeyTypeGroups⟩
  groups p := by
    refine iff_of_false (by simp [readTyped]) ?_
    rintro (heq | hgroups)
    · cases heq
    · cases hgroups

end Object

theorem readElements_clean {p : Pointer} {elements : List Value} :
    ∀ {n : Nat}, (∀ v ∈ elements, v.Judged) →
      ((readElements p n elements).issues = [] ↔
        ∀ v ∈ elements, v.IsGroup ∧ v.HasTypeName) := by
  induction elements with
  | nil => simp [readElements]
  | cons v elements ih =>
    intro n hall
    rw [List.forall_mem_cons] at hall
    simp [readElements, hall.1.group, readOwnTypeName_clean, ih hall.2, and_assoc]

theorem judged_array {elements : List Value} (hall : ∀ v ∈ elements, v.Judged) :
    (Value.array elements).Judged where
  group p := iff_of_false (by simp [readGroup]) fun hgroup => by cases hgroup
  attributes p := by
    refine iff_of_false (by simp [readAttributes]) ?_
    rintro (heq | hattributes)
    · cases heq
    · cases hattributes
  item p := iff_of_false (by simp [readItem]) fun hitem => by cases hitem
  groups p := by
    simp only [readTyped, Reading.issues_bind, Reading.issues_pure, List.append_nil,
      readElements_clean hall, reduceCtorEq, false_or]
    constructor
    · exact fun hclean => .intro (fun v hv => (hclean v hv).1) fun v hv => (hclean v hv).2
    · intro hgroups
      obtain ⟨hgroups, hnamed⟩ := hgroups
      exact fun v hv => ⟨hgroups v hv, hnamed v hv⟩

theorem judged_leaf {v : Value} (harray : ∀ elements, v ≠ .array elements)
    (hobject : ∀ fields, v ≠ .object fields) : v.Judged := by
  have hgroup : ¬ v.IsGroup := by
    rintro ⟨⟩
    exact hobject _ rfl
  have hattributes : ¬ v.IsAttributes := by
    rintro ⟨⟩
    exact hobject _ rfl
  have hitem : ¬ v.IsItem := by
    rintro ⟨⟩
    exact hobject _ rfl
  have hgroups : ¬ v.IsGroups := by
    rintro ⟨⟩
    exact harray _ rfl
  constructor
  all_goals
    intro p
    cases v with
    | array elements => exact absurd rfl (harray elements)
    | object fields => exact absurd rfl (hobject fields)
    | _ => simp_all [readGroup, readAttributes, readItem, readTyped]

mutual
/-- **Every reader reports nothing exactly if the value is of the grammar.** -/
theorem Value.judged : ∀ v : Value, v.Judged
  | .undefined => judged_leaf nofun nofun
  | .null => judged_leaf nofun nofun
  | .bool _ => judged_leaf nofun nofun
  | .number _ => judged_leaf nofun nofun
  | .text _ => judged_leaf nofun nofun
  | .array elements => judged_array (judged_elements elements)
  | .object fields => judged_object (judged_fields fields)
termination_by structural v => v
theorem judged_elements : ∀ elements : List Value, ∀ v ∈ elements, v.Judged
  | [] => nofun
  | v :: rest => List.forall_mem_cons.2 ⟨Value.judged v, judged_elements rest⟩
termination_by structural elements => elements
theorem judged_fields : ∀ fields : List (String × Value), ∀ f ∈ fields, f.2.Judged
  | [] => nofun
  | (_, v) :: rest => List.forall_mem_cons.2 ⟨Value.judged v, judged_fields rest⟩
termination_by structural fields => fields
end

/-! ### What is accepted -/

namespace Description

/-- What an input stands for: a text for what it says as JSON, anything else for itself. -/
def meaning? : Value → Option Value
  | .text s => Json.parse? s
  | v => some v

theorem inputValue_of_meaning {input v : Value} (hv : meaning? input = some v) :
    inputValue input = .ok v := by
  cases input with
  | text s =>
    have hparse : Json.parse? s = some v := hv
    rw [inputValue, hparse]
  | _ => exact congrArg Except.ok (Option.some.inj hv)

theorem read_of_no_meaning {input : Value} (hinput : meaning? input = none) :
    read input = .error notJson := by
  cases input with
  | text s =>
    have hparse : Json.parse? s = none := hinput
    rw [read, inputValue, hparse]
    rfl
  | _ => cases hinput

/-- **The value that an input stands for is read if it is a group**, and its issues are the error if
it is not. -/
theorem read_cases {input v : Value} (hv : meaning? input = some v) :
    (v.IsGroup ∧ ∃ d, read input = .ok (v, d)) ∨
      (¬ v.IsGroup ∧ ∃ first more, read input = .error (invalid first more)) := by
  have hgroup := v.judged.group .root
  cases hissues : (readGroup .root v).issues with
  | nil =>
    refine .inl ⟨hgroup.1 hissues, (readGroup .root v).value, ?_⟩
    simp only [read, inputValue_of_meaning hv, bind, Except.bind, hissues]
    rfl
  | cons first more =>
    refine .inr ⟨fun hv => by simp [hgroup.2 hv] at hissues, first, more, ?_⟩
    simp only [read, inputValue_of_meaning hv, bind, Except.bind, hissues]
    rfl

/-- **What an input stands for is accepted exactly if it is a group.**  Any other value is refused,
and the first of its issues is what the error says.  A text that is not JSON stands for nothing. -/
theorem parse_iff_isGroup (input : Value) :
    (∀ v, meaning? input = some v →
      (∀ w, parse input = .ok w ↔ w = v ∧ v.IsGroup) ∧
      (¬ v.IsGroup → ∃ e first more, parse input = .error e ∧ e.name = "ParseError" ∧
        e.issues = first :: more ∧ e.message = "Invalid group description: " ++ first)) ∧
    (meaning? input = none → ∃ e, parse input = .error e ∧ e.name = "ParseError" ∧
      e.issues = [] ∧ e.message = "Group description is not valid JSON") := by
  refine ⟨fun v hmeaning => ?_, fun hinput => ⟨notJson, ?_, rfl, rfl, rfl⟩⟩
  · rcases read_cases hmeaning with ⟨hv, d, hread⟩ | ⟨hno, first, more, hread⟩
    · refine ⟨fun w => ?_, fun hno => absurd hv hno⟩
      rw [parse, hread]
      exact ⟨fun hw => ⟨(Except.ok.inj hw).symm, hv⟩, fun hw => congrArg Except.ok hw.1.symm⟩
    · have hparse : parse input = .error (invalid first more) := by
        rw [parse, hread]
        rfl
      refine ⟨fun w => ?_, fun _ => ⟨_, _, _, hparse, rfl, rfl, rfl⟩⟩
      rw [hparse]
      exact iff_of_false nofun fun hw => hno hw.2
  · rw [parse, read_of_no_meaning hinput]
    rfl

/-- A text is no group, but one that says a group is accepted, and one that says nothing is refused
without an issue. -/
theorem parse_texts :
    ¬ (Value.text "\x7b\"name\":\"x\"\x7d").IsGroup ∧
      parse (.text "\x7b\"name\":\"x\"\x7d") = .ok (.object [("name", .text "x")]) ∧
      ¬ (Value.text "").IsGroup ∧
      ∃ e, parse (.text "") = .error e ∧ e.name = "ParseError" ∧ e.issues = [] := by
  have hplain : (Value.object [("name", .text "x")]).Plain := by
    refine .object rfl fun f hf => ?_
    rw [List.mem_singleton.1 hf]
    exact .text "x"
  have htext : Json.toText (.object [("name", .text "x")]) = "\x7b\"name\":\"x\"\x7d" := by
    decide
  have hmeaning : meaning? (.text "\x7b\"name\":\"x\"\x7d") =
      some (.object [("name", .text "x")]) := by
    rw [meaning?, ← htext]
    exact Json.parse?_toText hplain
  have hgroup : (Value.object [("name", .text "x")]).IsGroup :=
    ((Value.judged _).group .root).1 rfl
  refine ⟨nofun, ?_, nofun, notJson, ?_, rfl, rfl⟩
  · rcases read_cases hmeaning with ⟨-, d, hread⟩ | ⟨hno, -⟩
    · rw [parse, hread]
      rfl
    · exact absurd hgroup hno
  · rw [parse, read_of_no_meaning rfl]
    rfl

end Description

end AttributeGraph
