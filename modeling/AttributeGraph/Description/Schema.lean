/-
The schema of descriptions, as data.

A schema is a list of keywords, and a value meets it if every keyword holds of it.
A keyword speaks of the values of one type: those of other types it lets pass, so
it is the keyword `type` that keeps them out.  Schemas refer to one another by
name, and so a group can nest groups; which schema a name stands for is looked up
in a table.  `Schema.Admits` is the least relation that the keywords allow.

`descriptionSchema` with the table `definitions` is the schema that descriptions
have to meet.  A property that is undefined counts as absent, but its key is a key.
-/
import AttributeGraph.Description.Grammar
import AttributeGraph.Text.Pattern

namespace AttributeGraph

/-- The types that a schema can ask for. -/
inductive ValueType where
  | object
  | array
  | string
  | boolean
deriving DecidableEq

/-- The values of a type. -/
def ValueType.Has : ValueType → Value → Prop
  | object, v => ∃ fields, v = .object fields
  | array, v => ∃ elements, v = .array elements
  | string, v => ∃ s, v = .text s
  | boolean, v => ∃ b, v = .bool b

mutual
/-- A condition on values. -/
inductive Schema where
  /-- The schema that no value meets. -/
  | never
  /-- All of these keywords. -/
  | all (keywords : List Keyword)
/-- A part of a schema. -/
inductive Keyword where
  | type (t : ValueType)
  | enum (texts : List String)
  | minLength (n : Nat)
  | pattern (p : Text.Pattern)
  | items (s : Schema)
  | required (keys : List String)
  | properties (schemas : List (String × Schema))
  /-- What the properties have to meet that the schema does not list. -/
  | additionalProperties (s : Schema)
  | propertyNames (s : Schema)
  | allOf (schemas : List Schema)
  /-- The schema of that name. -/
  | ref (name : String)
end

/-- The keys of the properties that keywords list. -/
def Keyword.listed : List Keyword → List String
  | [] => []
  | .properties schemas :: rest => schemas.map Prod.fst ++ listed rest
  | _ :: rest => listed rest

section Meaning

variable (table : List (String × Schema))

mutual
/-- A value meets a schema. -/
inductive Schema.Admits : Schema → Value → Prop
  | all {keywords : List Keyword} {v : Value}
      (hall : ∀ k ∈ keywords, Keyword.Holds keywords k v) :
      Schema.Admits (.all keywords) v
/-- A keyword of a schema with the given keywords holds of a value. -/
inductive Keyword.Holds : List Keyword → Keyword → Value → Prop
  | type {beside : List Keyword} {t : ValueType} {v : Value} (ht : t.Has v) :
      Keyword.Holds beside (.type t) v
  | enum {beside : List Keyword} {texts : List String} {v : Value}
      (htext : ∃ s ∈ texts, v = .text s) : Keyword.Holds beside (.enum texts) v
  | minLength {beside : List Keyword} {n : Nat} {v : Value}
      (hlength : ∀ s, v = .text s → n ≤ s.length) : Keyword.Holds beside (.minLength n) v
  | pattern {beside : List Keyword} {p : Text.Pattern} {v : Value}
      (hmatch : ∀ s, v = .text s → p.test s = true) : Keyword.Holds beside (.pattern p) v
  | items {beside : List Keyword} {s : Schema} {v : Value}
      (hitems : ∀ elements, v = .array elements → ∀ e ∈ elements, Schema.Admits s e) :
      Keyword.Holds beside (.items s) v
  | required {beside : List Keyword} {keys : List String} {v : Value}
      (hkeys : ∀ fields, v = .object fields → ∀ key ∈ keys, ∃ w, fieldOf key fields = some w) :
      Keyword.Holds beside (.required keys) v
  | properties {beside : List Keyword} {schemas : List (String × Schema)} {v : Value}
      (hproperties : ∀ fields, v = .object fields → ∀ p ∈ schemas,
        ∀ w, fieldOf p.1 fields = some w → Schema.Admits p.2 w) :
      Keyword.Holds beside (.properties schemas) v
  | additionalProperties {beside : List Keyword} {s : Schema} {v : Value}
      (hothers : ∀ fields, v = .object fields → ∀ f ∈ fields, f.1 ∉ Keyword.listed beside →
        Schema.Admits s f.2) :
      Keyword.Holds beside (.additionalProperties s) v
  | propertyNames {beside : List Keyword} {s : Schema} {v : Value}
      (hnames : ∀ fields, v = .object fields → ∀ f ∈ fields, Schema.Admits s (.text f.1)) :
      Keyword.Holds beside (.propertyNames s) v
  | allOf {beside : List Keyword} {schemas : List Schema} {v : Value}
      (hall : ∀ s ∈ schemas, Schema.Admits s v) : Keyword.Holds beside (.allOf schemas) v
  | ref {beside : List Keyword} {name : String} {s : Schema} {v : Value}
      (hname : table.lookup name = some s) (hs : Schema.Admits s v) :
      Keyword.Holds beside (.ref name) v
end

end Meaning

/-! ### The schema of descriptions -/

/-- The pattern of the names of attributes. -/
def namePattern : Text.Pattern :=
  .seq .start (.seq (.noneOf [.dot, .blank])
    (.seq (.maybe (.seq (.many (.noneOf [.dot])) (.noneOf [.dot, .blank]))) .stop))

/-- A text that is not empty. -/
def nonEmptySchema : Schema := .all [.type .string, .minLength 1]

/-- The attributes of a group: an item for each name. -/
def attributesSchema : Schema :=
  .all [
    .type .object,
    .propertyNames (.all [.type .string, .pattern namePattern]),
    .additionalProperties (.all [.ref "item"])]

/-- A group. -/
def groupSchema : Schema :=
  .all [
    .type .object,
    .required ["name"],
    .additionalProperties .never,
    .properties [
      ("name", .all [.type .string]),
      ("typeName", nonEmptySchema),
      ("superTypeName", nonEmptySchema),
      ("validated", .all [.type .boolean]),
      ("kind", .all [.enum ["generic", "fetch", "load", "copy"]]),
      ("attributes", attributesSchema)]]

/-- Groups filed per type. -/
def typedGroupsSchema : Schema := .all [.type .array, .items (.all [.ref "typedGroup"])]

/-- An item. -/
def itemSchema : Schema :=
  .all [
    .type .object,
    .additionalProperties .never,
    .properties [
      ("group", .all [.ref "group"]),
      ("keyGroup", .all [.ref "group"]),
      ("typeGroups", typedGroupsSchema),
      ("keyTypeGroups", typedGroupsSchema)]]

/-- A group filed per type. -/
def typedGroupSchema : Schema :=
  .all [
    .type .object,
    .required ["typeName"],
    .properties [("typeName", nonEmptySchema)],
    .allOf [.all [.ref "group"]]]

/-- The schemas that have a name. -/
def definitions : List (String × Schema) :=
  [("group", groupSchema), ("item", itemSchema), ("typedGroup", typedGroupSchema)]

/-- What a description has to meet. -/
def descriptionSchema : Schema := .all [.allOf [.all [.ref "group"]]]

end AttributeGraph
