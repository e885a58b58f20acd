/-
Descriptions: groups as data that can be stored.

A description of a group has its name and what else is known of it; a
description of an item has the descriptions of its nested groups.  A nested
group may name the sibling group that it extends.  As untyped data a description
is an object whose properties stand in a fixed order, those that are absent left
out.
-/
import AttributeGraph.Value
import AttributeGraph.Variant

namespace AttributeGraph

mutual
/-- The description of a group. -/
structure Description where
  name : String
  typeName : Option String := none
  /-- The type name of the sibling group that this one extends. -/
  superTypeName : Option String := none
  validated : Option Bool := none
  kind : Option Kind := none
  attributes : Option (List (String × NestedDescription)) := none
/-- The description of an item. -/
structure NestedDescription where
  group : Option Description := none
  typeGroups : Option (List Description) := none
  keyGroup : Option Description := none
  keyTypeGroups : Option (List Description) := none
end

instance : Inhabited Description := ⟨{ name := "" }⟩

instance : Inhabited NestedDescription := ⟨{}⟩

/-- A property, if there is a value for it. -/
def Value.property (key : String) (v : Option Value) : List (String × Value) :=
  v.toList.map fun v => (key, v)

mutual
/-- The description as an object. -/
def Description.toValue : Description → Value
  | ⟨name, typeName, superTypeName, validated, kind, attributes⟩ =>
    .object
      (("name", .text name) :: Value.property "typeName" (typeName.map .text) ++
        Value.property "superTypeName" (superTypeName.map .text) ++
        Value.property "validated" (validated.map .bool) ++
        Value.property "kind" (kind.map fun k => .text k.text) ++
        Value.property "attributes" (attributesValue attributes))
termination_by structural d => d
/-- The attributes as an object. -/
def attributesValue : Option (List (String × NestedDescription)) → Option Value
  | none => none
  | some attributes => some (.record (attributeFields attributes))
termination_by structural attributes => attributes
/-- The attributes as properties. -/
def attributeFields : List (String × NestedDescription) → List (String × Value)
  | [] => []
  | (name, item) :: rest => (name, item.toValue) :: attributeFields rest
termination_by structural attributes => attributes
/-- The description of an item as an object. -/
def NestedDescription.toValue : NestedDescription → Value
  | ⟨group, typeGroups, keyGroup, keyTypeGroups⟩ =>
    .object
      (Value.property "group" (groupValue group) ++
        Value.property "typeGroups" (groupsValue typeGroups) ++
        Value.property "keyGroup" (groupValue keyGroup) ++
        Value.property "keyTypeGroups" (groupsValue keyTypeGroups))
termination_by structural d => d
/-- A nested group as a value. -/
def groupValue : Option Description → Option Value
  | none => none
  | some group => some group.toValue
termination_by structural group => group
/-- Nested groups as an array. -/
def groupsValue : Option (List Description) → Option Value
  | none => none
  | some groups => some (.array (groupValues groups))
termination_by structural groups => groups
/-- Nested groups as elements. -/
def groupValues : List Description → List Value
  | [] => []
  | group :: rest => group.toValue :: groupValues rest
termination_by structural groups => groups
end

end AttributeGraph
