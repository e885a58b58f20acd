/-
The types whose attributes the groups name.

A type has an identity, a class name that others may share, and at most one
super type; its value holds the whole chain of super types above it, so types
always form a forest.  Two types are the same exactly if their values are.
-/

namespace AttributeGraph

/-- A type, given by its own identity and name and by the type it extends. -/
inductive ObjectType where
  | root (id name : String)
  | sub (id name : String) (parent : ObjectType)
deriving DecidableEq

namespace ObjectType

/-- The identity of the type. -/
def id : ObjectType → String
  | root id _ => id
  | sub id _ _ => id

/-- The class name of the type. -/
def name : ObjectType → String
  | root _ name => name
  | sub _ name _ => name

/-- The type that this one extends. -/
def parent? : ObjectType → Option ObjectType
  | root _ _ => none
  | sub _ _ parent => some parent

/-- The type and all types above it, nearest first. -/
def lineage : ObjectType → List ObjectType
  | t@(root _ _) => [t]
  | t@(sub _ _ parent) => t :: parent.lineage

/-- Whether `sub` is `super` or lies below it. -/
def subsumes (super : ObjectType) : ObjectType → Bool
  | t@(root _ _) => t = super
  | t@(sub _ _ parent) => t = super || subsumes super parent

end ObjectType

/-- Under what a nested group is filed: its type, or the name of a type that is still to be
resolved. -/
inductive TypeTag where
  | type (t : ObjectType)
  | name (n : String)
deriving DecidableEq

namespace TypeTag

/-- The name that a key shows. -/
def text : TypeTag → String
  | type t => t.name
  | name n => n

end TypeTag

/-- The relation by which subclass groups are ordered. -/
inductive Hierarchy where
  /-- The relation of the types themselves. -/
  | lineage
  /-- Any other relation of a super type to a sub type. -/
  | custom (subsumes : ObjectType → ObjectType → Bool)

namespace Hierarchy

/-- Whether the second type counts as the first or as a sub type of it. -/
def subsumes : Hierarchy → ObjectType → ObjectType → Bool
  | lineage => ObjectType.subsumes
  | custom relation => relation

end Hierarchy

end AttributeGraph
