/-
Types with their attributes.

A registry knows types by name and by identity.  A later registration of a type
replaces its attributes; a name once registered stays bound to the type that was
registered under it last.  Describing a type gives its level, then the levels of
the registered types above it; unregistered types in between are skipped.
-/
import AttributeGraph.ObjectType
import AttributeGraph.Error

namespace AttributeGraph

/-- An attribute of a type and the types that it leads to. -/
structure AttributeInfo where
  name : String
  /-- The type of the value, or of the elements of a collection. -/
  target : Option ObjectType := none
  /-- The type of the keys of a map. -/
  keyTarget : Option ObjectType := none
deriving DecidableEq

/-- One type with the attributes declared on it. -/
structure TypeLevel where
  type : ObjectType
  attributes : OrderedMap String AttributeInfo := .empty
deriving DecidableEq

/-- A type with its ancestors, nearest first. -/
structure TypeProfile where
  level : TypeLevel
  ancestors : List TypeLevel := []
deriving DecidableEq

/-- Something that may be an instance of a type. -/
inductive Subject where
  | instance (of : ObjectType)
  | plain (v : Value)

namespace TypeProfile

/-- The type described. -/
def type (d : TypeProfile) : ObjectType := d.level.type

/-- All levels, the described type first. -/
def levels (d : TypeProfile) : List TypeLevel := d.level :: d.ancestors

/-- The profile of the nearest ancestor. -/
def parent? (d : TypeProfile) : Option TypeProfile :=
  match d.ancestors with
  | [] => none
  | level :: ancestors => some ⟨level, ancestors⟩

/-- The attribute of a name, on the type itself or on its nearest ancestor that has one. -/
def attribute? (d : TypeProfile) (name : String) : Option AttributeInfo :=
  d.levels.findSome? fun level => level.attributes.find? name

/-- Whether a subject is an instance of the described type. -/
def admits (d : TypeProfile) : Subject → Bool
  | .instance t => d.type.subsumes t
  | .plain _ => false

end TypeProfile

/-- What is known of a registered type. -/
structure Registration where
  name : String
  level : TypeLevel
deriving DecidableEq

/-- The registered types. -/
structure Registry where
  bindings : OrderedMap String ObjectType := .empty
  registrations : OrderedMap ObjectType Registration := .empty
deriving DecidableEq, Inhabited

/-- How a type name becomes a type; a failure is given by name and message. -/
abbrev Resolver := String → Except Cause ObjectType

namespace Registry

/-- Register a type, under its class name unless another is given. -/
def register (r : Registry) (type : ObjectType) (name : Option String)
    (attributes : List AttributeInfo) : Registry :=
  let name := name.getD type.name
  let level := ⟨type, .ofList (attributes.map fun a => (a.name, a))⟩
  { bindings := r.bindings.insert name type
    registrations := r.registrations.insert type ⟨name, level⟩ }

/-- Whether a name is bound. -/
def knows (r : Registry) (name : String) : Bool := r.bindings.contains name

/-- The type that a name is bound to. -/
def typeNamed (r : Registry) (name : String) : Except Raised ObjectType :=
  match r.bindings.find? name with
  | some type => .ok type
  | none => .error (.unknownType name)

/-- Resolving by this registry. -/
def resolver (r : Registry) : Resolver := fun name => (r.typeNamed name).mapError Raised.toCause

/-- The name under which a type was registered last. -/
def nameFor (r : Registry) (type : ObjectType) : Option String :=
  (r.registrations.find? type).map Registration.name

/-- The level of a registered type. -/
def level? (r : Registry) (type : ObjectType) : Option TypeLevel :=
  (r.registrations.find? type).map Registration.level

/-- A registered type with its registered ancestors. -/
def profile? (r : Registry) (type : ObjectType) : Option TypeProfile :=
  (r.level? type).map fun level => ⟨level, type.lineage.tail.filterMap r.level?⟩

/-- Whether `sub` is `super` or lies below it. -/
def subsumes (_ : Registry) (super sub : ObjectType) : Bool :=
  super.subsumes sub

/-- The hierarchy of the registered types. -/
def hierarchy (r : Registry) : Hierarchy := .custom r.subsumes

end Registry

end AttributeGraph
