/-
A registry that remembers the profiles it has worked out.

The profile of a registered type has its own level first and goes on with the profile of
the nearest registered type above it, which is described in the same way.  Whatever is
described on the way is remembered, and answers the next question about the same type.
One more registration may change any profile, so it forgets them all.
-/
import AttributeGraph.Registry

namespace AttributeGraph

/-- An attribute as it is declared: by its name alone, or with the types that it leads to. -/
inductive Declaration where
  | named (name : String)
  | full (info : AttributeInfo)
deriving DecidableEq

/-- What a declaration says of the attribute. -/
def Declaration.info : Declaration → AttributeInfo
  | named name => { name }
  | full info => info

/-- The nearest registered type above a type. -/
def Registry.registeredAbove? (r : Registry) : ObjectType → Option ObjectType
  | .root _ _ => none
  | .sub _ _ parent =>
    if r.registrations.contains parent then some parent else r.registeredAbove? parent

/-- What is registered lies above the type, so describing it takes fewer steps. -/
theorem Registry.length_lineage_registeredAbove {r : Registry} {s t : ObjectType}
    (hs : r.registeredAbove? t = some s) : s.lineage.length < t.lineage.length := by
  induction t with
  | root id name => cases hs
  | sub id name parent ih =>
    rw [registeredAbove?] at hs
    rw [ObjectType.lineage, List.length_cons]
    split at hs
    · obtain rfl := Option.some.inj hs
      exact Nat.lt_succ_self _
    · exact Nat.lt_succ_of_lt (ih hs)

/-- A registry with the profiles that have been described since the last registration. -/
structure Catalog where
  registry : Registry := {}
  remembered : OrderedMap ObjectType TypeProfile := .empty
deriving DecidableEq, Inhabited

namespace Catalog

/-- Register a type.  Nothing is remembered any more. -/
def register (c : Catalog) (type : ObjectType) (name : Option String)
    (attributes : List Declaration) : Catalog :=
  { registry := c.registry.register type name (attributes.map Declaration.info) }

/-- The profile of a type, remembered or worked out; none if the type is not registered. -/
def describe (c : Catalog) (t : ObjectType) : Option TypeProfile × Catalog :=
  match c.remembered.find? t with
  | some d => (some d, c)
  | none =>
    match c.registry.level? t with
    | none => (none, c)
    | some level =>
      let (parent, c) := match _hs : c.registry.registeredAbove? t with
        | none => (none, c)
        | some s => c.describe s
      let d : TypeProfile := ⟨level, (parent.map TypeProfile.levels).getD []⟩
      (some d, { c with remembered := c.remembered.insert t d })
termination_by t.lineage.length
decreasing_by exact Registry.length_lineage_registeredAbove _hs

end Catalog

end AttributeGraph
