/-
Variants: which engine a group is meant for, and how that engine treats it.

A group is generic or belongs to a fetch, load or copy engine.  All groups of a
copy session share one registry of copied instances, known here by a number
only.
-/

namespace AttributeGraph

/-- The engine that a group is meant for. -/
inductive Kind where
  | generic
  | fetch
  | load
  | copy
deriving DecidableEq, Inhabited

namespace Kind

/-- The kind as text. -/
def text : Kind → String
  | generic => "generic"
  | fetch => "fetch"
  | load => "load"
  | copy => "copy"

/-- The kind that a text names. -/
def ofText? : String → Option Kind
  | "generic" => some generic
  | "fetch" => some fetch
  | "load" => some load
  | "copy" => some copy
  | _ => none

/-- What a group of the kind is called when it is shown. -/
def label : Kind → String
  | generic => "AttributeGroup"
  | fetch => "FetchGroup"
  | load => "LoadGroup"
  | copy => "CopyGroup"

end Kind

/-- How far a copy engine follows relationships. -/
inductive Cascade where
  | nothing
  | privateParts
  /-- Everything reachable through the group. -/
  | tree
  | allParts
deriving DecidableEq, Inhabited

namespace Cascade

/-- The policy as text. -/
def text : Cascade → String
  | nothing => "none"
  | privateParts => "private-parts"
  | tree => "tree"
  | allParts => "all-parts"

/-- The policy that a text names. -/
def ofText? : String → Option Cascade
  | "none" => some nothing
  | "private-parts" => some privateParts
  | "tree" => some tree
  | "all-parts" => some allParts
  | _ => none

end Cascade

/-- The registry of one copy session. -/
structure CopyRegistryId where
  index : Nat
deriving DecidableEq, Inhabited

/-- The settings of a copy group. -/
structure CopySettings where
  copies : CopyRegistryId
  cascade : Cascade := .privateParts
  resetPrimaryKey : Bool := false
  resetVersion : Bool := false
deriving DecidableEq, Inhabited

/-- The engine of a group together with its settings. -/
inductive Variant where
  | generic
  /-- The engine may also load the relationships that it fetches. -/
  | fetch (loadAll : Bool)
  /-- Several consumers may traverse the group at once. -/
  | load
  | copy (settings : CopySettings)
deriving DecidableEq, Inhabited

namespace Variant

/-- The engine. -/
def kind : Variant → Kind
  | generic => .generic
  | fetch _ => .fetch
  | load => .load
  | copy _ => .copy

/-- Whether a fetch engine loads relationships. -/
def loadsAll : Variant → Bool
  | fetch loadAll => loadAll
  | _ => false

/-- Whether several consumers may traverse the group at once. -/
def isShareable (v : Variant) : Bool := v.kind = .load

/-- The registry of the copy session. -/
def copies? : Variant → Option CopyRegistryId
  | copy settings => some settings.copies
  | _ => none

/-- What is shown of the settings. -/
def note : Variant → String
  | copy settings => s!"[cascade={settings.cascade.text}]"
  | fetch loadAll => if loadAll then "[loadAll]" else ""
  | _ => ""

end Variant

end AttributeGraph
