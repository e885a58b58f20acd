/-
Diagnostics: non-fatal events of comparing, restoring, validating and
specializing.

Each code belongs to one phase of the work and may be emitted only there.
Operations hand back the diagnostics they emitted; a sink decides what becomes
of them.
-/
import AttributeGraph.Error

namespace AttributeGraph

/-- A part of the work, by name. -/
structure Phase where
  text : String
deriving DecidableEq, Inhabited

namespace Phase

def specialize : Phase := ⟨"specialize"⟩
def restore : Phase := ⟨"restore"⟩
def validate : Phase := ⟨"validate"⟩
def compare : Phase := ⟨"compare"⟩

/-- The phases with the keys by which they are listed. -/
def all : List (String × Phase) :=
  [("SPECIALIZE", specialize), ("RESTORE", restore), ("VALIDATE", validate), ("COMPARE", compare)]

end Phase

/-- What a diagnostic is about. -/
inductive DiagnosticCode where
  | cloneFailed
  | typeUnresolved
  | superTypeUnresolved
  | unknownAttribute
  | supersetShortCircuit
deriving DecidableEq, Inhabited

namespace DiagnosticCode

/-- Every code. -/
def all : List DiagnosticCode :=
  [cloneFailed, typeUnresolved, superTypeUnresolved, unknownAttribute, supersetShortCircuit]

/-- The code as text. -/
def text : DiagnosticCode → String
  | cloneFailed => "CLONE_FAILED"
  | typeUnresolved => "TYPE_UNRESOLVED"
  | superTypeUnresolved => "SUPER_TYPE_UNRESOLVED"
  | unknownAttribute => "UNKNOWN_ATTRIBUTE"
  | supersetShortCircuit => "SUPERSET_SHORT_CIRCUIT"

/-- The code that a text names. -/
def ofText? (s : String) : Option DiagnosticCode := all.find? fun c => c.text = s

/-- The phases in which the code may be emitted. -/
def phases : DiagnosticCode → List Phase
  | cloneFailed => [.specialize]
  | typeUnresolved => [.validate]
  | superTypeUnresolved => [.restore]
  | unknownAttribute => [.validate]
  | supersetShortCircuit => [.compare]

end DiagnosticCode

/-- A non-fatal event. -/
structure Diagnostic where
  code : DiagnosticCode
  /-- The dotted path of the group concerned, empty for a root. -/
  path : String
  phase : Phase
  details : Option Value := none
deriving Inhabited

namespace Diagnostic

/-- The diagnostic, provided that its code belongs to its phase. -/
def emit (d : Diagnostic) : Except Raised Diagnostic :=
  if d.phase ∈ d.code.phases then .ok d
  else .error (.plain s!"Diagnostic {d.code.text} is not allowed in phase {d.phase.text}")

/-- The diagnostic as one line of text. -/
def line (d : Diagnostic) : String :=
  let place := if d.path = "" then "<root>" else d.path
  let details := match d.details.filter Value.isGiven with
    | some facts => " " ++ Json.toText facts
    | none => ""
  s!"[attrgroups] {d.phase.text} {d.code.text} {place}{details}"

/-- A comparison that ended early at an attribute of a group. -/
def shortCircuit (path : String) : Diagnostic where
  code := .supersetShortCircuit
  path := path
  phase := .compare

/-- A group that a factory refused. -/
def cloneFailed (path groupName factory : String) : Diagnostic where
  code := .cloneFailed
  path := path
  phase := .specialize
  details := some (.object [("groupName", .text groupName), ("factory", .text factory)])

/-- A group without a describable type. -/
def typeUnresolved (path groupName : String) (typeName : Option String) : Diagnostic where
  code := .typeUnresolved
  path := path
  phase := .validate
  details := some (.object
    [("groupName", .text groupName), ("typeName", Error.optionalText typeName)])

/-- An attribute that does not exist. -/
def unknownAttribute (f : Failure) : Diagnostic where
  code := .unknownAttribute
  path := f.path
  phase := .validate
  details := some (.object
    [("message", .text f.message), ("typeName", Error.optionalText f.typeName)])

/-- A group whose super type is no sibling of it. -/
def superTypeUnresolved (path groupName superTypeName : String) : Diagnostic where
  code := .superTypeUnresolved
  path := path
  phase := .restore
  details := some (.object
    [("groupName", .text groupName), ("superTypeName", .text superTypeName)])

end Diagnostic

/-- Where diagnostics go. -/
inductive Sink where
  /-- One line of text each. -/
  | console
  /-- Nowhere. -/
  | silent
  /-- Into a list. -/
  | collector
deriving DecidableEq, Inhabited

namespace Sink

/-- The diagnostics that the sink keeps. -/
def collected : Sink → List Diagnostic → List Diagnostic
  | collector, ds => ds
  | _, _ => []

/-- The lines that the sink writes. -/
def written : Sink → List Diagnostic → List String
  | console, ds => ds.map Diagnostic.line
  | _, _ => []

end Sink

end AttributeGraph
