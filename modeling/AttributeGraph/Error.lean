/-
What can go wrong, each error by its cause.

An error holds what caused it; its message, code, severity and context are
functions of that.  Four causes are fixed by the rule that was broken (a path,
a type name, an option, a group nested in itself); the others are reports, whose
message and context are chosen where they are raised.  `Raised` adds the errors
that are not about groups.
-/
import AttributeGraph.Error.Code
import AttributeGraph.Json.Printer

namespace AttributeGraph

/-- The name and message of an error, as kept by another error that it caused. -/
structure Cause where
  name : String
  message : String
deriving DecidableEq, Inhabited

/-- The cause as data. -/
def Cause.toValue (c : Cause) : Value :=
  .object [("name", .text c.name), ("message", .text c.message)]

/-- Named facts about the place where an error arose. -/
abbrev Context := OrderedMap String Value

namespace Context

/-- A context with the given facts. -/
def of (facts : List (String × Value)) : Context := OrderedMap.ofList facts

/-- A fact that is a text. -/
def text? (c : Context) (key : String) : Option String := (c.find? key).bind Value.text?

end Context

/-- An attribute that does not exist on the type in force. -/
structure Failure where
  path : String
  message : String
  typeName : Option String := none
deriving DecidableEq, Inhabited

/-- What is said where an error is raised; without a code it gets the one of its kind. -/
structure Report where
  message : String
  code : Option ErrorCode := none
  severity : Severity := .error
  context : Option Context := none
  cause : Option Cause := none
deriving Inhabited

/-- An error about groups. -/
inductive Error where
  /-- A path that is empty or holds a segment that names no attribute. -/
  | invalidPath (input : Value)
  /-- A type name without a type. -/
  | typeResolution (typeName : String) (cause : Option Cause)
  /-- A group that could not be copied or specialized. -/
  | clone (report : Report)
  /-- Attributes that do not exist on their types. -/
  | validation (report : Report) (failures : List Failure)
  /-- A description of the wrong shape. -/
  | parse (report : Report) (issues : List String)
  /-- An option outside its range. -/
  | config (message : String) (setting : Option String)
  /-- A group that is nested in itself, and the place where it was met, as a rule a dotted path. -/
  | descriptionCycle (path : Value) (groupName : String)
  /-- Anything else that stops the command line. -/
  | unexpected (report : Report)
deriving Inhabited

namespace Error

/-- The name of the kind of error. -/
def name : Error → String
  | invalidPath _ => "InvalidPathError"
  | typeResolution _ _ => "TypeResolutionError"
  | clone _ => "CloneError"
  | validation _ _ => "ValidationError"
  | parse _ _ => "ParseError"
  | config _ _ => "ConfigError"
  | descriptionCycle _ _ => "DescriptionCycleError"
  | unexpected _ => "UnexpectedError"

/-- A rejected input as it is shown: texts and lists as JSON, all else plainly. -/
def shown : Value → String
  | .text s => Json.quote s
  | .array elements => Json.toText (.array elements)
  | v => v.toText

/-- What the error says. -/
def message : Error → String
  | invalidPath input => s!"Invalid attribute path: {shown input}"
  | typeResolution typeName _ =>
    s!"Type {typeName} could not be resolved while converting type names"
  | clone r | validation r _ | parse r _ | unexpected r => r.message
  | config message _ => message
  | descriptionCycle path groupName =>
    s!"Group '{groupName}' at '{path.toText}' contains itself and cannot be described"

/-- The code of the error. -/
def code : Error → ErrorCode
  | invalidPath _ => .invalidAttributePath
  | typeResolution _ _ => .typeResolutionFailed
  | clone r => r.code.getD .cloneFailed
  | validation r _ => r.code.getD .unknownAttribute
  | parse r _ => r.code.getD .descriptionParseFailed
  | config _ _ => .configurationError
  | descriptionCycle _ _ => .cyclicDescription
  | unexpected r => r.code.getD .internalError

/-- The exit code of the error, if its code has one. -/
def exitCode? (e : Error) : Option Nat := e.code.exitCode?

/-- How serious the error is. -/
def severity : Error → Severity
  | clone r | validation r _ | parse r _ | unexpected r => r.severity
  | _ => .error

/-- The error that caused this one. -/
def cause : Error → Option Cause
  | typeResolution _ cause => cause
  | clone r | validation r _ | parse r _ | unexpected r => r.cause
  | _ => none

/-- An optional text as a value. -/
def optionalText (s : Option String) : Value := (s.map Value.text).getD .undefined

/-- Where the error arose. -/
def context : Error → Option Context
  | invalidPath input => some (.of [("path", optionalText input.text?), ("value", input)])
  | typeResolution typeName _ => some (.of [("typeName", .text typeName)])
  | validation r failures =>
    let count : Value := .number (Float.ofNat failures.length)
    some (.of (("failureCount", count) :: ((r.context.map (·.entries)).getD [])))
  | clone r | parse r _ | unexpected r => r.context
  | config _ setting => some (.of [("setting", optionalText setting)])
  | descriptionCycle path groupName =>
    some (.of [("path", path), ("groupName", .text groupName)])

/-- The violations of a description that failed to parse. -/
def issues : Error → List String
  | parse _ issues => issues
  | _ => []

/-- The unknown attributes that a validation found. -/
def failures : Error → List Failure
  | validation _ failures => failures
  | _ => []

/-- The rejected path, if it is a text. -/
def path? : Error → Option String
  | invalidPath input => input.text?
  | _ => none

/-- The type name without a type. -/
def typeName? : Error → Option String
  | typeResolution typeName _ => some typeName
  | _ => none

/-- The option outside its range. -/
def setting? : Error → Option String
  | config _ setting => setting
  | _ => none

/-- What a cause keeps of the error. -/
def toCause (e : Error) : Cause := ⟨e.name, e.message⟩

/-- The error as data for a log.  Where it arose and what caused it are left out if unknown. -/
def toValue (e : Error) : Value :=
  .object
    [("name", .text e.name), ("message", .text e.message), ("errorCode", .text e.code.text),
      ("severity", .text e.severity.text),
      ("context", (e.context.map fun c => .object c.entries).getD .undefined),
      ("cause", (e.cause.map Cause.toValue).getD .undefined)]

end Error

/-- An error of any kind. -/
inductive Raised where
  /-- An error about groups. -/
  | group (e : Error)
  /-- A type name that a registry does not know. -/
  | unknownType (typeName : String)
  /-- Any other error, by name and message. -/
  | other (cause : Cause)
deriving Inhabited

namespace Raised

/-- Name and message of the error. -/
def toCause : Raised → Cause
  | group e => e.toCause
  | unknownType typeName => ⟨"UnknownTypeError", s!"Unknown type: {typeName}"⟩
  | other cause => cause

/-- The name of the kind of error. -/
def name (r : Raised) : String := r.toCause.name

/-- What the error says. -/
def message (r : Raised) : String := r.toCause.message

/-- Whether it is an error about groups. -/
def isGroup : Raised → Bool
  | group _ => true
  | _ => false

/-- An error without a kind of its own. -/
def plain (message : String) : Raised := .other ⟨"Error", message⟩

end Raised

end AttributeGraph
