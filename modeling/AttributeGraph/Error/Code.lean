/-
The stable codes of errors and the exit codes that go with them.

A code is a text such as `E010`.  Eight codes are assigned; each has a key by
which it is listed and an exit code for the command line.  A report may carry
any other text as its code, and such a code has no exit code.
-/

namespace AttributeGraph

/-- How serious an error is. -/
inductive Severity where
  | info
  | warn
  | error
deriving DecidableEq, Inhabited

namespace Severity

/-- The severity as text. -/
def text : Severity → String
  | info => "info"
  | warn => "warn"
  | error => "error"

/-- The severity that a text names. -/
def ofText? : String → Option Severity
  | "info" => some info
  | "warn" => some warn
  | "error" => some error
  | _ => none

end Severity

/-- The code of an error. -/
structure ErrorCode where
  text : String
deriving DecidableEq, Inhabited

namespace ErrorCode

def invalidAttributePath : ErrorCode := ⟨"E010"⟩
def typeResolutionFailed : ErrorCode := ⟨"E020"⟩
def unknownAttribute : ErrorCode := ⟨"E200"⟩
def configurationError : ErrorCode := ⟨"E300"⟩
def descriptionParseFailed : ErrorCode := ⟨"E400"⟩
def cyclicDescription : ErrorCode := ⟨"E401"⟩
def cloneFailed : ErrorCode := ⟨"E500"⟩
def internalError : ErrorCode := ⟨"E599"⟩

/-- The assigned codes with their keys and exit codes, by domain. -/
def assigned : List (String × ErrorCode × Nat) :=
  [("INVALID_ATTRIBUTE_PATH", invalidAttributePath, 20),
    ("TYPE_RESOLUTION_FAILED", typeResolutionFailed, 21),
    ("UNKNOWN_ATTRIBUTE", unknownAttribute, 40),
    ("CONFIGURATION_ERROR", configurationError, 50),
    ("DESCRIPTION_PARSE_FAILED", descriptionParseFailed, 60),
    ("CYCLIC_DESCRIPTION", cyclicDescription, 61),
    ("CLONE_FAILED", cloneFailed, 98),
    ("INTERNAL_ERROR", internalError, 99)]

/-- The exit code of an assigned code. -/
def exitCode? (code : ErrorCode) : Option Nat := (assigned.map Prod.snd).lookup code

/-- What a user can do about an error of this code. -/
def workaround? (code : ErrorCode) : Option String :=
  [(invalidAttributePath, "Use dot-separated attribute names without empty or padded segments"),
    (typeResolutionFailed, "Register the type with the resolver before restoring the description"),
    (descriptionParseFailed, "Check the description file against the group description schema"),
    (cyclicDescription, "Break the self-nesting before describing the group")].lookup code

end ErrorCode

end AttributeGraph
