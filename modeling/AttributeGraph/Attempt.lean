/-
Failures as values.

A computation that raises an error is turned into one that answers with it,
provided that the error is of the expected kind; any other error is raised
again.  A failed answer may also carry a plain value, and opening such an answer
raises an error that shows the value.
-/
import AttributeGraph.Error

namespace AttributeGraph

/-- What a failed answer carries. -/
inductive Payload where
  | raised (r : Raised)
  | value (v : Value)
deriving Inhabited

namespace Payload

/-- The error that is raised when a failed answer is opened. -/
def toRaised : Payload → Raised
  | raised r => r
  | value v => .plain s!"Called unwrap on an Err value: {v.toText}"

end Payload

variable {α : Type}

/-- The value of an answer; opening a failed one raises. -/
def extract : Except Payload α → Except Raised α
  | .ok a => .ok a
  | .error p => .error p.toRaised

/-- The value of an answer, or a fallback. -/
def extractOr (fallback : α) : Except Payload α → α
  | .ok a => a
  | .error _ => fallback

/-- Answer with an expected error instead of raising it. -/
def capture (expected : Raised → Bool) : Except Raised α → Except Raised (Except Raised α)
  | .ok a => .ok (.ok a)
  | .error r => if expected r then .ok (.error r) else .error r

end AttributeGraph
