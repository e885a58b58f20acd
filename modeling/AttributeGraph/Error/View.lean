/-
Errors on the terminal: first a view of the error, then its lines.

The view decides what is shown: title, location, one line per detail, a
workaround, and whether colours are used.  Rendering wraps location and
workaround to the width of the terminal and leaves the details alone, so that
paths can be copied from them.
-/
import AttributeGraph.Error
import AttributeGraph.Text.Ansi
import AttributeGraph.Text.Wrap

namespace AttributeGraph

/-- What is shown of an error, and how. -/
structure ErrorView where
  title : String
  code : ErrorCode
  location : Option String := none
  path : Option String := none
  details : List String := []
  workaround : Option String := none
  colors : Bool := false
  terminalWidth : Float := 80
deriving Inhabited

/-- The surroundings that decide about colours and width: two environment variables and the
width that the terminal reports. -/
structure Terminal where
  noColor : Option String := none
  forceColor : Option String := none
  columns : Option Float := none
deriving Inhabited

/-- How errors are presented. -/
structure Presenter where
  /-- Without a choice of colours, they are off in production. -/
  production : Bool
  colors : Option Bool := none
  terminalWidth : Option Float := none
deriving Inhabited

namespace Presenter

/-- Whether an environment variable switches something on: set, and neither empty, `0` nor
`false`. -/
def switchedOn : Option String → Bool
  | some s => s ≠ "" && s ≠ "0" && s ≠ "false"
  | none => false

/-- Whether colours are used.  The environment wins over the presenter. -/
def usesColors (p : Presenter) (t : Terminal) : Bool :=
  if switchedOn t.noColor then false
  else if switchedOn t.forceColor then true
  else p.colors.getD !p.production

/-- The line that says where an error arose: its path, or else its group. -/
def location? (context : Option Context) : Option String :=
  let fact (key : String) : Option String := (context.bind (·.text? key)).filter (· ≠ "")
  match fact "path", fact "groupName" with
  | some path, _ => some s!"Location: {path}"
  | none, some name => some s!"Group: {name}"
  | none, none => none

/-- The details of an error: its failures, or its issues, or its cause. -/
def details (e : Error) : List String :=
  let causeLines := match e.cause with
    | some cause => [s!"caused by: {cause.message}"]
    | none => []
  match e with
  | .validation _ failures => failures.map fun f => s!"{f.path}: {f.message}"
  | .parse _ [] => causeLines
  | .parse _ issues => issues
  | _ => causeLines

/-- The view of an error. -/
def view (p : Presenter) (t : Terminal) (e : Error) : ErrorView where
  title := s!"Error {e.code.text}: {e.message}"
  code := e.code
  location := location? e.context
  path := e.context.bind (·.text? "path")
  details := details e
  workaround := e.code.workaround?
  colors := p.usesColors t
  terminalWidth := (p.terminalWidth <|> t.columns).getD 80

end Presenter

namespace ErrorView

/-- The width that the lines of a text are wrapped to.  On a terminal without bounds that is the
length of the text; a terminal without a positive width counts as one of 80 columns. -/
def widthFor (v : ErrorView) (text : List Char) : Nat :=
  if 0 < v.terminalWidth then
    ((Decimal.Binary64.ofFloat? v.terminalWidth).map Decimal.Binary64.wholePart).getD
      (Text.unitLength text)
  else 80

/-- An optional text as wrapped lines; nothing is shown of an empty one. -/
def wrapped (v : ErrorView) (label : String) : Option String → List String
  | none => []
  | some s =>
    if s = "" then []
    else
      let text := (label ++ s).toList
      (Text.wrap (v.widthFor text) text).map String.ofList

/-- The lines of the view. -/
def lines (v : ErrorView) : List String :=
  (if v.colors then Text.Ansi.styled v.title [.red, .bold] else v.title) ::
    (v.wrapped "" v.location ++ v.details.map (fun d => s!"  - {d}") ++
      v.wrapped "Workaround: " v.workaround)

/-- The view as text. -/
def render (v : ErrorView) : String := "\n".intercalate v.lines

end ErrorView

end AttributeGraph
