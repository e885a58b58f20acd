/-
The command line as a function.

Given the arguments, the contents of the files they name and the terminal,
`respond` gives what is written to the two outputs and the exit code.  Files are
loaded in the order of the arguments, diagnostics are written line by line, and
the first error ends the work: it is rendered for the terminal and its exit code
is that of the program.
-/
import AttributeGraph.CommandLine.Help
import AttributeGraph.Description.Restoration
import AttributeGraph.Error.View
import AttributeGraph.Heap.Coverage
import AttributeGraph.Heap.Listing
import AttributeGraph.Heap.Rendering
import AttributeGraph.Heap.Specialization

namespace AttributeGraph.CommandLine

/-- Why a file cannot be read. -/
inductive FileProblem where
  | notFound
  | isDirectory
  | notDirectory
deriving DecidableEq

/-- What is said of a file that cannot be read. -/
def FileProblem.message (name : String) : FileProblem → String
  | notFound => s!"ENOENT: no such file or directory, open '{name}'"
  | isDirectory => "EISDIR: illegal operation on a directory, read"
  | notDirectory => s!"ENOTDIR: not a directory, open '{name}'"

/-- The contents of files by name. -/
abbrev FileReader := String → Except FileProblem String

/-- What the program is run in. -/
structure Surroundings where
  files : FileReader
  terminal : Terminal := {}
  /-- Whether the environment is that of a production system. -/
  production : Bool := false

/-- What a run of the program leaves behind. -/
structure Response where
  stdout : String := ""
  stderr : String := ""
  exit : Nat := 0
deriving DecidableEq, Inhabited

/-- The error for a file that cannot be read. -/
def fileError (name : String) (problem : FileProblem) : Error :=
  let message := problem.message name
  .unexpected { message := message, cause := some ⟨"Error", message⟩ }

/-- Load groups from a description file. -/
def load (files : FileReader) (h : Heap) (name : String) : Outcome GroupId :=
  match files name with
  | .error problem => { heap := h, answer := .error (fileError name problem) }
  | .ok text => h.restore (.text text) {} none

/-- The text of lines, each with its line end. -/
def linesText (lines : List String) : String := String.join (lines.map (· ++ "\n"))

/-- What a request answers on standard output, and the exit code; with the diagnostics. -/
def answer (files : FileReader) : Request → Outcome (String × Nat)
  | .inspect file =>
    let a := load files .empty file
    { a with answer := a.answer.map fun g => (linesText (a.heap.paths g), 0) }
  | .compare fileA fileB =>
    let a := load files .empty fileA
    match a.answer with
    | .error e => { a with answer := .error e }
    | .ok g =>
      let b := load files a.heap fileB
      { heap := b.heap
        diagnostics := a.diagnostics ++ b.diagnostics
        answer := b.answer.map fun other =>
          let relation := b.heap.relation g other
          (linesText [relation.text], if relation = .incomparable then 1 else 0) }
  | .specialize file engine =>
    let a := load files .empty file
    match a.answer with
    | .error e => { a with answer := .error e }
    | .ok g =>
      let s := a.heap.forEngine g engine
      { heap := s.heap
        diagnostics := a.diagnostics ++ s.diagnostics
        answer := s.answer.map fun g => (linesText [s.heap.groupText g], 0) }

/-- An error as the program shows it. -/
def errorText (s : Surroundings) (e : Error) : String :=
  let presenter : Presenter := { production := s.production, colors := some true }
  linesText [(presenter.view s.terminal e).render]

/-- What a stop leaves behind. -/
def stopResponse (stop : Stop) : Response :=
  match stop.error?, stop with
  | some message, _ => { stderr := linesText [message], exit := 1 }
  | none, .version => { stdout := linesText [versionText] }
  | none, .help command => { stdout := helpText command }
  | none, _ => { stderr := helpText none, exit := 1 }

/-- Carry out a request. -/
def carryOut (s : Surroundings) (request : Request) : Response :=
  let outcome := answer s.files request
  let diagnostics := linesText (Sink.console.written outcome.diagnostics)
  match outcome.answer with
  | .ok (text, exit) => { stdout := text, stderr := diagnostics, exit := exit }
  | .error e =>
    { stderr := diagnostics ++ errorText s e
      exit := e.exitCode?.getD 1 }

/-- The response of the program to its arguments. -/
def respond (s : Surroundings) (args : List String) : Response :=
  match readArguments args with
  | .error stop => stopResponse stop
  | .ok request => carryOut s request

/-! ### A directory of files -/

/-- The components of a path relative to the working directory. -/
def components (name : String) : List String :=
  (((name.toList.splitOn '/').map String.ofList).foldl
    (fun path c =>
      if c = "" ∨ c = "." then path else if c = ".." then path.tail else c :: path) []).reverse

/-- The reader of a directory that holds the given files. -/
def directory (files : List (String × String)) : FileReader := fun name =>
  let path := components name
  let entries := files.map fun f => (components f.1, f.2)
  if name.startsWith "/" then .error (if path = [] then .isDirectory else .notFound)
  else
    match entries.lookup path with
    | some text => .ok text
    | none =>
      if path = [] ∨ entries.any (fun e => path.isPrefixOf e.1) then .error .isDirectory
      else if entries.any fun e => e.1.isPrefixOf path then .error .notDirectory
      else .error .notFound

end AttributeGraph.CommandLine
