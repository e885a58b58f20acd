/-
Reading the arguments of the command line.

The program has one option of its own, the version; every command has operands,
and `specialize` has an option with a value.  Arguments are scanned twice, first
for the program and then, as far as the program did not know them, for the
command.  An option that nobody knows moves all that follows it to the second
scan.  The first fault in reading order is the one that is reported.
-/
import AttributeGraph.CommandLine.Suggestion
import AttributeGraph.Heap.Specialization

namespace AttributeGraph.CommandLine

/-- What ends the reading of arguments early. -/
inductive Stop where
  /-- The version was asked for. -/
  | version
  /-- Help was asked for, on the program or on one of its commands. -/
  | help (command : Option String)
  /-- There is nothing to do, so help is given instead. -/
  | nothingToDo
  | unknownCommand (name : String) (hint : String)
  | unknownOption (flag : String) (hint : String)
  | missingValue (flags : String)
  | badValue (flags value : String) (choices : List String)
  | missingOption (flags : String)
  | missingArgument (name : String)
deriving DecidableEq

/-- The error text of a stop that is one. -/
def Stop.error? : Stop → Option String
  | .version | .help _ | .nothingToDo => none
  | .unknownCommand name hint => some s!"error: unknown command '{name}'{hint}"
  | .unknownOption flag hint => some s!"error: unknown option '{flag}'{hint}"
  | .missingValue flags => some s!"error: option '{flags}' argument missing"
  | .badValue flags value choices =>
    let list := ", ".intercalate choices
    some s!"error: option '{flags}' argument '{value}' is invalid. Allowed choices are {list}."
  | .missingOption flags => some s!"error: required option '{flags}' not specified"
  | .missingArgument name => some s!"error: missing required argument '{name}'"

/-- What an option stands for. -/
inductive OptionRole where
  | version
  /-- A value, one of several. -/
  | choice (placeholder : String) (choices : List String)
deriving DecidableEq

/-- An option, by its letter and its word. -/
structure OptionSpec where
  letter : Char
  word : String
  role : OptionRole
  description : String
deriving DecidableEq

namespace OptionSpec

/-- The option in its short form. -/
def short (o : OptionSpec) : String := String.ofList ['-', o.letter]

/-- The option in its long form. -/
def long (o : OptionSpec) : String := "--" ++ o.word

/-- The option as it is shown. -/
def flags (o : OptionSpec) : String :=
  match o.role with
  | .version => s!"{o.short}, {o.long}"
  | .choice placeholder _ => s!"{o.short}, {o.long} <{placeholder}>"

/-- Whether an argument is the option. -/
def is (o : OptionSpec) (arg : String) : Bool := arg = o.short || arg = o.long

end OptionSpec

/-- A command: its operands are all required. -/
structure CommandSpec where
  name : String
  description : String
  operands : List (String × String)
  options : List OptionSpec := []
deriving DecidableEq

/-- The option for the version of the program. -/
def versionOption : OptionSpec := ⟨'V', "version", .version, "output the version number"⟩

/-- The option for the engine. -/
def kindOption : OptionSpec :=
  ⟨'k', "kind", .choice "kind" (Engine.all.map Engine.text), "Target kind"⟩

/-- The word that asks for help. -/
def helpWord : String := "help"

/-- The commands. -/
def commands : List CommandSpec :=
  [{ name := "inspect"
     description := "List the attribute paths of a group description"
     operands := [("file", "Group description (JSON file)")] },
    { name := "compare"
      description := "Compare the attribute coverage of two group descriptions"
      operands :=
        [("a", "First group description (JSON file)"),
          ("b", "Second group description (JSON file)")] },
    { name := "specialize"
      description := "Print a group description specialized for an engine"
      operands := [("file", "Group description (JSON file)")]
      options := [kindOption] }]

/-! ### Scanning -/

/-- What a scan finds: operands, arguments left for the next scan, and the value of the option. -/
structure Scan where
  operands : List String := []
  unknown : List String := []
  value : Option String := none
deriving DecidableEq, Inhabited

/-- Whether an argument has the form of an option. -/
def looksLikeOption (arg : String) : Bool :=
  match arg.toList with
  | '-' :: _ :: _ => true
  | _ => false

/-- An option with a value in the same argument, such as `-kfetch` or `--kind=fetch`. -/
def attached? (options : List OptionSpec) (arg : String) : Option (OptionSpec × String) :=
  match arg.toList with
  | '-' :: c :: v :: rest =>
    if c ≠ '-' then
      (options.find? fun o => o.letter = c).map fun o => (o, String.ofList (v :: rest))
    else
      let cs := v :: rest
      let word := cs.takeWhile (· ≠ '=')
      match word, cs.dropWhile (· ≠ '=') with
      | _ :: _, '=' :: value =>
        ((options.filter fun o => o.role ≠ .version).find? fun o => o.word.toList = word).map
          fun o => (o, String.ofList value)
      | _, _ => none
  | _ => none

/-- Take a value for an option. -/
def takeValue (o : OptionSpec) (value : String) (s : Except Stop Scan) : Except Stop Scan :=
  match o.role with
  | .version => .error .version
  | .choice _ choices =>
    if value ∈ choices then s.map fun s => { s with value := s.value.or (some value) }
    else .error (.badValue o.flags value choices)

/-- Put an argument in front of what a scan finds. -/
def Scan.put (toUnknown : Bool) (arg : String) (s : Scan) : Scan :=
  if toUnknown then { s with unknown := arg :: s.unknown }
  else { s with operands := arg :: s.operands }

/-- Scan arguments for the given options. -/
def scan (options : List OptionSpec) (toUnknown : Bool) : List String → Except Stop Scan
  | [] => .ok {}
  | arg :: rest =>
    if arg = "--" then
      .ok (if toUnknown then { unknown := arg :: rest } else { operands := rest })
    else if looksLikeOption arg then
      match options.find? fun o => o.is arg with
      | some o =>
        match o.role, rest with
        | .version, _ => .error .version
        | .choice _ _, [] => .error (.missingValue o.flags)
        | .choice _ _, value :: rest => takeValue o value (scan options toUnknown rest)
      | none =>
        match attached? options arg with
        | some (o, value) => takeValue o value (scan options toUnknown rest)
        | none => (scan options true rest).map (Scan.put true arg)
    else (scan options toUnknown rest).map (Scan.put toUnknown arg)

/-! ### Requests -/

/-- What the program is asked to do. -/
inductive Request where
  | inspect (file : String)
  | compare (a b : String)
  | specialize (file : String) (engine : Engine)
deriving DecidableEq

namespace Request

/-- The files that are read, in order. -/
def files : Request → List String
  | inspect file => [file]
  | compare a b => [a, b]
  | specialize file _ => [file]

end Request

/-- The fault of an option that neither a command nor the program knows. -/
def unknownOption (options : List OptionSpec) (flag : String) : Stop :=
  let known := options.map OptionSpec.long ++ ["--" ++ helpWord, versionOption.long]
  .unknownOption flag (if flag.startsWith "--" then suggestion flag known else "")

/-- Whether help is asked for. -/
def asksForHelp (args : List String) : Bool := args.any fun arg => arg = "-h" || arg = "--help"

/-- The request of a command with all its operands. -/
def toRequest (c : CommandSpec) (operands : List String) (value : Option String) :
    Except Stop Request :=
  match c.name, operands, value.bind Engine.ofText? with
  | "inspect", file :: _, _ => .ok (.inspect file)
  | "compare", a :: b :: _, _ => .ok (.compare a b)
  | "specialize", file :: _, some engine => .ok (.specialize file engine)
  | _, _, _ => .error .nothingToDo

/-- Read the arguments of a command. -/
def readCommand (c : CommandSpec) (operands unknown : List String) : Except Stop Request := do
  let s ← scan c.options false unknown
  if asksForHelp s.unknown then throw (.help (some c.name))
  match c.options, s.value with
  | o :: _, none => throw (.missingOption o.flags)
  | _, _ =>
    match s.unknown with
    | flag :: _ => throw (unknownOption c.options flag)
    | [] =>
      let operands := operands ++ s.operands
      match c.operands.drop operands.length with
      | (name, _) :: _ => throw (.missingArgument name)
      | [] => toRequest c operands s.value

/-- Read the arguments of the program. -/
def readArguments (args : List String) : Except Stop Request := do
  let s ← scan [versionOption] false args
  match s.operands, s.unknown with
  | name :: operands, unknown =>
    match commands.find? fun c => c.name = name with
    | some c => readCommand c operands unknown
    | none =>
      if name = helpWord then
        throw (.help ((operands.head?).filter fun n => commands.any fun c => c.name = n))
      else if asksForHelp unknown then throw (.help none)
      else
        let names := commands.map CommandSpec.name ++ [helpWord]
        throw (.unknownCommand name (suggestion name names))
  | [], flag :: unknown =>
    if asksForHelp (flag :: unknown) then throw (.help none)
    else throw (unknownOption [] flag)
  | [], [] => throw .nothingToDo

end AttributeGraph.CommandLine
