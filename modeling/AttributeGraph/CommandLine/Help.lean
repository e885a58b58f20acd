/-
The help texts of the command line.
-/
import AttributeGraph.CommandLine.Arguments

namespace AttributeGraph.CommandLine

/-- The name of the program. -/
def programName : String := "attrgroups"

/-- What the program does. -/
def programDescription : String :=
  "Inspect, compare and specialize attribute group descriptions"

/-- The version of the program. -/
def versionText : String := "0.1.0"

/-- Pairs of a term and its description as lines in two columns. -/
def columns (entries : List (String × String)) : List String :=
  let width := entries.foldl (fun w e => max w e.1.length) 0 + 2
  entries.map fun e =>
    "  " ++ e.1 ++ String.ofList (List.replicate (width - e.1.length) ' ') ++ e.2

/-- The term of an option and what it does. -/
def optionEntry (o : OptionSpec) : String × String :=
  let choices := match o.role with
    | .version => ""
    | .choice _ choices =>
      let list := ", ".intercalate (choices.map Json.quote)
      s!" (choices: {list})"
  (o.flags, o.description ++ choices)

/-- The entry for the option that asks for help. -/
def helpEntry : String × String := ("-h, --help", "display help for command")

/-- How a command is called. -/
def CommandSpec.usage (c : CommandSpec) : String :=
  " ".intercalate
    (c.name :: (if c.options.isEmpty then [] else ["[options]"]) ++
      c.operands.map fun o => s!"<{o.1}>")

/-- A headed list of lines. -/
def helpSection (title : String) (lines : List String) : List String := "" :: s!"{title}:" :: lines

/-- The help on the program. -/
def programHelp : String :=
  "\n".intercalate
    ([s!"Usage: {programName} [options] [command]", "", programDescription] ++
      helpSection "Options" (columns [optionEntry versionOption, helpEntry]) ++
      helpSection "Commands"
        (columns ((commands.map fun c => (c.usage, c.description)) ++
          [("help [command]", "display help for command")])) ++
      [""])

/-- The help on a command. -/
def commandHelp (c : CommandSpec) : String :=
  let operands := " ".intercalate (c.operands.map fun o => s!"<{o.1}>")
  "\n".intercalate
    ([s!"Usage: {programName} {c.name} [options] {operands}", "", c.description] ++
      helpSection "Arguments" (columns c.operands) ++
      helpSection "Options" (columns (c.options.map optionEntry ++ [helpEntry])) ++
      [""])

/-- The help on a command of the given name, or on the program. -/
def helpText (name : Option String) : String :=
  match name.bind fun n => commands.find? fun c => c.name = n with
  | some c => commandHelp c
  | none => programHelp

end AttributeGraph.CommandLine
