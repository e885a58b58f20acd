/-
The program: it reads the files that its arguments name, and writes what
`CommandLine.respond` gives.
-/
import AttributeGraph.CommandLine

open AttributeGraph CommandLine

/-- Read a file. -/
def readNamed (name : String) : IO (String × Except FileProblem String) := do
  try
    return (name, .ok (← IO.FS.readFile name))
  catch e =>
    match e with
    | .inappropriateType .. => return (name, .error .notDirectory)
    | _ => return (name, .error .notFound)

/-- Run the program. -/
def main (args : List String) : IO UInt32 := do
  let names := match readArguments args with
    | .ok request => request.files
    | .error _ => []
  let contents ← names.mapM readNamed
  let terminal : Terminal :=
    { noColor := ← IO.getEnv "NO_COLOR", forceColor := ← IO.getEnv "FORCE_COLOR" }
  let surroundings : Surroundings :=
    { files := fun name => (contents.lookup name).getD (.error .notFound)
      terminal := terminal
      production := (← IO.getEnv "NODE_ENV") = some "production" }
  let response := respond surroundings args
  IO.print response.stdout
  IO.eprint response.stderr
  return response.exit.toUInt32
