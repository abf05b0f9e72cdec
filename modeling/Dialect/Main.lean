import Dialect.CommandLine

/-!
# The program

Reads the command line, the schema documents and, in the end, performs the changes that a run
settled on. All that is decided is decided elsewhere; here files are read and written.
-/

namespace Dialect.Main

open Dialect.CommandLine (Outcome Request)
open Dialect.Files (Action Refusal)
open Dialect.Run (Options Source)

/-- The answer of an operation on files, or the refusal of the path it concerned. -/
def attempt (path : String) (operation : IO α) : IO (Except Refusal α) := do
  try
    return .ok (← operation)
  catch _ =>
    return .error ⟨path⟩

/-- The names of the files in a directory. -/
def fileNames (directory : String) : IO (List String) := do
  let entries ← (← IO.FS.realPath directory).readDir
  let files ← entries.toList.filterM fun entry => return !(← entry.path.isDir)
  return files.map (·.fileName)

/-- The schema documents in a directory, in order. -/
def readSources (directory : String) : IO (Except Refusal (List Source)) := do
  match ← attempt directory (fileNames directory) with
  | .error refusal => return .error refusal
  | .ok names =>
    let mut sources := []
    for name in Run.schemaNames names do
      let path := Files.Path.join directory name
      match ← attempt path (IO.FS.readBinFile path) with
      | .error refusal => return .error refusal
      | .ok bytes => sources := sources ++ [Source.ofFile directory name bytes.toList]
    return .ok sources

/-- Puts a file beside its place and moves it there, so its place never holds half of it. -/
def putFile (path : String) (bytes : List UInt8) : IO (Except Refusal Unit) := do
  let beside := Files.Path.join (Files.Path.parent path) ".unfinished"
  match ← attempt (Files.Path.parent path) (IO.FS.writeBinFile beside ⟨bytes.toArray⟩) with
  | .error refusal => return .error refusal
  | .ok _ =>
    let moved ← attempt path (IO.FS.rename beside path)
    if let .error _ := moved then
      let _ ← attempt beside (IO.FS.removeFile beside)
    return moved

/-- Performs a change. -/
def perform : Action → IO (Except Refusal Unit)
  | .makeDirectory path => attempt path (IO.FS.createDirAll path)
  | .write path bytes => putFile path bytes

/-- Performs changes one after the other, up to the first that is refused. -/
def performAll : List Action → IO (Except Refusal Unit)
  | [] => return .ok ()
  | action :: rest => do
    match ← perform action with
    | .error refusal => return .error refusal
    | .ok _ => performAll rest

/-- Runs with the given options. -/
def generate (options : Options) : IO Outcome := do
  match ← readSources options.schemaDirectory with
  | .error refusal => return .ofRefusal refusal
  | .ok sources =>
    let (report, actions) := Run.outcome options sources
    match ← performAll actions with
    | .error refusal => return .ofRefusal refusal
    | .ok _ => return .ofReport report

end Dialect.Main

open Dialect in
/-- Does what the arguments ask for and ends with its exit code. -/
def main (arguments : List String) : IO UInt32 := do
  let outcome ← match CommandLine.request arguments with
    | .generate options => Main.generate options
    | other => pure (.withoutRun other)
  for complaint in outcome.complaints do
    IO.eprintln complaint
  IO.print outcome.output
  return outcome.code
