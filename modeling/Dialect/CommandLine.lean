import Dialect.Run.Generate
import Dialect.Text.Numeral

/-!
# The command line

Two directories and a few options. Arguments are read from left to right, and the first that cannot
be accepted decides; a request for help or for the version takes effect where it stands.
-/

namespace Dialect.CommandLine

open Dialect.Files (Refusal Tree)
open Dialect.Run (Options Report)

/-- What the arguments ask for. -/
inductive Request where
  | generate (options : Options)
  | help
  | version
  /-- The arguments are not acceptable. -/
  | refused
  deriving DecidableEq, Repr

/-- The arguments read so far. -/
structure Reading where
  directories : List String := []
  workers : Option Nat := none
  bigEndian : Bool := false
  deriving DecidableEq, Repr

namespace Reading

/-- Takes a directory; there are two at most, and neither is empty. -/
def directory? (r : Reading) (path : String) : Option Reading :=
  if path = "" ∨ 2 ≤ r.directories.length then none
  else some { r with directories := r.directories ++ [path] }

/-- Takes the number of workers, which is given once at most. -/
def workers? (r : Reading) (value : String) : Option Reading :=
  match r.workers, (Text.unsignedNumeral? 10 value.toList).filter (· < UInt64.size) with
  | none, some n => some { r with workers := some n }
  | _, _ => none

/-- Takes the wish for the other byte order, which is given once at most. -/
def bigEndian? (r : Reading) : Option Reading :=
  if r.bigEndian then none else some { r with bigEndian := true }

/-- What the arguments ask for, all of them read. -/
def finish (r : Reading) : Request :=
  match r.directories with
  | [schemas, output] =>
    .generate
      { schemaDirectory := schemas
        outputDirectory := output
        workers := r.workers.getD Work.defaultWorkers
        order := if r.bigEndian then .big else .little }
  | _ => .refused

end Reading

/-- What one argument, or one letter of an argument, says. -/
inductive Item where
  | directory (path : String)
  | bigEndian
  | help
  | version
  /-- More log output is wanted. -/
  | verbose
  | workers (value : String)
  /-- No such option, an option without its value, or a value without its option. -/
  | unknown
  deriving DecidableEq, Repr

/-- What the letters behind a single hyphen say, and whether the next argument is a value for the
last of them. A letter that wants a value takes the rest of the letters for it. -/
def letters : List Char → List Item × Bool
  | [] => ([], false)
  | 'h' :: rest => let p := letters rest; (.help :: p.1, p.2)
  | 'V' :: rest => let p := letters rest; (.version :: p.1, p.2)
  | 'v' :: rest => let p := letters rest; (.verbose :: p.1, p.2)
  | ['w'] => ([], true)
  | 'w' :: '=' :: value => ([.workers (String.ofList value)], false)
  | 'w' :: value => ([.workers (String.ofList value)], false)
  | _ => ([.unknown], false)

/-- What the word behind two hyphens says, and whether the next argument is its value. -/
def word (s : List Char) : List Item × Bool :=
  match String.ofList (s.takeWhile (· != '=')), s.dropWhile (· != '=') with
  | "workers", [] => ([], true)
  | "workers", _ :: value => ([.workers (String.ofList value)], false)
  | "big-endian", [] => ([.bigEndian], false)
  | "help", [] => ([.help], false)
  | "version", [] => ([.version], false)
  | "verbose", [] => ([.verbose], false)
  | _, _ => ([.unknown], false)

/-- What an argument says, and whether the next one is a value for it. A single hyphen is a
directory like any other text. -/
def argument (s : String) : List Item × Bool :=
  match s.toList with
  | '-' :: '-' :: rest => word rest
  | '-' :: c :: rest => letters (c :: rest)
  | _ => ([.directory s], false)

/-- An argument that can be the value of an option. -/
def valueItem (s : String) : Item := if s.toList.head? = some '-' then .unknown else .workers s

/-- What the arguments say. Two hyphens alone make all that follow directories. -/
def items : List String → List Item
  | [] => []
  | s :: rest =>
    if s = "--" then rest.map .directory
    else
      match argument s, rest with
      | (own, false), rest => own ++ items rest
      | (own, true), [] => own ++ [.unknown]
      | (own, true), value :: rest => own ++ valueItem value :: items rest

/-- Goes on to read as long as what was read is acceptable. -/
def Reading.request (r : Reading) : List Item → Request
  | [] => r.finish
  | .help :: _ => .help
  | .version :: _ => .version
  | .unknown :: _ => .refused
  | .verbose :: rest => request r rest
  | .bigEndian :: rest =>
    match r.bigEndian? with
    | none => .refused
    | some r => request r rest
  | .workers value :: rest =>
    match r.workers? value with
    | none => .refused
    | some r => request r rest
  | .directory path :: rest =>
    match r.directory? path with
    | none => .refused
    | some r => request r rest

/-- What the arguments ask for. -/
def request (arguments : List String) : Request := Reading.request {} (items arguments)

/-! ## What is printed -/

/-- How the program ends: its exit code, and what it prints for the user and about faults. -/
structure Outcome where
  code : UInt32
  output : String := ""
  complaints : List String := []
  deriving DecidableEq, Repr

/-- The faults of a run, each with the path of its document. -/
def faultLines (r : Report) : List String :=
  r.documents.flatMap fun d => d.faultMessages.map fun m => s!"{d.path}: {m}"

/-- The outcome of a run that came to its end. -/
def Outcome.ofReport (r : Report) : Outcome where
  code := if r.faultCount = 0 then 0 else 1
  output := s!"mavgen: {r.documents.length} document(s), {r.messageCount} message(s), " ++
    s!"{r.faultCount} error(s)\n"
  complaints := faultLines r

/-- The outcome of a run that the file system stopped. -/
def Outcome.ofRefusal (r : Refusal) : Outcome where
  code := 1
  complaints := [s!"Error: {r.path}: refused by the file system"]

/-- How to call the program. -/
def usage : String := "Usage: mavgen [OPTIONS] <SCHEMA_DIR> <OUTPUT_DIR>\n"

/-- The answer to a request for help. -/
def help : String :=
  "MAVLink-style message code generator\n\n" ++ usage ++
  "\nArguments:\n" ++
  "  <SCHEMA_DIR>  Directory holding the schema documents\n" ++
  "  <OUTPUT_DIR>  Directory the artifacts are written to\n" ++
  "\nOptions:\n" ++
  "  -w, --workers <WORKERS>  Compile threads (defaults to available parallelism)\n" ++
  "      --big-endian         Lay out payloads big-endian instead of little-endian\n" ++
  "  -v, --verbose...         More log output (-v debug, -vv trace)\n" ++
  "  -h, --help               Print help\n" ++
  "  -V, --version            Print version\n"

/-- The answer to a request for the version. -/
def version : String := "mavgen 0.1.0\n"

/-- The outcome of arguments that ask for no run. -/
def Outcome.withoutRun : Request → Outcome
  | .help => { code := 0, output := help }
  | .version => { code := 0, output := version }
  | _ => { code := 2, complaints := [usage] }

/-- Runs the program on a file tree. -/
def run (arguments : List String) (t : Tree) : Tree × Outcome :=
  match request arguments with
  | .generate options =>
    match Run.generate options t with
    | (t, .ok report) => (t, .ofReport report)
    | (t, .error refusal) => (t, .ofRefusal refusal)
  | other => (t, .withoutRun other)

end Dialect.CommandLine
