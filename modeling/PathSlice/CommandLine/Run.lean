import PathSlice.Json.Printer
import PathSlice.Replay.Format
import PathSlice.Replay.Report

/-! The command line as a function: from the arguments and the files that can be read to what is
printed and the code it ends with. -/
namespace PathSlice.CommandLine

/-- Why a file cannot be read, as the system tells it. -/
structure FileFault where
  code : Nat
  kind : String
  message : String

namespace FileFault

def notFound : FileFault := ⟨2, "NotFound", "No such file or directory"⟩

def notDirectory : FileFault := ⟨20, "NotADirectory", "Not a directory"⟩

def isDirectory : FileFault := ⟨21, "IsADirectory", "Is a directory"⟩

def permissionDenied : FileFault := ⟨13, "PermissionDenied", "Permission denied"⟩

def nameTooLong : FileFault := ⟨36, "InvalidFilename", "File name too long"⟩

def ofCode? (code : Nat) : Option FileFault :=
  [notFound, permissionDenied, notDirectory, isDirectory, nameTooLong].find? (·.code == code)

def sentence (f : FileFault) : String :=
  f.message ++ " (os error " ++ toString f.code ++ ")"

def detail (f : FileFault) : String :=
  "Os \x7b code: " ++ toString f.code ++ ", kind: " ++ f.kind ++ ", message: "
    ++ Text.quoted f.message ++ " \x7d"

end FileFault

/-- Why a trace file is not replayed to its end. -/
inductive TraceFault where
  | file (fault : FileFault)
  | text (fault : Json.ReadFault)
  | replay (fault : ReplayFault)

def TraceFault.message : TraceFault → String
  | .file f => "IO error: " ++ f.sentence
  | .text _ => "JSON error"
  | .replay (.name (.unknown name)) => "value " ++ name ++ " is used before it is declared"
  | .replay (.name (.duplicate name)) => "value " ++ name ++ " is declared more than once"
  | .replay (.event index fault) => "event " ++ toString index ++ ": " ++ fault.message

def TraceFault.detail : TraceFault → String
  | .file f => "Io(" ++ f.detail ++ ")"
  | .text _ => "Json"
  | .replay (.name (.unknown name)) => "UnknownValueName(" ++ Text.quoted name ++ ")"
  | .replay (.name (.duplicate name)) => "DuplicateValueName(" ++ Text.quoted name ++ ")"
  | .replay (.event index fault) =>
    "Dependency \x7b index: " ++ toString index ++ ", source: " ++ fault.detail ++ " \x7d"

/-- Replays the content of a trace file, the first free identity being `next`. -/
def replayFile (content : Except FileFault String) (options : Options) (next : Nat) :
    Except TraceFault (Report × Nat) :=
  match content with
  | .error f => .error (.file f)
  | .ok text =>
    match Trace.ofString text with
    | .error f => .error (.text f)
    | .ok trace =>
      match Replay.run trace options next with
      | .error f => .error (.replay f)
      | .ok result => .ok result

structure Outcome where
  code : Nat := 0
  out : String := ""
  err : String := ""

namespace Outcome

def error (o : Outcome) (what : String) : Outcome :=
  { o with code := 1, err := o.err ++ "Error: " ++ what ++ "\n" }

def print (o : Outcome) (name : String) (r : Report) : Outcome :=
  { o with
    out := o.out ++ r.toJson.pretty ++ "\n"
    err := o.err ++ (match r.dump with | some d => d ++ "\n" | none => "")
      ++ String.join (r.failures.map fun f => name ++ ": " ++ f ++ "\n") }

end Outcome

/-- Replays traces one after the other. Identities go on from one trace to the next. -/
def replayAll (options : Options) :
    List (String × Except FileFault String) → Nat → Nat → Outcome → Outcome
  | [], _, failures, o =>
    if failures = 0 then o
    else o.error (Text.quoted (toString failures ++ " expectations failed"))
  | (name, content) :: rest, next, failures, o =>
    match replayFile content options next with
    | .error f => o.error f.detail
    | .ok (report, next) =>
      replayAll options rest next (failures + report.failures.length) (o.print name report)

def versionText : String := "slicer v0.1.0\n"

def helpText : String :=
  "Replays a dependency trace and reports the stores an interpolant depends on.\n\n"
    ++ "Usage: slicer [OPTIONS] [TRACE]...\n\n"
    ++ "Arguments:\n"
    ++ "  [TRACE]...  JSON dependency traces to replay.\n\n"
    ++ "Options:\n"
    ++ "      --no_existential  Do not rewrite core stores over shadow arrays.\n"
    ++ "      --all_stores      Report every store, not just the core ones.\n"
    ++ "      --dump            Print the dependency frames to stderr after the replay.\n"
    ++ "  -h, --help            Print help\n"
    ++ "  -V, --version         Print version\n"

/-- The options of the environment and of the arguments, or how the command ends without them. -/
def readOptions (flags : Option String) (args : List String) : Except Outcome Options := do
  let options ←
    match flags.map (Options.addLine {}) with
    | none => pure {}
    | some (.ok options) => pure options
    | some (.error .mismatchedQuotes) => throw (Outcome.error {} "Split(MismatchedQuotes)")
    | some (.error _) => throw (Outcome.error {} "Clap")
  match options.addArguments args with
  | .ok options => return options
  | .error .help => throw { out := helpText }
  | .error .version => throw { out := versionText }
  | .error _ => throw { code := 2, err := "error: unexpected arguments\n" }

def run (read : String → Except FileFault String) (flags : Option String) (args : List String) :
    Outcome :=
  match readOptions flags args with
  | .error o => o
  | .ok options => replayAll options (options.traces.map fun name => (name, read name)) 1 0 {}

end PathSlice.CommandLine
