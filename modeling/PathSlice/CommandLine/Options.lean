import PathSlice.CommandLine.Words

/-! The options of the command line. -/
namespace PathSlice.CommandLine

structure Options where
  /-- Report core stores over shadow arrays. -/
  existential : Bool := true
  /-- Report every store, not just the core ones. -/
  allStores : Bool := false
  /-- Print the frames after a replay. -/
  dump : Bool := false
  traces : List String := []
  deriving DecidableEq

inductive Switch where
  | noExistential
  | allStores
  | dump
  deriving DecidableEq

/-- Why a command line is not carried out. Asking for help or for the version is among the reasons.
-/
inductive Refusal where
  | help
  | version
  | unknownArgument
  /-- A switch was given a value. -/
  | tooManyValues
  /-- A switch was given twice. -/
  | conflict
  /-- A quote is not closed. -/
  | mismatchedQuotes
  deriving DecidableEq

inductive Long where
  | switch (s : Switch)
  | help
  | version

def long? : String → Option Long
  | "no_existential" => some (.switch .noExistential)
  | "all_stores" => some (.switch .allStores)
  | "dump" => some (.switch .dump)
  | "help" => some .help
  | "version" => some .version
  | _ => none

inductive Argument where
  | switch (s : Switch)
  | trace (name : String)

def argument (arg : String) : Except Refusal Argument :=
  match arg.toList with
  | '-' :: '-' :: name =>
    let before := name.takeWhile (· != '=')
    match long? (String.ofList before) with
    | none => throw .unknownArgument
    | some l =>
      if before.length < name.length then throw .tooManyValues
      else match l with
        | .switch s => return .switch s
        | .help => throw .help
        | .version => throw .version
  | '-' :: c :: _ =>
    throw (if c = 'h' then .help else if c = 'V' then .version else .unknownArgument)
  | _ => return .trace arg

/-- Reads arguments from left to right; every switch may be given once. -/
def arguments : List String → List Switch → Except Refusal (List Switch × List String)
  | [], switches => return (switches, [])
  | arg :: rest, switches => do
    match ← argument arg with
    | .switch s =>
      if switches.contains s then throw .conflict
      arguments rest (s :: switches)
    | .trace name =>
      let (switches, traces) ← arguments rest switches
      return (switches, name :: traces)

namespace Options

/-- Adds what a list of arguments asks for. Everything behind the first double dash is the name of a
trace. -/
def addArguments (o : Options) (args : List String) : Except Refusal Options := do
  let (switches, traces) ← arguments (args.takeWhile (· != "--")) []
  return {
    existential := o.existential && !switches.contains .noExistential
    allStores := o.allStores || switches.contains .allStores
    dump := o.dump || switches.contains .dump
    traces := o.traces ++ traces ++ (args.dropWhile (· != "--")).tail }

def addLine (o : Options) (line : String) : Except Refusal Options :=
  match splitWords line with
  | some args => o.addArguments args
  | none => throw .mismatchedQuotes

end Options

end PathSlice.CommandLine
