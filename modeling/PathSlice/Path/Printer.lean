import PathSlice.Path.Basic
import PathSlice.Text.Layout

/-! The written form of a path: the records of every frame, innermost first, each frame indented one
level more than the one before. -/
namespace PathSlice.Path

/-- What every location of a frame holds, in the order in which the locations were created. -/
def heldBy (f : Frame) : List Deposit :=
  Ascending.ofList (compareOn (·.location.id)) f.deposits

def frameLines (m : Marks) (depth : Nat) (f : Frame) : List String :=
  let outer := Text.indent depth
  let inner := Text.indent (depth + 1)
  let pointers := f.pointers.reverse.mergeSort fun a b => a.version.id ≤ b.version.id
  let flows := Ascending.ofList
    (fun a b => (compareOn (·.target.id) a b).then (compareOn (·.source.id) a b)) f.flows
  (if depth = 0 then [] else [outer ++ "--------- Parent Dependencies ----------"])
    ++ [outer ++ "EQUALITIES:"]
    ++ pointers.map (fun e => inner ++ m.version e.version ++ " == " ++ m.location e.location)
    ++ [outer ++ "STORAGE:"]
    ++ (heldBy f).map (fun e => inner ++ m.location e.location ++ " |-> " ++ m.version e.version)
    ++ [outer ++ "FLOWDEPENDENCY:"]
    ++ flows.map (fun e => inner ++ m.version e.target ++ " <- " ++ m.version e.source
        ++ (match e.via with | some l => " via " ++ m.location l | none => ""))

def render (p : Path) (m : Marks) : String :=
  Text.lines (p.frames.zipIdx.flatMap fun (f, depth) => frameLines m depth f)

def summary (p : Path) : String :=
  String.intercalate " <- " (p.frames.map fun f => "Dependency#" ++ toString f.id)

end PathSlice.Path
