import PathSlice.Effect.State
import PathSlice.Path.Flow

/-! What a version is the address of. -/
namespace PathSlice.Recorder

/-- The location that a version is the address of. An argument of the entry point is the address of
memory that the program did not allocate, so a location is made up for it. -/
def resolve? (v : Version) : Recorder (Option Location) := do
  match (← get).path.pointee? v with
  | some l => return some l
  | none =>
    if v.value.isEntryArgument then
      let l ← newLocation v.value v.term
      let argument ← newVersion v.value v.term
      addPointer argument l
      return some l
    else return none

def resolveEach : List Version → Recorder (List Location)
  | [] => return []
  | v :: vs => do
    match ← resolve? v with
    | some l => return l :: (← resolveEach vs)
    | none => resolveEach vs

/-- The locations that a version is the address of, by itself or through the versions that it was
ultimately computed from. -/
def resolveAll (v : Version) : Recorder (List Location) := do
  match ← resolve? v with
  | some l => return [l]
  | none => resolveEach ((← get).path.ends v)

end PathSlice.Recorder
