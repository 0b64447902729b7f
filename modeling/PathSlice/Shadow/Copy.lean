import PathSlice.Effect.State
import PathSlice.Shadow.Session

/-! Copies of locations over shadows. -/
namespace PathSlice.Recorder

/-- A copy of a location with its address and offset over shadows, which no frame knows. It is core
if the location is. The shadows used stay noted if an array has none; there is no copy then. -/
def shadowCopy (image : SymArray → Option SymArray) (l : Location) (used : List SymArray) :
    Recorder (Except SymArray Location × List SymArray) := do
  match (l.substitute image).run used with
  | (.ok (address, offset), used) => return (.ok (← relocate l address offset), used)
  | (.error a, used) => return (.error a, used)

end PathSlice.Recorder
