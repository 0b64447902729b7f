import PathSlice.Order.Agenda
import PathSlice.Path.Basic

/-! Flow along a whole path: all versions that a version was computed from, directly or indirectly,
and those among them that were computed from nothing. -/
namespace PathSlice.Path

def sourceIds (p : Path) : List Nat :=
  p.flows.map (·.source.id)

/-- A version and everything it was computed from, in order of creation. -/
def closure (p : Path) (target : Version) : List Version :=
  Agenda.run Version.id
    (fun v found => (p.sourcesOf v, Ascending.insert Version.compare v found))
    (fun _ found => found)
    (target.id :: p.sourceIds) [target] []

/-- The versions in the closure that were computed from nothing, in order of creation. -/
def ends (p : Path) (target : Version) : List Version :=
  (p.closure target).filter fun v => (p.sourcesOf v).isEmpty

end PathSlice.Path
