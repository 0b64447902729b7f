import PathSlice.Order.Ascending
import PathSlice.Path.Version

/-! What was found to matter: the core versions, the core locations, and for every frame the
locations that are core to it. Marks are shared by all paths and are never taken back. -/
namespace PathSlice

structure Marks where
  /-- Identities of core versions, ascending. -/
  versions : List Nat := []
  /-- Identities of core locations, ascending. -/
  locations : List Nat := []
  /-- Core locations of frames, each with the identity of the frame, the latest first. -/
  frames : List (Nat × Location) := []

namespace Marks

def isCore (m : Marks) (v : Version) : Bool :=
  m.versions.contains v.id

def isCoreLocation (m : Marks) (l : Location) : Bool :=
  m.locations.contains l.id

def addVersion (m : Marks) (v : Version) : Marks :=
  { m with versions := Ascending.insert compare v.id m.versions }

def addLocation (m : Marks) (l : Location) : Marks :=
  { m with locations := Ascending.insert compare l.id m.locations }

def addToFrame (m : Marks) (frame : Nat) (l : Location) : Marks :=
  { m with frames := (frame, l) :: m.frames }

/-- The locations that are core to a frame, in order of creation. -/
def ofFrame (m : Marks) (frame : Nat) : List Location :=
  Ascending.ofList Location.compare ((m.frames.filter (·.1 == frame)).map (·.2))

def version (m : Marks) (v : Version) : String :=
  "V" ++ (if m.isCore v then "(I)" else "") ++ "[" ++ v.value.render ++ ":" ++ v.term.render ++ "]#"
    ++ toString v.id

def location (m : Marks) (l : Location) : String :=
  "A" ++ (if l.hasConstantAddress then "" else "(symbolic)")
    ++ (if m.isCoreLocation l then "(I)" else "")
    ++ "[" ++ l.site.render ++ ":" ++ l.address.render ++ "+" ++ l.offset.render ++ "]#"
    ++ toString l.id

end Marks

end PathSlice
