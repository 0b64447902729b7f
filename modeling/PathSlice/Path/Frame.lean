import PathSlice.Order.Ascending
import PathSlice.Path.Version

/-! A frame is a journal of what was learned on one stretch of a path. Every list of a frame stands
latest first, so what holds now is what is found first. -/
namespace PathSlice

/-- A version is the address of a location. -/
structure Pointer where
  version : Version
  location : Location

/-- A version was put into a location. -/
structure Deposit where
  location : Location
  version : Version

/-- `target` was computed from `source`, which was loaded from `via` on the way if that is given. -/
structure Flow where
  target : Version
  source : Version
  via : Option Location

structure Frame where
  id : Nat
  versions : List Version := []
  locations : List Location := []
  pointers : List Pointer := []
  deposits : List Deposit := []
  flows : List Flow := []

namespace Frame

def addVersion (f : Frame) (v : Version) : Frame :=
  { f with versions := v :: f.versions }

def addLocation (f : Frame) (l : Location) : Frame :=
  { f with locations := l :: f.locations }

def addPointer (f : Frame) (v : Version) (l : Location) : Frame :=
  { f with pointers := ⟨v, l⟩ :: f.pointers }

def addDeposit (f : Frame) (l : Location) (v : Version) : Frame :=
  { f with deposits := ⟨l, v⟩ :: f.deposits }

def hasFlow (f : Frame) (source target : Version) : Bool :=
  f.flows.any fun e => e.target.id == target.id && e.source.id == source.id

/-- Records a flow. Of several flows between two versions only the first is kept. -/
def addFlow (f : Frame) (source target : Version) (via : Option Location) : Frame :=
  if f.hasFlow source target then f else { f with flows := ⟨target, source, via⟩ :: f.flows }

/-- The versions of a value that the frame created, in order of creation. -/
def versionsOf (f : Frame) (v : Value) : List Version :=
  (f.versions.filter (·.value.id == v.id)).reverse

/-- The flows into a version, in the order in which their sources were created. -/
def flowsInto (f : Frame) (target : Version) : List Flow :=
  Ascending.ofList (compareOn (·.source.id)) (f.flows.filter (·.target.id == target.id))

def sourcesOf (f : Frame) (target : Version) : List Version :=
  (f.flowsInto target).map (·.source)

def lastDeposit? (f : Frame) (v : Version) : Option Location :=
  (f.deposits.find? (·.version.id == v.id)).map (·.location)

end Frame

end PathSlice
