import PathSlice.Path.Frame
import PathSlice.Path.Marks

/-! A path is a frame over the frames of its history. It reads what any of them recorded, the latest
record first, and writes to its own frame only; paths that were forked share their history. -/
namespace PathSlice

structure Path where
  current : Frame
  /-- The frames of the history, innermost first. -/
  ancestors : List Frame := []

namespace Path

/-- The frames of a path, innermost first. -/
def frames (p : Path) : List Frame :=
  p.current :: p.ancestors

def root (id : Nat) : Path :=
  ⟨{ id := id }, []⟩

/-- A new frame over the whole path. -/
def fork (p : Path) (id : Nat) : Path :=
  ⟨{ id := id }, p.frames⟩

/-- A new frame in place of the current one, unless that is the root. -/
def backtrack? (p : Path) (id : Nat) : Option Path :=
  match p.ancestors with
  | [] => none
  | _ :: _ => some ⟨{ id := id }, p.ancestors⟩

/-- The path as its `n`-th ancestor sees it. -/
def up? (p : Path) (n : Nat) : Option Path :=
  match p.frames.drop n with
  | [] => none
  | f :: ancestors => some ⟨f, ancestors⟩

def record (p : Path) (change : Frame → Frame) : Path :=
  { p with current := change p.current }

/-- All versions, the latest first. -/
def versions (p : Path) : List Version :=
  p.frames.flatMap (·.versions)

def locations (p : Path) : List Location :=
  p.frames.flatMap (·.locations)

def pointers (p : Path) : List Pointer :=
  p.frames.flatMap (·.pointers)

def deposits (p : Path) : List Deposit :=
  p.frames.flatMap (·.deposits)

def flows (p : Path) : List Flow :=
  p.frames.flatMap (·.flows)

def latest? (p : Path) (v : Value) : Option Version :=
  p.versions.find? (·.value.id == v.id)

def latestLocation? (p : Path) (site : Value) (address : Term) : Option Location :=
  p.locations.find? (·.isAt site address)

/-- The location that a version is known to be the address of. -/
def pointee? (p : Path) (v : Version) : Option Location :=
  (p.pointers.find? (·.version.id == v.id)).map (·.location)

def content? (p : Path) (l : Location) : Option Version :=
  (p.deposits.find? (·.location.id == l.id)).map (·.version)

/-- The versions that a version was directly computed from, those found by the outermost frame
first. -/
def sourcesOf (p : Path) (target : Version) : List Version :=
  p.frames.reverse.flatMap (·.sourcesOf target)

/-- Of the locations with one identity keeps the first. -/
def distinct (ls : List Location) : List Location :=
  ls.foldl (fun acc l => if acc.any (·.id == l.id) then acc else acc ++ [l]) []

/-- All locations, those of the outermost frame first, in order of creation and each once. -/
def allLocations (p : Path) : List Location :=
  distinct (p.frames.reverse.flatMap (·.locations.reverse))

/-- The locations that are core to a frame of the path, those of the outermost frame first, each
once. -/
def coreLocations (p : Path) (m : Marks) : List Location :=
  distinct (p.frames.reverse.flatMap fun f => m.ofFrame f.id)

end Path

end PathSlice
