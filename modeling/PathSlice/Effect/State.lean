import PathSlice.Effect.Fault
import PathSlice.Path.Basic

/-! The state that effects change: the supply of identities, the path, the marks and the notices
given. An effect that fails keeps what it did before it failed. -/
namespace PathSlice

/-- What is worth telling whoever watches. -/
inductive Notice where
  /-- A function without a summary was called. -/
  | unsummarized (callee : String)
  /-- No operand of an instruction has a version. -/
  | untracked (instruction : String)
  /-- A constant is not followed. -/
  | ignored (value : String)
  /-- An edge of a graph was refused. -/
  | refused (parent child : String)
  /-- The written form of a graph. -/
  | graph (text : String)

def Notice.render : Notice → String
  | .unsummarized callee => "WARN: using default handler for external function " ++ callee
  | .untracked instruction => "DEBUG: no operand of " ++ instruction ++ " is tracked"
  | .ignored value => "DEBUG: ignoring " ++ value
  | .refused parent child => "DEBUG: rejecting edge " ++ parent ++ " -> " ++ child
  | .graph text => "DEBUG: location graph:\n" ++ text

structure State where
  /-- The next identity. -/
  next : Nat
  path : Path
  marks : Marks := {}
  /-- The latest notice first. -/
  notices : List Notice := []

/-- What always succeeds. -/
abbrev Recorder := StateM State

/-- What may fail. -/
abbrev Effect := ExceptT Fault Recorder

namespace Recorder

def fresh : Recorder Nat :=
  modifyGet fun s => (s.next, { s with next := s.next + 1 })

def record (change : Frame → Frame) : Recorder Unit :=
  modify fun s => { s with path := s.path.record change }

def notify (n : Notice) : Recorder Unit :=
  modify fun s => { s with notices := n :: s.notices }

/-- Creates a version of a value. Versions are never merged. -/
def newVersion (value : Value) (term : Term) : Recorder Version := do
  let v : Version := ⟨← fresh, value, term⟩
  record (·.addVersion v)
  return v

/-- A location of the object of `base` with another address and offset, which no frame knows yet. It
is core if `base` is. -/
def relocate (base : Location) (address offset : Term) : Recorder Location := do
  let l : Location := ⟨← fresh, base.site, address, offset⟩
  if (← get).marks.isCoreLocation base then
    modify fun s => { s with marks := s.marks.addLocation l }
  return l

/-- The location at a distance from `base`, which no frame knows yet. -/
def displace (base : Location) (distance : Term) : Recorder Location :=
  relocate base (base.address.add distance) (base.displaced distance)

/-- Creates a location at the start of a memory object. -/
def newLocation (site : Value) (address : Term) : Recorder Location := do
  let l := Location.start (← fresh) site address
  record (·.addLocation l)
  return l

def addPointer (v : Version) (l : Location) : Recorder Unit :=
  record (·.addPointer v l)

def deposit (l : Location) (v : Version) : Recorder Unit :=
  record (·.addDeposit l v)

def addFlow (source target : Version) (via : Option Location := none) : Recorder Unit :=
  record (·.addFlow source target via)

/-- Creates a version and the location that it is the address of. -/
def newPointer (value site : Value) (address : Term) : Recorder Version := do
  let v ← newVersion value address
  let l ← newLocation site address
  addPointer v l
  return v

/-- The latest location of an object at an address, created if there is none. -/
def locationAt (site : Value) (address : Term) : Recorder Location := do
  match (← get).path.latestLocation? site address with
  | some l => return l
  | none => newLocation site address

/-- The location of the object of `base` at an address, created at its distance from `base` if there
is none. -/
def elementAt (base : Location) (address : Term) : Recorder Location := do
  match (← get).path.latestLocation? base.site address with
  | some l => return l
  | none =>
    let l ← relocate base address (base.displaced (address.sub base.address))
    record (·.addLocation l)
    return l

/-- The version of an operand to use. A constant gets a new version every time, since its
dependencies do not matter; a global has one version along a path, with a location if it is a
pointer. The constant address of an element comes with a location of its own. -/
def versionOf? (value : Value) (term : Term) : Recorder (Option Version) := do
  if value.isConstantElementAddress then
    return some (← newPointer value value term)
  else if value.isConstant && !value.isGlobal then
    return some (← newVersion value term)
  else
    match (← get).path.latest? value with
    | some v => return some v
    | none =>
      if value.isGlobal then
        if value.isPointer then return some (← newPointer value value term)
        else return some (← newVersion value term)
      else return none

end Recorder

end PathSlice
