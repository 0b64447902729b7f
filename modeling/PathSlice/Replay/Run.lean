import PathSlice.Effect.Instruction
import PathSlice.Replay.Event
import PathSlice.Shadow.Session

/-! Replaying the events of a trace. -/
namespace PathSlice

inductive ReplayFault where
  | name (fault : NameFault)
  /-- The event at a position cannot be recorded; the position behind the last event is that of the
  report. -/
  | event (index : Nat) (fault : Fault)

structure Replay where
  program : Program
  state : State
  session : Session := {}
  /-- The expectations that were not met, the latest first. -/
  failures : List String := []

/-- What may fail; what was done before stays done. -/
abbrev Replaying := ExceptT ReplayFault (StateM Replay)

namespace Replay

/-- A replay that starts in a new root frame; `next` is the first identity that is free. -/
def start (program : Program) (next : Nat) (existential : Bool) : Replay where
  program := program
  state := { next := next + 1, path := .root next }
  session := { existential := existential }

def value (name : String) : Replaying Value := do
  match (← get).program.resolve name with
  | .ok v => return v
  | .error e => throw (.name e)

def perform (index : Nat) (e : Effect Unit) : Replaying Unit := do
  let (result, state) := e (← get).state
  modify fun r => { r with state := state }
  match result with
  | .ok () => return ()
  | .error fault => throw (.event index fault)

def record {α : Type} (e : Recorder α) : Replaying α := do
  let (a, state) := e (← get).state
  modify fun r => { r with state := state }
  return a

def fail (index : Nat) (what : String) : Replaying Unit :=
  modify fun r => { r with failures := ("event " ++ toString index ++ ": " ++ what) :: r.failures }

def expectCore (index : Nat) (name : String) : Replaying Unit := do
  let v ← value name
  let s := (← get).state
  match s.path.latest? v with
  | some version =>
    unless s.marks.isCore version do fail index (s.marks.version version ++ " is not core")
  | none => fail index (name ++ " has no version")

/-- Checks that the latest version of a value, if there is one, is not core. -/
def expectNotCore (index : Nat) (name : String) : Replaying Unit := do
  let v ← value name
  let s := (← get).state
  if let some version := s.path.latest? v then
    if s.marks.isCore version then fail index (s.marks.version version ++ " is core")

def expectCount (index : Nat) (expected : Nat) : Replaying Unit := do
  let s := (← get).state
  let actual := (s.path.coreLocations s.marks).length
  unless actual = expected do
    fail index ("expected " ++ toString expected ++ " core locations, found " ++ toString actual)

def setPath (p : Path) : Recorder Unit :=
  modify fun s => { s with path := p }

/-- Goes on in a new frame over the current one. The identity before that of the frame is not used.
-/
def fork : Recorder Unit := do
  discard Recorder.fresh
  let id ← Recorder.fresh
  setPath ((← get).path.fork id)

def backtrack (index : Nat) : Replaying Unit := do
  if (← get).state.path.ancestors.isEmpty then fail index "backtrack from the root frame"
  else
    let id ← record Recorder.fresh
    if let some p := (← get).state.path.backtrack? id then record (setPath p)

def apply (index : Nat) : Event → Replaying Unit
  | .execute instruction terms erroneous => do
    perform index (Effect.execute (← value instruction) terms erroneous)
  | .phi instruction incoming term erroneous => do
    perform index (Effect.choose (← value instruction) incoming term erroneous)
  | .access instruction terms checked erroneous => do
    perform index (Effect.access (← value instruction) terms checked erroneous)
  | .fork => record fork
  | .backtrack => backtrack index
  | .bindCall site terms => do
    perform index (Effect.bindCall (← value site) terms)
  | .bindReturn site ret term => do
    let site ← value site
    perform index (Effect.bindReturn site (← value ret) term)
  | .shadow source target =>
    modify fun r => { r with session := r.session.register source target }
  | .expect core notCore coreLocations => do
    core.forM (expectCore index)
    notCore.forM (expectNotCore index)
    if let some expected := coreLocations then expectCount index expected

def applyAll (index : Nat) : List Event → Replaying Unit
  | [] => return ()
  | e :: es => do
    apply index e
    applyAll (index + 1) es

end Replay

end PathSlice
