import PathSlice.Effect.State
import PathSlice.Path.Flow
import PathSlice.Path.Origin
import PathSlice.Support.Printer

/-! Slicing: from a version that matters, all versions it was computed from are marked as core, and
so are the locations that it depends on, frame by frame. -/
namespace PathSlice

open Support (Graph)

namespace Path

/-- A location on the way from a sink: the version that was loaded from it, the location, and the
identities of the locations between it and the sink. -/
structure Step where
  source : Version
  target : Location
  trail : List Nat

/-- A graph, and the edges that it refused, the latest first. -/
structure Build where
  graph : Graph
  refused : List (Location × Location) := []

/-- The origins to walk on from. -/
def onward (trail : List Nat) (os : List Origin) : List Step :=
  os.filterMap fun o => o.source.map (⟨·, o.location, trail⟩)

def Build.support (b : Build) (parent child : Location) : Build :=
  match b.graph.support parent child with
  | (.againstLevels, _) => { b with refused := (parent, child) :: b.refused }
  | (_, g) => { b with graph := g }

/-- The origins of the version loaded in a step that are not on the way already. -/
def expansion (p : Path) (s : Step) : List Origin :=
  (p.origins s.source).filter fun o =>
    o.location.id != s.target.id && !s.trail.contains o.location.id

/-- The passages through memory that a path recorded: what was loaded, and from where. -/
def passages (p : Path) : List (Nat × Nat) :=
  p.flows.filterMap fun e => e.via.map fun l => (e.source.id, l.id)

/-- Adds every origin of a version as a sink, and behind it the locations it was computed from.
Every passage through memory is followed once, and no way runs through a location twice. The origin
with the last source is followed first. -/
def addSupport (p : Path) (g : Graph) (target : Version) : Build :=
  let os := p.origins target
  let start : Build := ⟨os.foldl (fun g o => g.addSink o.location) g, []⟩
  Agenda.run (fun s : Step => (s.source.id, s.target.id))
    (fun s b =>
      let found := p.expansion s
      ((onward (s.target.id :: s.trail) found).reverse,
        found.foldl (fun b o => b.support o.location s.target) b))
    (fun _ b => b)
    p.passages (onward [] os).reverse start

end Path

namespace Recorder

def addSupport (p : Path) (g : Graph) (v : Version) : Recorder Graph := do
  let b := p.addSupport g v
  modify fun s =>
    { s with notices := (b.refused.map fun e =>
        .refused (s.marks.location e.1) (s.marks.location e.2)) ++ s.notices }
  return b.graph

/-- Adds what supports a version to a graph and marks every version it was computed from. -/
def mark (p : Path) (g : Graph) (v : Version) : Recorder Graph := do
  let g ← addSupport p g v
  modify fun s => { s with marks := (p.closure v).foldl Marks.addVersion s.marks }
  return g

/-- Makes the sinks of a graph core to the frames of a path. A frame's own locations are consumed
before its parent is turned to. -/
def coreSinks (g : Graph) : List Frame → Recorder Graph
  | [] => return g
  | f :: parents => do
    let sinks := g.sortedSinks
    modify fun s =>
      { s with marks := sinks.foldl (fun m l => (m.addLocation l).addToFrame f.id l) s.marks }
    if parents.isEmpty then return g
    else coreSinks (g.consumeAll f.locations) parents

/-- Tells what the graph looks like and makes its sinks core to the frames of a path. -/
def markLocations (p : Path) (g : Graph) : Recorder Graph := do
  modify fun s => { s with notices := .graph (g.render s.marks) :: s.notices }
  coreSinks g p.frames

end Recorder

namespace Effect

/-- Marks the latest version of a value. A constant without a version has nothing to mark. -/
def markValue (p : Path) (g : Graph) (value : Value) : Effect Graph := do
  match p.latest? value with
  | some v => Recorder.mark p g v
  | none =>
    if value.isConstant then
      -- Constants made of this name come from faulty linking.
      if value.operands.any (·.name == "__dso_handle") then
        Recorder.notify (.ignored value.render)
      return g
    else throw (.unknownValue value)

/-- Marks everything that a value of the current path depends on. -/
def slice (value : Value) : Effect Unit := do
  let p := (← get).path
  let g ← markValue p {} value
  discard <| Recorder.markLocations p g

end Effect

end PathSlice
