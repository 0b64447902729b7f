import PathSlice.Path.Version
import PathSlice.Order.Ascending

/-! Graphs of support between locations, built for one question and then thrown away. An edge leads
from a location to a parent, a location that its content was computed from. Every node has a level,
and parents are on higher levels than their children, so there are no cycles. The sinks are the
locations that the answer depends on as far as it was worked out. -/
namespace PathSlice

namespace Support

structure Node where
  location : Location
  level : Int

structure Edge where
  child : Location
  parent : Location

/-- Nodes, edges and sinks in the order in which they were added. -/
structure Graph where
  nodes : List Node := []
  edges : List Edge := []
  sinks : List Location := []

inductive Outcome where
  /-- The edge is in the graph. -/
  | added
  /-- A location does not support itself. -/
  | loop
  /-- The parent is not on a higher level than the child. -/
  | againstLevels
  deriving DecidableEq

namespace Graph

def level? (g : Graph) (l : Location) : Option Int :=
  (g.nodes.find? (·.location.id == l.id)).map (·.level)

def contains (g : Graph) (l : Location) : Bool :=
  (g.level? l).isSome

def hasEdge (g : Graph) (child parent : Location) : Bool :=
  g.edges.any fun e => e.child.id == child.id && e.parent.id == parent.id

/-- The locations that a location was computed from, in the order in which they were added. -/
def parents (g : Graph) (l : Location) : List Location :=
  (g.edges.filter (·.child.id == l.id)).map (·.parent)

def addNode (g : Graph) (l : Location) (level : Int) : Graph :=
  { g with nodes := g.nodes ++ [⟨l, level⟩] }

def addEdge (g : Graph) (child parent : Location) : Graph :=
  if g.hasEdge child parent then g else { g with edges := g.edges ++ [⟨child, parent⟩] }

def addSinkAt (g : Graph) (l : Location) (level : Int) : Graph :=
  { g.addNode l level with sinks := g.sinks ++ [l] }

/-- Adds a location as a sink at level zero, unless it is a node already. -/
def addSink (g : Graph) (l : Location) : Graph :=
  if g.contains l then g else g.addSinkAt l 0

/-- Records that the content of `child` was computed from the content of `parent`. A parent that is
new comes one level above its child. A child that is new becomes a sink one level below its parent.
If both are nodes the edge is refused unless the parent is on the higher level. -/
def support (g : Graph) (parent child : Location) : Outcome × Graph :=
  if parent.id = child.id then (.loop, g)
  else
    match g.level? parent, g.level? child with
    | some p, some c =>
      if p ≤ c then (.againstLevels, g) else (.added, g.addEdge child parent)
    | some p, none => (.added, (g.addSinkAt child (p - 1)).addEdge child parent)
    | none, some c => (.added, (g.addNode parent (c + 1)).addEdge child parent)
    | none, none => (.added, ((g.addSinkAt child 0).addNode parent 1).addEdge child parent)

def isSink (g : Graph) (l : Location) : Bool :=
  g.sinks.any (·.id == l.id)

def sortedSinks (g : Graph) : List Location :=
  Ascending.ofList Location.compare g.sinks

def sinksAmong (g : Graph) (ls : List Location) : List Location :=
  Ascending.ofList Location.compare (g.sinks.filter fun s => ls.any (·.id == s.id))

/-- Adds a location to some sinks, unless it is there. -/
def promote (sinks : List Location) (l : Location) : List Location :=
  if sinks.any (·.id == l.id) then sinks else sinks ++ [l]

/-- Replaces a sink by its parents. -/
def consume (g : Graph) (l : Location) : Graph :=
  if g.isSink l then
    { g with sinks := (g.parents l).foldl promote (g.sinks.eraseP (·.id == l.id)) }
  else g

def consumeRound (ls : List Location) (g : Graph) : Graph :=
  (g.sinksAmong ls).foldl consume g

/-- Consumes sinks among some locations until there are none left. A parent is on a higher level
than its child, so there are at most as many rounds as nodes, and a further round changes nothing.
-/
def consumeAll (g : Graph) (ls : List Location) : Graph :=
  Nat.repeat (consumeRound ls) g.nodes.length g

/-- Leaves out the edges to parents that have no parents themselves. -/
def prune (es : List Edge) : List Edge :=
  es.filter fun e => es.any (·.child.id == e.parent.id)

/-- True if no location supports itself, directly or through others: pruning leaves nothing. -/
def isAcyclic (g : Graph) : Bool :=
  (Nat.repeat prune g.nodes.length g.edges).isEmpty

end Graph

end Support

end PathSlice
