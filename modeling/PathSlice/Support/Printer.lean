import PathSlice.Order.Agenda
import PathSlice.Path.Marks
import PathSlice.Support.Graph
import PathSlice.Text.Layout
import PathSlice.Text.Quoted

/-! Written forms of graphs of support: as an indented tree, as a drawing, and as a count. -/
namespace PathSlice.Support.Graph

/-- A line of the tree: a location, how deep it stands, and what is said about it. -/
structure Line where
  location : Location
  depth : Nat
  remark : String

/-- The tree under every sink. The parents of a location are listed below it where it occurs first.
-/
def tree (g : Graph) : List Line :=
  (Agenda.run (fun t : Location × Nat => t.1.id)
    (fun (l, depth) acc => ((g.parents l).map (·, depth + 1), ⟨l, depth, " depends on"⟩ :: acc))
    (fun (l, depth) acc =>
      ⟨l, depth, if (g.parents l).isEmpty then "" else " (printed)"⟩ :: acc)
    (g.edges.map (·.child.id)) (g.sinks.map (·, 0)) []).reverse

def render (g : Graph) (m : Marks) : String :=
  Text.lines (g.tree.map fun l => Text.indent l.depth ++ m.location l.location ++ l.remark)

def indexOf (g : Graph) (l : Location) : Nat :=
  g.nodes.findIdx (·.location.id == l.id)

/-- The graph as a drawing in the Graphviz language. -/
def drawing (g : Graph) (m : Marks) : String :=
  let node (n : Node) (i : Nat) : String :=
    let label := m.location n.location ++ " @" ++ toString n.level
    "    " ++ toString i ++ " [ label = \"" ++ Text.backslashed (Text.quoted label) ++ "\" ]"
  let edge (e : Edge) : String :=
    "    " ++ toString (g.indexOf e.child) ++ " -> " ++ toString (g.indexOf e.parent) ++ " [ ]"
  Text.lines (["digraph \x7b"] ++ g.nodes.zipIdx.map (fun (n, i) => node n i) ++ g.edges.map edge
    ++ ["\x7d"])

def summary (g : Graph) : String :=
  "LocationGraph(" ++ toString g.nodes.length ++ " nodes, " ++ toString g.sinks.length ++ " sinks)"

end PathSlice.Support.Graph
