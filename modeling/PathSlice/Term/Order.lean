import PathSlice.Term.Basic

/-! A total order on terms: by kind first, then field by field. Of two chains of writes the older
parts are compared first, and an empty chain comes before every other. -/
namespace PathSlice

namespace SymArray

/-- By name, then by size. -/
def compare (a b : SymArray) : Ordering :=
  (Ord.compare a.name b.name).then (Ord.compare a.size b.size)

end SymArray

mutual

def Term.compare : Term → Term → Ordering
  | .binary o l r, .binary o' l' r' =>
    (Ord.compare o.ctorIdx o'.ctorIdx).then ((l.compare l').then (r.compare r'))
  | .cast o t w, .cast o' t' w' =>
    (Ord.compare o.ctorIdx o'.ctorIdx).then ((t.compare t').then (Ord.compare w w'))
  | .constant v w, .constant v' w' => (Ord.compare v v').then (Ord.compare w w')
  | .extract t o w, .extract t' o' w' =>
    (t.compare t').then ((Ord.compare o o').then (Ord.compare w w'))
  | .not t, .not t' => t.compare t'
  | .keep t, .keep t' => t.compare t'
  | .read a ws i, .read a' ws' i' => (a.compare a').then ((ws.compare ws').then (i.compare i'))
  | .select c t e, .select c' t' e' => (c.compare c').then ((t.compare t').then (e.compare e'))
  | s, t => Ord.compare s.ctorIdx t.ctorIdx

def Writes.compare : Writes → Writes → Ordering
  | .none, .none => .eq
  | .none, .write .. => .lt
  | .write .., .none => .gt
  | .write o i v, .write o' i' v' => (o.compare o').then ((i.compare i').then (v.compare v'))

end

namespace Term

/-- The positions of the terms in ascending order; equal terms stay in place. -/
def sortedIndices (ts : List Term) : List Nat :=
  ((ts.zipIdx).mergeSort fun a b => (a.1.compare b.1).isLE).map (·.2)

def countDistinct (ts : List Term) : Nat :=
  (Ascending.ofList Term.compare ts).length

end Term

end PathSlice
