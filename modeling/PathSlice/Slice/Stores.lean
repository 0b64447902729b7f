import PathSlice.Effect.Fault
import PathSlice.Path.Basic
import PathSlice.Shadow.Session

/-! The stores of a path: what its locations hold, by memory object. Of core stores only those of
core versions in core locations are taken, and their terms are put over shadows if the session is
existential. -/
namespace PathSlice

/-- What a location holds. The numeric address is that of the location, before any substitution. -/
structure Store where
  site : Value
  numeric : Option UInt64
  address : Term
  content : Term

/-- Collects stores; the shadows used stay noted when it fails. -/
abbrev Extraction := ExceptT Fault (StateM Session)

namespace Extraction

def substitute (t : Term) : Extraction Term :=
  ExceptT.adapt Fault.noShadow (Session.substitute t)

end Extraction

namespace Path

/-- What a location holds, in plain terms. -/
def storeAt? (p : Path) (l : Location) : Option Store :=
  (p.content? l).map fun v => ⟨l.site, l.numericAddress?, l.address, v.term⟩

/-- All stores, in the order in which their locations were created. -/
def plainStores (p : Path) : List Store :=
  p.allLocations.filterMap p.storeAt?

/-- The core locations that hold a core version, with what they hold. -/
def coreContents (p : Path) (m : Marks) : List (Location × Version) :=
  (p.coreLocations m).filterMap fun l =>
    match p.content? l with
    | some v => if m.isCore v then some (l, v) else none
    | none => none

/-- The stores of some contents, over shadows if the session is existential. -/
def shadowedStores : List (Location × Version) → Extraction (List Store)
  | [] => return []
  | (l, v) :: rest => do
    let address ← Extraction.substitute l.address
    let content ← Extraction.substitute v.term
    return ⟨l.site, l.numericAddress?, address, content⟩ :: (← shadowedStores rest)

def stores (p : Path) (m : Marks) (coreOnly : Bool) : Extraction (List Store) :=
  if coreOnly then shadowedStores (p.coreContents m) else return p.plainStores

end Path

namespace Store

/-- Stores by the value that introduced their object, in order of its identity. -/
structure Group (α : Type) where
  site : Value
  stores : List α

def groupOf {α : Type} (site : Value) (gs : List (Group α)) : List α :=
  ((gs.find? (·.site.id == site.id)).map (·.stores)).getD []

def updateGroup {α : Type} (site : Value) (change : List α → List α) (gs : List (Group α)) :
    List (Group α) :=
  Ascending.put (compareOn (·.site.id)) ⟨site, change (groupOf site gs)⟩ gs

/-- Stores at constant addresses, by site and then by numeric address. Of two stores with the same
site and address the later one stays. -/
def concrete (ss : List Store) : List (Group (UInt64 × Store)) :=
  ss.foldl (fun gs s =>
    match s.numeric with
    | some n => updateGroup s.site (Ascending.put (compareOn (·.1)) (n, s)) gs
    | none => gs) []

/-- Stores at symbolic addresses, by site. -/
def symbolic (ss : List Store) : List (Group Store) :=
  ss.foldl (fun gs s =>
    match s.numeric with
    | some _ => gs
    | none => updateGroup s.site (· ++ [s]) gs) []

end Store

end PathSlice
