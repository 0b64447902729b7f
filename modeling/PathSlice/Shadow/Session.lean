import PathSlice.Path.Version
import PathSlice.Shadow.Substitution

/-! A registry gives every symbolic array a shadow, an array to stand in its place. A session knows
whether shadows are to be put in place of arrays, and collects the shadows used. -/
namespace PathSlice

/-- Arrays with their shadows, each array once. -/
structure Registry where
  entries : List (SymArray × SymArray) := []

namespace Registry

def shadow? (r : Registry) (a : SymArray) : Option SymArray :=
  r.entries.lookup a

/-- Makes `target` the shadow of `source`, in place of an earlier one. -/
def register (r : Registry) (source target : SymArray) : Registry :=
  ⟨(source, target) :: r.entries.filter (·.1 != source)⟩

def size (r : Registry) : Nat :=
  r.entries.length

end Registry

structure Session where
  /-- Shadows are put in place of arrays, so that they can be quantified over. -/
  existential : Bool := true
  registry : Registry := {}
  /-- The shadows used so far, ascending. -/
  used : List SymArray := []

namespace Session

def register (s : Session) (source target : SymArray) : Session :=
  { s with registry := s.registry.register source target }

/-- The term over shadows, or the term itself if the session is not existential. -/
def substitute (t : Term) : ExceptT SymArray (StateM Session) Term := fun s =>
  if s.existential then
    let (result, used) := (t.substitute s.registry.shadow?) s.used
    (result, { s with used := used })
  else (.ok t, s)

end Session

def Location.substitute (image : SymArray → Option SymArray) (l : Location) :
    Substitution (Term × Term) := do
  let address ← l.address.substitute image
  let offset ← l.offset.substitute image
  return (address, offset)

end PathSlice
