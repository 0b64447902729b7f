import PathSlice.Json.Outline

/-! Values that carry a tag which tells their shape: an object with a member for the tag, or an
array that starts with it. The tag is judged where it stands; the rest of the value is read to its
end before its shape is looked at. -/
namespace PathSlice.Json

/-- Why a text is not a value of some type: it is no JSON, or of another shape. -/
inductive ReadFault where
  | flaw (f : Flaw)
  | shape
  deriving DecidableEq

def read {α : Type} : Except Flaw α → Except ReadFault α
  | .ok a => .ok a
  | .error f => .error (.flaw f)

namespace Outline

/-- A string that is one of the given tags. -/
def tag (known : List String) : Outline → Except ReadFault String
  | .text content => do
    let s ← read content
    if known.contains s then return s else throw .shape
  | .broken why => throw (.flaw why.content)
  | .number n => throw (if n.overflows then .flaw .malformed else .shape)
  | _ => throw .shape

/-- The tag among the members of an object, and the other members. The tag is judged where it
stands. -/
def taggedMembers (key : String) (known : List String) (depth : Nat) :
    List (Except Flaw String × Outline) → Option String →
      Except ReadFault (Option String × List (String × Json))
  | [], found => return (found, [])
  | (name, v) :: rest, found => do
    let name ← read name
    if name = key then
      if found.isSome then throw .shape
      taggedMembers key known depth rest (some (← v.tag known))
    else
      let v ← read (v.content depth)
      let (found, members) ← taggedMembers key known depth rest found
      return (found, (name, v) :: members)

/-- A value told apart by a tag: the tag, and the rest of the value. -/
def tagged (key : String) (known : List String) (depth : Nat) :
    Outline → Except ReadFault (String × Json)
  | .object members open? => do
    unless depth < depthLimit do throw (.flaw .malformed)
    let (found, members) ← taggedMembers key known (depth + 1) members none
    if let some why := open? then throw (.flaw why.content)
    match found with
    | some t => return (t, .object members)
    | none => throw .shape
  | .array items open? => do
    unless depth < depthLimit do throw (.flaw .malformed)
    match items with
    | [] =>
      if let some why := open? then throw (.flaw why.content)
      throw .shape
    | first :: rest =>
      let t ← first.tag known
      let rest ← read (contentItems (depth + 1) rest)
      if let some why := open? then throw (.flaw why.content)
      return (t, .array rest)
  | v => do
    let _ ← read (v.content depth)
    throw .shape

end Outline

end PathSlice.Json
