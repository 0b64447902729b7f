import PathSlice.Json.Basic

/-! Values of a given shape. A record is an object with a member for every field, or an array of its
fields in order; a variant is a name alone or an object with the name as its only member. The parts
found in a value are smaller than the value, so a reader of nested shapes ends. -/
namespace PathSlice.Json

abbrev Part (j : Json) : Type := { v : Json // sizeOf v < sizeOf j }

/-- Whether a field may be left out. -/
inductive Presence where
  | required
  /-- May be left out of an object. -/
  | optional
  /-- May be left out of an object, and of the end of an array. -/
  | defaulted
  deriving DecidableEq

structure Field where
  name : String
  presence : Presence := .required

theorem sizeOf_lt_of_mem_array {v : Json} {items : List Json} (h : v ∈ items) :
    sizeOf v < sizeOf (Json.array items) := by
  have := List.sizeOf_lt_of_mem h
  simp only [Json.array.sizeOf_spec]
  omega

theorem sizeOf_lt_of_mem_object {name : String} {v : Json} {members : List (String × Json)}
    (h : (name, v) ∈ members) : sizeOf v < sizeOf (Json.object members) := by
  have := List.sizeOf_lt_of_mem h
  simp only [Json.object.sizeOf_spec, Prod.mk.sizeOf_spec] at this ⊢
  omega

def items : (j : Json) → Option (List (Part j))
  | .array vs => some (vs.attach.map fun v => ⟨v.1, sizeOf_lt_of_mem_array v.2⟩)
  | _ => none

def members : (j : Json) → Option (List (String × Part j))
  | .object ms => some (ms.attach.map fun m => (m.1.1, ⟨m.1.2, sizeOf_lt_of_mem_object m.2⟩))
  | _ => none

/-- The value of a field among the members of an object. A field must not be given twice. -/
def memberField {j : Json} (ms : List (String × Part j)) (f : Field) : Option (Option (Part j)) :=
  match ms.filter (·.1 == f.name) with
  | [] => if f.presence = .required then none else some none
  | [(_, v)] => some (some v)
  | _ => none

def itemFields {j : Json} : List (Part j) → List Field → Option (List (Option (Part j)))
  | [], [] => some []
  | _ :: _, [] => none
  | [], f :: fs =>
    if f.presence = .defaulted then (none :: ·) <$> itemFields [] fs else none
  | v :: vs, _ :: fs => (some v :: ·) <$> itemFields vs fs

/-- The values of the fields of a record, in the order of the fields. -/
def fields (fs : List Field) (j : Json) : Option (List (Option (Part j))) :=
  match j.members with
  | some ms => fs.mapM (memberField ms)
  | none => j.items.bind (itemFields · fs)

def variant (j : Json) : Option (String × Option (Part j)) :=
  match j.text?, j.members with
  | some name, _ => some (name, none)
  | none, some [(name, v)] => some (name, some v)
  | none, _ => none

/-- How liberally the content of a variant is read. -/
inductive Manner where
  /-- A variant without fields carries `null`, one with fields carries an object. -/
  | strict
  /-- A variant without fields may carry an empty object too, one with fields an array too. -/
  | lenient

namespace Manner

def nothing {j : Json} (manner : Manner) (v : Option (Part j)) : Bool :=
  match manner, v.map Subtype.val with
  | _, none | _, some .null => true
  | .lenient, some (.object []) => true
  | _, _ => false

def fields (manner : Manner) (fs : List Field) (j : Json) : Option (List (Option (Part j))) :=
  match manner, j.members with
  | .strict, none => none
  | _, _ => j.fields fs

end Manner

/-- Reads one of several variants that carry nothing. -/
def oneOf {α : Type} (manner : Manner) (name : α → String) (all : List α) (j : Json) :
    Option α := do
  let (n, v) ← j.variant
  guard (manner.nothing v)
  all.find? (name · == n)

def listOf {α : Type} (read : Json → Option α) (j : Json) : Option (List α) := do
  (← j.array?).mapM read

def nullable {α : Type} (read : Json → Option α) : Json → Option (Option α)
  | .null => some none
  | j => some <$> read j

/-- A field that has a value when it is left out. -/
def orElse {α : Type} (default : α) (read : Json → Option α) : Option Json → Option α
  | none => some default
  | some j => read j

end PathSlice.Json
