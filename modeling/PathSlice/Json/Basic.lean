import PathSlice.Json.Numeral

/-! JSON values. Numbers keep the form they were written in, because an integer, a negative number
and a number with a fraction or an exponent are told apart by every reader of this library. Objects
keep their members in order, repeated names included. -/
namespace PathSlice

inductive Json where
  | null
  | bool (b : Bool)
  | number (n : Numeral)
  | text (s : String)
  | array (items : List Json)
  | object (members : List (String × Json))

namespace Json

def ofNat (n : Nat) : Json := .number { whole := n }

def ofInt (i : Int) : Json := .number { negative := i < 0, whole := i.natAbs }

def ofOption {α : Type} (f : α → Json) : Option α → Json
  | some a => f a
  | none => .null

def texts (ss : List String) : Json := .array (ss.map .text)

/-- The first member of an object that has the given name. -/
def member? (name : String) : Json → Option Json
  | .object members => members.lookup name
  | _ => none

/-- A natural number below `2 ^ bits`. -/
def unsigned? (bits : Nat) : Json → Option Nat
  | .number n => n.natural?.filter (· < Nat.pow 2 bits)
  | _ => none

def text? : Json → Option String
  | .text s => some s
  | _ => none

def bool? : Json → Option Bool
  | .bool b => some b
  | _ => none

def array? : Json → Option (List Json)
  | .array items => some items
  | _ => none

end Json

end PathSlice
