import PathSlice.Program.Value
import PathSlice.Term.Printer

/-! Versions of program values and of memory locations. Both are created once and never changed, and
are known by identities from one ascending supply. -/
namespace PathSlice

/-- A program value at the time its dependencies were recorded. -/
structure Version where
  id : Nat
  value : Value
  /-- What the value is at that time. -/
  term : Term

/-- A place in memory: a memory object, known by the value that introduced it, and an address. -/
structure Location where
  id : Nat
  site : Value
  address : Term
  /-- The distance of the address from the start of the object. -/
  offset : Term

def Version.compare (a b : Version) : Ordering :=
  compareOn Version.id a b

namespace Location

/-- The start of the memory object introduced by `site`. -/
def start (id : Nat) (site : Value) (address : Term) : Location :=
  ⟨id, site, address, .pointer 0⟩

def compare (a b : Location) : Ordering :=
  compareOn Location.id a b

def numericAddress? (l : Location) : Option UInt64 :=
  l.address.constant?

def hasConstantAddress (l : Location) : Bool :=
  l.address.isConstant

def isAt (l : Location) (site : Value) (address : Term) : Bool :=
  l.site.id == site.id && l.address == address

/-- The offset displaced by a distance. Two constants give one constant, so that constant indexing
into an object always ends up at the same offset. -/
def displaced (l : Location) (distance : Term) : Term :=
  match l.offset.constant?, distance.constant? with
  | some o, some d => .ofBits (o + d) 64
  | _, _ => .binary .add l.offset distance

end Location

end PathSlice
