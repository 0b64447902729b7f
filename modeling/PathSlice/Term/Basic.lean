import PathSlice.Order.Ascending

/-! Terms over bit vectors and symbolic arrays of bytes, as they describe the values of a program
along a path. Terms are not simplified, apart from sums and differences of constants. -/
namespace PathSlice

abbrev Width := UInt32

/-- A symbolic array: the unknown initial content of a memory object. -/
structure SymArray where
  name : String
  size : UInt64
  deriving DecidableEq

/-- Operators that combine two bit vectors, in the order that sorts terms. -/
inductive BinaryOp where
  | concat | add | sub | mul | udiv | sdiv | urem | srem
  | and | or | xor | shl | lshr | ashr
  | eq | ne | ult | ule | ugt | uge | slt | sle | sgt | sge
  deriving DecidableEq

/-- The two ways to widen a bit vector. -/
inductive CastOp where
  | zeroExtend | signExtend
  deriving DecidableEq

mutual

inductive Term where
  | binary (op : BinaryOp) (left right : Term)
  | cast (op : CastOp) (operand : Term) (width : Width)
  | constant (value : UInt64) (width : Width)
  /-- The bits of the operand from `offset` on. -/
  | extract (operand : Term) (offset : UInt32) (width : Width)
  | not (operand : Term)
  /-- A term that must be left as it is by whoever simplifies terms. -/
  | keep (operand : Term)
  /-- The byte at `index` of an array after some writes. -/
  | read (array : SymArray) (writes : Writes) (index : Term)
  | select (condition consequent alternate : Term)

/-- Writes into an array, the most recent one outermost. -/
inductive Writes where
  | none
  | write (older : Writes) (index value : Term)

end

deriving instance DecidableEq for Term, Writes

/-- Comparisons yield a single bit. -/
def BinaryOp.isComparison : BinaryOp → Bool
  | .eq | .ne | .ult | .ule | .ugt | .uge | .slt | .sle | .sgt | .sge => true
  | _ => false

/-- Drops the bits of a value above a width. -/
def mask (value : UInt64) (width : Width) : UInt64 :=
  if 64 ≤ width then value else value &&& ((1 <<< width.toUInt64) - 1)

namespace Writes

def length : Writes → Nat
  | .none => 0
  | .write older _ _ => older.length + 1

def isEmpty : Writes → Bool
  | .none => true
  | .write .. => false

end Writes

namespace Term

/-- A constant whose bits above the width are dropped. -/
def ofBits (value : UInt64) (width : Width) : Term :=
  .constant (mask value width) width

/-- A constant of the width of an address. -/
def pointer (value : UInt64) : Term :=
  ofBits value 64

def constant? : Term → Option UInt64
  | .constant value _ => some value
  | _ => none

def isConstant (t : Term) : Bool :=
  t.constant?.isSome

def width : Term → Width
  | .binary op left right =>
    if op.isComparison then 1
    else if op = .concat then left.width + right.width
    else left.width
  | .cast _ _ w => w
  | .constant _ w => w
  | .extract _ _ w => w
  | .not operand => operand.width
  | .keep operand => operand.width
  | .read .. => 8
  | .select _ consequent _ => consequent.width

/-- The sum, as a single constant if both terms are constants. -/
def add (left right : Term) : Term :=
  match left.constant?, right.constant? with
  | some l, some r => ofBits (l + r) left.width
  | _, _ => .binary .add left right

/-- The difference, as a single constant if both terms are constants. -/
def sub (left right : Term) : Term :=
  match left.constant?, right.constant? with
  | some l, some r => ofBits (l - r) left.width
  | _, _ => .binary .sub left right

/-- The immediate subterms; those inside the writes of a read do not count. -/
def children : Term → List Term
  | .binary _ left right => [left, right]
  | .cast _ operand _ => [operand]
  | .constant .. => []
  | .extract operand _ _ => [operand]
  | .not operand => [operand]
  | .keep operand => [operand]
  | .read _ _ index => [index]
  | .select condition consequent alternate => [condition, consequent, alternate]

mutual

/-- The arrays that a term reads, in order and with repetitions: of a read the array itself, those
in its writes from the most recent on, those in its index. -/
def arrays : Term → List SymArray
  | .binary _ left right => left.arrays ++ right.arrays
  | .cast _ operand _ => operand.arrays
  | .constant .. => []
  | .extract operand _ _ => operand.arrays
  | .not operand => operand.arrays
  | .keep operand => operand.arrays
  | .read array writes index => array :: (writesArrays writes ++ index.arrays)
  | .select condition consequent alternate =>
    condition.arrays ++ consequent.arrays ++ alternate.arrays

def writesArrays : Writes → List SymArray
  | .none => []
  | .write older index value => index.arrays ++ value.arrays ++ writesArrays older

end

end Term

end PathSlice
