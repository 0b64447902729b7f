import PathSlice.Term.Basic

/-! The written form of terms: an operator, the width and the operands between parentheses. -/
namespace PathSlice

namespace BinaryOp

def all : List BinaryOp :=
  [.concat, .add, .sub, .mul, .udiv, .sdiv, .urem, .srem, .and, .or, .xor, .shl, .lshr, .ashr,
   .eq, .ne, .ult, .ule, .ugt, .uge, .slt, .sle, .sgt, .sge]

def name : BinaryOp → String
  | .concat => "Concat"
  | .add => "Add"
  | .sub => "Sub"
  | .mul => "Mul"
  | .udiv => "UDiv"
  | .sdiv => "SDiv"
  | .urem => "URem"
  | .srem => "SRem"
  | .and => "And"
  | .or => "Or"
  | .xor => "Xor"
  | .shl => "Shl"
  | .lshr => "LShr"
  | .ashr => "AShr"
  | .eq => "Eq"
  | .ne => "Ne"
  | .ult => "Ult"
  | .ule => "Ule"
  | .ugt => "Ugt"
  | .uge => "Uge"
  | .slt => "Slt"
  | .sle => "Sle"
  | .sgt => "Sgt"
  | .sge => "Sge"

end BinaryOp

namespace CastOp

def all : List CastOp := [.zeroExtend, .signExtend]

def name : CastOp → String
  | .zeroExtend => "ZExt"
  | .signExtend => "SExt"

end CastOp

/-- A width is written with the letter w before the number. -/
def Width.render (w : Width) : String :=
  "w" ++ toString w.toNat

mutual

/-- The written form of a term. Constants of one bit are truth values. -/
def Term.render : Term → String
  | t@(.binary op left right) =>
    "(" ++ op.name ++ " " ++ Width.render t.width ++ " " ++ left.render ++ " "
      ++ right.render ++ ")"
  | .cast op operand w => "(" ++ op.name ++ " " ++ Width.render w ++ " " ++ operand.render ++ ")"
  | .constant value w =>
    if w = 1 then (if value = 0 then "false" else "true")
    else "(" ++ Width.render w ++ " " ++ toString value.toNat ++ ")"
  | .extract operand offset w =>
    "(Extract " ++ Width.render w ++ " " ++ toString offset.toNat ++ " " ++ operand.render ++ ")"
  | .not operand => "(Not " ++ Width.render operand.width ++ " " ++ operand.render ++ ")"
  | .keep operand => "(NotOptimized " ++ operand.render ++ ")"
  | .read array writes index =>
    "(Read w8 " ++ index.render ++ " "
      ++ (if writes.isEmpty then "" else "[" ++ String.intercalate ", " writes.render ++ "] @ ")
      ++ array.name ++ ")"
  | .select condition consequent alternate =>
    "(Select " ++ Width.render consequent.width ++ " " ++ condition.render ++ " "
      ++ consequent.render ++ " " ++ alternate.render ++ ")"

def Writes.render : Writes → List String
  | .none => []
  | .write older index value => (index.render ++ "=" ++ value.render) :: older.render

end

end PathSlice
