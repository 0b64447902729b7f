import PathSlice.Term.Basic

/-! Operations of the instructions of a program, and the types of its values, as far as they matter
to dependencies. -/
namespace PathSlice

inductive Opcode where
  | br | ret | switch | unreachable
  | alloca | getElementPtr (inBounds : Bool) | load | store
  | addrSpaceCast | bitCast | fpExt | fpToSI | fpToUI | fpTrunc | intToPtr | ptrToInt
  | sExt | siToFP | trunc | uiToFP | zExt
  | extractValue | insertValue
  | add | aShr | and | fAdd | fDiv | fMul | fRem | fSub | lShr | mul | or | sDiv | shl
  | sRem | sub | uDiv | uRem | xor
  | call | fCmp | iCmp | phi | select
  deriving DecidableEq

inductive ValueType where
  | aggregate
  | float (width : Width)
  | integer (width : Width)
  | pointer
  | void
  deriving DecidableEq

namespace Opcode

def plain : List Opcode :=
  [.br, .ret, .switch, .unreachable, .alloca, .load, .store, .addrSpaceCast, .bitCast, .fpExt,
   .fpToSI, .fpToUI, .fpTrunc, .intToPtr, .ptrToInt, .sExt, .siToFP, .trunc, .uiToFP, .zExt,
   .extractValue, .insertValue, .add, .aShr, .and, .fAdd, .fDiv, .fMul, .fRem, .fSub, .lShr, .mul,
   .or, .sDiv, .shl, .sRem, .sub, .uDiv, .uRem, .xor, .call, .fCmp, .iCmp, .phi, .select]

def name : Opcode → String
  | .br => "Br"
  | .ret => "Ret"
  | .switch => "Switch"
  | .unreachable => "Unreachable"
  | .alloca => "Alloca"
  | .getElementPtr _ => "GetElementPtr"
  | .load => "Load"
  | .store => "Store"
  | .addrSpaceCast => "AddrSpaceCast"
  | .bitCast => "BitCast"
  | .fpExt => "FPExt"
  | .fpToSI => "FPToSI"
  | .fpToUI => "FPToUI"
  | .fpTrunc => "FPTrunc"
  | .intToPtr => "IntToPtr"
  | .ptrToInt => "PtrToInt"
  | .sExt => "SExt"
  | .siToFP => "SIToFP"
  | .trunc => "Trunc"
  | .uiToFP => "UIToFP"
  | .zExt => "ZExt"
  | .extractValue => "ExtractValue"
  | .insertValue => "InsertValue"
  | .add => "Add"
  | .aShr => "AShr"
  | .and => "And"
  | .fAdd => "FAdd"
  | .fDiv => "FDiv"
  | .fMul => "FMul"
  | .fRem => "FRem"
  | .fSub => "FSub"
  | .lShr => "LShr"
  | .mul => "Mul"
  | .or => "Or"
  | .sDiv => "SDiv"
  | .shl => "Shl"
  | .sRem => "SRem"
  | .sub => "Sub"
  | .uDiv => "UDiv"
  | .uRem => "URem"
  | .xor => "Xor"
  | .call => "Call"
  | .fCmp => "FCmp"
  | .iCmp => "ICmp"
  | .phi => "Phi"
  | .select => "Select"

def render : Opcode → String
  | .getElementPtr inBounds =>
    "GetElementPtr \x7b in_bounds: " ++ (if inBounds then "true" else "false") ++ " \x7d"
  | op => op.name

/-- Opcodes with a single operand whose value, converted or taken apart, is the result. -/
def isConversion : Opcode → Bool
  | .addrSpaceCast | .bitCast | .extractValue | .fpExt | .fpToSI | .fpToUI | .fpTrunc | .intToPtr
  | .ptrToInt | .sExt | .siToFP | .trunc | .uiToFP | .zExt => true
  | _ => false

/-- The positions of the two operands that a result is computed from. The condition of a selection
does not count. -/
def combined? : Opcode → Option (Nat × Nat)
  | .select => some (1, 2)
  | .add | .aShr | .and | .fAdd | .fCmp | .fDiv | .fMul | .fRem | .fSub | .iCmp | .insertValue
  | .lShr | .mul | .or | .sDiv | .shl | .sRem | .sub | .uDiv | .uRem | .xor => some (0, 1)
  | _ => none

end Opcode

def ValueType.render : ValueType → String
  | .aggregate => "Aggregate"
  | .float w => "Float(" ++ toString w.toNat ++ ")"
  | .integer w => "Integer(" ++ toString w.toNat ++ ")"
  | .pointer => "Pointer"
  | .void => "Void"

end PathSlice
