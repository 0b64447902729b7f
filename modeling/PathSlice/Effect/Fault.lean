import PathSlice.Program.Value
import PathSlice.Text.Quoted

/-! Why an effect cannot be recorded, and its wording. -/
namespace PathSlice

inductive OperandRef where
  /-- The operand at a position. -/
  | position (index : Nat)
  | value (v : Value)
  /-- The argument at a position of a call. -/
  | argument (index : Nat)

inductive Fault where
  /-- Nothing is known about an opcode with a number of terms. -/
  | unhandled (instruction : Value) (opcode : Opcode) (terms : Nat)
  | notInstruction (value : Value)
  /-- An operand is missing, or has no version and none can be made up. -/
  | operandNotFound (instruction : Value) (operand : OperandRef)
  /-- A condition or a checked address has no version. -/
  | unknownValue (value : Value)
  /-- The address of a load has a version but is not the address of any location. -/
  | unresolvedAddress (instruction : Value)
  /-- A call with a result came without a term for it. -/
  | missingResult (site : Value)
  /-- A checked access that is neither a load nor a store. -/
  | unknownAccess (instruction : Value)
  /-- An array has no shadow. -/
  | noShadow (array : SymArray)

namespace OperandRef

def render : OperandRef → String
  | .position index => "#" ++ toString index
  | .value v => v.render
  | .argument index => "argument #" ++ toString index

end OperandRef

namespace Fault

def name : Fault → String
  | .unhandled .. => "UnhandledInstruction"
  | .notInstruction _ => "NotAnInstruction"
  | .operandNotFound .. => "OperandNotFound"
  | .unknownValue _ => "UnknownValue"
  | .unresolvedAddress _ => "LoadAddressUnresolved"
  | .missingResult _ => "MissingReturnExpression"
  | .unknownAccess _ => "UnknownMemoryOperation"
  | .noShadow _ => "MissingShadowArray"

def message : Fault → String
  | .unhandled instruction opcode terms =>
    "unhandled instruction " ++ instruction.name ++ " (" ++ opcode.render ++ ") with "
      ++ toString terms ++ " expressions"
  | .notInstruction value => value.render ++ " is not an instruction"
  | .operandNotFound instruction operand =>
    "operand " ++ operand.render ++ " of " ++ instruction.render ++ " not found"
  | .unknownValue value => "unknown value " ++ value.render
  | .unresolvedAddress instruction =>
    "address operand of " ++ instruction.render ++ " is not a location"
  | .missingResult site => "non-void call " ++ site.render ++ " missing return expression"
  | .unknownAccess instruction => "unknown memory operation " ++ instruction.render
  | .noShadow array => "no shadow array registered for array " ++ array.name

def detail (fault : Fault) : String :=
  match fault with
  | .unhandled instruction opcode terms =>
    "UnhandledInstruction \x7b name: " ++ Text.quoted instruction.name ++ ", opcode: "
      ++ opcode.render ++ ", arity: " ++ toString terms ++ " \x7d"
  | .operandNotFound instruction operand =>
    "OperandNotFound \x7b instruction: " ++ Text.quoted instruction.render ++ ", operand: "
      ++ Text.quoted operand.render ++ " \x7d"
  | .notInstruction v | .unknownValue v | .unresolvedAddress v | .missingResult v
  | .unknownAccess v => fault.name ++ "(" ++ Text.quoted v.render ++ ")"
  | .noShadow array => fault.name ++ "(" ++ Text.quoted array.name ++ ")"

end Fault

end PathSlice
