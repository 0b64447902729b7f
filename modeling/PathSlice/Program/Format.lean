import PathSlice.Json.Shape
import PathSlice.Json.Tagged
import PathSlice.Program.Declaration

/-! Declarations as JSON values. A declaration is an object with a member that tells its kind, or an
array that starts with the kind; the rest are the fields of the kind. -/
namespace PathSlice

open Json (Manner Outline)

namespace Opcode

def ofJson (manner : Manner) (j : Json) : Option Opcode :=
  match j.variant with
  | some ("GetElementPtr", some body) =>
    match manner.fields [⟨"in_bounds", .required⟩] body.1 with
    | some [some inBounds] => .getElementPtr <$> inBounds.1.bool?
    | _ => none
  | _ => j.oneOf manner name plain

end Opcode

namespace ValueType

def ofJson (manner : Manner) (j : Json) : Option ValueType :=
  match j.variant with
  | some ("Float", some w) => (.float ·.toUInt32) <$> w.1.unsigned? 32
  | some ("Integer", some w) => (.integer ·.toUInt32) <$> w.1.unsigned? 32
  | _ => j.oneOf manner render [.aggregate, .pointer, .void]

end ValueType

namespace Declaration

def tags : List String :=
  ["argument", "constant", "constant_expr", "function", "global_variable", "instruction"]

def ofFields (kind : String) (j : Json) : Option Declaration := do
  let manner := Manner.lenient
  let names := Json.orElse [] (Json.listOf Json.text?)
  match kind with
  | "argument" =>
    let [some name, some function, some ordinal, some type] ← j.fields
      [⟨"name", .required⟩, ⟨"function", .required⟩, ⟨"ordinal", .required⟩,
       ⟨"value_type", .required⟩] | none
    return ⟨← name.1.text?, .argument (← function.1.text?) (← ordinal.1.unsigned? 64),
      ← ValueType.ofJson manner type.1⟩
  | "constant" =>
    let [some name, some type] ← j.fields [⟨"name", .required⟩, ⟨"value_type", .required⟩] | none
    return ⟨← name.1.text?, .constant, ← ValueType.ofJson manner type.1⟩
  | "constant_expr" =>
    let [some name, some opcode, operands, some type] ← j.fields
      [⟨"name", .required⟩, ⟨"opcode", .required⟩, ⟨"operands", .defaulted⟩,
       ⟨"value_type", .required⟩] | none
    return ⟨← name.1.text?,
      .constantExpr (← Opcode.ofJson manner opcode.1) (← names (operands.map (·.1))),
      ← ValueType.ofJson manner type.1⟩
  | "function" =>
    let [some name, intrinsic, parameters, some type] ← j.fields
      [⟨"name", .required⟩, ⟨"intrinsic", .defaulted⟩, ⟨"parameters", .defaulted⟩,
       ⟨"return_type", .required⟩] | none
    return ⟨← name.1.text?,
      .function (← Json.orElse false Json.bool? (intrinsic.map (·.1)))
        (← names (parameters.map (·.1))),
      ← ValueType.ofJson manner type.1⟩
  | "global_variable" =>
    let [some name] ← j.fields [⟨"name", .required⟩] | none
    return ⟨← name.1.text?, .globalVariable, .pointer⟩
  | "instruction" =>
    let [some name, some function, some opcode, operands, some type] ← j.fields
      [⟨"name", .required⟩, ⟨"function", .required⟩, ⟨"opcode", .required⟩,
       ⟨"operands", .defaulted⟩, ⟨"value_type", .required⟩] | none
    return ⟨← name.1.text?,
      .instruction (← Opcode.ofJson manner opcode.1) (← function.1.text?)
        (← names (operands.map (·.1))),
      ← ValueType.ofJson manner type.1⟩
  | _ => none

def ofOutline (depth : Nat) (o : Outline) : Except Json.ReadFault Declaration := do
  let (kind, rest) ← o.tagged "kind" tags depth
  match ofFields kind rest with
  | some d => return d
  | none => throw .shape

end Declaration

end PathSlice
