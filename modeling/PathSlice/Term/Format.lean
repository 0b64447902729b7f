import PathSlice.Json.Shape
import PathSlice.Term.Printer

/-! Terms as JSON values. A constant is taken as it is given, also if it has bits above its width.
-/
namespace PathSlice

open Json (Part Field Manner)

def SymArray.ofJson (j : Json) : Option SymArray := do
  let [some name, some size] ← j.fields [⟨"name", .required⟩, ⟨"size", .required⟩] | none
  return ⟨← name.1.text?, (← size.1.unsigned? 64).toUInt64⟩

def SymArray.toJson (a : SymArray) : Json :=
  .object [("name", .text a.name), ("size", .ofNat a.size.toNat)]

private def word? (j : Json) : Option UInt32 :=
  (·.toUInt32) <$> j.unsigned? 32

mutual

/-- Reads a term. `manner` says how its variants may be written. -/
def Term.ofJson (manner : Manner) (j : Json) : Option Term := do
  let (kind, some body) ← j.variant | none
  match kind with
  | "Binary" =>
    let [some op, some left, some right] ← manner.fields
      [⟨"operator", .required⟩, ⟨"left", .required⟩, ⟨"right", .required⟩] body.1 | none
    have := body.2
    have := left.2
    have := right.2
    return .binary (← op.1.oneOf manner BinaryOp.name BinaryOp.all)
      (← Term.ofJson manner left.1) (← Term.ofJson manner right.1)
  | "Cast" =>
    let [some op, some operand, some width] ← manner.fields
      [⟨"kind", .required⟩, ⟨"operand", .required⟩, ⟨"width", .required⟩] body.1 | none
    have := body.2
    have := operand.2
    return .cast (← op.1.oneOf manner CastOp.name CastOp.all) (← Term.ofJson manner operand.1)
      (← word? width.1)
  | "Constant" =>
    let [some value, some width] ←
      manner.fields [⟨"value", .required⟩, ⟨"width", .required⟩] body.1 | none
    return .constant (← value.1.unsigned? 64).toUInt64 (← word? width.1)
  | "Extract" =>
    let [some operand, some offset, some width] ← manner.fields
      [⟨"operand", .required⟩, ⟨"offset", .required⟩, ⟨"width", .required⟩] body.1 | none
    have := body.2
    have := operand.2
    return .extract (← Term.ofJson manner operand.1) (← word? offset.1) (← word? width.1)
  | "Not" =>
    let [some operand] ← manner.fields [⟨"operand", .required⟩] body.1 | none
    have := body.2
    have := operand.2
    return .not (← Term.ofJson manner operand.1)
  | "NotOptimized" =>
    let [some operand] ← manner.fields [⟨"operand", .required⟩] body.1 | none
    have := body.2
    have := operand.2
    return .keep (← Term.ofJson manner operand.1)
  | "Read" =>
    let [some updates, some index] ←
      manner.fields [⟨"updates", .required⟩, ⟨"index", .required⟩] body.1 | none
    let [some root, head] ← updates.1.fields [⟨"root", .required⟩, ⟨"head", .optional⟩] | none
    have := body.2
    have := updates.2
    have := index.2
    let writes ← match head with
      | some head =>
        have := head.2
        Writes.ofJson manner head.1
      | none => pure .none
    return .read (← SymArray.ofJson root.1) writes (← Term.ofJson manner index.1)
  | "Select" =>
    let [some condition, some consequent, some alternate] ← manner.fields
      [⟨"condition", .required⟩, ⟨"consequent", .required⟩, ⟨"alternate", .required⟩] body.1 | none
    have := body.2
    have := condition.2
    have := consequent.2
    have := alternate.2
    return .select (← Term.ofJson manner condition.1) (← Term.ofJson manner consequent.1)
      (← Term.ofJson manner alternate.1)
  | _ => none
termination_by sizeOf j

/-- Reads a chain of writes, which is `null` if it is empty. -/
def Writes.ofJson (manner : Manner) (j : Json) : Option Writes := do
  match j with
  | .null => return .none
  | j =>
    let [older, some index, some value] ←
      j.fields [⟨"next", .optional⟩, ⟨"index", .required⟩, ⟨"value", .required⟩] | none
    have := index.2
    have := value.2
    let older ← match older with
      | some older =>
        have := older.2
        Writes.ofJson manner older.1
      | none => pure .none
    return .write older (← Term.ofJson manner index.1) (← Term.ofJson manner value.1)
termination_by sizeOf j

end

mutual

def Term.toJson : Term → Json
  | .binary op left right => .object [("Binary", .object
      [("operator", .text op.name), ("left", left.toJson), ("right", right.toJson)])]
  | .cast op operand w => .object [("Cast", .object
      [("kind", .text op.name), ("operand", operand.toJson), ("width", .ofNat w.toNat)])]
  | .constant value w => .object [("Constant", .object
      [("value", .ofNat value.toNat), ("width", .ofNat w.toNat)])]
  | .extract operand offset w => .object [("Extract", .object
      [("operand", operand.toJson), ("offset", .ofNat offset.toNat), ("width", .ofNat w.toNat)])]
  | .not operand => .object [("Not", .object [("operand", operand.toJson)])]
  | .keep operand => .object [("NotOptimized", .object [("operand", operand.toJson)])]
  | .read array writes index => .object [("Read", .object
      [("updates", .object [("root", array.toJson), ("head", writes.toJson)]),
       ("index", index.toJson)])]
  | .select condition consequent alternate => .object [("Select", .object
      [("condition", condition.toJson), ("consequent", consequent.toJson),
       ("alternate", alternate.toJson)])]

def Writes.toJson : Writes → Json
  | .none => .null
  | .write older index value => .object
      [("next", older.toJson), ("index", index.toJson), ("value", value.toJson)]

end

end PathSlice
