import PathSlice.Program.Value

/-! Declarations of values by name. A declaration may refer to earlier declarations only, so the
values declared are a program without cycles. -/
namespace PathSlice

structure Declaration where
  name : String
  kind : Kind String
  type : ValueType

inductive NameFault where
  | unknown (name : String)
  | duplicate (name : String)
  deriving DecidableEq

/-- The values declared so far, in order of declaration. -/
abbrev Program := List Value

namespace Program

def find? (p : Program) (name : String) : Option Value :=
  List.find? (·.name == name) p

def resolve (p : Program) (name : String) : Except NameFault Value :=
  match p.find? name with
  | some v => .ok v
  | none => .error (.unknown name)

/-- The kind of a value whose references are resolved, the first unknown one being the fault. -/
def resolveKind (p : Program) : Kind String → Except NameFault (Kind Value)
  | .argument function ordinal => .ok (.argument function ordinal)
  | .constant => .ok .constant
  | .constantExpr opcode operands => .constantExpr opcode <$> operands.mapM p.resolve
  | .function intrinsic parameters => .function intrinsic <$> parameters.mapM p.resolve
  | .globalVariable => .ok .globalVariable
  | .instruction opcode function operands =>
    .instruction opcode function <$> operands.mapM p.resolve

def declare (p : Program) (id : Nat) (d : Declaration) : Except NameFault Program := do
  if (p.find? d.name).isSome then throw (.duplicate d.name)
  let kind ← p.resolveKind d.kind
  return p ++ [⟨id, d.name, kind, d.type⟩]

def declareAll (p : Program) (id : Nat) : List Declaration → Except NameFault Program
  | [] => .ok p
  | d :: ds => do declareAll (← p.declare id d) (id + 1) ds

/-- The values of a list of declarations; the first of them has the identity `id`. -/
def ofDeclarations (id : Nat) (ds : List Declaration) : Except NameFault Program :=
  declareAll [] id ds

end Program

end PathSlice
