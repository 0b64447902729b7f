import PathSlice.Program.Opcode

/-! The values of a program. A value is known by its identity, never by its content: two values are
the same if and only if their identities are equal. -/
namespace PathSlice

/-- What a value is. The values it refers to are of type `ρ`: names where a value is declared,
values once the names are resolved. -/
inductive Kind (ρ : Type) where
  /-- A parameter of the function with the given name. -/
  | argument (function : String) (ordinal : Nat)
  /-- A constant that is not a global, such as a literal. -/
  | constant
  /-- A constant computed from other constants. -/
  | constantExpr (opcode : Opcode) (operands : List ρ)
  | function (intrinsic : Bool) (parameters : List ρ)
  /-- A global variable; the value is its address. -/
  | globalVariable
  /-- An instruction of the function with the given name. The operands of a call are its arguments
  followed by the called value. -/
  | instruction (opcode : Opcode) (function : String) (operands : List ρ)

def Kind.references {ρ : Type} : Kind ρ → List ρ
  | .constantExpr _ operands => operands
  | .function _ parameters => parameters
  | .instruction _ _ operands => operands
  | .argument .. | .constant | .globalVariable => []

structure Value where
  id : Nat
  name : String
  kind : Kind Value
  type : ValueType

namespace Value

def operands (v : Value) : List Value :=
  match v.kind with
  | .constantExpr _ operands => operands
  | .instruction _ _ operands => operands
  | _ => []

def parameters (v : Value) : List Value :=
  match v.kind with
  | .function _ parameters => parameters
  | _ => []

/-- Addresses of globals are constants too. -/
def isConstant (v : Value) : Bool :=
  match v.kind with
  | .constant | .constantExpr .. | .function .. | .globalVariable => true
  | _ => false

def isGlobal (v : Value) : Bool :=
  match v.kind with
  | .function .. | .globalVariable => true
  | _ => false

def isGlobalVariable (v : Value) : Bool :=
  match v.kind with
  | .globalVariable => true
  | _ => false

def isFunction (v : Value) : Bool :=
  match v.kind with
  | .function .. => true
  | _ => false

def isIntrinsic (v : Value) : Bool :=
  match v.kind with
  | .function true _ => true
  | _ => false

def isArgument (v : Value) : Bool :=
  match v.kind with
  | .argument .. => true
  | _ => false

/-- Arguments of the entry point refer to memory that the program never allocates. -/
def isEntryArgument (v : Value) : Bool :=
  match v.kind with
  | .argument function _ => function == "main" || function == "__user_main"
  | _ => false

/-- A constant that is the address of an element of something. -/
def isConstantElementAddress (v : Value) : Bool :=
  match v.kind with
  | .constantExpr (.getElementPtr _) _ => true
  | _ => false

def isPointer (v : Value) : Bool := v.type = .pointer

def isVoid (v : Value) : Bool := v.type = .void

def opcode? (v : Value) : Option Opcode :=
  match v.kind with
  | .instruction opcode _ _ => some opcode
  | _ => none

def isCall (v : Value) : Bool := v.opcode? = some .call

/-- A branch is conditional if it has an operand, which is the condition. -/
def isConditionalBranch (v : Value) : Bool :=
  v.opcode? = some .br && !v.operands.isEmpty

/-- The function that an instruction or argument belongs to. -/
def enclosing? (v : Value) : Option String :=
  match v.kind with
  | .argument function _ => some function
  | .instruction _ function _ => some function
  | _ => none

def callArguments (v : Value) : List Value :=
  if v.isCall then v.operands.dropLast else []

/-- The function called by a call, if it is known; a constant conversion around it does not matter.
-/
def callee? (v : Value) : Option Value :=
  if v.isCall then
    match v.operands.getLast? with
    | none => none
    | some called =>
      match called.kind with
      | .function .. => some called
      | .constantExpr _ (wrapped :: _) => if wrapped.isFunction then some wrapped else none
      | _ => none
  else none

/-- The written form. Instructions and arguments are named within their function. -/
def render (v : Value) : String :=
  match v.kind with
  | .instruction opcode function _ => function ++ "/%" ++ v.name ++ " = " ++ opcode.render
  | .argument function _ => function ++ "/%" ++ v.name
  | .globalVariable | .function .. => "@" ++ v.name
  | .constant | .constantExpr .. => v.name

end Value

end PathSlice
