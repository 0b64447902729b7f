import PathSlice.Effect.Call
import PathSlice.Effect.Resolve
import PathSlice.Slice.Marking

/-! The effects of instructions. An instruction is executed with the term of its result, if it has
one, followed by the terms of the operands that matter for its opcode. -/
namespace PathSlice

namespace Recorder

/-- The versions loaded from some locations. A location that holds nothing gets the loaded version.
-/
def loadFrom (loaded : Version) : List Location → Recorder Unit
  | [] => return ()
  | l :: ls => do
    match (← get).path.content? l with
    | some held => addFlow held loaded (some l)
    | none => deposit l loaded
    loadFrom loaded ls

/-- Puts a version into the latest locations at the addresses of some locations. -/
def storeInto (data : Version) (term address : Term) : List Location → Recorder Unit
  | [] => return ()
  | target :: rest => do
    let l ← match (← get).path.latestLocation? target.site target.address with
      | some l => pure l
      | none =>
        let l ← newLocation target.site address
        let v ← newVersion target.site term
        addPointer v l
        pure l
    deposit l data
    storeInto data term address rest

/-- Makes a version the address of an element of every one of some objects. -/
def pointInto (v : Version) (address : Term) : List Location → Recorder Unit
  | [] => return ()
  | base :: rest => do
    addPointer v (← elementAt base address)
    pointInto v address rest

def addFlows (target : Version) : List Version → Recorder Unit
  | [] => return ()
  | source :: rest => do
    addFlow source target
    addFlows target rest

end Recorder

namespace Effect

open Recorder

def operand (instruction : Value) (index : Nat) : Effect Value :=
  match instruction.operands[index]? with
  | some v => return v
  | none => throw (.operandNotFound instruction (.position index))

/-- A conversion. A missing operand that can be made up is made up, as a pointer if it is one. -/
def convert (instruction : Value) (term : Term) (erroneous : Bool) : Effect Unit := do
  let source ← operand instruction 0
  match ← versionOf? source term with
  | some v =>
    let result ← newVersion instruction term
    addFlow v result
  | none =>
    if source.isConstant then return ()
    else if source.isPointer then discard <| newPointer instruction source term
    else if source.isArgument || source.isCall || erroneous then
      let madeUp ← newVersion source term
      let result ← newVersion instruction term
      addFlow madeUp result
    else throw (.operandNotFound instruction (.value source))

def unary (instruction : Value) (opcode : Opcode) (term : Term) (erroneous : Bool) :
    Effect Unit := do
  if opcode = .alloca then discard <| newPointer instruction instruction term
  else if opcode.isConversion then convert instruction term erroneous
  else throw (.unhandled instruction opcode 1)

/-- The loaded version depends on what is held by the locations of the address. False if the address
has no version. -/
def loadResolved (source : Value) (address : Term) (instruction : Value) (term : Term) :
    Effect Bool := do
  match ← versionOf? source address with
  | none => return false
  | some a =>
    let locations ← resolveAll a
    if locations.isEmpty then throw (.unresolvedAddress instruction)
    let loaded ← newVersion instruction term
    loadFrom loaded locations
    return true

/-- A load from an address that is not known to be one, or that belongs to the entry point, is
settled at once. True if it was. -/
def loadUnknown (source : Value) (address : Term) (instruction : Value) (term : Term) :
    Recorder Bool := do
  match ← versionOf? source address with
  | none => return false
  | some a =>
    match ← resolveAll a with
    | [] =>
      let l ← newLocation source address
      addPointer a l
      let loaded ← newVersion instruction term
      deposit l loaded
      return true
    | [l] =>
      if l.site.isEntryArgument then
        let loaded ← newVersion instruction term
        addPointer loaded (← locationAt instruction address)
        return true
      else return false
    | _ => return false

def load (instruction : Value) (term address : Term) : Effect Unit := do
  let source ← operand instruction 0
  unless ← loadUnknown source address instruction term do
    unless ← loadResolved source address instruction term do
      let l ← newLocation source address
      let loaded ← newVersion instruction term
      deposit l loaded

def store (instruction : Value) (term address : Term) : Effect Unit := do
  let source ← operand instruction 0
  let target ← operand instruction 1
  let data? ← versionOf? source term
  let locations ← match ← versionOf? target address with
    | some a => resolveAll a
    | none => pure []
  let data ← match data? with
    | some data => pure data
    | none => newVersion source term
  storeInto data term address locations

def constantElement (instruction base : Value) (term address : Term) : Recorder Unit := do
  let start? ← match ← versionOf? base address with
    | some v => resolve? v
    | none => pure none
  let l ← match start? with
    | some start => elementAt start term
    | none => locationAt base term
  addPointer (← newVersion instruction term) l

/-- The address of an element of every object that a version is an address in. If it is the address
of none, the result depends on what the version was computed from; if that is nothing, it starts an
object. -/
def elementOf (instruction : Value) (start : Version) (term : Term) : Recorder Unit := do
  let locations ← resolveAll start
  if !locations.isEmpty then
    pointInto (← newVersion instruction term) term locations
  else
    let sources := (← get).path.sourcesOf start
    if !sources.isEmpty then
      addFlows (← newVersion instruction term) sources
    else
      discard <| newPointer instruction start.value term

def element (instruction : Value) (inBounds : Bool) (term address : Term) : Effect Unit := do
  let base ← operand instruction 0
  if base.isConstant then constantElement instruction base term address
  else
    match ← versionOf? base address with
    | some start => elementOf instruction start term
    | none =>
      if inBounds then elementOf instruction (← newVersion base address) term
      else throw (.operandNotFound instruction (.value base))

def binary (instruction : Value) (opcode : Opcode) (term address : Term) : Effect Unit :=
  match opcode with
  | .load => load instruction term address
  | .store => store instruction term address
  | .getElementPtr inBounds => element instruction inBounds term address
  | _ => throw (.unhandled instruction opcode 2)

/-- The bounds of a range are parameters that may never have been bound. -/
def rangeBound (instruction : Value) (opcode : Opcode) (bound : String) (value : Value)
    (term : Term) (v? : Option Version) : Recorder (Option Version) := do
  if opcode ≠ .select ∧ instruction.enclosing? = some "klee_range" ∧ v?.isNone
      ∧ value.name = bound then
    return some (← newVersion value term)
  else return v?

/-- An instruction with three terms: the result depends on two operands. -/
def ternary (instruction : Value) (opcode : Opcode) (term left right : Term) : Effect Unit := do
  match opcode.combined? with
  | none => throw (.unhandled instruction opcode 3)
  | some (first, second) =>
    let first ← operand instruction first
    let second ← operand instruction second
    let a ← versionOf? first left
    let b ← versionOf? second right
    let a ← rangeBound instruction opcode "start" first left a
    let b ← rangeBound instruction opcode "end" second right b
    if a.isNone && b.isNone then notify (.untracked instruction.render)
    let result ← newVersion instruction term
    addFlows result (a.toList ++ b.toList)

/-- Records the effect of an instruction. `erroneous` is set if the path already met an error, so
that missing operands are made up. A conditional branch is executed without terms, and its condition
is sliced. -/
def execute (instruction : Value) (terms : List Term) (erroneous : Bool) : Effect Unit := do
  match instruction.opcode? with
  | none => throw (.notInstruction instruction)
  | some .call => call instruction terms
  | some opcode =>
    match terms with
    | [] => if instruction.isConditionalBranch then slice (← operand instruction 0)
    | [a] => unary instruction opcode a erroneous
    | [a, b] => binary instruction opcode a b
    | [a, b, c] => ternary instruction opcode a b c
    | _ => throw (.unhandled instruction opcode terms.length)

def choose (instruction : Value) (incoming : Nat) (term : Term) (erroneous : Bool) :
    Effect Unit := do
  let source ← operand instruction incoming
  match ← versionOf? source term with
  | some v =>
    let result ← newVersion instruction term
    addFlow v result
  | none =>
    if source.isConstant || source.isArgument || erroneous then
      discard <| newVersion instruction term
    else throw (.operandNotFound instruction (.value source))

/-- Records a load or store. If its bounds were checked, its address is sliced. -/
def access (instruction : Value) (terms : List Term) (checked erroneous : Bool) : Effect Unit := do
  execute instruction terms erroneous
  if checked then
    match instruction.opcode? with
    | some .load => slice (← operand instruction 0)
    | some .store => slice (← operand instruction 1)
    | _ => throw (.unknownAccess instruction)

end Effect

end PathSlice
