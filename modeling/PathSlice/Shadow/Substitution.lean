import PathSlice.Term.Order

/-! Substitution of arrays. Every array that a term reads is replaced by its image under a partial
map; all else stays as it is. The images used are collected, also when the substitution fails. -/
namespace PathSlice

/-- Collects arrays in a set, and fails at an array that has no image. -/
abbrev Substitution := ExceptT SymArray (StateM (List SymArray))

def Substitution.use (a : SymArray) : Substitution Unit :=
  modify (Ascending.insert SymArray.compare a)

mutual

/-- Replaces the arrays of a term: of a read the array first, then those in its writes from the
oldest on, then those in its index. -/
def Term.substitute (image : SymArray → Option SymArray) : Term → Substitution Term
  | .binary op left right => do
    let left ← left.substitute image
    let right ← right.substitute image
    return .binary op left right
  | .cast op operand w => do
    let operand ← operand.substitute image
    return .cast op operand w
  | .constant value w => return .constant value w
  | .extract operand offset w => do
    let operand ← operand.substitute image
    return .extract operand offset w
  | .not operand => do
    let operand ← operand.substitute image
    return .not operand
  | .keep operand => do
    let operand ← operand.substitute image
    return .keep operand
  | .read array writes index => do
    match image array with
    | none => throw array
    | some shadow =>
      Substitution.use shadow
      let writes ← writes.substitute image
      let index ← index.substitute image
      return .read shadow writes index
  | .select condition consequent alternate => do
    let condition ← condition.substitute image
    let consequent ← consequent.substitute image
    let alternate ← alternate.substitute image
    return .select condition consequent alternate

def Writes.substitute (image : SymArray → Option SymArray) : Writes → Substitution Writes
  | .none => return .none
  | .write older index value => do
    let older ← older.substitute image
    let index ← index.substitute image
    let value ← value.substitute image
    return .write older index value

end

end PathSlice
