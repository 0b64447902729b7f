import PathSlice.Effect.Call

/-! Looking up the arguments of a call. The lookup of an argument may create versions, and the loop
looks at the arguments one by one, so it might fail when it has changed something. It starts with the
last argument: if one of them is missing, so is the last, and the loop fails at its first turn. If
the last is there, they all are, and the loop does not fail. -/
namespace PathSlice

namespace Recorder

/-- The versions of actual arguments that are all there, looked up from the last to the first. -/
def actuals : List (Value × Term) → Recorder (List Version)
  | [] => return []
  | (value, term) :: rest => do
    let vs ← actuals rest
    return (← versionOrNew value term) :: vs

/-- The last argument is looked up first. -/
private theorem actuals_concat (given : List (Value × Term)) (value : Value) (term : Term) :
    actuals (given ++ [(value, term)]) = do
      let v ← versionOrNew value term
      return (← actuals given) ++ [v] := by
  induction given with
  | nil => rfl
  | cons g given ih =>
    simp only [List.cons_append, actuals, ih, bind_assoc, pure_bind]

end Recorder

namespace Effect

open Recorder

variable {site : Value} {terms : List Term} {n : Nat}

/-- Where one of the arguments is missing, the loop fails at its first turn. -/
private theorem argumentsBelow_missing (h : (site.callArguments.zip terms).length < n)
    (found : List Version) :
    argumentsBelow site terms n found = throw (.operandNotFound site (.argument (n - 1))) := by
  cases n with
  | zero => exact absurd h (Nat.not_lt_zero _)
  | succ i =>
    rw [List.length_zip] at h
    unfold argumentsBelow
    split
    · rename_i hvalue hterm
      have := (List.getElem?_eq_some_iff.1 hvalue).1
      have := (List.getElem?_eq_some_iff.1 hterm).1
      omega
    · rfl

/-- Where the arguments are all there, so are they at every turn. -/
private theorem argumentsBelow_given (h : n ≤ (site.callArguments.zip terms).length)
    (found : List Version) :
    argumentsBelow site terms n found = do
      return (← actuals ((site.callArguments.zip terms).take n)) ++ found := by
  induction n generalizing found with
  | zero => rfl
  | succ i ih =>
    have there := List.getElem?_eq_getElem (Nat.lt_of_succ_le h)
    obtain ⟨hvalue, hterm⟩ := List.getElem?_zip_eq_some.1 there
    rw [List.take_add_one, there, Option.toList_some, actuals_concat]
    unfold argumentsBelow
    rw [hvalue, hterm]
    simp [ih (Nat.le_of_succ_le h)]

/-- Binding fails before anything is looked up, or not at all. -/
theorem bindCall_eq (site : Value) (terms : List Term) :
    bindCall site terms =
      match site.callee? with
      | none => pure ()
      | some callee =>
        if (site.callArguments.zip terms).length < callee.parameters.length then
          throw (.operandNotFound site (.argument (callee.parameters.length - 1)))
        else (do
          let given := (site.callArguments.zip terms).take callee.parameters.length
          bindEach (callee.parameters.zip (← actuals given))) := by
  unfold bindCall
  cases site.callee? with
  | none => rfl
  | some callee =>
    dsimp only
    split
    · rename_i short
      rw [argumentsBelow_missing short]
      rfl
    · rename_i long
      rw [argumentsBelow_given (Nat.le_of_not_lt long)]
      simp

end Effect

end PathSlice
