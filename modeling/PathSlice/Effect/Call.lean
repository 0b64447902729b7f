import PathSlice.Effect.State
import PathSlice.External.Summary

/-! Calls: of functions that are not explored, by their summaries, and the binding of arguments and
results of functions that are. -/
namespace PathSlice

namespace Recorder

/-- Lets arguments flow into the result of a call. The term of an argument is the next one, or that
of the result if there are no more. -/
def flowArguments (result : Version) (fallback : Term) : List Value → List Term → Recorder Unit
  | [], _ => return ()
  | value :: values, terms => do
    if let some v ← versionOf? value (terms.head?.getD fallback) then
      addFlow v result
    flowArguments result fallback values terms.tail

def versionOrNew (value : Value) (term : Term) : Recorder Version := do
  match ← versionOf? value term with
  | some v => return v
  | none => newVersion value term

/-- Makes a new version of every parameter that depends on its actual argument. -/
def bindEach : List (Value × Version) → Recorder Unit
  | [] => return ()
  | (parameter, argument) :: rest => do
    let bound ← newVersion parameter argument.term
    addFlow argument bound
    bindEach rest

end Recorder

namespace Effect

open Recorder

def resultTerm (site : Value) (terms : List Term) : Effect Term :=
  match terms with
  | [] => throw (.missingResult site)
  | t :: _ => return t

/-- The result of a call depends on its first arguments. -/
def callFrom (site : Value) (terms : List Term) (count : Nat) : Effect Unit := do
  let term ← resultTerm site terms
  let result ← newVersion site term
  flowArguments result term (site.callArguments.take count) terms.tail

/-- A call of a function that is not explored. Without a summary the result depends on nothing. -/
def call (site : Value) (terms : List Term) : Effect Unit := do
  let some callee := site.callee? | return ()
  if callee.isIntrinsic then return ()
  match External.ruleFor? callee.name terms.length with
  | some .fresh => discard <| newVersion site (← resultTerm site terms)
  | some .allocation => discard <| newPointer site site (← resultTerm site terms)
  | some (.fromFirst count) => callFrom site terms count
  | some .fromAll => callFrom site terms (terms.length - 1)
  | none =>
    unless site.isVoid do
      let term ← resultTerm site terms
      notify (.unsummarized callee.name)
      discard <| newVersion site term

/-- The versions of the first arguments of a call, looked up one by one from the last of them to the
first, and put in front of those found before. An argument or a term may turn out to be missing when
others have been looked up. -/
def argumentsBelow (site : Value) (terms : List Term) : Nat → List Version → Effect (List Version)
  | 0, found => return found
  | i + 1, found =>
    match site.callArguments[i]?, terms[i]? with
    | some value, some term => do
      argumentsBelow site terms i ((← versionOrNew value term) :: found)
    | _, _ => throw (.operandNotFound site (.argument i))

/-- Binds the actual arguments of a call to the parameters of the called function, if that is known.
-/
def bindCall (site : Value) (terms : List Term) : Effect Unit := do
  let some callee := site.callee? | return ()
  let arguments ← argumentsBelow site terms callee.parameters.length []
  bindEach (callee.parameters.zip arguments)

/-- Makes the result of a call depend on the value returned. Nothing is bound if nothing is
returned. -/
def bindReturn (site ret : Value) (term : Term) : Effect Unit := do
  if ret.opcode? = some .ret then
    if let some returned := ret.operands.head? then
      if let some v ← versionOf? returned term then
        let result ← newVersion site term
        addFlow v result

end Effect

end PathSlice
