import PathSlice.Program.Format
import PathSlice.Replay.Event
import PathSlice.Term.Format

/-! Traces as JSON texts. A text is read from left to right and the first thing that is wrong is
reported. -/
namespace PathSlice

open Json (Document Flaw Outline ReadFault)

namespace Event

def tags : List String :=
  ["execute", "phi", "memory_operation", "fork", "backtrack", "bind_call", "bind_return",
   "shadow_array", "expect"]

/-- True if a value has nothing that a kind without fields would leave unread. -/
private def isBare : Json → Bool
  | .object _ => true
  | .array items => items.isEmpty
  | _ => false

def ofFields (kind : String) (j : Json) : Option Event := do
  let term := Term.ofJson .lenient
  let terms := Json.listOf term
  let flag := Json.orElse false Json.bool?
  let names := Json.orElse [] (Json.listOf Json.text?)
  match kind with
  | "execute" =>
    let [some instruction, some given, erroneous] ← j.fields
      [⟨"instruction", .required⟩, ⟨"expressions", .required⟩, ⟨"error", .defaulted⟩] | none
    return .execute (← instruction.1.text?) (← terms given.1) (← flag (erroneous.map (·.1)))
  | "phi" =>
    let [some instruction, some incoming, some given, erroneous] ← j.fields
      [⟨"instruction", .required⟩, ⟨"incoming", .required⟩, ⟨"expression", .required⟩,
       ⟨"error", .defaulted⟩] | none
    return .phi (← instruction.1.text?) (← incoming.1.unsigned? 64) (← term given.1)
      (← flag (erroneous.map (·.1)))
  | "memory_operation" =>
    let [some instruction, some given, some checked, erroneous] ← j.fields
      [⟨"instruction", .required⟩, ⟨"expressions", .required⟩, ⟨"bounds_check", .required⟩,
       ⟨"error", .defaulted⟩] | none
    return .access (← instruction.1.text?) (← terms given.1) (← checked.1.bool?)
      (← flag (erroneous.map (·.1)))
  | "fork" => guard (isBare j); return .fork
  | "backtrack" => guard (isBare j); return .backtrack
  | "bind_call" =>
    let [some site, some given] ← j.fields [⟨"site", .required⟩, ⟨"arguments", .required⟩] | none
    return .bindCall (← site.1.text?) (← terms given.1)
  | "bind_return" =>
    let [some site, some ret, some given] ← j.fields
      [⟨"site", .required⟩, ⟨"ret", .required⟩, ⟨"expression", .required⟩] | none
    return .bindReturn (← site.1.text?) (← ret.1.text?) (← term given.1)
  | "shadow_array" =>
    let [some source, some target] ← j.fields [⟨"source", .required⟩, ⟨"target", .required⟩] | none
    return .shadow (← SymArray.ofJson source.1) (← SymArray.ofJson target.1)
  | "expect" =>
    let [core, notCore, coreLocations] ← j.fields
      [⟨"core", .defaulted⟩, ⟨"not_core", .defaulted⟩, ⟨"core_locations", .defaulted⟩] | none
    return .expect (← names (core.map (·.1))) (← names (notCore.map (·.1)))
      (← Json.orElse none (Json.nullable (Json.unsigned? 64)) (coreLocations.map (·.1)))
  | _ => none

def ofOutline (depth : Nat) (o : Outline) : Except ReadFault Event := do
  let (kind, rest) ← o.tagged "event" tags depth
  match ofFields kind rest with
  | some e => return e
  | none => throw .shape

end Event

namespace Trace

def readList {α : Type} (element : Nat → Outline → Except ReadFault α) (depth : Nat) :
    Outline → Except ReadFault (List α)
  | .array items open? => do
    let as ← items.mapM (element (depth + 1))
    match open? with
    | some why => throw (.flaw why.content)
    | none => return as
  | .object .. => throw .shape
  | v => do
    let _ ← Json.read (v.content depth)
    throw .shape

def readFlags : Outline → Except ReadFault (Option String)
  | .null => return none
  | .text content => do return some (← Json.read content)
  | .array .. | .object .. => throw .shape
  | v => do
    let _ ← Json.read (v.content 0)
    throw .shape

/-- What was read of a trace so far. -/
structure Draft where
  flags : Option (Option String) := none
  declarations : Option (List Declaration) := none
  events : Option (List Event) := none

def readDeclarations (o : Outline) : Except ReadFault (List Declaration) :=
  readList Declaration.ofOutline 2 o

def readEvents (o : Outline) : Except ReadFault (List Event) :=
  readList Event.ofOutline 2 o

/-- Reads one member. A part of a trace must not be given twice; what is no part of it is skipped.
-/
def readMember (d : Draft) (m : Except Flaw String × Outline) : Except ReadFault Draft := do
  match ← Json.read m.1 with
  | "flags" =>
    if d.flags.isSome then throw .shape
    return { d with flags := some (← readFlags m.2) }
  | "values" =>
    if d.declarations.isSome then throw .shape
    return { d with declarations := some (← readDeclarations m.2) }
  | "events" =>
    if d.events.isSome then throw .shape
    return { d with events := some (← readEvents m.2) }
  | _ =>
    Json.read m.2.skip
    return d

/-- Reads a trace, which is an object or an array of its parts. -/
def ofOutline : Outline → Except ReadFault Trace
  | .object members open? => do
    let d ← members.foldlM readMember {}
    if let some why := open? then throw (.flaw why.content)
    match d.declarations, d.events with
    | some declarations, some events => return ⟨d.flags.getD none, declarations, events⟩
    | _, _ => throw .shape
  | .array items open? => do
    -- What is missing is a flaw of the text if the text ends there, and of the shape otherwise.
    let missing : Except ReadFault Trace :=
      match open? with
      | some why => throw (.flaw why.content)
      | none => throw .shape
    match items with
    | [] => missing
    | flags :: rest =>
      let flags ← readFlags flags
      match rest with
      | [] => missing
      | declarations :: rest =>
        let declarations ← readDeclarations declarations
        match rest with
        | [] => missing
        | events :: rest =>
          let events ← readEvents events
          unless rest.isEmpty do throw (.flaw .malformed)
          if let some why := open? then throw (.flaw why.content)
          return ⟨flags, declarations, events⟩
  | v => do
    let _ ← Json.read (v.content 1)
    throw .shape

def ofString (s : String) : Except ReadFault Trace := do
  let document := Document.ofString s
  let trace ← ofOutline document.value
  if document.trailing then throw (.flaw .malformed)
  return trace

def ofJson (j : Json) : Option Trace :=
  (ofOutline (Outline.ofJson j)).toOption

end Trace

end PathSlice
