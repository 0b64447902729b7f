import PathSlice.Proofs.AddressResolution
import PathSlice.Proofs.BacktrackRuns
import PathSlice.Proofs.FlowDrawing

/-! Looking an address up twice. A load looks its address up and resolves it, and unless that
settles the load it does both again. In between there may be new versions of constants, and locations
that were made up, but the second time finds a version if the first one did, and locations if the
first one did. So a load that has an operand does not fail. -/
namespace PathSlice

namespace Recorder

/-- The locations of the address that a value holds, if the value has a version. -/
def locate? (value : Value) (address : Term) : Recorder (Option (List Location)) := do
  match ← versionOf? value address with
  | none => return none
  | some a => return some (← resolveAll a)

variable {s : State} {value : Value} {y : Term} {a : Version}

theorem locate?_of_none (h : (versionOf? value y s).1 = none) : locate? value y s = (none, s) := by
  rw [locate?, run_bind, versionOf?_eq_none h]
  rfl

theorem locate?_of_some (h : (versionOf? value y s).1 = some a) :
    locate? value y s =
      (some (resolveAll a (versionOf? value y s).2).1,
        (resolveAll a (versionOf? value y s).2).2) := by
  rw [locate?, run_bind, h]
  rfl

private theorem isEmpty_locate?_of_resolves (h : (versionOf? value y s).1 = some a)
    (hr : (versionOf? value y s).2.path.Resolves a) :
    (locate? value y s).1.map List.isEmpty = some false := by
  rw [locate?_of_some h]
  simpa using resolveAll_ne_nil_iff.2 hr

private theorem locate?_of_not_resolves (h : (versionOf? value y s).1 = some a)
    (hr : ¬(versionOf? value y s).2.path.Resolves a) :
    locate? value y s = (some [], (versionOf? value y s).2) := by
  rw [locate?_of_some h, resolveAll_of_not_resolves hr]

/-- An address that did not resolve does not resolve either when it is looked up again. -/
private theorem versionOf?_not_resolves (h : Recorded s) (ha : (versionOf? value y s).1 = some a)
    (hr : ¬(versionOf? value y s).2.path.Resolves a) :
    let t := (versionOf? value y s).2
    ∃ b, (versionOf? value y t).1 = some b ∧ ¬(versionOf? value y t).2.path.Resolves b := by
  intro t
  by_cases hl : value.Lasting
  · rw [versionOf?_of_latest? hl (latest?_of_versionOf? hl ha)]
    exact ⟨a, rfl, hr⟩
  · obtain ⟨constant, global⟩ := Classical.not_imp.1 hl
    by_cases he : value.isConstantElementAddress
    · rw [versionOf?_of_isConstantElementAddress he] at ha hr
      cases ha
      have known : (newPointer value value y s).2.path.Pointing (newPointer value value y s).1 := by
        left
        rw [pointee?_newPointer]
        rfl
      exact absurd (.inl known) hr
    · have recorded : Recorded t :=
        (Recorded.of_lookup ((recording_lawful 0).versionOf? h.self value y)).1
      rw [versionOf?_of_constant constant global he]
      have entry := Value.not_isEntryArgument_of_isConstant constant
      exact ⟨_, rfl, Effect.not_resolves_newVersion recorded entry⟩

/-- The second time finds a version if the first one did, and locations if the first one did. -/
theorem locate?_again (h : Recorded s) (value : Value) (y : Term) :
    let first := locate? value y s
    let second := locate? value y first.2
    second.1.map List.isEmpty = first.1.map List.isEmpty := by
  intro first second
  cases ha : (versionOf? value y s).1 with
  | none =>
    have untracked : first = (none, s) := locate?_of_none ha
    have again : second = first := congrArg (fun r => locate? value y r.2) untracked
    rw [again]
  | some a =>
    by_cases hr : (versionOf? value y s).2.path.Resolves a
    · have state : first.2 = (resolveAll a (versionOf? value y s).2).2 :=
        congrArg Prod.snd (locate?_of_some ha)
      obtain ⟨b, hb, hr'⟩ := Effect.versionOf?_resolves h ha hr (resolveAll_resolving a _)
      rw [← state] at hb hr'
      have found : first.1.map List.isEmpty = some false := isEmpty_locate?_of_resolves ha hr
      rw [found]
      exact isEmpty_locate?_of_resolves hb hr'
    · have unresolved : first = (some [], (versionOf? value y s).2) := locate?_of_not_resolves ha hr
      obtain ⟨b, hb, hr'⟩ := versionOf?_not_resolves h ha hr
      have again : second = locate? value y (versionOf? value y s).2 :=
        congrArg (fun r => locate? value y r.2) unresolved
      rw [again, unresolved, locate?_of_not_resolves hb hr']

end Recorder

namespace Effect

open Recorder

variable {s : State} {i source : Value} {x y : Term}

/-- A load that is left to be resolved has found no version, or a version with locations. -/
theorem loadUnknown_locate? (h : (loadUnknown source y i x s).1 = false) :
    (loadUnknown source y i x s).2 = (locate? source y s).2 ∧
      (locate? source y s).1.map List.isEmpty ≠ some true := by
  rcases loadUnknown_cases h with ⟨ha, run⟩ | ⟨a, ha, hls, run⟩
  · rw [run, locate?_of_none ha]
    simp
  · rw [run, locate?_of_some ha]
    simpa using hls

/-- The outcome of a load whose address is resolved depends on what looking it up finds. -/
private theorem loadResolved_locate? (source i : Value) (x y : Term) (s : State) :
    ((loadResolved source y i x).run s).1 =
      match (locate? source y s).1.map List.isEmpty with
      | none => .ok false
      | some true => .error (.unresolvedAddress i)
      | some false => .ok true := by
  cases ha : (versionOf? source y s).1 with
  | none => rw [loadResolved_of_none ha, locate?_of_none ha]; rfl
  | some a =>
    rw [loadResolved_of_some ha, locate?_of_some ha]
    dsimp only [Option.map_some]
    cases (resolveAll a (versionOf? source y s).2).1.isEmpty <;> rfl

/-- The address of a load that is left to be resolved has a version again, and locations again. -/
theorem loadResolved_again (h : Recorded s) (hu : (loadUnknown source y i x s).1 = false) :
    ((loadResolved source y i x).run (loadUnknown source y i x s).2).1 =
      .ok (locate? source y s).1.isSome := by
  obtain ⟨state, found⟩ := loadUnknown_locate? hu
  rw [state, loadResolved_locate?, locate?_again h]
  cases hl : (locate? source y s).1 with
  | none => rfl
  | some ls =>
    rw [hl] at found
    cases hls : ls.isEmpty with
    | true => simp [hls] at found
    | false => simp [hls]

/-- A load fails only if it has no operand. -/
theorem load_ok (h : Recorded s) (hi : i.operands[0]? = some source) (x y : Term) :
    ∃ t, (load i x y).run s = (.ok (), t) := by
  unfold load
  rw [run_operand hi, run_lift]
  cases hu : (loadUnknown source y i x s).1 with
  | true => exact ⟨_, rfl⟩
  | false =>
    have resolved := loadResolved_again h hu
    rw [if_neg Bool.false_ne_true, run_of_ok (Prod.ext resolved rfl)]
    cases (locate? source y s).1.isSome
    · exact ⟨_, rfl⟩
    · exact ⟨_, rfl⟩

end Effect

namespace Replay

open Recorder

/-- After any events, a load that has an operand succeeds. Looking its address up twice finds a
version both times or not at all, and locations both times or not at all. What the load looks up a
second time is looked up in the state that the first time has left, and resolved if it has a
version. -/
theorem loads_succeed (program : Program) (next : Nat) (existential : Bool) (events : List Event)
    {i source : Value} (ho : i.opcode? = some .load) (hi : i.operands[0]? = some source)
    (x y : Term) (erroneous : Bool) :
    let s := (pursue 0 events (start program next existential)).2.state
    let first := locate? source y s
    let second := locate? source y first.2
    let unknown := Effect.loadUnknown source y i x s
    (∃ t, (Effect.execute i [x, y] erroneous).run s = (.ok (), t)) ∧
      second.1.map List.isEmpty = first.1.map List.isEmpty ∧
      (unknown.1 = false → unknown.2 = first.2 ∧
        ((Effect.loadResolved source y i x).run unknown.2).1 = .ok first.1.isSome) := by
  intro s first second unknown
  have recorded : Recorded s := (pursue_standing program next existential events).settled.toRecorded
  refine ⟨?_, locate?_again recorded source y, fun hu => ?_⟩
  · have executed : Effect.execute i [x, y] erroneous = Effect.load i x y := by
      simp only [Effect.execute, ho, Effect.binary]
    rw [executed]
    exact Effect.load_ok recorded hi x y
  · exact ⟨(Effect.loadUnknown_locate? hu).1, Effect.loadResolved_again recorded hu⟩

/-! A choice between what is handed on from the entry point and a slot. -/

namespace EitherAddress

def literal : Value := ⟨1, "k", .constant, .integer 1⟩
def given : Value := ⟨2, "argv", .argument "main" 1, .pointer⟩
def parameter : Value := ⟨3, "a", .argument "f" 0, .pointer⟩
def slot : Value := ⟨4, "p", .instruction .alloca "f" [], .pointer⟩
def either : Value := ⟨5, "s", .instruction .select "f" [literal, parameter, slot], .pointer⟩
def read : Value := ⟨6, "r", .instruction .load "f" [either], .integer 32⟩
def callee : Value := ⟨7, "f", .function false [parameter], .integer 32⟩
def site : Value := ⟨8, "c", .instruction .call "main" [given, callee], .integer 32⟩

def program : Program := [literal, given, parameter, slot, either, read, callee, site]

def events : List Event :=
  [.bindCall "c" [.pointer 4096],
    .execute "p" [.pointer 16] false,
    .execute "s" [.pointer 16, .pointer 4096, .pointer 16] false]

def state : State :=
  (pursue 0 events (start program 9 true)).2.state

def looked : State :=
  (locate? either (.pointer 16) state).2

private theorem located :
    (locate? either (.pointer 16) state).1.map (·.map (·.id)) = some [15, 13] := by
  decide +kernel

private theorem relocated :
    (locate? either (.pointer 16) looked).1.map (·.map (·.id)) = some [17, 13] := by
  decide +kernel

private theorem unsettled :
    (Effect.loadUnknown either (.pointer 16) read (.ofBits 7 32) state).1 = false := by
  decide +kernel

end EitherAddress

/-- One of the two locations is made up, each time anew. -/
theorem loads_succeed_eitherAddress :
    let first := locate? EitherAddress.either (.pointer 16) EitherAddress.state
    let second := locate? EitherAddress.either (.pointer 16) EitherAddress.looked
    first.1.map (·.map (·.id)) = some [15, 13] ∧ second.1.map (·.map (·.id)) = some [17, 13] ∧
      second.1.map List.isEmpty = first.1.map List.isEmpty ∧
      ((Effect.loadResolved EitherAddress.either (.pointer 16) EitherAddress.read
        (.ofBits 7 32)).run EitherAddress.looked).1 = .ok true ∧
      ∃ t, (Effect.execute EitherAddress.read [.ofBits 7 32, .pointer 16] false).run
        EitherAddress.state = (.ok (), t) := by
  intro first second
  have operand : EitherAddress.read.operands[0]? = some EitherAddress.either := rfl
  obtain ⟨run, again, resolved⟩ := loads_succeed EitherAddress.program 9 true EitherAddress.events
    rfl operand (.ofBits 7 32) (.pointer 16) false
  obtain ⟨state, outcome⟩ := resolved EitherAddress.unsettled
  have tracked : first.1.isSome := by
    have located := congrArg Option.isSome EitherAddress.located
    rwa [Option.isSome_map] at located
  rw [state] at outcome
  refine ⟨EitherAddress.located, EitherAddress.relocated, again, ?_, run⟩
  exact outcome.trans (congrArg Except.ok tracked)

end Replay

end PathSlice
