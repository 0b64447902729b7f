import Mathlib.Order.Defs.Unbundled
import PathSlice.Proofs.RecordingMoves

/-! What recording leaves as it is. All but the recording of flows keeps what every version was
computed from; looking a value up says nothing new about the versions and locations that are there,
even if it creates some. -/
namespace PathSlice

/-- The flows stay as they are. -/
structure SameFlows (s t : State) : Prop where
  next : s.next ≤ t.next
  current : t.path.current.flows = s.path.current.flows
  ancestors : t.path.ancestors = s.path.ancestors

/-- The versions that are there stay the addresses of what they are. -/
structure SameAddresses (s t : State) : Prop extends SameFlows s t where
  pointee : ∀ v : Version, v.id < s.next → t.path.pointee? v = s.path.pointee? v

/-- Nothing new is said of the versions and locations that are there. -/
structure Looked (s t : State) : Prop extends SameAddresses s t where
  deposits : t.path.current.deposits = s.path.current.deposits

namespace SameFlows

variable {s t : State}

theorem flows (h : SameFlows s t) : t.path.flows = s.path.flows := by
  simp only [Path.flows, Path.frames, List.flatMap_cons, h.current, h.ancestors]

theorem sourcesOf (h : SameFlows s t) : t.path.sourcesOf = s.path.sourcesOf := by
  funext v
  have here : t.path.current.sourcesOf v = s.path.current.sourcesOf v := by
    simp only [Frame.sourcesOf, Frame.flowsInto, h.current]
  simp only [Path.sourcesOf, Path.frames, h.ancestors, List.reverse_cons, List.flatMap_append,
    List.flatMap_cons, List.flatMap_nil, here]

theorem ends (h : SameFlows s t) : t.path.ends = s.path.ends := by
  funext v
  simp only [Path.ends, Path.closure, Path.sourceIds, h.sourcesOf, h.flows]

/-- A slice changes neither the path nor the supply of identities. -/
theorem of_path_eq (hp : t.path = s.path) (hn : t.next = s.next) : SameFlows s t :=
  ⟨Nat.le_of_eq hn.symm, by rw [hp], by rw [hp]⟩

end SameFlows

instance : IsPreorder State SameFlows where
  refl _ := ⟨Nat.le_refl _, rfl, rfl⟩
  trans _ _ _ h h' := ⟨Nat.le_trans h.next h'.next, h'.current.trans h.current,
    h'.ancestors.trans h.ancestors⟩

instance : IsPreorder State SameAddresses where
  refl s := ⟨refl_of SameFlows s, fun _ _ => rfl⟩
  trans _ _ _ h h' := ⟨trans_of SameFlows h.toSameFlows h'.toSameFlows,
    fun v hv => (h'.pointee v (Nat.lt_of_lt_of_le hv h.next)).trans (h.pointee v hv)⟩

theorem Looked.content? {s t : State} (h : Looked s t) (l : Location) :
    t.path.content? l = s.path.content? l := by
  simp only [Path.content?, Path.deposits, Path.frames, List.flatMap_cons, h.deposits, h.ancestors]

instance : IsPreorder State Looked where
  refl s := ⟨refl_of SameAddresses s, rfl⟩
  trans _ _ _ h h' := ⟨trans_of SameAddresses h.toSameAddresses h'.toSameAddresses,
    h'.deposits.trans h.deposits⟩

namespace Recorder

variable {α β : Type}

theorem run_bind (m : Recorder α) (k : α → Recorder β) (s : State) :
    (m >>= k) s = k (m s).1 (m s).2 :=
  rfl

theorem run_get (k : State → Recorder α) (s : State) : (get >>= k) s = k s s :=
  rfl

/-- Wherever the computation starts, the state that it leads to is related to that one. -/
def Keeps (R : State → State → Prop) (m : Recorder α) : Prop :=
  ∀ s, R s (m s).2

namespace Keeps

variable {R : State → State → Prop} [IsPreorder State R]

theorem pure (a : α) : Keeps R (Pure.pure a) :=
  fun s => refl_of R s

theorem bind {m : Recorder α} {k : α → Recorder β} (hm : Keeps R m) (hk : ∀ a, Keeps R (k a)) :
    Keeps R (m >>= k) :=
  fun s => trans_of R (hm s) (hk _ _)

/-- What follows a fault is not carried out. -/
theorem rest {k : α → Effect β} (hk : ∀ a, Keeps R (k a).run) (m : Effect α) (s : State) :
    R (m.run s).2 ((m >>= k).run s).2 := by
  change R (m.run s).2 (ExceptT.bindCont k (m.run s).1 (m.run s).2).2
  cases (m.run s).1 with
  | ok a => exact hk a _
  | error fault => exact refl_of R _

theorem andThen {m : Effect α} {k : α → Effect β} (hm : Keeps R m.run)
    (hk : ∀ a, Keeps R (k a).run) : Keeps R (m >>= k).run :=
  fun s => trans_of R (hm s) (rest hk m s)

omit [IsPreorder State R] in
theorem get {k : State → Recorder α} (hk : ∀ s, Keeps R (k s)) : Keeps R (get >>= k) :=
  fun s => hk s s

omit [IsPreorder State R] in
theorem ite {c : Prop} [Decidable c] {m m' : Recorder α} (h : Keeps R m) (h' : Keeps R m') :
    Keeps R (if c then m else m') := by
  split
  · exact h
  · exact h'

end Keeps

section Lookups

theorem newVersion_looked (value : Value) (x : Term) : Keeps Looked (newVersion value x) :=
  fun _ => ⟨⟨⟨Nat.le_succ _, rfl, rfl⟩, fun _ _ => rfl⟩, rfl⟩

/-- The pointer is one of a new version, so no other version is said to be an address. -/
theorem newPointer_looked (value site : Value) (x : Term) :
    Keeps Looked (newPointer value site x) := by
  refine fun s => ⟨⟨⟨Nat.le_add_right _ 2, rfl, rfl⟩, fun u hu => ?_⟩, rfl⟩
  have hb : (s.next == u.id) = false := by simpa using Nat.ne_of_gt hu
  let made : Pointer := ⟨⟨s.next, value, x⟩, Location.start (s.next + 1) site x⟩
  have front : (newPointer value site x s).2.path.pointers = made :: s.path.pointers := rfl
  simp only [Path.pointee?, front, List.find?_cons, made, hb]

/-- What is looked up is the latest version, or a new one, which may be the address of a new
location. -/
theorem versionOf?_cases (value : Value) (x : Term) (s : State) :
    let version := newVersion value x s
    let pointer := newPointer value value x s
    versionOf? value x s = (s.path.latest? value, s) ∨
      versionOf? value x s = (some version.1, version.2) ∨
      versionOf? value x s = (some pointer.1, pointer.2) := by
  intro version pointer
  unfold versionOf?
  split
  · exact .inr (.inr rfl)
  · split
    · exact .inr (.inl rfl)
    · rw [run_get]
      cases s.path.latest? value with
      | some v => exact .inl rfl
      | none =>
        dsimp only
        split
        · split
          · exact .inr (.inr rfl)
          · exact .inr (.inl rfl)
        · exact .inl rfl

theorem versionOf?_of_not_isConstant {value : Value} (h : ¬value.isConstant) (x : Term)
    (s : State) : versionOf? value x s = (s.path.latest? value, s) := by
  have element : value.isConstantElementAddress = false := by
    cases hk : value.kind <;> simp_all [Value.isConstant, Value.isConstantElementAddress]
  have global : value.isGlobal = false := by
    cases hk : value.kind <;> simp_all [Value.isConstant, Value.isGlobal]
  simp only [versionOf?, element, h, global, Bool.false_eq_true, if_false, Bool.not_false,
    Bool.and_true]
  rw [run_get]
  cases s.path.latest? value <;> rfl

theorem versionOf?_looked (value : Value) (x : Term) : Keeps Looked (versionOf? value x) := by
  intro s
  rcases versionOf?_cases value x s with h | h | h <;> rw [h]
  · exact refl_of Looked s
  · exact newVersion_looked value x s
  · exact newPointer_looked value value x s

end Lookups

section Quiet

theorem newVersion_quiet (value : Value) (x : Term) : Keeps SameFlows (newVersion value x) :=
  fun s => (newVersion_looked value x s).toSameFlows

theorem newLocation_quiet (site : Value) (x : Term) : Keeps SameFlows (newLocation site x) :=
  fun _ => ⟨Nat.le_succ _, rfl, rfl⟩

theorem newPointer_quiet (value site : Value) (x : Term) :
    Keeps SameFlows (newPointer value site x) :=
  fun s => (newPointer_looked value site x s).toSameFlows

theorem versionOf?_quiet (value : Value) (x : Term) : Keeps SameFlows (versionOf? value x) :=
  fun s => (versionOf?_looked value x s).toSameFlows

theorem addPointer_quiet (v : Version) (l : Location) : Keeps SameFlows (addPointer v l) :=
  fun _ => ⟨Nat.le_refl _, rfl, rfl⟩

theorem deposit_quiet (l : Location) (v : Version) : Keeps SameFlows (deposit l v) :=
  fun _ => ⟨Nat.le_refl _, rfl, rfl⟩

theorem notify_quiet (x : Notice) : Keeps SameFlows (notify x) :=
  fun _ => ⟨Nat.le_refl _, rfl, rfl⟩

private theorem locationAt_quiet (site : Value) (x : Term) : Keeps SameFlows (locationAt site x) := by
  refine .get fun s => ?_
  split
  · exact .pure _
  · exact newLocation_quiet site x

private theorem elementAt_quiet (base : Location) (x : Term) : Keeps SameFlows (elementAt base x) := by
  have relocated (y : Term) : Keeps SameFlows (relocate base x y) := by
    intro s
    rw [relocate_run]
    exact ⟨Nat.le_succ _, rfl, rfl⟩
  refine .get fun s => ?_
  split
  · exact .pure _
  · refine .bind (relocated _) fun l => .bind (fun _ => ?_) fun _ => .pure l
    exact ⟨Nat.le_refl _, rfl, rfl⟩

theorem resolve?_quiet (v : Version) : Keeps SameFlows (resolve? v) := by
  refine .get fun s => ?_
  split
  · exact .pure _
  · refine .ite ?_ (.pure _)
    exact .bind (newLocation_quiet _ _) fun l => .bind (newVersion_quiet _ _) fun _ =>
      .bind (addPointer_quiet _ l) fun _ => .pure _

private theorem resolveEach_quiet (vs : List Version) : Keeps SameFlows (resolveEach vs) := by
  induction vs with
  | nil => exact .pure _
  | cons v vs ih =>
    refine .bind (resolve?_quiet v) fun l? => ?_
    cases l? with
    | none => exact ih
    | some l => exact .bind ih fun _ => .pure _

theorem resolveAll_quiet (v : Version) : Keeps SameFlows (resolveAll v) := by
  refine .bind (resolve?_quiet v) fun l? => ?_
  cases l? with
  | none => exact .get fun _ => resolveEach_quiet _
  | some l => exact .pure _

theorem storeInto_quiet (d : Version) (x y : Term) (ls : List Location) :
    Keeps SameFlows (storeInto d x y ls) := by
  induction ls with
  | nil => exact .pure _
  | cons l ls ih =>
    have rest (k : Location) : Keeps SameFlows (deposit k d >>= fun _ => storeInto d x y ls) :=
      .bind (deposit_quiet k d) fun _ => ih
    refine .get fun s => ?_
    split
    · exact rest _
    · exact .bind (newLocation_quiet _ y) fun k => .bind (newVersion_quiet _ x) fun v =>
        .bind (addPointer_quiet v k) fun _ => rest k

theorem pointInto_quiet (v : Version) (x : Term) (ls : List Location) :
    Keeps SameFlows (pointInto v x ls) := by
  induction ls with
  | nil => exact .pure _
  | cons l ls ih =>
    exact .bind (elementAt_quiet l x) fun k => .bind (addPointer_quiet v k) fun _ => ih

private theorem versionOrNew_quiet (value : Value) (x : Term) :
    Keeps SameFlows (versionOrNew value x) := by
  refine .bind (versionOf?_quiet value x) fun v? => ?_
  cases v? with
  | none => exact newVersion_quiet value x
  | some v => exact .pure v

theorem actuals_quiet (given : List (Value × Term)) : Keeps SameFlows (actuals given) := by
  induction given with
  | nil => exact .pure _
  | cons g given ih =>
    exact .bind ih fun vs => .bind (versionOrNew_quiet g.1 g.2) fun _ => .pure _

end Quiet

end Recorder

namespace Effect

open Recorder

section Runs

variable {α β : Type} {s : State} {i a : Value}

theorem run_lift (m : Recorder α) (k : α → Effect β) (s : State) :
    (liftM m >>= k).run s = (k (m s).1).run (m s).2 :=
  rfl

theorem run_of_ok {m : Effect α} {b : α} {t : State} (h : m.run s = (.ok b, t)) (k : α → Effect β) :
    (m >>= k).run s = (k b).run t := by
  change ExceptT.bindCont k (m.run s).1 (m.run s).2 = _
  rw [h]
  rfl

/-- A fault ends the effect; otherwise what follows goes on from where the first part ended. -/
theorem run_bind_cases (m : Effect α) (k : α → Effect β) (s : State) :
    (∃ fault t, m.run s = (.error fault, t) ∧ (m >>= k).run s = (.error fault, t)) ∨
      ∃ b t, m.run s = (.ok b, t) ∧ (m >>= k).run s = (k b).run t := by
  cases hm : m.run s with
  | mk outcome t =>
    cases outcome with
    | ok b => exact .inr ⟨b, t, rfl, run_of_ok hm k⟩
    | error fault =>
      refine .inl ⟨fault, t, rfl, ?_⟩
      change ExceptT.bindCont k (m.run s).1 (m.run s).2 = _
      rw [hm]
      rfl

/-- What comes last leads to the state, unless there was a fault before it. -/
theorem run_bind_state (m : Effect α) (k : Effect β) (s : State) :
    ((m >>= fun _ => k).run s).2 = (m.run s).2 ∨
      ((m >>= fun _ => k).run s).2 = (k.run (m.run s).2).2 := by
  rcases run_bind_cases m (fun _ => k) s with ⟨_, _, hm, hb⟩ | ⟨_, _, hm, hb⟩
  · exact .inl (by rw [hb, hm])
  · exact .inr (by rw [hb, hm])

/-- An effect succeeds if both parts of it do. -/
theorem ok_of_bind {m : Effect α} {k : α → Effect β} {c : β} {t : State}
    (h : (m >>= k).run s = (.ok c, t)) :
    ∃ b u, m.run s = (.ok b, u) ∧ (k b).run u = (.ok c, t) := by
  rcases run_bind_cases m k s with ⟨_, _, _, hb⟩ | ⟨b, u, hm, hb⟩
  · rw [hb] at h
    cases h
  · exact ⟨b, u, hm, hb ▸ h⟩

/-- What follows matters only where there is something for it to follow. -/
theorem run_bind_congr {m : Effect α} {k k' : α → Effect β}
    (h : ∀ b t, m.run s = (.ok b, t) → (k b).run t = (k' b).run t) :
    (m >>= k).run s = (m >>= k').run s := by
  rcases run_bind_cases m k s with ⟨fault, t, hm, hb⟩ | ⟨b, t, hm, hb⟩
  · rcases run_bind_cases m k' s with ⟨_, _, hm', hb'⟩ | ⟨_, _, hm', _⟩
    · cases hm.symm.trans hm'
      rw [hb, hb']
    · cases hm.symm.trans hm'
  · rw [hb, run_of_ok hm k', h b t hm]

theorem run_operand {index : Nat} (h : i.operands[index]? = some a) (k : Value → Effect β)
    (s : State) : (operand i index >>= k).run s = (k a).run s := by
  refine run_of_ok ?_ k
  unfold operand
  rw [h]
  rfl

/-- Without the operand nothing happens. -/
theorem run_operand_state {index : Nat} {k : Value → Effect β} {P : State → Prop} (hs : P s)
    (hk : ∀ a, i.operands[index]? = some a → P ((k a).run s).2) :
    P ((operand i index >>= k).run s).2 := by
  cases h : i.operands[index]? with
  | none =>
    unfold operand
    rw [h]
    exact hs
  | some a =>
    rw [run_operand h]
    exact hk a h

end Runs

theorem rangeBound_quiet (i : Value) (opcode : Opcode) (bound : String) (value : Value) (x : Term)
    (v? : Option Version) : Keeps SameFlows (rangeBound i opcode bound value x v?) :=
  .ite (.bind (newVersion_quiet value x) fun _ => .pure _) (.pure v?)

theorem loadUnknown_quiet (source : Value) (y : Term) (i : Value) (x : Term) :
    Keeps SameFlows (loadUnknown source y i x) := by
  refine .bind (versionOf?_quiet source y) fun a? => ?_
  cases a? with
  | none => exact .pure _
  | some a =>
    refine .bind (resolveAll_quiet a) fun ls => ?_
    match ls with
    | [] =>
      exact .bind (newLocation_quiet source y) fun l => .bind (addPointer_quiet a l) fun _ =>
        .bind (newVersion_quiet i x) fun v => .bind (deposit_quiet l v) fun _ => .pure _
    | [l] =>
      refine .ite ?_ (.pure _)
      exact .bind (newVersion_quiet i x) fun v => .bind (locationAt_quiet i y) fun k =>
        .bind (addPointer_quiet v k) fun _ => .pure _
    | _ :: _ :: _ => exact .pure _

theorem constantElement_quiet (i base : Value) (x y : Term) :
    Keeps SameFlows (constantElement i base x y) := by
  have point (l : Location) : Keeps SameFlows (newVersion i x >>= fun v => addPointer v l) :=
    .bind (newVersion_quiet i x) fun v => addPointer_quiet v l
  have fallback := Keeps.bind (locationAt_quiet base x) point
  refine .bind (versionOf?_quiet base y) fun v? => ?_
  cases v? with
  | none => exact fallback
  | some v =>
    refine .bind (resolve?_quiet v) fun l? => ?_
    cases l? with
    | none => exact fallback
    | some l => exact .bind (elementAt_quiet l x) point

theorem operand_quiet (i : Value) (index : Nat) : Keeps SameFlows (operand i index).run := by
  unfold operand
  cases i.operands[index]? <;> exact .pure _

theorem store_quiet (i : Value) (x y : Term) : Keeps SameFlows (store i x y).run := by
  refine .andThen (operand_quiet i 0) fun source => .andThen (operand_quiet i 1) fun target => ?_
  refine .andThen (versionOf?_quiet source x) fun d? => ?_
  refine .andThen (versionOf?_quiet target y) fun a? => ?_
  have fresh (ls : List Location) := Keeps.bind (newVersion_quiet source x) fun d =>
    storeInto_quiet d x y ls
  cases d? with
  | some d =>
    cases a? with
    | none => exact storeInto_quiet d x y []
    | some a => exact .andThen (resolveAll_quiet a) fun ls => storeInto_quiet d x y ls
  | none =>
    cases a? with
    | none => exact fresh []
    | some a => exact .andThen (resolveAll_quiet a) fresh

theorem slice_quiet (value : Value) : Keeps SameFlows (slice value).run := by
  refine .andThen (fun s => refl_of SameFlows s) fun s => .andThen ?_ fun g t => ?_
  · unfold markValue
    cases s.path.latest? value with
    | some v => exact fun t => .of_path_eq rfl rfl
    | none =>
      refine .ite (.ite ?_ (.pure _)) (.pure _)
      exact fun t => .of_path_eq rfl rfl
  · obtain ⟨hp, hn, _⟩ := markLocations_state s.path g t
    exact .of_path_eq hp hn

end Effect

end PathSlice
