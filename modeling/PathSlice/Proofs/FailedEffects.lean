import PathSlice.Proofs.RepeatedLookups

/-! Effects that fail. Looking an operand up may create versions and locations, but not if no
version is found, and an effect that has found what it needs does not fail any more. So an effect
that fails has changed nothing. -/
namespace PathSlice

namespace Effect

open Recorder

section Rules

variable {α β : Type} {s : State} {e : Effect α}

/-- If the effect fails, all is as before. -/
def Atomic (e : Effect α) (s : State) : Prop :=
  ∀ fault, (e.run s).1 = .error fault → (e.run s).2 = s

/-- The effect succeeds wherever it starts. -/
def Sure (e : Effect α) : Prop :=
  ∀ s, ∃ a t, e.run s = (.ok a, t)

namespace Sure

theorem lift (m : Recorder α) : Sure (liftM m) :=
  fun _ => ⟨_, _, rfl⟩

theorem bind {k : α → Effect β} (h : Sure e) (hk : ∀ a, Sure (k a)) : Sure (e >>= k) := by
  intro s
  obtain ⟨a, t, run⟩ := h s
  rw [run_of_ok run]
  exact hk a t

end Sure

namespace Atomic

theorem of_ok {a : α} {t : State} (h : e.run s = (.ok a, t)) : Atomic e s := by
  intro fault hf
  rw [h] at hf
  cases hf

theorem of_sure (h : Sure e) : Atomic e s := by
  obtain ⟨a, t, run⟩ := h s
  exact of_ok run

theorem throw (fault : Fault) : Atomic (throw fault : Effect α) s :=
  fun _ _ => rfl

theorem ite {c : Prop} [Decidable c] {e' : Effect α} (h : Atomic e s) (h' : Atomic e' s) :
    Atomic (if c then e else e') s := by
  split
  · exact h
  · exact h'

theorem operand {i : Value} {index : Nat} {k : Value → Effect α}
    (h : ∀ a, i.operands[index]? = some a → Atomic (k a) s) :
    Atomic (operand i index >>= k) s := by
  cases ha : i.operands[index]? with
  | some a =>
    have run := run_operand ha k s
    unfold Atomic
    rw [run]
    exact h a ha
  | none =>
    unfold Effect.operand
    rw [ha]
    exact throw _

theorem resultTerm {site : Value} {terms : List Term} {k : Term → Effect α}
    (h : ∀ x, Atomic (k x) s) : Atomic (resultTerm site terms >>= k) s := by
  cases terms with
  | nil => exact throw _
  | cons x xs => exact h x

/-- A lookup that finds nothing changes nothing. -/
theorem lookup {value : Value} {x : Term} {k : Option Version → Effect α}
    (found : ∀ v, Sure (k (some v))) (missing : Atomic (k none) s) :
    Atomic (liftM (versionOf? value x) >>= k) s := by
  unfold Atomic
  rw [run_lift]
  cases hv : (versionOf? value x s).1 with
  | some v =>
    obtain ⟨a, t, run⟩ := found v (versionOf? value x s).2
    intro fault hf
    rw [run] at hf
    cases hf
  | none =>
    rw [versionOf?_eq_none hv]
    exact missing

end Atomic

end Rules

variable {s : State} (i : Value)

private theorem convert_atomic (x : Term) (erroneous : Bool) : Atomic (convert i x erroneous) s := by
  refine .operand fun source _ => .lookup (fun v _ => ⟨_, _, rfl⟩) ?_
  refine .ite (.of_ok rfl) (.ite (.of_ok rfl) (.ite (.of_ok rfl) (.throw _)))

private theorem unary_atomic (opcode : Opcode) (x : Term) (erroneous : Bool) :
    Atomic (unary i opcode x erroneous) s :=
  .ite (.of_ok rfl) (.ite (convert_atomic i x erroneous) (.throw _))

/-- A load without an operand is the only one that fails. -/
private theorem load_atomic (h : Recorded s) (x y : Term) : Atomic (load i x y) s := by
  cases ha : i.operands[0]? with
  | some a =>
    obtain ⟨t, run⟩ := load_ok h ha x y
    exact .of_ok run
  | none =>
    refine .operand fun a ha' => ?_
    rw [ha] at ha'
    cases ha'

private theorem store_atomic (x y : Term) : Atomic (store i x y) s := by
  refine .operand fun source _ => .operand fun target _ => .of_sure ?_
  refine .bind (.lift _) fun data? => .bind (.lift _) fun a? => ?_
  cases a? with
  | none => cases data? <;> exact fun _ => ⟨_, _, rfl⟩
  | some a => cases data? <;> exact fun _ => ⟨_, _, rfl⟩

private theorem element_atomic (inBounds : Bool) (x y : Term) : Atomic (element i inBounds x y) s := by
  refine .operand fun base _ => .ite (.of_ok rfl) (.lookup (fun v _ => ⟨_, _, rfl⟩) ?_)
  exact .ite (.of_ok rfl) (.throw _)

private theorem binary_atomic (h : Recorded s) (opcode : Opcode) (x y : Term) :
    Atomic (binary i opcode x y) s := by
  unfold binary
  split
  · exact load_atomic i h x y
  · exact store_atomic i x y
  · exact element_atomic i _ x y
  · exact .throw _

private theorem ternary_atomic (opcode : Opcode) (x y z : Term) : Atomic (ternary i opcode x y z) s := by
  unfold ternary
  split
  · exact .throw _
  · refine .operand fun first _ => .operand fun second _ => .of_sure ?_
    refine .bind (.lift _) fun a => .bind (.lift _) fun b => .bind (.lift _) fun a =>
      .bind (.lift _) fun b => ?_
    split <;> exact fun _ => ⟨_, _, rfl⟩

private theorem slice_atomic (value : Value) : Atomic (slice value) s := by
  cases hv : s.path.latest? value with
  | some v => exact .of_ok (Correspondence.Lawful.slice_eq_sliceFrom hv)
  | none =>
    by_cases hc : value.isConstant
    · exact .of_ok (Correspondence.Lawful.slice_eq_sliceIdly hv hc)
    · intro fault _
      rw [Correspondence.Lawful.slice_eq_fault hv hc]

private theorem callFrom_atomic (xs : List Term) (count : Nat) : Atomic (callFrom i xs count) s :=
  .resultTerm fun _ => .of_ok rfl

private theorem call_atomic (xs : List Term) : Atomic (call i xs) s := by
  unfold call
  split
  · refine .ite (.of_ok rfl) ?_
    split
    · exact .resultTerm fun _ => .of_ok rfl
    · exact .resultTerm fun _ => .of_ok rfl
    · exact callFrom_atomic i xs _
    · exact callFrom_atomic i xs _
    · exact .ite (.of_ok rfl) (.resultTerm fun _ => .of_ok rfl)
  · exact .of_ok rfl

/-- The lookup of the arguments fails at its first turn, before anything is created, or never. -/
theorem bindCall_atomic (xs : List Term) : Atomic (bindCall i xs) s := by
  rw [bindCall_eq]
  cases i.callee? with
  | none => exact .of_ok rfl
  | some callee => exact .ite (.throw _) (.of_ok rfl)

theorem bindReturn_atomic (ret : Value) (x : Term) : Atomic (bindReturn i ret x) s := by
  unfold bindReturn
  refine .ite ?_ (.of_ok rfl)
  split
  · refine .of_sure (.bind (.lift _) fun v? => ?_)
    cases v? <;> exact fun _ => ⟨_, _, rfl⟩
  · exact .of_ok rfl

theorem choose_atomic (incoming : Nat) (x : Term) (erroneous : Bool) :
    Atomic (choose i incoming x erroneous) s := by
  refine .operand fun source _ => .lookup (fun v _ => ⟨_, _, rfl⟩) ?_
  exact .ite (.of_ok rfl) (.throw _)

theorem execute_atomic (h : Recorded s) (xs : List Term) (erroneous : Bool) :
    Atomic (execute i xs erroneous) s := by
  unfold execute
  split
  · exact .throw _
  · exact call_atomic i xs
  · split
    · exact .ite (.operand fun condition _ => slice_atomic condition) (.of_ok rfl)
    · exact unary_atomic i _ _ erroneous
    · exact binary_atomic i h _ _ _
    · exact ternary_atomic i _ _ _ _
    · exact .throw _

end Effect

namespace Replay

/-- Wherever events lead, an effect that fails leaves the path, the marks, the supply of identities
and the notices as they were. -/
theorem failed_effects_idle (program : Program) (next : Nat) (existential : Bool)
    (events : List Event) :
    let s := (pursue 0 events (start program next existential)).2.state
    (∀ i xs erroneous, (Effect.execute i xs erroneous).Atomic s) ∧
    (∀ i incoming x erroneous, (Effect.choose i incoming x erroneous).Atomic s) ∧
    (∀ site xs, (Effect.bindCall site xs).Atomic s) ∧
    ∀ site ret x, (Effect.bindReturn site ret x).Atomic s := by
  intro s
  have recorded : Recorded s := (pursue_standing program next existential events).settled.toRecorded
  exact ⟨fun i => Effect.execute_atomic i recorded, fun i => Effect.choose_atomic i,
    fun site => Effect.bindCall_atomic site, fun site => Effect.bindReturn_atomic site⟩

/-! A sum that was never computed, and a call with a term for the first of its arguments only. -/

namespace Skipped

def literal : Value := ⟨1, "k", .constant, .integer 32⟩
def datum : Value := ⟨2, "x", .instruction .add "main" [literal, literal], .integer 32⟩
def sum : Value := ⟨3, "y", .instruction .add "main" [literal, datum], .integer 32⟩
def narrowed : Value := ⟨4, "z", .instruction .trunc "main" [sum], .integer 8⟩
def first : Value := ⟨5, "a", .argument "f" 0, .integer 32⟩
def second : Value := ⟨6, "b", .argument "f" 1, .integer 32⟩
def callee : Value := ⟨7, "f", .function false [first, second], .pointer⟩
def site : Value := ⟨8, "c", .instruction .call "main" [literal, datum, callee], .integer 32⟩

def program : Program := [literal, datum, sum, narrowed, first, second, callee, site]

def state : State :=
  (pursue 0 [.execute "x" [.ofBits 2 32, .ofBits 1 32, .ofBits 1 32] false]
    (start program 9 false)).2.state

end Skipped

/-- The sum has no version to convert or to choose. The first argument of the call is a literal, which
would get a new version if it were looked up before the second turns out to have no term. -/
theorem failed_effects_idle_skipped :
    (Effect.execute Skipped.narrowed [.ofBits 3 8] false).run Skipped.state =
      (.error (.operandNotFound Skipped.narrowed (.value Skipped.sum)), Skipped.state) ∧
    (Effect.choose Skipped.narrowed 0 (.ofBits 3 8) false).run Skipped.state =
      (.error (.operandNotFound Skipped.narrowed (.value Skipped.sum)), Skipped.state) ∧
    (Effect.bindCall Skipped.site [.ofBits 1 32]).run Skipped.state =
      (.error (.operandNotFound Skipped.site (.argument 1)), Skipped.state) ∧
    Skipped.state.path.versions.map (·.id) = [12, 11, 10] := by
  obtain ⟨execute, choose, bindCall, _⟩ := failed_effects_idle Skipped.program 9 false
    [.execute "x" [.ofBits 2 32, .ofBits 1 32, .ofBits 1 32] false]
  have unconverted : ((Effect.execute Skipped.narrowed [.ofBits 3 8] false).run Skipped.state).1 =
    .error (.operandNotFound Skipped.narrowed (.value Skipped.sum)) := rfl
  have unchosen : ((Effect.choose Skipped.narrowed 0 (.ofBits 3 8) false).run Skipped.state).1 =
    .error (.operandNotFound Skipped.narrowed (.value Skipped.sum)) := rfl
  have unbound : ((Effect.bindCall Skipped.site [.ofBits 1 32]).run Skipped.state).1 =
    .error (.operandNotFound Skipped.site (.argument 1)) := rfl
  exact ⟨Prod.ext unconverted (execute _ _ _ _ unconverted),
    Prod.ext unchosen (choose _ _ _ _ _ unchosen), Prod.ext unbound (bindCall _ _ _ unbound), rfl⟩

end Replay

end PathSlice
