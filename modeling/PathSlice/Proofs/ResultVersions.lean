import PathSlice.Proofs.CreatedVersions

/-! The versions that effects create. An instruction with a result that succeeds creates one version
of itself, with the term of the result; a store creates none. -/
namespace PathSlice

theorem Value.mem_operands_of_mem_callArguments {i a : Value} (h : a ∈ i.callArguments) :
    a ∈ i.operands := by
  unfold callArguments at h
  split at h
  · exact List.dropLast_subset _ h
  · exact absurd h List.not_mem_nil

namespace Effect

open Recorder

/-- If the effect succeeds, `Q` holds of what it returns and of the state that it leads to. -/
def Ensures {α : Type} (e : Effect α) (s : State) (Q : α → State → Prop) : Prop :=
  ∀ a t, e.run s = (.ok a, t) → Q a t

namespace Ensures

variable {α β : Type} {e e' : Effect α} {m : Recorder α} {s : State} {Q : α → State → Prop}
  {R : β → State → Prop}

theorem pure {a : α} (h : Q a s) : Ensures (pure a) s Q := by
  intro b t run
  cases run
  exact h

theorem throw (fault : Fault) : Ensures (throw fault : Effect α) s Q :=
  fun _ _ run => nomatch run

theorem ite {c : Prop} [Decidable c] (h : c → Ensures e s Q) (h' : ¬c → Ensures e' s Q) :
    Ensures (if c then e else e') s Q := by
  split
  · exact h ‹_›
  · exact h' ‹_›

theorem lift (h : Q (m s).1 (m s).2) : Ensures (liftM m) s Q := by
  intro a t run
  cases run
  exact h

theorem discard {Q : Unit → State → Prop} (h : Q () (m s).2) :
    Ensures (discard (liftM m : Effect α)) s Q := by
  intro a t run
  cases run
  exact h

/-- Recording is run where it stands. -/
theorem record {k : α → Effect β} (h : Ensures (k (m s).1) (m s).2 R) :
    Ensures (liftM m >>= k) s R :=
  h

theorem bind {k : α → Effect β} (h : Ensures e s Q) (hk : ∀ a t, Q a t → Ensures (k a) t R) :
    Ensures (e >>= k) s R := by
  intro b t run
  obtain ⟨a, u, first, rest⟩ := ok_of_bind run
  exact hk a u (h a u first) b t rest

theorem imp {Q' : α → State → Prop} (h : Ensures e s Q) (hq : ∀ a t, Q a t → Q' a t) :
    Ensures e s Q' :=
  fun a t run => hq a t (h a t run)

theorem operand {i : Value} {index : Nat} {k : Value → Effect β}
    (h : ∀ a, i.operands[index]? = some a → Ensures (k a) s R) :
    Ensures (operand i index >>= k) s R := by
  cases ha : i.operands[index]? with
  | some a =>
    unfold Ensures
    rw [run_operand ha]
    exact h a ha
  | none =>
    unfold Effect.operand
    rw [ha]
    exact throw _

theorem resultTerm {i : Value} {xs : List Term} {k : Term → Effect β}
    (h : ∀ x rest, xs = x :: rest → Ensures (k x) s R) : Ensures (resultTerm i xs >>= k) s R := by
  cases xs with
  | nil => exact throw _
  | cons x rest => exact h x rest rfl

end Ensures

variable {V : Value → Prop} {i : Value} {s : State}

/-- What is recorded before the result. -/
theorem yields_after {α : Type} {m : Recorder α} {k : α → Effect Unit} {x : Term}
    (hm : Keeps (Adds V) m) (hk : ∀ a t, Ensures (k a) t fun _ u => Yields V i x t u) :
    Ensures (liftM m >>= k) s fun _ u => Yields V i x s u :=
  .record ((hk _ _).imp fun _ _ => .after (hm s))

section Copies

/-- A version that depends on another one. -/
theorem derive_yields (v : Version) (i : Value) (x : Term) (s : State) :
    Yields V i x s ((newVersion i x >>= fun r => addFlow v r) s).2 :=
  newVersion_bind_yields (fun r => addFlow_adds v r none) i x s

/-- A constant is always found, so a conversion never ends without a result. -/
private theorem convert_yields (hv : ∀ a ∈ i.operands, V a) (x : Term) (erroneous : Bool) :
    Ensures (convert i x erroneous) s fun _ t => Yields V i x s t := by
  refine .operand fun source ho => .record ?_
  have hsource := hv source (List.mem_of_getElem? ho)
  have looked := versionOf?_adds hsource x s
  cases hl : (versionOf? source x s).1 with
  | some v => exact .record (.lift (Yields.after looked (derive_yields v i x _)))
  | none =>
    refine .ite (fun hc => absurd hl (versionOf?_ne_none hc x s)) fun _ => ?_
    refine .ite (fun _ => .discard (.after looked (newPointer_yields i source x _))) fun _ => ?_
    refine .ite (fun _ => .record (.record (.lift ?_))) fun _ => .throw _
    exact .after (looked.trans (newVersion_adds hsource x _)) (derive_yields _ i x _)

theorem choose_yields (hv : ∀ a ∈ i.operands, V a) (incoming : Nat) (x : Term)
    (erroneous : Bool) : Ensures (choose i incoming x erroneous) s fun _ t => Yields V i x s t := by
  refine .operand fun source ho => ?_
  refine yields_after (versionOf?_adds (hv source (List.mem_of_getElem? ho)) x) fun v? t => ?_
  cases v? with
  | some v => exact .record (.lift (derive_yields v i x t))
  | none => exact .ite (fun _ => .discard (newVersion_yields i x t)) fun _ => .throw _

private theorem unary_yields (hv : ∀ a ∈ i.operands, V a) (opcode : Opcode) (x : Term)
    (erroneous : Bool) : Ensures (unary i opcode x erroneous) s fun _ t => Yields V i x s t :=
  .ite (fun _ => .discard (newPointer_yields i i x s)) fun _ =>
    .ite (fun _ => convert_yields hv x erroneous) fun _ => .throw _

end Copies

section Memory

/-- What a stage of a load did: it created the result if it settled the load. -/
def Loads (V : Value → Prop) (i : Value) (x : Term) (s : State) (r : Bool × State) : Prop :=
  if r.1 then Yields V i x s r.2 else Adds V s r.2

private theorem loadUnknown_yields (hs : s.path.Hosts V) {source : Value} (hv : V source) (i : Value)
    (y x : Term) : Loads V i x s (loadUnknown source y i x s) := by
  rw [loadUnknown, run_bind]
  cases ha : (versionOf? source y s).1 with
  | none => exact versionOf?_adds hv y s
  | some a =>
    have resolved := versionOf?_resolveAll_adds hs hv ha
    dsimp only
    rw [run_bind]
    match (resolveAll a (versionOf? source y s).2).1 with
    | [] =>
      let u := (resolveAll a (versionOf? source y s).2).2
      refine Yields.after (resolved.trans (newLocation_adds source y u)) ?_
      refine .after (addPointer_adds a (newLocation source y u).1 _) ?_
      exact newVersion_bind_yields (fun v => .bind (deposit_adds _ v) fun _ => .pure true) i x _
    | [l] =>
      dsimp only
      split
      · refine Yields.after resolved ?_
        exact newVersion_bind_yields (fun v => .bind (locationAt_adds i y) fun k =>
          .bind (addPointer_adds v k) fun _ => .pure true) i x _
      · exact resolved
    | _ :: _ :: _ => exact resolved

private theorem loadResolved_yields (hs : s.path.Hosts V) {source : Value} (hv : V source) (i : Value)
    (y x : Term) :
    Ensures (loadResolved source y i x) s fun b t => Loads V i x s (b, t) := by
  refine .record ?_
  cases ha : (versionOf? source y s).1 with
  | none => exact .pure (versionOf?_adds hv y s)
  | some a =>
    refine .record (.ite (fun _ => .throw _) fun _ => ?_)
    refine .record (.record (.pure (Yields.after (versionOf?_resolveAll_adds hs hv ha) ?_)))
    exact newVersion_bind_yields (fun v => loadFrom_adds v _) i x _

private theorem load_yields (hs : s.path.Hosts V) (hv : ∀ a ∈ i.operands, V a) (x y : Term) :
    Ensures (load i x y) s fun _ t => Yields V i x s t := by
  refine .operand fun source ho => .record ?_
  have hsource := hv source (List.mem_of_getElem? ho)
  have first := loadUnknown_yields hs hsource i y x
  unfold Loads at first
  cases hu : (loadUnknown source y i x s).1 with
  | true =>
    rw [if_pos hu] at first
    exact .pure first
  | false =>
    rw [if_neg (by simp [hu])] at first
    have hosts := hs.adds first (loadUnknown_quiet source y i x s)
    refine .bind (loadResolved_yields hosts hsource i y x) fun settled t second => ?_
    cases settled with
    | true => exact .pure (Yields.after first second)
    | false =>
      refine .record (.record (.lift (Yields.after (Adds.trans first second) ?_)))
      refine .after (newLocation_adds source y t) ?_
      exact newVersion_bind_yields (fun v => deposit_adds _ v) i x _

private theorem dataOr_adds {source : Value} (hv : V source) (x : Term) (d? : Option Version) :
    Keeps (Adds V) (dataOr source x d?) := by
  cases d? with
  | some d => exact .pure d
  | none => exact newVersion_adds hv x

/-- A store looks its operands up, and finds every location that it puts something into. -/
private theorem store_adds (h : Settled s) (hs : s.path.Hosts V) (hv : ∀ a ∈ i.operands, V a)
    (x y : Term) : Ensures (store i x y) s fun _ t => Adds V s t := by
  have stored : Ensures (storeWith pure i x y) s fun _ t => Adds V s t := by
    refine .bind (Q := fun _ t => Adds V s t) ?_ fun found t ht =>
      .lift (ht.trans (storeIntoWith_adds found.1 found.2 t))
    refine .operand fun source ho => .operand fun target ho' => ?_
    have hsource := hv source (List.mem_of_getElem? ho)
    have htarget := hv target (List.mem_of_getElem? ho')
    refine .record (.record (.record (.pure ?_)))
    refine (versionOf?_adds hsource x s).trans (.trans ?_ (dataOr_adds hsource x _ _))
    exact locationsOf_adds (versionOf?_hosts hs hsource x) htarget y
  unfold Ensures
  rw [← h.storeWith_eq pure]
  exact stored

private theorem constantElement_yields (hs : s.path.Hosts V) {base : Value} (hv : V base) (i : Value)
    (x y : Term) : Yields V i x s (constantElement i base x y s).2 := by
  have point (l : Location) (t : State) :
      Yields V i x t ((newVersion i x >>= fun v => addPointer v l) t).2 :=
    newVersion_bind_yields (fun v => addPointer_adds v l) i x t
  have fallback (t : State) :
      Yields V i x t ((locationAt base x >>= fun l => newVersion i x >>= fun v => addPointer v l) t).2 :=
    .after (locationAt_adds base x t) (point _ _)
  have looked := versionOf?_adds hv y s
  rw [constantElement, run_bind]
  cases ha : (versionOf? base y s).1 with
  | none => exact .after looked (fallback _)
  | some v =>
    dsimp only
    have there := versionOf?_hosts hs hv y
    have resolved := resolve?_adds (there.versions v (mem_versions_of_versionOf? ha))
      (versionOf? base y s).2
    refine .after (looked.trans resolved) ?_
    rw [run_bind]
    cases (resolve? v (versionOf? base y s).2).1 with
    | none => exact fallback _
    | some l => exact .after (elementAt_adds l x _) (point _ _)

private theorem elementOf_yields (hs : s.path.Hosts V) {start : Version} (hv : start ∈ s.path.versions)
    (i : Value) (x : Term) : Yields V i x s (elementOf i start x s).2 := by
  refine .after (resolveAll_adds hs hv) ?_
  rw [elementOf, run_bind]
  split
  · exact newVersion_bind_yields (fun v => pointInto_adds v x _) i x _
  · rw [run_get]
    split
    · exact newVersion_bind_yields (fun v => addFlows_adds v _) i x _
    · exact newPointer_yields i start.value x _

private theorem element_yields (hs : s.path.Hosts V) (hv : ∀ a ∈ i.operands, V a) (inBounds : Bool)
    (x y : Term) : Ensures (element i inBounds x y) s fun _ t => Yields V i x s t := by
  refine .operand fun base ho => ?_
  have hbase := hv base (List.mem_of_getElem? ho)
  refine .ite (fun _ => .lift (constantElement_yields hs hbase i x y)) fun _ => .record ?_
  have looked := versionOf?_adds hbase y s
  have hosts := versionOf?_hosts hs hbase y
  cases ha : (versionOf? base y s).1 with
  | some start =>
    exact .lift (.after looked (elementOf_yields hosts (mem_versions_of_versionOf? ha) i x))
  | none =>
    refine .ite (fun _ => .record (.lift (.after looked ?_))) fun _ => .throw _
    have made := newVersion_adds hbase y (versionOf? base y s).2
    refine .after made (elementOf_yields ?_ List.mem_cons_self i x)
    exact hosts.adds made (newVersion_quiet base y _)

private theorem binary_yields (hs : s.path.Hosts V) (hv : ∀ a ∈ i.operands, V a) {opcode : Opcode}
    (ho : opcode ≠ .store) (x y : Term) :
    Ensures (binary i opcode x y) s fun _ t => Yields V i x s t := by
  unfold binary
  split
  · exact load_yields hs hv x y
  · exact absurd rfl ho
  · exact element_yields hs hv _ x y
  · exact .throw _

end Memory

private theorem ternary_yields (hv : ∀ a ∈ i.operands, V a) (opcode : Opcode) (x y z : Term) :
    Ensures (ternary i opcode x y z) s fun _ t => Yields V i x s t := by
  unfold ternary
  split
  · exact .throw _
  · refine .operand fun first ho => .operand fun second ho' => ?_
    have hfirst := hv first (List.mem_of_getElem? ho)
    have hsecond := hv second (List.mem_of_getElem? ho')
    refine yields_after (versionOf?_adds hfirst y) fun a t => ?_
    refine yields_after (versionOf?_adds hsecond z) fun b t => ?_
    refine yields_after (rangeBound_adds hfirst i opcode "start" y a) fun a t => ?_
    refine yields_after (rangeBound_adds hsecond i opcode "end" z b) fun b t => ?_
    have combine (t : State) :
        Yields V i x t ((newVersion i x >>= fun v => addFlows v (a.toList ++ b.toList)) t).2 :=
      newVersion_bind_yields (fun v => addFlows_adds v _) i x t
    split
    · exact yields_after (notify_adds _) fun _ t => .record (.lift (combine t))
    · exact .record (.lift (combine t))

section Calls

/-- The first term is that of the result. -/
theorem callFrom_yields (hv : ∀ a ∈ i.operands, V a) (xs : List Term) (count : Nat) :
    Ensures (callFrom i xs count) s fun _ t => ∃ x rest, xs = x :: rest ∧ Yields V i x s t := by
  have arguments : ∀ a ∈ i.callArguments.take count, V a := by
    intro a ha
    exact hv a (Value.mem_operands_of_mem_callArguments (List.mem_of_mem_take ha))
  refine .resultTerm fun x rest hx => .record (.lift ⟨x, rest, hx, ?_⟩)
  exact newVersion_bind_yields (fun r => flowArguments_adds r x arguments xs.tail) i x s

/-- A call that nothing is known about. -/
theorem call_idle (h : ∀ callee, i.callee? = some callee → callee.isIntrinsic) (xs : List Term) :
    Ensures (call i xs) s fun _ t => t = s := by
  unfold call
  cases hc : i.callee? with
  | none => exact .pure rfl
  | some callee => exact .ite (fun _ => .pure rfl) fun hi => absurd (h callee hc) hi

/-- Only a call without a summary may have no result, and only if it is of no type. -/
theorem call_yields (hv : ∀ a ∈ i.operands, V a) {callee : Value} (hc : i.callee? = some callee)
    (hi : ¬callee.isIntrinsic) (xs : List Term) :
    Ensures (call i xs) s fun _ t =>
      (∃ x rest, xs = x :: rest ∧ Yields V i x s t) ∨ i.isVoid ∧ t = s := by
  unfold call
  rw [hc]
  dsimp only
  rw [if_neg hi]
  cases External.ruleFor? callee.name xs.length with
  | none =>
    refine .ite (fun hv => .pure (.inr ⟨hv, rfl⟩)) fun _ => .resultTerm fun x rest hx => ?_
    refine .record (.discard (.inl ⟨x, rest, hx, ?_⟩))
    exact .after (notify_adds (.unsummarized callee.name) s) (newVersion_yields i x _)
  | some rule =>
    cases rule with
    | fresh =>
      exact .resultTerm fun x rest hx => .discard (.inl ⟨x, rest, hx, newVersion_yields i x s⟩)
    | allocation =>
      exact .resultTerm fun x rest hx => .discard (.inl ⟨x, rest, hx, newPointer_yields i i x s⟩)
    | fromFirst count => exact (callFrom_yields hv xs count).imp fun _ _ => .inl
    | fromAll => exact (callFrom_yields hv xs _).imp fun _ _ => .inl

end Calls

section Instructions

theorem execute_call (ho : i.opcode? = some .call) (xs : List Term) (erroneous : Bool) :
    execute i xs erroneous = call i xs := by
  unfold execute
  rw [ho]

/-- Without terms, only the condition of a branch matters. -/
theorem execute_nil {opcode : Opcode} (ho : i.opcode? = some opcode) (hc : opcode ≠ .call)
    (erroneous : Bool) :
    execute i [] erroneous =
      if i.isConditionalBranch then operand i 0 >>= slice else pure () := by
  unfold execute
  rw [ho]
  split
  · cases ‹some opcode = none›
  · cases ‹some opcode = some .call›
    exact absurd rfl hc
  · rfl

/-- An instruction that is neither a call nor a store. -/
theorem execute_yields (hs : s.path.Hosts V) (hv : ∀ a ∈ i.operands, V a) {opcode : Opcode}
    (ho : i.opcode? = some opcode) (hc : opcode ≠ .call) (hst : opcode ≠ .store) (x : Term)
    (xs : List Term) (erroneous : Bool) :
    Ensures (execute i (x :: xs) erroneous) s fun _ t => Yields V i x s t := by
  unfold execute
  rw [ho]
  split
  · cases ‹some opcode = none›
  · cases ‹some opcode = some .call›
    exact absurd rfl hc
  · cases ‹some opcode = some _›
    split
    · cases ‹x :: xs = []›
    · cases ‹x :: xs = [_]›
      exact unary_yields hv opcode x erroneous
    · cases ‹x :: xs = [_, _]›
      exact binary_yields hs hv hst x _
    · cases ‹x :: xs = [_, _, _]›
      exact ternary_yields hv opcode x _ _
    · exact .throw _

theorem execute_store_adds (h : Settled s) (hs : s.path.Hosts V) (hv : ∀ a ∈ i.operands, V a)
    (ho : i.opcode? = some .store) (xs : List Term) (erroneous : Bool) :
    Ensures (execute i xs erroneous) s fun _ t => Adds V s t := by
  unfold execute
  rw [ho]
  match xs with
  | [] =>
    refine .ite (fun hb => ?_) fun _ => .pure (.refl s)
    simp [Value.isConditionalBranch, ho] at hb
  | [x] => exact .throw _
  | [x, y] => exact store_adds h hs hv x y
  | [x, y, z] => exact .throw _
  | _ :: _ :: _ :: _ :: _ => exact .throw _

end Instructions

end Effect

end PathSlice
