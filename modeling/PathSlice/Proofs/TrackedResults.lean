import PathSlice.Proofs.FailedEffects
import PathSlice.Proofs.ResultVersions

/-! Results are tracked. The versions on a path are those of values of the program, whatever the
events. So what an instruction looks up or makes up is never a version of the instruction itself,
and the one version that it creates of itself is the only one, and the latest. -/
namespace PathSlice

private theorem Value.not_isEntryArgument_of_opcode? {i : Value} {o : Opcode} (h : i.opcode? = some o) :
    ¬i.isEntryArgument := by
  unfold opcode? at h
  unfold isEntryArgument
  cases hk : i.kind <;> simp_all

private theorem Value.opcode?_of_callee? {i callee : Value} (h : i.callee? = some callee) :
    i.opcode? = some .call := by
  unfold callee? at h
  split at h
  · rename_i call
    simpa [isCall] using call
  · cases h

namespace Effect

open Recorder

variable {V : Value → Prop} {i : Value} {s : State}

theorem Ensures.adds {e : Effect Unit} (h : Ensures e s fun _ t => Adds V s t) (ha : e.Atomic s) :
    Adds V s (e.run s).2 := by
  cases he : e.run s with
  | mk outcome t =>
    cases outcome with
    | ok a => exact h a t he
    | error fault =>
      have failed := ha fault (congrArg Prod.fst he)
      rw [he] at failed
      exact .of_path_eq (congrArg State.path failed)

private theorem slice_adds (value : Value) : Ensures (slice value) s fun _ t => Adds V s t := by
  intro a t run
  have path := (slice_state value s).1
  rw [run] at path
  exact .of_path_eq path

private theorem call_adds (hv : ∀ a ∈ i.operands, V a) (hi : V i) (xs : List Term) :
    Ensures (call i xs) s fun _ t => Adds V s t := by
  by_cases h : ∀ callee, i.callee? = some callee → callee.isIntrinsic
  · exact (call_idle h xs).imp fun _ t ht => .of_path_eq (congrArg State.path ht)
  · obtain ⟨callee, h⟩ := not_forall.1 h
    obtain ⟨hc, hn⟩ := Classical.not_imp.1 h
    refine (call_yields hv hc hn xs).imp fun _ t => ?_
    rintro (⟨x, rest, _, hy⟩ | ⟨_, rfl⟩)
    · exact hy.adds hi
    · exact .refl t

private theorem execute_adds (h : Settled s) (hs : s.path.Hosts V) (hv : ∀ a ∈ i.operands, V a) (hi : V i)
    (xs : List Term) (erroneous : Bool) :
    Ensures (execute i xs erroneous) s fun _ t => Adds V s t := by
  cases ho : i.opcode? with
  | none =>
    unfold execute
    rw [ho]
    exact .throw _
  | some opcode =>
    by_cases hc : opcode = .call
    · subst hc
      rw [execute_call ho]
      exact call_adds hv hi xs
    · by_cases hst : opcode = .store
      · subst hst
        exact execute_store_adds h hs hv ho xs erroneous
      · cases xs with
        | nil =>
          rw [execute_nil ho hc]
          exact .ite (fun _ => .operand fun condition _ => slice_adds condition) fun _ =>
            .pure (.refl s)
        | cons x xs =>
          exact (execute_yields hs hv ho hc hst x xs erroneous).imp fun _ _ hy => hy.adds hi

private theorem bindCall_adds (hv : ∀ a ∈ i.operands, V a)
    (hp : ∀ callee, i.callee? = some callee → ∀ a ∈ callee.parameters, V a) (xs : List Term) :
    Ensures (bindCall i xs) s fun _ t => Adds V s t := by
  rw [bindCall_eq]
  cases hc : i.callee? with
  | none => exact .pure (.refl s)
  | some callee =>
    refine .ite (fun _ => .throw _) fun _ => .record (.lift ?_)
    have given : ∀ g ∈ (i.callArguments.zip xs).take callee.parameters.length, V g.1 := by
      intro g hg
      have argument := (List.of_mem_zip (List.mem_of_mem_take hg)).1
      exact hv g.1 (Value.mem_operands_of_mem_callArguments argument)
    refine (actuals_adds given s).trans (bindEach_adds (fun b hb => ?_) _)
    exact hp callee hc b.1 (List.of_mem_zip hb).1

private theorem bindReturn_adds (hi : V i) {ret : Value} (hv : ∀ a ∈ ret.operands, V a) (x : Term) :
    Ensures (bindReturn i ret x) s fun _ t => Adds V s t := by
  unfold bindReturn
  split
  · cases ho : ret.operands.head? with
    | none => exact .pure (.refl s)
    | some returned =>
      have looked := versionOf?_adds (hv returned (List.mem_of_mem_head? ho)) x s
      refine .record ?_
      cases (versionOf? returned x s).1 with
      | none => exact .pure looked
      | some v =>
        refine .record (.lift (looked.trans ?_))
        exact (newVersion_adds hi x _).trans (addFlow_adds v _ none _)
  · exact .pure (.refl s)

/-- What is sliced after an access creates nothing. -/
private theorem access_adds {xs : List Term} {erroneous : Bool}
    (h : Adds V s ((execute i xs erroneous).run s).2) (checked : Bool) :
    Adds V s ((access i xs checked erroneous).run s).2 := by
  rw [access_eq]
  rcases run_bind_state (execute i xs erroneous) (sliceAddress i checked) s with he | he
  · rw [he]
    exact h
  · rw [he]
    exact h.trans (.of_path_eq (sliceAddress_sliced i checked _).path)

end Effect

/-- An event creates versions of values of the program only. -/
theorem Event.adds {P : Program} {n : Nat} {s : State} {e : Event} {x : Effect Unit}
    (hP : P.Declared n) (hx : e.effect P = .ok x) (h : Settled s)
    (hs : ∀ v ∈ s.path.versions, v.value ∈ P) : Adds (· ∈ P) s (x.run s).2 := by
  have hosts : s.path.Hosts (· ∈ P) := .of_closed h.closed fun v hv _ => hs v hv
  have operands {v : Value} (hv : v ∈ P) : ∀ a ∈ v.operands, a ∈ P :=
    fun a ha => (hP.operand hv ha).1
  have executed {v : Value} (hv : v ∈ P) (xs : List Term) (erroneous : Bool) :
      Adds (· ∈ P) s ((Effect.execute v xs erroneous).run s).2 :=
    (Effect.execute_adds h hosts (operands hv) hv xs erroneous).adds
      (Effect.execute_atomic v h.toRecorded xs erroneous)
  cases Event.asks_of_effect hx with
  | @execute _ i hi xs erroneous => exact executed (Program.mem_of_resolve hi) xs erroneous
  | @choose _ i hi incoming y erroneous =>
    refine Effect.Ensures.adds ?_ (Effect.choose_atomic i incoming y erroneous)
    have hi := Program.mem_of_resolve hi
    exact (Effect.choose_yields (operands hi) incoming y erroneous).imp fun _ _ hy => hy.adds hi
  | @access _ i hi xs checked erroneous =>
    exact Effect.access_adds (executed (Program.mem_of_resolve hi) xs erroneous) checked
  | @bindCall _ site hsite xs =>
    refine Effect.Ensures.adds ?_ (Effect.bindCall_atomic site xs)
    have hsite := Program.mem_of_resolve hsite
    refine Effect.bindCall_adds (operands hsite) (fun callee hc a ha => ?_) xs
    exact hP.parameter (Effect.mem_of_callee? hP hsite hc) ha
  | @bindReturn _ _ site ret hsite hret y =>
    refine Effect.Ensures.adds ?_ (Effect.bindReturn_atomic site ret y)
    have hret := Program.mem_of_resolve hret
    exact Effect.bindReturn_adds (Program.mem_of_resolve hsite) (operands hret) y
  | nothing => exact .refl s

namespace Replay

/-- Whatever the events, the versions on the path are those of values of the program. -/
private theorem pursue_values {r : Replay} {n : Nat} (hP : r.program.Declared n) (h : Standing r.state)
    (hs : ∀ v ∈ r.state.path.versions, v.value ∈ r.program) (index : Nat) (events : List Event) :
    ∀ v ∈ (pursue index events r).2.state.path.versions, v.value ∈ r.program := by
  induction events generalizing r index with
  | nil => exact hs
  | cons e es ih =>
    obtain ⟨hp, ht⟩ := apply_turn h.settled e index
    have stands := h.turn ht
    have kept : ∀ v ∈ ((apply index e).run r).2.state.path.versions, v.value ∈ r.program := by
      generalize hr : ((apply index e).run r).2.state = t at ht
      cases ht with
      | effect he _ =>
        rw [apply_of_isEffect he] at hr
        cases hx : e.effect r.program with
        | error fault =>
          rw [hx] at hr
          exact hr ▸ hs
        | ok x =>
          rw [hx] at hr
          exact hr ▸ (Event.adds hP hx h.settled hs).forall_versions (fun _ hv => hv) hs
      | fork => simpa [Path.fork, Path.versions, Path.frames] using hs
      | backtrack =>
        intro v hv
        refine hs v (List.mem_append_right _ ?_)
        simpa [Path.versions, Path.frames] using hv
      | idle => exact hs
    rw [← hp] at hP kept ⊢
    exact ih hP stands kept (index + 1)

theorem pursue_start_values {program : Program} {n : Nat} (hP : program.Declared n) (next : Nat)
    (existential : Bool) (events : List Event) :
    ∀ v ∈ (pursue 0 events (start program next existential)).2.state.path.versions,
      v.value ∈ program :=
  pursue_values (r := start program next existential) hP (start_standing program next existential)
    (fun _ hv => absurd hv List.not_mem_nil) 0 events

end Replay

theorem Created.versionsOf {vs : List Version} {s t : State} (h : Created vs s t) (i : Value) :
    t.path.current.versionsOf i =
      s.path.current.versionsOf i ++ (vs.filter (·.value.id == i.id)).reverse := by
  simp [Frame.versionsOf, h.current]

/-- No version of the value was created. -/
structure Untouched (i : Value) (s t : State) : Prop where
  created : t.path.current.versionsOf i = s.path.current.versionsOf i
  history : t.path.ancestors = s.path.ancestors
  latest : t.path.latest? i = s.path.latest? i

/-- One version of the value was created, by the current frame. It has the term, and it is the latest
one. -/
structure Tracked (i : Value) (x : Term) (s t : State) (v : Version) : Prop where
  value : v.value = i
  term : v.term = x
  new : v ∉ s.path.versions
  created : t.path.current.versionsOf i = s.path.current.versionsOf i ++ [v]
  history : t.path.ancestors = s.path.ancestors
  latest : t.path.latest? i = some v

/-- Versions of other values. -/
theorem Adds.untouched {i : Value} {s t : State} (h : Adds (·.id ≠ i.id) s t) : Untouched i s t := by
  obtain ⟨vs, hvs, others⟩ := h
  have none : ∀ v ∈ vs, ¬(v.value.id == i.id) := fun v hv => by simpa using others v hv
  refine ⟨?_, hvs.ancestors, ?_⟩
  · rw [hvs.versionsOf, List.filter_eq_nil_iff.2 none, List.reverse_nil, List.append_nil]
  · rw [Path.latest?, hvs.versions, List.find?_append, List.find?_eq_none.2 none, Option.none_or,
      Path.latest?]

theorem Yields.tracked {i : Value} {x : Term} {s t : State} (h : Yields (·.id ≠ i.id) i x s t)
    {n : Nat} (hn : t.path.Numbered n) : ∃ v, Tracked i x s t v := by
  obtain ⟨v, u, w, before, made, after, rfl, rfl⟩ := h
  have hb := before.untouched
  have ha := after.untouched
  have latest : w.path.latest? v.value = some v := (made.latest? v.value).trans (if_pos rfl)
  refine ⟨v, rfl, rfl, ?_, ?_, ?_, ha.latest.trans latest⟩
  · obtain ⟨earlier, he, _⟩ := before
    obtain ⟨later, hl, _⟩ := after
    exact ((he.trans made).trans hl).notMem hn (List.mem_append_right later List.mem_cons_self)
  · rw [ha.created, made.versionsOf, hb.created]
    simp
  · exact ha.history.trans (made.ancestors.trans hb.history)

/-- Arguments of the entry point are not instructions, so they are others. -/
theorem Program.Declared.hosts {P : Program} {n : Nat} (hP : P.Declared n) {i : Value} (hi : i ∈ P)
    {opcode : Opcode} (ho : i.opcode? = some opcode) {s : State} (hc : s.path.Closed)
    (hs : ∀ v ∈ s.path.versions, v.value ∈ P) : s.path.Hosts (·.id ≠ i.id) := by
  refine .of_closed hc fun v hv entry same => ?_
  rw [hP.value_eq (hs v hv) hi same] at entry
  exact Value.not_isEntryArgument_of_opcode? ho entry

namespace Replay

open Effect in
/-- Results are tracked, whatever was recorded before. Where an instruction with a result succeeds,
the current frame has one more version of it, which has the term of the result and is the latest.
Stores have no result, nor have calls of functions that are unknown or intrinsic. -/
theorem results_tracked {id : Nat} {ds : List Declaration} {program : Program}
    (hp : Program.ofDeclarations id ds = .ok program) {i : Value} (hi : i ∈ program)
    {opcode : Opcode} (ho : i.opcode? = some opcode) (next : Nat) (existential : Bool)
    (events : List Event) :
    let s := (pursue 0 events (start program next existential)).2.state
    (∀ x xs erroneous t, opcode ≠ .call → opcode ≠ .store →
      (execute i (x :: xs) erroneous).run s = (.ok (), t) → ∃ v, Tracked i x s t v) ∧
    (∀ xs erroneous t callee, i.callee? = some callee → ¬callee.isIntrinsic → ¬i.isVoid →
      (execute i xs erroneous).run s = (.ok (), t) →
        ∃ x rest v, xs = x :: rest ∧ Tracked i x s t v) ∧
    (∀ incoming x erroneous t, (choose i incoming x erroneous).run s = (.ok (), t) →
      ∃ v, Tracked i x s t v) ∧
    ∀ xs erroneous t, (opcode = .store ∨
        opcode = .call ∧ ∀ callee, i.callee? = some callee → callee.isIntrinsic) →
      (execute i xs erroneous).run s = (.ok (), t) → Untouched i s t := by
  intro s
  obtain ⟨n, hP⟩ := Program.declared_ofDeclarations hp
  have settled : Settled s := (pursue_standing program next existential events).settled
  have recorded : Recorded s := settled.toRecorded
  have hosts : s.path.Hosts (·.id ≠ i.id) :=
    hP.hosts hi ho recorded.closed (pursue_start_values hP next existential events)
  have operands : ∀ a ∈ i.operands, a.id ≠ i.id :=
    fun a ha => Nat.ne_of_lt (hP.operand hi ha).2
  have numbered {xs : List Term} {erroneous : Bool} {t : State}
      (run : (execute i xs erroneous).run s = (.ok (), t)) : t.path.Numbered t.next := by
    have after := Recorded.of_tracks ((recording_lawful 0).execute recorded.self i xs erroneous)
    rw [run] at after
    exact after.1.numbered
  refine ⟨?_, ?_, ?_, ?_⟩
  · intro x xs erroneous t hc hst run
    exact (execute_yields hosts operands ho hc hst x xs erroneous () t run).tracked (numbered run)
  · intro xs erroneous t callee hcallee intrinsic hvoid run
    have hn := numbered run
    rw [execute_call (Value.opcode?_of_callee? hcallee)] at run
    rcases call_yields operands hcallee intrinsic xs () t run with ⟨x, rest, hx, hy⟩ | ⟨void, _⟩
    · obtain ⟨v, hv⟩ := hy.tracked hn
      exact ⟨x, rest, v, hx, hv⟩
    · exact absurd void hvoid
  · intro incoming x erroneous t run
    have after :=
      Recorded.of_tracks ((recording_lawful 0).choose recorded.self i incoming x erroneous)
    rw [run] at after
    exact (choose_yields operands incoming x erroneous () t run).tracked after.1.numbered
  · rintro xs erroneous t (rfl | ⟨rfl, unknown⟩) run
    · exact (execute_store_adds settled hosts operands ho xs erroneous () t run).untouched
    · rw [execute_call ho] at run
      rw [call_idle unknown xs () t run]
      exact ⟨rfl, rfl, rfl⟩

/-! The address that the entry point was given is kept and then read from. -/

namespace Borrowed

def address : Value := ⟨1, "a", .argument "main" 0, .pointer⟩
def slot : Value := ⟨2, "p", .instruction .alloca "main" [], .pointer⟩
def keep : Value := ⟨3, "w", .instruction .store "main" [address, slot], .void⟩
def read : Value := ⟨4, "y", .instruction .load "main" [address], .integer 32⟩

def declarations : List Declaration :=
  [⟨"a", .argument "main" 0, .pointer⟩,
    ⟨"p", .instruction .alloca "main" [], .pointer⟩,
    ⟨"w", .instruction .store "main" ["a", "p"], .void⟩,
    ⟨"y", .instruction .load "main" ["a"], .integer 32⟩]

def program : Program :=
  [address, slot, keep, read]

def state : State :=
  (pursue 0 [.execute "p" [.pointer 16] false, .fork, .execute "w" [.pointer 64, .pointer 16] false]
    (start program 5 false)).2.state

/-- The state after reading. -/
def later : State :=
  ((Effect.execute read [.ofBits 7 32, .pointer 64] false).run state).2

private theorem declared : Program.ofDeclarations 1 declarations = .ok program := by
  rfl

end Borrowed

/-- Reading makes up another version of the address, but only one of what is read. -/
theorem results_tracked_borrowed :
    (Borrowed.state.path.current.versionsOf Borrowed.address).length = 1 ∧
    (Borrowed.later.path.current.versionsOf Borrowed.address).length = 2 ∧
    ∃ v, Tracked Borrowed.read (.ofBits 7 32) Borrowed.state Borrowed.later v := by
  have member : Borrowed.read ∈ Borrowed.program := by simp [Borrowed.program]
  obtain ⟨tracked, _⟩ := results_tracked Borrowed.declared member rfl 5 false
    [.execute "p" [.pointer 16] false, .fork, .execute "w" [.pointer 64, .pointer 16] false]
  refine ⟨rfl, rfl, tracked (.ofBits 7 32) [.pointer 64] false Borrowed.later nofun nofun ?_⟩
  exact Prod.ext (rfl : ((Effect.execute Borrowed.read [.ofBits 7 32, .pointer 64] false).run
    Borrowed.state).1 = .ok ()) rfl

end Replay

end PathSlice
