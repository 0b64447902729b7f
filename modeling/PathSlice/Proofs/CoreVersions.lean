import PathSlice.Proofs.FlowClosure
import PathSlice.Proofs.FrameOwnership

/-! Which versions are core. A slice makes core what its version stems from, and nothing else does. An
effect that slices does so at its end, and flows lead only into versions that the effect recording
them has just created. So a version is never given a source after it was made core, and whatever flows
into a core version is core, on whichever path the flow was recorded. -/
namespace PathSlice

private theorem Marks.mem_versions_foldl_addVersion {i : Nat} (vs : List Version) (m : Marks) :
    i ∈ (vs.foldl Marks.addVersion m).versions ↔ i ∈ m.versions ∨ ∃ v ∈ vs, v.id = i := by
  induction vs generalizing m with
  | nil => simp
  | cons v vs ih =>
    have added : i ∈ (m.addVersion v).versions ↔ i = v.id ∨ i ∈ m.versions :=
      Ascending.mem_insert_compare_iff
    rw [List.foldl_cons, ih, added, List.exists_mem_cons_iff, or_comm (a := i = v.id), or_assoc,
      eq_comm]

/-- A slice from a version makes core exactly what it stems from. -/
theorem Recorder.mem_versions_sliceFrom {i : Nat} (v : Version) (s : State) :
    i ∈ (sliceFrom v s).2.marks.versions ↔
      i ∈ s.marks.versions ∨ ∃ u, s.path.Stems v u ∧ u.id = i := by
  rw [(sliceFrom_state v s).2.2, Marks.mem_versions_foldl_addVersion, Path.exists_mem_closure_iff]

/-- Only marks changed, and what became core is what a version of the path stems from, if any. -/
structure Sliced (s t : State) : Prop where
  path : t.path = s.path
  next : t.next = s.next
  marks : ∃ v? : Option Version, (∀ v ∈ v?, v ∈ s.path.versions) ∧ ∀ i, i ∈ t.marks.versions ↔
    i ∈ s.marks.versions ∨ ∃ v ∈ v?, ∃ u, s.path.Stems v u ∧ u.id = i

theorem Sliced.idle {s t : State} (hp : t.path = s.path) (hn : t.next = s.next)
    (hm : t.marks.versions = s.marks.versions) : Sliced s t :=
  ⟨hp, hn, none, by simp, by simp [hm]⟩

theorem Sliced.refl (s : State) : Sliced s s :=
  .idle rfl rfl rfl

namespace Effect

open Correspondence.Lawful (slice_eq_sliceFrom slice_eq_sliceIdly slice_eq_fault execute_of_branch)

variable {s t : State} {i : Value}

/-- Without a version there is nothing to make core, whether that is a fault or not. -/
private theorem slice_state_of_none {value : Value} (h : s.path.latest? value = none) :
    ((slice value).run s).2.path = s.path ∧ ((slice value).run s).2.next = s.next ∧
      ((slice value).run s).2.marks.versions = s.marks.versions := by
  by_cases hc : value.isConstant
  · rw [slice_eq_sliceIdly h hc]
    split
    · exact Recorder.sliceIdly_state (Recorder.notify (.ignored value.render) s).2
    · exact Recorder.sliceIdly_state s
  · rw [slice_eq_fault h hc]
    exact ⟨rfl, rfl, rfl⟩

/-- A slice of a value makes core exactly what its latest version stems from. -/
theorem slice_state (value : Value) (s : State) :
    ((slice value).run s).2.path = s.path ∧ ((slice value).run s).2.next = s.next ∧
      ∀ i, i ∈ ((slice value).run s).2.marks.versions ↔ i ∈ s.marks.versions ∨
        ∃ v ∈ s.path.latest? value, ∃ u, s.path.Stems v u ∧ u.id = i := by
  cases hv : s.path.latest? value with
  | some v =>
    rw [slice_eq_sliceFrom hv]
    obtain ⟨hp, hn, _⟩ := Recorder.sliceFrom_state v s
    refine ⟨hp, hn, fun i => ?_⟩
    simpa using Recorder.mem_versions_sliceFrom v s
  | none =>
    obtain ⟨hp, hn, hm⟩ := slice_state_of_none hv
    exact ⟨hp, hn, by simp [hm]⟩

private theorem slice_sliced (value : Value) (s : State) : Sliced s ((slice value).run s).2 := by
  obtain ⟨hp, hn, hm⟩ := slice_state value s
  exact ⟨hp, hn, s.path.latest? value, fun v hv => Path.mem_versions_of_latest? hv, hm⟩

private theorem operand_run (i : Value) (index : Nat) (s : State) : ((operand i index).run s).2 = s := by
  unfold operand
  cases i.operands[index]? <;> rfl

theorem sliceOperand_sliced (i : Value) (index : Nat) (s : State) :
    Sliced s ((operand i index >>= slice).run s).2 := by
  rcases run_bind_cases (operand i index) slice s with ⟨_, u, hu, hb⟩ | ⟨value, u, hu, hb⟩
  · have same := operand_run i index s
    rw [hu] at same
    rw [hb, ← same]
    exact .refl _
  · have same := operand_run i index s
    rw [hu] at same
    rw [hb, ← same]
    exact slice_sliced value u

/-- What is sliced after an operand was looked up is that operand. -/
theorem sliceOperand_ok {index : Nat} (h : (operand i index >>= slice).run s = (.ok (), t)) :
    ∃ value, i.operands[index]? = some value ∧ (slice value).run s = (.ok (), t) := by
  cases ho : i.operands[index]? with
  | none =>
    obtain ⟨_, _, hf, _⟩ := ok_of_bind h
    unfold operand at hf
    rw [ho] at hf
    cases hf
  | some value =>
    rw [run_operand ho] at h
    exact ⟨value, rfl, h⟩

/-- A conditional branch makes core exactly what the latest version of its condition stems from. -/
private theorem branch_marks (hb : i.isConditionalBranch) {erroneous : Bool}
    (h : (execute i [] erroneous).run s = (.ok (), t)) :
    ∃ condition, i.operands[0]? = some condition ∧ ∀ j, j ∈ t.marks.versions ↔
      j ∈ s.marks.versions ∨ ∃ v ∈ s.path.latest? condition, ∃ u, s.path.Stems v u ∧ u.id = j := by
  rw [execute_of_branch hb] at h
  obtain ⟨condition, hc, hs⟩ := sliceOperand_ok h
  have marks := (slice_state condition s).2.2
  rw [hs] at marks
  exact ⟨condition, hc, marks⟩

end Effect

/-! Effects record first and slice last. -/

namespace Effect

/-- What follows a load or a store: its address is sliced if its bounds were checked. -/
def sliceAddress (instruction : Value) (checked : Bool) : Effect Unit :=
  if checked then
    match instruction.opcode? with
    | some .load => operand instruction 0 >>= slice
    | some .store => operand instruction 1 >>= slice
    | _ => throw (.unknownAccess instruction)
  else return ()

theorem access_eq (i : Value) (xs : List Term) (checked erroneous : Bool) :
    access i xs checked erroneous = execute i xs erroneous >>= fun _ => sliceAddress i checked :=
  rfl

variable {s : State} {i : Value}

theorem sliceAddress_sliced (i : Value) (checked : Bool) (s : State) :
    Sliced s ((sliceAddress i checked).run s).2 := by
  unfold sliceAddress
  split
  · split
    · exact sliceOperand_sliced i 0 s
    · exact sliceOperand_sliced i 1 s
    · exact .refl s
  · exact .refl s

private theorem sliceAddress_of_branch (h : i.isConditionalBranch) (checked : Bool) (s : State) :
    ((sliceAddress i checked).run s).2 = s := by
  unfold sliceAddress
  rw [Value.opcode?_of_isConditionalBranch h]
  cases checked <;> rfl

end Effect

namespace Settled

open Correspondence.Lawful (execute_of_branch)

variable {s : State}

theorem jots_of_follows (h : Settled s) {x : Effect Unit} {Q : State → Unit → Unit → Prop}
    (hx : (jotting s.next).states s s s → (jotting s.next).Follows s x x s s Q) :
    Jots s.next s (x.run s).2 := by
  obtain ⟨w, hw, ⟨rfl, _⟩, _⟩ := hx ⟨rfl, rfl, h.toRecorded, Nat.le_refl _⟩
  exact hw

/-- The execution of anything but a conditional branch marks no version. -/
theorem jots_execute (h : Settled s) {i : Value} {xs : List Term}
    (hi : xs = [] → ¬i.isConditionalBranch) (erroneous : Bool) :
    Jots s.next s ((Effect.execute i xs erroneous).run s).2 :=
  h.jots_of_follows fun hs => (jotting_records s.next).execute hs hi erroneous

private theorem effect_cases (h : Settled s) {P : Program} {e : Event} {x : Effect Unit} (hx : e.Asks P x) :
    ∃ m, Jots s.next s m ∧ Sliced m (x s).2 := by
  have quiet : Jots s.next s (x s).2 → ∃ m, Jots s.next s m ∧ Sliced m (x s).2 :=
    fun hj => ⟨_, hj, .refl _⟩
  have L := jotting_records s.next
  cases hx with
  | @execute _ i _ xs erroneous =>
    by_cases hb : xs = [] ∧ i.isConditionalBranch
    · obtain ⟨rfl, hb⟩ := hb
      rw [execute_of_branch hb]
      exact ⟨s, L.refl s, Effect.sliceOperand_sliced i 0 s⟩
    · exact quiet (h.jots_execute (fun hx hi => hb ⟨hx, hi⟩) erroneous)
  | @access _ i _ xs checked erroneous =>
    rw [Effect.access_eq]
    by_cases hb : xs = [] ∧ i.isConditionalBranch
    · -- A branch has been sliced when it turns out to be no access.
      obtain ⟨rfl, hb⟩ := hb
      have sliced := Effect.sliceOperand_sliced i 0 s
      rw [← execute_of_branch hb erroneous] at sliced
      have after := Effect.sliceAddress_of_branch hb checked
        ((Effect.execute i [] erroneous).run s).2
      refine ⟨s, L.refl s, ?_⟩
      rcases Effect.run_bind_state (Effect.execute i [] erroneous) (Effect.sliceAddress i checked) s
        with he | he
      · exact he ▸ sliced
      · exact (he.trans after) ▸ sliced
    · have jots := h.jots_execute (fun hx hi => hb ⟨hx, hi⟩) erroneous
      refine ⟨_, jots, ?_⟩
      rcases Effect.run_bind_state (Effect.execute i xs erroneous) (Effect.sliceAddress i checked) s
        with he | he
      · exact he ▸ .refl _
      · exact he ▸ Effect.sliceAddress_sliced i checked _
  | @choose _ i _ incoming y erroneous =>
    exact quiet (h.jots_of_follows fun hs => L.choose hs i incoming y erroneous)
  | @bindCall _ site _ xs => exact quiet (h.jots_of_follows fun hs => L.bindCall hs site xs)
  | @bindReturn _ _ site ret _ _ y =>
    exact quiet (h.jots_of_follows fun hs => L.bindReturn hs site ret y)
  | nothing => exact quiet (L.refl s)

end Settled

namespace Effect

variable {s t : State} {i : Value}

/-- The position of the operand that is the address of a load or store. -/
def addressPosition? : Opcode → Option Nat
  | .load => some 0
  | .store => some 1
  | _ => none

/-- A load or store with checked bounds makes core exactly what the latest version of its address
stems from. -/
private theorem access_marks (h : Settled s) {opcode : Opcode} {position : Nat}
    (ho : i.opcode? = some opcode) (hp : addressPosition? opcode = some position) {xs : List Term}
    {erroneous : Bool} (ha : (access i xs true erroneous).run s = (.ok (), t)) :
    ∃ address, i.operands[position]? = some address ∧ ∀ j, j ∈ t.marks.versions ↔
      j ∈ s.marks.versions ∨ ∃ v ∈ t.path.latest? address, ∃ u, t.path.Stems v u ∧ u.id = j := by
  have address : sliceAddress i true = operand i position >>= slice := by
    unfold sliceAddress
    rw [ho]
    cases opcode <;> cases hp <;> rfl
  have plain : ¬i.isConditionalBranch := by
    intro hb
    cases ho.symm.trans (Value.opcode?_of_isConditionalBranch hb)
    cases hp
  rw [access_eq, address] at ha
  obtain ⟨_, m, hm, hs⟩ := ok_of_bind ha
  obtain ⟨value, hv, hs⟩ := sliceOperand_ok hs
  have unmarked := (h.jots_execute (fun _ : xs = [] => plain) erroneous).unmarked
  rw [hm] at unmarked
  obtain ⟨path, _, marks⟩ := slice_state value m
  rw [hs] at path marks
  refine ⟨value, hv, fun j => ?_⟩
  rw [marks, path, unmarked]

end Effect

/-! Flows that were recorded, on this path or on another. -/

/-- A flow that was recorded before: the path still has it or does not know its target, and if its
target is core, so is its source. -/
structure Past (e : Flow) (s : State) : Prop where
  old : e.target.id < s.next
  kept : e ∈ s.path.flows ∨ ∀ v ∈ s.path.versions, v.id ≠ e.target.id
  closed : e.target.id ∈ s.marks.versions → e.source.id ∈ s.marks.versions

namespace Past

variable {e : Flow} {s t : State}

/-- Where no version is marked, a path keeps its flows, and its new versions are new altogether. -/
theorem keep (h : Past e s) (hn : s.next ≤ t.next) (hf : e ∈ s.path.flows → e ∈ t.path.flows)
    (hv : ∀ v ∈ t.path.versions, v ∈ s.path.versions ∨ s.next ≤ v.id)
    (hm : t.marks.versions = s.marks.versions) : Past e t where
  old := Nat.lt_of_lt_of_le h.old hn
  kept := by
    rcases h.kept with he | he
    · exact .inl (hf he)
    · refine .inr fun v hin => ?_
      rcases hv v hin with hin | hin
      · exact he v hin
      · have := h.old
        omega
  closed := by
    rw [hm]
    exact h.closed

/-- A slice that reaches the target of a flow of the path reaches its source. -/
theorem sliced (h : Past e s) (hr : Recorded s) (ht : Sliced s t) : Past e t := by
  obtain ⟨hp, hn, v?, hv, hm⟩ := ht
  refine ⟨hn ▸ h.old, hp ▸ h.kept, fun hc => ?_⟩
  rw [hm] at hc ⊢
  rcases hc with hc | ⟨v, hv?, u, hu, hi⟩
  · exact .inl (h.closed hc)
  · have known : u ∈ s.path.versions := hr.closed.mem_versions_of_stems (hv v hv?) hu
    have he : e ∈ s.path.flows := h.kept.resolve_right fun hne => hne u known hi
    have source : e.source ∈ s.path.sourcesOf u :=
      (Path.mem_sourcesOf_iff hr.traceable).2 ⟨e, he, hi.symm, rfl⟩
    exact .inr ⟨v, hv?, e.source, hu.tail source, rfl⟩

private theorem move {n : Nat} (h : Past e s) (hr : Recorded s) (ht : Move n s t) : Past e t := by
  have same {v : Version} (hv : v ∈ s.path.versions) : v ∈ s.path.versions ∨ s.next ≤ v.id :=
    .inl hv
  cases ht with
  | version value x =>
    refine h.keep (Nat.le_succ _) id (fun v hv => ?_) rfl
    rcases List.mem_cons.1 hv with rfl | hv
    · exact .inr (Nat.le_refl _)
    · exact .inl hv
  | location => exact h.keep (Nat.le_succ _) id (fun _ => same) rfl
  | element hb hx =>
    refine h.keep ?_ ?_ ?_ (Recorder.elementAt_unmarked hx) <;> rw [Recorder.elementAt_run hx]
    · exact Nat.le_succ _
    · exact id
    · exact fun _ => same
  | pointer | deposit | notice => exact h.keep (Nat.le_refl _) id (fun _ => same) rfl
  | flow | passage =>
    refine h.keep (Nat.le_refl _) (fun he => Path.mem_flows_addFlow he _ _ _) (fun v hv => ?_) rfl
    exact same ((Path.versions_addFlow s.path _ _ _) ▸ hv)
  | slice hv =>
    obtain ⟨hp, hn, _⟩ := Recorder.sliceFrom_state _ s
    refine h.sliced hr ⟨hp, hn, some _, by simpa using hv, fun i => ?_⟩
    simpa using Recorder.mem_versions_sliceFrom _ s
  | sliceIdly =>
    obtain ⟨hp, hn, hm⟩ := Recorder.sliceIdly_state s
    exact h.sliced hr (.idle hp hn hm)

theorem moves {n : Nat} (h : Past e s) (hr : Recorded s) (ht : Moves n s t) : Past e t := by
  induction ht with
  | refl => exact h
  | tail hm ht ih => exact ih.move (Moves.recorded hm hr) ht

/-- A flow that is given up with its frame leads into a version of that frame. -/
theorem backtrack (h : Past e s) (hn : s.path.Numbered s.next) (ho : s.path.Owned s.next)
    (id : Nat) :
    Past e { s with next := s.next + 1, path := ⟨{ id := id }, s.path.ancestors⟩ } where
  old := Nat.lt_succ_of_lt h.old
  kept := by
    rcases h.kept with he | he
    · rcases List.mem_append.1 he with he | he
      · refine .inr fun v hv heq => ?_
        have apart := (List.pairwise_append.1 hn.versions).2.2 e.target (ho.here e he) v hv
        omega
      · exact .inl he
    · exact .inr fun v hv => he v (List.mem_append_right _ hv)
  closed := h.closed

theorem turn {event : Event} (h : Past e s) (hs : Standing s) (ho : s.path.Owned s.next)
    (ht : Turn event s t) : Past e t := by
  cases ht with
  | effect _ hm => exact h.moves hs.settled.toRecorded hm
  | fork => exact h.keep (Nat.le_add_right _ 2) id (fun _ hv => .inl hv) rfl
  | backtrack => exact h.backtrack hs.settled.numbered ho _
  | idle => exact h

end Past

/-- All flows of the path are past. -/
def Backward (s : State) : Prop :=
  ∀ e ∈ s.path.flows, Past e s

theorem Move.flows {n : Nat} {s t : State} (h : Move n s t) :
    ∀ e ∈ t.path.flows, e ∈ s.path.flows ∨ n ≤ e.target.id := by
  intro e he
  cases h with
  | version | location | pointer | deposit | notice => exact .inl he
  | element hb hx =>
    rw [Recorder.elementAt_run hx] at he
    exact .inl he
  | flow _ _ hn | passage _ _ _ hn =>
    rcases Path.mem_flows_of_mem_addFlow he with rfl | he
    · exact .inr hn
    · exact .inl he
  | slice => exact .inl ((Recorder.sliceFrom_state _ s).1 ▸ he)
  | sliceIdly => exact .inl ((Recorder.sliceIdly_state s).1 ▸ he)

theorem Moves.flows {n : Nat} {s t : State} (h : Moves n s t) :
    ∀ e ∈ t.path.flows, e ∈ s.path.flows ∨ n ≤ e.target.id := by
  induction h with
  | refl => exact fun _ he => .inl he
  | tail _ h ih =>
    intro e he
    rcases h.flows e he with he | he
    · exact ih e he
    · exact .inr he

namespace Backward

variable {s t : State}

/-- No version that a flow of the effect leads into is core before the effect slices. -/
theorem effect (h : Backward s) (hs : Settled s) {P : Program} {e : Event} {x : Effect Unit}
    (hx : e.Asks P x) : Backward (x s).2 := by
  obtain ⟨m, hj, ht⟩ := hs.effect_cases hx
  have hr := hj.moves.recorded hs.toRecorded
  intro e he
  rw [ht.path] at he
  refine Past.sliced ?_ hr ht
  rcases hj.moves.flows e he with he' | hn
  · exact (h e he').moves hs.toRecorded hj.moves
  · refine ⟨hr.numbered.versions_lt _ (hr.closed.flows e he).1, .inl he, fun hc => ?_⟩
    rw [hj.unmarked] at hc
    have := hs.marked _ hc
    omega

end Backward

namespace Replay

variable {r : Replay}

private theorem apply_backward (hs : Standing r.state) (ho : r.state.path.Owned r.state.next)
    (h : Backward r.state) (index : Nat) (event : Event) :
    Backward ((apply index event).run r).2.state := by
  have fewer : (∀ e ∈ ((apply index event).run r).2.state.path.flows, e ∈ r.state.path.flows) →
      Backward ((apply index event).run r).2.state :=
    fun hf e he => (h e (hf e he)).turn hs ho (apply_turn hs.settled event index).2
  by_cases hevent : event.isEffect
  · rw [apply_of_isEffect hevent]
    cases hx : event.effect r.program with
    | error fault => exact h
    | ok x => exact h.effect hs.settled (Event.asks_of_effect hx)
  · have ht := (apply_turn hs.settled event index).2
    apply fewer
    generalize ((apply index event).run r).2.state = t at ht
    cases ht with
    | effect he => exact absurd he hevent
    | fork | idle => exact fun _ he => he
    | backtrack => exact fun _ he => List.mem_append_right _ he

private theorem pursue_backward (hs : Standing r.state) (ho : r.state.path.Owned r.state.next)
    (h : Backward r.state) (index : Nat) (events : List Event) :
    Backward (pursue index events r).2.state := by
  induction events generalizing r index with
  | nil => exact h
  | cons e es ih =>
    have ht := (apply_turn hs.settled e index).2
    exact ih (hs.turn ht) (ht.owned hs ho) (apply_backward hs ho h index e) (index + 1)

private theorem pursue_past {e : Flow} (hs : Standing r.state) (ho : r.state.path.Owned r.state.next)
    (h : Past e r.state) (index : Nat) (events : List Event) :
    Past e (pursue index events r).2.state :=
  (pursue_invariant (P := fun s => s.path.Owned s.next ∧ Past e s)
    (fun hs ht h => ⟨ht.owned hs h.1, h.2.turn hs h.1 ht⟩) hs ⟨ho, h⟩ index events).2

/-- After any events a conditional branch, and a load or store with checked bounds, makes core
exactly what the latest version of its condition or address stems from. Whatever flows into a core
version, as any frame there was recorded it, is core. -/
theorem core_versions_exact (program : Program) (next : Nat) (existential : Bool)
    (events : List Event) :
    let state (k : Nat) := (pursue 0 (events.take k) (start program next existential)).2.state
    let s := (pursue 0 events (start program next existential)).2.state
    (∀ i erroneous t, i.isConditionalBranch →
      (Effect.execute i [] erroneous).run s = (.ok (), t) →
        ∃ condition, i.operands[0]? = some condition ∧ ∀ j, j ∈ t.marks.versions ↔
          j ∈ s.marks.versions ∨
            ∃ v ∈ s.path.latest? condition, ∃ u, s.path.Stems v u ∧ u.id = j) ∧
    (∀ i opcode position xs erroneous t, i.opcode? = some opcode →
      Effect.addressPosition? opcode = some position →
      (Effect.access i xs true erroneous).run s = (.ok (), t) →
        ∃ address, i.operands[position]? = some address ∧ ∀ j, j ∈ t.marks.versions ↔
          j ∈ s.marks.versions ∨
            ∃ v ∈ t.path.latest? address, ∃ u, t.path.Stems v u ∧ u.id = j) ∧
    ∀ k, ∀ e ∈ (state k).path.flows,
      e.target.id ∈ s.marks.versions → e.source.id ∈ s.marks.versions := by
  intro state s
  have standing (es : List Event) := pursue_standing program next existential es
  have owned (es : List Event) := pursue_owned program next existential es
  refine ⟨fun i erroneous t hb h => Effect.branch_marks hb h, ?_, fun k e he => ?_⟩
  · exact fun i opcode position xs erroneous t ho hp h =>
      Effect.access_marks (standing events).settled ho hp h
  · have begun := start_standing program next existential
    have past := pursue_backward begun (.root next) (fun _ he => absurd he List.not_mem_nil) 0
      (events.take k) e he
    have final := pursue_past (standing _) (owned _) past (0 + (events.take k).length)
      (events.drop k)
    rw [← pursue_append, List.take_append_drop] at final
    exact final.closed

end Replay

end PathSlice
