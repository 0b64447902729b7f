import Mathlib.Logic.Function.Basic
import PathSlice.Proofs.CoreStores
import PathSlice.Proofs.MirroredPaths
import PathSlice.Replay.Report

/-! Paths that branch off one parent. Siblings share the frames of their history, the marks and the
supply of identities. Whatever the others do in between, a path does and records what it would alone,
up to a renaming of identities that keeps their order; of the history nothing changes but marks, and
marks only grow. So a frame that was given up leaves no trace in what is reported of all stores. -/
namespace PathSlice

namespace Marks

/-- Nothing is taken back. -/
structure Grows (m m' : Marks) : Prop where
  versions : m.versions ⊆ m'.versions
  locations : m.locations ⊆ m'.locations
  frames : m.frames ⊆ m'.frames

namespace Grows

variable {m m' m'' : Marks}

theorem refl (m : Marks) : m.Grows m :=
  ⟨fun _ h => h, fun _ h => h, fun _ h => h⟩

theorem trans (h : m.Grows m') (h' : m'.Grows m'') : m.Grows m'' :=
  ⟨fun _ hi => h'.versions (h.versions hi), fun _ hi => h'.locations (h.locations hi),
    fun _ hx => h'.frames (h.frames hx)⟩

theorem addVersion (m : Marks) (v : Version) : m.Grows (m.addVersion v) :=
  ⟨fun _ => Ascending.mem_insert_of_mem, fun _ h => h, fun _ h => h⟩

theorem addLocation (m : Marks) (l : Location) : m.Grows (m.addLocation l) :=
  ⟨fun _ h => h, fun _ => Ascending.mem_insert_of_mem, fun _ h => h⟩

theorem addToFrame (m : Marks) (frame : Nat) (l : Location) : m.Grows (m.addToFrame frame l) :=
  ⟨fun _ h => h, fun _ h => h, fun _ => List.mem_cons_of_mem _⟩

theorem foldl {α : Type} {f : Marks → α → Marks} (hf : ∀ m a, Grows m (f m a)) (as : List α)
    (m : Marks) : m.Grows (as.foldl f m) := by
  induction as generalizing m with
  | nil => exact .refl m
  | cons a as ih => exact (hf m a).trans (ih (f m a))

end Grows

end Marks

namespace Recorder

private theorem coreSinks_grows (fs : List Frame) (g : Support.Graph) (s : State) :
    s.marks.Grows (coreSinks g fs s).2.marks := by
  have sinks (f : Frame) (ls : List Location) (m : Marks) :
      m.Grows (ls.foldl (fun m l => (m.addLocation l).addToFrame f.id l) m) :=
    .foldl (fun m l => (Marks.Grows.addLocation m l).trans (.addToFrame _ f.id l)) ls m
  induction fs generalizing g s with
  | nil => exact .refl _
  | cons f parents ih =>
    cases parents with
    | nil => exact sinks f _ _
    | cons f' parents =>
      exact (sinks f g.sortedSinks s.marks).trans (ih (g.consumeAll f.locations)
        { s with
          marks := g.sortedSinks.foldl (fun m l => (m.addLocation l).addToFrame f.id l) s.marks })

private theorem markLocations_grows (p : Path) (g : Support.Graph) (s : State) :
    s.marks.Grows (markLocations p g s).2.marks :=
  coreSinks_grows p.frames g { s with notices := .graph (g.render s.marks) :: s.notices }

private theorem sliceFrom_grows (v : Version) (s : State) : s.marks.Grows (sliceFrom v s).2.marks :=
  (Marks.Grows.foldl .addVersion (s.path.closure v) s.marks).trans
    (markLocations_grows s.path (mark s.path {} v s).1 (mark s.path {} v s).2)

end Recorder

theorem Move.grows {n : Nat} {s t : State} (h : Move n s t) : s.marks.Grows t.marks := by
  cases h with
  | version | location | pointer | deposit | flow | passage | notice => exact .refl _
  | element hb hx =>
    rw [Recorder.elementAt_run hx]
    dsimp only
    split
    · exact .addLocation _ _
    · exact .refl _
  | slice => exact Recorder.sliceFrom_grows _ s
  | sliceIdly => exact Recorder.markLocations_grows s.path {} s

theorem Turn.grows {e : Event} {s t : State} (h : Turn e s t) : s.marks.Grows t.marks := by
  cases h with
  | effect _ hm =>
    induction hm with
    | refl => exact .refl _
    | tail _ h ih => exact ih.trans h.grows
  | fork | backtrack | idle => exact .refl _

/-- The path of an ancestor stands as well. -/
theorem Standing.up {s : State} (h : Standing s) {k : Nat} {q : Path} (hq : s.path.up? k = some q) :
    Standing { s with path := q } := by
  refine ⟨fun j q' hq' => h.at_up (k + j) q' ?_⟩
  unfold Path.up? at hq' ⊢
  rw [← List.drop_drop, ← Path.frames_of_up? hq]
  exact hq'

/-- A state stands on a path of the past as long as nothing is marked out of turn. -/
theorem Standing.later {s t : State} (h : Standing s) (hp : t.path = s.path) (hn : s.next ≤ t.next)
    (hm : ∀ i ∈ t.marks.versions, i < t.next) : Standing t := by
  refine ⟨fun k q hq => ?_⟩
  rw [hp] at hq
  exact h.outer hq hn hm

namespace Replay

/-- What comes of the first event stands first. -/
private theorem pursue_cons (index : Nat) (e : Event) (es : List Event) (r : Replay) :
    (pursue index (e :: es) r).1 =
      (pursue index [e] r).1 ++ (pursue (index + 1) es (pursue index [e] r).2).1 := by
  simp only [pursue]
  split <;> rfl

/-- Of a list of things that belong to several paths, those of one path. -/
def part {ι α : Type} [DecidableEq ι] (i : ι) (xs : List (ι × α)) : List α :=
  (xs.filter (·.1 = i)).map (·.2)

section Part

variable {ι α : Type} [DecidableEq ι] {i j : ι}

private theorem part_cons_self (a : α) (xs : List (ι × α)) : part i ((i, a) :: xs) = a :: part i xs := by
  simp [part]

private theorem part_cons_of_ne (h : j ≠ i) (a : α) (xs : List (ι × α)) :
    part i ((j, a) :: xs) = part i xs := by
  simp [part, h]

private theorem part_append (xs ys : List (ι × α)) : part i (xs ++ ys) = part i xs ++ part i ys := by
  simp [part]

private theorem part_map_self (as : List α) : part i (as.map ((i, ·))) = as := by
  simp [part, List.filter_map, Function.comp_def]

private theorem part_map_of_ne (h : j ≠ i) (as : List α) : part i (as.map ((j, ·))) = [] := by
  simp [part, List.filter_map, Function.comp_def, h]

end Part

/-- Several paths that share everything else. -/
structure Siblings (ι : Type) where
  common : Replay
  paths : ι → Path

namespace Siblings

variable {ι : Type}

/-- The replay along one of the paths. -/
def along (b : Siblings ι) (i : ι) : Replay :=
  { b.common with state := { b.common.state with path := b.paths i } }

variable [DecidableEq ι]

/-- What an event leaves behind that happens on one of the paths. -/
def step (b : Siblings ι) (i : ι) (e : Event) : Siblings ι :=
  let after := (pursue 0 [e] (b.along i)).2
  ⟨after, Function.update b.paths i after.state.path⟩

/-- Tries events on the paths in the order given. Says what came of the effects on every path. -/
def interleave : List (ι × Event) → Siblings ι →
    List (ι × Except (NameFault ⊕ Fault) Unit) × Siblings ι
  | [], b => ([], b)
  | (i, e) :: rest, b =>
    let after := interleave rest (b.step i e)
    ((pursue 0 [e] (b.along i)).1.map ((i, ·)) ++ after.1, after.2)

variable {b : Siblings ι} {i j : ι} {e : Event}

private theorem along_step_self (b : Siblings ι) (i : ι) (e : Event) :
    (b.step i e).along i = (pursue 0 [e] (b.along i)).2 := by
  simp only [along, step, Function.update_self]

private theorem along_step_of_ne (h : j ≠ i) (b : Siblings ι) (e : Event) :
    ((b.step j e).along i).state.path = (b.along i).state.path :=
  Function.update_of_ne (Ne.symm h) _ _

/-- All paths are in order. -/
def Standing (b : Siblings ι) : Prop :=
  ∀ i, PathSlice.Standing (b.along i).state

theorem Standing.turn (h : b.Standing) (i : ι) (e : Event) :
    Turn e (b.along i).state (b.step i e).common.state :=
  (apply_turn (h i).settled e 0).2

theorem Standing.step (h : b.Standing) (i : ι) (e : Event) : (b.step i e).Standing := by
  have stepped : PathSlice.Standing (b.step i e).common.state := (h i).turn (h.turn i e)
  intro j
  by_cases hj : i = j
  · subst hj
    rw [along_step_self]
    exact stepped
  · apply (h j).later (along_step_of_ne hj b e) (h.turn i e).next_le
    exact stepped.settled.marked

private theorem Standing.interleave_grows (h : b.Standing) (schedule : List (ι × Event)) :
    b.common.state.marks.Grows (interleave schedule b).2.common.state.marks := by
  induction schedule generalizing b with
  | nil => exact .refl _
  | cons x rest ih => exact (h.turn x.1 x.2).grows.trans (ih (h.step x.1 x.2))

/-- Whatever happens on the other paths, on one of them happens what would happen there alone. -/
private theorem interleave_mirrored {ρ : Nat → Nat} {r : Replay} (hb : b.Standing)
    (h : Mirrored ρ r (b.along i)) (schedule : List (ι × Event)) (index : Nat) :
    part i (interleave schedule b).1 = (pursue index (part i schedule) r).1 ∧
      ∃ σ, (∀ k < r.state.next, σ k = ρ k) ∧
        Mirrored σ (pursue index (part i schedule) r).2 ((interleave schedule b).2.along i) := by
  induction schedule generalizing ρ b r index with
  | nil => exact ⟨rfl, ρ, fun _ _ => rfl, h⟩
  | cons x rest ih =>
    obtain ⟨j, e⟩ := x
    by_cases hj : j = i
    · subst hj
      obtain ⟨hout, hstep⟩ := h.pursue [e] index 0
      have turn := (apply_turn h.standing.settled e index).2
      rw [← along_step_self] at hstep
      obtain ⟨houts, σ, hσ, hend⟩ := ih (hb.step j e) hstep (index + 1)
      rw [part_cons_self]
      refine ⟨?_, σ, fun k hk => hσ k (Nat.lt_of_lt_of_le hk turn.next_le), hend⟩
      rw [interleave, part_append, part_map_self, houts, hout]
      exact (pursue_cons index e _ r).symm
    · have turn := hb.turn j e
      have same : ((b.step j e).along i).program = (b.along i).program :=
        (apply_turn (hb j).settled e 0).1
      have drifted := h.drift same (along_step_of_ne hj b e) turn.next_le (hb.step j e i)
      obtain ⟨houts, σ, hσ, hend⟩ := ih (hb.step j e) drifted index
      rw [part_cons_of_ne hj]
      refine ⟨?_, σ, fun k hk => (hσ k hk).trans (raised_of_lt hk), hend⟩
      rw [interleave, part_append, part_map_of_ne hj, List.nil_append, houts]

end Siblings

variable {r : Replay}

/-- A path that branches off does and records what it would alone, and leaves its history alone. -/
private theorem branch_apart {q : Path} (h : Standing { r.state with path := q }) {ι : Type} [DecidableEq ι]
    {schedule : List (ι × Event)} {i : ι} {effects : List Event}
    (hs : part i schedule = .fork :: effects) (he : ∀ e ∈ effects, e.isEffect) :
    let together := Siblings.interleave schedule ⟨r, fun _ => q⟩
    let alone := pursue 0 (.fork :: effects) { r with state := { r.state with path := q } }
    part i together.1 = alone.1 ∧
      (∃ ρ : Nat → Nat, StrictMono ρ ∧ (∀ n < r.state.next, ρ n = n) ∧
        (together.2.paths i).current = alone.2.state.path.current.rename ρ) ∧
      (together.2.paths i).ancestors = q.frames ∧ alone.2.state.path.ancestors = q.frames ∧
      r.state.marks.Grows together.2.common.state.marks := by
  intro together alone
  let parent : Replay := { r with state := { r.state with path := q } }
  have standing : (⟨r, fun _ => q⟩ : Siblings ι).Standing := fun _ => h
  have begun : Mirrored id parent (Siblings.along ⟨r, fun _ => q⟩ i) :=
    ⟨rfl, strictMono_id, h, h, .refl _⟩
  obtain ⟨outcomes, ρ, hρ, mirrored⟩ := Siblings.interleave_mirrored standing begun schedule 0
  rw [hs] at outcomes mirrored
  have history : alone.2.state.path.ancestors = q.frames :=
    pursue_ancestors (h.turn (.fork parent.state)).settled he 1
  have path : together.2.paths i = alone.2.state.path.rename ρ := mirrored.mirrors.path
  have fixed : q.rename ρ = q := Path.rename_eq_self h.settled.closed h.settled.numbered hρ
  refine ⟨outcomes, ⟨ρ, mirrored.order, hρ, congrArg Path.current path⟩, ?_, history,
    standing.interleave_grows schedule⟩
  rw [path]
  change alone.2.state.path.ancestors.map (·.rename ρ) = q.frames
  rw [history]
  exact congrArg Path.frames fixed

/-! Frames that were given up. -/

/-- Without a fork the history stays as it is. -/
private theorem pursue_ancestors_of_not_fork (h : Standing r.state) {events : List Event}
    (he : ∀ e ∈ events, ¬e.isFork) (index : Nat) :
    (pursue index events r).2.state.path.ancestors = r.state.path.ancestors := by
  induction events generalizing r index with
  | nil => rfl
  | cons e es ih =>
    obtain ⟨he, hes⟩ := List.forall_mem_cons.1 he
    have turn := (apply_turn h.settled e index).2
    refine (ih (h.turn turn) hes (index + 1)).trans ?_
    generalize ((apply index e).run r).2.state = t at turn
    cases turn with
    | effect _ hm => exact hm.grown.ancestors
    | fork => exact absurd rfl he
    | backtrack | idle => rfl

private theorem pursue_next_le (h : Standing r.state) (index : Nat) (events : List Event) :
    r.state.next ≤ (pursue index events r).2.state.next :=
  pursue_invariant (P := fun s => r.state.next ≤ s.next)
    (fun _ turn hn => Nat.le_trans hn turn.next_le) h (Nat.le_refl _) index events

/-- A frame without forks that is given up is followed by one that stands for a new frame in its
place. -/
private theorem backtrack_mirrored (h : Standing r.state) {inner : List Event}
    (hi : ∀ e ∈ inner, ¬e.isFork) (i j k : Nat) :
    let forked := ((apply i .fork).run r).2
    ∃ ρ, Mirrored ρ forked ((apply k .backtrack).run (pursue j inner forked).2).2 := by
  intro forked
  obtain ⟨same, turn⟩ := apply_turn h.settled .fork i
  have standing : Standing forked.state := h.turn turn
  obtain ⟨same', standing'⟩ := pursue_program_standing standing j inner
  have history : (pursue j inner forked).2.state.path.ancestors = r.state.path.frames :=
    pursue_ancestors_of_not_fork standing hi j
  have later : r.state.next + 1 ≤ (pursue j inner forked).2.state.next :=
    Nat.le_of_succ_le (pursue_next_le standing j inner)
  generalize (pursue j inner forked).2 = left at same' standing' history later
  obtain ⟨same'', turn'⟩ := apply_turn standing'.settled .backtrack k
  refine ⟨raised id (r.state.next + 1) (left.state.next - (r.state.next + 1)), same''.trans same',
    raised_strictMono strictMono_id _ _, standing, standing'.turn turn', ?_⟩
  generalize ((apply k .backtrack).run left).2.state = t at turn'
  cases turn' with
  | effect he => cases he
  | idle _ _ hb => exact absurd (history.symm.trans (hb rfl)) (List.cons_ne_nil _ _)
  | backtrack =>
    refine .fork h.settled (Nat.le_succ _) later rfl ?_ rfl rfl
    rw [Path.fork, ← history]

/-- What follows is the same up to a renaming. -/
private theorem pursue_after_backtrack (h : Standing r.state) {inner : List Event}
    (hi : ∀ e ∈ inner, ¬e.isFork) (after : List Event) (index : Nat) :
    ∃ ρ, Mirrored ρ (pursue index (.fork :: after) r).2
      (pursue index (.fork :: (inner ++ .backtrack :: after)) r).2 := by
  obtain ⟨ρ, mirrored⟩ := backtrack_mirrored h hi index (index + 1) (index + 1 + inner.length)
  refine ⟨ρ, ?_⟩
  change Mirrored ρ _ (pursue (index + 1) (inner ++ .backtrack :: after) _).2
  rw [pursue_append]
  exact (mirrored.pursue after (index + 1) (index + 1 + inner.length + 1)).2

end Replay

/-- What is reported of all stores does not depend on identities. -/
private theorem Path.plainStores_rename {ρ : Nat → Nat} (hρ : StrictMono ρ) {p : Path} {n m : Nat}
    (hn : p.Numbered n) (hm : (p.rename ρ).Numbered m) :
    (p.rename ρ).plainStores = p.plainStores := by
  have renamed := p.renames_rename ρ
  have store (l : Location) : (p.rename ρ).storeAt? (l.rename ρ) = p.storeAt? l := by
    unfold storeAt?
    rw [renamed.content? hρ, Option.map_map]
    rfl
  simp [plainStores, hn.allLocations_eq, hm.allLocations_eq, renamed.locations, List.filterMap_map,
    store]

namespace Replay

open CommandLine (Options)

/-- What is reported where a replay succeeds is found after all its events. -/
theorem finish_of_run {trace : Trace} {options : Options} {next n : Nat} {report : Report}
    (h : run trace options next = .ok (report, n)) :
    ∃ program, Program.ofDeclarations next trace.declarations = .ok program ∧
      ((finish options trace.events.length).run (pursue 0 trace.events
        (start program (next + program.length) options.existential)).2).1 = .ok report := by
  unfold run at h
  split at h
  · cases h
  · rename_i program hd
    refine ⟨program, hd, ?_⟩
    dsimp only at h
    split at h
    · rename_i found r hrun
      cases h
      let began := start program (next + program.length) options.existential
      change ExceptT.bindCont (fun _ => finish options trace.events.length)
        ((applyAll 0 trace.events).run began).1 ((applyAll 0 trace.events).run began).2 = _ at hrun
      cases hx : (applyAll 0 trace.events).run began with
      | mk outcome applied =>
        rw [hx] at hrun
        cases outcome with
        | error fault => cases hrun
        | ok u =>
          rw [← applyAll_ok hx]
          exact congrArg Prod.fst hrun
    · cases h

/-- All stores are reported as they are. -/
theorem stores_of_finish {options : Options} {n : Nat} {report : Report}
    (ha : options.allStores = true) (h : ((finish options n).run r).1 = .ok report) :
    report.concrete = Report.byText (Store.concrete r.state.path.plainStores) ∧
      report.symbolic = Report.byText (Store.symbolic r.state.path.plainStores) := by
  obtain ⟨existential, allStores, dump, traces⟩ := options
  cases ha
  cases h
  exact ⟨rfl, rfl⟩

/-- A frame that was given up does not show in what is reported of all stores. -/
private theorem stores_after_backtrack {flags : Option String} {declarations : List Declaration}
    {before inner after : List Event} {options : Options} {next n n' : Nat}
    {report report' : Report} (hi : ∀ e ∈ inner, ¬e.isFork) (ha : options.allStores = true)
    (h : run ⟨flags, declarations, before ++ .fork :: (inner ++ .backtrack :: after)⟩ options next =
      .ok (report, n))
    (h' : run ⟨flags, declarations, before ++ .fork :: after⟩ options next = .ok (report', n')) :
    report.concrete = report'.concrete ∧ report.symbolic = report'.symbolic := by
  obtain ⟨program, hd, hf⟩ := finish_of_run h
  obtain ⟨program', hd', hf'⟩ := finish_of_run h'
  cases hd.symm.trans hd'
  have standing := pursue_standing program (next + program.length) options.existential before
  obtain ⟨ρ, mirrored⟩ := pursue_after_backtrack standing hi after (0 + before.length)
  rw [← pursue_append, ← pursue_append] at mirrored
  obtain ⟨concrete, symbolic⟩ := stores_of_finish ha hf
  obtain ⟨concrete', symbolic'⟩ := stores_of_finish ha hf'
  have numbered := mirrored.standing.settled.numbered
  have numbered' := mirrored.standing'.settled.numbered
  rw [mirrored.mirrors.path] at concrete symbolic numbered'
  rw [Path.plainStores_rename mirrored.order numbered numbered'] at concrete symbolic
  exact ⟨concrete.trans concrete'.symm, symbolic.trans symbolic'.symm⟩

/-- Paths that branch off one frame of any path do not interfere. However their effects are
interleaved, and in whatever order they branch off, what comes of the effects of each and what it
records is what would come of them alone, up to a renaming of identities that keeps their order; the
frames of their history stay as they are, and marks only grow. So if frames are given up on the way,
all stores are reported as if they had not been there. -/
theorem siblings_apart :
    (∀ (program : Program) (next : Nat) (existential : Bool) (events : List Event) (k : Nat)
        (q : Path),
      let r := (pursue 0 events (start program next existential)).2
      r.state.path.up? k = some q →
      ∀ (ι : Type) [DecidableEq ι] (schedule : List (ι × Event)) (effects : ι → List Event),
        (∀ i, part i schedule = .fork :: effects i) → (∀ i, ∀ e ∈ effects i, e.isEffect) →
        ∀ i,
          let together := Siblings.interleave schedule ⟨r, fun _ => q⟩
          let alone := pursue 0 (.fork :: effects i)
            { r with state := { r.state with path := q } }
          part i together.1 = alone.1 ∧
          (∃ ρ : Nat → Nat, StrictMono ρ ∧ (∀ n < r.state.next, ρ n = n) ∧
            (together.2.paths i).current = alone.2.state.path.current.rename ρ) ∧
          (together.2.paths i).ancestors = q.frames ∧ alone.2.state.path.ancestors = q.frames ∧
          r.state.marks.Grows together.2.common.state.marks) ∧
    ∀ (flags : Option String) (declarations : List Declaration) (before inner after : List Event)
        (options : Options) (next : Nat) (report report' : Report) (n n' : Nat),
      (∀ e ∈ inner, ¬e.isFork) → options.allStores = true →
      run ⟨flags, declarations, before ++ .fork :: (inner ++ .backtrack :: after)⟩ options next =
        .ok (report, n) →
      run ⟨flags, declarations, before ++ .fork :: after⟩ options next = .ok (report', n') →
      report.concrete = report'.concrete ∧ report.symbolic = report'.symbolic := by
  constructor
  · intro program next existential events k q r hq ι _ schedule effects hs he i
    have standing : Standing r.state := pursue_standing program next existential events
    exact branch_apart (standing.up hq) (hs i) (he i)
  · intro flags declarations before inner after options next report report' n n' hi ha h h'
    exact stores_after_backtrack hi ha h h'

/-- One path stores another sum before it loads, the other loads and branches. -/
def roundTripBranch : Bool → List Event
  | true =>
    [.execute "x" [.ofBits 3 32, .ofBits 1 32, .ofBits 2 32] false,
      .execute "s" [.ofBits 3 32, .pointer 16] false,
      .access "a" [.ofBits 3 32, .pointer 16] true false]
  | false =>
    [.access "a" [.ofBits 2 32, .pointer 16] true false,
      .execute "b" [] false]

def roundTripSchedule : List (Bool × Event) :=
  [(false, .fork), (true, .fork),
    (true, .execute "x" [.ofBits 3 32, .ofBits 1 32, .ofBits 2 32] false),
    (true, .execute "s" [.ofBits 3 32, .pointer 16] false),
    (false, .access "a" [.ofBits 2 32, .pointer 16] true false),
    (true, .access "a" [.ofBits 3 32, .pointer 16] true false),
    (false, .execute "b" [] false)]

/-- A value is stored in a frame, and another one in the frame that takes its place. -/
def overtakenTrace : Trace :=
  ⟨none, [⟨"k", .constant, .integer 32⟩, ⟨"p", .instruction .alloca "main" [], .pointer⟩,
      ⟨"s", .instruction .store "main" ["k", "p"], .void⟩],
    [.execute "p" [.pointer 16] false] ++ .fork ::
      ([.execute "s" [.ofBits 2 32, .pointer 16] false] ++ .backtrack ::
        [.execute "s" [.ofBits 3 32, .pointer 16] false])⟩

/-- The same without the frame that was given up. -/
def directTrace : Trace :=
  { overtakenTrace with
    events := [.execute "p" [.pointer 16] false] ++ .fork ::
      [.execute "s" [.ofBits 3 32, .pointer 16] false] }

private theorem exists_report {trace : Trace} {options : Options} {next : Nat}
    (h : (run trace options next).toOption.isSome) :
    ∃ report n, run trace options next = .ok (report, n) := by
  cases hr : run trace options next with
  | error fault => simp [hr, Except.toOption] at h
  | ok x => exact ⟨x.1, x.2, rfl⟩

theorem siblings_apart_roundTrip :
    (let r := (pursue 0 (roundTrip.take 3) (start roundTripProgram 7 false)).2
      ∀ i,
        let together := Siblings.interleave roundTripSchedule ⟨r, fun _ => r.state.path⟩
        let alone := pursue 0 (.fork :: roundTripBranch i)
          { r with state := { r.state with path := r.state.path } }
        part i together.1 = alone.1 ∧
        (∃ ρ : Nat → Nat, StrictMono ρ ∧ (∀ n < r.state.next, ρ n = n) ∧
          (together.2.paths i).current = alone.2.state.path.current.rename ρ) ∧
        (together.2.paths i).ancestors = r.state.path.frames ∧
        alone.2.state.path.ancestors = r.state.path.frames ∧
        r.state.marks.Grows together.2.common.state.marks) ∧
    ∃ report n report' n', run overtakenTrace { allStores := true } 1 = .ok (report, n) ∧
      run directTrace { allStores := true } 1 = .ok (report', n') ∧
      report.concrete = report'.concrete ∧ report.symbolic = report'.symbolic := by
  constructor
  · exact siblings_apart.1 roundTripProgram 7 false (roundTrip.take 3) 0 _ (Path.up?_zero _) Bool
      roundTripSchedule roundTripBranch (by intro i; cases i <;> rfl) (by decide)
  · have overtaken : (run overtakenTrace { allStores := true } 1).toOption.isSome := by
      decide +kernel
    have direct : (run directTrace { allStores := true } 1).toOption.isSome := by
      decide +kernel
    obtain ⟨report, n, h⟩ := exists_report overtaken
    obtain ⟨report', n', h'⟩ := exists_report direct
    exact ⟨report, n, report', n', h, h',
      siblings_apart.2 _ _ _ _ _ _ _ _ _ _ _ (by decide) rfl h h'⟩

end Replay

end PathSlice
