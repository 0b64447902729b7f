import Mathlib.Logic.Relation
import PathSlice.Proofs.EffectCorrespondence
import PathSlice.Proofs.PathInvariants

/-! Every effect is a sequence of small moves. A move creates a version or a location, or records
something about versions and locations that the path has already; flows are recorded only into
versions that the effect under way created. What moves keep is therefore kept by effects. -/
namespace PathSlice

namespace Recorder

private theorem coreSinks_state (fs : List Frame) (g : Support.Graph) (s : State) :
    (coreSinks g fs s).2.path = s.path ∧ (coreSinks g fs s).2.next = s.next ∧
      (coreSinks g fs s).2.marks.versions = s.marks.versions := by
  have sinks : ∀ (f : Frame) (ls : List Location) (m : Marks),
      (ls.foldl (fun m l => (m.addLocation l).addToFrame f.id l) m).versions = m.versions := by
    intro f ls
    induction ls with
    | nil => exact fun _ => rfl
    | cons l ls ih => exact fun m => ih _
  induction fs generalizing g s with
  | nil => exact ⟨rfl, rfl, rfl⟩
  | cons f parents ih =>
    cases parents with
    | nil => exact ⟨rfl, rfl, sinks f _ _⟩
    | cons f' parents =>
      obtain ⟨hp, hn, hm⟩ := ih (g.consumeAll f.locations)
        { s with
          marks := g.sortedSinks.foldl (fun m l => (m.addLocation l).addToFrame f.id l) s.marks }
      exact ⟨hp, hn, hm.trans (sinks f _ _)⟩

theorem markLocations_state (p : Path) (g : Support.Graph) (s : State) :
    (markLocations p g s).2.path = s.path ∧ (markLocations p g s).2.next = s.next ∧
      (markLocations p g s).2.marks.versions = s.marks.versions :=
  coreSinks_state p.frames g { s with notices := .graph (g.render s.marks) :: s.notices }

theorem sliceIdly_state (s : State) :
    (sliceIdly s).2.path = s.path ∧ (sliceIdly s).2.next = s.next ∧
      (sliceIdly s).2.marks.versions = s.marks.versions :=
  markLocations_state s.path {} s

/-- Slicing from a version marks what it was computed from and records nothing. -/
theorem sliceFrom_state (v : Version) (s : State) :
    (sliceFrom v s).2.path = s.path ∧ (sliceFrom v s).2.next = s.next ∧
      (sliceFrom v s).2.marks.versions =
        ((s.path.closure v).foldl Marks.addVersion s.marks).versions :=
  markLocations_state s.path (mark s.path {} v s).1 (mark s.path {} v s).2

theorem relocate_run (base : Location) (x y : Term) (s : State) :
    relocate base x y s =
      (⟨s.next, base.site, x, y⟩, { s with
        next := s.next + 1
        marks := if s.marks.isCoreLocation base then
          s.marks.addLocation ⟨s.next, base.site, x, y⟩ else s.marks }) := by
  cases h : s.marks.isCoreLocation base with
  | true =>
    have h' : ({ s with next := s.next + 1 } : State).marks.isCoreLocation base = true := h
    simp only [relocate, bind, StateT.bind, get, getThe, MonadStateOf.get, StateT.get, fresh,
      modifyGet, MonadStateOf.modifyGet, StateT.modifyGet, pure, h', if_true]
    rfl
  | false =>
    have h' : ({ s with next := s.next + 1 } : State).marks.isCoreLocation base = false := h
    simp only [relocate, bind, StateT.bind, get, getThe, MonadStateOf.get, StateT.get, fresh,
      modifyGet, MonadStateOf.modifyGet, StateT.modifyGet, pure, h', Bool.false_eq_true, if_false]
    rfl

/-- An element that the path does not have yet is a new location. -/
theorem elementAt_run {s : State} {base : Location} {x : Term}
    (h : s.path.latestLocation? base.site x = none) :
    let l : Location := ⟨s.next, base.site, x, base.displaced (x.sub base.address)⟩
    elementAt base x s = (l, { s with
      next := s.next + 1
      path := s.path.record (·.addLocation l)
      marks := if s.marks.isCoreLocation base then s.marks.addLocation l else s.marks }) := by
  simp only [elementAt, bind, StateT.bind, get, getThe, MonadStateOf.get, StateT.get, pure, h,
    relocate_run]
  rfl

end Recorder

/-- A move of an effect that began when `n` was the next identity. -/
inductive Move (n : Nat) : State → State → Prop
  | version (s : State) (value : Value) (x : Term) : Move n s (Recorder.newVersion value x s).2
  | location (s : State) (site : Value) (x : Term) : Move n s (Recorder.newLocation site x s).2
  | element {s : State} {base : Location} {x : Term} (hb : base ∈ s.path.locations)
      (hx : s.path.latestLocation? base.site x = none) : Move n s (Recorder.elementAt base x s).2
  | pointer {s : State} {v : Version} {l : Location} (hv : v ∈ s.path.versions)
      (hl : l ∈ s.path.locations) : Move n s (Recorder.addPointer v l s).2
  | deposit {s : State} {l : Location} {v : Version} (hl : l ∈ s.path.locations)
      (hv : v ∈ s.path.versions) : Move n s (Recorder.deposit l v s).2
  | flow {s : State} {source target : Version} (hs : source ∈ s.path.versions)
      (ht : target ∈ s.path.versions) (hn : n ≤ target.id) :
      Move n s (Recorder.addFlow source target none s).2
  | passage {s : State} {source target : Version} {l : Location} (hl : l ∈ s.path.locations)
      (hc : s.path.content? l = some source) (ht : target ∈ s.path.versions)
      (hn : n ≤ target.id) : Move n s (Recorder.addFlow source target (some l) s).2
  | notice (s : State) (x : Notice) : Move n s (Recorder.notify x s).2
  | slice {s : State} {v : Version} (hv : v ∈ s.path.versions) :
      Move n s (Recorder.sliceFrom v s).2
  | sliceIdly (s : State) : Move n s (Recorder.sliceIdly s).2

/-- The moves of an effect, or of a part of it. -/
abbrev Moves (n : Nat) : State → State → Prop :=
  Relation.ReflTransGen (Move n)

/-- What holds of every state that recording leads to. -/
structure Recorded (s : State) : Prop where
  closed : s.path.Closed
  numbered : s.path.Numbered s.next
  traceable : s.path.Traceable
  marked : ∀ i ∈ s.marks.versions, i < s.next

theorem Recorded.root (id : Nat) : Recorded { next := id + 1, path := .root id } where
  closed := .root id
  numbered := .root id
  traceable := .root id
  marked _ hi := absurd hi List.not_mem_nil

/-- Nothing but notices, marks of locations and marks of versions of the path may change besides
the path. -/
private theorem Recorded.slice {s t : State} (h : Recorded s) (hp : t.path = s.path)
    (hn : t.next = s.next) (hm : ∀ i ∈ t.marks.versions, i < s.next) : Recorded t := by
  constructor
  · rw [hp]
    exact h.closed
  · rw [hp, hn]
    exact h.numbered
  · rw [hp]
    exact h.traceable
  · rw [hn]
    exact hm

private theorem marked_foldl_addVersion {n : Nat} (vs : List Version) (m : Marks)
    (hm : ∀ i ∈ m.versions, i < n) (hv : ∀ v ∈ vs, v.id < n) :
    ∀ i ∈ (vs.foldl Marks.addVersion m).versions, i < n := by
  induction vs generalizing m with
  | nil => exact hm
  | cons v vs ih =>
    obtain ⟨hv, hvs⟩ := List.forall_mem_cons.1 hv
    refine ih (m.addVersion v) (fun i hi => ?_) hvs
    rcases Ascending.mem_of_mem_insert hi with rfl | hi
    · exact hv
    · exact hm i hi

/-- What a location holds was put there. -/
theorem Recorded.deposit_of_content? {s : State} (h : Recorded s) {l : Location} {v : Version}
    (hl : l ∈ s.path.locations) (hc : s.path.content? l = some v) : ⟨l, v⟩ ∈ s.path.deposits := by
  obtain ⟨d, hd, hi, rfl⟩ := Path.mem_deposits_of_content? hc
  rw [h.numbered.location_eq hl (h.closed.deposits d hd).1 hi.symm]
  exact hd

/-- Nothing is forgotten, and the history stays as it is. -/
structure Grown (s t : State) : Prop where
  next : s.next ≤ t.next
  ancestors : t.path.ancestors = s.path.ancestors
  versions : ∀ v ∈ s.path.versions, v ∈ t.path.versions
  locations : ∀ l ∈ s.path.locations, l ∈ t.path.locations

theorem Grown.of_path_eq {s t : State} (hp : t.path = s.path) (hn : t.next = s.next) :
    Grown s t := by
  refine ⟨Nat.le_of_eq hn.symm, ?_, ?_, ?_⟩ <;> rw [hp]
  · exact fun _ hv => hv
  · exact fun _ hl => hl

theorem Grown.trans {s t u : State} (h : Grown s t) (h' : Grown t u) : Grown s u where
  next := Nat.le_trans h.next h'.next
  ancestors := h'.ancestors.trans h.ancestors
  versions v hv := h'.versions v (h.versions v hv)
  locations l hl := h'.locations l (h.locations l hl)

namespace Move

variable {n : Nat} {s t : State}

theorem recorded (h : Move n s t) (hs : Recorded s) : Recorded t := by
  cases h with
  | version value x =>
    exact ⟨hs.closed.addVersion _, hs.numbered.addVersion value x,
      hs.traceable.keep rfl rfl fun _ hd => hd, fun i hi => Nat.lt_succ_of_lt (hs.marked i hi)⟩
  | location site x =>
    exact ⟨hs.closed.addLocation _, hs.numbered.addLocation site x _,
      hs.traceable.keep rfl rfl fun _ hd => hd, fun i hi => Nat.lt_succ_of_lt (hs.marked i hi)⟩
  | element hb hx =>
    rw [Recorder.elementAt_run hx]
    refine ⟨hs.closed.addLocation _, hs.numbered.addLocation _ _ _,
      hs.traceable.keep rfl rfl fun _ hd => hd, fun i hi => Nat.lt_succ_of_lt (hs.marked i ?_)⟩
    dsimp only at hi
    split at hi <;> exact hi
  | pointer hv hl =>
    exact ⟨hs.closed.addPointer hv hl, hs.numbered.keep rfl rfl rfl,
      hs.traceable.keep rfl rfl fun _ hd => hd, hs.marked⟩
  | deposit hl hv =>
    exact ⟨hs.closed.addDeposit hl hv, hs.numbered.keep rfl rfl rfl,
      hs.traceable.keep rfl rfl fun _ => List.mem_cons_of_mem _, hs.marked⟩
  | flow hv ht =>
    have none : ∀ {P : Location → Prop} l, none = some l → P l := fun _ h => nomatch h
    exact ⟨hs.closed.addFlow ht hv none, hs.numbered.addFlow _ _ _, hs.traceable.addFlow none,
      hs.marked⟩
  | passage hl hc ht =>
    have hd := hs.deposit_of_content? hl hc
    refine ⟨hs.closed.addFlow ht (hs.closed.deposits _ hd).2 ?_, hs.numbered.addFlow _ _ _,
      hs.traceable.addFlow ?_, hs.marked⟩
    · rintro _ ⟨⟩
      exact hl
    · rintro _ ⟨⟩
      exact hd
  | notice x => exact ⟨hs.closed, hs.numbered, hs.traceable, hs.marked⟩
  | @slice v hv =>
    obtain ⟨hp, hn, hm⟩ := Recorder.sliceFrom_state v s
    refine hs.slice hp hn ?_
    rw [hm]
    refine marked_foldl_addVersion _ _ hs.marked fun x hx => hs.numbered.versions_lt x ?_
    rcases Path.mem_closure hx with rfl | ⟨e, he, rfl⟩
    · exact hv
    · exact (hs.closed.flows e he).2.1
  | sliceIdly =>
    obtain ⟨hp, hn, hm⟩ := Recorder.sliceIdly_state s
    exact hs.slice hp hn (hm ▸ hs.marked)

theorem layered (h : Move n s t) (hs : s.path.Layered n) : t.path.Layered n := by
  cases h with
  | version | location | pointer | deposit => exact hs.keep rfl rfl
  | element hb hx =>
    rw [Recorder.elementAt_run hx]
    exact hs.keep rfl rfl
  | flow _ _ hn | passage _ _ _ hn => exact hs.addFlow hn
  | notice => exact hs
  | @slice v =>
    rw [(Recorder.sliceFrom_state v s).1]
    exact hs
  | sliceIdly =>
    rw [(Recorder.sliceIdly_state s).1]
    exact hs

theorem grown (h : Move n s t) : Grown s t := by
  cases h with
  | version => exact ⟨Nat.le_succ _, rfl, fun _ => List.mem_cons_of_mem _, fun _ hl => hl⟩
  | location => exact ⟨Nat.le_succ _, rfl, fun _ hv => hv, fun _ => List.mem_cons_of_mem _⟩
  | element hb hx =>
    rw [Recorder.elementAt_run hx]
    exact ⟨Nat.le_succ _, rfl, fun _ hv => hv, fun _ => List.mem_cons_of_mem _⟩
  | pointer | deposit | notice => exact ⟨Nat.le_refl _, rfl, fun _ hv => hv, fun _ hl => hl⟩
  | flow | passage =>
    refine ⟨Nat.le_refl _, rfl, fun v hv => ?_, fun l hl => ?_⟩
    · exact (Path.versions_addFlow s.path _ _ _).symm ▸ hv
    · exact (Path.locations_addFlow s.path _ _ _).symm ▸ hl
  | @slice v =>
    obtain ⟨hp, hn, -⟩ := Recorder.sliceFrom_state v s
    exact .of_path_eq hp hn
  | sliceIdly =>
    obtain ⟨hp, hn, -⟩ := Recorder.sliceIdly_state s
    exact .of_path_eq hp hn

end Move

namespace Moves

variable {n : Nat} {s t : State}

theorem recorded (h : Moves n s t) (hs : Recorded s) : Recorded t := by
  induction h with
  | refl => exact hs
  | tail _ h ih => exact h.recorded ih

theorem layered (h : Moves n s t) (hs : s.path.Layered n) : t.path.Layered n := by
  induction h with
  | refl => exact hs
  | tail _ h ih => exact h.layered ih

theorem grown (h : Moves n s t) : Grown s t := by
  induction h with
  | refl => exact .of_path_eq rfl rfl
  | tail _ h ih => exact ih.trans h.grown

end Moves

/-- A run compared with itself. The world is the state, and it gets later by moves. -/
def recording (n : Nat) : Correspondence where
  World := State
  Later := Moves n
  states w s t := s = w ∧ t = w ∧ Recorded w ∧ n ≤ w.next
  versions w a b := a = b ∧ a ∈ w.path.versions
  targets w a b := a = b ∧ a ∈ w.path.versions ∧ n ≤ a.id
  locations w l m := l = m ∧ l ∈ w.path.locations

private theorem rel_self {α : Type} {R : α → α → Prop} {x : Option α} (h : ∀ a, x = some a → R a a) :
    Option.Rel R x x := by
  cases x with
  | none => exact .none
  | some a => exact .some (h a rfl)

section Recording

variable {n : Nat} {Later : State → State → Prop}

/-- The same with another way to get later. -/
private abbrev recordingBy (n : Nat) (Later : State → State → Prop) : Correspondence :=
  { recording n with Later := Later }

private theorem tracks_of_move {α : Type} {s : State} {m : Recorder α} {Q : State → α → α → Prop}
    (hl : Move n s (m s).2 → Later s (m s).2) (hs : Recorded s) (hn : n ≤ s.next)
    (h : Move n s (m s).2) (hq : Q (m s).2 (m s).1 (m s).1) :
    (recordingBy n Later).Tracks s m m s s Q :=
  ⟨(m s).2, hl h, ⟨rfl, rfl, h.recorded hs, Nat.le_trans hn h.grown.next⟩, hq⟩

theorem Recorder.elementAt_unmarked {s : State} {base : Location} {x : Term}
    (h : s.path.latestLocation? base.site x = none) :
    (elementAt base x s).2.marks.versions = s.marks.versions := by
  rw [elementAt_run h]
  dsimp only
  split <;> rfl

/-- Whatever is recorded without slicing is a sequence of moves that mark no version. -/
theorem recording_records (refl : ∀ s, Later s s)
    (trans : ∀ {s t u}, Later s t → Later t u → Later s u)
    (moves : ∀ {s t}, Later s t → Moves n s t)
    (single : ∀ {s t}, Move n s t → t.marks.versions = s.marks.versions → Later s t) :
    (recordingBy n Later).Records where
  refl := refl
  trans := trans
  version_later h hv := ⟨hv.1, (moves h).grown.versions _ hv.2⟩
  target_later h ht := ⟨ht.1, (moves h).grown.versions _ ht.2.1, ht.2.2⟩
  location_later h hl := ⟨hl.1, (moves h).grown.locations _ hl.2⟩
  target_version h := ⟨h.1, h.2.1⟩
  value_eq h := congrArg _ h.1
  term_eq h := congrArg _ h.1
  site_eq h := congrArg _ h.1
  address_eq h := congrArg _ h.1
  latest := by
    rintro w _ _ ⟨rfl, rfl, hw, hn⟩ v
    exact rel_self fun a ha => ⟨rfl, Path.mem_versions_of_latest? ha⟩
  latestLocation := by
    rintro w _ _ ⟨rfl, rfl, hw, hn⟩ site x
    exact rel_self fun l hl => ⟨rfl, Path.mem_locations_of_latestLocation? hl⟩
  pointee := by
    rintro w _ _ a _ ⟨rfl, rfl, hw, hn⟩ ⟨rfl, ha⟩
    refine rel_self fun l hl => ⟨rfl, ?_⟩
    obtain ⟨r, hr, _, rfl⟩ := Path.mem_pointers_of_pointee? hl
    exact (hw.closed.pointers r hr).2
  content := by
    rintro w _ _ l _ ⟨rfl, rfl, hw, hn⟩ ⟨rfl, hl⟩
    refine rel_self fun a ha => ⟨rfl, ?_⟩
    obtain ⟨d, hd, _, rfl⟩ := Path.mem_deposits_of_content? ha
    exact (hw.closed.deposits d hd).2
  sources := by
    rintro w _ _ a _ ⟨rfl, rfl, hw, hn⟩ ⟨rfl, ha⟩
    exact List.forall₂_same.2 fun x hx => ⟨rfl, hw.closed.mem_versions_of_mem_sourcesOf hx⟩
  ends := by
    rintro w _ _ a _ ⟨rfl, rfl, hw, hn⟩ ⟨rfl, ha⟩
    refine List.forall₂_same.2 fun x hx => ⟨rfl, ?_⟩
    rcases Path.mem_ends hx with rfl | ⟨e, he, rfl⟩
    · exact ha
    · exact (hw.closed.flows e he).2.1
  newVersion := by
    rintro w _ _ ⟨rfl, rfl, hw, hn⟩ v x
    exact tracks_of_move (fun h => single h rfl) hw hn (.version _ v x) ⟨rfl, List.mem_cons_self, hn⟩
  newLocation := by
    rintro w _ _ ⟨rfl, rfl, hw, hn⟩ site x
    exact tracks_of_move (fun h => single h rfl) hw hn (.location _ site x) ⟨rfl, List.mem_cons_self⟩
  newElement := by
    rintro w _ _ l _ x ⟨rfl, rfl, hw, hn⟩ ⟨rfl, hl⟩ hx -
    refine tracks_of_move (fun h => single h (Recorder.elementAt_unmarked hx)) hw hn
      (.element hl hx) ⟨rfl, ?_⟩
    rw [Recorder.elementAt_run hx]
    exact List.mem_cons_self
  addPointer := by
    rintro w _ _ a _ l _ ⟨rfl, rfl, hw, hn⟩ ⟨rfl, ha⟩ ⟨rfl, hl⟩
    exact tracks_of_move (fun h => single h rfl) hw hn (.pointer ha hl) trivial
  deposit := by
    rintro w _ _ a _ l _ ⟨rfl, rfl, hw, hn⟩ ⟨rfl, hl⟩ ⟨rfl, ha⟩
    exact tracks_of_move (fun h => single h rfl) hw hn (.deposit hl ha) trivial
  addFlow := by
    rintro w _ _ a _ c _ ⟨rfl, rfl, hw, hn⟩ ⟨rfl, ha⟩ ⟨rfl, hc, hi⟩
    exact tracks_of_move (fun h => single h rfl) hw hn (.flow ha hc hi) trivial
  addPassage := by
    rintro w _ _ a b c _ l _ ⟨rfl, rfl, hw, hn⟩ ⟨rfl, hl⟩ ⟨rfl, hc, hi⟩ ha hb
    cases ha.symm.trans hb
    exact tracks_of_move (fun h => single h rfl) hw hn (.passage hl ha hc hi) trivial
  notify := by
    rintro w _ _ ⟨rfl, rfl, hw, hn⟩ x
    exact tracks_of_move (fun h => single h rfl) hw hn (.notice _ x) trivial

/-- Every effect is a sequence of moves. -/
theorem recording_lawful (n : Nat) : (recording n).Lawful where
  toRecords := recording_records (fun _ => .refl) (fun h h' => h.trans h') id fun h _ => .single h
  sliceFrom := by
    rintro w _ _ a _ ⟨rfl, rfl, hw, hn⟩ ⟨rfl, ha⟩
    exact tracks_of_move (fun h : Move n _ _ => .single h) hw hn (.slice ha) trivial
  sliceIdly := by
    rintro w _ _ ⟨rfl, rfl, hw, hn⟩
    exact tracks_of_move (fun h : Move n _ _ => .single h) hw hn (.sliceIdly _) trivial

/-- Moves that mark no version. -/
structure Jots (n : Nat) (s t : State) : Prop where
  moves : Moves n s t
  unmarked : t.marks.versions = s.marks.versions

/-- A run compared with itself, as long as nothing is sliced. -/
def jotting (n : Nat) : Correspondence :=
  { recording n with Later := Jots n }

theorem jotting_records (n : Nat) : (jotting n).Records :=
  recording_records (fun _ => ⟨.refl, rfl⟩)
    (fun h h' => ⟨h.moves.trans h'.moves, h'.unmarked.trans h.unmarked⟩) Jots.moves
    fun h hm => ⟨.single h, hm⟩

end Recording

end PathSlice
