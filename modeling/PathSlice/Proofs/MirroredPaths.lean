import PathSlice.Proofs.BacktrackRuns
import PathSlice.Proofs.ForkTransparency

/-! Paths that are alike frame by frame. Here every frame of one path is a frame of the other with its
identities renamed, and marks do not matter at all. Every event keeps two replays alike in this way,
the giving up of a frame included, and all effects have the same outcome in both. Identities that are
taken elsewhere move the renaming of all later ones up. -/
namespace PathSlice

section Rename

variable {ρ : Nat → Nat} (hρ : StrictMono ρ)

include hρ

open Path.Renames (beq_rename compare_rename)

theorem Frame.sourcesOf_rename (f : Frame) (v : Version) :
    (f.rename ρ).sourcesOf (v.rename ρ) = (f.sourcesOf v).map (·.rename ρ) := by
  have order : ∀ d e : Flow, compareOn (·.source.id) (d.rename ρ) (e.rename ρ) =
      compareOn (·.source.id) d e := fun d e => compare_rename hρ d.source.id e.source.id
  unfold sourcesOf flowsInto
  rw [rename, List.filter_map, Ascending.ofList_map order, List.map_map, List.map_map]
  simp only [Function.comp_def, Flow.rename, Version.rename, beq_rename hρ]

private theorem Frame.addFlow_rename (f : Frame) (source target : Version) (via : Option Location) :
    (f.rename ρ).addFlow (source.rename ρ) (target.rename ρ) (via.map (·.rename ρ)) =
      (f.addFlow source target via).rename ρ := by
  have known : (f.rename ρ).hasFlow (source.rename ρ) (target.rename ρ) =
      f.hasFlow source target := by
    simp only [hasFlow, rename, List.any_map, Function.comp_def, Flow.rename, Version.rename,
      beq_rename hρ]
  unfold addFlow
  rw [known]
  split <;> rfl

omit hρ in
private theorem Path.frames_rename (p : Path) : (p.rename ρ).frames = p.frames.map (·.rename ρ) :=
  rfl

theorem Path.sourcesOf_rename (p : Path) (v : Version) :
    (p.rename ρ).sourcesOf (v.rename ρ) = (p.sourcesOf v).map (·.rename ρ) := by
  unfold sourcesOf
  rw [frames_rename, ← List.map_reverse, List.flatMap_map, List.map_flatMap]
  simp only [Frame.sourcesOf_rename hρ]

end Rename

private theorem Path.rename_id (p : Path) : p.rename id = p := by
  have frame : Frame.rename id = id := by
    funext f
    simp [Frame.rename, Version.rename, Location.rename, Pointer.rename, Deposit.rename, Flow.rename]
  simp [rename, frame]

theorem Path.rename_eq_self {ρ : Nat → Nat} {p : Path} {n : Nat} (hc : p.Closed)
    (hn : p.Numbered n) (hi : ∀ i < n, ρ i = i) : p.rename ρ = p :=
  (rename_congr hc hn hi).trans p.rename_id

/-- The second state is the first with its identities renamed, as far as the path goes. -/
structure Mirrors (ρ : Nat → Nat) (s t : State) : Prop where
  path : t.path = s.path.rename ρ
  next : t.next = ρ s.next
  steady : ∀ i, s.next ≤ i → ρ (i + 1) = ρ i + 1

namespace Mirrors

variable {ρ : Nat → Nat} {s t s' t' : State}

theorem refl (s : State) : Mirrors id s s :=
  ⟨s.path.rename_id.symm, rfl, fun _ _ => rfl⟩

/-- Both states record something and take as many identities. -/
theorem take (h : Mirrors ρ s t) {d : Nat} (hp : t'.path = s'.path.rename ρ)
    (hn : s'.next = s.next + d) (hn' : t'.next = t.next + d) : Mirrors ρ s' t' := by
  refine ⟨hp, ?_, fun i hi => h.steady i (by omega)⟩
  rw [hn', hn, h.next]
  clear hn hn'
  induction d with
  | zero => rfl
  | succ d ih =>
    rw [← Nat.add_assoc, ih, ← Nat.add_assoc, h.steady (s.next + d) (Nat.le_add_right _ d)]

private theorem path_addFlow (hρ : StrictMono ρ) (h : Mirrors ρ s t) (source target : Version)
    (via : Option Location) :
    t.path.record (·.addFlow (source.rename ρ) (target.rename ρ) (via.map (·.rename ρ))) =
      (s.path.record (·.addFlow source target via)).rename ρ := by
  rw [h.path]
  exact congrArg (Path.mk · _) (Frame.addFlow_rename hρ s.path.current source target via)

/-- The other state has taken identities elsewhere. -/
theorem drift (h : Mirrors ρ s t) (hs : Settled s) (hp : t'.path = t.path) (hn : t.next ≤ t'.next) :
    Mirrors (raised ρ s.next (t'.next - t.next)) s t' := by
  refine ⟨?_, ?_, raised_steady h.steady⟩
  · rw [hp, h.path]
    exact Path.rename_congr hs.closed hs.numbered fun i hi => (raised_of_lt hi).symm
  · rw [raised_of_le (Nat.le_refl _), ← h.next]
    omega

/-- New frames over one path. -/
theorem fork {u : State} (hu : Settled u) {a b : Nat} (ha : u.next ≤ a) (hab : a ≤ b)
    (hs : s.path = u.path.fork a) (ht : t.path = u.path.fork b) (hn : s.next = a + 1)
    (hn' : t.next = b + 1) : Mirrors (raised id a (b - a)) s t := by
  have here : raised id a (b - a) a = b := by
    rw [raised_of_le (Nat.le_refl a), id]
    omega
  have next : raised id a (b - a) (a + 1) = b + 1 := by
    rw [raised_of_le (Nat.le_succ a), id]
    omega
  have history : u.path.frames.map (Frame.rename (raised id a (b - a))) = u.path.frames :=
    congrArg Path.frames (Path.rename_eq_self hu.closed hu.numbered fun i hi =>
      raised_of_lt (Nat.lt_of_lt_of_le hi ha))
  refine ⟨?_, ?_, fun i hi => @raised_steady id a (b - a) (fun _ _ => rfl) i (by omega)⟩
  · rw [hs, ht, Path.rename]
    change Path.mk { id := b } u.path.frames = Path.mk { id := raised id a (b - a) a } _
    rw [here]
    exact congrArg _ history.symm
  · rw [hn, hn', next]

end Mirrors

def mirroring (ρ : Nat → Nat) : Correspondence where
  World := Unit
  Later _ _ := True
  states _ := Mirrors ρ
  versions _ a b := b = a.rename ρ
  targets _ a b := b = a.rename ρ
  locations _ l m := m = l.rename ρ

/-- Effects keep states alike and have the same outcome in both. -/
private theorem mirroring_lawful {ρ : Nat → Nat} (hρ : StrictMono ρ) : (mirroring ρ).Lawful where
  refl _ := trivial
  trans _ _ := trivial
  version_later _ h := h
  target_later _ h := h
  location_later _ h := h
  target_version h := h
  value_eq := by
    rintro _ a _ rfl
    rfl
  term_eq := by
    rintro _ a _ rfl
    rfl
  site_eq := by
    rintro _ l _ rfl
    rfl
  address_eq := by
    rintro _ l _ rfl
    rfl
  latest := by
    intro _ s t h v
    rw [h.path, (s.path.renames_rename ρ).latest?]
    exact rel_map _
  latestLocation := by
    intro _ s t h site x
    rw [h.path, (s.path.renames_rename ρ).latestLocation?]
    exact rel_map _
  pointee := by
    rintro _ s t a _ h rfl
    rw [h.path, (s.path.renames_rename ρ).pointee? hρ]
    exact rel_map _
  content := by
    rintro _ s t l _ h rfl
    rw [h.path, (s.path.renames_rename ρ).content? hρ]
    exact rel_map _
  sources := by
    rintro _ s t a _ h rfl
    rw [h.path, Path.sourcesOf_rename hρ]
    exact forall₂_map _
  ends := by
    rintro _ s t a _ h rfl
    rw [h.path, (s.path.renames_rename ρ).ends_of_sourcesOf hρ (Path.sourcesOf_rename hρ s.path)]
    exact forall₂_map _
  newVersion := by
    intro _ s t h v x
    refine ⟨(), trivial, h.take (d := 1) ?_ rfl rfl, congrArg (Version.mk · v x) h.next⟩
    change t.path.record (·.addVersion ⟨t.next, v, x⟩) = _
    rw [h.path, h.next]
    rfl
  newLocation := by
    intro _ s t h site x
    refine ⟨(), trivial, h.take (d := 1) ?_ rfl rfl, congrArg (Location.start · site x) h.next⟩
    change t.path.record (·.addLocation (.start t.next site x)) = _
    rw [h.path, h.next]
    rfl
  newElement := by
    rintro _ s t l _ x h rfl hx hy
    unfold Correspondence.Tracks
    rw [Recorder.elementAt_run hx, Recorder.elementAt_run hy]
    refine ⟨(), trivial, h.take (d := 1) ?_ rfl rfl, ?_⟩
    · dsimp only
      rw [h.path, h.next]
      rfl
    · dsimp only
      rw [h.next]
      rfl
  addPointer := by
    rintro _ s t a _ l _ h rfl rfl
    refine ⟨(), trivial, h.take (d := 0) ?_ rfl rfl, trivial⟩
    change t.path.record (·.addPointer (a.rename ρ) (l.rename ρ)) = _
    rw [h.path]
    rfl
  deposit := by
    rintro _ s t a _ l _ h rfl rfl
    refine ⟨(), trivial, h.take (d := 0) ?_ rfl rfl, trivial⟩
    change t.path.record (·.addDeposit (l.rename ρ) (a.rename ρ)) = _
    rw [h.path]
    rfl
  addFlow := by
    rintro _ s t a _ c _ h rfl rfl
    refine ⟨(), trivial, h.take (d := 0) (h.path_addFlow hρ a c none) rfl rfl, trivial⟩
  addPassage := by
    rintro _ s t a b c _ l _ h rfl rfl ha hb
    obtain rfl : a.rename ρ = b := by
      rw [h.path, (s.path.renames_rename ρ).content? hρ, ha] at hb
      exact Option.some.inj hb
    exact ⟨(), trivial, h.take (d := 0) (h.path_addFlow hρ a c (some l)) rfl rfl, trivial⟩
  notify := by
    intro _ s t h x
    exact ⟨(), trivial, h.take (d := 0) h.path rfl rfl, trivial⟩
  sliceFrom := by
    rintro _ s t a _ h rfl
    obtain ⟨hp, hn, _⟩ := Recorder.sliceFrom_state a s
    obtain ⟨hp', hn', _⟩ := Recorder.sliceFrom_state (a.rename ρ) t
    exact ⟨(), trivial, h.take (d := 0) (by rw [hp, hp', h.path]) hn hn', trivial⟩
  sliceIdly := by
    intro _ s t h
    obtain ⟨hp, hn, _⟩ := Recorder.sliceIdly_state s
    obtain ⟨hp', hn', _⟩ := Recorder.sliceIdly_state t
    exact ⟨(), trivial, h.take (d := 0) (by rw [hp, hp', h.path]) hn hn', trivial⟩

namespace Mirrors

variable {ρ : Nat → Nat} {s t s' t' : State} {e : Event}

/-- An event that is no effect does the same to both states. -/
theorem turn (h : Mirrors ρ s t) (he : ¬e.isEffect) (hs : Turn e s s') (ht : Turn e t t') :
    Mirrors ρ s' t' := by
  have ancestors : t.path.ancestors = s.path.ancestors.map (·.rename ρ) :=
    congrArg Path.ancestors h.path
  cases hs with
  | effect hs => exact absurd hs he
  | fork =>
    cases ht with
    | effect ht => exact absurd ht he
    | idle _ hf => exact absurd rfl hf
    | fork =>
      refine h.take (d := 2) ?_ rfl rfl
      have id : t.next + 1 = ρ (s.next + 1) := by rw [h.next, h.steady s.next (Nat.le_refl _)]
      change Path.mk { id := t.next + 1 } t.path.frames = _
      rw [h.path, id]
      rfl
  | backtrack ha =>
    cases ht with
    | effect ht => exact absurd ht he
    | idle _ _ hb => exact absurd (by simpa [hb rfl] using ancestors) ha
    | backtrack =>
      refine h.take (d := 1) ?_ rfl rfl
      change Path.mk { id := t.next } t.path.ancestors = _
      rw [ancestors, h.next]
      rfl
  | idle _ hf hb =>
    cases ht with
    | effect ht => exact absurd ht he
    | fork => exact absurd rfl hf
    | backtrack ha => exact absurd (by simp [ancestors, hb rfl]) ha
    | idle => exact h

end Mirrors

theorem Turn.next_le {e : Event} {s t : State} (h : Turn e s t) : s.next ≤ t.next := by
  cases h with
  | effect _ hm => exact hm.grown.next
  | fork => exact Nat.le_add_right _ 2
  | backtrack => exact Nat.le_succ _
  | idle => exact Nat.le_refl _

namespace Replay

/-- Two replays of one program whose paths are alike frame by frame. -/
structure Mirrored (ρ : Nat → Nat) (r r' : Replay) : Prop where
  program : r'.program = r.program
  order : StrictMono ρ
  standing : Standing r.state
  standing' : Standing r'.state
  mirrors : Mirrors ρ r.state r'.state

namespace Mirrored

variable {ρ : Nat → Nat} {r r' : Replay}

/-- What came of an effect is the same in both replays, and every event keeps them alike. -/
theorem apply (h : Mirrored ρ r r') (e : Event) (i j : Nat) :
    (e.isEffect → ((apply j e).run r').1.mapError (·.cause) =
      ((apply i e).run r).1.mapError (·.cause)) ∧
      Mirrored ρ ((apply i e).run r).2 ((apply j e).run r').2 := by
  obtain ⟨hp, ht⟩ := apply_turn h.standing.settled e i
  obtain ⟨hp', ht'⟩ := apply_turn h.standing'.settled e j
  have alike (hm : Mirrors ρ ((Replay.apply i e).run r).2.state ((Replay.apply j e).run r').2.state) :
      Mirrored ρ ((Replay.apply i e).run r).2 ((Replay.apply j e).run r').2 :=
    ⟨hp'.trans (h.program.trans hp.symm), h.order, h.standing.turn ht, h.standing'.turn ht', hm⟩
  by_cases he : e.isEffect
  · suffices hs : ((Replay.apply j e).run r').1.mapError (·.cause) =
        ((Replay.apply i e).run r).1.mapError (·.cause) ∧
        Mirrors ρ ((Replay.apply i e).run r).2.state ((Replay.apply j e).run r').2.state from
      ⟨fun _ => hs.1, alike hs.2⟩
    rw [apply_of_isEffect he, apply_of_isEffect he, h.program]
    cases hx : e.effect r.program with
    | error fault => exact ⟨rfl, h.mirrors⟩
    | ok x =>
      obtain ⟨_, _, hm, ha⟩ := (mirroring_lawful h.order).effect (w := ()) h.mirrors hx
      exact ⟨Abreast.cause_eq_of_alike ha i j, hm⟩
  · exact ⟨fun he' => absurd he' he, alike (h.mirrors.turn he ht ht')⟩

/-- The other replay has taken identities elsewhere. -/
theorem drift {r'' : Replay} (h : Mirrored ρ r r') (hp : r''.program = r'.program)
    (hpath : r''.state.path = r'.state.path) (hn : r'.state.next ≤ r''.state.next)
    (hs : Standing r''.state) :
    Mirrored (raised ρ r.state.next (r''.state.next - r'.state.next)) r r'' where
  program := hp.trans h.program
  order := raised_strictMono h.order _ _
  standing := h.standing
  standing' := hs
  mirrors := h.mirrors.drift h.standing.settled hpath hn

theorem pursue (h : Mirrored ρ r r') (events : List Event) (i j : Nat) :
    (pursue j events r').1 = (pursue i events r).1 ∧
      Mirrored ρ (Replay.pursue i events r).2 (Replay.pursue j events r').2 := by
  induction events generalizing r r' i j with
  | nil => exact ⟨rfl, h⟩
  | cons e es ih =>
    obtain ⟨hout, hstep⟩ := h.apply e i j
    obtain ⟨houts, hend⟩ := ih hstep (i + 1) (j + 1)
    refine ⟨?_, hend⟩
    simp only [Replay.pursue, houts]
    split
    · rw [hout ‹_›]
    · rfl

end Mirrored

end Replay

end PathSlice
