import PathSlice.Proofs.BacktrackRuns
import PathSlice.Proofs.SliceMarks

/-! The locations that are core to the frames of a path, and those that the path has. They part when
a frame is given up whose locations are core to an ancestor, and only then. -/
namespace PathSlice

namespace Path

variable {ls : List Location}

/-- Locations with one identity are one location. -/
def Identified (ls : List Location) : Prop :=
  ∀ l ∈ ls, ∀ m ∈ ls, l.id = m.id → l = m

/-- Locations are kept like new sinks of a graph. -/
private theorem distinct_eq (ls : List Location) : distinct ls = ls.foldl Support.Graph.promote [] :=
  rfl

private theorem mem_of_mem_distinct {l : Location} (h : l ∈ distinct ls) : l ∈ ls := by
  rw [distinct_eq] at h
  exact (Support.Graph.mem_of_mem_foldl_promote h).resolve_left List.not_mem_nil

private theorem mem_distinct_iff (h : Identified ls) {l : Location} : l ∈ distinct ls ↔ l ∈ ls := by
  refine ⟨mem_of_mem_distinct, fun hl => ?_⟩
  obtain ⟨m, hm, hi⟩ := (Support.Graph.among_foldl_promote ls []).2 (.inr ⟨l, hl, rfl⟩)
  exact h m (mem_of_mem_distinct hm) l hl hi ▸ hm

private theorem Numbered.identified {n : Nat} {p : Path} (h : p.Numbered n) : Identified p.locations :=
  fun _ hl _ hm => h.location_eq hl hm

private theorem mem_reverse_locations {p : Path} {l : Location} :
    l ∈ p.frames.reverse.flatMap (·.locations.reverse) ↔ l ∈ p.locations := by
  simp [locations]

theorem Numbered.mem_allLocations {n : Nat} {p : Path} (h : p.Numbered n) {l : Location} :
    l ∈ p.allLocations ↔ l ∈ p.locations := by
  refine (mem_distinct_iff fun a ha b hb => ?_).trans mem_reverse_locations
  exact h.identified a (mem_reverse_locations.1 ha) b (mem_reverse_locations.1 hb)

end Path

/-- What is marked as core to frames was created before, and is known by its identity, also among
the locations of the path. -/
structure Cored (s : State) : Prop where
  frames_lt : ∀ x ∈ s.marks.frames, x.1 < s.next
  locations_lt : ∀ x ∈ s.marks.frames, x.2.id < s.next
  one : ∀ x ∈ s.marks.frames, ∀ y ∈ s.marks.frames, x.2.id = y.2.id → x.2 = y.2
  known : ∀ x ∈ s.marks.frames, ∀ l ∈ s.path.locations, x.2.id = l.id → x.2 = l

namespace Cored

variable {s : State}

theorem mem_ofFrame (h : Cored s) {i : Nat} {l : Location} :
    l ∈ s.marks.ofFrame i ↔ (i, l) ∈ s.marks.frames := by
  have mem {m : Location} :
      m ∈ (s.marks.frames.filter (·.1 == i)).map (·.2) ↔ (i, m) ∈ s.marks.frames := by
    simp
  constructor
  · exact fun hl => mem.1 (Ascending.mem_of_mem_ofList hl)
  · intro hl
    obtain ⟨m, hm, hi⟩ := Ascending.exists_key_ofList_iff.2 ⟨l, mem.2 hl, rfl⟩
    have same : m = l := h.one (i, m) (mem.1 (Ascending.mem_of_mem_ofList hm)) (i, l) hl hi
    exact same ▸ hm

theorem mem_coreLocations (h : Cored s) {l : Location} :
    l ∈ s.path.coreLocations s.marks ↔ ∃ f ∈ s.path.frames, (f.id, l) ∈ s.marks.frames := by
  have mem {m : Location} : m ∈ (s.path.frames.reverse.flatMap fun f => s.marks.ofFrame f.id) ↔
      ∃ f ∈ s.path.frames, (f.id, m) ∈ s.marks.frames := by
    simp [h.mem_ofFrame]
  refine (Path.mem_distinct_iff fun a ha b hb hi => ?_).trans mem
  obtain ⟨f, _, hf⟩ := mem.1 ha
  obtain ⟨g, _, hg⟩ := mem.1 hb
  exact h.one _ hf _ hg hi

end Cored

/-- What an effect can do to the core locations of frames. -/
structure Coring (s t : State) : Prop where
  kept : s.marks.frames ⊆ t.marks.frames
  added : ∀ x ∈ t.marks.frames, x ∈ s.marks.frames ∨
    x.1 ∈ t.path.frames.map (·.id) ∧ x.2 ∈ t.path.locations
  created : ∀ l ∈ t.path.locations, l ∈ s.path.locations ∨ s.next ≤ l.id
  frames : t.path.frames.map (·.id) = s.path.frames.map (·.id)

namespace Coring

variable {n : Nat} {s t u : State}

theorem trans (h : Coring s t) (h' : Coring t u) (hs : Grown s t) (ht : Grown t u) :
    Coring s u where
  kept := List.Subset.trans h.kept h'.kept
  added x hx := by
    rcases h'.added x hx with hx | hx
    · refine (h.added x hx).imp_right fun ⟨hi, hl⟩ => ⟨?_, ht.locations _ hl⟩
      exact h'.frames ▸ hi
    · exact .inr hx
  created l hl := by
    rcases h'.created l hl with hl | hl
    · exact h.created l hl
    · exact .inr (Nat.le_trans hs.next hl)
  frames := h'.frames.trans h.frames

/-- Nothing is marked while the path grows. -/
theorem of_marks_eq (hm : t.marks.frames = s.marks.frames)
    (hl : ∀ l ∈ t.path.locations, l ∈ s.path.locations ∨ s.next ≤ l.id)
    (hf : t.path.frames.map (·.id) = s.path.frames.map (·.id)) : Coring s t where
  kept := hm ▸ List.Subset.refl _
  added _ hx := .inl (hm ▸ hx)
  created := hl
  frames := hf

/-- Nothing is recorded while locations of the path are marked. -/
theorem of_path_eq (hp : t.path = s.path) (hk : s.marks.frames ⊆ t.marks.frames)
    (ha : ∀ x ∈ t.marks.frames, x ∈ s.marks.frames ∨
      x.1 ∈ s.path.frames.map (·.id) ∧ x.2 ∈ s.path.locations) : Coring s t where
  kept := hk
  added := hp ▸ ha
  created _ hl := .inl (hp ▸ hl)
  frames := by rw [hp]

end Coring

theorem Move.coring {n : Nat} {s t : State} (h : Move n s t) (hr : Recorded s)
    (ha : Path.Apart s.path.frames) : Coring s t := by
  have same : ∀ l ∈ s.path.locations, l ∈ s.path.locations ∨ s.next ≤ l.id := fun _ => .inl
  have new : ∀ m : Location, m.id = s.next →
      ∀ l ∈ m :: s.path.locations, l ∈ s.path.locations ∨ s.next ≤ l.id := by
    rintro m hm l hl
    rcases List.mem_cons.1 hl with rfl | hl
    · exact .inr (Nat.le_of_eq hm.symm)
    · exact .inl hl
  cases h with
  | version | pointer | deposit | notice => exact .of_marks_eq rfl same rfl
  | location site x => exact .of_marks_eq rfl (new _ rfl) rfl
  | element hb hx =>
    rw [Recorder.elementAt_run hx]
    refine .of_marks_eq ?_ (new _ rfl) rfl
    dsimp only
    split <;> rfl
  | @flow source target | @passage source target l =>
    refine .of_marks_eq rfl (fun l hl => .inl ?_) ?_
    · exact (Path.locations_addFlow s.path _ _ _) ▸ hl
    · change (s.path.record _).frames.map _ = _
      rw [Path.record_addFlow]
      split <;> rfl
  | @slice v hv =>
    have marked := Recorder.mem_frames_sliceFrom hr ha v
    refine .of_path_eq (Recorder.sliceFrom_state v s).1 (fun x hx => (marked x).2 (.inl hx)) ?_
    intro x hx
    rcases (marked x).1 hx with hx | ⟨inner, f, outer, hf, hi, hl, _⟩
    · exact .inl hx
    · exact .inr ⟨List.mem_map.2 ⟨f, by simp [hf], hi.symm⟩, hl⟩
  | sliceIdly =>
    have marked := Recorder.mem_frames_sliceIdly s
    exact .of_path_eq (Recorder.sliceIdly_state s).1 (fun x hx => (marked x).2 hx)
      fun x hx => .inl ((marked x).1 hx)

theorem Moves.coring {n : Nat} {s t : State} (h : Moves n s t) (hr : Recorded s)
    (hl : s.path.Layered n) : Coring s t := by
  induction h with
  | refl => exact .of_marks_eq rfl (fun _ => .inl) rfl
  | tail h hm ih =>
    have h : Moves n s _ := h
    exact ih.trans (hm.coring (h.recorded hr) (h.layered hl).apart) h.grown hm.grown

theorem Cored.moves {n : Nat} {s t : State} (h : Cored s) (hr : Recorded s)
    (hl : s.path.Layered n) (hm : Moves n s t) : Cored t := by
  have hc := hm.coring hr hl
  have numbered := (hm.recorded hr).numbered
  have next := hm.grown.next
  -- Of two locations with one identity, one marked before and one on the path, neither is new.
  have old : ∀ x ∈ s.marks.frames, ∀ l ∈ t.path.locations, x.2.id = l.id → x.2 = l := by
    intro x hx l hl hi
    rcases hc.created l hl with hl | hl
    · exact h.known x hx l hl hi
    · have := h.locations_lt x hx
      omega
  have known : ∀ x ∈ t.marks.frames, ∀ l ∈ t.path.locations, x.2.id = l.id → x.2 = l := by
    intro x hx l hl hi
    rcases hc.added x hx with hx | ⟨_, hx⟩
    · exact old x hx l hl hi
    · exact numbered.location_eq hx hl hi
  refine ⟨fun x hx => ?_, fun x hx => ?_, fun x hx y hy hi => ?_, known⟩
  · rcases hc.added x hx with hx | ⟨hx, _⟩
    · exact Nat.lt_of_lt_of_le (h.frames_lt x hx) next
    · exact numbered.frames_lt _ hx
  · rcases hc.added x hx with hx | ⟨_, hx⟩
    · exact Nat.lt_of_lt_of_le (h.locations_lt x hx) next
    · exact numbered.locations_lt _ hx
  · rcases hc.added y hy with hy | ⟨_, hy⟩
    · rcases hc.added x hx with hx | ⟨_, hx⟩
      · exact h.one x hx y hy hi
      · exact (old y hy _ hx hi.symm).symm
    · exact known x hx _ hy hi

theorem Cored.turn {e : Event} {s t : State} (h : Cored s) (hs : Standing s) (ht : Turn e s t) :
    Cored t := by
  cases ht with
  | effect he hm => exact h.moves hs.settled.toRecorded hs.settled.layered hm
  | fork =>
    exact ⟨fun x hx => Nat.lt_add_right 2 (h.frames_lt x hx),
      fun x hx => Nat.lt_add_right 2 (h.locations_lt x hx), h.one, h.known⟩
  | backtrack =>
    exact ⟨fun x hx => Nat.lt_succ_of_lt (h.frames_lt x hx),
      fun x hx => Nat.lt_succ_of_lt (h.locations_lt x hx), h.one,
      fun x hx l hl => h.known x hx l (List.mem_append_right _ hl)⟩
  | idle => exact h

/-- What is core to a frame of the path is on the path. -/
def Held (s : State) : Prop :=
  ∀ x ∈ s.marks.frames, x.1 ∈ s.path.frames.map (·.id) → x.2 ∈ s.path.locations

/-- What is core to some ancestor is not on the path. -/
def Lost (s : State) : Prop :=
  ∃ x ∈ s.marks.frames, x.1 ∈ s.path.ancestors.map (·.id) ∧ x.2 ∉ s.path.locations

/-- No location of the current frame is core to an ancestor. -/
def Spared (s : State) : Prop :=
  ∀ f ∈ s.path.ancestors, ∀ l ∈ s.path.current.locations, l ∉ s.marks.ofFrame f.id

private theorem Cored.held_iff {s : State} (h : Cored s) (hs : Standing s) :
    Held s ↔ ∀ l ∈ s.path.coreLocations s.marks, l ∈ s.path.allLocations := by
  constructor
  · intro hh l hl
    obtain ⟨f, hf, hl⟩ := h.mem_coreLocations.1 hl
    exact hs.settled.numbered.mem_allLocations.2 (hh _ hl (List.mem_map_of_mem hf))
  · rintro hh ⟨i, l⟩ hx hi
    obtain ⟨f, hf, rfl⟩ := List.mem_map.1 hi
    have core := h.mem_coreLocations.2 ⟨f, hf, hx⟩
    exact hs.settled.numbered.mem_allLocations.1 (hh _ core)

section Turns

variable {e : Event} {s t : State}

theorem Held.turn (h : Held s) (hc : Cored s) (hs : Standing s) (ht : Turn e s t)
    (hb : e = .backtrack → Spared s) : Held t := by
  cases ht with
  | effect he hm =>
    have coring := hm.coring hs.settled.toRecorded hs.settled.layered
    intro x hx hi
    rcases coring.added x hx with hx | hx
    · exact hm.grown.locations _ (h x hx (coring.frames ▸ hi))
    · exact hx.2
  | fork =>
    intro x hx hi
    rcases List.mem_cons.1 hi with hi | hi
    · have hi : x.1 = s.next + 1 := hi
      have := hc.frames_lt x hx
      omega
    · exact h x hx hi
  | backtrack ha =>
    intro x hx hi
    rcases List.mem_cons.1 hi with hi | hi
    · have hi : x.1 = s.next := hi
      have := hc.frames_lt x hx
      omega
    · rcases List.mem_append.1 (h x hx (List.mem_cons_of_mem _ hi)) with hl | hl
      · obtain ⟨f, hf, hi⟩ := List.mem_map.1 hi
        exact absurd (hc.mem_ofFrame.2 (hi ▸ hx)) (hb rfl f hf _ hl)
      · exact hl
  | idle => exact h

/-- What was given up does not come back: new locations have new identities. -/
theorem Lost.turn (h : Lost s) (hc : Cored s) (hs : Standing s) (ht : Turn e s t) : Lost t := by
  obtain ⟨x, hx, hi, hl⟩ := h
  cases ht with
  | effect he hm =>
    have coring := hm.coring hs.settled.toRecorded hs.settled.layered
    refine ⟨x, coring.kept hx, ?_, fun hl' => ?_⟩
    · rw [hm.grown.ancestors]
      exact hi
    · rcases coring.created _ hl' with hl' | hl'
      · exact hl hl'
      · have := hc.locations_lt x hx
        omega
  | fork => exact ⟨x, hx, List.mem_cons_of_mem _ hi, hl⟩
  | backtrack => exact ⟨x, hx, hi, fun hl' => hl (List.mem_append_right _ hl')⟩
  | idle => exact ⟨x, hx, hi, hl⟩

/-- Giving up a frame whose locations are core to an ancestor loses them. -/
private theorem lost_of_not_spared (h : ¬Spared s) (hc : Cored s) (hs : Standing s)
    (ht : Turn .backtrack s t) : Lost t := by
  unfold Spared at h
  push Not at h
  obtain ⟨f, hf, l, hl, hcore⟩ := h
  cases ht with
  | effect he => cases he
  | backtrack =>
    refine ⟨(f.id, l), hc.mem_ofFrame.1 hcore, List.mem_map_of_mem hf, fun hl' => ?_⟩
    have descending := (List.pairwise_append.1 hs.settled.numbered.locations).2.2
    exact Nat.lt_irrefl _ (descending l hl l hl')
  | idle he hf' hb =>
    rw [hb rfl] at hf
    exact absurd hf List.not_mem_nil

private theorem Lost.not_held (h : Lost s) : ¬Held s := by
  obtain ⟨x, hx, hi, hl⟩ := h
  exact fun hh => hl (hh x hx (List.mem_cons_of_mem _ hi))

end Turns

/-- A frame has one place on a path. -/
private theorem Path.Numbered.frames_eq {n : Nat} {p : Path} (h : p.Numbered n)
    {inner inner' outer outer' : List Frame} {f f' : Frame} (hf : p.frames = inner ++ f :: outer)
    (hf' : p.frames = inner' ++ f' :: outer') (hi : f.id = f'.id) : inner = inner' := by
  have ids := h.frames
  simp only [hf, List.map_append, List.map_cons, List.pairwise_append, List.pairwise_cons] at ids
  obtain ⟨_, ⟨below, _⟩, above⟩ := ids
  have notin_inner : f' ∉ inner := by
    intro hm
    have := above f'.id (List.mem_map_of_mem hm) f.id List.mem_cons_self
    omega
  have notin_outer : f' ∉ outer := by
    intro hm
    have := below f'.id (List.mem_map_of_mem hm)
    omega
  exact ((List.append_cons_inj_of_notMem notin_inner notin_outer).1 (hf.symm.trans hf')).1

/-- What a slice makes core to a frame. -/
private theorem Cored.mem_ofFrame_slice {s : State} (h : Cored s) (hs : Settled s) {value : Value}
    {v : Version} (hv : s.path.latest? value = some v) {inner outer : List Frame} {f : Frame}
    (hf : s.path.frames = inner ++ f :: outer) (l : Location) :
    l ∈ ((Effect.slice value).run s).2.marks.ofFrame f.id ↔
      l ∈ s.marks.ofFrame f.id ∨
        l ∈ s.path.locations ∧ (s.path.addSupport {} v).graph.Surfaces inner l.id := by
  have hm : Move s.next s (Recorder.sliceFrom v s).2 := .slice (Path.mem_versions_of_latest? hv)
  have hc := h.moves hs.toRecorded hs.layered (.single hm)
  rw [Correspondence.Lawful.slice_eq_sliceFrom hv]
  dsimp only
  rw [hc.mem_ofFrame, h.mem_ofFrame,
    Recorder.mem_frames_sliceFrom hs.toRecorded hs.layered.apart]
  refine or_congr_right ⟨?_, fun hl => ⟨inner, f, outer, hf, rfl, hl⟩⟩
  rintro ⟨inner', f', outer', hf', hi, hl⟩
  rwa [hs.numbered.frames_eq hf hf' hi]

namespace Replay

variable {r : Replay}

private theorem pursue_lost (h : Lost r.state) (hc : Cored r.state) (hs : Standing r.state) (index : Nat)
    (events : List Event) : Lost (pursue index events r).2.state :=
  (pursue_invariant (P := fun s => Cored s ∧ Lost s)
    (fun hs ht h => ⟨h.1.turn hs ht, h.2.turn h.1 hs ht⟩) hs ⟨hc, h⟩ index events).2

theorem pursue_cored (hc : Cored r.state) (hs : Standing r.state) (index : Nat)
    (events : List Event) : Cored (pursue index events r).2.state :=
  pursue_invariant (fun hs ht hc => hc.turn hs ht) hs hc index events

private theorem pursue_held_iff (h : Held r.state) (hc : Cored r.state) (hs : Standing r.state)
    (index : Nat) (events : List Event) :
    Held (pursue index events r).2.state ↔ ∀ k, events[k]? = some .backtrack →
      Spared (pursue index (events.take k) r).2.state := by
  induction events generalizing r index with
  | nil => exact iff_of_true h (by simp)
  | cons e es ih =>
    obtain ⟨_, ht⟩ := apply_turn hs.settled e index
    by_cases hb : e = .backtrack → Spared r.state
    · refine (ih (h.turn hc hs ht hb) (hc.turn hs ht) (hs.turn ht) (index + 1)).trans ?_
      constructor
      · intro hall k hk
        cases k with
        | zero => exact hb (Option.some.inj hk)
        | succ k => exact hall k hk
      · exact fun hall k hk => hall (k + 1) hk
    · obtain ⟨rfl, hspared⟩ := not_forall.1 hb
      have lost := lost_of_not_spared hspared hc hs ht
      have lost' := pursue_lost lost (hc.turn hs ht) (hs.turn ht) (index + 1) es
      exact iff_of_false lost'.not_held fun hall => hspared (hall 0 rfl)

theorem start_cored (program : Program) (next : Nat) (existential : Bool) :
    Cored (start program next existential).state := by
  constructor <;> intro x hx <;> exact absurd hx List.not_mem_nil

/-- After any events, whatever is core to the frames of the path is on the path if and only if no
frame was ever given up while a location of it was core to one of its ancestors. And this is how a
location comes to be core to a frame: a slice makes exactly those core to it that surface when the
frames further in have consumed their own locations, one after the other. -/
theorem coreLocations_subset_iff (program : Program) (next : Nat) (existential : Bool)
    (events : List Event) :
    let state k := (pursue 0 (events.take k) (start program next existential)).2.state
    let s := (pursue 0 events (start program next existential)).2.state
    ((∀ l ∈ s.path.coreLocations s.marks, l ∈ s.path.allLocations) ↔
      ∀ k, events[k]? = some .backtrack → Spared (state k)) ∧
    ∀ value v, s.path.latest? value = some v →
      ∀ inner f outer, s.path.frames = inner ++ f :: outer →
        ∀ l, l ∈ ((Effect.slice value).run s).2.marks.ofFrame f.id ↔
          l ∈ s.marks.ofFrame f.id ∨
            l ∈ s.path.locations ∧ (s.path.addSupport {} v).graph.Surfaces inner l.id := by
  have standing := start_standing program next existential
  have cored := start_cored program next existential
  have held : Held (start program next existential).state :=
    fun x hx => absurd hx List.not_mem_nil
  have hs := pursue_standing program next existential events
  have hc := pursue_cored cored standing 0 events
  refine ⟨(hc.held_iff hs).symm.trans (pursue_held_iff held cored standing 0 events), ?_⟩
  intro value v hv inner f outer hf l
  exact hc.mem_ofFrame_slice hs.settled hv hf l

/-- What is loaded from `q` is stored into `p`, which an outer frame has allocated, and loaded from
there. -/
def surfacedProgram : Program :=
  ((Program.ofDeclarations 1 [
    ⟨"k", .constant, .integer 32⟩,
    ⟨"p", .instruction .alloca "main" [], .pointer⟩,
    ⟨"q", .instruction .alloca "main" [], .pointer⟩,
    ⟨"x", .instruction .add "main" ["k", "k"], .integer 32⟩,
    ⟨"sq", .instruction .store "main" ["x", "q"], .void⟩,
    ⟨"a", .instruction .load "main" ["q"], .integer 32⟩,
    ⟨"sp", .instruction .store "main" ["a", "p"], .void⟩,
    ⟨"b", .instruction .load "main" ["p"], .integer 32⟩,
    ⟨"br", .instruction .br "main" ["b"], .void⟩]).toOption).getD []

def surfaced : List Event :=
  [.fork,
    .execute "p" [.pointer 16] false,
    .fork,
    .execute "q" [.pointer 32] false,
    .execute "x" [.ofBits 2 32, .ofBits 1 32, .ofBits 1 32] false,
    .execute "sq" [.ofBits 2 32, .pointer 32] false,
    .execute "a" [.ofBits 2 32, .pointer 32] false,
    .execute "sp" [.ofBits 2 32, .pointer 16] false,
    .execute "b" [.ofBits 2 32, .pointer 16] false,
    .execute "br" [] false,
    .backtrack]

/-- The state before the branch. -/
def surfacedState : State :=
  (pursue 0 (surfaced.take 9) (start surfacedProgram 10 false)).2.state

/-- The branch slices its condition. -/
private theorem surfaced_slice :
    ∃ b, surfacedProgram.find? "b" = some b ∧
      (pursue 0 (surfaced.take 10) (start surfacedProgram 10 false)).2.state =
        ((Effect.slice b).run surfacedState).2 := by
  obtain ⟨b, br, hb, hbr, hk⟩ : ∃ b br, surfacedProgram.find? "b" = some b ∧
      surfacedProgram.resolve "br" = .ok br ∧ br.kind = .instruction .br "main" [b] :=
    ⟨_, _, rfl, rfl, rfl⟩
  have hp := (pursue_program_standing (start_standing surfacedProgram 10 false) 0
    (surfaced.take 9)).1
  refine ⟨b, hb, ?_⟩
  rw [show surfaced.take 10 = surfaced.take 9 ++ [.execute "br" [] false] from rfl, pursue_append]
  exact apply_branch (hp ▸ hbr) hk _ false

/-- The location of `q` surfaces behind that of `p` when both frames have consumed theirs. -/
private theorem surfaced_behind {v : Version}
    (sinks : (surfacedState.path.addSupport {} v).graph.sinks.map (·.id) = [14])
    (edges : (surfacedState.path.addSupport {} v).graph.edges.map
      (fun e => (e.child.id, e.parent.id)) = [(14, 18)]) {f g : Frame}
    (hf : f.locations.map (·.id) = [18]) (hg : g.locations.map (·.id) = [14]) :
    (surfacedState.path.addSupport {} v).graph.Surfaces ([] ++ [f] ++ [g]) 18 := by
  have among {h : Frame} {i j : Nat} (hh : h.locations.map (·.id) = [j]) :
      Support.Graph.Among h.locations i ↔ i = j := by
    rw [← List.mem_singleton, ← hh, List.mem_map]
    rfl
  have sink : (surfacedState.path.addSupport {} v).graph.SinkAt 14 :=
    List.mem_map.1 (sinks ▸ List.mem_singleton_self 14)
  have edge : (surfacedState.path.addSupport {} v).graph.EdgeAt 14 18 := by
    obtain ⟨e, he, hi⟩ := List.mem_map.1 (edges ▸ List.mem_singleton_self (14, 18))
    exact ⟨e, he, (Prod.mk.inj hi).1, (Prod.mk.inj hi).2⟩
  have child : (surfacedState.path.addSupport {} v).graph.Surfaces ([] ++ [f]) 14 :=
    .pass (.sink sink) .refl (mt (among hf).1 (by decide))
  exact .pass child (.step .refl ((among hg).2 rfl) edge) (mt (among hg).1 (by decide))

/-- The location of `q` is core to the root frame when its own frame is given up. -/
theorem coreLocations_subset_iff_surfaced :
    let s := (pursue 0 surfaced (start surfacedProgram 10 false)).2.state
    ∃ l ∈ s.path.coreLocations s.marks, l ∉ s.path.allLocations := by
  intro s
  by_contra h
  push Not at h
  have spared := (coreLocations_subset_iff surfacedProgram 10 false surfaced).1.1 h 10 rfl
  obtain ⟨b, hb, hslice⟩ := surfaced_slice
  have latest : (surfacedProgram.find? "b").bind (fun b => (surfacedState.path.latest? b).map fun v =>
      let g := (surfacedState.path.addSupport {} v).graph
      (g.sinks.map (·.id), g.edges.map fun e => (e.child.id, e.parent.id))) =
        some ([14], [(14, 18)]) := by
    decide +kernel
  rw [hb] at latest
  obtain ⟨v, hv, graph⟩ := Option.map_eq_some_iff.1 latest
  obtain ⟨sinks, edges⟩ := Prod.mk.inj graph
  have hframes : surfacedState.path.frames.map (·.locations.map (·.id)) = [[18], [14], []] := by
    decide +kernel
  obtain ⟨f, _, hf, hlf, hrest⟩ := List.map_eq_cons_iff.1 hframes
  obtain ⟨g, _, rfl, hlg, hrest⟩ := List.map_eq_cons_iff.1 hrest
  obtain ⟨root, rfl, _⟩ := List.map_eq_singleton_iff.1 hrest
  obtain ⟨l, hl, hli⟩ := List.map_eq_singleton_iff.1 hlf
  have current : surfacedState.path.current = f := (List.cons.inj hf).1
  have ancestors : surfacedState.path.ancestors = [g, root] := (List.cons.inj hf).2
  have place : surfacedState.path.frames = [] ++ [f] ++ [g] ++ root :: [] := hf
  have here : l ∈ surfacedState.path.locations := by simp [Path.locations, hf, hl]
  have core := ((coreLocations_subset_iff surfacedProgram 10 false (surfaced.take 9)).2 b v hv
    _ root [] place l).2 (.inr ⟨here, hli ▸ surfaced_behind sinks edges hlf hlg⟩)
  have kept := Recorder.sliceFrom_state v surfacedState
  simp only [hslice] at spared
  refine spared root ?_ l ?_ core
  · rw [Correspondence.Lawful.slice_eq_sliceFrom hv, kept.1, ancestors]
    simp
  · rw [Correspondence.Lawful.slice_eq_sliceFrom hv, kept.1, current, hl]
    exact List.mem_singleton_self l

end Replay

end PathSlice
