import PathSlice.Proofs.PathJournals

/-! What holds of every path that was recorded, with a lemma for every kind of record that keeps it:
records speak of what the path has, identities are handed out once, every frame keeps one flow for
two versions, what was loaded from a location was put there, and the flows into a version stand in
one frame. -/
namespace PathSlice

/-- A frame keeps one flow for two versions. -/
abbrev Frame.Distinct (f : Frame) : Prop :=
  f.flows.Pairwise fun d e => d.target.id = e.target.id → d.source.id ≠ e.source.id

/-- A frame tells of the versions that its flows and deposits name. -/
inductive Frame.Tells (f : Frame) : Version → Prop
  | target {e : Flow} (he : e ∈ f.flows) : Tells f e.target
  | source {e : Flow} (he : e ∈ f.flows) : Tells f e.source
  | deposit {d : Deposit} (hd : d ∈ f.deposits) : Tells f d.version

namespace Path

variable {p : Path}

/-- Whatever the records of a path mention was created on the path. -/
structure Closed (p : Path) : Prop where
  pointers : ∀ r ∈ p.pointers, r.version ∈ p.versions ∧ r.location ∈ p.locations
  deposits : ∀ d ∈ p.deposits, d.location ∈ p.locations ∧ d.version ∈ p.versions
  flows : ∀ e ∈ p.flows, e.target ∈ p.versions ∧ e.source ∈ p.versions ∧
    ∀ l, e.via = some l → l ∈ p.locations

namespace Closed

theorem root (id : Nat) : (Path.root id).Closed := by
  constructor <;> intro _ h <;> exact absurd h List.not_mem_nil

/-- A new frame over a path records nothing yet. -/
theorem fork (h : p.Closed) (id : Nat) : (p.fork id).Closed :=
  ⟨h.pointers, h.deposits, h.flows⟩

theorem addVersion (h : p.Closed) (v : Version) : (p.record (·.addVersion v)).Closed := by
  refine ⟨fun r hr => ?_, fun d hd => ?_, fun e he => ?_⟩
  · obtain ⟨hv, hl⟩ := h.pointers r hr
    exact ⟨List.mem_cons_of_mem v hv, hl⟩
  · obtain ⟨hl, hv⟩ := h.deposits d hd
    exact ⟨hl, List.mem_cons_of_mem v hv⟩
  · obtain ⟨ht, hs, hl⟩ := h.flows e he
    exact ⟨List.mem_cons_of_mem v ht, List.mem_cons_of_mem v hs, hl⟩

theorem addLocation (h : p.Closed) (l : Location) : (p.record (·.addLocation l)).Closed := by
  refine ⟨fun r hr => ?_, fun d hd => ?_, fun e he => ?_⟩
  · obtain ⟨hv, hl⟩ := h.pointers r hr
    exact ⟨hv, List.mem_cons_of_mem l hl⟩
  · obtain ⟨hl, hv⟩ := h.deposits d hd
    exact ⟨List.mem_cons_of_mem l hl, hv⟩
  · obtain ⟨ht, hs, hl⟩ := h.flows e he
    exact ⟨ht, hs, fun m hm => List.mem_cons_of_mem l (hl m hm)⟩

theorem addPointer (h : p.Closed) {v : Version} {l : Location} (hv : v ∈ p.versions)
    (hl : l ∈ p.locations) : (p.record (·.addPointer v l)).Closed := by
  refine ⟨fun r hr => ?_, h.deposits, h.flows⟩
  rcases List.mem_cons.1 hr with rfl | hr
  · exact ⟨hv, hl⟩
  · exact h.pointers r hr

theorem addDeposit (h : p.Closed) {v : Version} {l : Location} (hl : l ∈ p.locations)
    (hv : v ∈ p.versions) : (p.record (·.addDeposit l v)).Closed := by
  refine ⟨h.pointers, fun d hd => ?_, h.flows⟩
  rcases List.mem_cons.1 hd with rfl | hd
  · exact ⟨hl, hv⟩
  · exact h.deposits d hd

theorem addFlow (h : p.Closed) {source target : Version} {via : Option Location}
    (ht : target ∈ p.versions) (hs : source ∈ p.versions)
    (hl : ∀ l, via = some l → l ∈ p.locations) :
    (p.record (·.addFlow source target via)).Closed := by
  refine ⟨?_, ?_, fun e he => ?_⟩
  · simpa using h.pointers
  · simpa using h.deposits
  · rw [versions_addFlow, locations_addFlow]
    rcases mem_flows_of_mem_addFlow he with rfl | he
    · exact ⟨ht, hs, hl⟩
    · exact h.flows e he

theorem mem_versions_of_mem_sourcesOf (h : p.Closed) {u v : Version} (hu : u ∈ p.sourcesOf v) :
    u ∈ p.versions := by
  obtain ⟨e, he, _, rfl⟩ := mem_flows_of_mem_sourcesOf hu
  exact (h.flows e he).2.1

end Closed

/-- The identities of a path are below `n` and were handed out in ascending order, one to every
version, location and frame. -/
structure Numbered (n : Nat) (p : Path) : Prop where
  versions : p.versions.Pairwise fun a b => b.id < a.id
  versions_lt : ∀ v ∈ p.versions, v.id < n
  locations : p.locations.Pairwise fun a b => b.id < a.id
  locations_lt : ∀ l ∈ p.locations, l.id < n
  frames : (p.frames.map (·.id)).Pairwise fun a b => b < a
  frames_lt : ∀ i ∈ p.frames.map (·.id), i < n

namespace Numbered

variable {n : Nat}

private theorem eq_of_descending {α : Type} {key : α → Nat} {l : List α}
    (h : l.Pairwise fun a b => key b < key a) {a b : α} (ha : a ∈ l) (hb : b ∈ l)
    (hk : key a = key b) : a = b := by
  induction l with
  | nil => exact absurd ha List.not_mem_nil
  | cons c l ih =>
    obtain ⟨hc, hl⟩ := List.pairwise_cons.1 h
    rcases List.mem_cons.1 ha with hac | ha' <;> rcases List.mem_cons.1 hb with hbc | hb'
    · rw [hac, hbc]
    · exact absurd hk (hac ▸ Nat.ne_of_gt (hc b hb'))
    · exact absurd hk (hbc ▸ Nat.ne_of_lt (hc a ha'))
    · exact ih hl ha' hb'

theorem version_eq (h : p.Numbered n) {a b : Version} (ha : a ∈ p.versions)
    (hb : b ∈ p.versions) (hi : a.id = b.id) : a = b :=
  eq_of_descending h.versions ha hb hi

theorem location_eq (h : p.Numbered n) {a b : Location} (ha : a ∈ p.locations)
    (hb : b ∈ p.locations) (hi : a.id = b.id) : a = b :=
  eq_of_descending h.locations ha hb hi

theorem root (id : Nat) : (Path.root id).Numbered (id + 1) where
  versions := .nil
  versions_lt _ hv := absurd hv List.not_mem_nil
  locations := .nil
  locations_lt _ hl := absurd hl List.not_mem_nil
  frames := List.pairwise_singleton _ _
  frames_lt i hi := by
    rw [List.mem_singleton.1 hi]
    exact Nat.lt_succ_self id

/-- A frame may skip identities. -/
theorem fork (h : p.Numbered n) {m : Nat} (hm : n ≤ m) : (p.fork m).Numbered (m + 1) where
  versions := h.versions
  versions_lt v hv := by
    have := h.versions_lt v hv
    omega
  locations := h.locations
  locations_lt l hl := by
    have := h.locations_lt l hl
    omega
  frames := List.pairwise_cons.2 ⟨fun i hi => Nat.lt_of_lt_of_le (h.frames_lt i hi) hm, h.frames⟩
  frames_lt i hi := by
    rcases List.mem_cons.1 hi with hi | hi
    · exact Nat.lt_succ_of_le (Nat.le_of_eq hi)
    · have := h.frames_lt i hi
      omega

/-- Other records number nothing. -/
theorem keep (h : p.Numbered n) {q : Path} (hv : q.versions = p.versions)
    (hl : q.locations = p.locations) (hf : q.frames.map (·.id) = p.frames.map (·.id)) :
    q.Numbered n := by
  constructor
  · rw [hv]
    exact h.versions
  · rw [hv]
    exact h.versions_lt
  · rw [hl]
    exact h.locations
  · rw [hl]
    exact h.locations_lt
  · rw [hf]
    exact h.frames
  · rw [hf]
    exact h.frames_lt

theorem addVersion (h : p.Numbered n) (value : Value) (x : Term) :
    (p.record (·.addVersion ⟨n, value, x⟩)).Numbered (n + 1) where
  versions := List.pairwise_cons.2 ⟨h.versions_lt, h.versions⟩
  versions_lt := List.forall_mem_cons.2
    ⟨Nat.lt_succ_self n, fun v hv => Nat.lt_succ_of_lt (h.versions_lt v hv)⟩
  locations := h.locations
  locations_lt l hl := Nat.lt_succ_of_lt (h.locations_lt l hl)
  frames := h.frames
  frames_lt i hi := Nat.lt_succ_of_lt (h.frames_lt i hi)

theorem addLocation (h : p.Numbered n) (site : Value) (x y : Term) :
    (p.record (·.addLocation ⟨n, site, x, y⟩)).Numbered (n + 1) where
  versions := h.versions
  versions_lt v hv := Nat.lt_succ_of_lt (h.versions_lt v hv)
  locations := List.pairwise_cons.2 ⟨h.locations_lt, h.locations⟩
  locations_lt := List.forall_mem_cons.2
    ⟨Nat.lt_succ_self n, fun l hl => Nat.lt_succ_of_lt (h.locations_lt l hl)⟩
  frames := h.frames
  frames_lt i hi := Nat.lt_succ_of_lt (h.frames_lt i hi)

theorem addFlow (h : p.Numbered n) (source target : Version) (via : Option Location) :
    (p.record (·.addFlow source target via)).Numbered n := by
  refine h.keep (by simp) (by simp) ?_
  rw [record_addFlow]
  split <;> rfl

end Numbered

/-- Every frame keeps one flow for two versions, and what flows through a location was put there. -/
structure Traceable (p : Path) : Prop where
  distinct : ∀ f ∈ p.frames, f.Distinct
  deposited : ∀ e ∈ p.flows, ∀ l, e.via = some l → ⟨l, e.source⟩ ∈ p.deposits

namespace Traceable

theorem root (id : Nat) : (Path.root id).Traceable := by
  refine ⟨fun f hf => ?_, fun e he => absurd he List.not_mem_nil⟩
  rw [List.mem_singleton.1 hf]
  exact .nil

theorem fork (h : p.Traceable) (id : Nat) : (p.fork id).Traceable :=
  ⟨List.forall_mem_cons.2 ⟨.nil, h.distinct⟩, h.deposited⟩

/-- Records other than flows keep every flow. -/
theorem keep (h : p.Traceable) {q : Path} (hf : q.current.flows = p.current.flows)
    (ha : q.ancestors = p.ancestors) (hd : ∀ d ∈ p.deposits, d ∈ q.deposits) : q.Traceable := by
  obtain ⟨f, ancestors⟩ := q
  cases ha
  obtain ⟨hcur, hanc⟩ := List.forall_mem_cons.1 h.distinct
  have hcur' : f.Distinct := by
    unfold Frame.Distinct
    rw [show f.flows = p.current.flows from hf]
    exact hcur
  refine ⟨List.forall_mem_cons.2 ⟨hcur', hanc⟩, fun e he l hl => ?_⟩
  have flows : f.flows ++ p.ancestors.flatMap (·.flows) = p.flows := congrArg (· ++ _) hf
  exact hd _ (h.deposited e (flows ▸ he) l hl)

theorem addFlow (h : p.Traceable) {source target : Version} {via : Option Location}
    (hd : ∀ l, via = some l → ⟨l, source⟩ ∈ p.deposits) :
    (p.record (·.addFlow source target via)).Traceable := by
  constructor
  · rw [record_addFlow]
    split
    · exact h.distinct
    · rename_i hf
      obtain ⟨hcur, hanc⟩ := List.forall_mem_cons.1 h.distinct
      refine List.forall_mem_cons.2 ⟨List.pairwise_cons.2 ⟨fun e he ht hs => hf ?_, hcur⟩, hanc⟩
      exact List.any_eq_true.2 ⟨e, he, by simp [← ht, ← hs]⟩
  · rw [deposits_addFlow]
    intro e he l hl
    rcases mem_flows_of_mem_addFlow he with rfl | he
    · exact hd l hl
    · exact h.deposited e he l hl

end Traceable

/-- Of two frames, the flows of the inner one lead into younger versions than the outer one tells
of. -/
abbrev Apart (fs : List Frame) : Prop :=
  fs.Pairwise fun f g => ∀ e ∈ f.flows, ∀ v, g.Tells v → v.id < e.target.id

/-- The frames are apart, and none of the history tells of versions from `n` on. -/
structure Layered (n : Nat) (p : Path) : Prop where
  apart : Apart p.frames
  settled : ∀ g ∈ p.ancestors, ∀ v, g.Tells v → v.id < n

namespace Layered

variable {n : Nat}

theorem root (id : Nat) : (Path.root id).Layered n := by
  refine ⟨List.pairwise_singleton _ _, fun g hg => ?_⟩
  exact absurd hg List.not_mem_nil

/-- The flows of the current frame may change as long as they lead into versions from `n` on. -/
private theorem of_current (h : p.Layered n) {f : Frame}
    (hf : ∀ e ∈ f.flows, e ∈ p.current.flows ∨ n ≤ e.target.id) :
    (⟨f, p.ancestors⟩ : Path).Layered n := by
  obtain ⟨hc, ha⟩ := List.pairwise_cons.1 h.apart
  refine ⟨List.pairwise_cons.2 ⟨fun g hg e he => ?_, ha⟩, h.settled⟩
  rcases hf e he with he | he
  · exact hc g hg e he
  · exact fun v hv => Nat.lt_of_lt_of_le (h.settled g hg v hv) he

theorem keep (h : p.Layered n) {q : Path} (hf : q.current.flows = p.current.flows)
    (ha : q.ancestors = p.ancestors) : q.Layered n := by
  obtain ⟨f, ancestors⟩ := q
  cases ha
  exact h.of_current fun _ he => .inl (hf ▸ he)

theorem addFlow (h : p.Layered n) {source target : Version} {via : Option Location}
    (ht : n ≤ target.id) : (p.record (·.addFlow source target via)).Layered n := by
  rw [record_addFlow]
  split
  · exact h
  · refine h.of_current fun e he => ?_
    rcases List.mem_cons.1 he with rfl | he
    · exact .inr ht
    · exact .inl he

/-- The frames of the history know of no flow into a version from `n` on. -/
theorem hasFlow_eq (h : p.Layered n) (source : Version) {target : Version} (ht : n ≤ target.id) :
    p.current.hasFlow source target =
      p.flows.any fun e => e.target.id == target.id && e.source.id == source.id := by
  have old : (p.ancestors.flatMap (·.flows)).any
      (fun e => e.target.id == target.id && e.source.id == source.id) = false := by
    refine List.any_eq_false.2 fun e he => ?_
    obtain ⟨g, hg, he⟩ := List.mem_flatMap.1 he
    have := h.settled g hg _ (.target he)
    have hne : e.target.id ≠ target.id := by omega
    simp [hne]
  unfold Frame.hasFlow flows frames
  rw [List.flatMap_cons, List.any_append, old, Bool.or_false]

private theorem sourcesOf_of_apart {fs : List Frame} (v : Version)
    (h : Apart fs) :
    fs.reverse.flatMap (·.sourcesOf v) =
      (Ascending.ofList (compareOn (·.source.id))
        ((fs.flatMap (·.flows)).filter (·.target.id == v.id))).map (·.source) := by
  induction fs with
  | nil => rfl
  | cons f fs ih =>
    obtain ⟨hf, hfs⟩ := List.pairwise_cons.1 h
    simp only [List.reverse_cons, List.flatMap_append, ih hfs, List.flatMap_cons, List.flatMap_nil,
      List.append_nil, List.filter_append]
    by_cases hv : ∃ e ∈ f.flows, e.target.id = v.id
    · -- The flows into `v` stand in this frame, and so in no outer one.
      obtain ⟨e, he, hv⟩ := hv
      have old : (fs.flatMap (·.flows)).filter (·.target.id == v.id) = [] := by
        refine List.filter_eq_nil_iff.2 fun d hd => ?_
        obtain ⟨g, hg, hd⟩ := List.mem_flatMap.1 hd
        have := hf g hg e he _ (.target hd)
        have hne : d.target.id ≠ v.id := by omega
        simpa using hne
      rw [old, List.append_nil]
      rfl
    · have new : f.flows.filter (·.target.id == v.id) = [] :=
        List.filter_eq_nil_iff.2 fun e he hv' => hv ⟨e, he, by simpa using hv'⟩
      have none : f.sourcesOf v = [] := by
        unfold Frame.sourcesOf Frame.flowsInto
        rw [new]
        rfl
      rw [new, none, List.append_nil, List.nil_append]

/-- The flows into a version stand in one frame, so the order of the frames does not show in its
sources. -/
theorem sourcesOf_eq (h : p.Layered n) (v : Version) :
    p.sourcesOf v =
      (Ascending.ofList (compareOn (·.source.id))
        (p.flows.filter (·.target.id == v.id))).map (·.source) :=
  sourcesOf_of_apart v h.apart

end Layered

end Path

end PathSlice
