import PathSlice.Proofs.BacktrackRuns
import PathSlice.Proofs.FlowDrawing

/-! What a frame may speak of. A frame records flows only into versions that it created itself, and
everything else that it mentions was created by it or by a frame of its history. What was loaded from
a location on the way was put there by it or by its history, too. A store therefore finds the latest
location at every address that it resolves, and never has to make one up. -/
namespace PathSlice

namespace Frame

variable {f : Frame} {l : Location} {v : Version}

/-- What the frame last put into a location. -/
def content? (f : Frame) (l : Location) : Option Version :=
  (f.deposits.find? (·.location.id == l.id)).map (·.version)

/-- The locations that the frame put a version into, the latest first. -/
def storageOf (f : Frame) (v : Version) : List Location :=
  (f.deposits.filter (·.version.id == v.id)).map (·.location)

theorem mem_storageOf_iff :
    l ∈ f.storageOf v ↔ ∃ d ∈ f.deposits, d.version.id = v.id ∧ d.location = l := by
  simp [storageOf, and_assoc]

theorem deposit_of_content? (h : f.content? l = some v) :
    ∃ d ∈ f.deposits, d.location.id = l.id ∧ d.version = v := by
  obtain ⟨d, hd, rfl⟩ := Option.map_eq_some_iff.1 h
  have hi := List.find?_some hd
  exact ⟨d, List.mem_of_find?_eq_some hd, by simpa using hi, rfl⟩

private theorem exists_mem_storageOf_of_content? (h : f.content? l = some v) :
    ∃ m ∈ f.storageOf v, m.id = l.id := by
  obtain ⟨d, hd, hi, rfl⟩ := deposit_of_content? h
  exact ⟨d.location, mem_storageOf_iff.2 ⟨d, hd, rfl, rfl⟩, hi⟩

private theorem isSome_content?_of_mem_storageOf (h : l ∈ f.storageOf v) : (f.content? l).isSome := by
  obtain ⟨d, hd, _, rfl⟩ := mem_storageOf_iff.1 h
  simp only [content?, Option.isSome_map, List.find?_isSome]
  exact ⟨d, hd, by simp⟩

end Frame

namespace Path

variable {p : Path} {n m : Nat}

private theorem mem_frames_of_up? {k : Nat} {q : Path} (h : p.up? k = some q) : q.current ∈ p.frames := by
  have here : q.current ∈ q.frames := List.mem_cons_self
  rw [frames_of_up? h] at here
  exact List.mem_of_mem_drop here

/-- Every frame created the versions that its flows lead into, and the versions of the history are
older than `n`. -/
structure Owned (n : Nat) (p : Path) : Prop where
  targets : ∀ f ∈ p.frames, ∀ e ∈ f.flows, e.target ∈ f.versions
  older : ∀ f ∈ p.ancestors, ∀ v ∈ f.versions, v.id < n

namespace Owned

theorem root (id : Nat) : (Path.root id).Owned n where
  targets := by simp [Path.root, frames]
  older := by simp [Path.root]

theorem mono (h : p.Owned n) (hm : n ≤ m) : p.Owned m :=
  ⟨h.targets, fun f hf v hv => Nat.lt_of_lt_of_le (h.older f hf v hv) hm⟩

theorem current (h : p.Owned n) {f : Frame} (hf : ∀ e ∈ f.flows, e.target ∈ f.versions) :
    (⟨f, p.ancestors⟩ : Path).Owned n := by
  refine ⟨?_, h.older⟩
  intro g hg
  rcases List.mem_cons.1 hg with rfl | hg
  · exact hf
  · exact h.targets g (List.mem_cons_of_mem _ hg)

theorem here (h : p.Owned n) : ∀ e ∈ p.current.flows, e.target ∈ p.current.versions :=
  h.targets p.current List.mem_cons_self

/-- A version that is not older than `n` was created by the current frame. -/
private theorem mem_current (h : p.Owned n) {v : Version} (hv : v ∈ p.versions) (hn : n ≤ v.id) :
    v ∈ p.current.versions := by
  rcases List.mem_append.1 hv with hv | hv
  · exact hv
  · obtain ⟨f, hf, hv⟩ := List.mem_flatMap.1 hv
    have := h.older f hf v hv
    omega

theorem addFlow (h : p.Owned n) {source target : Version} {via : Option Location}
    (ht : target ∈ p.versions) (hn : n ≤ target.id) :
    (p.record (·.addFlow source target via)).Owned n := by
  rw [record_addFlow]
  split
  · exact h
  · apply h.current
    intro e he
    rcases List.mem_cons.1 he with rfl | he
    · exact h.mem_current ht hn
    · exact h.here e he

/-- When a frame is left, all its versions are older than what follows. -/
theorem fork (h : p.Owned n) (hn : p.Numbered n) (id : Nat) : (p.fork id).Owned n where
  targets := by
    intro f hf
    rcases List.mem_cons.1 hf with rfl | hf
    · exact fun e he => absurd he List.not_mem_nil
    · exact h.targets f hf
  older f hf v hv := hn.versions_lt v (List.mem_flatMap.2 ⟨f, hf, hv⟩)

theorem backtrack (h : p.Owned n) (id : Nat) : (⟨{ id := id }, p.ancestors⟩ : Path).Owned n :=
  h.current (by simp)

end Owned

end Path

theorem Move.owned {n : Nat} {s t : State} (h : Move n s t) (hs : s.path.Owned n) :
    t.path.Owned n := by
  cases h with
  | version => exact hs.current fun e he => List.mem_cons_of_mem _ (hs.here e he)
  | location | pointer | deposit => exact hs.current hs.here
  | element hb hx =>
    rw [Recorder.elementAt_run hx]
    exact hs.current hs.here
  | flow _ ht hn | passage _ _ ht hn => exact hs.addFlow ht hn
  | notice => exact hs
  | @slice v => exact (Recorder.sliceFrom_state v s).1.symm ▸ hs
  | sliceIdly => exact (Recorder.sliceIdly_state s).1.symm ▸ hs

theorem Moves.owned {n : Nat} {s t : State} (h : Moves n s t) (hs : s.path.Owned n) :
    t.path.Owned n := by
  induction h with
  | refl => exact hs
  | tail _ h ih => exact h.owned ih

theorem Turn.owned {e : Event} {s t : State} (h : Turn e s t) (hs : Standing s)
    (ho : s.path.Owned s.next) : t.path.Owned t.next := by
  cases h with
  | effect _ hm => exact (hm.owned ho).mono hm.grown.next
  | fork => exact (ho.fork hs.settled.numbered _).mono (Nat.le_add_right _ 2)
  | backtrack => exact (ho.backtrack _).mono (Nat.le_succ _)
  | idle => exact ho

/-- What the current frame of a path records rests on what it and its history created. Contents and
storages are two views of the deposits of a frame: `filled` holds of every frame, and `stored` of
every frame up to the identity of the location. -/
structure Path.Grounded (p : Path) : Prop where
  pointers : ∀ r ∈ p.current.pointers, r.version ∈ p.versions ∧ r.location ∈ p.locations
  contents : ∀ l v, p.current.content? l = some v →
    v ∈ p.versions ∧ ∃ m ∈ p.locations, m.id = l.id
  storages : ∀ v, ∀ l ∈ p.current.storageOf v,
    l ∈ p.locations ∧ ∃ u ∈ p.versions, u.id = v.id
  flows : ∀ e ∈ p.current.flows, e.target ∈ p.current.versions ∧ e.source ∈ p.versions ∧
    ∀ l, e.via = some l → l ∈ p.locations
  stored : ∀ l ∈ p.locations, ∀ v, p.current.content? l = some v → l ∈ p.current.storageOf v
  filled : ∀ v, ∀ l ∈ p.current.storageOf v, (p.current.content? l).isSome
  loaded : ∀ e ∈ p.current.flows, ∀ l, e.via = some l → ∃ f ∈ p.frames, l ∈ f.storageOf e.source

private theorem Settled.grounded {s : State} (h : Settled s)
    (ho : ∀ e ∈ s.path.current.flows, e.target ∈ s.path.current.versions) : s.path.Grounded := by
  have deposits : ∀ d ∈ s.path.current.deposits, d.location ∈ s.path.locations ∧
      d.version ∈ s.path.versions :=
    fun d hd => h.closed.deposits d (List.mem_append_left _ hd)
  have flows : ∀ e ∈ s.path.current.flows, e ∈ s.path.flows :=
    fun e he => List.mem_append_left _ he
  have storages : ∀ v, ∀ l ∈ s.path.current.storageOf v,
      l ∈ s.path.locations ∧ ∃ u ∈ s.path.versions, u.id = v.id := by
    intro v l hl
    obtain ⟨d, hd, hi, rfl⟩ := Frame.mem_storageOf_iff.1 hl
    exact ⟨(deposits d hd).1, d.version, (deposits d hd).2, hi⟩
  constructor
  · exact fun r hr => h.closed.pointers r (List.mem_append_left _ hr)
  · intro l v hv
    obtain ⟨d, hd, hi, rfl⟩ := Frame.deposit_of_content? hv
    exact ⟨(deposits d hd).2, d.location, (deposits d hd).1, hi⟩
  · exact storages
  · intro e he
    exact ⟨ho e he, (h.closed.flows e (flows e he)).2⟩
  · intro l hl v hv
    obtain ⟨m, hm, hi⟩ := Frame.exists_mem_storageOf_of_content? hv
    exact h.numbered.location_eq (storages v m hm).1 hl hi ▸ hm
  · exact fun v l hl => Frame.isSome_content?_of_mem_storageOf hl
  · intro e he l hl
    obtain ⟨f, hf, hd⟩ := List.mem_flatMap.1 (h.traceable.deposited e (flows e he) l hl)
    exact ⟨f, hf, Frame.mem_storageOf_iff.2 ⟨_, hd, rfl, rfl⟩⟩

/-! Stores. -/

namespace Recorder

/-- Puts a version into the latest locations at some addresses, with a given way to make up one that
there is none of. -/
def storeIntoWith (makeUp : Location → Recorder Location) (data : Version) :
    List Location → Recorder Unit
  | [] => return ()
  | target :: rest => do
    let l ← match (← get).path.latestLocation? target.site target.address with
      | some l => pure l
      | none => makeUp target
    deposit l data
    storeIntoWith makeUp data rest

/-- Where the path has the locations, none is made up. -/
private theorem storeIntoWith_eq {s : State} {ls : List Location} (makeUp : Location → Recorder Location)
    (d : Version) (x y : Term) (h : ∀ l ∈ ls, l ∈ s.path.locations) :
    storeIntoWith makeUp d ls s = storeInto d x y ls s := by
  induction ls generalizing s with
  | nil => rfl
  | cons l ls ih =>
    obtain ⟨hl, hls⟩ := List.forall_mem_cons.1 h
    rw [storeIntoWith, storeInto, run_get, run_get, Path.latestLocation?_eq_latestOf hl]
    exact ih (s := (deposit (s.path.latestOf l) d s).2) hls

end Recorder

namespace Effect

open Recorder

/-- The data given, made up if there are none. -/
def dataOr (source : Value) (term : Term) : Option Version → Recorder Version
  | some data => return data
  | none => newVersion source term

/-- What a store looks up: its data and the locations that its address resolves to. -/
def storing (instruction : Value) (term address : Term) : Effect (Version × List Location) := do
  let source ← operand instruction 0
  let target ← operand instruction 1
  let data? ← versionOf? source term
  let locations ← locationsOf target address
  return (← dataOr source term data?, locations)

private theorem store_eq (i : Value) (x y : Term) :
    store i x y = storing i x y >>= fun found => storeInto found.1 x y found.2 := by
  unfold store storing locationsOf
  simp only [bind_assoc, pure_bind]
  refine bind_congr fun source => bind_congr fun target => bind_congr fun data? => ?_
  simp only [liftM_bind, bind_assoc]
  refine bind_congr fun a? => ?_
  cases data? <;> cases a? <;> simp [dataOr]

/-- A store with another way to make up a location. -/
def storeWith (makeUp : Location → Recorder Location) (instruction : Value) (term address : Term) :
    Effect Unit := do
  let found ← storing instruction term address
  storeIntoWith makeUp found.1 found.2

end Effect

namespace Correspondence.Records

variable {C : Correspondence} {w : C.World} {s t : State} (L : C.Records)

include L

theorem locationsOf (hs : C.states w s t) (value : Value) (y : Term) :
    C.Tracks w (Effect.locationsOf value y) (Effect.locationsOf value y) s t
      fun w => List.Forall₂ (C.locations w) := by
  refine L.bind (L.versionOf? hs value y) fun w a? b? s t _ hs ha => ?_
  cases ha with
  | none => exact L.pure hs .nil
  | some ha => exact L.resolveAll hs ha

theorem dataOr (hs : C.states w s t) (source : Value) (x : Term) {a? b? : Option Version}
    (h : Option.Rel (C.versions w) a? b?) :
    C.Tracks w (Effect.dataOr source x a?) (Effect.dataOr source x b?) s t C.versions := by
  cases h with
  | some h => exact L.pure hs h
  | none => exact (L.newVersion hs source x).imp fun _ _ _ => L.target_version

theorem storing (hs : C.states w s t) (i : Value) (x y : Term) :
    C.Follows w (Effect.storing i x y) (Effect.storing i x y) s t
      fun w a b => C.versions w a.1 b.1 ∧ List.Forall₂ (C.locations w) a.2 b.2 := by
  refine L.andThen (L.operand hs i 0) fun w source source' s t hw hs he => ?_
  subst he
  refine L.andThen (L.operand hs i 1) fun w target target' s t hw hs he => ?_
  subst he
  refine L.record (L.versionOf? hs source x) fun w d? e? s t hw hs hd => ?_
  refine L.record (L.locationsOf hs target y) fun w ls ms s t hw hs hl => ?_
  have hd := rel_imp hd fun _ _ => L.version_later hw
  refine L.record (L.dataOr hs source x hd) fun w d e s t hw hs hd => ?_
  exact L.ok hs ⟨hd, hl.imp fun _ _ => L.location_later hw⟩

end Correspondence.Records

namespace Settled

variable {s t : State} {i : Value} {x y : Term} {d : Version} {ls : List Location}

/-- What the address of a store resolves to is on the path. -/
theorem mem_locations_of_storing (h : Settled s)
    (hr : (Effect.storing i x y).run s = (.ok (d, ls), t)) : ∀ l ∈ ls, l ∈ t.path.locations := by
  obtain ⟨w, _, ⟨hw, _⟩, alike⟩ := (recording_lawful s.next).storing
    (w := s) ⟨rfl, rfl, h.toRecorded, Nat.le_refl _⟩ i x y
  rw [hr] at hw alike
  subst hw
  cases alike with
  | ok found => exact fun l hl => (List.forall₂_same.1 found.2 l hl).2

/-- Whatever a store would make up, it does not come to it. -/
theorem storeWith_eq (h : Settled s) (makeUp : Location → Recorder Location) (i : Value)
    (x y : Term) : (Effect.storeWith makeUp i x y).run s = (Effect.store i x y).run s := by
  rw [Effect.store_eq]
  apply Effect.run_bind_congr
  intro found t hr
  have there := h.mem_locations_of_storing hr
  have same := Recorder.storeIntoWith_eq makeUp found.1 x y there
  exact congrArg (fun r => (Except.ok r.1, r.2)) same

/-- At every turn of the loop the location that is put into is found. -/
private theorem isSome_latestLocation?_of_storing (h : Settled s)
    (hr : (Effect.storing i x y).run s = (.ok (d, ls), t)) {before after : List Location}
    {l : Location} (hl : ls = before ++ l :: after) :
    ((Recorder.storeInto d x y before t).2.path.latestLocation? l.site l.address).isSome := by
  have there := h.mem_locations_of_storing hr
  rw [hl] at there
  rw [Recorder.storeInto_run d x y fun m hm => there m (List.mem_append_left _ hm)]
  have found := Path.latestLocation?_eq_latestOf
    (there l (List.mem_append_right _ List.mem_cons_self))
  exact Option.isSome_iff_exists.2 ⟨_, found⟩

end Settled

namespace Replay

theorem pursue_owned (program : Program) (next : Nat) (existential : Bool)
    (events : List Event) :
    let s := (pursue 0 events (start program next existential)).2.state
    s.path.Owned s.next :=
  pursue_invariant (P := fun s => s.path.Owned s.next) (fun hs ht ho => ht.owned hs ho)
    (start_standing program next existential) (.root next) 0 events

/-- After any events the records of every frame of the path are grounded in it and its history, and
a store made there finds the latest location of every location that its address resolves to, so it
makes up none. -/
theorem frames_grounded (program : Program) (next : Nat) (existential : Bool)
    (events : List Event) :
    let s := (pursue 0 events (start program next existential)).2.state
    (∀ k q, s.path.up? k = some q → q.Grounded) ∧
    ∀ i x y,
      (∀ d ls t, (Effect.storing i x y).run s = (.ok (d, ls), t) →
        ∀ before l after, ls = before ++ l :: after →
          ((Recorder.storeInto d x y before t).2.path.latestLocation? l.site l.address).isSome) ∧
      ∀ makeUp, (Effect.storeWith makeUp i x y).run s = (Effect.store i x y).run s := by
  intro s
  have standing : Standing s := pursue_standing program next existential events
  have owned : s.path.Owned s.next := pursue_owned program next existential events
  refine ⟨fun k q hq => ?_, fun i x y => ⟨?_, fun makeUp => ?_⟩⟩
  · exact (standing.at_up k q hq).grounded (owned.targets q.current (Path.mem_frames_of_up? hq))
  · exact fun d ls t hr before l after hl => standing.settled.isSome_latestLocation?_of_storing hr hl
  · exact standing.settled.storeWith_eq makeUp i x y

end Replay

end PathSlice
