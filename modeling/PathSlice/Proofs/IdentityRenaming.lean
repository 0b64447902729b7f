import Mathlib.Order.Monotone.Basic
import PathSlice.Proofs.RecordingMoves

/-! Identities do not matter beyond their order. If what one path recorded is what another recorded
with its identities renamed in an order-preserving way, then lookups in the two give the same up to
the renaming, however the records are spread over frames; and the same effect keeps it so. -/
namespace PathSlice

def Version.rename (ρ : Nat → Nat) (v : Version) : Version :=
  { v with id := ρ v.id }

def Location.rename (ρ : Nat → Nat) (l : Location) : Location :=
  { l with id := ρ l.id }

def Pointer.rename (ρ : Nat → Nat) (r : Pointer) : Pointer :=
  ⟨r.version.rename ρ, r.location.rename ρ⟩

def Deposit.rename (ρ : Nat → Nat) (d : Deposit) : Deposit :=
  ⟨d.location.rename ρ, d.version.rename ρ⟩

def Flow.rename (ρ : Nat → Nat) (e : Flow) : Flow :=
  ⟨e.target.rename ρ, e.source.rename ρ, e.via.map (·.rename ρ)⟩

def Frame.rename (ρ : Nat → Nat) (f : Frame) : Frame where
  id := ρ f.id
  versions := f.versions.map (·.rename ρ)
  locations := f.locations.map (·.rename ρ)
  pointers := f.pointers.map (·.rename ρ)
  deposits := f.deposits.map (·.rename ρ)
  flows := f.flows.map (·.rename ρ)

namespace Path

def rename (ρ : Nat → Nat) (p : Path) : Path :=
  ⟨p.current.rename ρ, p.ancestors.map (·.rename ρ)⟩

/-- The second path recorded what the first did, with identities renamed. -/
structure Renames (ρ : Nat → Nat) (p q : Path) : Prop where
  versions : q.versions = p.versions.map (·.rename ρ)
  locations : q.locations = p.locations.map (·.rename ρ)
  pointers : q.pointers = p.pointers.map (·.rename ρ)
  deposits : q.deposits = p.deposits.map (·.rename ρ)
  flows : q.flows = p.flows.map (·.rename ρ)

namespace Renames

variable {ρ : Nat → Nat} {p q : Path}

theorem latest? (h : Renames ρ p q) (v : Value) :
    q.latest? v = (p.latest? v).map (·.rename ρ) := by
  unfold Path.latest?
  rw [h.versions, List.find?_map]
  rfl

theorem latestLocation? (h : Renames ρ p q) (site : Value) (x : Term) :
    q.latestLocation? site x = (p.latestLocation? site x).map (·.rename ρ) := by
  unfold Path.latestLocation?
  rw [h.locations, List.find?_map]
  rfl

variable (hρ : StrictMono ρ)

include hρ

theorem beq_rename (i j : Nat) : (ρ i == ρ j) = (i == j) := by
  simp [hρ.injective.eq_iff]

theorem compare_rename (i j : Nat) : compare (ρ i) (ρ j) = compare i j := by
  rw [← cmp_eq_compare, ← cmp_eq_compare, hρ.cmp_map_eq]

theorem pointee? (h : Renames ρ p q) (v : Version) :
    q.pointee? (v.rename ρ) = (p.pointee? v).map (·.rename ρ) := by
  unfold Path.pointee?
  rw [h.pointers, List.find?_map, Option.map_map, Option.map_map]
  simp only [Function.comp_def, Pointer.rename, Version.rename, beq_rename hρ]

theorem content? (h : Renames ρ p q) (l : Location) :
    q.content? (l.rename ρ) = (p.content? l).map (·.rename ρ) := by
  unfold Path.content?
  rw [h.deposits, List.find?_map, Option.map_map, Option.map_map]
  simp only [Function.comp_def, Deposit.rename, Location.rename, beq_rename hρ]

variable {n m : Nat}

theorem sourcesOf (h : Renames ρ p q) (hp : p.Layered n) (hq : q.Layered m) (v : Version) :
    q.sourcesOf (v.rename ρ) = (p.sourcesOf v).map (·.rename ρ) := by
  have order : ∀ d e : Flow, compareOn (·.source.id) (d.rename ρ) (e.rename ρ) =
      compareOn (·.source.id) d e := fun d e => compare_rename hρ d.source.id e.source.id
  rw [hp.sourcesOf_eq, hq.sourcesOf_eq, h.flows, List.filter_map, Ascending.ofList_map order,
    List.map_map, List.map_map]
  simp only [Function.comp_def, Flow.rename, Version.rename, beq_rename hρ]

/-- The closure is renamed where direct sources are. -/
theorem closure_of_sourcesOf (h : Renames ρ p q)
    (hs : ∀ v, q.sourcesOf (v.rename ρ) = (p.sourcesOf v).map (·.rename ρ)) (v : Version) :
    q.closure (v.rename ρ) = (p.closure v).map (·.rename ρ) := by
  have order : ∀ a b : Version, (a.rename ρ).compare (b.rename ρ) = a.compare b :=
    fun a b => compare_rename hρ a.id b.id
  have ids : (v.rename ρ).id :: q.sourceIds = (v.id :: p.sourceIds).map ρ := by
    unfold Path.sourceIds
    rw [h.flows, List.map_map, List.map_cons, List.map_map]
    rfl
  unfold Path.closure
  rw [ids]
  refine Agenda.run_map (g := Version.rename ρ) (h := List.map (Version.rename ρ)) hρ.injective
    (fun _ => rfl) (fun a found => ?_) (fun _ _ => rfl) _ [v] []
  dsimp only
  rw [hs, Ascending.insert_map order]

theorem ends_of_sourcesOf (h : Renames ρ p q)
    (hs : ∀ v, q.sourcesOf (v.rename ρ) = (p.sourcesOf v).map (·.rename ρ)) (v : Version) :
    q.ends (v.rename ρ) = (p.ends v).map (·.rename ρ) := by
  unfold Path.ends
  rw [h.closure_of_sourcesOf hρ hs, List.filter_map]
  congr 2
  funext x
  simp [hs]

theorem closure (h : Renames ρ p q) (hp : p.Layered n) (hq : q.Layered m) (v : Version) :
    q.closure (v.rename ρ) = (p.closure v).map (·.rename ρ) :=
  h.closure_of_sourcesOf hρ (h.sourcesOf hρ hp hq) v

theorem ends (h : Renames ρ p q) (hp : p.Layered n) (hq : q.Layered m) (v : Version) :
    q.ends (v.rename ρ) = (p.ends v).map (·.rename ρ) :=
  h.ends_of_sourcesOf hρ (h.sourcesOf hρ hp hq) v

omit hρ

theorem addVersion (h : Renames ρ p q) (v : Version) :
    Renames ρ (p.record (·.addVersion v)) (q.record (·.addVersion (v.rename ρ))) :=
  ⟨congrArg (v.rename ρ :: ·) h.versions, h.locations, h.pointers, h.deposits, h.flows⟩

theorem addLocation (h : Renames ρ p q) (l : Location) :
    Renames ρ (p.record (·.addLocation l)) (q.record (·.addLocation (l.rename ρ))) :=
  ⟨h.versions, congrArg (l.rename ρ :: ·) h.locations, h.pointers, h.deposits, h.flows⟩

theorem addPointer (h : Renames ρ p q) (v : Version) (l : Location) :
    Renames ρ (p.record (·.addPointer v l))
      (q.record (·.addPointer (v.rename ρ) (l.rename ρ))) :=
  ⟨h.versions, h.locations, congrArg (Pointer.rename ρ ⟨v, l⟩ :: ·) h.pointers, h.deposits, h.flows⟩

theorem addDeposit (h : Renames ρ p q) (l : Location) (v : Version) :
    Renames ρ (p.record (·.addDeposit l v))
      (q.record (·.addDeposit (l.rename ρ) (v.rename ρ))) :=
  ⟨h.versions, h.locations, h.pointers, congrArg (Deposit.rename ρ ⟨l, v⟩ :: ·) h.deposits, h.flows⟩

include hρ

/-- Whether a flow is known already shows in the path as a whole, since its target is new. -/
theorem addFlow (h : Renames ρ p q) (hp : p.Layered n) (hq : q.Layered (ρ n)) (source : Version)
    {target : Version} (ht : n ≤ target.id) (via : Option Location) :
    Renames ρ (p.record (·.addFlow source target via))
      (q.record (·.addFlow (source.rename ρ) (target.rename ρ) (via.map (·.rename ρ)))) := by
  have known : q.current.hasFlow (source.rename ρ) (target.rename ρ) =
      p.current.hasFlow source target := by
    rw [hp.hasFlow_eq source ht, hq.hasFlow_eq _ (hρ.monotone ht), h.flows, List.any_map]
    simp only [Function.comp_def, Flow.rename, Version.rename, beq_rename hρ]
  constructor
  · simpa using h.versions
  · simpa using h.locations
  · simpa using h.pointers
  · simpa using h.deposits
  · rw [flows_addFlow, flows_addFlow, known]
    split
    · exact h.flows
    · rw [h.flows]
      rfl

end Renames

section Rename

variable {ρ σ : Nat → Nat} {p : Path} {n : Nat}

theorem renames_rename (ρ : Nat → Nat) (p : Path) : p.Renames ρ (p.rename ρ) := by
  constructor <;>
    simp [rename, frames, versions, locations, pointers, deposits, flows, Frame.rename,
      List.flatMap_map, List.map_flatMap]

/-- Only the identities in use are renamed. -/
theorem rename_congr (hc : p.Closed) (hn : p.Numbered n) (hi : ∀ i < n, σ i = ρ i) :
    p.rename σ = p.rename ρ := by
  have version : ∀ v ∈ p.versions, v.rename σ = v.rename ρ := by
    intro v hv
    unfold Version.rename
    rw [hi v.id (hn.versions_lt v hv)]
  have location : ∀ l ∈ p.locations, l.rename σ = l.rename ρ := by
    intro l hl
    unfold Location.rename
    rw [hi l.id (hn.locations_lt l hl)]
  have frame : ∀ f ∈ p.frames, f.rename σ = f.rename ρ := by
    intro f hf
    have here {α : Type} {field : Frame → List α} {a : α} (ha : a ∈ field f) :
        a ∈ p.frames.flatMap field := List.mem_flatMap.2 ⟨f, hf, ha⟩
    unfold Frame.rename
    congr 1
    · exact hi f.id (hn.frames_lt _ (List.mem_map_of_mem hf))
    · exact List.map_congr_left fun v hv => version v (here hv)
    · exact List.map_congr_left fun l hl => location l (here hl)
    · refine List.map_congr_left fun r hr => ?_
      obtain ⟨hv, hl⟩ := hc.pointers r (here hr)
      unfold Pointer.rename
      rw [version _ hv, location _ hl]
    · refine List.map_congr_left fun d hd => ?_
      obtain ⟨hl, hv⟩ := hc.deposits d (here hd)
      unfold Deposit.rename
      rw [version _ hv, location _ hl]
    · refine List.map_congr_left fun e he => ?_
      obtain ⟨ht, hs, hl⟩ := hc.flows e (here he)
      unfold Flow.rename
      rw [version _ ht, version _ hs, Option.map_congr fun l h => location l (hl l h)]
  unfold rename
  rw [frame p.current List.mem_cons_self,
    List.map_congr_left fun f hf => frame f (List.mem_cons_of_mem _ hf)]

end Rename

end Path

/-- Two states in the midst of one effect, which began when `n` was the next identity of the first:
the second is the first with its identities renamed, as far as paths and marked versions go. -/
structure Twin (ρ : Nat → Nat) (n : Nat) (s t : State) : Prop where
  renames : s.path.Renames ρ t.path
  layered : s.path.Layered n
  layered' : t.path.Layered (ρ n)
  begun : n ≤ s.next
  next : t.next = ρ s.next
  steady : ∀ i, s.next ≤ i → ρ (i + 1) = ρ i + 1
  marked : t.marks.versions = s.marks.versions.map ρ

namespace Twin

variable {ρ : Nat → Nat} {n : Nat} {s t s' t' : State}

/-- Both states record something and take no identity. -/
theorem keep (h : Twin ρ n s t) (hr : s'.path.Renames ρ t'.path) (hl : s'.path.Layered n)
    (hl' : t'.path.Layered (ρ n)) (hn : s'.next = s.next) (hn' : t'.next = t.next)
    (hm : s'.marks.versions = s.marks.versions) (hm' : t'.marks.versions = t.marks.versions) :
    Twin ρ n s' t' := by
  refine ⟨hr, hl, hl', hn ▸ h.begun, ?_, hn ▸ h.steady, ?_⟩
  · rw [hn, hn', h.next]
  · rw [hm, hm', h.marked]

/-- Both states record something about the next identity, which is taken. -/
theorem take (h : Twin ρ n s t) (hr : s'.path.Renames ρ t'.path) (hl : s'.path.Layered n)
    (hl' : t'.path.Layered (ρ n)) (hn : s'.next = s.next + 1) (hn' : t'.next = t.next + 1)
    (hm : s'.marks.versions = s.marks.versions) (hm' : t'.marks.versions = t.marks.versions) :
    Twin ρ n s' t' := by
  refine ⟨hr, hl, hl', ?_, ?_, fun i hi => h.steady i ?_, ?_⟩
  · rw [hn]
    exact Nat.le_succ_of_le h.begun
  · rw [hn, hn', h.next, h.steady s.next (Nat.le_refl _)]
  · omega
  · rw [hm, hm', h.marked]

theorem newVersion (h : Twin ρ n s t) (value : Value) (x : Term) :
    Twin ρ n (Recorder.newVersion value x s).2 (Recorder.newVersion value x t).2 := by
  refine h.take ?_ (h.layered.keep rfl rfl) (h.layered'.keep rfl rfl) rfl rfl rfl rfl
  have hr := h.renames.addVersion ⟨s.next, value, x⟩
  unfold Version.rename at hr
  rw [← h.next] at hr
  exact hr

theorem newLocation (h : Twin ρ n s t) (site : Value) (x : Term) :
    Twin ρ n (Recorder.newLocation site x s).2 (Recorder.newLocation site x t).2 := by
  refine h.take ?_ (h.layered.keep rfl rfl) (h.layered'.keep rfl rfl) rfl rfl rfl rfl
  have hr := h.renames.addLocation (Location.start s.next site x)
  unfold Location.rename Location.start at hr
  rw [← h.next] at hr
  exact hr

theorem newElement (h : Twin ρ n s t) {base : Location} {x : Term}
    (hx : s.path.latestLocation? base.site x = none)
    (hy : t.path.latestLocation? (base.rename ρ).site x = none) :
    Twin ρ n (Recorder.elementAt base x s).2 (Recorder.elementAt (base.rename ρ) x t).2 := by
  have marked : ∀ (u : State) (b l : Location),
      (if u.marks.isCoreLocation b then u.marks.addLocation l else u.marks).versions =
        u.marks.versions := by
    intro u b l
    split <;> rfl
  rw [Recorder.elementAt_run hx, Recorder.elementAt_run hy]
  refine h.take ?_ (h.layered.keep rfl rfl) (h.layered'.keep rfl rfl) rfl rfl (marked ..) (marked ..)
  have hr := h.renames.addLocation ⟨s.next, base.site, x, base.displaced (x.sub base.address)⟩
  unfold Location.rename at hr
  rw [← h.next] at hr
  exact hr

theorem slice (h : Twin ρ n s t) (hs : s'.path = s.path) (ht : t'.path = t.path)
    (hn : s'.next = s.next) (hn' : t'.next = t.next)
    (hm : t'.marks.versions = s'.marks.versions.map ρ) : Twin ρ n s' t' := by
  refine ⟨?_, ?_, ?_, hn ▸ h.begun, ?_, hn ▸ h.steady, hm⟩
  · rw [hs, ht]
    exact h.renames
  · rw [hs]
    exact h.layered
  · rw [ht]
    exact h.layered'
  · rw [hn, hn', h.next]

theorem sliceFrom (hρ : StrictMono ρ) (h : Twin ρ n s t) (v : Version) :
    Twin ρ n (Recorder.sliceFrom v s).2 (Recorder.sliceFrom (v.rename ρ) t).2 := by
  obtain ⟨hp, hn, hm⟩ := Recorder.sliceFrom_state v s
  obtain ⟨hp', hn', hm'⟩ := Recorder.sliceFrom_state (v.rename ρ) t
  refine h.slice hp hp' hn hn' ?_
  rw [hm, hm', h.renames.closure hρ h.layered h.layered']
  have marked := h.marked
  generalize s.marks = a, t.marks = b at marked
  induction s.path.closure v generalizing a b with
  | nil => exact marked
  | cons x xs ih =>
    refine ih (a.addVersion x) (b.addVersion (x.rename ρ)) ?_
    unfold Marks.addVersion
    rw [marked]
    exact Ascending.insert_map (Path.Renames.compare_rename hρ) x.id a.versions

end Twin

def twinning (ρ : Nat → Nat) (n : Nat) : Correspondence where
  World := Unit
  Later _ _ := True
  states _ := Twin ρ n
  versions _ a b := b = a.rename ρ
  targets _ a b := b = a.rename ρ ∧ n ≤ a.id
  locations _ l m := m = l.rename ρ

theorem rel_map {α β : Type} {f : α → β} (x : Option α) :
    Option.Rel (fun a b => b = f a) x (x.map f) := by
  cases x with
  | none => exact .none
  | some a => exact .some rfl

theorem forall₂_map {α β : Type} {f : α → β} (l : List α) :
    List.Forall₂ (fun a b => b = f a) l (l.map f) := by
  induction l with
  | nil => exact .nil
  | cons a l ih => exact .cons rfl ih

/-- Effects keep states twins and have the same outcome in both. -/
theorem twinning_lawful {ρ : Nat → Nat} (hρ : StrictMono ρ) (n : Nat) : (twinning ρ n).Lawful where
  refl _ := trivial
  trans _ _ := trivial
  version_later _ h := h
  target_later _ h := h
  location_later _ h := h
  target_version h := h.1
  value_eq := by
    rintro _ a _ rfl
    rfl
  term_eq := by
    rintro _ a _ rfl
    rfl
  site_eq := by
    rintro _ l _ rfl
    rfl
  address_eq := by
    rintro _ l _ rfl
    rfl
  latest := by
    intro _ s t h v
    rw [h.renames.latest?]
    exact rel_map _
  latestLocation := by
    intro _ s t h site x
    rw [h.renames.latestLocation?]
    exact rel_map _
  pointee := by
    rintro _ s t a _ h rfl
    rw [h.renames.pointee? hρ]
    exact rel_map _
  content := by
    rintro _ s t l _ h rfl
    rw [h.renames.content? hρ]
    exact rel_map _
  sources := by
    rintro _ s t a _ h rfl
    rw [h.renames.sourcesOf hρ h.layered h.layered']
    exact forall₂_map _
  ends := by
    rintro _ s t a _ h rfl
    rw [h.renames.ends hρ h.layered h.layered']
    exact forall₂_map _
  newVersion := by
    intro _ s t h v x
    exact ⟨(), trivial, h.newVersion v x, congrArg (Version.mk · v x) h.next, h.begun⟩
  newLocation := by
    intro _ s t h site x
    exact ⟨(), trivial, h.newLocation site x, congrArg (Location.start · site x) h.next⟩
  newElement := by
    rintro _ s t l _ x h rfl hx hy
    refine ⟨(), trivial, h.newElement hx hy, ?_⟩
    rw [Recorder.elementAt_run hx, Recorder.elementAt_run hy, h.next]
    rfl
  addPointer := by
    rintro _ s t a _ l _ h rfl rfl
    exact ⟨(), trivial, h.keep (h.renames.addPointer a l) (h.layered.keep rfl rfl)
      (h.layered'.keep rfl rfl) rfl rfl rfl rfl, trivial⟩
  deposit := by
    rintro _ s t a _ l _ h rfl rfl
    exact ⟨(), trivial, h.keep (h.renames.addDeposit l a) (h.layered.keep rfl rfl)
      (h.layered'.keep rfl rfl) rfl rfl rfl rfl, trivial⟩
  addFlow := by
    rintro _ s t a _ c _ h rfl ⟨rfl, hc⟩
    exact ⟨(), trivial, h.keep (h.renames.addFlow hρ h.layered h.layered' a hc none)
      (h.layered.addFlow hc) (h.layered'.addFlow (hρ.monotone hc)) rfl rfl rfl rfl, trivial⟩
  addPassage := by
    rintro _ s t a b c _ l _ h rfl ⟨rfl, hc⟩ ha hb
    obtain rfl : a.rename ρ = b := by
      rw [h.renames.content? hρ, ha] at hb
      exact Option.some.inj hb
    exact ⟨(), trivial, h.keep (h.renames.addFlow hρ h.layered h.layered' a hc (some l))
      (h.layered.addFlow hc) (h.layered'.addFlow (hρ.monotone hc)) rfl rfl rfl rfl, trivial⟩
  notify := by
    intro _ s t h x
    exact ⟨(), trivial, h.keep h.renames h.layered h.layered' rfl rfl rfl rfl, trivial⟩
  sliceFrom := by
    rintro _ s t a _ h rfl
    exact ⟨(), trivial, h.sliceFrom hρ a, trivial⟩
  sliceIdly := by
    intro _ s t h
    obtain ⟨hp, hn, hm⟩ := Recorder.sliceIdly_state s
    obtain ⟨hp', hn', hm'⟩ := Recorder.sliceIdly_state t
    refine ⟨(), trivial, h.slice hp hp' hn hn' ?_, trivial⟩
    rw [hm, hm', h.marked]

end PathSlice
