import PathSlice.Proofs.NearestLocations

/-! Origins along a chain of frames against origins in the one frame that holds all its records. The
ways of the chain are ways of the merged frame; they end alike if and only if the chain sees, for
the versions without sources, where they were last put. -/
namespace PathSlice

namespace Path

/-- The root frame that holds all that the frames of a path recorded. -/
def mergedFrame (p : Path) : Frame where
  id := p.current.id
  versions := p.versions
  locations := p.locations
  pointers := p.pointers
  deposits := p.deposits
  flows := p.flows

def merged (p : Path) : Path :=
  ⟨p.mergedFrame, []⟩

section Merged

variable (p : Path)

@[simp] theorem versions_merged : p.merged.versions = p.versions := List.append_nil _
@[simp] theorem locations_merged : p.merged.locations = p.locations := List.append_nil _
@[simp] theorem pointers_merged : p.merged.pointers = p.pointers := List.append_nil _
@[simp] theorem deposits_merged : p.merged.deposits = p.deposits := List.append_nil _
@[simp] theorem flows_merged : p.merged.flows = p.flows := List.append_nil _

end Merged

variable {p : Path} {n : Nat} {t : Version}

theorem Closed.merged (h : p.Closed) : p.merged.Closed := by
  constructor
  · simpa using h.pointers
  · simpa using h.deposits
  · simpa using h.flows

theorem Numbered.merged (h : p.Numbered n) : p.merged.Numbered n := by
  constructor
  · simpa using h.versions
  · simpa using h.versions_lt
  · simpa using h.locations
  · simpa using h.locations_lt
  · exact List.pairwise_singleton _ _
  · intro i hi
    rw [List.mem_singleton.1 hi]
    exact h.frames_lt _ List.mem_cons_self

/-- The flows of different frames lead into different versions. -/
theorem Traceable.merged (h : p.Traceable) (ha : Apart p.frames) : p.merged.Traceable := by
  constructor
  · intro f hf
    rw [List.mem_singleton.1 hf]
    refine List.pairwise_flatMap.2 ⟨h.distinct, ha.imp fun {f g} hfg d hd e he ht => ?_⟩
    have := hfg d hd _ (.target he)
    omega
  · simpa using h.deposited

theorem mergedFrame_distinct (h : p.Traceable) (ha : Apart p.frames) : p.mergedFrame.Distinct :=
  (h.merged ha).distinct p.mergedFrame List.mem_cons_self

/-- What flows into a version does so in some frame. -/
theorem mem_flowsInto_mergedFrame (h : p.Traceable) (ha : Apart p.frames) {u : Version} {e : Flow} :
    e ∈ p.mergedFrame.flowsInto u ↔ ∃ f ∈ p.frames, e ∈ f.flowsInto u := by
  rw [Frame.mem_flowsInto_iff (mergedFrame_distinct h ha)]
  constructor
  · rintro ⟨he, ht⟩
    obtain ⟨f, hf, he⟩ := List.mem_flatMap.1 he
    exact ⟨f, hf, (Frame.mem_flowsInto_iff (h.distinct f hf)).2 ⟨he, ht⟩⟩
  · rintro ⟨f, hf, he⟩
    obtain ⟨he, ht⟩ := Frame.mem_flows_of_mem_flowsInto he
    exact ⟨List.mem_flatMap.2 ⟨f, hf, he⟩, ht⟩

/-- Two frames that have flows into one version are the same. -/
theorem frame_eq_of_mem_flowsInto {fs : List Frame} (ha : Apart fs) {f g : Frame} (hf : f ∈ fs)
    (hg : g ∈ fs) {u : Version} {d e : Flow} (hd : d ∈ f.flowsInto u) (he : e ∈ g.flowsInto u) :
    f = g := by
  induction fs with
  | nil => exact absurd hf List.not_mem_nil
  | cons h fs ih =>
    -- The frames behind one that has flows into `u` know nothing about `u`.
    have behind : ∀ {x y c b}, x = h → y ∈ fs → c ∈ x.flowsInto u → b ∈ y.flowsInto u → False := by
      intro x y c b hx hy hc hb
      have hne : h.flowsInto u ≠ [] := by
        rw [← hx]
        exact List.ne_nil_of_mem hc
      have := leadsOn_of_apart ha hne y hy
      rw [Frame.leadsOn_of_mem hb] at this
      cases this
    rcases List.mem_cons.1 hf with hf | hf <;> rcases List.mem_cons.1 hg with hg | hg
    · rw [hf, hg]
    · exact (behind hf hg hd he).elim
    · exact (behind hg hf he hd).elim
    · exact ih (List.pairwise_cons.1 ha).2 hf hg

/-- The frame that has flows into a version is still to be asked when the lookup comes to it. -/
private theorem ComesTo.home (ha : Apart p.frames) {gs : List Frame} {u : Version}
    (h : ComesTo p.frames t gs u) {f : Frame} (hf : f ∈ p.frames) {e : Flow}
    (he : e ∈ f.flowsInto u) : f ∈ gs := by
  induction h generalizing e with
  | start => exact hf
  | @along g gs u d h hd hv ih =>
    obtain ⟨before, hb⟩ := h.suffix
    rw [← hb] at hf ha
    rcases List.mem_append.1 hf with hf | hf
    · -- An inner frame has no flows into what the frame at hand tells of.
      obtain ⟨hflow, ht⟩ := Frame.mem_flows_of_mem_flowsInto he
      have older := (List.pairwise_append.1 ha).2.2 f hf g List.mem_cons_self e hflow d.source
        (.source (Frame.mem_flows_of_mem_flowsInto hd).1)
      omega
    · exact hf
  | up h hu ih =>
    rcases List.mem_cons.1 (ih he) with rfl | hm
    · rw [Frame.leadsOn_of_mem he] at hu
      cases hu
    · exact hm

/-- The lookup goes up until a frame knows something. -/
private theorem ComesTo.climb {gs : List Frame} {u : Version} (h : ComesTo p.frames t gs u) {f : Frame}
    (hf : f ∈ gs) (hu : f.leadsOn u = true) :
    ∃ g hs, ComesTo p.frames t (g :: hs) u ∧ g.leadsOn u = true := by
  induction gs with
  | nil => exact absurd hf List.not_mem_nil
  | cons g gs ih =>
    cases hg : g.leadsOn u with
    | true => exact ⟨g, gs, h, hg⟩
    | false =>
      refine ih (.up h hg) ((List.mem_cons.1 hf).resolve_left ?_)
      rintro rfl
      rw [hg] at hu
      cases hu

/-- The ways of the chain are ways of the merged frame. -/
theorem ComesTo.computedFrom {gs : List Frame} {u : Version} (h : ComesTo p.frames t gs u) :
    p.mergedFrame.ComputedFrom t u := by
  induction h with
  | start => exact .self
  | along h he hv ih =>
    obtain ⟨he, ht⟩ := Frame.mem_flows_of_mem_flowsInto he
    exact .flow ih (List.mem_flatMap.2 ⟨_, h.suffix.subset List.mem_cons_self, he⟩) ht hv
  | up _ _ ih => exact ih

/-- The chain knows about the versions without sources that it comes to what the merged frame does.
`put`: where a frame asked says that a version was put, the whole path computed it from nothing and
last put it there. `found`: where the whole path last put such a version, a frame asked says so. -/
structure Faithful (p : Path) (t : Version) : Prop where
  put : ∀ {f gs u l}, ComesTo p.frames t (f :: gs) u → f.flowsInto u = [] →
    f.lastDeposit? u = some l →
    p.mergedFrame.flowsInto u = [] ∧ p.mergedFrame.lastDeposit? u = some l
  found : ∀ {gs u l}, ComesTo p.frames t gs u → p.mergedFrame.flowsInto u = [] →
    p.mergedFrame.lastDeposit? u = some l →
    ∃ f hs, ComesTo p.frames t (f :: hs) u ∧ f.lastDeposit? u = some l

namespace Faithful

variable (ht : p.Traceable) (ha : Apart p.frames)

include ht ha

/-- The chain comes to the flows into a version in the frame that has them. -/
theorem comesTo_flow (h : p.Faithful t) {gs : List Frame} {u : Version}
    (hu : ComesTo p.frames t gs u) {e : Flow} (he : e ∈ p.mergedFrame.flowsInto u) :
    ∃ f hs, ComesTo p.frames t (f :: hs) u ∧ e ∈ f.flowsInto u := by
  obtain ⟨f, hf, hef⟩ := (mem_flowsInto_mergedFrame ht ha).1 he
  obtain ⟨g, hs, hg, hon⟩ := hu.climb (hu.home ha hf hef) (Frame.leadsOn_of_mem hef)
  cases hflows : g.flowsInto u with
  | cons d ds =>
    have hd : d ∈ g.flowsInto u := by
      rw [hflows]
      exact List.mem_cons_self
    rw [frame_eq_of_mem_flowsInto ha hf (hg.suffix.subset List.mem_cons_self) hef hd] at hef
    exact ⟨g, hs, hg, hef⟩
  | nil =>
    -- A frame that only put `u` somewhere would hide its flows.
    cases hdep : g.lastDeposit? u with
    | some l => exact absurd (h.put hg hflows hdep).1 (List.ne_nil_of_mem he)
    | none =>
      rw [Frame.leadsOn_eq_false.2 ⟨hflows, hdep⟩] at hon
      cases hon

theorem comesTo (h : p.Faithful t) {u : Version} (hu : p.mergedFrame.ComputedFrom t u) :
    ∃ gs, ComesTo p.frames t gs u := by
  induction hu with
  | self => exact ⟨p.frames, .start⟩
  | flow _ he htarget hv ih =>
    obtain ⟨gs, hgs⟩ := ih
    have he := (Frame.mem_flowsInto_iff (mergedFrame_distinct ht ha)).2 ⟨he, htarget⟩
    obtain ⟨f, hs, hf, he⟩ := h.comesTo_flow ht ha hgs he
    exact ⟨f :: hs, .along hf he hv⟩

end Faithful

section Ends

variable (ht : p.Traceable) (ha : Apart p.frames)

include ht ha

private theorem endsAt_merged {u : Version} {source : Option Version} {l : Location} :
    EndsAt p.merged.frames t u source l ↔ p.mergedFrame.ComputedFrom t u ∧
      ((∃ e ∈ p.mergedFrame.flowsInto u, e.via = some l ∧ source = some e.source) ∨
        (p.mergedFrame.flowsInto u = [] ∧ p.mergedFrame.lastDeposit? u = some l ∧
          source = none)) := by
  have distinct := mergedFrame_distinct ht ha
  constructor
  · intro h
    cases h with
    | passage h he hv =>
      obtain ⟨hf, hc⟩ := (comesTo_root_iff distinct).1 h
      cases hf
      exact ⟨hc, .inl ⟨_, he, hv, rfl⟩⟩
    | deposit h hu hl =>
      obtain ⟨hf, hc⟩ := (comesTo_root_iff distinct).1 h
      cases hf
      exact ⟨hc, .inr ⟨hu, hl, rfl⟩⟩
  · rintro ⟨hc, ⟨e, he, hv, rfl⟩ | ⟨hu, hl, rfl⟩⟩
    · exact .passage ((comesTo_root_iff distinct).2 ⟨rfl, hc⟩) he hv
    · exact .deposit ((comesTo_root_iff distinct).2 ⟨rfl, hc⟩) hu hl

/-- The ways along the chain end as in the merged frame if and only if the chain is faithful. -/
theorem faithful_iff : p.Faithful t ↔
    ∀ u source l, EndsAt p.frames t u source l ↔ EndsAt p.merged.frames t u source l := by
  constructor
  · intro h u source l
    rw [endsAt_merged ht ha]
    constructor
    · intro hend
      cases hend with
      | passage hc he hv =>
        have hf := hc.suffix.subset List.mem_cons_self
        exact ⟨hc.computedFrom, .inl ⟨_, (mem_flowsInto_mergedFrame ht ha).2 ⟨_, hf, he⟩, hv, rfl⟩⟩
      | deposit hc hu hl =>
        obtain ⟨hu', hl'⟩ := h.put hc hu hl
        exact ⟨hc.computedFrom, .inr ⟨hu', hl', rfl⟩⟩
    · rintro ⟨hc, ⟨e, he, hv, rfl⟩ | ⟨hu, hl, rfl⟩⟩
      · obtain ⟨gs, hgs⟩ := h.comesTo ht ha hc
        obtain ⟨f, hs, hf, he⟩ := h.comesTo_flow ht ha hgs he
        exact .passage hf he hv
      · obtain ⟨gs, hgs⟩ := h.comesTo ht ha hc
        obtain ⟨f, hs, hf, hl'⟩ := h.found hgs hu hl
        refine .deposit hf (List.eq_nil_iff_forall_not_mem.2 fun e he => ?_) hl'
        have he := (mem_flowsInto_mergedFrame ht ha).2
          ⟨f, hf.suffix.subset List.mem_cons_self, he⟩
        exact List.not_mem_nil (hu ▸ he)
  · intro h
    constructor
    · intro f gs u l hc hu hl
      obtain ⟨_, ⟨_, _, _, hs⟩ | ⟨hu', hl', _⟩⟩ :=
        (endsAt_merged ht ha).1 ((h u none l).1 (.deposit hc hu hl))
      · cases hs
      · exact ⟨hu', hl'⟩
    · intro gs u l hc hu hl
      have hend := (h u none l).2 ((endsAt_merged ht ha).2 ⟨hc.computedFrom, .inr ⟨hu, hl, rfl⟩⟩)
      cases hend with
      | deposit hf _ hl => exact ⟨_, _, hf, hl⟩

end Ends

/-- No two origins compete for one source, neither along the chain nor in the merged frame. -/
structure Clear (p : Path) (t : Version) : Prop where
  undisturbed : Undisturbed p.frames t
  chain : ∀ {u v source l m}, EndsAt p.frames t u source l → EndsAt p.frames t v source m → l = m
  merged : ∀ {u v source l m}, EndsAt p.merged.frames t u source l →
    EndsAt p.merged.frames t v source m → l = m

/-- Where sources have one location each, the answers are the related pairs. -/
theorem Answers.mem_iff {related : Option Version → Location → Prop} {os : List Origin}
    (h : Answers related os)
    (hone : ∀ source l m, related source l → related source m → l = m) {o : Origin} :
    o ∈ os ↔ related o.source o.location :=
  ⟨h.sound o, h.all_iff.2 hone o.source o.location⟩

private theorem Answers.exists_location_iff {related : Option Version → Location → Prop}
    {os : List Origin} (h : Answers related os)
    (hone : ∀ source l m, related source l → related source m → l = m) (l : Location) :
    (∃ o ∈ os, o.location = l) ↔ ∃ source, related source l := by
  constructor
  · rintro ⟨o, ho, rfl⟩
    exact ⟨o.source, h.sound o ho⟩
  · rintro ⟨source, hr⟩
    exact ⟨⟨source, l⟩, (h.mem_iff hone).2 hr, rfl⟩

variable (hc : p.Closed) (hn : p.Numbered n) (ht : p.Traceable) (ha : Apart p.frames)

include hc hn ht ha

private theorem Clear.answers (h : p.Clear t) :
    Answers (fun source l => ∃ u, EndsAt p.frames t u source l) (p.origins t) ∧
      Answers (fun source l => ∃ u, EndsAt p.merged.frames t u source l) (p.merged.origins t) := by
  refine ⟨chain_answers hc hn ha h.undisturbed, ?_⟩
  exact chain_answers hc.merged hn.merged (List.pairwise_singleton _ _)
    (undisturbed_root (ht.merged ha) t)

/-- Where no origins compete, the chain and the merged frame answer with the same locations if and
only if their ways end in the same locations. -/
private theorem Clear.locations_iff (h : p.Clear t) :
    (∀ l, (∃ o ∈ p.origins t, o.location = l) ↔ ∃ o ∈ p.merged.origins t, o.location = l) ↔
      ∀ l, (∃ source u, EndsAt p.frames t u source l) ↔
        ∃ source u, EndsAt p.merged.frames t u source l := by
  obtain ⟨hchain, hmerged⟩ := h.answers hc hn ht ha
  refine forall_congr' fun l => iff_congr ?_ ?_
  · refine hchain.exists_location_iff ?_ l
    rintro source l m ⟨u, hu⟩ ⟨v, hv⟩
    exact h.chain hu hv
  · refine hmerged.exists_location_iff ?_ l
    rintro source l m ⟨u, hu⟩ ⟨v, hv⟩
    exact h.merged hu hv

private theorem Clear.origins_eq (h : p.Clear t) (hf : p.Faithful t) :
    p.origins t = p.merged.origins t := by
  obtain ⟨hchain, hmerged⟩ := h.answers hc hn ht ha
  refine Ascending.eq_of_mem_iff hchain.sorted hmerged.sorted fun o => ?_
  rw [hchain.mem_iff, hmerged.mem_iff]
  · exact exists_congr fun u => (faithful_iff ht ha).1 hf u o.source o.location
  · rintro source l m ⟨u, hu⟩ ⟨v, hv⟩
    exact h.merged hu hv
  · rintro source l m ⟨u, hu⟩ ⟨v, hv⟩
    exact h.chain hu hv

omit hc hn ht ha

/-- The current frame loaded `t` from memory, and computed it from nothing else. -/
structure Loaded (p : Path) (t : Version) : Prop where
  some : p.current.flowsInto t ≠ []
  via : ∀ e ∈ p.current.flowsInto t, e.via.isSome

namespace Loaded

theorem comesTo (h : p.Loaded t) {gs : List Frame} {u : Version} (hu : ComesTo p.frames t gs u) :
    gs = p.frames ∧ u = t := by
  induction hu with
  | start => exact ⟨rfl, rfl⟩
  | along _ he hv ih =>
    obtain ⟨hf, rfl⟩ := ih
    cases hf
    have := h.via _ he
    rw [hv] at this
    cases this
  | up _ hl ih =>
    obtain ⟨hf, rfl⟩ := ih
    cases hf
    exact absurd (Frame.leadsOn_eq_false.1 hl).1 h.some

private theorem endsAt (h : p.Loaded t) {u : Version} {source : Option Version} {l : Location}
    (hu : EndsAt p.frames t u source l) :
    ∃ e ∈ p.current.flowsInto t, source = Option.some e.source ∧ e.via = Option.some l := by
  cases hu with
  | passage hc he hv =>
    obtain ⟨hf, rfl⟩ := h.comesTo hc
    cases hf
    exact ⟨_, he, rfl, hv⟩
  | deposit hc hn _ =>
    obtain ⟨hf, rfl⟩ := h.comesTo hc
    cases hf
    exact absurd hn h.some

theorem location_eq (h : p.Loaded t) {u v : Version} {source : Option Version} {l m : Location}
    (hu : EndsAt p.frames t u source l) (hv : EndsAt p.frames t v source m) : l = m := by
  obtain ⟨d, hd, hs, hl⟩ := h.endsAt hu
  obtain ⟨e, he, hs', hm⟩ := h.endsAt hv
  have same : d.source = e.source := Option.some.inj (hs.symm.trans hs')
  have : d = e := Ascending.eq_of_key_eq Ascending.sorted_ofList hd he (congrArg Version.id same)
  exact Option.some.inj (hl.symm.trans (this ▸ hm))

include ht ha

/-- The merged frame knows no more about `t`. -/
theorem merged (h : p.Loaded t) : p.merged.Loaded t := by
  have same : ∀ e, e ∈ p.mergedFrame.flowsInto t ↔ e ∈ p.current.flowsInto t := by
    obtain ⟨d, hd⟩ := List.exists_mem_of_ne_nil _ h.some
    intro e
    rw [mem_flowsInto_mergedFrame ht ha]
    constructor
    · rintro ⟨f, hf, he⟩
      rw [frame_eq_of_mem_flowsInto ha List.mem_cons_self hf hd he]
      exact he
    · exact fun he => ⟨p.current, List.mem_cons_self, he⟩
  refine ⟨fun hn => h.some ?_, fun e he => h.via e ((same e).1 he)⟩
  exact List.eq_nil_iff_forall_not_mem.2 fun e he => List.not_mem_nil (hn ▸ (same e).2 he)

theorem clear (h : p.Loaded t) : p.Clear t where
  undisturbed := by
    intro f gs u v d e hu hd hv _ _ _ _ _
    obtain ⟨hf, rfl⟩ := h.comesTo hu
    cases hf
    have := h.via d hd
    rw [hv] at this
    cases this
  chain := h.location_eq
  merged := (h.merged ht ha).location_eq

theorem faithful (h : p.Loaded t) : p.Faithful t where
  put := by
    intro f gs u l hu hn _
    obtain ⟨hf, rfl⟩ := h.comesTo hu
    cases hf
    exact absurd hn h.some
  found := by
    intro gs u l hu hn _
    obtain ⟨_, rfl⟩ := h.comesTo hu
    exact absurd hn (h.merged ht ha).some

end Loaded

end Path

namespace Replay

/-- Origins along a chain, after any effects and forks and for any version, against origins in the
merged frame. What is answered on either side are ends of its ways. The ways end alike if and only
if the chain is faithful. Where no two origins compete for one source, both sides answer with the same
locations if and only if their ways end in the same locations, and a faithful chain gives the same
origins. -/
theorem origins_merged (program : Program) (next : Nat) (existential : Bool) (events : List Event)
    (he : ∀ e ∈ events, e.isEffect ∨ e.isFork) (t : Version) :
    let p := (pursue 0 events (start program next existential)).2.state.path
    (∀ o ∈ p.origins t, ∃ u, Path.EndsAt p.frames t u o.source o.location) ∧
      (∀ o ∈ p.merged.origins t, ∃ u, Path.EndsAt p.merged.frames t u o.source o.location) ∧
      (p.Faithful t ↔ ∀ u source l,
        Path.EndsAt p.frames t u source l ↔ Path.EndsAt p.merged.frames t u source l) ∧
      (p.Clear t →
        ((∀ l, (∃ o ∈ p.origins t, o.location = l) ↔ ∃ o ∈ p.merged.origins t, o.location = l) ↔
          ∀ l, (∃ source u, Path.EndsAt p.frames t u source l) ↔
            ∃ source u, Path.EndsAt p.merged.frames t u source l) ∧
        (p.Faithful t → p.origins t = p.merged.origins t)) := by
  intro p
  have h : Settled (pursue 0 events (start program next existential)).2.state :=
    pursue_settled (start_settled program next existential) he 0
  have sound : ∀ {n} {q : Path}, Path.Apart q.frames → q.Numbered n → ∀ o ∈ q.origins t,
      ∃ u, Path.EndsAt q.frames t u o.source o.location := fun ha hn =>
    (Path.origins_spec ha (hn.frames.imp fun h => Nat.ne_of_gt h) t).2.1
  refine ⟨sound h.layered.apart h.numbered,
    sound (List.pairwise_singleton _ _) h.numbered.merged,
    Path.faithful_iff h.traceable h.layered.apart, fun hclear => ⟨?_, ?_⟩⟩
  · exact hclear.locations_iff h.closed h.numbered h.traceable h.layered.apart
  · exact hclear.origins_eq h.closed h.numbered h.traceable h.layered.apart

/-- A sum is stored, loaded again, and what was loaded is stored elsewhere. -/
def handedOnProgram : Program :=
  ((Program.ofDeclarations 1 [
    ⟨"k", .constant, .integer 32⟩,
    ⟨"p", .instruction .alloca "main" [], .pointer⟩,
    ⟨"q", .instruction .alloca "main" [], .pointer⟩,
    ⟨"x", .instruction .add "main" ["k", "k"], .integer 32⟩,
    ⟨"sp", .instruction .store "main" ["x", "p"], .void⟩,
    ⟨"a", .instruction .load "main" ["p"], .integer 32⟩,
    ⟨"sq", .instruction .store "main" ["a", "q"], .void⟩]).toOption).getD []

def untilStored : List Event :=
  [.execute "p" [.pointer 16] false,
    .execute "q" [.pointer 32] false,
    .execute "x" [.ofBits 2 32, .ofBits 1 32, .ofBits 1 32] false,
    .execute "sp" [.ofBits 2 32, .pointer 16] false]

def loadAgain : Event :=
  .execute "a" [.ofBits 2 32, .pointer 16] false

def storeElsewhere : Event :=
  .execute "sq" [.ofBits 2 32, .pointer 32] false

def handedOnPath (events : List Event) : Path :=
  (pursue 0 events (start handedOnProgram 8 false)).2.state.path

/-- What is loaded behind the fork has the origins that the merged frame gives. -/
theorem origins_merged_handedOn :
    let events := untilStored ++ [.fork, loadAgain, storeElsewhere]
    (∀ e ∈ events, e.isEffect ∨ e.isFork) ∧ ∃ t ∈ (handedOnPath events).versions,
      (handedOnPath events).Clear t ∧ (handedOnPath events).Faithful t ∧
        (handedOnPath events).origins t = (handedOnPath events).merged.origins t := by
  intro events
  have he : ∀ e ∈ events, e.isEffect ∨ e.isFork := by decide
  have h := pursue_settled (start_settled handedOnProgram 8 false) he 0
  obtain ⟨t, ht, hid⟩ := Option.map_eq_some_iff.1
    (rfl : (handedOnPath events).versions.head?.map (·.id) = some 18)
  have flows : ((handedOnPath events).current.flowsInto t).map (·.via.isSome) = [true] := by
    rw [Frame.flowsInto_congr (v := ⟨18, t.value, t.term⟩) hid]
    generalize t.value = value, t.term = term
    rfl
  have loaded : (handedOnPath events).Loaded t := by
    refine ⟨fun hn => ?_, fun e hm => ?_⟩
    · rw [hn] at flows
      cases flows
    · exact List.mem_singleton.1 (flows ▸ List.mem_map_of_mem hm)
  have clear := loaded.clear h.traceable h.layered.apart
  have faithful := loaded.faithful h.traceable h.layered.apart
  exact ⟨he, t, List.mem_of_head? ht, clear, faithful,
    ((origins_merged handedOnProgram 8 false events he t).2.2.2 clear).2 faithful⟩

-- Where the fork lies between the load and the store, the chain is not faithful.
example :
    let p := handedOnPath (untilStored ++ [loadAgain, .fork, storeElsewhere])
    (p.versions.head?.map fun t =>
      ((p.origins t).map (·.location.id), (p.merged.origins t).map (·.location.id))) =
        some ([12], [10]) := by
  decide +kernel

end Replay

end PathSlice
