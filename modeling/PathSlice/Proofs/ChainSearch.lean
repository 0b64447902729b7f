import PathSlice.Proofs.FrameWalks
import PathSlice.Proofs.PathInvariants

/-! The search through a chain of frames, against the ways it stands for. A way goes back along flows
of one frame, and on in the parent frame from a version that the frame knows nothing about. The
search finds ends of ways only. It finds an end for every source, unless a frame takes over a
version as it is that it also loads from memory. -/
namespace PathSlice

namespace Path

variable {fs : List Frame} {t : Version}

/-- The lookup of `t` in some frames comes to a version, with the given frames left to ask. -/
inductive ComesTo (fs : List Frame) (t : Version) : List Frame → Version → Prop
  | start : ComesTo fs t fs t
  | along {f : Frame} {gs : List Frame} {u : Version} {e : Flow} (h : ComesTo fs t (f :: gs) u)
      (he : e ∈ f.flowsInto u) (hv : e.via = none) : ComesTo fs t (f :: gs) e.source
  | up {f : Frame} {gs : List Frame} {u : Version} (h : ComesTo fs t (f :: gs) u)
      (hu : f.leadsOn u = false) : ComesTo fs t gs u

/-- A way to `t` ends at a version: where it flows from memory, or where it was put. -/
inductive EndsAt (fs : List Frame) (t : Version) : Version → Option Version → Location → Prop
  | passage {f : Frame} {gs : List Frame} {u : Version} {e : Flow} {l : Location}
      (h : ComesTo fs t (f :: gs) u) (he : e ∈ f.flowsInto u) (hv : e.via = some l) :
      EndsAt fs t u (some e.source) l
  | deposit {f : Frame} {gs : List Frame} {u : Version} {l : Location}
      (h : ComesTo fs t (f :: gs) u) (hu : f.flowsInto u = []) (hl : f.lastDeposit? u = some l) :
      EndsAt fs t u none l

/-- No frame loads a version from memory and also takes it over as it is without knowing where it
comes from. -/
def Undisturbed (fs : List Frame) (t : Version) : Prop :=
  ∀ {f gs u v d e}, ComesTo fs t (f :: gs) u → d ∈ f.flowsInto u → d.via = none →
    f.leadsOn d.source = false → ComesTo fs t (f :: gs) v → e ∈ f.flowsInto v → e.via.isSome →
    d.source.id ≠ e.source.id

theorem ComesTo.leads {f : Frame} {gs : List Frame} {v u : Version} (h : ComesTo fs t (f :: gs) v)
    (hu : f.Leads v u) : ComesTo fs t (f :: gs) u := by
  induction hu with
  | refl => exact h
  | step _ he hv ih => exact .along ih he hv

/-- The frames left to ask are frames of the path. -/
theorem ComesTo.suffix {gs : List Frame} {u : Version} (h : ComesTo fs t gs u) : gs <:+ fs := by
  induction h with
  | start => exact List.suffix_rfl
  | along _ _ _ ih => exact ih
  | up _ _ ih => exact (List.suffix_cons _ _).trans ih

namespace Search

variable {s s' : Search}

/-- Some origin with the given source was found. -/
def Known (s : Search) (source : Option Version) : Prop :=
  ∃ o ∈ s.found, sourceRank o.source = sourceRank source

def Sorted (s : Search) : Prop :=
  Ascending.Sorted (fun o : Origin => sourceRank o.source) s.found

/-- Keeping ends adds them, and every source that has an end with a location is known. -/
theorem keep_spec (h : s.Sorted) (os : List LocalOrigin) :
    (s.keep os).Sorted ∧ (∀ source, s.Known source → (s.keep os).Known source) ∧
      (∀ o ∈ os, ∀ l, o.location = some l → (s.keep os).Known o.source) ∧
      ∀ x ∈ (s.keep os).found, x ∈ s.found ∨ ⟨x.source, some x.location⟩ ∈ os := by
  obtain ⟨seen, found⟩ := s
  induction os generalizing found with
  | nil =>
    exact ⟨h, fun _ hk => hk, fun _ ho => absurd ho List.not_mem_nil, fun _ hx => .inl hx⟩
  | cons o os ih =>
    obtain ⟨source, location⟩ := o
    cases location with
    | none =>
      obtain ⟨hs, hk, ho, hx⟩ := ih found h
      refine ⟨hs, hk, List.forall_mem_cons.2 ⟨fun _ hl => (nomatch hl), ho⟩, fun x hm => ?_⟩
      exact (hx x hm).imp id (List.mem_cons_of_mem _)
    | some l =>
      obtain ⟨hs, hk, ho, hx⟩ := ih (Ascending.insert Origin.compare ⟨source, l⟩ found)
        (Ascending.sorted_insert h)
      have known : ∀ k, (∃ x ∈ Ascending.insert Origin.compare ⟨source, l⟩ found,
          sourceRank x.source = k) ↔ sourceRank source = k ∨ ∃ x ∈ found, sourceRank x.source = k :=
        fun k => Ascending.exists_key_insert_iff h
      refine ⟨hs, fun k hm => hk k ((known _).2 (.inr hm)),
        List.forall_mem_cons.2 ⟨fun _ _ => hk source ((known _).2 (.inl rfl)), ho⟩, fun x hm => ?_⟩
      rcases hx x hm with hm | hm
      · rcases Ascending.mem_of_mem_insert hm with rfl | hm
        · exact .inr List.mem_cons_self
        · exact .inl hm
      · exact .inr (List.mem_cons_of_mem _ hm)

end Search

section Equations

variable {f : Frame} {gs : List Frame} {v : Version} {s : Search}

/-- Looks up what a frame knows nothing about in the frames behind it. -/
def descend (gs : List Frame) (s : Search) (o : LocalOrigin) : Search :=
  match o with
  | ⟨some source, none⟩ => search gs source s
  | _ => s

theorem search_seen (h : (f.id, v.id) ∈ s.seen) : search (f :: gs) v s = s := by
  rw [search, if_pos (List.contains_iff_mem.2 h)]

theorem search_up (h : (f.id, v.id) ∉ s.seen) (ho : f.localOrigins v = []) :
    search (f :: gs) v s = search gs v { s with seen := (f.id, v.id) :: s.seen } := by
  rw [search, if_neg fun hc => h (List.contains_iff_mem.1 hc)]
  simp only [ho]

theorem search_found (h : (f.id, v.id) ∉ s.seen) (ho : f.localOrigins v ≠ []) :
    search (f :: gs) v s =
      (f.localOrigins v).reverse.foldl (descend gs)
        (Search.keep { s with seen := (f.id, v.id) :: s.seen } (f.localOrigins v)) := by
  rw [search, if_neg fun hc => h (List.contains_iff_mem.1 hc)]
  split
  · rename_i hn
    exact absurd hn ho
  · rfl

end Equations

/-- What the search keeps for frames that it asks, it keeps when it goes on from all that a frame
knows nothing about. -/
private theorem foldl_descend {gs : List Frame} (inv : Search → Prop) {os : List LocalOrigin}
    (hstep : ∀ source s, ⟨some source, none⟩ ∈ os → inv s → inv (search gs source s)) {s : Search}
    (h : inv s) : inv (os.foldl (descend gs) s) := by
  induction os generalizing s with
  | nil => exact h
  | cons o os ih =>
    refine ih (fun source s hm => hstep source s (List.mem_cons_of_mem _ hm)) ?_
    match o with
    | ⟨some source, none⟩ => exact hstep source s List.mem_cons_self h
    | ⟨none, _⟩ => exact h
    | ⟨some _, some _⟩ => exact h

/-- A search keeps what is kept when the ends found by a lookup are added, for all lookups that it
comes to. -/
theorem search_keeps (comes : List Frame → Version → Prop) (inv : Search → Prop)
    (hseen : ∀ {s seen}, inv s → inv { s with seen := seen })
    (hkeep : ∀ {f gs v s}, comes (f :: gs) v → inv s → inv (s.keep (f.localOrigins v)))
    (hup : ∀ {f gs v}, comes (f :: gs) v → f.localOrigins v = [] → comes gs v)
    (hon : ∀ {f gs v source}, comes (f :: gs) v → ⟨some source, none⟩ ∈ f.localOrigins v →
      comes gs source)
    {gs : List Frame} {v : Version} {s : Search} (hc : comes gs v) (hs : inv s) :
    inv (search gs v s) := by
  induction gs generalizing v s with
  | nil => exact hs
  | cons f gs ih =>
    by_cases hseen' : (f.id, v.id) ∈ s.seen
    · rw [search_seen hseen']
      exact hs
    · by_cases ho : f.localOrigins v = []
      · rw [search_up hseen' ho]
        exact ih (hup hc ho) (hseen hs)
      · rw [search_found hseen' ho]
        exact foldl_descend inv (fun source s hm => ih (hon hc (List.mem_reverse.1 hm)))
          (hkeep hc (hseen hs))

private theorem search_congr {u v : Version} (h : u.id = v.id) (gs : List Frame) (s : Search) :
    search gs u s = search gs v s := by
  induction gs generalizing s with
  | nil => rfl
  | cons f gs ih =>
    have ho := Frame.localOrigins_congr (f := f) h
    by_cases hs : (f.id, u.id) ∈ s.seen
    · rw [search_seen hs, search_seen (h ▸ hs)]
    · by_cases hn : f.localOrigins u = []
      · rw [search_up hs hn, search_up (h ▸ hs) (ho ▸ hn), ih, h]
      · rw [search_found hs hn, search_found (h ▸ hs) (ho ▸ hn), ho, h]

/-- Versions with one identity have the same origins. -/
theorem origins_congr {p : Path} {u v : Version} (h : u.id = v.id) : p.origins u = p.origins v :=
  congrArg Search.found (search_congr h p.frames {})

/-- What was found with a source is the end of a flow of some frames through memory. -/
structure Passing (fs : List Frame) (s : Search) : Prop where
  sorted : s.Sorted
  flow : ∀ o ∈ s.found, ∀ source, o.source = some source →
    ∃ f ∈ fs, ∃ e ∈ f.flows, e.source = source ∧ e.via = some o.location

theorem Passing.keep {f : Frame} {s : Search} (h : Passing fs s) (hf : f ∈ fs) (v : Version) :
    Passing fs (s.keep (f.localOrigins v)) := by
  obtain ⟨hsorted, _, _, hfound⟩ := s.keep_spec h.sorted (f.localOrigins v)
  refine ⟨hsorted, fun o ho source hs => ?_⟩
  rcases hfound o ho with ho | ho
  · exact h.flow o ho source hs
  · have hend := (f.localOrigins_spec v).2.1 _ ho
    rw [hs] at hend
    generalize hl : some o.location = l at hend
    cases hend with
    | passage _ he hv =>
      exact ⟨f, hf, _, (Frame.mem_flows_of_mem_flowsInto he).1, rfl, hv⟩
    | unknown => cases hl

/-- What was loaded from an origin was loaded by a flow of the path. -/
theorem flow_of_mem_origins {p : Path} {o : Origin} {v source : Version} (ho : o ∈ p.origins v)
    (hs : o.source = some source) : ∃ e ∈ p.flows, e.source = source ∧ e.via = some o.location := by
  have initial : Passing p.frames {} := ⟨List.Pairwise.nil, fun _ ho => absurd ho List.not_mem_nil⟩
  have final : Passing p.frames (search p.frames v {}) := by
    refine search_keeps (fun gs _ => gs ⊆ p.frames) (Passing p.frames)
      (fun h => ⟨h.sorted, h.flow⟩) ?_ ?_ ?_ (List.Subset.refl _) initial
    · exact fun hg h => h.keep (List.cons_subset.1 hg).1 _
    · exact fun hg _ => (List.cons_subset.1 hg).2
    · exact fun hg _ => (List.cons_subset.1 hg).2
  obtain ⟨f, hf, e, he, h⟩ := final.flow o ho source hs
  exact ⟨e, List.mem_flatMap.2 ⟨f, hf, he⟩, h⟩

/-- A version that something flows into in one frame is not known to the frames behind it. -/
theorem leadsOn_of_apart {f : Frame} {gs : List Frame} {v : Version} (h : Apart (f :: gs))
    (hv : f.flowsInto v ≠ []) : ∀ g ∈ gs, g.leadsOn v = false := by
  intro g hg
  obtain ⟨e, he⟩ := List.exists_mem_of_ne_nil _ hv
  obtain ⟨he, ht⟩ := Frame.mem_flows_of_mem_flowsInto he
  have older := (List.pairwise_cons.1 h).1 g hg e he
  refine Frame.leadsOn_eq_false.2 ⟨?_, ?_⟩
  · refine List.eq_nil_iff_forall_not_mem.2 fun d hd => ?_
    obtain ⟨hd, htd⟩ := Frame.mem_flows_of_mem_flowsInto hd
    have := older _ (.target hd)
    omega
  · unfold Frame.lastDeposit?
    rw [Option.map_eq_none_iff, List.find?_eq_none]
    intro d hd hi
    have hi : d.version.id = v.id := by simpa using hi
    have := older _ (.deposit hd)
    omega

/-- A frame that has no origin for a version knows nothing about it, or only that it goes round in
circles; then the frames behind it know nothing. -/
private theorem unknown_of_localOrigins_eq_nil {f : Frame} {gs : List Frame} {v : Version}
    (h : Apart (f :: gs)) (ho : f.localOrigins v = []) :
    f.leadsOn v = false ∨ ∀ g ∈ gs, g.leadsOn v = false := by
  by_cases hv : f.flowsInto v = []
  · refine .inl (Frame.leadsOn_eq_false.2 ⟨hv, ?_⟩)
    cases hl : f.lastDeposit? v with
    | none => rfl
    | some l =>
      obtain ⟨o, hm, _⟩ := (f.localOrigins_spec v).2.2 _ (.deposit .refl hv hl)
      exact absurd (ho ▸ hm) List.not_mem_nil
  · exact .inr (leadsOn_of_apart h hv)

/-- What was found are ends of ways to `t`, one for a source. -/
structure Sound (fs : List Frame) (t : Version) (s : Search) : Prop where
  sorted : s.Sorted
  ends : ∀ o ∈ s.found, ∃ u, EndsAt fs t u o.source o.location

theorem Sound.keep {f : Frame} {gs : List Frame} {v : Version} {s : Search} (h : Sound fs t s)
    (hc : ComesTo fs t (f :: gs) v) : Sound fs t (s.keep (f.localOrigins v)) := by
  obtain ⟨hsorted, _, _, hfound⟩ := s.keep_spec h.sorted (f.localOrigins v)
  refine ⟨hsorted, fun o ho => ?_⟩
  rcases hfound o ho with ho | ho
  · exact h.ends o ho
  · have hend := (f.localOrigins_spec v).2.1 _ ho
    generalize hs : o.source = source, hl : some o.location = l at hend
    cases hend with
    | passage hu he hv => exact ⟨_, .passage (hc.leads hu) he (hv.trans hl.symm)⟩
    | deposit hu hn hd => exact ⟨_, .deposit (hc.leads hu) hn (hd.trans hl.symm)⟩
    | unknown => cases hl

/-- The search finds ends of ways only: it comes to lookups on ways, or to frames that know nothing. -/
private theorem search_sound {gs : List Frame} {v : Version} {s : Search} (ha : Apart gs)
    (hc : ComesTo fs t gs v) (hs : Sound fs t s) : Sound fs t (search gs v s) := by
  let comes (gs : List Frame) (v : Version) : Prop :=
    Apart gs ∧ (ComesTo fs t gs v ∨ ∀ g ∈ gs, g.leadsOn v = false)
  have nothing : ∀ {f : Frame} {gs : List Frame} {v}, (∀ g ∈ f :: gs, g.leadsOn v = false) →
      f.localOrigins v = [] := fun h => Frame.localOrigins_eq_nil (h _ List.mem_cons_self)
  refine search_keeps comes (Sound fs t) (fun h => ⟨h.sorted, h.ends⟩) ?_ ?_ ?_ ⟨ha, .inl hc⟩ hs
  · rintro f gs v s ⟨_, hc | hn⟩ h
    · exact h.keep hc
    · rw [nothing hn]
      exact h
  · rintro f gs v ⟨ha, hc | hn⟩ ho
    · exact ⟨(List.pairwise_cons.1 ha).2, (unknown_of_localOrigins_eq_nil ha ho).imp hc.up id⟩
    · exact ⟨(List.pairwise_cons.1 ha).2, .inr fun g hg => hn g (List.mem_cons_of_mem _ hg)⟩
  · rintro f gs v source ⟨ha, hc | hn⟩ ho
    · refine ⟨(List.pairwise_cons.1 ha).2, .inl ?_⟩
      cases (f.localOrigins_spec v).2.1 _ ho with
      | unknown hu he hv hl => exact .up (.along (hc.leads hu) he hv) hl
    · rw [nothing hn] at ho
      cases ho

/-- A version was looked up in the first of some frames, if there is one. -/
def Seen (s : Search) : List Frame → Version → Prop
  | [], _ => True
  | g :: _, v => (g.id, v.id) ∈ s.seen

/-- All that lies behind a lookup in a frame was found or looked up. -/
structure Explored (s : Search) (f : Frame) (gs : List Frame) (v : Version) : Prop where
  located : ∀ o ∈ f.localOrigins v, ∀ l, o.location = some l → s.Known o.source
  above : f.localOrigins v = [] → Seen s gs v
  unknown : ∀ source, ⟨some source, none⟩ ∈ f.localOrigins v → Seen s gs source

/-- What was looked up in some frames was explored. -/
def Complete (s : Search) : List Frame → Prop
  | [] => True
  | f :: gs => (∀ v, (f.id, v.id) ∈ s.seen → Explored s f gs v) ∧ Complete s gs

/-- The second search went on from the first and asked only the given frames. -/
structure Later (gs : List Frame) (s s' : Search) : Prop where
  seen : ∀ x ∈ s.seen, x ∈ s'.seen
  known : ∀ source, s.Known source → s'.Known source
  only : ∀ x ∈ s'.seen, x ∈ s.seen ∨ x.1 ∈ gs.map (·.id)

namespace Later

variable {gs : List Frame} {s s' s'' : Search}

theorem refl (gs : List Frame) (s : Search) : Later gs s s :=
  ⟨fun _ h => h, fun _ h => h, fun _ h => .inl h⟩

theorem trans (h : Later gs s s') (h' : Later gs s' s'') : Later gs s s'' := by
  refine ⟨fun x hx => h'.seen x (h.seen x hx), fun k hk => h'.known k (h.known k hk), fun x hx => ?_⟩
  rcases h'.only x hx with hx | hx
  · exact h.only x hx
  · exact .inr hx

/-- A lookup is noted. -/
theorem note (f : Frame) (v : Version) (s : Search) :
    Later [f] s { s with seen := (f.id, v.id) :: s.seen } := by
  refine ⟨fun x hx => List.mem_cons_of_mem _ hx, fun _ h => h, fun x hx => ?_⟩
  rcases List.mem_cons.1 hx with rfl | hx
  · exact .inr List.mem_cons_self
  · exact .inl hx

theorem weaken {hs : List Frame} (h : Later gs s s') (hg : ∀ g ∈ gs, g ∈ hs) : Later hs s s' := by
  refine ⟨h.seen, h.known, fun x hx => (h.only x hx).imp id fun hi => ?_⟩
  obtain ⟨g, hm, hi⟩ := List.mem_map.1 hi
  exact List.mem_map.2 ⟨g, hg g hm, hi⟩

theorem seenBy (h : Later gs s s') {hs : List Frame} {v : Version} (hv : Seen s hs v) :
    Seen s' hs v := by
  cases hs with
  | nil => trivial
  | cons g hs => exact h.seen _ hv

theorem explored (h : Later gs s s') {f : Frame} {hs : List Frame} {v : Version}
    (hv : Explored s f hs v) : Explored s' f hs v :=
  ⟨fun o ho l hl => h.known _ (hv.located o ho l hl), fun ho => h.seenBy (hv.above ho),
    fun x hx => h.seenBy (hv.unknown x hx)⟩

end Later

theorem Seen.congr {s : Search} {gs : List Frame} {u v : Version} (h : Seen s gs u)
    (hi : u.id = v.id) : Seen s gs v := by
  cases gs with
  | nil => trivial
  | cons g gs =>
    simp only [Seen] at h ⊢
    rw [← hi]
    exact h

theorem Explored.congr {s : Search} {f : Frame} {gs : List Frame} {u v : Version}
    (h : Explored s f gs u) (hi : u.id = v.id) : Explored s f gs v := by
  have ho := Frame.localOrigins_congr (f := f) hi
  exact ⟨ho ▸ h.located, fun hn => (h.above (ho.trans hn)).congr hi, ho ▸ h.unknown⟩

/-- A search of other frames leaves what was looked up in these explored. -/
theorem Complete.mono {gs hs : List Frame} {s s' : Search} (h : Complete s gs) (hl : Later hs s s')
    (hd : ∀ g ∈ gs, g.id ∉ hs.map (·.id)) : Complete s' gs := by
  induction gs with
  | nil => trivial
  | cons g gs ih =>
    obtain ⟨hg, hgs⟩ := List.forall_mem_cons.1 hd
    refine ⟨fun v hv => ?_, ih h.2 hgs⟩
    have hv := (hl.only _ hv).resolve_right hg
    exact hl.explored (h.1 v hv)

/-- What a search for a version in some frames achieves. -/
structure Searched (gs : List Frame) (v : Version) (s s' : Search) : Prop where
  sorted : s'.Sorted
  complete : Complete s' gs
  seen : Seen s' gs v
  later : Later gs s s'

private theorem foldl_descend_searched {gs : List Frame}
    (hstep : ∀ v s, s.Sorted → Complete s gs → Searched gs v s (search gs v s))
    {os : List LocalOrigin} {s : Search} (hs : s.Sorted) (hc : Complete s gs) :
    (os.foldl (descend gs) s).Sorted ∧ Complete (os.foldl (descend gs) s) gs ∧
      Later gs s (os.foldl (descend gs) s) ∧
      ∀ source, ⟨some source, none⟩ ∈ os → Seen (os.foldl (descend gs) s) gs source := by
  induction os generalizing s with
  | nil => exact ⟨hs, hc, .refl gs s, fun _ hm => absurd hm List.not_mem_nil⟩
  | cons o os ih =>
    match o with
    | ⟨some x, none⟩ =>
      have hx := hstep x s hs hc
      obtain ⟨hs', hc', hl, hseen⟩ := ih hx.sorted hx.complete
      refine ⟨hs', hc', hx.later.trans hl, fun source hm => ?_⟩
      rcases List.mem_cons.1 hm with hm | hm
      · cases hm
        exact hl.seenBy hx.seen
      · exact hseen source hm
    | ⟨none, l⟩ | ⟨some x, some l⟩ =>
      obtain ⟨hs', hc', hl, hseen⟩ := ih hs hc
      refine ⟨hs', hc', hl, fun source hm => ?_⟩
      rcases List.mem_cons.1 hm with hm | hm
      · cases hm
      · exact hseen source hm

/-- What was looked up in the first frame is explored once the version at hand is. -/
private theorem complete_cons {f : Frame} {gs : List Frame} {v : Version} {s s' : Search}
    (hf : f.id ∉ gs.map (·.id)) (hc : Complete s (f :: gs)) (hc' : Complete s' gs)
    (hl : Later gs { s with seen := (f.id, v.id) :: s.seen } s') (hv : Explored s' f gs v) :
    Complete s' (f :: gs) := by
  refine ⟨fun u hu => ?_, hc'⟩
  rcases List.mem_cons.1 ((hl.only _ hu).resolve_right hf) with hu | hu
  · exact hv.congr (Prod.mk.inj hu).2.symm
  · exact hl.explored ((Later.note f v s).explored (hc.1 u hu))

/-- Every version that a search comes to is looked up, and what lies behind it is found or looked
up in turn. -/
private theorem search_complete {gs : List Frame} (hd : (gs.map (·.id)).Nodup) (v : Version) (s : Search)
    (hs : s.Sorted) (hc : Complete s gs) : Searched gs v s (search gs v s) := by
  induction gs generalizing v s with
  | nil => exact ⟨hs, trivial, trivial, .refl [] s⟩
  | cons f gs ih =>
    obtain ⟨hf, hd⟩ := List.nodup_cons.1 hd
    by_cases hseen : (f.id, v.id) ∈ s.seen
    · rw [search_seen hseen]
      exact ⟨hs, hc, hseen, .refl _ s⟩
    · have hnote := Later.note f v s
      have apart : ∀ g ∈ gs, g.id ∉ [f].map (·.id) := by
        intro g hg hi
        exact hf (List.mem_map.2 ⟨g, hg, List.mem_singleton.1 hi⟩)
      have hc' : Complete { s with seen := (f.id, v.id) :: s.seen } gs := Complete.mono hc.2 hnote apart
      have later : ∀ {s'}, Later gs { s with seen := (f.id, v.id) :: s.seen } s' →
          Later (f :: gs) s s' := by
        intro s' hl
        refine (hnote.weaken ?_).trans (hl.weaken fun g hg => List.mem_cons_of_mem _ hg)
        exact fun g hg => List.mem_singleton.1 hg ▸ List.mem_cons_self
      by_cases ho : f.localOrigins v = []
      · rw [search_up hseen ho]
        have hr := ih hd v { s with seen := (f.id, v.id) :: s.seen } hs hc'
        refine ⟨hr.sorted, complete_cons hf hc hr.complete hr.later ⟨?_, fun _ => hr.seen, ?_⟩,
          hr.later.seen _ List.mem_cons_self, later hr.later⟩
        · rw [ho]
          exact fun _ hm => absurd hm List.not_mem_nil
        · rw [ho]
          exact fun _ hm => absurd hm List.not_mem_nil
      · rw [search_found hseen ho]
        obtain ⟨hsorted, hknown, hlocated, _⟩ :=
          Search.keep_spec (s := { s with seen := (f.id, v.id) :: s.seen }) hs (f.localOrigins v)
        have hkeep : Later [] { s with seen := (f.id, v.id) :: s.seen }
            (Search.keep { s with seen := (f.id, v.id) :: s.seen } (f.localOrigins v)) :=
          ⟨fun _ h => h, hknown, fun _ h => .inl h⟩
        have hkept := hc'.mono hkeep fun _ _ => List.not_mem_nil
        obtain ⟨hs', hc'', hl, hunknown⟩ :=
          foldl_descend_searched (ih hd) hsorted hkept
        have hl' := (hkeep.weaken fun _ hg => absurd hg List.not_mem_nil).trans hl
        refine ⟨hs', complete_cons hf hc hc'' hl' ⟨?_, fun hn => absurd hn ho, ?_⟩,
          hl'.seen _ List.mem_cons_self, later hl'⟩
        · exact fun o hm l hloc => hl.known _ (hlocated o hm l hloc)
        · exact fun source hm => hunknown source (List.mem_reverse.2 hm)

theorem Complete.suffix {s : Search} {gs hs : List Frame} (h : Complete s hs) (hg : gs <:+ hs) :
    Complete s gs := by
  induction hs with
  | nil =>
    rw [List.suffix_nil.1 hg]
    trivial
  | cons f hs ih =>
    rcases List.suffix_cons_iff.1 hg with rfl | hg
    · exact h
    · exact ih h.2 hg

/-- Where no frame disturbs the search, an end within a frame is answered by one of its kind. -/
private theorem answered_alike {f : Frame} {gs : List Frame} {v : Version} {o : LocalOrigin}
    (hd : Undisturbed fs t) (hc : ComesTo fs t (f :: gs) v) (ho : f.End v o) :
    ∃ x ∈ f.localOrigins v, sourceRank x.source = sourceRank o.source ∧
      x.location.isSome = o.location.isSome := by
  obtain ⟨_, hsound, hcomplete⟩ := f.localOrigins_spec v
  obtain ⟨x, hx, hr⟩ := hcomplete o ho
  refine ⟨x, hx, hr, ?_⟩
  have ids : ∀ {a b : Version}, sourceRank (some a) = sourceRank (some b) → a.id = b.id := by
    intro a b h
    simpa [sourceRank] using h
  cases ho with
  | passage hu he hv =>
    cases hsound x hx with
    | passage | deposit => rfl
    | unknown hu' he' hv' hs =>
      exact absurd (ids hr) (hd (hc.leads hu') he' hv' hs (hc.leads hu) he (by simp [hv]))
  | deposit =>
    cases hsound x hx with
    | passage | deposit => rfl
    | unknown => cases hr
  | unknown hu he hv hs =>
    cases hsound x hx with
    | passage hu' he' hv' =>
      exact absurd (ids hr).symm (hd (hc.leads hu) he hv hs (hc.leads hu') he' (by simp [hv']))
    | deposit => cases hr
    | unknown => rfl

/-- Where no frame disturbs the search, every version on a way is led to from one that was looked up
in the frame at hand. -/
private theorem seen_of_comesTo {s : Search} (hd : Undisturbed fs t) (hc : Complete s fs)
    (hs : Seen s fs t) {f : Frame} {gs : List Frame} {u : Version} (h : ComesTo fs t (f :: gs) u) :
    ∃ v, Seen s (f :: gs) v ∧ ComesTo fs t (f :: gs) v ∧ f.Leads v u := by
  generalize hg : f :: gs = hs' at h
  induction h generalizing f gs with
  | start =>
    subst hg
    exact ⟨t, hs, .start, .refl⟩
  | along h he hv ih =>
    cases hg
    obtain ⟨v, hseen, hcome, hlead⟩ := ih rfl
    exact ⟨v, hseen, hcome, .step hlead he hv⟩
  | @up g hs u h hu ih =>
    subst hg
    refine ⟨u, ?_, .up h hu, .refl⟩
    obtain ⟨v, hseen, hcome, hlead⟩ := ih rfl
    have hexp := (hc.suffix h.suffix).1 v hseen
    cases hlead with
    | refl => exact hexp.above (Frame.localOrigins_eq_nil hu)
    | step hlead he hv =>
      obtain ⟨⟨source, location⟩, hx, hr, hl⟩ := answered_alike hd hcome (.unknown hlead he hv hu)
      obtain rfl : location = none := by simpa using hl
      cases source with
      | none => cases hr
      | some x => exact (hexp.unknown x hx).congr (by simpa [sourceRank] using hr)

/-- The origins of a version, in the order of their sources, are ends of ways to it. Where no frame
disturbs the search, every source that a way ends with has its origin. -/
theorem origins_spec {p : Path} (ha : Apart p.frames) (hi : (p.frames.map (·.id)).Nodup)
    (t : Version) :
    Ascending.Sorted (fun o : Origin => sourceRank o.source) (p.origins t) ∧
      (∀ o ∈ p.origins t, ∃ u, EndsAt p.frames t u o.source o.location) ∧
      (Undisturbed p.frames t → ∀ u source l, EndsAt p.frames t u source l →
        ∃ o ∈ p.origins t, sourceRank o.source = sourceRank source) := by
  have hsound := search_sound ha .start
    (⟨List.Pairwise.nil, fun _ ho => absurd ho List.not_mem_nil⟩ : Sound p.frames t {})
  have hempty : Complete {} p.frames := by
    induction p.frames with
    | nil => trivial
    | cons f gs ih => exact ⟨fun _ hv => absurd hv List.not_mem_nil, ih⟩
  have hsearched := search_complete hi t {} List.Pairwise.nil hempty
  refine ⟨hsound.sorted, hsound.ends, fun hd u source l hend => ?_⟩
  have located : ∀ {f gs u o l}, ComesTo p.frames t (f :: gs) u → (∀ {v}, f.Leads v u → f.End v o) →
      o.location = some l → ∃ x ∈ p.origins t, sourceRank x.source = sourceRank o.source := by
    intro f gs u o l hcome hend hl
    obtain ⟨v, hseen, hcome', hlead⟩ := seen_of_comesTo hd hsearched.complete hsearched.seen hcome
    obtain ⟨x, hx, hr, hloc⟩ := answered_alike hd hcome' (hend hlead)
    rw [hl] at hloc
    obtain ⟨l', hl'⟩ := Option.isSome_iff_exists.1 hloc
    obtain ⟨y, hy, hr'⟩ := ((hsearched.complete.suffix hcome.suffix).1 v hseen).located x hx l' hl'
    exact ⟨y, hy, hr'.trans hr⟩
  cases hend with
  | passage h he hv =>
    exact located (o := ⟨some _, some l⟩) h (fun hlead => .passage hlead he hv) rfl
  | deposit h hu hl => exact located (o := ⟨none, some l⟩) h (fun hlead => .deposit hlead hu hl) rfl

/-- Answers to the question which locations stand in a relation with which sources: each is right,
and every source is answered, once. -/
structure Answers (related : Option Version → Location → Prop) (os : List Origin) : Prop where
  sorted : Ascending.Sorted (fun o : Origin => sourceRank o.source) os
  sound : ∀ o ∈ os, related o.source o.location
  complete : ∀ source l, related source l → ∃ o ∈ os, o.source = source

namespace Answers

variable {related : Option Version → Location → Prop} {os : List Origin}

theorem congr (h : Answers related os) {other : Option Version → Location → Prop}
    (hr : ∀ source l, related source l ↔ other source l) : Answers other os :=
  ⟨h.sorted, fun o ho => (hr _ _).1 (h.sound o ho),
    fun source l hl => h.complete source l ((hr _ _).2 hl)⟩

theorem eq_of_source_eq (h : Answers related os) {o o' : Origin} (ho : o ∈ os) (ho' : o' ∈ os)
    (hs : o.source = o'.source) : o = o' :=
  Ascending.eq_of_key_eq h.sorted ho ho' (congrArg sourceRank hs)

theorem existsUnique (h : Answers related os) {source : Option Version} {l : Location}
    (hr : related source l) : ∃! o, o ∈ os ∧ o.source = source := by
  obtain ⟨o, ho, hs⟩ := h.complete source l hr
  refine ⟨o, ⟨ho, hs⟩, fun o' ho' => ?_⟩
  exact h.eq_of_source_eq ho'.1 ho (ho'.2.trans hs.symm)

/-- Nothing is missed if and only if no source has two locations. -/
theorem all_iff (h : Answers related os) :
    (∀ source l, related source l → ⟨source, l⟩ ∈ os) ↔
      ∀ source l l', related source l → related source l' → l = l' := by
  constructor
  · intro hall source l l' hr hr'
    have := h.eq_of_source_eq (hall source l hr) (hall source l' hr') rfl
    exact congrArg Origin.location this
  · intro hone source l hr
    obtain ⟨o, ho, rfl⟩ := h.complete source l hr
    rw [hone o.source l o.location hr (h.sound o ho)]
    exact ho

theorem missed_iff (h : Answers related os) (l : Location) :
    (∀ o ∈ os, o.location ≠ l) ↔
      ∀ source, related source l → ∃ o ∈ os, o.source = source ∧ o.location ≠ l := by
  constructor
  · intro hmiss source hr
    obtain ⟨o, ho, hs⟩ := h.complete source l hr
    exact ⟨o, ho, hs, hmiss o ho⟩
  · rintro hother o ho rfl
    obtain ⟨o', ho', hs, hne⟩ := hother o.source (h.sound o ho)
    rw [h.eq_of_source_eq ho' ho hs] at hne
    exact hne rfl

end Answers

/-- The sources that ways end with are versions of the path. -/
theorem EndsAt.created {p : Path} (hc : p.Closed) {u v : Version} {l : Location}
    (h : EndsAt p.frames t u (some v) l) : v ∈ p.versions := by
  cases h with
  | passage h he hv =>
    have hf := h.suffix.subset List.mem_cons_self
    have he := (Frame.mem_flows_of_mem_flowsInto he).1
    exact (hc.flows _ (List.mem_flatMap.2 ⟨_, hf, he⟩)).2.1

/-- A path that does not disturb the search answers with ends of ways. -/
theorem chain_answers {n : Nat} {p : Path} (hc : p.Closed) (hn : p.Numbered n)
    (ha : Apart p.frames) (hd : Undisturbed p.frames t) :
    Answers (fun source l => ∃ u, EndsAt p.frames t u source l) (p.origins t) := by
  have ids : (p.frames.map (·.id)).Nodup := hn.frames.imp fun h => Nat.ne_of_gt h
  obtain ⟨hsorted, hsound, hcomplete⟩ := origins_spec ha ids t
  refine ⟨hsorted, hsound, ?_⟩
  rintro source l ⟨u, hu⟩
  obtain ⟨o, ho, hr⟩ := hcomplete hd u source l hu
  obtain ⟨u', hu'⟩ := hsound o ho
  refine ⟨o, ho, ?_⟩
  generalize o.source = a at hr hu'
  -- Sources with one identity are one version.
  cases a with
  | none =>
    cases source with
    | none => rfl
    | some => cases hr
  | some a =>
    cases source with
    | none => cases hr
    | some b =>
      have hi : a.id = b.id := by simpa [sourceRank] using hr
      rw [hn.version_eq (hu'.created hc) (hu.created hc) hi]

end Path

end PathSlice
