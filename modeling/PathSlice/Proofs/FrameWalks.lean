import PathSlice.Path.Origin
import PathSlice.Proofs.PathJournals

/-! The walk through one frame, against the ways it stands for. What it finds are ends of ways that
lead to the version asked about, and it finds an end for every source that such a way ends with.
Of several ends with one source only one is kept. -/
namespace PathSlice

namespace Frame

variable {f : Frame} {t : Version}

/-- The frame leads from `t` back to a version along flows that go through no location. -/
inductive Leads (f : Frame) (t : Version) : Version → Prop
  | refl : Leads f t t
  | step {u : Version} {e : Flow} (h : Leads f t u) (he : e ∈ f.flowsInto u) (hv : e.via = none) :
      Leads f t e.source

/-- The ways to `t` within the frame end at a passage through a location, where a version without
sources was put, or at a version that the frame knows nothing about. -/
inductive End (f : Frame) (t : Version) : LocalOrigin → Prop
  | passage {u : Version} {e : Flow} {l : Location} (h : f.Leads t u) (he : e ∈ f.flowsInto u)
      (hv : e.via = some l) : End f t ⟨some e.source, some l⟩
  | deposit {u : Version} {l : Location} (h : f.Leads t u) (hu : f.flowsInto u = [])
      (hl : f.lastDeposit? u = some l) : End f t ⟨none, some l⟩
  | unknown {u : Version} {e : Flow} (h : f.Leads t u) (he : e ∈ f.flowsInto u)
      (hv : e.via = none) (hs : f.leadsOn e.source = false) : End f t ⟨some e.source, none⟩

section Identity

variable {u v : Version}

theorem flowsInto_congr (h : u.id = v.id) : f.flowsInto u = f.flowsInto v := by
  unfold flowsInto
  rw [h]

private theorem lastDeposit?_congr (h : u.id = v.id) : f.lastDeposit? u = f.lastDeposit? v := by
  unfold lastDeposit?
  rw [h]

end Identity

theorem leadsOn_of_mem {u : Version} {e : Flow} (he : e ∈ f.flowsInto u) : f.leadsOn u = true := by
  unfold leadsOn
  cases h : f.flowsInto u with
  | nil => exact absurd (h ▸ he) List.not_mem_nil
  | cons => rfl

private theorem leadsOn_of_lastDeposit? {u : Version} {l : Location} (hl : f.lastDeposit? u = some l) :
    f.leadsOn u = true := by
  unfold leadsOn
  rw [hl]
  simp

theorem leadsOn_eq_false {u : Version} :
    f.leadsOn u = false ↔ f.flowsInto u = [] ∧ f.lastDeposit? u = none := by
  unfold leadsOn
  simp

/-- Ends are kept by source. -/
def rank (o : LocalOrigin) : Nat :=
  sourceRank o.source

/-- Some end with the given source is kept. -/
def Answered (found : List LocalOrigin) (source : Option Version) : Prop :=
  ∃ o ∈ found, rank o = sourceRank source

/-- What a walk has found and what it will walk on from belongs to ways to `t`. -/
structure Underway (f : Frame) (t : Version) (w : Walk) : Prop where
  sorted : Ascending.Sorted rank w.found
  sound : ∀ o ∈ w.found, f.End t o
  stack : ∀ u ∈ w.stack, f.Leads t u

/-- The second walk went on from the first. -/
structure Onward (w w' : Walk) : Prop where
  pending : ∀ i ∈ w'.pending, i ∈ w.pending
  answered : ∀ s, Answered w.found s → Answered w'.found s
  stack : ∀ u ∈ w.stack, u ∈ w'.stack
  met : ∀ i ∈ w.pending, i ∉ w'.pending → ∃ u ∈ w'.stack, u.id = i

/-- What lies behind a flow was found or come across. -/
structure Followed (f : Frame) (w : Walk) (e : Flow) : Prop where
  answered : e.via.isSome ∨ f.leadsOn e.source = false → Answered w.found (some e.source)
  met : e.via = none → f.leadsOn e.source = true → e.source.id ∉ w.pending

namespace Onward

variable {w w' w'' : Walk}

theorem refl (w : Walk) : Onward w w :=
  ⟨fun _ h => h, fun _ h => h, fun _ h => h, fun _ h h' => absurd h h'⟩

theorem trans (h : Onward w w') (h' : Onward w' w'') : Onward w w'' := by
  refine ⟨fun i hi => h.pending i (h'.pending i hi), fun s hs => h'.answered s (h.answered s hs),
    fun u hu => h'.stack u (h.stack u hu), fun i hi hi' => ?_⟩
  by_cases hp : i ∈ w'.pending
  · exact h'.met i hp hi'
  · obtain ⟨u, hu, rfl⟩ := h.met i hi hp
    exact ⟨u, h'.stack u hu, rfl⟩

private theorem followed (h : Onward w w') {e : Flow} (he : f.Followed w e) : f.Followed w' e :=
  ⟨fun hv => h.answered _ (he.answered hv), fun hv hs hp => he.met hv hs (h.pending _ hp)⟩

end Onward

section Put

variable {w : Walk} {o : LocalOrigin}

private theorem answered_put (found : List LocalOrigin) (o : LocalOrigin) :
    Answered (Ascending.put LocalOrigin.compare o found) o.source :=
  ⟨o, Ascending.mem_put _ o found, rfl⟩

theorem Underway.put (h : f.Underway t w) (ho : f.End t o) :
    f.Underway t { w with found := Ascending.put LocalOrigin.compare o w.found } := by
  refine ⟨Ascending.sorted_put h.sorted, fun x hx => ?_, h.stack⟩
  rcases Ascending.mem_of_mem_put hx with rfl | hx
  · exact ho
  · exact h.sound x hx

/-- An end that replaces another one answers for its source. -/
theorem Onward.put (h : f.Underway t w) (o : LocalOrigin) :
    Onward w { w with found := Ascending.put LocalOrigin.compare o w.found } := by
  refine ⟨fun _ h => h, ?_, fun _ h => h, fun _ h h' => absurd h h'⟩
  rintro s ⟨x, hx, hs⟩
  by_cases hr : rank x = rank o
  · exact ⟨o, Ascending.mem_put _ o w.found, hr ▸ hs⟩
  · exact ⟨x, (Ascending.mem_put_iff h.sorted).2 (.inr ⟨hx, hr⟩), hs⟩

end Put

/-- One flow is followed. -/
private theorem follow_step {w : Walk} {u : Version} {e : Flow} (h : f.Underway t w) (hu : f.Leads t u)
    (he : e ∈ f.flowsInto u) :
    f.Underway t (f.follow w e) ∧ Onward w (f.follow w e) ∧ f.Followed (f.follow w e) e := by
  unfold follow
  split
  · rename_i hv
    obtain ⟨l, hl⟩ := Option.isSome_iff_exists.1 hv
    refine ⟨h.put (hl ▸ .passage hu he hl), .put h _, fun _ => answered_put _ _, fun hn => ?_⟩
    rw [hl] at hn
    cases hn
  · rename_i hv
    have hv : e.via = none := by simpa using hv
    split
    · rename_i hs
      have skip : ¬ (e.via.isSome ∨ f.leadsOn e.source = false) := by simp [hv, hs]
      split
      · refine ⟨⟨h.sorted, h.sound, List.forall_mem_cons.2 ⟨.step hu he hv, h.stack⟩⟩,
          ⟨fun i hi => (Agenda.mem_without.1 hi).1, fun _ h => h,
            fun _ hm => List.mem_cons_of_mem _ hm, fun i hi hi' => ?_⟩,
          fun hd => absurd hd skip, fun _ _ hp => (Agenda.mem_without.1 hp).2 rfl⟩
        have hs : i = e.source.id := by
          by_contra hne
          exact hi' (Agenda.mem_without.2 ⟨hi, hne⟩)
        exact ⟨e.source, List.mem_cons_self, hs.symm⟩
      · rename_i hp
        exact ⟨h, .refl w, fun hd => absurd hd skip, fun _ _ => hp⟩
    · rename_i hs
      have hs : f.leadsOn e.source = false := by simpa using hs
      refine ⟨h.put (.unknown hu he hv hs), .put h _, fun _ => answered_put _ _, fun _ hon => ?_⟩
      rw [hs] at hon
      cases hon

theorem foldl_follow {w : Walk} {u : Version} {es : List Flow} (h : f.Underway t w)
    (hu : f.Leads t u) (he : ∀ e ∈ es, e ∈ f.flowsInto u) :
    f.Underway t (es.foldl f.follow w) ∧ Onward w (es.foldl f.follow w) ∧
      ∀ e ∈ es, f.Followed (es.foldl f.follow w) e := by
  induction es generalizing w with
  | nil => exact ⟨h, .refl w, fun _ hm => absurd hm List.not_mem_nil⟩
  | cons e es ih =>
    obtain ⟨he, hes⟩ := List.forall_mem_cons.1 he
    obtain ⟨hstep, hon, hfol⟩ := follow_step h hu he
    obtain ⟨hrest, hon', hfols⟩ := ih hstep hes
    exact ⟨hrest, hon.trans hon', List.forall_mem_cons.2 ⟨hon'.followed hfol, hfols⟩⟩

/-- All that lies behind a version was found or come across. -/
structure Expanded (f : Frame) (w : Walk) (u : Version) : Prop where
  deposit : f.flowsInto u = [] → ∀ l, f.lastDeposit? u = some l → Answered w.found none
  flows : ∀ e ∈ f.flowsInto u, f.Followed w e

theorem Expanded.congr {w : Walk} {u v : Version} (h : f.Expanded w u) (hi : u.id = v.id) :
    f.Expanded w v := by
  constructor
  · rw [← flowsInto_congr hi, ← lastDeposit?_congr hi]
    exact h.deposit
  · rw [← flowsInto_congr hi]
    exact h.flows

private theorem Onward.expanded {w w' : Walk} {u : Version} (h : Onward w w') (hu : f.Expanded w u) :
    f.Expanded w' u :=
  ⟨fun hn l hl => h.answered _ (hu.deposit hn l hl), fun e he => h.followed (hu.flows e he)⟩

/-- A version on a way to `t` that was come across is to be walked on from, or expanded. -/
def Covered (f : Frame) (t : Version) (w : Walk) : Prop :=
  ∀ u, f.Leads t u → u.id ∉ w.pending → (∃ v ∈ w.stack, v.id = u.id) ∨ f.Expanded w u

/-- The topmost version is taken from the stack and expanded. -/
theorem Covered.pop {w w' : Walk} {v : Version} {rest : List Version} (h : f.Covered t w)
    (hw : w.stack = v :: rest) (hon : Onward ⟨w.pending, rest, w.found⟩ w')
    (hv : f.Expanded w' v) : f.Covered t w' := by
  intro u hu hp
  by_cases hold : u.id ∈ w.pending
  · exact .inl (hon.met u.id hold hp)
  · rcases h u hu hold with ⟨x, hx, hi⟩ | hexp
    · rw [hw] at hx
      rcases List.mem_cons.1 hx with rfl | hx
      · exact .inr (hv.congr hi)
      · exact .inl ⟨x, hon.stack x hx, hi⟩
    · have : f.Expanded ⟨w.pending, rest, w.found⟩ u := ⟨hexp.deposit, fun e he =>
        ⟨(hexp.flows e he).answered, (hexp.flows e he).met⟩⟩
      exact .inr (hon.expanded this)

section Equations

variable {w : Walk} {v : Version} {rest : List Version}

theorem walk_nil (hw : w.stack = []) : f.walk w = w.found := by
  rw [walk]
  split
  · rfl
  · rename_i h
    cases hw.symm.trans h

theorem walk_deposit {l : Location} (hw : w.stack = v :: rest) (hv : f.flowsInto v = [])
    (hl : f.lastDeposit? v = some l) :
    f.walk w =
      f.walk ⟨w.pending, rest, Ascending.put LocalOrigin.compare ⟨none, some l⟩ w.found⟩ := by
  rw [walk]
  split
  · rename_i h
    cases hw.symm.trans h
  · rename_i h
    cases hw.symm.trans h
    simp only [hv, hl]

theorem walk_unknown (hw : w.stack = v :: rest) (hv : f.flowsInto v = [])
    (hl : f.lastDeposit? v = none) : f.walk w = f.walk ⟨w.pending, rest, w.found⟩ := by
  rw [walk]
  split
  · rename_i h
    cases hw.symm.trans h
  · rename_i h
    cases hw.symm.trans h
    simp only [hv, hl]

theorem walk_flows {e : Flow} {es : List Flow} (hw : w.stack = v :: rest)
    (hv : f.flowsInto v = e :: es) :
    f.walk w = f.walk ((e :: es).foldl f.follow ⟨w.pending, rest, w.found⟩) := by
  rw [walk]
  split
  · rename_i h
    cases hw.symm.trans h
  · rename_i h
    cases hw.symm.trans h
    simp only [hv]

end Equations

/-- When the stack is worked off, every version on a way to `t` that was come across is expanded. -/
private theorem walk_spec {w : Walk} (h : f.Underway t w) (hc : f.Covered t w) :
    ∃ pending, (∀ i ∈ pending, i ∈ w.pending) ∧ f.Underway t ⟨pending, [], f.walk w⟩ ∧
      f.Covered t ⟨pending, [], f.walk w⟩ := by
  induction w using walk.induct f with
  | case1 w hw =>
    rw [walk_nil hw]
    refine ⟨w.pending, fun _ hi => hi, ⟨h.sorted, h.sound, fun _ hu => absurd hu List.not_mem_nil⟩, ?_⟩
    intro u hu hp
    rcases hc u hu hp with ⟨v, hv, _⟩ | hexp
    · exact absurd (hw ▸ hv) List.not_mem_nil
    · exact .inr ⟨hexp.deposit, fun e he => ⟨(hexp.flows e he).answered, (hexp.flows e he).met⟩⟩
  | case2 w v rest hw hv l hl ih =>
    obtain ⟨hlead, hrest⟩ := List.forall_mem_cons.1 (hw ▸ h.stack)
    have hunder : f.Underway t ⟨w.pending, rest, w.found⟩ := ⟨h.sorted, h.sound, hrest⟩
    rw [walk_deposit hw hv hl]
    refine ih (hunder.put (.deposit hlead hv hl)) (hc.pop hw (.put hunder _) ⟨?_, ?_⟩)
    · exact fun _ _ _ => answered_put _ _
    · rw [hv]
      exact fun _ he => absurd he List.not_mem_nil
  | case3 w v rest hw hv hl ih =>
    obtain ⟨hlead, hrest⟩ := List.forall_mem_cons.1 (hw ▸ h.stack)
    rw [walk_unknown hw hv hl]
    refine ih ⟨h.sorted, h.sound, hrest⟩ (hc.pop hw (.refl _) ⟨?_, ?_⟩)
    · intro _ l hl'
      rw [hl] at hl'
      cases hl'
    · rw [hv]
      exact fun _ he => absurd he List.not_mem_nil
  | case4 w v rest hw e es hv _ ih =>
    obtain ⟨hlead, hrest⟩ := List.forall_mem_cons.1 (hw ▸ h.stack)
    have hes : ∀ d ∈ e :: es, d ∈ f.flowsInto v := fun _ hd => hv ▸ hd
    have hunder : f.Underway t ⟨w.pending, rest, w.found⟩ := ⟨h.sorted, h.sound, hrest⟩
    obtain ⟨hunder', hon, hfol⟩ := foldl_follow hunder hlead hes
    have hexp : f.Expanded ((e :: es).foldl f.follow ⟨w.pending, rest, w.found⟩) v := by
      refine ⟨fun hn => ?_, fun d hd => hfol d (hv ▸ hd)⟩
      cases hv.symm.trans hn
    obtain ⟨pending, hp, hend⟩ := ih hunder' (hc.pop hw hon hexp)
    rw [walk_flows hw hv]
    exact ⟨pending, fun i hi => hon.pending i (hp i hi), hend⟩

private theorem underway_initial : f.Underway t
    ⟨Agenda.without t.id (f.flows.map (·.source.id)), [t], []⟩ where
  sorted := List.Pairwise.nil
  sound _ ho := absurd ho List.not_mem_nil
  stack u hu := by
    rw [List.mem_singleton.1 hu]
    exact .refl

private theorem covered_initial : f.Covered t
    ⟨Agenda.without t.id (f.flows.map (·.source.id)), [t], []⟩ := by
  intro u hu hp
  refine .inl ⟨t, List.mem_singleton_self t, ?_⟩
  cases hu with
  | refl => rfl
  | step h he hv =>
    by_contra hne
    have hmem := (mem_flows_of_mem_flowsInto he).1
    exact hp (Agenda.mem_without.2 ⟨List.mem_map_of_mem hmem, Ne.symm hne⟩)

/-- The walk keeps ends of ways only, one for every source. -/
theorem localOrigins_spec (f : Frame) (t : Version) :
    Ascending.Sorted rank (f.localOrigins t) ∧ (∀ o ∈ f.localOrigins t, f.End t o) ∧
      ∀ o, f.End t o → Answered (f.localOrigins t) o.source := by
  obtain ⟨pending, hp, hunder, hcov⟩ := walk_spec (underway_initial (f := f) (t := t)) covered_initial
  refine ⟨hunder.sorted, hunder.sound, ?_⟩
  have start : t.id ∉ pending := fun hi => (Agenda.mem_without.1 (hp _ hi)).2 rfl
  have off : ∀ u, f.Leads t u → u.id ∉ pending → f.Expanded ⟨pending, [], f.localOrigins t⟩ u :=
    fun u hu hi => (hcov u hu hi).resolve_left fun ⟨_, hv, _⟩ => List.not_mem_nil hv
  -- By induction on the way: a version that the frame knows something about was come across.
  have met : ∀ u, f.Leads t u → f.leadsOn u = true →
      f.Expanded ⟨pending, [], f.localOrigins t⟩ u := by
    intro u hu
    induction hu with
    | refl => exact fun _ => off t .refl start
    | step hu he hv ih =>
      intro hon
      have hexp := ih (leadsOn_of_mem he)
      exact off _ (.step hu he hv) ((hexp.flows _ he).met hv hon)
  intro o ho
  cases ho with
  | passage hu he hv =>
    exact ((met _ hu (leadsOn_of_mem he)).flows _ he).answered (.inl (by simp [hv]))
  | deposit hu hn hl => exact (met _ hu (leadsOn_of_lastDeposit? hl)).deposit hn _ hl
  | unknown hu he hv hs => exact ((met _ hu (leadsOn_of_mem he)).flows _ he).answered (.inr hs)

/-- A version that the frame knows nothing about has no origin in it. -/
theorem localOrigins_eq_nil {v : Version} (h : f.leadsOn v = false) : f.localOrigins v = [] := by
  obtain ⟨hv, hl⟩ := leadsOn_eq_false.1 h
  unfold localOrigins
  rw [walk_unknown rfl hv hl, walk_nil rfl]

theorem localOrigins_congr {u v : Version} (h : u.id = v.id) : f.localOrigins u = f.localOrigins v := by
  have hflows : f.flowsInto u = f.flowsInto v := flowsInto_congr h
  have hdeposit : f.lastDeposit? u = f.lastDeposit? v := lastDeposit?_congr h
  unfold localOrigins
  rw [h]
  generalize Agenda.without v.id (f.flows.map (·.source.id)) = pending
  cases hv : f.flowsInto v with
  | cons e es =>
    rw [walk_flows (w := ⟨pending, [u], []⟩) rfl (hflows.trans hv),
      walk_flows (w := ⟨pending, [v], []⟩) rfl hv]
  | nil =>
    cases hl : f.lastDeposit? v with
    | some l =>
      rw [walk_deposit (w := ⟨pending, [u], []⟩) rfl (hflows.trans hv) (hdeposit.trans hl),
        walk_deposit (w := ⟨pending, [v], []⟩) rfl hv hl]
    | none =>
      rw [walk_unknown (w := ⟨pending, [u], []⟩) rfl (hflows.trans hv) (hdeposit.trans hl),
        walk_unknown (w := ⟨pending, [v], []⟩) rfl hv hl]

end Frame

end PathSlice
