import PathSlice.Proofs.CoreStores

/-! Identities tell the order of creation. All of them come from one supply, and every frame takes
its own from a stretch that begins behind all that its history has. So what an inner frame created
is younger than what an outer one did, and as every frame lists the youngest first, the first thing
that a lookup comes across is the youngest of its kind. -/
namespace PathSlice

/-- The identity of a frame and those of what it created. -/
def Frame.identities (f : Frame) : List Nat :=
  f.id :: (f.versions.map (·.id) ++ f.locations.map (·.id))

/-- Every frame has identities of its own, which are below `n` and above those of the frames behind
it. -/
inductive Aged : Nat → List Frame → Prop
  | nil {n : Nat} : Aged n []
  | cons {m n : Nat} {f : Frame} {fs : List Frame} (h : Aged m fs) (distinct : f.identities.Nodup)
      (stretch : ∀ i ∈ f.identities, m ≤ i ∧ i < n) : Aged n (f :: fs)

namespace Aged

variable {m n : Nat} {f f' : Frame} {fs : List Frame}

theorem lt_of_mem (h : Aged n fs) : ∀ g ∈ fs, ∀ i ∈ g.identities, i < n := by
  induction h with
  | nil => simp
  | @cons m n f fs _ _ stretch ih =>
    intro g hg i hi
    rcases List.mem_cons.1 hg with rfl | hg
    · exact (stretch i hi).2
    · have here := stretch f.id List.mem_cons_self
      have there := ih g hg i hi
      omega

theorem older (h : Aged n fs) :
    fs.Pairwise fun f g => ∀ i ∈ g.identities, ∀ j ∈ f.identities, i < j := by
  induction h with
  | nil => exact .nil
  | cons h _ stretch ih =>
    apply List.pairwise_cons.2 ⟨?_, ih⟩
    intro g hg i hi j hj
    exact Nat.lt_of_lt_of_le (h.lt_of_mem g hg i hi) (stretch j hj).1

theorem nodup (h : Aged n fs) : (fs.flatMap (·.identities)).Nodup := by
  induction h with
  | nil => exact .nil
  | @cons m n f fs h distinct stretch ih =>
    apply List.nodup_append.2 ⟨distinct, ih, ?_⟩
    intro i hi j hj
    obtain ⟨g, hg, hj⟩ := List.mem_flatMap.1 hj
    have old := h.lt_of_mem g hg j hj
    have new := (stretch i hi).1
    omega

theorem mono (h : Aged m fs) (hm : m ≤ n) : Aged n fs := by
  cases h with
  | nil => exact .nil
  | cons h distinct stretch =>
    exact .cons h distinct fun i hi => ⟨(stretch i hi).1, Nat.lt_of_lt_of_le (stretch i hi).2 hm⟩

/-- What creates nothing changes no identity. -/
theorem keep (h : Aged n (f :: fs)) (hf : f'.identities = f.identities) : Aged n (f' :: fs) := by
  cases h with
  | cons h distinct stretch => exact .cons h (hf ▸ distinct) (hf ▸ stretch)

/-- The innermost frame takes the next identity. -/
theorem grow (h : Aged n (f :: fs)) (hf : f'.identities.Perm (n :: f.identities)) :
    Aged (n + 1) (f' :: fs) := by
  cases h with
  | @cons m _ _ _ h distinct stretch =>
    refine .cons h (hf.nodup_iff.2 (List.nodup_cons.2 ⟨?_, distinct⟩)) ?_
    · intro hn
      exact Nat.lt_irrefl n (stretch n hn).2
    · intro i hi
      have here := stretch f.id List.mem_cons_self
      rcases List.mem_cons.1 (hf.mem_iff.1 hi) with rfl | hi
      · omega
      · have := stretch i hi
        omega

/-- A new frame may skip identities. -/
theorem push (h : Aged n fs) (hm : n ≤ m) : Aged (m + 1) ({ id := m } :: fs) := by
  apply cons h
  · simp [Frame.identities]
  · simp [Frame.identities, hm]

theorem tail (h : Aged n (f :: fs)) : Aged n fs := by
  cases h with
  | cons h _ stretch =>
    have here := stretch f.id List.mem_cons_self
    exact h.mono (by omega)

end Aged

theorem Move.aged {n : Nat} {s t : State} (h : Move n s t) (hs : Aged s.next s.path.frames) :
    Aged t.next t.path.frames := by
  have location (l : Location) :
      (s.path.current.addLocation l).identities.Perm (l.id :: s.path.current.identities) :=
    (List.perm_middle.cons _).trans (.swap _ _ _)
  cases h with
  | version => exact hs.grow (.swap _ _ _)
  | location => exact hs.grow (location _)
  | element hb hx =>
    rw [Recorder.elementAt_run hx]
    exact hs.grow (location _)
  | pointer | deposit => exact hs.keep rfl
  | flow | passage =>
    apply hs.keep
    change (s.path.current.addFlow _ _ _).identities = _
    simp only [Frame.addFlow]
    split <;> rfl
  | notice => exact hs
  | @slice v =>
    obtain ⟨hp, hn, -⟩ := Recorder.sliceFrom_state v s
    rwa [hp, hn]
  | sliceIdly =>
    obtain ⟨hp, hn, -⟩ := Recorder.sliceIdly_state s
    rwa [hp, hn]

theorem Moves.aged {n : Nat} {s t : State} (h : Moves n s t) (hs : Aged s.next s.path.frames) :
    Aged t.next t.path.frames := by
  induction h with
  | refl => exact hs
  | tail _ h ih => exact h.aged ih

theorem Turn.aged {e : Event} {s t : State} (h : Turn e s t) (hs : Aged s.next s.path.frames) :
    Aged t.next t.path.frames := by
  cases h with
  | effect _ hm => exact hm.aged hs
  | fork => exact hs.push (Nat.le_succ _)
  | backtrack => exact hs.tail.push (Nat.le_refl _)
  | idle => exact hs

/-- In a list that descends, what passes a test first has the greatest key of all that pass it. -/
theorem find?_eq_some_iff_greatest {α : Type} {key : α → Nat} {l : List α} {x : α}
    (h : l.Pairwise fun a b => key b < key a) (test : α → Bool) :
    l.find? test = some x ↔
      x ∈ l ∧ test x = true ∧ ∀ y ∈ l, test y = true → key y ≤ key x := by
  induction l with
  | nil => simp
  | cons a l ih =>
    obtain ⟨ha, hl⟩ := List.pairwise_cons.1 h
    cases ht : test a with
    | false =>
      have other : test x = true → x ≠ a := by
        intro hx heq
        rw [heq, ht] at hx
        cases hx
      rw [List.find?_cons_of_neg (by simp [ht]), ih hl]
      simp only [List.mem_cons, forall_eq_or_imp, ht, Bool.false_eq_true, false_implies, true_and]
      constructor
      · exact fun hx => ⟨.inr hx.1, hx.2⟩
      · exact fun hx => ⟨hx.1.resolve_left (other hx.2.1), hx.2⟩
    | true =>
      rw [List.find?_cons_of_pos ht, Option.some_inj]
      constructor
      · rintro rfl
        refine ⟨List.mem_cons_self, ht, ?_⟩
        intro y hy _
        rcases List.mem_cons.1 hy with rfl | hy
        · exact Nat.le_refl _
        · exact Nat.le_of_lt (ha y hy)
      · rintro ⟨hx, _, greatest⟩
        rcases List.mem_cons.1 hx with rfl | hx
        · rfl
        · have younger := greatest a List.mem_cons_self ht
          have older := ha x hx
          omega

namespace Path

/-- The identities of the frames of a path and of all that they created. -/
def identities (p : Path) : List Nat :=
  p.frames.flatMap (·.identities)

variable {p : Path} {n : Nat}

theorem Numbered.latest?_iff (h : p.Numbered n) {value : Value} {v : Version} :
    p.latest? value = some v ↔ v ∈ p.versions ∧ v.value.id = value.id ∧
      ∀ u ∈ p.versions, u.value.id = value.id → u.id ≤ v.id := by
  simpa [latest?] using find?_eq_some_iff_greatest h.versions (·.value.id == value.id)

private theorem Numbered.latestLocation?_iff (h : p.Numbered n) {site : Value} {x : Term} {l : Location} :
    p.latestLocation? site x = some l ↔ l ∈ p.locations ∧ (l.site.id = site.id ∧ l.address = x) ∧
      ∀ m ∈ p.locations, m.site.id = site.id ∧ m.address = x → m.id ≤ l.id := by
  simpa [latestLocation?, Location.isAt] using
    find?_eq_some_iff_greatest h.locations (·.isAt site x)

private theorem Numbered.allLocations_ascending (h : p.Numbered n) :
    p.allLocations.Pairwise fun l m => l.id < m.id := by
  rw [h.allLocations_eq]
  exact List.pairwise_reverse.2 h.locations

end Path

namespace Replay

private theorem pursue_aged (program : Program) (next : Nat) (existential : Bool)
    (events : List Event) :
    let s := (pursue 0 events (start program next existential)).2.state
    Aged s.next s.path.frames :=
  pursue_invariant (P := fun s => Aged s.next s.path.frames) (fun _ ht hs => ht.aged hs)
    (start_standing program next existential) (Aged.nil.push (Nat.le_refl _)) 0 events

/-- After any events the identities on the path are distinct and have all been handed out, and those
of an outer frame and of what it created are below those of every frame inside it. All locations are
listed, in the order of their identities. The latest version of a value is the one with the greatest
identity, and so is the latest location of an object at an address. -/
theorem latest_youngest (program : Program) (next : Nat) (existential : Bool)
    (events : List Event) :
    let s := (pursue 0 events (start program next existential)).2.state
    s.path.identities.Nodup ∧ (∀ i ∈ s.path.identities, i < s.next) ∧
    s.path.frames.Pairwise (fun f g => ∀ i ∈ g.identities, ∀ j ∈ f.identities, i < j) ∧
    s.path.allLocations.Pairwise (fun l m => l.id < m.id) ∧
    (∀ l, l ∈ s.path.allLocations ↔ l ∈ s.path.locations) ∧
    (∀ value v, s.path.latest? value = some v ↔ v ∈ s.path.versions ∧ v.value.id = value.id ∧
      ∀ u ∈ s.path.versions, u.value.id = value.id → u.id ≤ v.id) ∧
    ∀ site x l, s.path.latestLocation? site x = some l ↔
      l ∈ s.path.locations ∧ (l.site.id = site.id ∧ l.address = x) ∧
        ∀ m ∈ s.path.locations, m.site.id = site.id ∧ m.address = x → m.id ≤ l.id := by
  intro s
  have aged : Aged s.next s.path.frames := pursue_aged program next existential events
  have numbered := (pursue_standing program next existential events).settled.numbered
  refine ⟨aged.nodup, ?_, aged.older, numbered.allLocations_ascending,
    fun l => numbered.mem_allLocations, fun value v => numbered.latest?_iff,
    fun site x l => numbered.latestLocation?_iff⟩
  intro i hi
  obtain ⟨f, hf, hi⟩ := List.mem_flatMap.1 hi
  exact aged.lt_of_mem f hf i hi

end Replay

end PathSlice
