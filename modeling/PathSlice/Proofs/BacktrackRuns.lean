import PathSlice.Proofs.ReplayRuns

/-! Replays of any events. A `Turn` is all that one event can do to a state. When a frame is given
up, the path goes on from what it was for the parent frame, so what is to hold of every path has to
hold of its outer parts, too: `Replay.pursue_standing` says that it does, whatever the events. -/
namespace PathSlice

namespace Path

variable {n m k : Nat} {p q : Path}

theorem Numbered.mono (h : p.Numbered n) (hm : n ≤ m) : p.Numbered m where
  versions := h.versions
  versions_lt v hv := Nat.lt_of_lt_of_le (h.versions_lt v hv) hm
  locations := h.locations
  locations_lt l hl := Nat.lt_of_lt_of_le (h.locations_lt l hl) hm
  frames := h.frames
  frames_lt i hi := Nat.lt_of_lt_of_le (h.frames_lt i hi) hm

theorem up?_succ_congr (h : p.ancestors = q.ancestors) : p.up? (k + 1) = q.up? (k + 1) := by
  have drop : p.frames.drop (k + 1) = q.frames.drop (k + 1) := congrArg (List.drop k) h
  simp only [up?, drop]

theorem up?_zero (p : Path) : p.up? 0 = some p :=
  rfl

theorem frames_of_up? (h : p.up? k = some q) : q.frames = p.frames.drop k := by
  unfold up? at h
  split at h
  · cases h
  · rename_i f fs hd
    cases h
    exact hd.symm

end Path

/-- What an event can do to a state. -/
inductive Turn : Event → State → State → Prop
  | effect {e : Event} {s t : State} (he : e.isEffect) (h : Moves s.next s t) : Turn e s t
  | fork (s : State) :
      Turn .fork s { s with next := s.next + 2, path := s.path.fork (s.next + 1) }
  | backtrack {s : State} (h : s.path.ancestors ≠ []) :
      Turn .backtrack s
        { s with next := s.next + 1, path := ⟨{ id := s.next }, s.path.ancestors⟩ }
  | idle {e : Event} {s : State} (he : ¬e.isEffect) (hf : ¬e.isFork)
      (hb : e = .backtrack → s.path.ancestors = []) : Turn e s s

namespace Settled

variable {s : State}

/-- A settled path of the past is settled as long as nothing is marked out of turn. -/
theorem later {t : State} (h : Settled s) (hp : t.path = s.path) (hn : s.next ≤ t.next)
    (hm : ∀ i ∈ t.marks.versions, i < t.next) : Settled t := by
  obtain ⟨n, p, marks, notices⟩ := t
  subst hp
  exact ⟨⟨h.closed, h.numbered.mono hn, h.traceable, hm⟩, h.layered.mono hn⟩

/-- A new frame may skip identities. -/
theorem descend (h : Settled s) {m : Nat} (hm : s.next ≤ m) :
    Settled { s with next := m + 1, path := s.path.fork m } where
  closed := h.closed.fork _
  numbered := h.numbered.fork hm
  traceable := h.traceable.fork _
  marked i hi := Nat.lt_succ_of_lt (Nat.lt_of_lt_of_le (h.marked i hi) hm)
  layered := (h.layered.fork h.closed h.numbered _).mono (Nat.le_succ_of_le hm)

end Settled

/-- A state is settled as it is and as the ancestors of its path see it. -/
structure Standing (s : State) : Prop where
  at_up : ∀ k q, s.path.up? k = some q → Settled { s with path := q }

namespace Standing

variable {s t : State} {e : Event}

theorem settled (h : Standing s) : Settled s :=
  h.at_up 0 s.path s.path.up?_zero

/-- The outer parts of a path are settled in later states, which mark nothing out of turn. -/
theorem outer (h : Standing s) {k : Nat} {q : Path} (hq : s.path.up? k = some q)
    (hn : s.next ≤ t.next) (hm : ∀ i ∈ t.marks.versions, i < t.next) :
    Settled { t with path := q } :=
  (h.at_up k q hq).later (t := { t with path := q }) rfl hn hm

theorem turn (h : Standing s) (ht : Turn e s t) : Standing t := by
  cases ht with
  | effect he hm =>
    have hs : Settled t :=
      ⟨hm.recorded h.settled.toRecorded, (hm.layered h.settled.layered).mono hm.grown.next⟩
    refine ⟨fun k q hq => ?_⟩
    cases k with
    | zero =>
      cases hq
      exact hs
    | succ k =>
      rw [Path.up?_succ_congr hm.grown.ancestors] at hq
      exact h.outer hq hm.grown.next hs.marked
  | fork =>
    have hs := h.settled.descend (Nat.le_succ s.next)
    refine ⟨fun k q hq => ?_⟩
    cases k with
    | zero =>
      cases hq
      exact hs
    | succ k => exact h.outer (k := k) hq (Nat.le_add_right _ 2) hs.marked
  | backtrack ha =>
    obtain ⟨f, fs, hf⟩ := List.exists_cons_of_ne_nil ha
    have hup : s.path.up? 1 = some ⟨f, fs⟩ := by simp [Path.up?, Path.frames, hf]
    have hs := (h.at_up 1 _ hup).descend (Nat.le_refl s.next)
    refine ⟨fun k q hq => ?_⟩
    cases k with
    | zero =>
      cases hq
      simpa [Path.fork, Path.frames, hf] using hs
    | succ k =>
      have hq : s.path.up? (k + 1) = some q := hq ▸ (Path.up?_succ_congr rfl)
      exact h.outer hq (Nat.le_succ _) hs.marked
  | idle => exact h

end Standing

namespace Replay

/-- Neither the program nor the state is changed. -/
private def Aside {α : Type} (m : Replaying α) : Prop :=
  ∀ r, (m.run r).2.program = r.program ∧ (m.run r).2.state = r.state

private theorem aside_bind {α β : Type} {m : Replaying α} {k : α → Replaying β} (h : Aside m)
    (hk : ∀ a, Aside (k a)) : Aside (m >>= k) := by
  intro r
  have bound : (m >>= k).run r = ExceptT.bindCont k (m.run r).1 (m.run r).2 := rfl
  obtain ⟨hp, hs⟩ := h r
  rw [bound]
  cases (m.run r).1 with
  | error fault => exact ⟨hp, hs⟩
  | ok a =>
    obtain ⟨hp', hs'⟩ := hk a (m.run r).2
    exact ⟨hp'.trans hp, hs'.trans hs⟩

private theorem aside_pure {α : Type} (a : α) : Aside (pure a) :=
  fun _ => ⟨rfl, rfl⟩

private theorem aside_fail (index : Nat) (what : String) : Aside (fail index what) :=
  fun _ => ⟨rfl, rfl⟩

private theorem aside_get : Aside (get : Replaying Replay) :=
  fun _ => ⟨rfl, rfl⟩

private theorem aside_value (name : String) : Aside (value name) := by
  refine aside_bind aside_get fun r => ?_
  split
  · exact aside_pure _
  · exact fun _ => ⟨rfl, rfl⟩

private theorem aside_forM {f : String → Replaying Unit} (h : ∀ x, Aside (f x)) (xs : List String) :
    Aside (xs.forM f) := by
  induction xs with
  | nil => exact aside_pure _
  | cons x xs ih => exact aside_bind (h x) fun _ => ih

private theorem aside_expect (index : Nat) (core notCore : List String) (count : Option Nat) :
    Aside (apply index (.expect core notCore count)) := by
  refine aside_bind (aside_forM (fun name => ?_) core) fun _ =>
    aside_bind (aside_forM (fun name => ?_) notCore) fun _ => ?_
  · refine aside_bind (aside_value name) fun v => aside_bind aside_get fun r => ?_
    dsimp only
    split
    · split
      · exact aside_pure _
      · exact aside_fail index _
    · exact aside_fail index _
  · refine aside_bind (aside_value name) fun v => aside_bind aside_get fun r => ?_
    dsimp only
    split
    · split
      · exact aside_fail index _
      · exact aside_pure _
    · exact aside_pure _
  · cases count with
    | none => exact aside_pure _
    | some expected =>
      refine aside_bind aside_get fun r => ?_
      dsimp only
      split
      · exact aside_pure _
      · exact aside_fail index _

variable {r : Replay} {events : List Event}

/-- An event turns the state and leaves the program as it is. -/
theorem apply_turn (h : Settled r.state) (e : Event) (index : Nat) :
    ((apply index e).run r).2.program = r.program ∧
      Turn e r.state ((apply index e).run r).2.state := by
  have effect (he : e.isEffect) : ((apply index e).run r).2.program = r.program ∧
      Turn e r.state ((apply index e).run r).2.state := by
    obtain ⟨s, hs, _, hm⟩ := apply_moves h he index
    rw [hs]
    exact ⟨rfl, .effect he hm⟩
  cases e with
  | execute | phi | access | bindCall | bindReturn => exact effect rfl
  | fork => exact ⟨rfl, .fork r.state⟩
  | shadow source target => exact ⟨rfl, .idle Bool.false_ne_true Bool.false_ne_true nofun⟩
  | expect core notCore count =>
    obtain ⟨hp, hs⟩ := aside_expect index core notCore count r
    rw [hs]
    exact ⟨hp, .idle Bool.false_ne_true Bool.false_ne_true nofun⟩
  | backtrack =>
    obtain ⟨program, ⟨n, ⟨f, ancestors⟩, marks, notices⟩, session, failures⟩ := r
    cases ancestors with
    | nil => exact ⟨rfl, .idle Bool.false_ne_true Bool.false_ne_true fun _ => rfl⟩
    | cons g gs => exact ⟨rfl, .backtrack (List.cons_ne_nil g gs)⟩

theorem start_standing (program : Program) (next : Nat) (existential : Bool) :
    Standing (start program next existential).state := by
  refine ⟨fun k q hq => ?_⟩
  cases k with
  | zero =>
    cases hq
    exact start_settled program next existential
  | succ k => cases k <;> cases hq

theorem pursue_append (index : Nat) (before after : List Event) (r : Replay) :
    (pursue index (before ++ after) r).2 =
      (pursue (index + before.length) after (pursue index before r).2).2 := by
  induction before generalizing index r with
  | nil => rfl
  | cons e es ih =>
    have := ih (index + 1) ((apply index e).run r).2
    rw [Nat.add_assoc, Nat.add_comm 1] at this
    exact this

theorem pursue_program_standing (h : Standing r.state) (index : Nat) (events : List Event) :
    (pursue index events r).2.program = r.program ∧ Standing (pursue index events r).2.state := by
  induction events generalizing r index with
  | nil => exact ⟨rfl, h⟩
  | cons e es ih =>
    obtain ⟨hp, ht⟩ := apply_turn h.settled e index
    obtain ⟨hp', hs⟩ := ih (h.turn ht) (index + 1)
    exact ⟨hp'.trans hp, hs⟩

/-- What every turn keeps holds of every state that events lead to. -/
theorem pursue_invariant {P : State → Prop}
    (step : ∀ {e s t}, Standing s → Turn e s t → P s → P t) (h : Standing r.state)
    (hp : P r.state) (index : Nat) (events : List Event) :
    P (pursue index events r).2.state := by
  induction events generalizing r index with
  | nil => exact hp
  | cons e es ih =>
    have ht := (apply_turn h.settled e index).2
    exact ih (h.turn ht) (step h ht hp) (index + 1)

/-- Every event leaves every part of the path in order. -/
theorem pursue_standing (program : Program) (next : Nat) (existential : Bool)
    (events : List Event) : Standing (pursue 0 events (start program next existential)).2.state :=
  (pursue_program_standing (start_standing program next existential) 0 events).2

end Replay

end PathSlice
