import PathSlice.Proofs.RecordingMoves
import PathSlice.Replay.Run

/-! Replays that try every event, whatever came of the earlier ones. Effects and forks keep what was
recorded in order: `Replay.pursue_settled` says so of every state that they lead to. -/
namespace PathSlice

namespace Event

/-- True if the event records something on the current path. -/
def isEffect : Event → Bool
  | .execute .. | .phi .. | .access .. | .bindCall .. | .bindReturn .. => true
  | .fork | .backtrack | .shadow .. | .expect .. => false

def isFork : Event → Bool
  | .fork => true
  | _ => false

/-- The effect that an event asks for, unless a value that it names is not declared. -/
def effect (program : Program) : Event → Except NameFault (Effect Unit)
  | .execute i xs erroneous => do
    return Effect.execute (← program.resolve i) xs erroneous
  | .phi i incoming x erroneous => do
    return Effect.choose (← program.resolve i) incoming x erroneous
  | .access i xs checked erroneous => do
    return Effect.access (← program.resolve i) xs checked erroneous
  | .bindCall site xs => do
    return Effect.bindCall (← program.resolve site) xs
  | .bindReturn site ret x => do
    let site ← program.resolve site
    return Effect.bindReturn site (← program.resolve ret) x
  | _ => return Pure.pure ()

end Event

/-- The cause of a fault, wherever its event stands. -/
def ReplayFault.cause : ReplayFault → NameFault ⊕ Fault
  | .name fault => .inl fault
  | .event _ fault => .inr fault

namespace Replay

/-- Tries events one after the other, each in the state that the one before left behind. Says what
came of the effects. -/
def pursue (index : Nat) : List Event → Replay → List (Except (NameFault ⊕ Fault) Unit) × Replay
  | [], r => ([], r)
  | e :: es, r =>
    let tried := (apply index e).run r
    let rest := pursue (index + 1) es tried.2
    (if e.isEffect then tried.1.mapError (·.cause) :: rest.1 else rest.1, rest.2)

/-- A replay without a fault tries all events. -/
theorem applyAll_ok {index : Nat} {events : List Event} {r r' : Replay}
    (h : (applyAll index events).run r = (.ok (), r')) : r' = (pursue index events r).2 := by
  induction events generalizing index r with
  | nil =>
    cases h
    rfl
  | cons e es ih =>
    have bound : (applyAll index (e :: es)).run r =
        ExceptT.bindCont (fun _ => applyAll (index + 1) es) ((apply index e).run r).1
          ((apply index e).run r).2 := rfl
    rw [bound] at h
    cases hx : ((apply index e).run r).1 with
    | error fault =>
      rw [hx] at h
      cases h
    | ok u =>
      rw [hx] at h
      exact ih h

private theorem run_value (name : String) (k : Value → Replaying Unit) (r : Replay) :
    (value name >>= k).run r =
      match r.program.resolve name with
      | .ok v => (k v).run r
      | .error fault => (.error (ReplayFault.name fault), r) := by
  change ((match r.program.resolve name with
    | .ok v => (pure v : Replaying Value)
    | .error fault => throw (ReplayFault.name fault)) >>= k).run r = _
  cases r.program.resolve name <;> rfl

private theorem run_perform (index : Nat) (x : Effect Unit) (r : Replay) :
    (perform index x).run r =
      ((x r.state).1.mapError (ReplayFault.event index), { r with state := (x r.state).2 }) := by
  change (perform index fun _ => x r.state).run r = _
  obtain ⟨outcome, state⟩ := x r.state
  cases outcome <;> rfl

theorem apply_of_isEffect {e : Event} (he : e.isEffect) (index : Nat) (r : Replay) :
    (apply index e).run r =
      match e.effect r.program with
      | .error fault => (.error (.name fault), r)
      | .ok x => ((x r.state).1.mapError (.event index), { r with state := (x r.state).2 }) := by
  have once : ∀ name (x : Value → Effect Unit),
      (value name >>= fun v => perform index (x v)).run r =
        match (do return x (← r.program.resolve name) : Except NameFault (Effect Unit)) with
        | .error fault => (.error (.name fault), r)
        | .ok x => ((x r.state).1.mapError (.event index), { r with state := (x r.state).2 }) := by
    intro name x
    rw [run_value]
    cases r.program.resolve name with
    | error fault => rfl
    | ok v => exact run_perform index (x v) r
  cases e with
  | execute i xs erroneous => exact once i _
  | phi i incoming x erroneous => exact once i _
  | access i xs checked erroneous => exact once i _
  | bindCall site xs => exact once site _
  | bindReturn site ret x =>
    simp only [apply, Event.effect]
    rw [run_value]
    cases r.program.resolve site with
    | error fault => rfl
    | ok site => exact once ret _
  | fork | backtrack | shadow | expect => cases he

end Replay

/-- The effects that events ask for, with the values of a program that they name. -/
inductive Event.Asks (P : Program) : Event → Effect Unit → Prop
  | execute {name : String} {i : Value} (hi : P.resolve name = .ok i) (xs : List Term)
      (erroneous : Bool) : Asks P (.execute name xs erroneous) (Effect.execute i xs erroneous)
  | choose {name : String} {i : Value} (hi : P.resolve name = .ok i) (incoming : Nat) (x : Term)
      (erroneous : Bool) :
      Asks P (.phi name incoming x erroneous) (Effect.choose i incoming x erroneous)
  | access {name : String} {i : Value} (hi : P.resolve name = .ok i) (xs : List Term)
      (checked erroneous : Bool) :
      Asks P (.access name xs checked erroneous) (Effect.access i xs checked erroneous)
  | bindCall {name : String} {site : Value} (hsite : P.resolve name = .ok site) (xs : List Term) :
      Asks P (.bindCall name xs) (Effect.bindCall site xs)
  | bindReturn {name name' : String} {site ret : Value} (hsite : P.resolve name = .ok site)
      (hret : P.resolve name' = .ok ret) (x : Term) :
      Asks P (.bindReturn name name' x) (Effect.bindReturn site ret x)
  | nothing {e : Event} (he : e.isEffect = false) : Asks P e (pure ())

theorem Event.asks_of_effect {P : Program} {e : Event} {x : Effect Unit}
    (hx : e.effect P = .ok x) : e.Asks P x := by
  have named {name : String} {y : Value → Except NameFault (Effect Unit)}
      (hy : (P.resolve name >>= y) = .ok x) : ∃ v, P.resolve name = .ok v ∧ y v = .ok x := by
    cases hr : P.resolve name with
    | error fault =>
      rw [hr] at hy
      cases hy
    | ok v =>
      rw [hr] at hy
      exact ⟨v, rfl, hy⟩
  cases e with
  | execute i xs erroneous =>
    obtain ⟨v, hv, ⟨⟩⟩ := named hx
    exact .execute hv xs erroneous
  | phi i incoming y erroneous =>
    obtain ⟨v, hv, ⟨⟩⟩ := named hx
    exact .choose hv incoming y erroneous
  | access i xs checked erroneous =>
    obtain ⟨v, hv, ⟨⟩⟩ := named hx
    exact .access hv xs checked erroneous
  | bindCall site xs =>
    obtain ⟨v, hv, ⟨⟩⟩ := named hx
    exact .bindCall hv xs
  | bindReturn site ret y =>
    obtain ⟨v, hv, hx⟩ := named hx
    obtain ⟨w, hw, ⟨⟩⟩ := named hx
    exact .bindReturn hv hw y
  | fork | backtrack | shadow | expect =>
    cases hx
    exact .nothing rfl

/-- The effect of an event has the same outcome in states that stand for each other. -/
theorem Correspondence.Lawful.effect {C : Correspondence} (L : C.Lawful) {w : C.World}
    {s t : State} (hs : C.states w s t) {program : Program} {e : Event} {x : Effect Unit}
    (hx : e.effect program = .ok x) : C.Follows w x x s t C.Any := by
  cases Event.asks_of_effect hx with
  | @execute _ i _ xs erroneous => exact L.execute hs i xs erroneous
  | @choose _ i _ incoming y erroneous => exact L.choose hs i incoming y erroneous
  | @access _ i _ xs checked erroneous => exact L.access hs i xs checked erroneous
  | @bindCall _ site _ xs => exact L.bindCall hs site xs
  | @bindReturn _ _ site ret _ _ y => exact L.bindReturn hs site ret y
  | nothing => exact L.ok hs trivial

namespace Path

variable {n : Nat} {p : Path}

theorem Layered.mono {m : Nat} (h : p.Layered n) (hm : n ≤ m) : p.Layered m :=
  ⟨h.apart, fun g hg v hv => Nat.lt_of_lt_of_le (h.settled g hg v hv) hm⟩

/-- When a frame is left, what it speaks of is older than all that follows. -/
theorem Layered.fork (h : p.Layered n) (hc : p.Closed) (hn : p.Numbered n) (id : Nat) :
    (p.fork id).Layered n := by
  refine ⟨List.pairwise_cons.2 ⟨fun g _ e he => absurd he List.not_mem_nil, h.apart⟩, ?_⟩
  intro g hg v hv
  refine hn.versions_lt v ?_
  cases hv with
  | target he => exact (hc.flows _ (List.mem_flatMap.2 ⟨g, hg, he⟩)).1
  | source he => exact (hc.flows _ (List.mem_flatMap.2 ⟨g, hg, he⟩)).2.1
  | deposit hd => exact (hc.deposits _ (List.mem_flatMap.2 ⟨g, hg, hd⟩)).2

end Path

/-- What holds between two events. -/
structure Settled (s : State) : Prop extends Recorded s where
  layered : s.path.Layered s.next

namespace Settled

variable {s : State}

theorem fork (h : Settled s) : Settled (Replay.fork s).2 where
  closed := h.closed.fork _
  numbered := h.numbered.fork (Nat.le_succ s.next)
  traceable := h.traceable.fork _
  marked i hi := Nat.lt_succ_of_lt (Nat.lt_succ_of_lt (h.marked i hi))
  layered := (h.layered.fork h.closed h.numbered _).mono (Nat.le_add_right s.next 2)

theorem moves (h : Settled s) {program : Program} {e : Event} {x : Effect Unit}
    (hx : e.effect program = .ok x) : Moves s.next s (x s).2 := by
  obtain ⟨w, hw, ⟨rfl, _⟩, _⟩ := (recording_lawful s.next).effect
    ⟨rfl, rfl, h.toRecorded, Nat.le_refl _⟩ hx
  exact hw

theorem effect (h : Settled s) {program : Program} {e : Event} {x : Effect Unit}
    (hx : e.effect program = .ok x) : Settled (x s).2 := by
  have hm := h.moves hx
  exact ⟨hm.recorded h.toRecorded, (hm.layered h.layered).mono hm.grown.next⟩

end Settled

namespace Replay

variable {r : Replay} {e : Event} {events : List Event}

theorem start_settled (program : Program) (next : Nat) (existential : Bool) :
    Settled (start program next existential).state :=
  ⟨.root next, .root next⟩

/-- An effect changes nothing but the state, and that by moves. -/
theorem apply_moves (h : Settled r.state) (he : e.isEffect) (index : Nat) :
    ∃ s, ((apply index e).run r).2 = { r with state := s } ∧ Settled s ∧
      Moves r.state.next r.state s := by
  rw [apply_of_isEffect he]
  cases hx : e.effect r.program with
  | error fault => exact ⟨r.state, rfl, h, .refl⟩
  | ok x => exact ⟨(x r.state).2, rfl, h.effect hx, h.moves hx⟩

theorem apply_settled (h : Settled r.state) (he : e.isEffect ∨ e.isFork) (index : Nat) :
    Settled ((apply index e).run r).2.state := by
  rcases he with he | he
  · obtain ⟨s, hs, hset, _⟩ := apply_moves h he index
    rw [hs]
    exact hset
  · cases e with
    | fork => exact h.fork
    | execute | phi | access | backtrack | bindCall | bindReturn | shadow | expect => cases he

/-- Effects and forks keep what was recorded in order. -/
theorem pursue_settled (h : Settled r.state) (he : ∀ e ∈ events, e.isEffect ∨ e.isFork)
    (index : Nat) : Settled (pursue index events r).2.state := by
  induction events generalizing r index with
  | nil => exact h
  | cons e es ih =>
    obtain ⟨he, hes⟩ := List.forall_mem_cons.1 he
    exact ih (apply_settled h he index) hes (index + 1)

/-- Effects open no frame. -/
theorem pursue_ancestors (h : Settled r.state) (he : ∀ e ∈ events, e.isEffect) (index : Nat) :
    (pursue index events r).2.state.path.ancestors = r.state.path.ancestors := by
  induction events generalizing r index with
  | nil => rfl
  | cons e es ih =>
    obtain ⟨he, hes⟩ := List.forall_mem_cons.1 he
    obtain ⟨s, hs, _, hm⟩ := apply_moves h he index
    refine (ih (apply_settled h (.inl he) index) hes (index + 1)).trans ?_
    rw [hs]
    exact hm.grown.ancestors

end Replay

end PathSlice
