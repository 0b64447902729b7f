import Mathlib.Data.List.Forall2
import PathSlice.Effect.Instruction
import PathSlice.Proofs.ArgumentLookups

/-! Two runs compared step by step, as far as they record.

A correspondence says which states, versions and locations of two runs stand for each other, in a
world that grows as the runs go on. It is lawful if lookups in states that stand for each other give
versions and locations that do, and if writing what stands for each other keeps it so, and slicing,
too. Whatever is recorded in both runs by the same function then stands for each other; as long as
nothing is sliced, the laws of recording are enough. -/
namespace PathSlice

namespace Recorder

/-- Slices from a version of the current path. -/
def sliceFrom (v : Version) : Recorder Unit := do
  let p := (← get).path
  let g ← mark p {} v
  discard <| markLocations p g

/-- Slices from nothing: the graph is empty. -/
def sliceIdly : Recorder Unit := do
  let p := (← get).path
  discard <| markLocations p {}

end Recorder

structure Correspondence where
  World : Type
  /-- The second world comes after the first. -/
  Later : World → World → Prop
  states : World → State → State → Prop
  versions : World → Version → Version → Prop
  /-- Versions made by the effect under way, which flows may be recorded into. -/
  targets : World → Version → Version → Prop
  locations : World → Location → Location → Prop

/-- Both fail alike, or both succeed with results that stand for each other. -/
inductive Alike {α β : Type} (Q : α → β → Prop) : Except Fault α → Except Fault β → Prop
  | ok {a : α} {b : β} (h : Q a b) : Alike Q (.ok a) (.ok b)
  | error (f : Fault) : Alike Q (.error f) (.error f)

namespace Correspondence

variable {α β γ δ : Type}

/-- From two states on, two computations lead to states and results that stand for each other. -/
def Tracks (C : Correspondence) (w : C.World) (m : Recorder α) (n : Recorder β) (s t : State)
    (Q : C.World → α → β → Prop) : Prop :=
  ∃ w', C.Later w w' ∧ C.states w' (m s).2 (n t).2 ∧ Q w' (m s).1 (n t).1

/-- The same of computations that may fail. -/
def Follows (C : Correspondence) (w : C.World) (m : Effect α) (n : Effect β) (s t : State)
    (Q : C.World → α → β → Prop) : Prop :=
  C.Tracks w m.run n.run s t fun w => Alike (Q w)

/-- Nothing is asked of the results. -/
def Any (C : Correspondence) (_ : C.World) (_ _ : Unit) : Prop := True

/-- The laws of lookups and writes. -/
structure Records (C : Correspondence) : Prop where
  refl : ∀ w, C.Later w w
  trans : ∀ {u v w}, C.Later u v → C.Later v w → C.Later u w
  version_later : ∀ {v w a b}, C.Later v w → C.versions v a b → C.versions w a b
  target_later : ∀ {v w a b}, C.Later v w → C.targets v a b → C.targets w a b
  location_later : ∀ {v w l m}, C.Later v w → C.locations v l m → C.locations w l m
  target_version : ∀ {w a b}, C.targets w a b → C.versions w a b
  value_eq : ∀ {w a b}, C.versions w a b → a.value = b.value
  term_eq : ∀ {w a b}, C.versions w a b → a.term = b.term
  site_eq : ∀ {w l m}, C.locations w l m → l.site = m.site
  address_eq : ∀ {w l m}, C.locations w l m → l.address = m.address
  latest : ∀ {w s t}, C.states w s t → ∀ v,
    Option.Rel (C.versions w) (s.path.latest? v) (t.path.latest? v)
  latestLocation : ∀ {w s t}, C.states w s t → ∀ site x,
    Option.Rel (C.locations w) (s.path.latestLocation? site x) (t.path.latestLocation? site x)
  pointee : ∀ {w s t a b}, C.states w s t → C.versions w a b →
    Option.Rel (C.locations w) (s.path.pointee? a) (t.path.pointee? b)
  content : ∀ {w s t l m}, C.states w s t → C.locations w l m →
    Option.Rel (C.versions w) (s.path.content? l) (t.path.content? m)
  sources : ∀ {w s t a b}, C.states w s t → C.versions w a b →
    List.Forall₂ (C.versions w) (s.path.sourcesOf a) (t.path.sourcesOf b)
  ends : ∀ {w s t a b}, C.states w s t → C.versions w a b →
    List.Forall₂ (C.versions w) (s.path.ends a) (t.path.ends b)
  newVersion : ∀ {w s t}, C.states w s t → ∀ v x,
    C.Tracks w (Recorder.newVersion v x) (Recorder.newVersion v x) s t C.targets
  newLocation : ∀ {w s t}, C.states w s t → ∀ site x,
    C.Tracks w (Recorder.newLocation site x) (Recorder.newLocation site x) s t C.locations
  newElement : ∀ {w s t l m x}, C.states w s t → C.locations w l m →
    s.path.latestLocation? l.site x = none → t.path.latestLocation? m.site x = none →
    C.Tracks w (Recorder.elementAt l x) (Recorder.elementAt m x) s t C.locations
  addPointer : ∀ {w s t a b l m}, C.states w s t → C.versions w a b → C.locations w l m →
    C.Tracks w (Recorder.addPointer a l) (Recorder.addPointer b m) s t C.Any
  deposit : ∀ {w s t a b l m}, C.states w s t → C.locations w l m → C.versions w a b →
    C.Tracks w (Recorder.deposit l a) (Recorder.deposit m b) s t C.Any
  addFlow : ∀ {w s t a b c d}, C.states w s t → C.versions w a b → C.targets w c d →
    C.Tracks w (Recorder.addFlow a c) (Recorder.addFlow b d) s t C.Any
  addPassage : ∀ {w s t a b c d l m}, C.states w s t → C.locations w l m → C.targets w c d →
    s.path.content? l = some a → t.path.content? m = some b →
    C.Tracks w (Recorder.addFlow a c (some l)) (Recorder.addFlow b d (some m)) s t C.Any
  notify : ∀ {w s t}, C.states w s t → ∀ x,
    C.Tracks w (Recorder.notify x) (Recorder.notify x) s t C.Any

structure Lawful (C : Correspondence) : Prop extends Records C where
  sliceFrom : ∀ {w s t a b}, C.states w s t → C.versions w a b →
    C.Tracks w (Recorder.sliceFrom a) (Recorder.sliceFrom b) s t C.Any
  sliceIdly : ∀ {w s t}, C.states w s t →
    C.Tracks w Recorder.sliceIdly Recorder.sliceIdly s t C.Any

variable {C : Correspondence} {w : C.World} {s t : State}

theorem Tracks.get {k : State → Recorder α} {l : State → Recorder β} {Q : C.World → α → β → Prop}
    (h : C.Tracks w (k s) (l t) s t Q) : C.Tracks w (get >>= k) (get >>= l) s t Q :=
  h

theorem Tracks.ite {c : Prop} [Decidable c] {m m' : Recorder α} {n n' : Recorder β}
    {Q : C.World → α → β → Prop} (h : c → C.Tracks w m n s t Q)
    (h' : ¬ c → C.Tracks w m' n' s t Q) :
    C.Tracks w (if c then m else m') (if c then n else n') s t Q := by
  by_cases hc : c
  · rw [if_pos hc, if_pos hc]
    exact h hc
  · rw [if_neg hc, if_neg hc]
    exact h' hc

theorem Tracks.imp {m : Recorder α} {n : Recorder β} {Q R : C.World → α → β → Prop}
    (h : C.Tracks w m n s t Q) (hi : ∀ w a b, Q w a b → R w a b) : C.Tracks w m n s t R := by
  obtain ⟨w', hw, hs, hq⟩ := h
  exact ⟨w', hw, hs, hi _ _ _ hq⟩

theorem Tracks.map {m : Recorder α} {n : Recorder β} {f : α → γ} {g : β → δ}
    {R : C.World → γ → δ → Prop}
    (h : C.Tracks w m n s t fun w a b => R w (f a) (g b)) :
    C.Tracks w (f <$> m) (g <$> n) s t R :=
  h

theorem Tracks.discard {m : Recorder α} {n : Recorder β} {Q : C.World → α → β → Prop}
    (h : C.Tracks w m n s t Q) :
    C.Tracks w (Functor.discard m) (Functor.discard n) s t C.Any := by
  obtain ⟨w', hw, hs, _⟩ := h
  exact ⟨w', hw, hs, trivial⟩

theorem Follows.ite {c : Prop} [Decidable c] {m m' : Effect α} {n n' : Effect β}
    {Q : C.World → α → β → Prop} (h : c → C.Follows w m n s t Q)
    (h' : ¬ c → C.Follows w m' n' s t Q) :
    C.Follows w (if c then m else m') (if c then n else n') s t Q := by
  by_cases hc : c
  · rw [if_pos hc, if_pos hc]
    exact h hc
  · rw [if_neg hc, if_neg hc]
    exact h' hc

theorem Tracks.lift {m : Recorder α} {n : Recorder β} {Q : C.World → α → β → Prop}
    (h : C.Tracks w m n s t Q) : C.Follows w (liftM m) (liftM n) s t Q := by
  obtain ⟨w', hw, hs, hq⟩ := h
  exact ⟨w', hw, hs, .ok hq⟩

theorem Tracks.discardLift {m : Recorder α} {n : Recorder β} {Q : C.World → α → β → Prop}
    (h : C.Tracks w m n s t Q) :
    C.Follows w (Functor.discard (liftM m)) (Functor.discard (liftM n)) s t C.Any := by
  obtain ⟨w', hw, hs, _⟩ := h
  exact ⟨w', hw, hs, .ok trivial⟩

theorem rel_none {R : α → β → Prop} {x : Option α} {y : Option β} (h : Option.Rel R x y)
    (hx : x = none) : y = none := by
  subst hx
  cases h
  rfl

theorem rel_imp {Q R : α → β → Prop} {x : Option α} {y : Option β} (h : Option.Rel Q x y)
    (hi : ∀ a b, Q a b → R a b) : Option.Rel R x y := by
  cases h with
  | some h => exact .some (hi _ _ h)
  | none => exact .none

theorem isEmpty_eq {R : α → β → Prop} {xs : List α} {ys : List β}
    (h : List.Forall₂ R xs ys) : xs.isEmpty = ys.isEmpty := by
  cases h <;> rfl

theorem rel_some {R : α → β → Prop} {a : α} {x : Option α} {y : Option β}
    (h : Option.Rel R x y) (hx : x = some a) : ∃ b, y = some b ∧ R a b := by
  subst hx
  cases h with
  | some h => exact ⟨_, rfl, h⟩

namespace Records

variable (L : C.Records)

include L

theorem pure {a : α} {b : β} {Q : C.World → α → β → Prop} (hs : C.states w s t) (hq : Q w a b) :
    C.Tracks w (Pure.pure a) (Pure.pure b) s t Q :=
  ⟨w, L.refl w, hs, hq⟩

theorem bind {m : Recorder α} {n : Recorder β} {k : α → Recorder γ} {l : β → Recorder δ}
    {Q : C.World → α → β → Prop} {R : C.World → γ → δ → Prop} (h : C.Tracks w m n s t Q)
    (hk : ∀ w' a b s' t', C.Later w w' → C.states w' s' t' → Q w' a b →
      C.Tracks w' (k a) (l b) s' t' R) :
    C.Tracks w (m >>= k) (n >>= l) s t R := by
  obtain ⟨w', hw, hs, hq⟩ := h
  obtain ⟨w'', hw', hs', hr⟩ := hk w' _ _ _ _ hw hs hq
  exact ⟨w'', L.trans hw hw', hs', hr⟩

theorem newPointer (hs : C.states w s t) (value site : Value) (x : Term) :
    C.Tracks w (Recorder.newPointer value site x) (Recorder.newPointer value site x) s t
      C.targets := by
  refine L.bind (L.newVersion hs value x) fun w v v' s t _ hs hv => ?_
  refine L.bind (L.newLocation hs site x) fun w l l' s t hw hs hl => ?_
  have hv := L.target_later hw hv
  refine L.bind (L.addPointer hs (L.target_version hv) hl) fun w _ _ s t hw hs _ => ?_
  exact L.pure hs (L.target_later hw hv)

theorem locationAt (hs : C.states w s t) (site : Value) (x : Term) :
    C.Tracks w (Recorder.locationAt site x) (Recorder.locationAt site x) s t C.locations := by
  refine Tracks.get ?_
  have h := L.latestLocation hs site x
  revert h
  generalize s.path.latestLocation? site x = l?, t.path.latestLocation? site x = m?
  intro h
  cases h with
  | some h => exact L.pure hs h
  | none => exact L.newLocation hs site x

theorem elementAt {l m : Location} (hs : C.states w s t) (hl : C.locations w l m) (x : Term) :
    C.Tracks w (Recorder.elementAt l x) (Recorder.elementAt m x) s t C.locations := by
  have h := L.latestLocation hs l.site x
  cases hx : s.path.latestLocation? l.site x with
  | none =>
    have hy := rel_none h hx
    exact L.newElement hs hl hx (L.site_eq hl ▸ hy)
  | some a =>
    obtain ⟨b, hy, hab⟩ := rel_some h hx
    refine Tracks.get ?_
    rw [← L.site_eq hl, hx, hy]
    exact L.pure hs hab

theorem versionOf? (hs : C.states w s t) (value : Value) (x : Term) :
    C.Tracks w (Recorder.versionOf? value x) (Recorder.versionOf? value x) s t
      fun w => Option.Rel (C.versions w) := by
  have fresh : ∀ {m : Recorder Version}, C.Tracks w m m s t C.targets →
      C.Tracks w (some <$> m) (some <$> m) s t fun w => Option.Rel (C.versions w) :=
    fun h => Tracks.map (h.imp fun _ _ _ hv => .some (L.target_version hv))
  refine Tracks.ite (fun _ => fresh (L.newPointer hs value value x)) fun _ => ?_
  refine Tracks.ite (fun _ => fresh (L.newVersion hs value x)) fun _ => Tracks.get ?_
  have h := L.latest hs value
  revert h
  generalize s.path.latest? value = a?, t.path.latest? value = b?
  intro h
  cases h with
  | some h => exact L.pure hs (.some h)
  | none =>
    refine Tracks.ite (fun _ => ?_) fun _ => L.pure hs .none
    exact Tracks.ite (fun _ => fresh (L.newPointer hs value value x))
      fun _ => fresh (L.newVersion hs value x)

/-! Resolution of addresses. -/

theorem resolve? {a b : Version} (hs : C.states w s t) (h : C.versions w a b) :
    C.Tracks w (Recorder.resolve? a) (Recorder.resolve? b) s t
      fun w => Option.Rel (C.locations w) := by
  refine Tracks.get ?_
  have hp := L.pointee hs h
  revert hp
  generalize s.path.pointee? a = l?, t.path.pointee? b = m?
  intro hp
  cases hp with
  | some hl => exact L.pure hs (.some hl)
  | none =>
    rw [L.value_eq h, L.term_eq h]
    refine Tracks.ite (fun _ => ?_) fun _ => L.pure hs .none
    refine L.bind (L.newLocation hs _ _) fun w l m s t _ hs hl => ?_
    refine L.bind (L.newVersion hs _ _) fun w v v' s t hw hs hv => ?_
    have hl := L.location_later hw hl
    refine L.bind (L.addPointer hs (L.target_version hv) hl) fun w _ _ s t hw hs _ => ?_
    exact L.pure hs (.some (L.location_later hw hl))

theorem resolveEach {as bs : List Version} (hs : C.states w s t)
    (h : List.Forall₂ (C.versions w) as bs) :
    C.Tracks w (Recorder.resolveEach as) (Recorder.resolveEach bs) s t
      fun w => List.Forall₂ (C.locations w) := by
  induction as generalizing bs w s t with
  | nil =>
    cases h
    exact L.pure hs .nil
  | cons a as ih =>
    cases h with
    | cons h hr =>
      refine L.bind (L.resolve? hs h) fun w l? m? s t hw hs hl => ?_
      have hr := hr.imp fun _ _ => L.version_later hw
      cases hl with
      | none => exact ih hs hr
      | some hl =>
        refine L.bind (ih hs hr) fun w ls ms s t hw hs hls => ?_
        exact L.pure hs (.cons (L.location_later hw hl) hls)

theorem resolveAll {a b : Version} (hs : C.states w s t) (h : C.versions w a b) :
    C.Tracks w (Recorder.resolveAll a) (Recorder.resolveAll b) s t
      fun w => List.Forall₂ (C.locations w) := by
  refine L.bind (L.resolve? hs h) fun w l? m? s t hw hs hl => ?_
  cases hl with
  | some hl => exact L.pure hs (.cons hl .nil)
  | none => exact Tracks.get (L.resolveEach hs (L.ends hs (L.version_later hw h)))

/-! Lists of writes. -/

theorem flowArguments {a b : Version} (hs : C.states w s t) (h : C.targets w a b) (x : Term)
    (values : List Value) (xs : List Term) :
    C.Tracks w (Recorder.flowArguments a x values xs) (Recorder.flowArguments b x values xs) s t
      C.Any := by
  induction values generalizing w s t xs with
  | nil => exact L.pure hs trivial
  | cons value values ih =>
    refine L.bind (L.versionOf? hs value _) fun w v? v?' s t hw hs hv => ?_
    have h := L.target_later hw h
    cases hv with
    | none => exact ih hs h xs.tail
    | some hv =>
      refine L.bind (L.addFlow hs hv h) fun w _ _ s t hw hs _ => ?_
      exact ih hs (L.target_later hw h) xs.tail

theorem addFlows {a b : Version} {as bs : List Version} (hs : C.states w s t)
    (h : C.targets w a b) (hl : List.Forall₂ (C.versions w) as bs) :
    C.Tracks w (Recorder.addFlows a as) (Recorder.addFlows b bs) s t C.Any := by
  induction as generalizing bs w s t with
  | nil =>
    cases hl
    exact L.pure hs trivial
  | cons c as ih =>
    cases hl with
    | cons hc hl =>
      refine L.bind (L.addFlow hs hc h) fun w _ _ s t hw hs _ => ?_
      exact ih hs (L.target_later hw h) (hl.imp fun _ _ => L.version_later hw)

theorem versionOrNew (hs : C.states w s t) (value : Value) (x : Term) :
    C.Tracks w (Recorder.versionOrNew value x) (Recorder.versionOrNew value x) s t C.versions := by
  refine L.bind (L.versionOf? hs value x) fun w v? v?' s t _ hs hv => ?_
  cases hv with
  | some hv => exact L.pure hs hv
  | none => exact (L.newVersion hs value x).imp fun _ _ _ => L.target_version

theorem actuals (hs : C.states w s t) (given : List (Value × Term)) :
    C.Tracks w (Recorder.actuals given) (Recorder.actuals given) s t
      fun w => List.Forall₂ (C.versions w) := by
  induction given generalizing w s t with
  | nil => exact L.pure hs .nil
  | cons g given ih =>
    refine L.bind (ih hs) fun w vs vs' s t _ hs hvs => ?_
    refine L.bind (L.versionOrNew hs g.1 g.2) fun w v v' s t hw hs hv => ?_
    exact L.pure hs (.cons hv (hvs.imp fun _ _ => L.version_later hw))

theorem bindEach {as bs : List Version} (hs : C.states w s t)
    (h : List.Forall₂ (C.versions w) as bs) (parameters : List Value) :
    C.Tracks w (Recorder.bindEach (parameters.zip as)) (Recorder.bindEach (parameters.zip bs)) s t
      C.Any := by
  induction parameters generalizing as bs w s t with
  | nil => exact L.pure hs trivial
  | cons parameter parameters ih =>
    cases h with
    | nil => exact L.pure hs trivial
    | cons h hr =>
      rw [List.zip_cons_cons, List.zip_cons_cons, Recorder.bindEach, Recorder.bindEach,
        L.term_eq h]
      refine L.bind (L.newVersion hs parameter _) fun w v v' s t hw hs hv => ?_
      have h := L.version_later hw h
      have hr := hr.imp fun _ _ => L.version_later hw
      refine L.bind (L.addFlow hs h hv) fun w _ _ s t hw hs _ => ?_
      exact ih hs (hr.imp fun _ _ => L.version_later hw)

theorem loadFrom {a b : Version} {ls ms : List Location} (hs : C.states w s t)
    (h : C.targets w a b) (hl : List.Forall₂ (C.locations w) ls ms) :
    C.Tracks w (Recorder.loadFrom a ls) (Recorder.loadFrom b ms) s t C.Any := by
  induction ls generalizing ms w s t with
  | nil =>
    cases hl
    exact L.pure hs trivial
  | cons l ls ih =>
    cases hl with
    | cons hl hr =>
      have next : ∀ w' (_ _ : Unit) s' t', C.Later w w' → C.states w' s' t' → C.Any w' () () →
          C.Tracks w' (Recorder.loadFrom a ls) (Recorder.loadFrom b _) s' t' C.Any :=
        fun w' _ _ s' t' hw hs _ =>
          ih hs (L.target_later hw h) (hr.imp fun _ _ => L.location_later hw)
      have hc := L.content hs hl
      refine Tracks.get ?_
      cases hx : s.path.content? l with
      | none =>
        rw [rel_none hc hx]
        exact L.bind (L.deposit hs hl (L.target_version h)) next
      | some c =>
        obtain ⟨d, hy, _⟩ := rel_some hc hx
        rw [hy]
        exact L.bind (L.addPassage hs hl h hx hy) next

theorem storeInto {a b : Version} {ls ms : List Location} (hs : C.states w s t)
    (h : C.versions w a b) (x y : Term) (hl : List.Forall₂ (C.locations w) ls ms) :
    C.Tracks w (Recorder.storeInto a x y ls) (Recorder.storeInto b x y ms) s t C.Any := by
  induction ls generalizing ms w s t with
  | nil =>
    cases hl
    exact L.pure hs trivial
  | cons l ls ih =>
    cases hl with
    | @cons _ m _ ms hl hr =>
      -- Both the location found and the one made up are gone on with in this way.
      have next : ∀ {w' s' t' k n}, C.Later w w' → C.states w' s' t' → C.locations w' k n →
          C.Tracks w' (Recorder.deposit k a >>= fun _ => Recorder.storeInto a x y ls)
            (Recorder.deposit n b >>= fun _ => Recorder.storeInto b x y ms) s' t' C.Any := by
        intro w' s' t' k n hw hs hk
        have h := L.version_later hw h
        have hr := hr.imp fun _ _ => L.location_later hw
        refine L.bind (L.deposit hs hk h) fun w _ _ s t hw hs _ => ?_
        exact ih hs (L.version_later hw h) (hr.imp fun _ _ => L.location_later hw)
      have hat := L.latestLocation hs l.site l.address
      refine Tracks.get ?_
      rw [← L.site_eq hl, ← L.address_eq hl]
      revert hat
      generalize s.path.latestLocation? l.site l.address = l?,
        t.path.latestLocation? l.site l.address = m?
      intro hat
      cases hat with
      | some hk => exact next (L.refl w) hs hk
      | none =>
        refine L.bind (L.newLocation hs l.site y) fun w₁ k n s t hw₁ hs hk => ?_
        refine L.bind (L.newVersion hs l.site x) fun w₂ v v' s t hw₂ hs hv => ?_
        have hk := L.location_later hw₂ hk
        refine L.bind (L.addPointer hs (L.target_version hv) hk) fun w₃ _ _ s t hw₃ hs _ => ?_
        exact next (L.trans hw₁ (L.trans hw₂ hw₃)) hs (L.location_later hw₃ hk)

theorem pointInto {a b : Version} {ls ms : List Location} (hs : C.states w s t)
    (h : C.versions w a b) (x : Term) (hl : List.Forall₂ (C.locations w) ls ms) :
    C.Tracks w (Recorder.pointInto a x ls) (Recorder.pointInto b x ms) s t C.Any := by
  induction ls generalizing ms w s t with
  | nil =>
    cases hl
    exact L.pure hs trivial
  | cons l ls ih =>
    cases hl with
    | cons hl hr =>
      refine L.bind (L.elementAt hs hl x) fun w k n s t hw hs hk => ?_
      have h := L.version_later hw h
      have hr := hr.imp fun _ _ => L.location_later hw
      refine L.bind (L.addPointer hs h hk) fun w _ _ s t hw hs _ => ?_
      exact ih hs (L.version_later hw h) (hr.imp fun _ _ => L.location_later hw)

end Records

end Correspondence

end PathSlice
