import PathSlice.Proofs.AddressResolution
import PathSlice.Proofs.BacktrackRuns
import PathSlice.Proofs.FlowDrawing

/-! Copies of addresses. A cast, the choice of an incoming value and the binding of arguments and
results make new versions that were computed from one other version each, and do not say that these
are addresses. So a copy resolves to what the versions are addresses of that its original was
ultimately computed from. These are the locations of the original as well, unless the original was
computed from others and is known to be an address nevertheless. -/
namespace PathSlice

/-- What was computed from others meanwhile is not known to be an address. -/
def Copying (s t : State) : Prop :=
  ∀ e ∈ t.path.flows, e ∈ s.path.flows ∨ t.path.pointee? e.target = none

namespace Copying

variable {s t u : State}

theorem of_same (h : SameFlows s t) : Copying s t :=
  fun _ he => .inl (h.flows ▸ he)

theorem refl (s : State) : Copying s s :=
  fun _ he => .inl he

theorem after (h : SameFlows s t) (h' : Copying t u) : Copying s u := by
  intro e he
  rw [← h.flows]
  exact h' e he

/-- New flows lead into new versions, and no pointer of a new version is recorded. -/
theorem of_drawn (hs : Recorded s) (h : Drawn False s t)
    (hp : t.path.pointers = s.path.pointers) : Copying s t := by
  intro e he
  rcases h.added e he with he | ⟨hlow, _⟩
  · exact .inl he
  · right
    rw [Path.pointee?, hp]
    exact hs.pointee?_eq_none hlow

end Copying

namespace Recorder

variable {s : State}

theorem deriveFrom_copying (hs : Recorded s) {v : Version} (hv : v ∈ s.path.versions)
    (value : Value) (x : Term) :
    Copying s (addFlow v (newVersion value x s).1 none (newVersion value x s).2).2 :=
  .of_drawn hs (deriveFrom_drawn hs hv value x) (Path.pointers_addFlow ..)

private theorem pointers_bindEach (bound : List (Value × Version)) (s : State) :
    (bindEach bound s).2.path.pointers = s.path.pointers := by
  induction bound generalizing s with
  | nil => rfl
  | cons b bound ih => exact (ih _).trans (Path.pointers_addFlow ..)

end Recorder

namespace Effect

open Recorder

theorem versionOf?_copying {s : State} (hs : Recorded s) (value : Value) (x : Term)
    {k : Option Version → Effect Unit}
    (hk : ∀ v? t, Recorded t → (∀ v ∈ v?, v ∈ t.path.versions) → Copying t ((k v?).run t).2) :
    Copying s ((liftM (versionOf? value x) >>= k).run s).2 := by
  obtain ⟨ht, _, hv⟩ := Recorded.of_lookup ((recording_lawful 0).versionOf? hs.self value x)
  exact .after (versionOf?_quiet value x s) (hk _ _ ht hv)

/-- Casts, choices of an incoming value, and the binding of arguments and results. -/
inductive Copies : Effect Unit → Prop
  | cast {i : Value} {opcode : Opcode} (ho : i.opcode? = some opcode) (hc : opcode.isConversion)
      (x : Term) (erroneous : Bool) : Copies (execute i [x] erroneous)
  | choice (i : Value) (incoming : Nat) (x : Term) (erroneous : Bool) :
      Copies (choose i incoming x erroneous)
  | arguments (site : Value) (xs : List Term) : Copies (bindCall site xs)
  | result (site ret : Value) (x : Term) : Copies (bindReturn site ret x)

/-- The effect succeeds and makes the new version `y`, which was computed from `x` alone, and
neither `x` nor what it was computed from is an argument of the entry point. -/
structure MakesCopy (e : Effect Unit) (s t : State) (x y : Version) : Prop where
  copies : e.Copies
  run : e.run s = (.ok (), t)
  mem : y ∈ t.path.versions
  new : y ∉ s.path.versions
  sources : t.path.sourcesOf y = [x]
  plain : ∀ u ∈ t.path.closure x, ¬u.value.isEntryArgument

/-- What remains to be computed where the effect and the versions are given. -/
theorem MakesCopy.of_tests {e : Effect Unit} {s t : State} {x y : Version} (copies : e.Copies)
    (ok : (e.run s).1 = .ok ()) (state : (e.run s).2 = t)
    (latest : t.path.latest? y.value = some y)
    (new : s.path.versions.any (·.id == y.id) = false) (sources : t.path.sourcesOf y = [x])
    (plain : (t.path.closure x).any (·.value.isEntryArgument) = false) : e.MakesCopy s t x y where
  copies := copies
  run := Prod.ext ok state
  mem := Path.mem_versions_of_latest? latest
  new h := by simpa using List.any_eq_false.1 new y h
  sources := sources
  plain := List.any_eq_false.1 plain

private theorem execute_of_isConversion {i : Value} {opcode : Opcode} (ho : i.opcode? = some opcode)
    (hc : opcode.isConversion) (x : Term) (erroneous : Bool) :
    execute i [x] erroneous = convert i x erroneous := by
  have alloca : opcode ≠ .alloca := by
    rintro rfl
    cases hc
  unfold execute
  rw [ho]
  split
  · contradiction
  · cases ‹some opcode = some .call›
    cases hc
  · cases ‹some opcode = some _›
    simp only [unary, alloca, hc, if_true, if_false]

section Copying

variable {s : State}

private theorem convert_copying (hs : Recorded s) (i : Value) (x : Term) (erroneous : Bool) :
    Copying s ((convert i x erroneous).run s).2 := by
  apply run_operand_state (P := Copying s) (.refl s)
  intro source _
  refine versionOf?_copying hs source x fun v? t ht hv => ?_
  cases v? with
  | some v => exact deriveFrom_copying ht (hv v rfl) i x
  | none =>
    dsimp only
    split
    · exact .refl t
    · split
      · exact .of_same (newPointer_quiet i source x t)
      · split
        · refine .after (newVersion_quiet source x t) ?_
          exact deriveFrom_copying (ht.newVersion source x) List.mem_cons_self i x
        · exact .refl t

private theorem choose_copying (hs : Recorded s) (i : Value) (incoming : Nat) (x : Term)
    (erroneous : Bool) : Copying s ((choose i incoming x erroneous).run s).2 := by
  apply run_operand_state (P := Copying s) (.refl s)
  intro source _
  refine versionOf?_copying hs source x fun v? t ht hv => ?_
  cases v? with
  | some v => exact deriveFrom_copying ht (hv v rfl) i x
  | none =>
    dsimp only
    split
    · exact .of_same (newVersion_quiet i x t)
    · exact .refl t

private theorem bindCall_copying (hs : Recorded s) (site : Value) (xs : List Term) :
    Copying s ((bindCall site xs).run s).2 := by
  rw [bindCall_eq]
  cases site.callee? with
  | none => exact .refl s
  | some callee =>
    dsimp only
    split
    · exact .refl s
    · obtain ⟨hrec, _, hvs⟩ := Recorded.of_tracks ((recording_lawful 0).actuals hs.self
        ((site.callArguments.zip xs).take callee.parameters.length))
      apply Copying.after (actuals_quiet _ s)
      apply Copying.of_drawn hrec (bindEach_drawn hrec fun b hb => ?_) (pointers_bindEach _ _)
      exact (List.forall₂_same.1 hvs _ (List.of_mem_zip hb).2).2

private theorem bindReturn_copying (hs : Recorded s) (site ret : Value) (x : Term) :
    Copying s ((bindReturn site ret x).run s).2 := by
  unfold bindReturn
  split
  · cases ret.operands.head? with
    | none => exact .refl s
    | some returned =>
      refine versionOf?_copying hs returned x fun v? t ht hv => ?_
      cases v? with
      | none => exact .refl t
      | some v => exact deriveFrom_copying ht (hv v rfl) site x
  · exact .refl s

end Copying

namespace Copies

variable {s : State} {e : Effect Unit}

private theorem copying (h : Copies e) (hs : Recorded s) : Copying s (e.run s).2 := by
  cases h with
  | cast ho hc x erroneous =>
    rw [execute_of_isConversion ho hc]
    exact convert_copying hs _ x erroneous
  | choice i incoming x erroneous => exact choose_copying hs i incoming x erroneous
  | arguments site xs => exact bindCall_copying hs site xs
  | result site ret x => exact bindReturn_copying hs site ret x

theorem recorded (h : Copies e) (hs : Recorded s) : Recorded (e.run s).2 ∧ Grown s (e.run s).2 := by
  have follows : (recording 0).Follows s e e s s (recording 0).Any := by
    cases h with
    | cast ho hc x erroneous => exact (recording_lawful 0).execute hs.self _ [x] erroneous
    | choice i incoming x erroneous =>
      exact (recording_lawful 0).choose hs.self i incoming x erroneous
    | arguments site xs => exact (recording_lawful 0).bindCall hs.self site xs
    | result site ret x => exact (recording_lawful 0).bindReturn hs.self site ret x
  obtain ⟨ht, grown, _⟩ := Recorded.of_tracks follows
  exact ⟨ht, grown⟩

/-- A new version that was computed from others is not known to be an address. -/
theorem pointee?_eq_none (h : Copies e) (hs : Recorded s) {v : Version}
    (hv : v ∈ (e.run s).2.path.versions) (hnew : v ∉ s.path.versions)
    (hne : (e.run s).2.path.sourcesOf v ≠ []) : (e.run s).2.path.pointee? v = none := by
  obtain ⟨ht, grown⟩ := h.recorded hs
  obtain ⟨x, hx⟩ := List.exists_mem_of_ne_nil _ hne
  obtain ⟨f, hf, hi, _⟩ := Path.mem_flows_of_mem_sourcesOf hx
  rcases h.copying hs f hf with old | unknown
  · have known := (hs.closed.flows f old).1
    rw [ht.numbered.version_eq (grown.versions _ known) hv hi] at known
    exact absurd known hnew
  · rwa [Path.pointee?, hi] at unknown

end Copies

end Effect

namespace Recorded

open Recorder

variable {t : State} {x y : Version}

/-- A copy that is not known to be an address itself. -/
private theorem resolveAll_copy (h : Recorded t) (hy : y ∈ t.path.versions)
    (hx : t.path.sourcesOf y = [x]) (hp : t.path.pointee? y = none)
    (entry : ¬y.value.isEntryArgument)
    (plain : ∀ u ∈ t.path.closure x, ¬u.value.isEntryArgument) :
    resolveAll x t = (t.path.addressed x, t) ∧
      resolveAll y t = ((t.path.ends x).filterMap t.path.pointee?, t) := by
  have known : x ∈ t.path.versions := h.closed.mem_versions_of_mem_sourcesOf (v := y) (by simp [hx])
  have ends := h.ends_eq hy hx
  have plainEnds : ∀ u ∈ t.path.ends x, t.path.Plain u :=
    fun u hu _ => plain u (List.mem_filter.1 hu).1
  have original : t.path.Allocated x :=
    ⟨fun _ => plain x ((h.mem_closure_iff known).2 .refl), fun _ => plainEnds⟩
  have copy : t.path.Allocated y := ⟨fun _ => entry, fun _ => ends ▸ plainEnds⟩
  refine ⟨resolveAll_of_allocated original, ?_⟩
  rw [resolveAll_of_allocated copy, Path.addressed, hp, ends]

end Recorded

namespace Replay

open Recorder

/-- After any events, a cast, the choice of an incoming value or a binding may make a new version
`y` that was computed from `x` alone. Unless an argument of the entry point is involved, resolving
either changes nothing, and `y` resolves to what `x` resolves to, if `x` is not known to be an address
itself or was computed from nothing. If it is one, it resolves to its own location, but `y` to those
of the versions that `x` was ultimately computed from. -/
theorem copies_resolve (program : Program) (next : Nat) (existential : Bool) (events : List Event)
    {e : Effect Unit} {s t : State} {x y : Version}
    (hs : s = (pursue 0 events (start program next existential)).2.state)
    (h : e.MakesCopy s t x y) (entry : ¬y.value.isEntryArgument) :
    (resolveAll x t).2 = t ∧ (resolveAll y t).2 = t ∧
      (t.path.pointee? x = none ∨ t.path.sourcesOf x = [] →
        (resolveAll y t).1 = (resolveAll x t).1) ∧
      ∀ l, t.path.pointee? x = some l →
        (resolveAll x t).1 = [l] ∧
        (resolveAll y t).1 = (t.path.ends x).filterMap t.path.pointee? := by
  have before : Recorded s :=
    hs ▸ (pursue_standing program next existential events).settled.toRecorded
  have state : (e.run s).2 = t := congrArg Prod.snd h.run
  have after : Recorded t := state ▸ (h.copies.recorded before).1
  have unknown : t.path.pointee? y = none := by
    have new := h.copies.pointee?_eq_none (v := y) before
    rw [state, h.sources] at new
    exact new h.mem h.new (List.cons_ne_nil x [])
  obtain ⟨original, copy⟩ := after.resolveAll_copy h.mem h.sources unknown entry h.plain
  rw [original, copy]
  refine ⟨rfl, rfl, ?_, ?_⟩
  · rintro (none | none)
    · simp only [Path.addressed, none]
    · have known : x ∈ t.path.versions :=
        after.closed.mem_versions_of_mem_sourcesOf (v := y) (by simp [h.sources])
      have ends := after.ends_of_sourcesOf_eq_nil known none
      cases hl : t.path.pointee? x with
      | none => simp only [Path.addressed, hl]
      | some l => simp [Path.addressed, hl, ends]
  · intro l hl
    simp only [Path.addressed, hl, and_self]

/-! One of two slots is bound to a parameter. -/

namespace BoundSlots

def literal : Value := ⟨1, "k", .constant, .integer 1⟩
def left : Value := ⟨2, "p", .instruction .alloca "main" [], .pointer⟩
def right : Value := ⟨3, "q", .instruction .alloca "main" [], .pointer⟩
def either : Value := ⟨4, "s", .instruction .select "main" [literal, left, right], .pointer⟩
def parameter : Value := ⟨5, "a", .argument "f" 0, .pointer⟩
def callee : Value := ⟨6, "f", .function false [parameter], .integer 32⟩
def site : Value := ⟨7, "c", .instruction .call "main" [either, callee], .integer 32⟩

def program : Program := [literal, left, right, either, parameter, callee, site]

def events : List Event :=
  [.execute "p" [.pointer 16] false, .execute "q" [.pointer 32] false,
    .execute "s" [.pointer 16, .pointer 16, .pointer 32] false]

def state : State :=
  (pursue 0 events (start program 8 true)).2.state

def bound : State :=
  ((Effect.bindCall site [.pointer 16]).run state).2

def argument : Version := ⟨13, either, .pointer 16⟩
def passed : Version := ⟨14, parameter, .pointer 16⟩

private theorem makesCopy :
    (Effect.bindCall site [.pointer 16]).MakesCopy state bound argument passed :=
  .of_tests (.arguments site _) rfl rfl rfl rfl rfl (by decide +kernel)

end BoundSlots

/-- The parameter resolves to both slots. -/
theorem copies_resolve_boundSlots :
    (Effect.bindCall BoundSlots.site [.pointer 16]).MakesCopy BoundSlots.state BoundSlots.bound
        BoundSlots.argument BoundSlots.passed ∧
      (resolveAll BoundSlots.argument BoundSlots.bound).1.map (·.id) = [10, 12] ∧
      (resolveAll BoundSlots.passed BoundSlots.bound).1 =
        (resolveAll BoundSlots.argument BoundSlots.bound).1 := by
  have unknown : BoundSlots.bound.path.pointee? BoundSlots.argument = none := rfl
  obtain ⟨_, _, same, _⟩ := copies_resolve BoundSlots.program 8 true BoundSlots.events rfl
    BoundSlots.makesCopy (by decide)
  exact ⟨BoundSlots.makesCopy, by decide +kernel, same (.inl unknown)⟩

/-! A number is cast to an address, read through and cast again. -/

namespace Probed

def literal : Value := ⟨1, "k", .constant, .integer 64⟩
def original : Value := ⟨2, "x", .instruction .intToPtr "main" [literal], .pointer⟩
def read : Value := ⟨3, "r", .instruction .load "main" [original], .integer 32⟩
def copy : Value := ⟨4, "y", .instruction .bitCast "main" [original], .pointer⟩

def program : Program := [literal, original, read, copy]

def state : State :=
  (pursue 0 [.execute "x" [.pointer 16] false, .execute "r" [.ofBits 7 32, .pointer 16] false]
    (start program 5 true)).2.state

def copied : State :=
  ((Effect.execute copy [.pointer 16] false).run state).2

def first : Version := ⟨7, original, .pointer 16⟩
def second : Version := ⟨10, copy, .pointer 16⟩

private theorem makesCopy :
    (Effect.execute copy [.pointer 16] false).MakesCopy state copied first second :=
  .of_tests (.cast rfl rfl _ _) (by with_unfolding_all rfl) rfl (by with_unfolding_all rfl)
    (by decide +kernel) (by with_unfolding_all rfl) (by decide +kernel)

end Probed

/-! The entry point is called with the address of a slot. -/

namespace Reentered

def parameter : Value := ⟨1, "a", .argument "main" 0, .pointer⟩
def entry : Value := ⟨2, "main", .function false [parameter], .integer 32⟩
def slot : Value := ⟨3, "p", .instruction .alloca "main" [], .pointer⟩
def site : Value := ⟨4, "c", .instruction .call "main" [slot, entry], .integer 32⟩

def program : Program := [parameter, entry, slot, site]

def state : State :=
  (pursue 0 [.execute "p" [.pointer 16] false] (start program 5 true)).2.state

def bound : State :=
  ((Effect.bindCall site [.pointer 16]).run state).2

def argument : Version := ⟨6, slot, .pointer 16⟩
def passed : Version := ⟨8, parameter, .pointer 16⟩

private theorem makesCopy :
    (Effect.bindCall site [.pointer 16]).MakesCopy state bound argument passed :=
  .of_tests (.arguments site _) rfl rfl rfl rfl rfl (by decide +kernel)

end Reentered

/-- Reading through the first cast makes it known to be an address, which the second one does not
resolve to. A parameter of the entry point resolves to a location that is made up, and not to what
was bound to it. -/
theorem copies_differ :
    ((Effect.execute Probed.copy [.pointer 16] false).MakesCopy Probed.state Probed.copied
        Probed.first Probed.second ∧
      (resolveAll Probed.first Probed.copied).1.map (·.id) = [8] ∧
      (resolveAll Probed.second Probed.copied).1 = []) ∧
    (Effect.bindCall Reentered.site [.pointer 16]).MakesCopy Reentered.state Reentered.bound
        Reentered.argument Reentered.passed ∧
      (resolveAll Reentered.argument Reentered.bound).1.map (·.id) = [7] ∧
      (resolveAll Reentered.passed Reentered.bound).1.map (·.id) = [9] :=
  ⟨⟨Probed.makesCopy, by decide +kernel, by with_unfolding_all rfl⟩, Reentered.makesCopy,
    by decide +kernel, by decide +kernel⟩

end Replay

end PathSlice
