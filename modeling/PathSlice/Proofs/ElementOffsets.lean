import Mathlib.Algebra.Group.Nat.Defs
import PathSlice.Proofs.BacktrackRuns

/-! Offsets of locations. A location starts an object, or it was reached from an older location of
the object, and then its offset is that of the other one displaced by the difference of their
addresses. As long as addresses are words, displacements add up as words do: however an element was
reached, forwards, backwards or around the end of memory, its offset is its distance from the start.
-/
namespace PathSlice

/-- Every location, the latest first, is at the start of an object or displaced from an older
location of the same object. -/
inductive Laid : List Location → Prop
  | nil : Laid []
  | start {l : Location} {ls : List Location} (h : Laid ls) (ho : l.offset = .pointer 0) :
      Laid (l :: ls)
  | element {l base : Location} {ls : List Location} (h : Laid ls) (hb : base ∈ ls)
      (hs : base.site = l.site) (ho : l.offset = base.displaced (l.address.sub base.address)) :
      Laid (l :: ls)

theorem Laid.suffix {ls ms : List Location} (h : Laid (ls ++ ms)) : Laid ms := by
  induction ls with
  | nil => exact h
  | cons l ls ih =>
    cases h with
    | start h _ => exact ih h
    | element h _ _ _ => exact ih h

/-! What events add. -/

theorem Move.laid {n : Nat} {s t : State} (h : Move n s t) (hs : Laid s.path.locations) :
    Laid t.path.locations := by
  cases h with
  | location => exact hs.start rfl
  | element hb hx =>
    rw [Recorder.elementAt_run hx]
    exact hs.element hb rfl rfl
  | version | pointer | deposit | notice => exact hs
  | flow | passage => exact (Path.locations_addFlow s.path _ _ _).symm ▸ hs
  | @slice v => exact (Recorder.sliceFrom_state v s).1.symm ▸ hs
  | sliceIdly => exact (Recorder.sliceIdly_state s).1.symm ▸ hs

theorem Moves.laid {n : Nat} {s t : State} (h : Moves n s t) (hs : Laid s.path.locations) :
    Laid t.path.locations := by
  induction h with
  | refl => exact hs
  | tail _ h ih => exact h.laid ih

/-- What is displaced from a location was created after it, so a frame that is given up takes no
location away that another one is displaced from. -/
theorem Turn.laid {e : Event} {s t : State} (h : Turn e s t) (hs : Laid s.path.locations) :
    Laid t.path.locations := by
  cases h with
  | effect _ hm => exact hm.laid hs
  | fork | idle => exact hs
  | backtrack => exact hs.suffix

/-! Words. -/

section Words

theorem mask_pointer (a : UInt64) : mask a 64 = a :=
  if_pos (by decide)

theorem pointer_eq (a : UInt64) : Term.pointer a = .constant a 64 := by
  simp [Term.pointer, Term.ofBits, mask_pointer]

private theorem sub_constant (a b : UInt64) :
    Term.sub (.constant a 64) (.constant b 64) = .constant (a - b) 64 := by
  simp [Term.sub, Term.constant?, Term.width, Term.ofBits, mask_pointer]

private theorem displaced_constant {l : Location} {o : UInt64} (h : l.offset = .constant o 64)
    (d : UInt64) : l.displaced (.constant d 64) = .constant (o + d) 64 := by
  simp [Location.displaced, h, Term.constant?, Term.ofBits, mask_pointer]

end Words

/-- The offset of `l` is its distance from `b`, where its object starts. -/
structure Measured (b l : Location) : Prop where
  site : b.site = l.site
  start : b.offset = .constant 0 64
  older : b.id ≤ l.id
  distance : ∃ a c o : UInt64, l.address = .constant a 64 ∧ b.address = .constant c 64 ∧
    l.offset = .constant o 64 ∧ a.toNat = (c.toNat + o.toNat) % 2 ^ 64

namespace Measured

variable {b base l : Location} {a : UInt64}

theorem self (ho : l.offset = .pointer 0) (ha : l.address = .constant a 64) : Measured l l where
  site := rfl
  start := ho.trans (pointer_eq 0)
  older := Nat.le_refl _
  distance := ⟨a, a, 0, ha, ha, ho.trans (pointer_eq 0), by simp [Nat.mod_eq_of_lt a.toNat_lt]⟩

/-- The distance to `l` is that to `base` and from there to `l`. -/
theorem displaced (h : Measured b base) (hi : base.id ≤ l.id) (hs : base.site = l.site)
    (ho : l.offset = base.displaced (l.address.sub base.address))
    (ha : l.address = .constant a 64) : Measured b l := by
  obtain ⟨x, c, o, hx, hc, hbase, sum⟩ := h.distance
  have sum : x = c + o := by
    apply UInt64.toNat_inj.1
    rw [sum, UInt64.toNat_add]
  have far : c + (o + (a - x)) = a := by
    rw [sum]
    grind
  refine ⟨h.site.trans hs, h.start, Nat.le_trans h.older hi, a, c, o + (a - x), ha, hc, ?_, ?_⟩
  · rw [ho, ha, hx, sub_constant, displaced_constant hbase]
  · rw [← UInt64.toNat_add, far]

end Measured

/-- If all addresses are words, every location is measured from the start of its object. -/
theorem Laid.measured {ls : List Location} (h : Laid ls)
    (hi : ls.Pairwise fun l m => m.id < l.id)
    (hw : ∀ l ∈ ls, ∃ a, l.address = .constant a 64) :
    ∀ l ∈ ls, ∃ b ∈ ls, Measured b l := by
  induction h with
  | nil => simp
  | start h ho ih =>
    obtain ⟨_, order⟩ := List.pairwise_cons.1 hi
    obtain ⟨⟨a, ha⟩, words⟩ := List.forall_mem_cons.1 hw
    intro m hm
    rcases List.mem_cons.1 hm with rfl | hm
    · exact ⟨m, List.mem_cons_self, .self ho ha⟩
    · obtain ⟨b, hb, measured⟩ := ih order words m hm
      exact ⟨b, List.mem_cons_of_mem _ hb, measured⟩
  | @element l base ls h hbase hs ho ih =>
    obtain ⟨younger, order⟩ := List.pairwise_cons.1 hi
    obtain ⟨⟨a, ha⟩, words⟩ := List.forall_mem_cons.1 hw
    intro m hm
    rcases List.mem_cons.1 hm with rfl | hm
    · obtain ⟨b, hb, measured⟩ := ih order words base hbase
      have older := Nat.le_of_lt (younger base hbase)
      exact ⟨b, List.mem_cons_of_mem m hb, measured.displaced older hs ho ha⟩
    · obtain ⟨b, hb, measured⟩ := ih order words m hm
      exact ⟨b, List.mem_cons_of_mem l hb, measured⟩

namespace Replay

private theorem pursue_laid (program : Program) (next : Nat) (existential : Bool)
    (events : List Event) :
    Laid (pursue 0 events (start program next existential)).2.state.path.locations :=
  pursue_invariant (P := fun s => Laid s.path.locations) (fun _ ht hs => ht.laid hs)
    (start_standing program next existential) .nil 0 events

/-- After any events, on a path all of whose locations have words for addresses, every location has
a word for an offset, and an older or equal location of the same object has offset zero, from which
the offset leads to the address, modulo the size of memory. -/
theorem offsets_measured (program : Program) (next : Nat) (existential : Bool) (events : List Event)
    (words : ∀ l ∈ (pursue 0 events (start program next existential)).2.state.path.locations,
      ∃ a, l.address = .constant a 64) :
    let p := (pursue 0 events (start program next existential)).2.state.path
    ∀ l ∈ p.locations, (∃ o, l.offset = .constant o 64) ∧ ∃ b ∈ p.locations, Measured b l := by
  intro p l hl
  have numbered := (pursue_standing program next existential events).settled.numbered
  have laid : Laid p.locations := pursue_laid program next existential events
  obtain ⟨b, hb, measured⟩ := laid.measured numbered.locations words l hl
  obtain ⟨_, _, o, _, _, ho, _⟩ := measured.distance
  exact ⟨⟨o, ho⟩, b, hb, measured⟩

/-! From the start of an object to an element, back to one before the start, and from there around
the end of memory. -/

namespace Around

def literal : Value := ⟨1, "k", .constant, .integer 64⟩
def object : Value := ⟨2, "p", .instruction .alloca "main" [], .pointer⟩
def behind : Value :=
  ⟨3, "q", .instruction (.getElementPtr true) "main" [object, literal], .pointer⟩
def before : Value :=
  ⟨4, "r", .instruction (.getElementPtr true) "main" [behind, literal], .pointer⟩
def beyond : Value :=
  ⟨5, "t", .instruction (.getElementPtr true) "main" [before, literal], .pointer⟩

def program : Program := [literal, object, behind, before, beyond]

def events : List Event :=
  [.execute "p" [.pointer 16] false,
    .execute "q" [.pointer 24, .pointer 16] false,
    .fork,
    .execute "r" [.pointer 8, .pointer 24] false,
    .execute "t" [.pointer 18446744073709551608, .pointer 8] false]

end Around

theorem offsets_measured_around :
    let p := (pursue 0 Around.events (start Around.program 6 true)).2.state.path
    (p.locations.map fun l => (l.address, l.offset)) =
      [(.pointer 18446744073709551608, .pointer 18446744073709551592),
        (.pointer 8, .pointer 18446744073709551608), (.pointer 24, .pointer 8),
        (.pointer 16, .pointer 0)] ∧
    ∀ l ∈ p.locations, (∃ o, l.offset = .constant o 64) ∧ ∃ b ∈ p.locations, Measured b l := by
  have told : ((pursue 0 Around.events (start Around.program 6 true)).2.state.path.locations.map
      fun l => (l.address, l.offset)) =
      [(.pointer 18446744073709551608, .pointer 18446744073709551592),
        (.pointer 8, .pointer 18446744073709551608), (.pointer 24, .pointer 8),
        (.pointer 16, .pointer 0)] := rfl
  refine ⟨told, offsets_measured Around.program 6 true Around.events fun l hl => ?_⟩
  have hl := List.mem_map_of_mem (f := fun l => (l.address, l.offset)) hl
  rw [told] at hl
  simp only [List.mem_cons, Prod.mk.injEq, List.not_mem_nil, or_false] at hl
  rcases hl with ⟨ha, _⟩ | ⟨ha, _⟩ | ⟨ha, _⟩ | ⟨ha, _⟩ <;> exact ⟨_, ha.trans (pointer_eq _)⟩

end Replay

end PathSlice
