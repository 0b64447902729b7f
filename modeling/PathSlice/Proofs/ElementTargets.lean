import PathSlice.Proofs.LoadAfterStore

/-! The address of an element of one of several objects. It is recorded once for every location of
its base, but a version resolves to the latest record of it only. So the address of an element keeps
the last one of the objects, and all of them exactly if they are one. -/
namespace PathSlice

private theorem Path.pointee?_of_pointers {p : Path} {v : Version} {l : Location} {rs : List Pointer}
    (h : p.pointers = ⟨v, l⟩ :: rs) : p.pointee? v = some l := by
  simp [pointee?, h]

namespace Recorder

/-- The element is one of the object of `base` at the address, and nothing else is recorded. -/
private theorem elementAt_spec (base : Location) (x : Term) (s : State) :
    (elementAt base x s).1.isAt base.site x ∧
      (elementAt base x s).2.path.pointers = s.path.pointers ∧
      (elementAt base x s).2.path.versions = s.path.versions := by
  cases h : s.path.latestLocation? base.site x with
  | some l =>
    have run : elementAt base x s = (l, s) := by
      rw [elementAt, run_get, h]
      rfl
    rw [run]
    exact ⟨List.find?_some (p := fun l : Location => l.isAt base.site x) h, rfl, rfl⟩
  | none =>
    rw [elementAt_run h]
    refine ⟨?_, rfl, rfl⟩
    simp [Location.isAt]

/-- What is left behind when `v` is made the address of elements of the objects of some locations. A
pointer is recorded for each of them, that for the last one last. -/
structure Pointed (v : Version) (x : Term) (ls : List Location) (s t : State) : Prop where
  versions : t.path.versions = s.path.versions
  kept : ∀ r ∈ s.path.pointers, r ∈ t.path.pointers
  recorded : ∀ l ∈ ls, ∃ e, ⟨v, e⟩ ∈ t.path.pointers ∧ e.isAt l.site x
  last : ∀ l ∈ ls.getLast?, ∃ e, t.path.pointee? v = some e ∧ e.isAt l.site x

private theorem pointInto_pointed (v : Version) (x : Term) (ls : List Location) (s : State) :
    Pointed v x ls s (pointInto v x ls s).2 := by
  induction ls generalizing s with
  | nil => exact ⟨rfl, fun _ hr => hr, by simp, by simp⟩
  | cons l ls ih =>
    let e := (elementAt l x s).1
    let t := (addPointer v e (elementAt l x s).2).2
    obtain ⟨hat, hpointers, hversions⟩ := elementAt_spec l x s
    have first : t.path.pointers = ⟨v, e⟩ :: s.path.pointers := congrArg (_ :: ·) hpointers
    have rest : Pointed v x ls t (pointInto v x (l :: ls) s).2 := ih t
    refine ⟨rest.versions.trans hversions, fun r hr => ?_, fun k hk => ?_, fun k hk => ?_⟩
    · apply rest.kept
      rw [first]
      exact List.mem_cons_of_mem _ hr
    · rcases List.mem_cons.1 hk with rfl | hk
      · refine ⟨e, rest.kept _ ?_, hat⟩
        rw [first]
        exact List.mem_cons_self
      · exact rest.recorded k hk
    · cases ls with
      | nil =>
        obtain rfl : l = k := by simpa using hk
        exact ⟨e, Path.pointee?_of_pointers first, hat⟩
      | cons m ms =>
        rw [List.getLast?_cons_cons] at hk
        exact rest.last k hk

end Recorder

namespace Effect

open Recorder

variable {s : State} {i base : Value} {inBounds : Bool} {a : Version}

/-- The address of an element of objects that are known is an address in every one of them. -/
private theorem element_pointed (hb : i.operands[0]? = some base) (hc : ¬base.isConstant)
    (ha : s.path.latest? base = some a) (hne : (resolveAll a s).1 ≠ []) (inBounds : Bool)
    (r b : Term) :
    ∃ v t u, (element i inBounds r b).run s = (.ok (), u) ∧ u.path.latest? i = some v ∧
      Pointed v r (resolveAll a s).1 t u := by
  let made := newVersion i r (resolveAll a s).2
  have looked := versionOf?_of_not_isConstant hc b s
  rw [ha] at looked
  have found : (!(resolveAll a s).1.isEmpty) = true := by simpa using hne
  have run : elementOf i a r s = pointInto made.1 r (resolveAll a s).1 made.2 := by
    rw [elementOf, run_bind, if_pos found]
    rfl
  have pointed := pointInto_pointed made.1 r (resolveAll a s).1 made.2
  refine ⟨made.1, made.2, (elementOf i a r s).2, ?_, ?_, ?_⟩
  · rw [element, run_operand hb, if_neg hc, run_lift, looked]
    rfl
  · rw [run, Path.latest?, pointed.versions]
    exact (latest?_newVersion i i r _).trans (if_pos rfl)
  · rw [run]
    exact pointed

/-- The address of an element resolves to one location, in the object of the last location of its
base. It is recorded as an address in the objects of all of them, so it resolves to one in each of
them exactly if they are the same object. -/
theorem element_targets (ho : i.opcode? = some (.getElementPtr inBounds))
    (hb : i.operands[0]? = some base) (hc : ¬base.isConstant) (ha : s.path.latest? base = some a)
    {ls : List Location} {l : Location} (hls : (resolveAll a s).1 = ls ++ [l]) (r b : Term)
    (erroneous : Bool) :
    ∃ v t e, (execute i [r, b] erroneous).run s = (.ok (), t) ∧ t.path.latest? i = some v ∧
      resolveAll v t = ([e], t) ∧ e.isAt l.site r ∧
      (∀ k ∈ ls ++ [l], ∃ m, ⟨v, m⟩ ∈ t.path.pointers ∧ m.isAt k.site r) ∧
      ((∀ k ∈ ls ++ [l], ∃ m ∈ (resolveAll v t).1, m.isAt k.site r) ↔
        ∀ k ∈ ls, k.site.id = l.site.id) := by
  have executed : execute i [r, b] erroneous = element i inBounds r b := by
    simp only [execute, ho, binary]
  have known : (resolveAll a s).1 ≠ [] := by simp [hls]
  obtain ⟨v, _, t, run, hv, pointed⟩ := element_pointed hb hc ha known inBounds r b
  rw [hls] at pointed
  obtain ⟨e, he, hat⟩ := pointed.last l (by simp)
  have resolved : resolveAll v t = ([e], t) := by
    rw [resolveAll_run, resolve?_of_pointee? he]
  obtain ⟨site, address⟩ : e.site.id = l.site.id ∧ e.address = r := by
    simpa [Location.isAt] using hat
  have found (k : Location) :
      (∃ m ∈ (resolveAll v t).1, m.isAt k.site r) ↔ k.site.id = l.site.id := by
    rw [resolved, eq_comm]
    simp [Location.isAt, site, address]
  refine ⟨v, t, e, executed ▸ run, hv, resolved, hat, pointed.recorded, ?_⟩
  simp only [found, List.forall_mem_append, List.forall_mem_singleton, and_true]

end Effect

namespace Replay

open Recorder

/-! The address of an element of one of two slots. -/

namespace EitherSlot

def literal : Value := ⟨1, "k", .constant, .integer 64⟩
def left : Value := ⟨2, "p", .instruction .alloca "main" [], .pointer⟩
def right : Value := ⟨3, "q", .instruction .alloca "main" [], .pointer⟩
def either : Value := ⟨4, "s", .instruction .select "main" [literal, left, right], .pointer⟩
def element : Value :=
  ⟨5, "e", .instruction (.getElementPtr true) "main" [either, literal], .pointer⟩

def program : Program := [literal, left, right, either, element]

def state : State :=
  (pursue 0 [.execute "p" [.pointer 16] false, .execute "q" [.pointer 32] false,
    .execute "s" [.pointer 16, .pointer 16, .pointer 32] false] (start program 6 true)).2.state

def leftStart : Location := .start 8 left (.pointer 16)
def rightStart : Location := .start 10 right (.pointer 32)

private theorem resolved :
    (state.path.latest? either).map (fun a => (resolveAll a state).1) =
      some [leftStart, rightStart] := by
  with_unfolding_all rfl

end EitherSlot

/-- The left slot is lost, though it is on record. -/
theorem element_targets_eitherSlot :
    ∃ v t e,
      (Effect.execute EitherSlot.element [.pointer 24, .pointer 16] false).run EitherSlot.state =
        (.ok (), t) ∧
      t.path.latest? EitherSlot.element = some v ∧ resolveAll v t = ([e], t) ∧
      e.isAt EitherSlot.right (.pointer 24) ∧
      (∃ m, ⟨v, m⟩ ∈ t.path.pointers ∧ m.isAt EitherSlot.left (.pointer 24)) ∧
      ¬∃ m ∈ (resolveAll v t).1, m.isAt EitherSlot.left (.pointer 24) := by
  obtain ⟨a, ha, starts⟩ := Option.map_eq_some_iff.1 EitherSlot.resolved
  have hls : (resolveAll a EitherSlot.state).1 =
    [EitherSlot.leftStart] ++ [EitherSlot.rightStart] := starts
  obtain ⟨v, t, e, run, hv, resolved, hat, recorded, iff⟩ :=
    Effect.element_targets (i := EitherSlot.element) rfl rfl (by decide) ha hls (.pointer 24)
      (.pointer 16) false
  refine ⟨v, t, e, run, hv, resolved, hat, recorded EitherSlot.leftStart (by simp), fun left => ?_⟩
  have right : ∃ m ∈ (resolveAll v t).1, m.isAt EitherSlot.right (.pointer 24) := by
    rw [resolved]
    exact ⟨e, List.mem_singleton_self e, hat⟩
  have same : EitherSlot.left.id = EitherSlot.right.id :=
    iff.1 (List.forall_mem_cons.2 ⟨left, List.forall_mem_singleton.2 right⟩)
      EitherSlot.leftStart (List.mem_singleton_self _)
  exact absurd same (by decide)

end Replay

end PathSlice
