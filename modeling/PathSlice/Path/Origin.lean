import PathSlice.Order.Agenda
import PathSlice.Path.Basic

/-! Where a version comes from in memory: the nearest locations on the ways along which it was
computed.

Within one frame, flows that go through no location are followed backwards. A way ends at a flow
that goes through a location, at a version that was computed from nothing but was put into a
location, or at a version that the frame knows nothing about. The last kind is looked up in the
parent frame. -/
namespace PathSlice

/-- The end of a way within a frame. `source` is the version that was loaded from the location; it
is absent if the location is where a version was put. `location` is absent if the frame knows no
location. -/
structure LocalOrigin where
  source : Option Version
  location : Option Location

/-- A location that a version comes from, with the version that was loaded from it on the way. -/
structure Origin where
  source : Option Version
  location : Location

/-- Origins are ordered by their sources, no source coming first. -/
def sourceRank : Option Version → Nat
  | none => 0
  | some v => v.id + 1

def LocalOrigin.compare (a b : LocalOrigin) : Ordering :=
  compareOn (fun o => sourceRank o.source) a b

def Origin.compare (a b : Origin) : Ordering :=
  compareOn (fun o => sourceRank o.source) a b

namespace Frame

/-- True if the frame knows where a version comes from. -/
def leadsOn (f : Frame) (v : Version) : Bool :=
  !(f.flowsInto v).isEmpty || (f.lastDeposit? v).isSome

/-- The state of a walk: the identities of the versions that were not come across yet, the versions
to walk on from, the next one first, and the ends found. -/
structure Walk where
  pending : List Nat
  stack : List Version
  found : List LocalOrigin

def follow (f : Frame) (w : Walk) (e : Flow) : Walk :=
  if e.via.isSome then
    { w with found := Ascending.put LocalOrigin.compare ⟨some e.source, e.via⟩ w.found }
  else if f.leadsOn e.source then
    if e.source.id ∈ w.pending then
      { w with
        pending := Agenda.without e.source.id w.pending
        stack := e.source :: w.stack }
    else w
  else
    { w with found := Ascending.put LocalOrigin.compare ⟨some e.source, none⟩ w.found }

/-- What is left to do does not grow when a flow is followed. -/
theorem size_follow_le (f : Frame) (w : Walk) (e : Flow) :
    (f.follow w e).pending.length + (f.follow w e).stack.length ≤
      w.pending.length + w.stack.length := by
  unfold follow
  split
  · exact Nat.le_refl _
  · split
    · split
      · rename_i h
        have := Agenda.length_without_lt h
        simp only [List.length_cons]
        omega
      · exact Nat.le_refl _
    · exact Nat.le_refl _

theorem size_foldl_follow_le (f : Frame) (es : List Flow) (w : Walk) :
    (es.foldl f.follow w).pending.length + (es.foldl f.follow w).stack.length ≤
      w.pending.length + w.stack.length := by
  induction es generalizing w with
  | nil => exact Nat.le_refl _
  | cons e es ih => exact Nat.le_trans (ih _) (size_follow_le f w e)

/-- Walks on from the versions on the stack. An end that has the source of an earlier one replaces
it. -/
def walk (f : Frame) (w : Walk) : List LocalOrigin :=
  match _h : w.stack with
  | [] => w.found
  | v :: rest =>
    match f.flowsInto v with
    | [] =>
      match f.lastDeposit? v with
      | some l => f.walk ⟨w.pending, rest, Ascending.put LocalOrigin.compare ⟨none, some l⟩ w.found⟩
      | none => f.walk ⟨w.pending, rest, w.found⟩
    | e :: es =>
      have := size_foldl_follow_le f (e :: es) ⟨w.pending, rest, w.found⟩
      f.walk ((e :: es).foldl f.follow ⟨w.pending, rest, w.found⟩)
termination_by w.pending.length + w.stack.length
decreasing_by all_goals simp_all +arith

/-- The ends of all ways that lead to a version within the frame, ordered by source. -/
def localOrigins (f : Frame) (target : Version) : List LocalOrigin :=
  f.walk ⟨Agenda.without target.id (f.flows.map (·.source.id)), [target], []⟩

end Frame

namespace Path

/-- The search through the frames of a path: the pairs of frame and version looked at, and what was
found. -/
structure Search where
  seen : List (Nat × Nat) := []
  found : List Origin := []

/-- Keeps the ends that have a location, unless there is an origin with the same source already. -/
def Search.keep (s : Search) (os : List LocalOrigin) : Search :=
  { s with
    found := os.foldl (fun found o =>
      match o.location with
      | some l => Ascending.insert Origin.compare ⟨o.source, l⟩ found
      | none => found) s.found }

/-- Looks a version up in the first of the given frames, and what that frame cannot place in the
frames behind it. -/
def search : List Frame → Version → Search → Search
  | [], _, s => s
  | f :: parents, v, s =>
    if s.seen.contains (f.id, v.id) then s
    else
      let s := { s with seen := (f.id, v.id) :: s.seen }
      match f.localOrigins v with
      | [] => search parents v s
      | os =>
        os.reverse.foldl
          (fun s o =>
            match o with
            | ⟨some source, none⟩ => search parents source s
            | _ => s)
          (s.keep os)

/-- The nearest locations that a version comes from, ordered by source. -/
def origins (p : Path) (target : Version) : List Origin :=
  (search p.frames target {}).found

end Path

end PathSlice
