import PathSlice.Proofs.ArraySubstitution
import PathSlice.Proofs.CoreStores

/-! The core stores over shadows. An existential session reports the stores that a plain one
reports, with the shadow of every array in its place, and fails if there is an array that has none.
Which stores are reported does not depend on the shadows: they are sorted by the addresses of their
locations and not by what the addresses become. -/
namespace PathSlice

namespace Store

/-- The arrays that the address and the content read. -/
def arrays (s : Store) : List SymArray :=
  s.address.arrays ++ s.content.arrays

/-- The store with other arrays, still under its site and numeric address. -/
def mapArrays (f : SymArray → SymArray) (s : Store) : Store :=
  { s with address := s.address.mapArrays f, content := s.content.mapArrays f }

@[simp] theorem mapArrays_site (f : SymArray → SymArray) (s : Store) :
    (s.mapArrays f).site = s.site :=
  rfl

@[simp] theorem mapArrays_numeric (f : SymArray → SymArray) (s : Store) :
    (s.mapArrays f).numeric = s.numeric :=
  rfl

theorem arrays_mapArrays (f : SymArray → SymArray) (s : Store) :
    (s.mapArrays f).arrays = s.arrays.map f := by
  simp [arrays, mapArrays, Term.arrays_mapArrays]

section Tables

variable {α β : Type}

/-- A group with something else in the place of everything it lists. -/
def Group.map (f : α → β) (g : Group α) : Group β :=
  ⟨g.site, g.stores.map f⟩

private theorem groupOf_map (f : α → β) (site : Value) (gs : List (Group α)) :
    groupOf site (gs.map (Group.map f)) = (groupOf site gs).map f := by
  unfold groupOf
  rw [List.find?_map]
  change ((Option.map (Group.map f) (gs.find? fun g => g.site.id == site.id)).map _).getD [] = _
  cases gs.find? fun g => g.site.id == site.id <;> rfl

private theorem updateGroup_map (f : α → β) (site : Value) {change : List α → List α}
    {change' : List β → List β} (h : ∀ l, change' (l.map f) = (change l).map f)
    (gs : List (Group α)) :
    updateGroup site change' (gs.map (Group.map f)) =
      (updateGroup site change gs).map (Group.map f) := by
  unfold updateGroup
  rw [groupOf_map, h]
  exact Ascending.put_map (f := Group.map f) (fun _ _ => rfl) ⟨site, change (groupOf site gs)⟩ gs

private theorem concrete_mapArrays (f : SymArray → SymArray) (ss : List Store) :
    concrete (ss.map (mapArrays f)) =
      (concrete ss).map (Group.map (Prod.map id (mapArrays f))) := by
  induction ss using List.reverseRecOn with
  | nil => rfl
  | append_singleton ss s ih =>
    rw [List.map_append, List.map_singleton, concrete_concat, concrete_concat, mapArrays_numeric,
      mapArrays_site, ih]
    cases s.numeric with
    | none => rfl
    | some n =>
      exact updateGroup_map _ s.site
        (Ascending.put_map (f := Prod.map id (mapArrays f)) (fun _ _ => rfl) (n, s)) _

private theorem symbolic_mapArrays (f : SymArray → SymArray) (ss : List Store) :
    symbolic (ss.map (mapArrays f)) = (symbolic ss).map (Group.map (mapArrays f)) := by
  induction ss using List.reverseRecOn with
  | nil => rfl
  | append_singleton ss s ih =>
    rw [List.map_append, List.map_singleton, symbolic_concat, symbolic_concat, mapArrays_numeric,
      mapArrays_site, ih]
    cases s.numeric with
    | some n => rfl
    | none => exact updateGroup_map _ s.site (fun l => by simp) _

end Tables

end Store

section Shadowed

variable (r : Registry)

/-- A session that puts shadows in the place of arrays. -/
def Session.over (used : List SymArray) : Session :=
  { existential := true, registry := r, used := used }

theorem Extraction.meets_substitute (t : Term) :
    Meets r.shadow? Fault.noShadow (Session.over r) (Extraction.substitute t) t.arrays
      (t.mapArrays (imageOr r.shadow?)) := by
  intro used
  obtain ⟨result, used', hrun, met⟩ := t.meets_substitute r.shadow? used
  have run : (Extraction.substitute t).run (Session.over r used) =
      (result.mapError Fault.noShadow, Session.over r used') := by
    let lift (x : Except SymArray Term × List SymArray) : Except Fault Term × Session :=
      (x.1.mapError Fault.noShadow, Session.over r x.2)
    exact congrArg lift hrun
  refine ⟨_, used', run, ?_⟩
  cases met with
  | all known mem => exact .all known mem
  | lacks hx unknown kept only => exact .lacks hx unknown kept only

private theorem Path.meets_shadowedStores (xs : List (Location × Version)) :
    Meets r.shadow? Fault.noShadow (Session.over r) (shadowedStores xs)
      ((xs.map storeOf).flatMap Store.arrays)
      ((xs.map storeOf).map (Store.mapArrays (imageOr r.shadow?))) := by
  induction xs with
  | nil => exact .pure _
  | cons x xs ih =>
    obtain ⟨l, v⟩ := x
    rw [List.map_cons, List.flatMap_cons, Store.arrays, List.append_assoc]
    exact (Extraction.meets_substitute r l.address).bind
      ((Extraction.meets_substitute r v.term).bind (ih.map _))

end Shadowed

namespace Path

variable {p : Path} {m : Marks} {r : Registry}

/-- The array is read by the address of a core location that holds a core version, or by the term of
that version. -/
def CoreReads (p : Path) (m : Marks) (a : SymArray) : Prop :=
  ∃ l ∈ p.coreLocations m, ∃ v, p.content? l = some v ∧ m.isCore v ∧
    (a ∈ l.address.arrays ∨ a ∈ v.term.arrays)

theorem mem_arrays_coreContents {a : SymArray} :
    a ∈ ((p.coreContents m).map storeOf).flatMap Store.arrays ↔ p.CoreReads m a := by
  simp [CoreReads, mem_coreContents, Store.arrays, storeOf, and_assoc]

private theorem mem_images_of_mem_arrays {s : Store} {b : SymArray}
    (known : ∀ a, p.CoreReads m a → (r.shadow? a).isSome)
    (hs : s ∈ ((p.coreContents m).map storeOf).map (Store.mapArrays (imageOr r.shadow?)))
    (hb : b ∈ s.arrays) : ∃ a, p.CoreReads m a ∧ r.shadow? a = some b := by
  obtain ⟨s', hs', rfl⟩ := List.mem_map.1 hs
  rw [Store.arrays_mapArrays] at hb
  obtain ⟨a, ha, rfl⟩ := List.mem_map.1 hb
  have reads : p.CoreReads m a := mem_arrays_coreContents.1 (List.mem_flatMap.2 ⟨s', hs', ha⟩)
  obtain ⟨b, hb⟩ := Option.isSome_iff_exists.1 (known a reads)
  exact ⟨a, reads, by simp [imageOr, hb]⟩

/-- What an existential session reports of the core of any path. It succeeds if and only if all
arrays that are read there have shadows. Its stores are those of a plain session, in the same groups
and order, with the shadow of every array in its place. It uses the shadows of the arrays that are
read and no others, and so all arrays that the reported stores read are used. -/
theorem coreStores_shadowed (p : Path) (m : Marks) (r : Registry) (used : List SymArray) :
    let run := (p.stores m true).run (Session.over r used)
    ((∃ ss, run.1 = .ok ss) ↔ ∀ a, p.CoreReads m a → (r.shadow? a).isSome) ∧
    ∀ ss, run.1 = .ok ss →
      (∀ plain : Session, plain.existential = false →
        ∃ ss', (p.stores m true).run plain = (.ok ss', plain) ∧
          Store.concrete ss = (Store.concrete ss').map
            (.map (Prod.map id (Store.mapArrays (imageOr r.shadow?)))) ∧
          Store.symbolic ss = (Store.symbolic ss').map
            (.map (Store.mapArrays (imageOr r.shadow?)))) ∧
      ∃ used', run.2 = Session.over r used' ∧
        (∀ b, b ∈ used' ↔ b ∈ used ∨ ∃ a, p.CoreReads m a ∧ r.shadow? a = some b) ∧
        (∀ site n s, Store.Lists (Store.concrete ss) site (n, s) → ∀ b ∈ s.arrays, b ∈ used') ∧
        ∀ site s, Store.Lists (Store.symbolic ss) site s → ∀ b ∈ s.arrays, b ∈ used' := by
  intro run
  obtain ⟨result, used', hrun, met⟩ := meets_shadowedStores r (p.coreContents m) used
  rw [show run = _ from hrun]
  cases met with
  | lacks hx unknown _ _ =>
    have fails : ¬∀ a, p.CoreReads m a → (r.shadow? a).isSome := fun known => by
      simpa [unknown] using known _ (mem_arrays_coreContents.1 hx)
    simp [fails]
  | all known mem =>
    simp only [mem_arrays_coreContents] at known mem
    refine ⟨⟨fun _ => known, fun _ => ⟨_, rfl⟩⟩, ?_⟩
    rintro _ ⟨⟩
    have covered : ∀ s ∈ ((p.coreContents m).map storeOf).map
        (Store.mapArrays (imageOr r.shadow?)), ∀ b ∈ s.arrays, b ∈ used' :=
      fun s hs b hb => (mem b).2 (.inr (mem_images_of_mem_arrays known hs hb))
    refine ⟨fun plain hplain => ?_, used', rfl, mem, fun site n s hs => ?_, fun site s hs => ?_⟩
    · exact ⟨_, shadowedStores_run hplain _, Store.concrete_mapArrays _ _,
        Store.symbolic_mapArrays _ _⟩
    · exact covered s (Store.mem_of_lists_concrete hs)
    · exact covered s (Store.mem_of_lists_symbolic hs)

end Path

end PathSlice
