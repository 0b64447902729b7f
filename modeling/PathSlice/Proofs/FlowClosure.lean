import Mathlib.Logic.Relation
import PathSlice.Proofs.NearestLocations

/-! What a version was computed from, directly and all in all. -/
namespace PathSlice

namespace Path

variable {p : Path} {n : Nat} {v x : Version}

theorem mem_sourcesOf_iff (h : p.Traceable) :
    x ∈ p.sourcesOf v ↔ ∃ e ∈ p.flows, e.target.id = v.id ∧ e.source = x := by
  refine ⟨mem_flows_of_mem_sourcesOf, ?_⟩
  rintro ⟨e, he, ht, rfl⟩
  obtain ⟨f, hf, he⟩ := List.mem_flatMap.1 he
  refine List.mem_flatMap.2 ⟨f, List.mem_reverse.2 hf, List.mem_map.2 ⟨e, ?_, rfl⟩⟩
  exact (Frame.mem_flowsInto_iff (h.distinct f hf)).2 ⟨he, ht⟩

/-- Sources stand in order of creation, each of them once. -/
theorem Layered.sourcesOf_ascending (h : p.Layered n) (v : Version) :
    Ascending.Sorted Version.id (p.sourcesOf v) := by
  rw [h.sourcesOf_eq]
  exact List.pairwise_map.2 Ascending.sorted_ofList

/-- What holds while the closure of `v` is found: a version that was found has its sources found or
on the stack. -/
private structure Closing (p : Path) (v : Version) (pending : List Nat)
    (stack found : List Version) : Prop where
  sorted : Ascending.Sorted Version.id found
  keys : ∀ x ∈ stack, x.id ∈ v.id :: p.sourceIds
  opened : ∀ k ∈ v.id :: p.sourceIds, k ∈ pending ∨ ∃ u ∈ found, u.id = k
  target : (∃ u ∈ found, u.id = v.id) ∨ v ∈ stack
  sources : ∀ u ∈ found, ∀ x ∈ p.sourcesOf u, (∃ y ∈ found, y.id = x.id) ∨ x ∈ stack

namespace Closing

variable {pending : List Nat} {rest found : List Version}

private theorem visit (h : Closing p v pending (x :: rest) found) :
    Closing p v (Agenda.without x.id pending) (p.sourcesOf x ++ rest)
      (Ascending.insert Version.compare x found) := by
  have key {k : Nat} : (∃ u ∈ Ascending.insert Version.compare x found, u.id = k) ↔
      x.id = k ∨ ∃ u ∈ found, u.id = k :=
    Ascending.exists_key_insert_iff h.sorted
  refine ⟨Ascending.sorted_insert h.sorted, fun y hy => ?_, fun k hk => ?_, ?_, fun u hu y hy => ?_⟩
  · rcases List.mem_append.1 hy with hy | hy
    · obtain ⟨e, he, _, rfl⟩ := mem_flows_of_mem_sourcesOf hy
      exact List.mem_cons_of_mem _ (List.mem_map_of_mem he)
    · exact h.keys y (List.mem_cons_of_mem x hy)
  · rw [key, Agenda.mem_without]
    rcases h.opened k hk with hp | hf
    · by_cases hx : x.id = k
      · exact .inr (.inl hx)
      · exact .inl ⟨hp, Ne.symm hx⟩
    · exact .inr (.inr hf)
  · rw [key]
    rcases h.target with hf | ht
    · exact .inl (.inr hf)
    · rcases List.mem_cons.1 ht with rfl | ht
      · exact .inl (.inl rfl)
      · exact .inr (List.mem_append_right _ ht)
  · rw [key]
    rcases Ascending.mem_of_mem_insert hu with rfl | hu
    · exact .inr (List.mem_append_left _ hy)
    · rcases h.sources u hu y hy with hf | hs
      · exact .inl (.inr hf)
      · rcases List.mem_cons.1 hs with rfl | hs
        · exact .inl (.inl rfl)
        · exact .inr (List.mem_append_right _ hs)

/-- A version that is not pending any more was found. -/
private theorem pass (h : Closing p v pending (x :: rest) found) (hx : x.id ∉ pending) :
    Closing p v pending rest found := by
  have hfound := (h.opened x.id (h.keys x List.mem_cons_self)).resolve_left hx
  refine ⟨h.sorted, fun y hy => h.keys y (List.mem_cons_of_mem x hy), h.opened, ?_, ?_⟩
  · rcases h.target with hf | ht
    · exact .inl hf
    · rcases List.mem_cons.1 ht with rfl | ht
      · exact .inl hfound
      · exact .inr ht
  · intro u hu y hy
    rcases h.sources u hu y hy with hf | hs
    · exact .inl hf
    · rcases List.mem_cons.1 hs with rfl | hs
      · exact .inl hfound
      · exact .inr hs

end Closing

private theorem closing_closure (p : Path) (v : Version) :
    ∃ left, Closing p v left [] (p.closure v) := by
  refine Agenda.run_invariant (Closing p v) (fun _ _ _ _ _ h => h.visit)
    (fun _ _ _ _ hx h => h.pass hx) ⟨.nil, ?_, fun k hk => .inl hk, ?_, ?_⟩
  · intro x hx
    rw [List.mem_singleton.1 hx]
    exact List.mem_cons_self
  · exact .inr List.mem_cons_self
  · exact fun u hu => absurd hu List.not_mem_nil

theorem closure_ascending (p : Path) (v : Version) : Ascending.Sorted Version.id (p.closure v) := by
  obtain ⟨_, h⟩ := closing_closure p v
  exact h.sorted

theorem exists_mem_closure (p : Path) (v : Version) : ∃ u ∈ p.closure v, u.id = v.id := by
  obtain ⟨_, h⟩ := closing_closure p v
  exact h.target.resolve_right List.not_mem_nil

/-- The closure of a version is closed under taking sources. -/
theorem exists_mem_closure_of_sourcesOf {u : Version} (hu : u ∈ p.closure v)
    (hx : x ∈ p.sourcesOf u) : ∃ y ∈ p.closure v, y.id = x.id := by
  obtain ⟨_, h⟩ := closing_closure p v
  exact (h.sources u hu x hx).resolve_right List.not_mem_nil

/-- The second version is the first, or the first was computed from it, directly or through other
versions. -/
abbrev Stems (p : Path) : Version → Version → Prop :=
  Relation.ReflTransGen fun a b => b ∈ p.sourcesOf a

theorem sourcesOf_congr {u : Version} (h : u.id = v.id) : p.sourcesOf u = p.sourcesOf v := by
  simp only [sourcesOf, Frame.sourcesOf, Frame.flowsInto, h]

/-- Whatever is found on the way is what the target stems from. -/
theorem stems_of_mem_closure {u : Version} (hu : u ∈ p.closure v) : p.Stems v u := by
  let inv (_ : List Nat) (stack found : List Version) : Prop :=
    (∀ x ∈ stack, p.Stems v x) ∧ ∀ x ∈ found, p.Stems v x
  obtain ⟨_, _, hfound⟩ : ∃ left, inv left [] (p.closure v) := by
    apply Agenda.run_invariant inv
    · intro _ x rest found _ h
      obtain ⟨hs, hf⟩ := h
      have hx := hs x List.mem_cons_self
      constructor
      · intro y hy
        rcases List.mem_append.1 hy with hy | hy
        · exact hx.tail hy
        · exact hs y (List.mem_cons_of_mem x hy)
      · intro y hy
        rcases Ascending.mem_of_mem_insert hy with rfl | hy
        · exact hx
        · exact hf y hy
    · intro _ x rest found _ h
      exact ⟨fun y hy => h.1 y (List.mem_cons_of_mem x hy), h.2⟩
    · simp [inv, Relation.ReflTransGen.refl]
  exact hfound u hu

/-- The closure of a version holds exactly what it stems from, each version known by its identity. -/
theorem exists_mem_closure_iff {i : Nat} :
    (∃ u ∈ p.closure v, u.id = i) ↔ ∃ u, p.Stems v u ∧ u.id = i := by
  constructor
  · rintro ⟨u, hu, rfl⟩
    exact ⟨u, stems_of_mem_closure hu, rfl⟩
  · rintro ⟨u, hu, rfl⟩
    induction hu with
    | refl => exact exists_mem_closure p v
    | tail _ hx ih =>
      obtain ⟨y, hy, hi⟩ := ih
      exact exists_mem_closure_of_sourcesOf hy (sourcesOf_congr hi ▸ hx)

theorem Closed.mem_versions_of_stems {u : Version} (h : p.Closed) (hv : v ∈ p.versions)
    (hu : p.Stems v u) : u ∈ p.versions := by
  induction hu with
  | refl => exact hv
  | tail _ hx _ => exact h.mem_versions_of_mem_sourcesOf hx

/-- What was computed from one version alone stems from what that one stems from. -/
private theorem stems_iff {u : Version} (h : p.sourcesOf v = [x]) : p.Stems v u ↔ u = v ∨ p.Stems x u := by
  constructor
  · intro hu
    rcases hu.cases_head with rfl | ⟨w, hw, hu⟩
    · exact .inl rfl
    · rw [h, List.mem_singleton] at hw
      rw [hw] at hu
      exact .inr hu
  · rintro (rfl | hu)
    · exact .refl
    · apply Relation.ReflTransGen.head _ hu
      rw [h]
      exact List.mem_singleton_self x

theorem ends_ascending (p : Path) (v : Version) : Ascending.Sorted Version.id (p.ends v) :=
  (p.closure_ascending v).filter _

end Path

namespace Recorded

variable {s : State} {u v x : Version}

theorem mem_closure_iff (h : Recorded s) (hv : v ∈ s.path.versions) :
    u ∈ s.path.closure v ↔ s.path.Stems v u := by
  refine ⟨Path.stems_of_mem_closure, fun hu => ?_⟩
  obtain ⟨w, hw, hi⟩ := Path.exists_mem_closure_iff.2 ⟨u, hu, rfl⟩
  have known := h.closed.mem_versions_of_stems hv (Path.stems_of_mem_closure hw)
  rwa [← h.numbered.version_eq known (h.closed.mem_versions_of_stems hv hu) hi]

theorem mem_ends_iff (h : Recorded s) (hv : v ∈ s.path.versions) :
    u ∈ s.path.ends v ↔ s.path.Stems v u ∧ s.path.sourcesOf u = [] := by
  rw [Path.ends, List.mem_filter, h.mem_closure_iff hv, List.isEmpty_iff]

/-- A version that was computed from one version alone ultimately comes from where that one does. -/
theorem ends_eq (h : Recorded s) (hv : v ∈ s.path.versions) (hx : s.path.sourcesOf v = [x]) :
    s.path.ends v = s.path.ends x := by
  have known : x ∈ s.path.versions := h.closed.mem_versions_of_mem_sourcesOf (v := v) (by simp [hx])
  apply Ascending.eq_of_mem_iff (Path.ends_ascending _ v) (Path.ends_ascending _ x)
  intro u
  rw [h.mem_ends_iff hv, h.mem_ends_iff known, Path.stems_iff hx]
  constructor
  · rintro ⟨rfl | hu, none⟩
    · simp [hx] at none
    · exact ⟨hu, none⟩
  · rintro ⟨hu, none⟩
    exact ⟨.inr hu, none⟩

theorem ends_of_sourcesOf_eq_nil (h : Recorded s) (hv : v ∈ s.path.versions)
    (hs : s.path.sourcesOf v = []) : s.path.ends v = [v] := by
  apply Ascending.eq_of_mem_iff (Path.ends_ascending _ v) (List.pairwise_singleton _ v)
  intro u
  rw [h.mem_ends_iff hv, List.mem_singleton]
  constructor
  · rintro ⟨hu, _⟩
    rcases hu.cases_head with rfl | ⟨w, hw, _⟩
    · rfl
    · simp [hs] at hw
  · rintro rfl
    exact ⟨.refl, hs⟩

end Recorded

end PathSlice
