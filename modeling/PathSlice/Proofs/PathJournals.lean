import PathSlice.Path.Flow
import PathSlice.Proofs.AgendaRuns
import PathSlice.Proofs.AscendingLists

/-! What a path has recorded, frame after frame: how recording a flow changes the journals of a path,
and that lookups and the closure of a version return what was recorded. -/
namespace PathSlice

namespace Path

section Journals

variable (p : Path) (source target : Version) (via : Option Location)

/-- Recording a flow either changes nothing or puts it in front of the flows. -/
theorem record_addFlow :
    p.record (·.addFlow source target via) =
      if p.current.hasFlow source target then p
      else ⟨{ p.current with flows := ⟨target, source, via⟩ :: p.current.flows }, p.ancestors⟩ := by
  unfold record Frame.addFlow
  dsimp only
  split <;> rfl

@[simp] theorem versions_addFlow :
    (p.record (·.addFlow source target via)).versions = p.versions := by
  rw [record_addFlow]
  split <;> rfl

@[simp] theorem locations_addFlow :
    (p.record (·.addFlow source target via)).locations = p.locations := by
  rw [record_addFlow]
  split <;> rfl

@[simp] theorem pointers_addFlow :
    (p.record (·.addFlow source target via)).pointers = p.pointers := by
  rw [record_addFlow]
  split <;> rfl

@[simp] theorem deposits_addFlow :
    (p.record (·.addFlow source target via)).deposits = p.deposits := by
  rw [record_addFlow]
  split <;> rfl

theorem flows_addFlow :
    (p.record (·.addFlow source target via)).flows =
      if p.current.hasFlow source target then p.flows else ⟨target, source, via⟩ :: p.flows := by
  rw [record_addFlow]
  split <;> rfl

variable {p source target via} in
theorem mem_flows_of_mem_addFlow {e : Flow}
    (h : e ∈ (p.record (·.addFlow source target via)).flows) :
    e = ⟨target, source, via⟩ ∨ e ∈ p.flows := by
  rw [flows_addFlow] at h
  split at h
  · exact .inr h
  · exact List.mem_cons.1 h

end Journals

variable {p : Path}

theorem mem_versions_of_latest? {value : Value} {v : Version} (h : p.latest? value = some v) :
    v ∈ p.versions :=
  List.mem_of_find?_eq_some h

theorem mem_locations_of_latestLocation? {site : Value} {x : Term} {l : Location}
    (h : p.latestLocation? site x = some l) : l ∈ p.locations :=
  List.mem_of_find?_eq_some h

theorem mem_pointers_of_pointee? {v : Version} {l : Location} (h : p.pointee? v = some l) :
    ∃ r ∈ p.pointers, r.version.id = v.id ∧ r.location = l := by
  obtain ⟨r, hr, rfl⟩ := Option.map_eq_some_iff.1 h
  exact ⟨r, List.mem_of_find?_eq_some hr, by simpa using List.find?_some hr, rfl⟩

theorem mem_deposits_of_content? {l : Location} {v : Version} (h : p.content? l = some v) :
    ∃ d ∈ p.deposits, d.location.id = l.id ∧ d.version = v := by
  obtain ⟨d, hd, rfl⟩ := Option.map_eq_some_iff.1 h
  exact ⟨d, List.mem_of_find?_eq_some hd, by simpa using List.find?_some hd, rfl⟩

end Path

theorem Frame.mem_flows_of_mem_flowsInto {f : Frame} {v : Version} {e : Flow}
    (h : e ∈ f.flowsInto v) : e ∈ f.flows ∧ e.target.id = v.id := by
  have h := List.mem_filter.1 (Ascending.mem_of_mem_ofList h)
  exact ⟨h.1, by simpa using h.2⟩

namespace Path

variable {p : Path}

theorem mem_flows_of_mem_sourcesOf {v x : Version} (h : x ∈ p.sourcesOf v) :
    ∃ e ∈ p.flows, e.target.id = v.id ∧ e.source = x := by
  obtain ⟨f, hf, hx⟩ := List.mem_flatMap.1 h
  obtain ⟨e, he, rfl⟩ := List.mem_map.1 hx
  obtain ⟨hm, ht⟩ := Frame.mem_flows_of_mem_flowsInto he
  exact ⟨e, List.mem_flatMap.2 ⟨f, List.mem_reverse.1 hf, hm⟩, ht, rfl⟩

/-- The closure of a version holds, besides it, only versions that something flows from. -/
theorem mem_closure {v x : Version} (h : x ∈ p.closure v) :
    x = v ∨ ∃ e ∈ p.flows, e.source = x := by
  let known (x : Version) : Prop := x = v ∨ ∃ e ∈ p.flows, e.source = x
  let inv (_ : List Nat) (stack found : List Version) : Prop :=
    (∀ x ∈ stack, known x) ∧ ∀ x ∈ found, known x
  obtain ⟨_, _, hfound⟩ : ∃ left, inv left [] (p.closure v) := by
    refine Agenda.run_invariant inv ?_ ?_ ⟨?_, ?_⟩
    · intro _ y rest found _ ⟨hs, hf⟩
      refine ⟨fun x hx => ?_, fun x hx => ?_⟩
      · rcases List.mem_append.1 hx with hx | hx
        · obtain ⟨e, he, _, rfl⟩ := mem_flows_of_mem_sourcesOf hx
          exact .inr ⟨e, he, rfl⟩
        · exact hs x (List.mem_cons_of_mem y hx)
      · rcases Ascending.mem_of_mem_insert hx with rfl | hx
        · exact hs x List.mem_cons_self
        · exact hf x hx
    · intro _ y rest found _ ⟨hs, hf⟩
      exact ⟨fun x hx => hs x (List.mem_cons_of_mem y hx), hf⟩
    · intro x hx
      exact .inl (List.mem_singleton.1 hx)
    · intro x hx
      exact absurd hx List.not_mem_nil
  exact hfound x h

theorem mem_ends {v x : Version} (h : x ∈ p.ends v) : x = v ∨ ∃ e ∈ p.flows, e.source = x :=
  mem_closure (List.mem_filter.1 h).1

end Path

end PathSlice
