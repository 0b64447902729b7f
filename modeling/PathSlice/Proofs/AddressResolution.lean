import PathSlice.Proofs.FlowClosure
import PathSlice.Proofs.MemoryAccess

/-! When addresses resolve. A version resolves if it, or one that it was ultimately computed from,
is known to be an address or is an argument of the entry point. What a resolution makes up resolves,
too, so asking again finds something again. -/
namespace PathSlice

namespace Path

/-- The version is known to be the address of a location, or one is made up for it. -/
def Pointing (p : Path) (v : Version) : Prop :=
  (p.pointee? v).isSome ∨ v.value.isEntryArgument

/-- The version is an address, by itself or through a version that it was ultimately computed from.
-/
def Resolves (p : Path) (v : Version) : Prop :=
  p.Pointing v ∨ ∃ u ∈ p.ends v, p.Pointing u

end Path

/-- The latest version of the value stands for it; other constants get a new one every time. -/
def Value.Lasting (value : Value) : Prop :=
  value.isConstant → value.isGlobal

theorem Value.Lasting.tests {value : Value} (h : value.Lasting) :
    value.isConstantElementAddress = false ∧ (value.isConstant && !value.isGlobal) = false := by
  unfold Value.Lasting Value.isConstant Value.isGlobal at h
  unfold Value.isConstantElementAddress Value.isConstant Value.isGlobal
  cases hk : value.kind <;> simp_all

theorem Value.not_isEntryArgument_of_isConstant {value : Value} (h : value.isConstant) :
    ¬value.isEntryArgument := by
  unfold Value.isConstant at h
  unfold Value.isEntryArgument
  cases hk : value.kind <;> simp_all

/-- Addresses may have been made up. A version that was created along with them is an address. -/
structure Resolving (s t : State) : Prop extends SameFlows s t where
  pointee : ∀ v : Version, (s.path.pointee? v).isSome → (t.path.pointee? v).isSome
  latest : ∀ value, t.path.latest? value = s.path.latest? value ∨
    ∃ v, t.path.latest? value = some v ∧ (t.path.pointee? v).isSome

namespace Resolving

variable {s t : State} {v : Version}

theorem pointing (h : Resolving s t) (hv : s.path.Pointing v) : t.path.Pointing v :=
  hv.imp_left (h.pointee v)

theorem resolves (h : Resolving s t) (hv : s.path.Resolves v) : t.path.Resolves v := by
  rcases hv with hv | ⟨u, hu, hp⟩
  · exact .inl (h.pointing hv)
  · refine .inr ⟨u, ?_, h.pointing hp⟩
    rwa [h.ends]

end Resolving

instance : IsPreorder State Resolving where
  refl s := ⟨refl_of SameFlows s, fun _ hv => hv, fun _ => .inl rfl⟩
  trans s t u h h' := by
    refine ⟨trans_of SameFlows h.toSameFlows h'.toSameFlows, fun v hv => ?_, fun value => ?_⟩
    · exact h'.pointee v (h.pointee v hv)
    · rcases h'.latest value with same | new
      · rw [same]
        rcases h.latest value with same | ⟨v, hv, hp⟩
        · exact .inl same
        · exact .inr ⟨v, hv, h'.pointee v hp⟩
      · exact .inr new

/-- A version that is not there yet is not known to be an address. -/
theorem Recorded.pointee?_eq_none {s : State} (h : Recorded s) {v : Version}
    (hv : s.next ≤ v.id) : s.path.pointee? v = none := by
  refine Option.map_eq_none_iff.2 (List.find?_eq_none.2 fun r hr => ?_)
  have hlt := h.numbered.versions_lt _ (h.closed.pointers r hr).1
  have hi : r.version.id ≠ v.id := by omega
  simpa using hi

namespace Recorder

variable {s : State} {v : Version} {value : Value} {x : Term}

section Resolution

theorem resolve?_isSome_iff : (resolve? v s).1.isSome ↔ s.path.Pointing v := by
  cases h : s.path.pointee? v with
  | some l => simp [resolve?_of_pointee? h, Path.Pointing, h]
  | none =>
    by_cases he : v.value.isEntryArgument
    · simp [resolve?_of_entry h he, Path.Pointing, he]
    · simp [resolve?_of_not_entry h he, Path.Pointing, h, he]

theorem resolve?_of_not_pointing (h : ¬s.path.Pointing v) : resolve? v s = (none, s) := by
  obtain ⟨hp, he⟩ := not_or.1 h
  exact resolve?_of_not_entry (Option.not_isSome_iff_eq_none.1 hp) he

private theorem resolveEach_ne_nil_iff {vs : List Version} :
    (resolveEach vs s).1 ≠ [] ↔ ∃ v ∈ vs, s.path.Pointing v := by
  induction vs with
  | nil =>
    refine iff_of_false (fun h => h rfl) ?_
    simp
  | cons v vs ih =>
    rw [resolveEach_cons]
    by_cases hv : s.path.Pointing v
    · obtain ⟨l, hl⟩ := Option.isSome_iff_exists.1 (resolve?_isSome_iff.2 hv)
      simp [hl, hv]
    · simp [resolve?_of_not_pointing hv, ih, hv]

theorem resolveAll_ne_nil_iff : (resolveAll v s).1 ≠ [] ↔ s.path.Resolves v := by
  rw [resolveAll_run]
  by_cases hv : s.path.Pointing v
  · obtain ⟨l, hl⟩ := Option.isSome_iff_exists.1 (resolve?_isSome_iff.2 hv)
    simp [hl, Path.Resolves, hv]
  · rw [resolve?_of_not_pointing hv]
    simp [resolveEach_ne_nil_iff, Path.Resolves, hv]

/-- Finding nothing changes nothing. -/
theorem resolveAll_of_not_resolves (h : ¬s.path.Resolves v) : resolveAll v s = ([], s) := by
  have empty : (resolveAll v s).1 = [] := by
    by_contra found
    exact h (resolveAll_ne_nil_iff.1 found)
  have allocated : s.path.Allocated v := allocated_of_resolveAll (by simp [empty])
  rw [resolveAll_of_allocated allocated] at empty ⊢
  exact congrArg (·, s) empty

/-- The argument of the entry point gets a new version, whose address is known from then on. -/
theorem resolve?_resolving (v : Version) : Keeps Resolving (resolve? v) := by
  intro s
  by_cases made : s.path.pointee? v = none ∧ v.value.isEntryArgument
  · obtain ⟨hp, he⟩ := made
    let argument : Version := ⟨s.next + 1, v.value, v.term⟩
    let l := Location.start s.next v.value v.term
    have run : resolve? v s = (some l, (addPointer argument l
        (newVersion v.value v.term (newLocation v.value v.term s).2).2).2) := by
      rw [resolve?, run_get, hp]
      simp only [he]
      rfl
    have pointers : (resolve? v s).2.path.pointers = ⟨argument, l⟩ :: s.path.pointers := by
      rw [run]
      rfl
    have versions : (resolve? v s).2.path.versions = argument :: s.path.versions := by
      rw [run]
      rfl
    refine ⟨resolve?_quiet v s, fun u hu => ?_, fun value => ?_⟩
    · simp only [Path.pointee?, pointers, List.find?_cons]
      split
      · rfl
      · exact hu
    · by_cases hi : v.value.id = value.id
      · refine .inr ⟨argument, ?_, ?_⟩
        · simp [Path.latest?, versions, argument, hi]
        · simp [Path.pointee?, pointers]
      · refine .inl ?_
        simp [Path.latest?, versions, argument, hi]
  · have plain : s.path.Plain v := fun hp he => made ⟨hp, he⟩
    rw [resolve?_of_plain plain]
    exact refl_of Resolving s

private theorem resolveEach_resolving (vs : List Version) : Keeps Resolving (resolveEach vs) := by
  induction vs with
  | nil => exact .pure _
  | cons v vs ih =>
    refine .bind (resolve?_resolving v) fun l? => ?_
    cases l? with
    | none => exact ih
    | some l => exact .bind ih fun _ => .pure _

theorem resolveAll_resolving (v : Version) : Keeps Resolving (resolveAll v) := by
  refine .bind (resolve?_resolving v) fun l? => ?_
  cases l? with
  | none => exact .get fun _ => resolveEach_resolving _
  | some l => exact .pure _

end Resolution

section Lookups

theorem versionOf?_eq_none (h : (versionOf? value x s).1 = none) :
    versionOf? value x s = (none, s) := by
  rcases versionOf?_cases value x s with hv | hv | hv <;> rw [hv] at h ⊢
  · exact congrArg (·, s) h
  · cases h
  · cases h

theorem versionOf?_of_latest? (hl : value.Lasting) (h : s.path.latest? value = some v) (x : Term) :
    versionOf? value x s = (some v, s) := by
  obtain ⟨element, constant⟩ := hl.tests
  simp only [versionOf?, element, constant, Bool.false_eq_true, if_false]
  rw [run_get, h]
  rfl

theorem pointee?_newPointer (value site : Value) (x : Term) (s : State) :
    (newPointer value site x s).2.path.pointee? (newPointer value site x s).1 =
      some (Location.start (s.next + 1) site x) := by
  have front : (newPointer value site x s).2.path.pointers =
      ⟨(newPointer value site x s).1, Location.start (s.next + 1) site x⟩ :: s.path.pointers := rfl
  simp [Path.pointee?, front]

theorem versionOf?_of_isConstantElementAddress (h : value.isConstantElementAddress) (x : Term)
    (s : State) : versionOf? value x s =
      (some (newPointer value value x s).1, (newPointer value value x s).2) := by
  unfold versionOf?
  rw [if_pos h]
  rfl

theorem versionOf?_of_constant (hc : value.isConstant) (hg : ¬value.isGlobal)
    (he : ¬value.isConstantElementAddress) (x : Term) (s : State) :
    versionOf? value x s = (some (newVersion value x s).1, (newVersion value x s).2) := by
  unfold versionOf?
  rw [if_neg he, if_pos (by simp [hc, hg])]
  rfl

theorem latest?_of_versionOf? (hl : value.Lasting) (h : (versionOf? value x s).1 = some v) :
    (versionOf? value x s).2.path.latest? value = some v := by
  cases hv : s.path.latest? value with
  | some u =>
    rw [versionOf?_of_latest? hl hv] at h ⊢
    exact hv.trans h
  | none =>
    rcases versionOf?_cases value x s with he | he | he
    · rw [he, hv] at h
      cases h
    · rw [he] at h ⊢
      cases h
      exact List.find?_cons_of_pos (by simp)
    · rw [he] at h ⊢
      cases h
      exact List.find?_cons_of_pos (by simp)

end Lookups

end Recorder

namespace Effect

open Recorder

variable {s : State} {i source : Value} {x y : Term}

/-- A load is left to be resolved if its address has no version, or if that resolves. -/
theorem loadUnknown_cases (h : (loadUnknown source y i x s).1 = false) :
    ((versionOf? source y s).1 = none ∧ loadUnknown source y i x s = (false, s)) ∨
      ∃ a, (versionOf? source y s).1 = some a ∧
        (resolveAll a (versionOf? source y s).2).1 ≠ [] ∧
        loadUnknown source y i x s = (false, (resolveAll a (versionOf? source y s).2).2) := by
  unfold loadUnknown at h ⊢
  rw [run_bind] at h ⊢
  cases ha : (versionOf? source y s).1 with
  | none =>
    refine .inl ⟨rfl, ?_⟩
    rw [versionOf?_eq_none ha]
    rfl
  | some a =>
    refine .inr ⟨a, rfl, ?_⟩
    rw [ha] at h
    dsimp only at h ⊢
    rw [run_bind] at h ⊢
    match hls : (resolveAll a (versionOf? source y s).2).1 with
    | [] =>
      rw [hls] at h
      cases h
    | [l] =>
      rw [hls] at h
      dsimp only at h ⊢
      split at h
      · cases h
      · rename_i hl
        refine ⟨List.cons_ne_nil _ _, ?_⟩
        rw [if_neg hl]
        rfl
    | _ :: _ :: _ => exact ⟨List.cons_ne_nil _ _, rfl⟩

/-- Nothing is known of a version that is new, so unless it is one of an argument of the entry point
it does not resolve. -/
theorem not_resolves_newVersion (h : Recorded s) {value : Value} (hv : ¬value.isEntryArgument) :
    ¬(newVersion value x s).2.path.Resolves (newVersion value x s).1 := by
  let v : Version := (newVersion value x s).1
  have pointee : s.path.pointee? v = none := h.pointee?_eq_none (Nat.le_refl s.next)
  have sources : s.path.sourcesOf v = [] := by
    refine List.eq_nil_iff_forall_not_mem.2 fun u hu => ?_
    obtain ⟨e, he, hi, _⟩ := Path.mem_flows_of_mem_sourcesOf hu
    exact Nat.ne_of_lt (h.numbered.versions_lt _ (h.closed.flows e he).1) hi
  have same : SameFlows s (newVersion value x s).2 := newVersion_quiet value x s
  have pointing : ¬(newVersion value x s).2.path.Pointing v := by
    rintro (hp | he)
    · have hp : (s.path.pointee? v).isSome := hp
      simp [pointee] at hp
    · exact hv he
  rintro (hp | ⟨u, hu, hp⟩)
  · exact pointing hp
  · have stems := Path.stems_of_mem_closure (List.mem_filter.1 hu).1
    rcases stems.cases_head with rfl | ⟨w, hw, _⟩
    · exact pointing hp
    · rw [same.sourcesOf, sources] at hw
      exact absurd hw List.not_mem_nil

/-- The address of a load resolves if it resolved when it was looked up before. -/
theorem versionOf?_resolves {a : Version} {t : State} (h : Recorded s)
    (ha : (versionOf? source y s).1 = some a) (hr : (versionOf? source y s).2.path.Resolves a)
    (ht : Resolving (versionOf? source y s).2 t) :
    ∃ b, (versionOf? source y t).1 = some b ∧ (versionOf? source y t).2.path.Resolves b := by
  by_cases hl : source.Lasting
  · have latest := latest?_of_versionOf? hl ha
    rcases ht.latest source with same | ⟨b, hb, hp⟩
    · rw [versionOf?_of_latest? hl (same.trans latest)]
      exact ⟨a, rfl, ht.resolves hr⟩
    · rw [versionOf?_of_latest? hl hb]
      exact ⟨b, rfl, .inl (.inl hp)⟩
  · obtain ⟨constant, global⟩ := Classical.not_imp.1 hl
    by_cases he : source.isConstantElementAddress
    · rw [versionOf?_of_isConstantElementAddress he]
      exact ⟨_, rfl, .inl (.inl (by rw [pointee?_newPointer]; rfl))⟩
    · rw [versionOf?_of_constant constant global he] at ha hr
      cases ha
      exact absurd hr (not_resolves_newVersion h (Value.not_isEntryArgument_of_isConstant constant))

end Effect

end PathSlice
