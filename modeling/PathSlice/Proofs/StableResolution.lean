import PathSlice.Proofs.AddressResolution
import PathSlice.Proofs.LoadAfterStore

/-! Resolving a version twice. A location that is made up for an argument of the entry point is
recorded as what a new version of the argument points to, and not the version that was asked. So the
same question makes a location up again: the answers agree in objects, addresses and offsets, and
they are the same locations exactly if none had to be made up. -/
namespace PathSlice

/-- The same place in memory, whatever the identities. -/
structure Location.Alike (l m : Location) : Prop where
  site : m.site = l.site
  address : m.address = l.address
  offset : m.offset = l.offset

namespace Path

variable {p q : Path} {n m : Nat} {v : Version} {vs : List Version}

/-- The versions that are asked for their addresses when a version is resolved. -/
def asked (p : Path) (v : Version) : List Version :=
  if (p.pointee? v).isSome || v.value.isEntryArgument then [v] else p.ends v

/-- True if a location is made up when the version is asked for its address. -/
def invents (p : Path) (v : Version) : Bool :=
  (p.pointee? v).isNone && v.value.isEntryArgument

/-- The locations that versions are the addresses of, where `n` is the next identity. What is made
up takes two identities, the second one for a version that points to it. -/
def found (p : Path) : Nat → List Version → List Location
  | _, [] => []
  | n, v :: vs =>
    match p.pointee? v with
    | some l => l :: p.found n vs
    | none =>
      if v.value.isEntryArgument then Location.start n v.value v.term :: p.found (n + 2) vs
      else p.found n vs

theorem invents_eq_false_iff : p.invents v = false ↔ p.Plain v := by
  simp only [invents, Plain]
  cases p.pointee? v <;> simp

section Found

theorem found_cons_of_pointee? {l : Location} (h : p.pointee? v = some l) (n : Nat)
    (vs : List Version) : p.found n (v :: vs) = l :: p.found n vs := by
  simp [found, h]

theorem found_cons_of_invents (h : p.invents v) (n : Nat) (vs : List Version) :
    p.found n (v :: vs) = Location.start n v.value v.term :: p.found (n + 2) vs := by
  simp only [invents, Bool.and_eq_true, Option.isNone_iff_eq_none] at h
  simp [found, h.1, h.2]

theorem found_cons_of_plain (h : p.pointee? v = none) (hp : p.Plain v) (n : Nat)
    (vs : List Version) : p.found n (v :: vs) = p.found n vs := by
  simp [found, h, hp h]

private theorem found_congr (h : ∀ v ∈ vs, q.pointee? v = p.pointee? v) (n : Nat) :
    q.found n vs = p.found n vs := by
  induction vs generalizing n with
  | nil => rfl
  | cons v vs ih =>
    obtain ⟨hv, hvs⟩ := List.forall_mem_cons.1 h
    simp only [found, hv, ih hvs]

private theorem countP_invents_congr (h : ∀ v ∈ vs, q.pointee? v = p.pointee? v) :
    vs.countP q.invents = vs.countP p.invents := by
  apply List.countP_congr
  intro v hv
  simp only [invents, h v hv]

private theorem found_alike (p : Path) (vs : List Version) (n m : Nat) :
    List.Forall₂ Location.Alike (p.found n vs) (p.found m vs) := by
  induction vs generalizing n m with
  | nil => exact .nil
  | cons v vs ih =>
    cases hl : p.pointee? v with
    | some l =>
      rw [found_cons_of_pointee? hl, found_cons_of_pointee? hl]
      exact .cons ⟨rfl, rfl, rfl⟩ (ih n m)
    | none =>
      cases hi : p.invents v with
      | true =>
        rw [found_cons_of_invents hi, found_cons_of_invents hi]
        exact .cons ⟨rfl, rfl, rfl⟩ (ih (n + 2) (m + 2))
      | false =>
        have plain := invents_eq_false_iff.1 hi
        rw [found_cons_of_plain hl plain, found_cons_of_plain hl plain]
        exact ih n m

/-- What is made up shows which identity was the next one. -/
private theorem found_eq_iff : p.found n vs = p.found m vs ↔ n = m ∨ vs.countP p.invents = 0 := by
  induction vs with
  | nil => simp [found]
  | cons v vs ih =>
    cases hi : p.invents v with
    | true =>
      rw [found_cons_of_invents hi, found_cons_of_invents hi, List.countP_cons_of_pos hi]
      constructor
      · intro h
        exact .inl (congrArg Location.id (List.cons.inj h).1)
      · rintro (rfl | h)
        · rfl
        · omega
    | false =>
      rw [List.countP_cons_of_neg (by simp [hi])]
      cases hl : p.pointee? v with
      | some l => rw [found_cons_of_pointee? hl, found_cons_of_pointee? hl, List.cons_inj_right, ih]
      | none =>
        have plain := invents_eq_false_iff.1 hi
        rw [found_cons_of_plain hl plain, found_cons_of_plain hl plain, ih]

end Found

end Path

namespace Recorder

variable {s : State} {v : Version} {vs : List Version}

private theorem resolve?_of_invents (h : s.path.invents v) :
    (resolve? v s).1 = some (Location.start s.next v.value v.term) ∧
      (resolve? v s).2.next = s.next + 2 := by
  simp only [Path.invents, Bool.and_eq_true, Option.isNone_iff_eq_none] at h
  rw [resolve?, run_get, h.1]
  simp only [h.2]
  exact ⟨rfl, rfl⟩

/-- Only a new version is said to be the address of what is made up. -/
theorem resolve?_addresses (v : Version) : Keeps SameAddresses (resolve? v) := by
  intro s
  refine ⟨resolve?_quiet v s, ?_⟩
  intro u hu
  cases hi : s.path.invents v with
  | true =>
    simp only [Path.invents, Bool.and_eq_true, Option.isNone_iff_eq_none] at hi
    have pointers : (resolve? v s).2.path.pointers =
        ⟨⟨s.next + 1, v.value, v.term⟩, Location.start s.next v.value v.term⟩ ::
          s.path.pointers := by
      rw [resolve?, run_get, hi.1]
      simp only [hi.2]
      rfl
    have other : s.next + 1 ≠ u.id := by omega
    simp [Path.pointee?, pointers, other]
  | false => rw [resolve?_of_plain (Path.invents_eq_false_iff.1 hi)]

private theorem resolveEach_addresses (vs : List Version) : Keeps SameAddresses (resolveEach vs) := by
  induction vs with
  | nil => exact .pure _
  | cons v vs ih =>
    apply Keeps.bind (resolve?_addresses v)
    intro l?
    cases l? with
    | none => exact ih
    | some l => exact .bind ih fun _ => .pure _

/-- A version is resolved by asking some versions one after the other. -/
theorem resolveAll_eq_resolveEach (v : Version) (s : State) :
    resolveAll v s = resolveEach (s.path.asked v) s := by
  rw [resolveAll_run, Path.asked]
  cases hv : (s.path.pointee? v).isSome || v.value.isEntryArgument with
  | true =>
    have pointing : s.path.Pointing v := by simpa [Path.Pointing] using hv
    obtain ⟨l, hl⟩ := Option.isSome_iff_exists.1 (resolve?_isSome_iff.2 pointing)
    simp only [if_true, resolveEach_cons, hl]
    rfl
  | false =>
    have pointing : ¬s.path.Pointing v := by simpa [Path.Pointing] using hv
    rw [resolve?_of_not_pointing pointing]
    rfl

/-- What versions of the path are the addresses of does not depend on what was made up before. -/
theorem resolveEach_found (h : ∀ v ∈ vs, v.id < s.next) :
    (resolveEach vs s).1 = s.path.found s.next vs ∧
      (resolveEach vs s).2.next = s.next + 2 * vs.countP s.path.invents := by
  induction vs generalizing s with
  | nil => exact ⟨rfl, rfl⟩
  | cons v vs ih =>
    obtain ⟨hv, hvs⟩ := List.forall_mem_cons.1 h
    cases hi : s.path.invents v with
    | true =>
      obtain ⟨hl, hn⟩ := resolve?_of_invents hi
      have known : ∀ u ∈ vs, (resolve? v s).2.path.pointee? u = s.path.pointee? u :=
        fun u hu => (resolve?_addresses v s).pointee u (hvs u hu)
      obtain ⟨rest, next⟩ := ih (s := (resolve? v s).2) fun u hu => by
        have := hvs u hu
        omega
      rw [hn, Path.found_congr known] at rest
      rw [hn, Path.countP_invents_congr known] at next
      rw [resolveEach_cons, Path.found_cons_of_invents hi, List.countP_cons_of_pos hi]
      constructor
      · simp only [hl, rest]
      · simp only [next]
        omega
    | false =>
      have plain := Path.invents_eq_false_iff.1 hi
      obtain ⟨rest, next⟩ := ih hvs
      rw [List.countP_cons_of_neg (by simp [hi]), resolveEach_cons, resolve?_of_plain plain]
      refine ⟨?_, next⟩
      cases hl : s.path.pointee? v with
      | some l => simp only [Path.found_cons_of_pointee? hl, rest]
      | none => simp only [Path.found_cons_of_plain hl plain, rest]

end Recorder

namespace Recorded

open Recorder

variable {s : State} {v : Version}

private theorem asked_lt (h : Recorded s) (hv : v ∈ s.path.versions) :
    ∀ u ∈ s.path.asked v, u.id < s.next := by
  intro u hu
  apply h.numbered.versions_lt
  unfold Path.asked at hu
  split at hu
  · rwa [List.mem_singleton.1 hu]
  · exact h.mem_versions_of_mem_ends hv hu

/-- Asking for the address of a version changes nothing about which versions are asked for it. -/
private theorem asked_resolveEach (h : Recorded s) (hv : v ∈ s.path.versions) (vs : List Version) :
    (resolveEach vs s).2.path.asked v = s.path.asked v := by
  have same := resolveEach_addresses vs s
  simp only [Path.asked, same.pointee v (h.numbered.versions_lt v hv), same.ends]

private theorem resolveAll_twice (h : Recorded s) (hv : v ∈ s.path.versions) :
    let first := resolveAll v s
    let second := resolveAll v first.2
    let made := (s.path.asked v).countP s.path.invents
    first.1 = s.path.found s.next (s.path.asked v) ∧ first.2.next = s.next + 2 * made ∧
      second.1 = s.path.found first.2.next (s.path.asked v) ∧
      second.2.next = first.2.next + 2 * made := by
  intro first second made
  have below := h.asked_lt hv
  have run : first = resolveEach (s.path.asked v) s := resolveAll_eq_resolveEach v s
  have same : SameAddresses s first.2 := run ▸ resolveEach_addresses _ s
  have known : ∀ u ∈ s.path.asked v, first.2.path.pointee? u = s.path.pointee? u :=
    fun u hu => same.pointee u (below u hu)
  have again : second = resolveEach (s.path.asked v) first.2 := by
    rw [← h.asked_resolveEach hv (s.path.asked v), ← run]
    exact resolveAll_eq_resolveEach v first.2
  obtain ⟨list, next⟩ := resolveEach_found below
  obtain ⟨list', next'⟩ := resolveEach_found (s := first.2) fun u hu =>
    Nat.lt_of_lt_of_le (below u hu) same.next
  rw [← run] at list next
  rw [← again, Path.found_congr known] at list'
  rw [← again, Path.countP_invents_congr known] at next'
  exact ⟨list, next, list', next'⟩

/-- Where nothing has to be made up, nothing changes. -/
private theorem resolveAll_state (h : (s.path.asked v).countP s.path.invents = 0) :
    (resolveAll v s).2 = s := by
  rw [resolveAll_eq_resolveEach, resolveEach_of_plain]
  intro u hu
  apply Path.invents_eq_false_iff.1
  simpa using List.countP_eq_zero.1 h u hu

end Recorded

namespace Replay

open Recorder

/-- After any events, resolving a version of the path twice gives the same locations exactly if none
is made up, and exactly then the second time changes nothing. What is made up is made up again: at
the same place, with two more identities for each. -/
theorem resolution_stable_iff (program : Program) (next : Nat) (existential : Bool)
    (events : List Event) :
    let s := (pursue 0 events (start program next existential)).2.state
    ∀ v ∈ s.path.versions,
      let first := resolveAll v s
      let second := resolveAll v first.2
      let made := (s.path.asked v).countP s.path.invents
      (second.1 = first.1 ↔ made = 0) ∧ (second.2 = first.2 ↔ made = 0) ∧
        second.2.next = first.2.next + 2 * made ∧ (made = 0 → first.2 = s) ∧
        List.Forall₂ Location.Alike first.1 second.1 := by
  intro s v hv first second made
  have recorded : Recorded s := (pursue_standing program next existential events).settled.toRecorded
  obtain ⟨list, counted, list', counted'⟩ : first.1 = s.path.found s.next (s.path.asked v) ∧
      first.2.next = s.next + 2 * made ∧
      second.1 = s.path.found first.2.next (s.path.asked v) ∧
      second.2.next = first.2.next + 2 * made := recorded.resolveAll_twice hv
  have idle : made = 0 → first.2 = s := Recorded.resolveAll_state
  refine ⟨?_, ?_, counted', idle, ?_⟩
  · rw [list, list', Path.found_eq_iff, counted]
    omega
  · constructor
    · intro same
      have := congrArg State.next same
      omega
    · intro none
      have state : second = resolveAll v s := congrArg (resolveAll v) (idle none)
      rw [state]
  · rw [list, list']
    exact Path.found_alike s.path _ _ _

/-! An argument of the entry point is handed on to a function. -/

namespace HandedOn

def given : Value := ⟨1, "argv", .argument "main" 1, .pointer⟩
def parameter : Value := ⟨2, "a", .argument "f" 0, .pointer⟩
def callee : Value := ⟨3, "f", .function false [parameter], .integer 32⟩
def site : Value := ⟨4, "c", .instruction .call "main" [given, callee], .integer 32⟩

def program : Program := [given, parameter, callee, site]

def state : State :=
  (pursue 0 [.bindCall "c" [.pointer 4096]] (start program 5 true)).2.state

private theorem parameter_invents :
    (state.path.latest? parameter).map (fun v => (state.path.asked v).countP state.path.invents) =
      some 1 := by
  decide +kernel

end HandedOn

/-- The parameter resolves to another location every time. -/
theorem resolution_stable_iff_handedOn :
    ∃ v ∈ HandedOn.state.path.versions, HandedOn.state.path.latest? HandedOn.parameter = some v ∧
      let first := resolveAll v HandedOn.state
      let second := resolveAll v first.2
      second.1 ≠ first.1 ∧ second.2.next = first.2.next + 2 := by
  obtain ⟨v, hv, made⟩ := Option.map_eq_some_iff.1 HandedOn.parameter_invents
  have visible := Path.mem_versions_of_latest? hv
  obtain ⟨same, _, counted, _⟩ := resolution_stable_iff HandedOn.program 5 true
    [.bindCall "c" [.pointer 4096]] v visible
  refine ⟨v, visible, hv, fun h => ?_, ?_⟩
  · have none := same.1 h
    rw [HandedOn.state] at made
    omega
  · rw [HandedOn.state] at made
    rw [made] at counted
    exact counted

end Replay

end PathSlice
