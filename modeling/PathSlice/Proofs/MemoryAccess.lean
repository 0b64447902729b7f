import PathSlice.Proofs.QuietRecording

/-! What loads and stores find in memory. Resolving an address finds locations and changes nothing,
unless it meets an argument of the entry point. A store puts its data into the latest locations at
the addresses of the locations it is given, while a load reads these locations themselves. -/
namespace PathSlice

namespace Path

variable {p : Path} {n : Nat}

/-- The location is the latest one of its object at its address. -/
def IsLatest (p : Path) (l : Location) : Prop :=
  p.latestLocation? l.site l.address = some l

/-- The latest location of the same object at the same address. -/
def latestOf (p : Path) (l : Location) : Location :=
  (p.latestLocation? l.site l.address).getD l

theorem latestLocation?_eq_latestOf {l : Location} (hl : l ∈ p.locations) :
    p.latestLocation? l.site l.address = some (p.latestOf l) := by
  have found : (p.latestLocation? l.site l.address).isSome :=
    List.find?_isSome.2 ⟨l, hl, by simp [Location.isAt]⟩
  obtain ⟨k, hk⟩ := Option.isSome_iff_exists.1 found
  simp only [latestOf, hk, Option.getD_some]

/-- A location of the list is the latest one for any of them exactly if it is for itself. -/
theorem exists_latestOf_iff (hn : p.Numbered n) {ls : List Location}
    (hls : ∀ l ∈ ls, l ∈ p.locations) {l : Location} (hl : l ∈ ls) :
    (∃ k ∈ ls, (p.latestOf k).id = l.id) ↔ p.IsLatest l := by
  constructor
  · rintro ⟨k, hk, hi⟩
    have found := latestLocation?_eq_latestOf (hls k hk)
    rw [hn.location_eq (mem_locations_of_latestLocation? found) (hls l hl) hi] at found
    have hat := List.find?_some (p := fun m : Location => m.isAt k.site k.address) found
    obtain ⟨hsite, haddress⟩ : l.site.id = k.site.id ∧ l.address = k.address := by
      simpa [Location.isAt] using hat
    simpa only [IsLatest, latestLocation?, Location.isAt, hsite, haddress] using found
  · intro h
    refine ⟨l, hl, ?_⟩
    rw [latestOf, h, Option.getD_some]

/-- The version is known to be an address, or is no address that is made up when it is needed. -/
def Plain (p : Path) (v : Version) : Prop :=
  p.pointee? v = none → ¬v.value.isEntryArgument

/-- The locations that a version is known to be the address of, by itself or through the versions
that it was ultimately computed from. -/
def addressed (p : Path) (v : Version) : List Location :=
  match p.pointee? v with
  | some l => [l]
  | none => (p.ends v).filterMap p.pointee?

/-- No location needs to be made up for a version. -/
structure Allocated (p : Path) (v : Version) : Prop where
  plain : p.Plain v
  ends : p.pointee? v = none → ∀ u ∈ p.ends v, p.Plain u

end Path

namespace Recorder

variable {s : State}

/-! Resolution of addresses. -/

theorem resolve?_of_pointee? {v : Version} {l : Location} (h : s.path.pointee? v = some l) :
    resolve? v s = (some l, s) := by
  rw [resolve?, run_get, h]
  rfl

theorem resolve?_of_not_entry {v : Version} (h : s.path.pointee? v = none)
    (he : ¬v.value.isEntryArgument) : resolve? v s = (none, s) := by
  rw [resolve?, run_get, h]
  simp only [he]
  rfl

theorem resolve?_of_entry {v : Version} (h : s.path.pointee? v = none)
    (he : v.value.isEntryArgument) :
    (resolve? v s).1 = some (Location.start s.next v.value v.term) := by
  rw [resolve?, run_get, h]
  simp only [he]
  rfl

theorem resolve?_of_plain {v : Version} (h : s.path.Plain v) :
    resolve? v s = (s.path.pointee? v, s) := by
  cases hl : s.path.pointee? v with
  | some l => exact resolve?_of_pointee? hl
  | none => exact resolve?_of_not_entry hl (h hl)

/-- What is made up for an argument of the entry point belongs to that argument. -/
theorem plain_of_resolve? {v : Version}
    (h : ∀ l, (resolve? v s).1 = some l → ¬l.site.isEntryArgument) : s.path.Plain v :=
  fun hl he => h _ (resolve?_of_entry hl he) he

theorem resolveEach_cons (v : Version) (vs : List Version) (s : State) :
    resolveEach (v :: vs) s =
      let rest := resolveEach vs (resolve? v s).2
      (match (resolve? v s).1 with
        | some l => l :: rest.1
        | none => rest.1, rest.2) := by
  rw [resolveEach, run_bind]
  cases (resolve? v s).1 <;> rfl

theorem resolveEach_of_plain {vs : List Version} (h : ∀ v ∈ vs, s.path.Plain v) :
    resolveEach vs s = (vs.filterMap s.path.pointee?, s) := by
  induction vs with
  | nil => rfl
  | cons v vs ih =>
    obtain ⟨hv, hvs⟩ := List.forall_mem_cons.1 h
    simp only [resolveEach_cons, resolve?_of_plain hv, ih hvs, List.filterMap_cons]
    cases s.path.pointee? v <;> rfl

private theorem plain_of_resolveEach {vs : List Version}
    (h : ∀ l ∈ (resolveEach vs s).1, ¬l.site.isEntryArgument) : ∀ v ∈ vs, s.path.Plain v := by
  induction vs with
  | nil => exact fun v hv => absurd hv List.not_mem_nil
  | cons v vs ih =>
    rw [resolveEach_cons] at h
    have hv : s.path.Plain v := by
      refine plain_of_resolve? fun l hl => h l ?_
      simp only [hl, List.mem_cons_self]
    rw [resolve?_of_plain hv] at h
    refine List.forall_mem_cons.2 ⟨hv, ih fun l hl => h l ?_⟩
    cases s.path.pointee? v with
    | some k => exact List.mem_cons_of_mem k hl
    | none => exact hl

theorem resolveAll_run (v : Version) (s : State) :
    resolveAll v s =
      match (resolve? v s).1 with
      | some l => ([l], (resolve? v s).2)
      | none => resolveEach ((resolve? v s).2.path.ends v) (resolve? v s).2 := by
  rw [resolveAll, run_bind]
  cases (resolve? v s).1 <;> rfl

theorem resolveAll_of_allocated {v : Version} (h : s.path.Allocated v) :
    resolveAll v s = (s.path.addressed v, s) := by
  rw [resolveAll_run, resolve?_of_plain h.plain, Path.addressed]
  cases hl : s.path.pointee? v with
  | some l => rfl
  | none => exact resolveEach_of_plain (h.ends hl)

theorem allocated_of_resolveAll {v : Version}
    (h : ∀ l ∈ (resolveAll v s).1, ¬l.site.isEntryArgument) : s.path.Allocated v := by
  rw [resolveAll_run] at h
  have plain : s.path.Plain v := by
    refine plain_of_resolve? fun l hl => h l ?_
    rw [hl]
    exact List.mem_cons_self
  refine ⟨plain, fun hl => ?_⟩
  rw [resolve?_of_not_entry hl (plain hl)] at h
  exact plain_of_resolveEach h

end Recorder

namespace Path

variable {p : Path} {v x : Version} {l : Location} {ls : List Location}

/-- The path after a version was put into the latest locations at some addresses. -/
def stored (p : Path) (d : Version) (ls : List Location) : Path :=
  p.record fun f =>
    { f with deposits := (ls.map fun l => ⟨p.latestOf l, d⟩).reverse ++ f.deposits }

theorem content?_stored (d : Version) (l : Location) :
    (p.stored d ls).content? l =
      if ∃ k ∈ ls, (p.latestOf k).id = l.id then some d else p.content? l := by
  have journal : (p.stored d ls).deposits =
      (ls.map fun k => ⟨p.latestOf k, d⟩).reverse ++ p.deposits := by
    simp only [stored, record, deposits, frames, List.flatMap_cons, List.append_assoc]
  rw [content?, journal, List.find?_append]
  split
  · rename_i h
    obtain ⟨k, hk, hi⟩ := h
    have found : ((ls.map fun k => (⟨p.latestOf k, d⟩ : Deposit)).reverse.find?
        (·.location.id == l.id)).isSome :=
      List.find?_isSome.2 ⟨⟨p.latestOf k, d⟩, by simpa using ⟨k, hk, rfl⟩, by simpa using hi⟩
    obtain ⟨e, he⟩ := Option.isSome_iff_exists.1 found
    obtain ⟨_, _, rfl⟩ := List.mem_map.1 (List.mem_reverse.1 (List.mem_of_find?_eq_some he))
    rw [he]
    rfl
  · rename_i h
    have missed : (ls.map fun k => (⟨p.latestOf k, d⟩ : Deposit)).reverse.find?
        (·.location.id == l.id) = none := by
      refine List.find?_eq_none.2 fun e he => ?_
      obtain ⟨k, hk, rfl⟩ := List.mem_map.1 (List.mem_reverse.1 he)
      simpa using fun hi => h ⟨k, hk, hi⟩
    rw [missed]
    rfl

/-- One of some locations holds nothing and is among them twice. -/
def Rereads (p : Path) (ls : List Location) : Prop :=
  ∃ l ∈ ls, p.content? l = none ∧ 1 < (ls.map (·.id)).count l.id

/-- What a load of `v` from some locations reads: what they hold, and `v` itself if one that holds
nothing is read twice. -/
def Reads (p : Path) (v : Version) (ls : List Location) (x : Version) : Prop :=
  (∃ l ∈ ls, p.content? l = some x) ∨ x = v ∧ p.Rereads ls

private theorem content?_congr {k : Location} (h : k.id = l.id) : p.content? k = p.content? l := by
  simp only [content?, h]

theorem content?_addDeposit (k : Location) :
    (p.record (·.addDeposit l v)).content? k =
      if k.id = l.id then some v else p.content? k := by
  have journal : (p.record (·.addDeposit l v)).deposits = ⟨l, v⟩ :: p.deposits := rfl
  by_cases h : l.id = k.id
  · simp [content?, journal, h]
  · simp [content?, journal, h, Ne.symm h]

private theorem reads_cons_of_some {c : Version} (h : p.content? l = some c) :
    p.Reads v (l :: ls) x ↔ x = c ∨ p.Reads v ls x := by
  have away {k : Location} (hk : p.content? k = none) : l.id ≠ k.id := by
    intro hi
    rw [content?_congr hi, hk] at h
    cases h
  constructor
  · rintro (⟨k, hk, hc⟩ | ⟨hx, k, hk, hc, hd⟩)
    · rcases List.mem_cons.1 hk with rfl | hk
      · exact .inl (Option.some.inj (hc.symm.trans h))
      · exact .inr (.inl ⟨k, hk, hc⟩)
    · have hk := (List.mem_cons.1 hk).resolve_left fun he => away hc (he ▸ rfl)
      rw [List.map_cons, List.count_cons_of_ne (away hc)] at hd
      exact .inr (.inr ⟨hx, k, hk, hc, hd⟩)
  · rintro (rfl | ⟨k, hk, hc⟩ | ⟨hx, k, hk, hc, hd⟩)
    · exact .inl ⟨l, List.mem_cons_self, h⟩
    · exact .inl ⟨k, List.mem_cons_of_mem l hk, hc⟩
    · refine .inr ⟨hx, k, List.mem_cons_of_mem l hk, hc, ?_⟩
      rwa [List.map_cons, List.count_cons_of_ne (away hc)]

/-- A location that held nothing holds `v` when it is read again. -/
theorem reads_cons_of_none (h : p.content? l = none) :
    p.Reads v (l :: ls) x ↔ (p.record (·.addDeposit l v)).Reads v ls x := by
  have again : l.id ∈ ls.map (·.id) → (p.record (·.addDeposit l v)).Reads v ls v := by
    intro hl
    obtain ⟨k, hk, hi⟩ := List.mem_map.1 hl
    exact .inl ⟨k, hk, by rw [content?_addDeposit, if_pos hi]⟩
  constructor
  · rintro (⟨k, hk, hc⟩ | ⟨rfl, k, hk, hc, hd⟩)
    · have hi : k.id ≠ l.id := by
        intro hi
        rw [content?_congr hi, h] at hc
        cases hc
      have hk := (List.mem_cons.1 hk).resolve_left fun he => hi (he ▸ rfl)
      exact .inl ⟨k, hk, by rw [content?_addDeposit, if_neg hi, hc]⟩
    · by_cases hi : k.id = l.id
      · refine again (List.count_pos_iff.1 ?_)
        rw [List.map_cons, hi, List.count_cons_self] at hd
        omega
      · have hk := (List.mem_cons.1 hk).resolve_left fun he => hi (he ▸ rfl)
        rw [List.map_cons, List.count_cons_of_ne (Ne.symm hi)] at hd
        exact .inr ⟨rfl, k, hk, by rw [content?_addDeposit, if_neg hi, hc], hd⟩
  · rintro (⟨k, hk, hc⟩ | ⟨hx, k, hk, hc, hd⟩)
    · rw [content?_addDeposit] at hc
      split at hc
      · rename_i hi
        refine .inr ⟨(Option.some.inj hc).symm, l, List.mem_cons_self, h, ?_⟩
        rw [List.map_cons, List.count_cons_self]
        have := List.count_pos_iff.2 (hi ▸ List.mem_map_of_mem hk : l.id ∈ ls.map (·.id))
        omega
      · exact .inl ⟨k, List.mem_cons_of_mem l hk, hc⟩
    · rw [content?_addDeposit] at hc
      split at hc
      · cases hc
      · rename_i hi
        refine .inr ⟨hx, k, List.mem_cons_of_mem l hk, hc, ?_⟩
        rwa [List.map_cons, List.count_cons_of_ne (Ne.symm hi)]

theorem mem_flows_addFlow {e : Flow} (he : e ∈ p.flows) (source target : Version)
    (via : Option Location) : e ∈ (p.record (·.addFlow source target via)).flows := by
  rw [flows_addFlow]
  split
  · exact he
  · exact List.mem_cons_of_mem _ he

private theorem exists_mem_flows_addFlow (p : Path) (source target : Version) (via : Option Location) :
    ∃ e ∈ (p.record (·.addFlow source target via)).flows,
      e.target.id = target.id ∧ e.source.id = source.id := by
  rw [flows_addFlow]
  split
  · rename_i h
    obtain ⟨e, he, hi⟩ := List.any_eq_true.1 h
    exact ⟨e, List.mem_append_left _ he, by simpa using hi⟩
  · exact ⟨_, List.mem_cons_self, rfl, rfl⟩

private theorem reads_addFlow (source target : Version) (via : Option Location) :
    (p.record (·.addFlow source target via)).Reads v ls x ↔ p.Reads v ls x := by
  simp only [Reads, Rereads, content?, deposits_addFlow]

end Path

namespace Recorder

variable {s : State} {v : Version} {ls : List Location}

theorem storeInto_run (d : Version) (x y : Term) (h : ∀ l ∈ ls, l ∈ s.path.locations) :
    storeInto d x y ls s = ((), { s with path := s.path.stored d ls }) := by
  induction ls generalizing s with
  | nil => rfl
  | cons l ls ih =>
    obtain ⟨hl, hls⟩ := List.forall_mem_cons.1 h
    have first : storeInto d x y (l :: ls) s =
        storeInto d x y ls (deposit (s.path.latestOf l) d s).2 := by
      rw [storeInto, run_get, Path.latestLocation?_eq_latestOf hl]
      rfl
    rw [first, ih (s := (deposit (s.path.latestOf l) d s).2) hls]
    simp only [Path.stored, List.map_cons, List.reverse_cons, List.append_assoc]
    rfl

/-- What a load of `v` from some locations leaves behind. -/
structure Loaded (v : Version) (ls : List Location) (s t : State) : Prop where
  next : t.next = s.next
  versions : t.path.versions = s.path.versions
  kept : ∀ e ∈ s.path.flows, e ∈ t.path.flows
  added : ∀ e ∈ t.path.flows, e ∈ s.path.flows ∨
    e.target = v ∧ (∃ l ∈ ls, e.via = some l) ∧ s.path.Reads v ls e.source
  read : ∀ x, s.path.Reads v ls x → ∃ e ∈ t.path.flows, e.target.id = v.id ∧ e.source.id = x.id

theorem loadFrom_loaded (v : Version) (ls : List Location) (s : State) :
    Loaded v ls s (loadFrom v ls s).2 := by
  induction ls generalizing s with
  | nil =>
    refine ⟨rfl, rfl, fun _ he => he, fun e he => .inl he, ?_⟩
    rintro x (⟨l, hl, _⟩ | ⟨_, l, hl, _⟩) <;> exact absurd hl List.not_mem_nil
  | cons l ls ih =>
    cases hc : s.path.content? l with
    | none =>
      have first : loadFrom v (l :: ls) s = loadFrom v ls (deposit l v s).2 := by
        rw [loadFrom, run_get, hc]
        rfl
      have rest := ih (deposit l v s).2
      rw [first]
      refine ⟨rest.next, rest.versions, rest.kept, fun e he => ?_, fun x hx => ?_⟩
      · rcases rest.added e he with he | ⟨ht, ⟨k, hk, hv⟩, hr⟩
        · exact .inl he
        · exact .inr ⟨ht, ⟨k, List.mem_cons_of_mem l hk, hv⟩, (Path.reads_cons_of_none hc).2 hr⟩
      · exact rest.read x ((Path.reads_cons_of_none hc).1 hx)
    | some c =>
      have first : loadFrom v (l :: ls) s = loadFrom v ls (addFlow c v (some l) s).2 := by
        rw [loadFrom, run_get, hc]
        rfl
      have rest := ih (addFlow c v (some l) s).2
      have reads {x : Version} : s.path.Reads v (l :: ls) x ↔
          x = c ∨ (addFlow c v (some l) s).2.path.Reads v ls x :=
        (Path.reads_cons_of_some hc).trans (or_congr_right (Path.reads_addFlow c v (some l)).symm)
      rw [first]
      refine ⟨rest.next, rest.versions.trans (Path.versions_addFlow ..), fun e he => ?_,
        fun e he => ?_, fun x hx => ?_⟩
      · exact rest.kept e (Path.mem_flows_addFlow he c v (some l))
      · rcases rest.added e he with he | ⟨ht, ⟨k, hk, hv⟩, hr⟩
        · rcases Path.mem_flows_of_mem_addFlow he with rfl | he
          · exact .inr ⟨rfl, ⟨l, List.mem_cons_self, rfl⟩, reads.2 (.inl rfl)⟩
          · exact .inl he
        · exact .inr ⟨ht, ⟨k, List.mem_cons_of_mem l hk, hv⟩, reads.2 (.inr hr)⟩
      · rcases reads.1 hx with rfl | hx
        · obtain ⟨e, he, hi⟩ := Path.exists_mem_flows_addFlow s.path x v (some l)
          exact ⟨e, rest.kept e he, hi⟩
        · exact rest.read x hx

end Recorder

namespace Effect

open Recorder

variable {s : State} {source : Value} {y : Term}

theorem loadResolved_of_none (h : (versionOf? source y s).1 = none) (i : Value) (x : Term) :
    (loadResolved source y i x).run s = (.ok false, (versionOf? source y s).2) := by
  unfold loadResolved
  rw [run_lift, h]
  rfl

theorem loadResolved_of_some {a : Version} (h : (versionOf? source y s).1 = some a) (i : Value)
    (x : Term) :
    let found := resolveAll a (versionOf? source y s).2
    let loaded := newVersion i x found.2
    (loadResolved source y i x).run s =
      if found.1.isEmpty then (.error (.unresolvedAddress i), found.2)
      else (.ok true, (loadFrom loaded.1 found.1 loaded.2).2) := by
  unfold loadResolved
  rw [run_lift, h]
  dsimp only
  rw [run_lift]
  split <;> rfl

end Effect

end PathSlice
