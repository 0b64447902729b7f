import PathSlice.Proofs.EffectUses

/-! The versions that are created. Recording creates versions in the current frame only: versions of
the operands that are looked up, versions of arguments of the entry point whose memory is made up,
and, in an instruction with a result, one version of the instruction itself. -/
namespace PathSlice

/-- These versions were created meanwhile, the latest first. -/
structure Created (vs : List Version) (s t : State) : Prop where
  current : t.path.current.versions = vs ++ s.path.current.versions
  ancestors : t.path.ancestors = s.path.ancestors

namespace Created

variable {vs ws : List Version} {s t u : State}

theorem refl (s : State) : Created [] s s :=
  ⟨rfl, rfl⟩

theorem of_path_eq (h : t.path = s.path) : Created [] s t :=
  ⟨by rw [h, List.nil_append], by rw [h]⟩

theorem trans (h : Created vs s t) (h' : Created ws t u) : Created (ws ++ vs) s u :=
  ⟨by rw [h'.current, h.current, List.append_assoc], h'.ancestors.trans h.ancestors⟩

theorem versions (h : Created vs s t) : t.path.versions = vs ++ s.path.versions := by
  simp only [Path.versions, Path.frames, List.flatMap_cons, h.current, h.ancestors,
    List.append_assoc]

theorem mem_versions (h : Created vs s t) {v : Version} (hv : v ∈ s.path.versions) :
    v ∈ t.path.versions := by
  rw [h.versions]
  exact List.mem_append_right vs hv

theorem latest? {v : Version} (h : Created [v] s t) (a : Value) :
    t.path.latest? a = if v.value.id = a.id then some v else s.path.latest? a := by
  by_cases hi : v.value.id = a.id <;> simp [Path.latest?, h.versions, hi]

/-- What was created is not among what was there. -/
theorem notMem (h : Created vs s t) {n : Nat} (hn : t.path.Numbered n) {v : Version}
    (hv : v ∈ vs) : v ∉ s.path.versions := by
  intro hs
  have later := hn.versions
  rw [h.versions] at later
  exact Nat.lt_irrefl v.id ((List.pairwise_append.1 later).2.2 v hv v hs)

end Created

/-- Only versions of the values in `V` were created. -/
def Adds (V : Value → Prop) (s t : State) : Prop :=
  ∃ vs, Created vs s t ∧ ∀ v ∈ vs, V v.value

namespace Adds

variable {V : Value → Prop} {s t u : State}

theorem of_path_eq (h : t.path = s.path) : Adds V s t :=
  ⟨[], .of_path_eq h, fun _ hv => absurd hv List.not_mem_nil⟩

theorem of_created {v : Version} (h : Created [v] s t) (hv : V v.value) : Adds V s t :=
  ⟨[v], h, List.forall_mem_singleton.2 hv⟩

theorem refl (s : State) : Adds V s s :=
  of_path_eq rfl

theorem trans (h : Adds V s t) (h' : Adds V t u) : Adds V s u := by
  obtain ⟨vs, hvs, hV⟩ := h
  obtain ⟨ws, hws, hW⟩ := h'
  exact ⟨ws ++ vs, hvs.trans hws, List.forall_mem_append.2 ⟨hW, hV⟩⟩

theorem forall_versions (h : Adds V s t) {Q : Version → Prop} (hV : ∀ v, V v.value → Q v)
    (hs : ∀ v ∈ s.path.versions, Q v) : ∀ v ∈ t.path.versions, Q v := by
  obtain ⟨vs, hvs, hmade⟩ := h
  rw [hvs.versions]
  exact List.forall_mem_append.2 ⟨fun v hv => hV v (hmade v hv), hs⟩

end Adds

instance (V : Value → Prop) : IsPreorder State (Adds V) where
  refl := .refl
  trans _ _ _ := .trans

/-- One version of `i`, with the term `x`, and versions of the values in `V` were created. -/
def Yields (V : Value → Prop) (i : Value) (x : Term) (s t : State) : Prop :=
  ∃ v u w, Adds V s u ∧ Created [v] u w ∧ Adds V w t ∧ v.value = i ∧ v.term = x

namespace Yields

variable {V : Value → Prop} {i : Value} {x : Term} {s t u : State} {v : Version}

theorem of_created (h : Created [v] s t) (hi : v.value = i) (hx : v.term = x) : Yields V i x s t :=
  ⟨v, s, t, .refl s, h, .refl t, hi, hx⟩

theorem after (h : Adds V s t) (h' : Yields V i x t u) : Yields V i x s u := by
  obtain ⟨v, a, b, ha, hv, rest⟩ := h'
  exact ⟨v, a, b, h.trans ha, hv, rest⟩

private theorem adding (h : Yields V i x s t) (h' : Adds V t u) : Yields V i x s u := by
  obtain ⟨v, a, b, ha, hv, hb, rest⟩ := h
  exact ⟨v, a, b, ha, hv, hb.trans h', rest⟩

theorem adds (h : Yields V i x s t) (hi : V i) : Adds V s t := by
  obtain ⟨v, a, b, ha, hv, hb, rfl, -⟩ := h
  exact (ha.trans (.of_created hv hi)).trans hb

end Yields

/-- The arguments of the entry point that the path has versions of are among the values in `V`. -/
structure Path.Hosts (V : Value → Prop) (p : Path) : Prop where
  versions : ∀ v ∈ p.versions, v.value.isEntryArgument → V v.value
  sources : ∀ e ∈ p.flows, e.source.value.isEntryArgument → V e.source.value

namespace Path.Hosts

variable {V : Value → Prop} {p : Path}

theorem of_closed (hc : p.Closed) (h : ∀ v ∈ p.versions, v.value.isEntryArgument → V v.value) :
    p.Hosts V :=
  ⟨h, fun e he => h e.source (hc.flows e he).2.1⟩

theorem ends (h : p.Hosts V) {v u : Version} (hv : v ∈ p.versions) (hu : u ∈ p.ends v) :
    u.value.isEntryArgument → V u.value := by
  rcases mem_ends hu with rfl | ⟨e, he, rfl⟩
  · exact h.versions u hv
  · exact h.sources e he

/-- What is looked up does not change which arguments may be made up. -/
theorem adds {s t : State} (h : s.path.Hosts V) (ha : Adds V s t) (hf : SameFlows s t) :
    t.path.Hosts V := by
  refine ⟨ha.forall_versions (fun _ hv _ => hv) h.versions, ?_⟩
  rw [hf.flows]
  exact h.sources

end Path.Hosts

namespace Recorder

variable {α : Type} {V : Value → Prop} {value i : Value} {v : Version} {s : State}

section Creation

theorem newVersion_adds (hv : V value) (x : Term) : Keeps (Adds V) (newVersion value x) :=
  fun s => .of_created (v := (newVersion value x s).1) ⟨rfl, rfl⟩ hv

private theorem newPointer_adds (hv : V value) (site : Value) (x : Term) :
    Keeps (Adds V) (newPointer value site x) :=
  fun s => .of_created (v := (newPointer value site x s).1) ⟨rfl, rfl⟩ hv

/-- A computation that records something else in the current frame. -/
theorem adds_of_versions {m : Recorder α}
    (h : ∀ s, (m s).2.path.current.versions = s.path.current.versions ∧
      (m s).2.path.ancestors = s.path.ancestors) : Keeps (Adds V) m :=
  fun s => ⟨[], ⟨(h s).1, (h s).2⟩, fun _ hv => absurd hv List.not_mem_nil⟩

theorem newLocation_adds (site : Value) (x : Term) : Keeps (Adds V) (newLocation site x) :=
  adds_of_versions fun _ => ⟨rfl, rfl⟩

theorem addPointer_adds (v : Version) (l : Location) : Keeps (Adds V) (addPointer v l) :=
  adds_of_versions fun _ => ⟨rfl, rfl⟩

theorem deposit_adds (l : Location) (v : Version) : Keeps (Adds V) (deposit l v) :=
  adds_of_versions fun _ => ⟨rfl, rfl⟩

theorem notify_adds (x : Notice) : Keeps (Adds V) (notify x) :=
  fun _ => .of_path_eq rfl

theorem addFlow_adds (source target : Version) (via : Option Location) :
    Keeps (Adds V) (addFlow source target via) := by
  refine adds_of_versions fun s => ?_
  change (s.path.record _).current.versions = _ ∧ (s.path.record _).ancestors = _
  rw [Path.record_addFlow]
  split <;> exact ⟨rfl, rfl⟩

theorem addFlows_adds (target : Version) (vs : List Version) :
    Keeps (Adds V) (addFlows target vs) := by
  induction vs with
  | nil => exact .pure ()
  | cons v vs ih => exact .bind (addFlow_adds v target none) fun _ => ih

theorem locationAt_adds (site : Value) (x : Term) : Keeps (Adds V) (locationAt site x) := by
  refine .get fun s => ?_
  split
  · exact .pure _
  · exact newLocation_adds site x

theorem elementAt_adds (base : Location) (x : Term) : Keeps (Adds V) (elementAt base x) := by
  have relocated (y : Term) : Keeps (Adds V) (relocate base x y) := by
    intro s
    rw [relocate_run]
    exact .of_path_eq rfl
  refine .get fun s => ?_
  split
  · exact .pure _
  · exact .bind (relocated _) fun l => .bind (adds_of_versions fun _ => ⟨rfl, rfl⟩) fun _ => .pure l

theorem pointInto_adds (v : Version) (x : Term) (ls : List Location) :
    Keeps (Adds V) (pointInto v x ls) := by
  induction ls with
  | nil => exact .pure ()
  | cons l ls ih =>
    exact .bind (elementAt_adds l x) fun k => .bind (addPointer_adds v k) fun _ => ih

theorem loadFrom_adds (v : Version) (ls : List Location) : Keeps (Adds V) (loadFrom v ls) := by
  induction ls with
  | nil => exact .pure ()
  | cons l ls ih =>
    refine .get fun s => ?_
    split
    · exact .bind (addFlow_adds _ v (some l)) fun _ => ih
    · exact .bind (deposit_adds l v) fun _ => ih

theorem storeIntoWith_adds (v : Version) (ls : List Location) :
    Keeps (Adds V) (storeIntoWith Pure.pure v ls) := by
  induction ls with
  | nil => exact .pure ()
  | cons l ls ih =>
    refine .get fun s => ?_
    split <;> exact .bind (.pure _) fun _ => .bind (deposit_adds _ v) fun _ => ih

end Creation

section Lookups

theorem versionOf?_adds (hv : V value) (x : Term) : Keeps (Adds V) (versionOf? value x) := by
  intro s
  rcases versionOf?_cases value x s with h | h | h <;> rw [h]
  · exact .refl s
  · exact newVersion_adds hv x s
  · exact newPointer_adds hv value x s

/-- A constant always has a version. -/
theorem versionOf?_ne_none (hc : value.isConstant) (x : Term) (s : State) :
    (versionOf? value x s).1 ≠ none := by
  by_cases hg : value.isGlobal
  · have lasting : value.Lasting := fun _ => hg
    cases hl : s.path.latest? value with
    | some v => simp [versionOf?_of_latest? lasting hl x]
    | none =>
      rw [versionOf?_of_global hg hl]
      split <;> exact Option.some_ne_none _
  · by_cases he : value.isConstantElementAddress
    · simp [versionOf?_of_isConstantElementAddress he x]
    · simp [versionOf?_of_constant hc hg he x]

private theorem versionOrNew_adds (hv : V value) (x : Term) : Keeps (Adds V) (versionOrNew value x) := by
  refine .bind (versionOf?_adds hv x) fun v? => ?_
  cases v? with
  | some v => exact .pure v
  | none => exact newVersion_adds hv x

theorem actuals_adds {given : List (Value × Term)} (h : ∀ g ∈ given, V g.1) :
    Keeps (Adds V) (actuals given) := by
  induction given with
  | nil => exact .pure []
  | cons g given ih =>
    obtain ⟨hg, hgiven⟩ := List.forall_mem_cons.1 h
    exact .bind (ih hgiven) fun _ => .bind (versionOrNew_adds hg g.2) fun _ => .pure _

theorem bindEach_adds {bound : List (Value × Version)} (h : ∀ b ∈ bound, V b.1) :
    Keeps (Adds V) (bindEach bound) := by
  induction bound with
  | nil => exact .pure ()
  | cons b bound ih =>
    obtain ⟨hb, hbound⟩ := List.forall_mem_cons.1 h
    exact .bind (newVersion_adds hb _) fun v => .bind (addFlow_adds b.2 v none) fun _ => ih hbound

theorem flowArguments_adds (result : Version) (x : Term) {values : List Value}
    (h : ∀ value ∈ values, V value) (xs : List Term) :
    Keeps (Adds V) (flowArguments result x values xs) := by
  induction values generalizing xs with
  | nil => exact .pure ()
  | cons value values ih =>
    obtain ⟨hv, hvalues⟩ := List.forall_mem_cons.1 h
    refine .bind (versionOf?_adds hv _) fun v? => ?_
    cases v? with
    | some v => exact .bind (addFlow_adds v result none) fun _ => ih hvalues _
    | none => exact ih hvalues _

theorem rangeBound_adds (hv : V value) (i : Value) (opcode : Opcode) (bound : String) (x : Term)
    (v? : Option Version) : Keeps (Adds V) (Effect.rangeBound i opcode bound value x v?) :=
  .ite (.bind (newVersion_adds hv x) fun _ => .pure _) (.pure v?)

/-- What is looked up leaves the arguments that may be made up as they are. -/
theorem versionOf?_hosts (hs : s.path.Hosts V) (hv : V value) (x : Term) :
    (versionOf? value x s).2.path.Hosts V :=
  hs.adds (versionOf?_adds hv x s) (versionOf?_quiet value x s)

end Lookups

section Resolution

/-- A new version is made up for an argument of the entry point only. -/
theorem resolve?_adds (hv : v.value.isEntryArgument → V v.value) :
    Keeps (Adds V) (resolve? v) := by
  refine .get fun s => ?_
  split
  · exact .pure _
  · split
    · exact .bind (newLocation_adds _ _) fun l => .bind (newVersion_adds (hv ‹_›) _) fun u =>
        .bind (addPointer_adds u l) fun _ => .pure _
    · exact .pure _

private theorem resolveEach_adds {vs : List Version}
    (h : ∀ v ∈ vs, v.value.isEntryArgument → V v.value) : Keeps (Adds V) (resolveEach vs) := by
  induction vs with
  | nil => exact .pure []
  | cons v vs ih =>
    obtain ⟨hv, hvs⟩ := List.forall_mem_cons.1 h
    refine .bind (resolve?_adds hv) fun l? => ?_
    cases l? with
    | none => exact ih hvs
    | some l => exact .bind (ih hvs) fun _ => .pure _

theorem resolveAll_adds (hs : s.path.Hosts V) (hv : v ∈ s.path.versions) :
    Adds V s (resolveAll v s).2 := by
  have first := resolve?_adds (hs.versions v hv) s
  have ends : (resolve? v s).2.path.ends v = s.path.ends v :=
    congrFun (resolve?_quiet v s).ends v
  refine first.trans ?_
  rw [resolveAll, run_bind]
  cases (resolve? v s).1 with
  | some l => exact .refl _
  | none =>
    refine resolveEach_adds (fun u hu => ?_) (resolve? v s).2
    exact hs.ends hv (ends ▸ hu)

/-- What the version of an operand resolves to. -/
theorem versionOf?_resolveAll_adds (hs : s.path.Hosts V) (hv : V value) {x : Term}
    (h : (versionOf? value x s).1 = some v) :
    Adds V s (resolveAll v (versionOf? value x s).2).2 :=
  (versionOf?_adds hv x s).trans
    (resolveAll_adds (versionOf?_hosts hs hv x) (mem_versions_of_versionOf? h))

theorem locationsOf_adds (hs : s.path.Hosts V) (hv : V value) (x : Term) :
    Adds V s (Effect.locationsOf value x s).2 := by
  rw [Effect.locationsOf, run_bind]
  cases h : (versionOf? value x s).1 with
  | some a => exact versionOf?_resolveAll_adds hs hv h
  | none => exact versionOf?_adds hv x s

end Resolution

section Results

theorem newVersion_yields (i : Value) (x : Term) (s : State) :
    Yields V i x s (newVersion i x s).2 :=
  .of_created (v := (newVersion i x s).1) ⟨rfl, rfl⟩ rfl rfl

theorem newPointer_yields (i site : Value) (x : Term) (s : State) :
    Yields V i x s (newPointer i site x s).2 :=
  .of_created (v := (newPointer i site x s).1) ⟨rfl, rfl⟩ rfl rfl

/-- What is recorded about a result once it is there. -/
theorem newVersion_bind_yields {k : Version → Recorder α} (hk : ∀ v, Keeps (Adds V) (k v))
    (i : Value) (x : Term) (s : State) : Yields V i x s ((newVersion i x >>= k) s).2 :=
  (newVersion_yields i x s).adding (hk _ _)

end Results

end Recorder

end PathSlice
