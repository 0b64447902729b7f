import PathSlice.Proofs.CreationOrder
import PathSlice.Proofs.FlowClosure
import PathSlice.Proofs.TrackedResults

/-! The binding of arguments to parameters. All arguments are looked up before any parameter is
bound, so the parameters may be permuted by a function that calls itself. Every parameter gets a
version of its own that was computed from its argument alone. -/
namespace PathSlice

theorem Settled.bindCall {s : State} (h : Settled s) (site : Value) (xs : List Term) :
    Settled ((Effect.bindCall site xs).run s).2 := by
  obtain ⟨w, hm, ⟨hw, _⟩, _⟩ := (recording_lawful s.next).bindCall
    ⟨rfl, rfl, h.toRecorded, Nat.le_refl _⟩ site xs
  have hm : Moves s.next s w := hm
  rw [hw]
  exact ⟨hm.recorded h.toRecorded, (hm.layered h.layered).mono hm.grown.next⟩

/-! The arguments. -/

/-- A new version of a value that has none, or always gets one, hides no other value's. -/
private theorem Created.latest?_kept {P : Program} {n : Nat} (hP : P.Declared n) {s t : State}
    {v w : Version} (h : Created [v] s t) (hv : v.value ∈ P)
    (untracked : v.value.Lasting → s.path.latest? v.value = none) {a : Value} (ha : a ∈ P)
    (hl : a.Lasting) (hw : s.path.latest? a = some w) : t.path.latest? a = some w := by
  rw [h.latest?, if_neg, hw]
  intro same
  have := hP.value_eq hv ha same
  subst this
  rw [untracked hl] at hw
  cases hw

/-- The version stands for the value: it is the latest one, unless the value gets a new version
whenever it is used. -/
structure Path.StandsFor (p : Path) (v : Version) (a : Value) : Prop where
  mem : v ∈ p.versions
  value : v.value = a
  latest : a.Lasting → p.latest? a = some v

/-- What has been done when the versions `vs` of the arguments are there. Those in `made` are new. -/
structure Furnished (P : Program) (given : List (Value × Term)) (vs made : List Version)
    (s t : State) : Prop where
  created : Created made s t
  within : ∀ v ∈ t.path.versions, v.value ∈ P
  stand : List.Forall₂ (fun g v => t.path.StandsFor v g.1) given vs
  used : ∀ v ∈ made, v ∈ vs
  untracked : ∀ v ∈ made, v.value.Lasting → s.path.latest? v.value = none
  kept : ∀ a ∈ P, a.Lasting → ∀ v, s.path.latest? a = some v → t.path.latest? a = some v

namespace Furnished

variable {P : Program} {n : Nat} {given : List (Value × Term)} {vs made : List Version}
  {s t u : State} {a : Value} {v w : Version} {g : Value × Term}

theorem nil (hs : ∀ v ∈ s.path.versions, v.value ∈ P) : Furnished P [] [] [] s s where
  created := .refl s
  within := hs
  stand := .nil
  used _ hv := absurd hv List.not_mem_nil
  untracked _ hv := absurd hv List.not_mem_nil
  kept _ _ _ _ hv := hv

/-- The next argument has a version. -/
private theorem find (hP : P.Declared n) (h : Furnished P given vs made s t) (hg : g.1 ∈ P)
    (hv : t.path.latest? g.1 = some v) : Furnished P (g :: given) (v :: vs) made s t := by
  have mem := Path.mem_versions_of_latest? hv
  have same : v.value.id = g.1.id := by simpa using List.find?_some hv
  have value := hP.value_eq (h.within v mem) hg same
  refine ⟨h.created, h.within, .cons ⟨mem, value, fun _ => hv⟩ h.stand, ?_, h.untracked, h.kept⟩
  exact fun w hw => List.mem_cons_of_mem v (h.used w hw)

/-- The next argument gets a new version. -/
theorem make (hP : P.Declared n) (h : Furnished P given vs made s t) (hg : g.1 ∈ P)
    (hn : g.1.Lasting → t.path.latest? g.1 = none) (hv : v.value = g.1) (new : Created [v] t u) :
    Furnished P (g :: given) (v :: vs) (v :: made) s u := by
  rw [← hv] at hg hn
  have kept {a : Value} (ha : a ∈ P) (hl : a.Lasting) {w : Version}
      (hw : t.path.latest? a = some w) : u.path.latest? a = some w :=
    new.latest?_kept hP hg hn ha hl hw
  have mem : v ∈ u.path.versions := by
    rw [new.versions]
    exact List.mem_cons_self
  refine ⟨h.created.trans new, ?_, .cons ⟨mem, hv, fun _ => ?_⟩ (h.stand.imp ?_), ?_, ?_, ?_⟩
  · rw [new.versions]
    exact List.forall_mem_cons.2 ⟨hg, h.within⟩
  · rw [new.latest?, if_pos (congrArg Value.id hv)]
  · intro g' w hw
    refine ⟨new.mem_versions hw.mem, hw.value, fun hl => ?_⟩
    exact kept (hw.value ▸ h.within w hw.mem) hl (hw.latest hl)
  · refine List.forall_mem_cons.2 ⟨List.mem_cons_self, fun w hw => ?_⟩
    exact List.mem_cons_of_mem v (h.used w hw)
  · refine List.forall_mem_cons.2 ⟨fun hl => ?_, h.untracked⟩
    cases hw : s.path.latest? v.value with
    | none => rfl
    | some w => exact (h.kept v.value hg hl w hw).symm.trans (hn hl)
  · exact fun a ha hl w hw => kept ha hl (h.kept a ha hl w hw)

private theorem standsFor (h : Furnished P given vs made s t) (hv : v ∈ vs) :
    t.path.StandsFor v v.value := by
  obtain ⟨k, hk, rfl⟩ := List.getElem_of_mem hv
  have stands := h.stand.get (h.stand.length_eq ▸ hk) hk
  rw [← stands.value] at stands
  exact stands

/-- What was tracked before is what stands for the value. -/
private theorem eq_of_tracked (h : Furnished P given vs made s t) (hv : t.path.StandsFor v a)
    (hl : a.Lasting) (hw : s.path.latest? a = some w) : v = w := by
  have ha : a ∈ P := hv.value ▸ h.within v hv.mem
  exact Option.some.inj ((hv.latest hl).symm.trans (h.kept a ha hl w hw))

/-- Otherwise a new version does. -/
private theorem mem_made (h : Furnished P given vs made s t) (hv : t.path.StandsFor v a)
    (hn : s.path.latest? a = none) : v ∈ made := by
  have mem := hv.mem
  rw [h.created.versions] at mem
  refine (List.mem_append.1 mem).resolve_right fun old => ?_
  exact List.find?_eq_none.1 hn v old (by simp [hv.value])

/-- It is the only new one. -/
private theorem eq_of_mem_made (h : Furnished P given vs made s t) (hv : t.path.StandsFor v a)
    (hl : a.Lasting) (hw : w ∈ made) (ha : w.value = a) : w = v := by
  have stands := h.standsFor (h.used w hw)
  rw [ha] at stands
  exact Option.some.inj ((stands.latest hl).symm.trans (hv.latest hl))

end Furnished

namespace Recorder

variable {P : Program} {n : Nat} {s : State}

/-- A version is found, or a new one is made for a value that has none or always gets one. -/
private theorem versionOrNew_cases (value : Value) (x : Term) (s : State) :
    (value.Lasting ∧ ∃ v, s.path.latest? value = some v ∧ versionOrNew value x s = (v, s)) ∨
      (value.Lasting → s.path.latest? value = none) ∧
        ∃ v t, versionOrNew value x s = (v, t) ∧ v.value = value ∧ Created [v] s t := by
  have found {v : Version} {t : State} (h : versionOf? value x s = (some v, t)) :
      versionOrNew value x s = (v, t) := by
    rw [versionOrNew, run_bind, h]
    rfl
  by_cases hl : value.Lasting
  · cases hv : s.path.latest? value with
    | some v => exact .inl ⟨hl, v, rfl, found (versionOf?_of_latest? hl hv x)⟩
    | none =>
      refine .inr ⟨fun _ => rfl, ?_⟩
      rcases versionOf?_cases value x s with h | h | h
      · refine ⟨(newVersion value x s).1, (newVersion value x s).2, ?_, rfl, rfl, rfl⟩
        rw [versionOrNew, run_bind, h, hv]
        rfl
      · exact ⟨_, _, found h, rfl, rfl, rfl⟩
      · exact ⟨_, _, found h, rfl, rfl, rfl⟩
  · obtain ⟨hc, hg⟩ := Classical.not_imp.1 hl
    refine .inr ⟨fun h => absurd h hl, ?_⟩
    by_cases he : value.isConstantElementAddress
    · exact ⟨_, _, found (versionOf?_of_isConstantElementAddress he x s), rfl, rfl, rfl⟩
    · exact ⟨_, _, found (versionOf?_of_constant hc hg he x s), rfl, rfl, rfl⟩

/-- The arguments are furnished one after the other, from the last to the first. -/
private theorem actuals_furnished (hP : P.Declared n) (hs : ∀ v ∈ s.path.versions, v.value ∈ P)
    {given : List (Value × Term)} (hg : ∀ g ∈ given, g.1 ∈ P) :
    ∃ made, Furnished P given (actuals given s).1 made s (actuals given s).2 := by
  induction given with
  | nil => exact ⟨[], .nil hs⟩
  | cons g given ih =>
    obtain ⟨hv, hgiven⟩ := List.forall_mem_cons.1 hg
    obtain ⟨made, h⟩ := ih hgiven
    have run : actuals (g :: given) s =
        ((versionOrNew g.1 g.2 (actuals given s).2).1 :: (actuals given s).1,
          (versionOrNew g.1 g.2 (actuals given s).2).2) := rfl
    rw [run]
    rcases versionOrNew_cases g.1 g.2 (actuals given s).2 with
      ⟨_, v, latest, found⟩ | ⟨none, v, t, new, value, created⟩
    · rw [found]
      exact ⟨made, h.find hP hv latest⟩
    · rw [new]
      exact ⟨v :: made, h.make hP hv none value created⟩

/-! The parameters. -/

/-- The flow from an argument to a new version of its parameter. -/
def binding (id : Nat) (b : Value × Version) : Flow :=
  ⟨⟨id, b.1, b.2.term⟩, b.2, none⟩

/-- The flows from arguments to parameters, whose new versions are numbered from `n` on. -/
def bindings (n : Nat) (bound : List (Value × Version)) : List Flow :=
  bound.mapIdx fun k b => binding (n + k) b

private theorem bindings_cons (n : Nat) (b : Value × Version) (bound : List (Value × Version)) :
    bindings n (b :: bound) = binding n b :: bindings (n + 1) bound := by
  simp only [bindings, List.mapIdx_cons, Nat.add_zero, Nat.add_assoc, Nat.add_comm 1]

theorem mem_bindings_iff {n : Nat} {bound : List (Value × Version)} {e : Flow} :
    e ∈ bindings n bound ↔ ∃ k b, bound[k]? = some b ∧ binding (n + k) b = e := by
  simp only [bindings, List.mem_mapIdx, List.getElem?_eq_some_iff]
  constructor
  · rintro ⟨k, hk, rfl⟩
    exact ⟨k, bound[k], ⟨hk, rfl⟩, rfl⟩
  · rintro ⟨k, b, ⟨hk, rfl⟩, rfl⟩
    exact ⟨k, hk, rfl⟩

/-- What is bound is recorded, and nothing else. -/
private theorem bindEach_run (hs : ∀ e ∈ s.path.current.flows, e.target.id < s.next)
    (bound : List (Value × Version)) :
    Created ((bindings s.next bound).map (·.target)).reverse s (bindEach bound s).2 ∧
      (bindEach bound s).2.path.current.flows =
        (bindings s.next bound).reverse ++ s.path.current.flows := by
  induction bound generalizing s with
  | nil => exact ⟨.refl s, rfl⟩
  | cons b bound ih =>
    let v : Version := ⟨s.next, b.1, b.2.term⟩
    let t := (newVersion b.1 b.2.term s).2
    let u : State := { t with path :=
      ⟨{ t.path.current with flows := ⟨v, b.2, none⟩ :: t.path.current.flows }, t.path.ancestors⟩ }
    -- Nothing flows into a version that has just been created.
    have fresh : ¬t.path.current.hasFlow b.2 v := by
      intro known
      obtain ⟨e, he, same⟩ := List.any_eq_true.1 known
      have same : e.target.id = s.next := (by simpa using same : _ ∧ _).1
      exact Nat.ne_of_lt (hs e he) same
    have added : (addFlow b.2 v none t).2 = u := by
      change { t with path := t.path.record (·.addFlow b.2 v none) } = u
      rw [Path.record_addFlow, if_neg fresh]
    have step : bindEach (b :: bound) s = bindEach bound u := by
      rw [← added]
      rfl
    have first : Created [v] s u := ⟨rfl, rfl⟩
    have below : ∀ e ∈ u.path.current.flows, e.target.id < u.next := by
      refine List.forall_mem_cons.2 ⟨Nat.lt_succ_self s.next, fun e he => ?_⟩
      exact Nat.lt_succ_of_lt (hs e he)
    obtain ⟨created, flows⟩ := ih below
    rw [step, bindings_cons, List.map_cons, List.reverse_cons, List.reverse_cons]
    refine ⟨first.trans created, ?_⟩
    rw [flows, List.append_assoc]
    rfl

end Recorder

/-- What has been done when parameters are bound to versions that are there. -/
structure Bound (pairs : List (Value × Version)) (s t : State) : Prop where
  created : Created ((Recorder.bindings s.next pairs).map (·.target)).reverse s t
  flows : t.path.flows = (Recorder.bindings s.next pairs).reverse ++ s.path.flows

namespace Bound

open Recorder (binding bindings mem_bindings_iff)

variable {pairs : List (Value × Version)} {s t : State} {b : Value × Version} {k : Nat}

private theorem of_bindEach (hs : Recorded s) (pairs : List (Value × Version)) :
    Bound pairs s (Recorder.bindEach pairs s).2 := by
  have below : ∀ e ∈ s.path.current.flows, e.target.id < s.next :=
    fun e he => hs.target_lt (List.mem_append_left _ he)
  obtain ⟨created, flows⟩ := Recorder.bindEach_run below pairs
  refine ⟨created, ?_⟩
  simp only [Path.flows, Path.frames, List.flatMap_cons, flows, created.ancestors,
    List.append_assoc]

private theorem target_mem (h : Bound pairs s t) (hk : pairs[k]? = some b) :
    (binding (s.next + k) b).target ∈ t.path.versions := by
  rw [h.created.versions]
  refine List.mem_append_left _ (List.mem_reverse.2 (List.mem_map_of_mem ?_))
  exact mem_bindings_iff.2 ⟨k, b, hk, rfl⟩

/-- Nothing but its argument flows into what is bound to a parameter. -/
theorem sourcesOf (h : Bound pairs s t) (hs : Recorded s) (ht : Settled t)
    (hk : pairs[k]? = some b) : t.path.sourcesOf (binding (s.next + k) b).target = [b.2] := by
  refine Ascending.eq_of_mem_iff (ht.layered.sourcesOf_ascending _) (List.pairwise_singleton _ _)
    fun x => ?_
  rw [Path.mem_sourcesOf_iff ht.traceable, h.flows, List.mem_singleton]
  constructor
  · rintro ⟨e, he, same, rfl⟩
    rcases List.mem_append.1 he with he | he
    · obtain ⟨j, c, hj, rfl⟩ := mem_bindings_iff.1 (List.mem_reverse.1 he)
      have : j = k := Nat.add_left_cancel same
      subst this
      rw [hj] at hk
      cases hk
      rfl
    · have := hs.target_lt he
      have same : e.target.id = s.next + k := same
      omega
  · rintro rfl
    have bound : binding (s.next + k) b ∈ bindings s.next pairs :=
      mem_bindings_iff.2 ⟨k, b, hk, rfl⟩
    exact ⟨_, List.mem_append_left _ (List.mem_reverse.2 bound), rfl, rfl⟩

/-- What was there was computed from what it had been computed from. -/
theorem mem_sourcesOf_iff (h : Bound pairs s t) (hs : Recorded s) (ht : Settled t) {v x : Version}
    (hv : v ∈ s.path.versions) : x ∈ t.path.sourcesOf v ↔ x ∈ s.path.sourcesOf v := by
  rw [Path.mem_sourcesOf_iff ht.traceable, Path.mem_sourcesOf_iff hs.traceable, h.flows]
  refine exists_congr fun e => and_congr_left fun ⟨same, _⟩ => ?_
  refine List.mem_append.trans (or_iff_right fun he => ?_)
  obtain ⟨j, c, _, rfl⟩ := mem_bindings_iff.1 (List.mem_reverse.1 he)
  have := hs.numbered.versions_lt v hv
  have same : s.next + j = v.id := same
  omega

/-- A version is one that was there, or the one that is bound to some parameter. -/
theorem mem_versions_cases (h : Bound pairs s t) {v : Version} (hv : v ∈ t.path.versions) :
    v ∈ s.path.versions ∨ ∃ k b, pairs[k]? = some b ∧ (binding (s.next + k) b).target = v := by
  rw [h.created.versions] at hv
  rcases List.mem_append.1 hv with hv | hv
  · obtain ⟨e, he, rfl⟩ := List.mem_map.1 (List.mem_reverse.1 hv)
    obtain ⟨k, b, hk, rfl⟩ := mem_bindings_iff.1 he
    exact .inr ⟨k, b, hk, rfl⟩
  · exact .inl hv

/-- The latest version of a parameter is the one bound to it. -/
theorem latest? (h : Bound pairs s t) (hs : Recorded s) (ht : Settled t)
    (hd : ∀ j c, pairs[j]? = some c → c.1.id = b.1.id → j = k) (hk : pairs[k]? = some b) :
    t.path.latest? b.1 = some (binding (s.next + k) b).target := by
  refine ht.numbered.latest?_iff.2 ⟨h.target_mem hk, rfl, fun v hv same => ?_⟩
  rcases h.mem_versions_cases hv with hv | ⟨j, c, hj, rfl⟩
  · exact Nat.le_trans (Nat.le_of_lt (hs.numbered.versions_lt v hv)) (Nat.le_add_right _ k)
  · obtain rfl := hd j c hj same
    exact Nat.le_refl _

end Bound

/-- How the actual argument `a` is handed to the parameter `p`: through the version `v` of the
argument and the version `b` of the parameter. Those in `made` were created for arguments. Every
argument that is not a constant is lasting. -/
structure HandedOver (made : List Version) (s t : State) (p a : Value) (v b : Version) : Prop where
  known : v ∈ t.path.versions
  argument : v.value = a
  tracked : a.Lasting → ∀ w, s.path.latest? a = some w → v = w
  untracked : a.Lasting → s.path.latest? a = none → v ∈ made ∧ ∀ w ∈ made, w.value = a → w = v
  new : b ∉ s.path.versions
  parameter : b.value = p
  term : b.term = v.term
  source : t.path.sourcesOf b = [v]
  only : ∀ w ∈ t.path.versions, w ∉ s.path.versions → w.value = p →
    w = b ∨ w ∈ made ∧ t.path.sourcesOf w = []
  latest : t.path.latest? p = some b

/-- A lasting argument is handed over through one version, whichever parameters it is for. -/
private theorem HandedOver.argument_unique {made : List Version} {s t : State} {p q a : Value}
    {v w b c : Version} (hv : HandedOver made s t p a v b) (hw : HandedOver made s t q a w c)
    (lasting : a.Lasting) : v = w := by
  cases h : s.path.latest? a with
  | none => exact (hw.untracked lasting h).2 v (hv.untracked lasting h).1 hv.argument
  | some u => exact (hv.tracked lasting u h).trans (hw.tracked lasting u h).symm

/-- What a call of `callee` at `site` has bound: the versions `arguments` to the parameters, of which
`bound` are the new versions. Those in `made` were created for arguments that always get a new
version, or that were not tracked before. -/
structure CallBound (site callee : Value) (arguments bound made : List Version) (s t : State) :
    Prop where
  arguments_length : arguments.length = callee.parameters.length
  bound_length : bound.length = callee.parameters.length
  created : Created (bound.reverse ++ made) s t
  untracked : ∀ v ∈ made, v ∈ arguments ∧ (v.value.Lasting → s.path.latest? v.value = none)
  handed : ∀ (k : Nat) p, callee.parameters[k]? = some p →
    ∃ a v b, site.callArguments[k]? = some a ∧ arguments[k]? = some v ∧ bound[k]? = some b ∧
      HandedOver made s t p a v b
  shared : ∀ (j k : Nat) a v w, a.Lasting → site.callArguments[j]? = some a →
    site.callArguments[k]? = some a → arguments[j]? = some v → arguments[k]? = some w → v = w

/-- That positions share a version follows from how each parameter got its argument. -/
private theorem CallBound.of_handed {site callee : Value} {arguments bound made : List Version}
    {s t : State} (arguments_length : arguments.length = callee.parameters.length)
    (bound_length : bound.length = callee.parameters.length)
    (created : Created (bound.reverse ++ made) s t)
    (untracked : ∀ v ∈ made, v ∈ arguments ∧ (v.value.Lasting → s.path.latest? v.value = none))
    (handed : ∀ (k : Nat) p, callee.parameters[k]? = some p →
      ∃ a v b, site.callArguments[k]? = some a ∧ arguments[k]? = some v ∧ bound[k]? = some b ∧
        HandedOver made s t p a v b) :
    CallBound site callee arguments bound made s t := by
  refine ⟨arguments_length, bound_length, created, untracked, handed, ?_⟩
  -- every position that has a version is the position of a parameter
  have position {k : Nat} {a : Value} {v : Version} (ha : site.callArguments[k]? = some a)
      (hv : arguments[k]? = some v) : ∃ p b, HandedOver made s t p a v b := by
    have below := arguments_length ▸ (List.getElem?_eq_some_iff.1 hv).1
    obtain ⟨a', v', b, ha', hv', -, hb⟩ := handed k _ (List.getElem?_eq_getElem below)
    obtain rfl := Option.some.inj (ha.symm.trans ha')
    obtain rfl := Option.some.inj (hv.symm.trans hv')
    exact ⟨_, b, hb⟩
  intro j k a v w lasting hj hk hv hw
  obtain ⟨p, b, first⟩ := position hj hv
  obtain ⟨q, c, second⟩ := position hk hw
  exact first.argument_unique second lasting

namespace Effect

open Recorder

/-- A call of a known function: what is missing is noticed before anything is looked up. -/
theorem bindCall_run {site callee : Value} (hc : site.callee? = some callee) (xs : List Term)
    (s : State) :
    let given := (site.callArguments.zip xs).take callee.parameters.length
    (bindCall site xs).run s =
      if (site.callArguments.zip xs).length < callee.parameters.length then
        (.error (.operandNotFound site (.argument (callee.parameters.length - 1))), s)
      else
        (.ok (), (bindEach (callee.parameters.zip (actuals given s).1) (actuals given s).2).2) := by
  rw [bindCall_eq, hc]
  dsimp only
  split <;> rfl

end Effect

/-- Versions of the arguments, and then of the parameters. -/
private theorem HandedOver.of_bound {P : Program} {n : Nat} (hP : P.Declared n) {s t u : State}
    {parameters : List Value} {given : List (Value × Term)} {vs made : List Version}
    (hs : Recorded s) (hu : Recorded u) (ht : Settled t) (hf : Furnished P given vs made s u)
    (quiet : SameFlows s u) (hb : Bound (parameters.zip vs) u t) (hp : ∀ p ∈ parameters, p ∈ P)
    (distinct : parameters.Nodup) {k : Nat} {p a : Value} {x : Term} {v : Version}
    (hk : parameters[k]? = some p) (hg : given[k]? = some (a, x)) (hv : vs[k]? = some v) :
    HandedOver made s t p a v (Recorder.binding (u.next + k) (p, v)).target := by
  have pair : (parameters.zip vs)[k]? = some (p, v) := List.getElem?_zip_eq_some.2 ⟨hk, hv⟩
  have index {j : Nat} {c : Value × Version} (hj : (parameters.zip vs)[j]? = some c)
      (same : c.1.id = p.id) : j = k := by
    have hc := (List.getElem?_zip_eq_some.1 hj).1
    have := hP.value_eq (hp c.1 (List.mem_of_getElem? hc)) (hp p (List.mem_of_getElem? hk)) same
    rw [this, ← hk] at hc
    exact ((List.getElem?_inj (List.getElem?_eq_some_iff.1 hk).1 distinct).1 hc.symm).symm
  have stands : u.path.StandsFor v a := by
    obtain ⟨hgk, hga⟩ := List.getElem?_eq_some_iff.1 hg
    obtain ⟨hvk, rfl⟩ := List.getElem?_eq_some_iff.1 hv
    have stands := hf.stand.get hgk hvk
    rw [List.get_eq_getElem, List.get_eq_getElem, hga] at stands
    exact stands
  constructor
  · exact hb.created.mem_versions stands.mem
  · exact stands.value
  · exact fun hl w hw => hf.eq_of_tracked stands hl hw
  · exact fun hl hn => ⟨hf.mem_made stands hn, fun w hw ha => hf.eq_of_mem_made stands hl hw ha⟩
  · intro old
    have : u.next + k < u.next := hu.numbered.versions_lt _ (hf.created.mem_versions old)
    omega
  · rfl
  · rfl
  · exact hb.sourcesOf hu ht pair
  · intro w hw fresh hwp
    rcases hb.mem_versions_cases hw with hw | ⟨j, c, hj, rfl⟩
    · have made : w ∈ made := by
        rw [hf.created.versions] at hw
        exact (List.mem_append.1 hw).resolve_right fresh
      refine .inr ⟨made, List.eq_nil_iff_forall_not_mem.2 fun y hy => ?_⟩
      rw [hb.mem_sourcesOf_iff hu ht hw, quiet.sourcesOf] at hy
      obtain ⟨e, he, same, _⟩ := Path.mem_flows_of_mem_sourcesOf hy
      have target := (hs.closed.flows e he).1
      rw [hu.numbered.version_eq (hf.created.mem_versions target) hw same] at target
      exact fresh target
    · obtain rfl := index hj (congrArg Value.id hwp)
      rw [pair] at hj
      cases hj
      exact .inl rfl
  · exact hb.latest? hu ht (fun j c hj same => index hj same) pair

namespace Effect

open Recorder

/-- Something is missing exactly if some parameter has no argument or no term. -/
private theorem bindCall_fails_iff {site callee : Value} (hc : site.callee? = some callee)
    (xs : List Term) (s : State) :
    (∃ fault t, (bindCall site xs).run s = (.error fault, t)) ↔
      ∃ k < callee.parameters.length, site.callArguments[k]? = none ∨ xs[k]? = none := by
  have short : (site.callArguments.zip xs).length < callee.parameters.length ↔
      ∃ k < callee.parameters.length, site.callArguments[k]? = none ∨ xs[k]? = none := by
    simp only [List.length_zip, List.getElem?_eq_none_iff, ← min_le_iff]
    exact ⟨fun h => ⟨_, h, Nat.le_refl _⟩, fun ⟨_, hk, hle⟩ => Nat.lt_of_le_of_lt hle hk⟩
  rw [bindCall_run hc, ← short]
  split
  · rename_i h
    exact ⟨fun _ => h, fun _ => ⟨_, _, rfl⟩⟩
  · rename_i h
    exact ⟨fun ⟨_, _, run⟩ => (nomatch run), fun h' => absurd h' h⟩

private theorem bindCall_bound {P : Program} {n : Nat} (hP : P.Declared n) {s t : State}
    (hs : Settled s) (values : ∀ v ∈ s.path.versions, v.value ∈ P) {site callee : Value}
    (hsite : site ∈ P) (hc : site.callee? = some callee) (distinct : callee.parameters.Nodup)
    {xs : List Term} (run : (bindCall site xs).run s = (.ok (), t)) :
    ∃ arguments bound made, CallBound site callee arguments bound made s t := by
  have after := hs.bindCall site xs
  rw [run] at after
  rw [bindCall_run hc] at run
  split at run
  · cases run
  rename_i enough
  let given := (site.callArguments.zip xs).take callee.parameters.length
  let u := (actuals given s).2
  have inside : ∀ g ∈ given, g.1 ∈ P :=
    fun g hg => mem_of_mem_callArguments hP hsite (List.of_mem_zip (List.mem_of_mem_take hg)).1
  have parameters : ∀ p ∈ callee.parameters, p ∈ P :=
    fun p hp => hP.parameter (mem_of_callee? hP hsite hc) hp
  obtain ⟨made, furnished⟩ := actuals_furnished hP values inside
  have hu : Recorded u :=
    (Recorded.of_tracks ((recording_lawful 0).actuals hs.toRecorded.self given)).1
  have bound := Bound.of_bindEach hu (callee.parameters.zip (actuals given s).1)
  have length : (actuals given s).1.length = callee.parameters.length := by
    rw [← furnished.stand.length_eq, List.length_take]
    exact Nat.min_eq_left (Nat.le_of_not_lt enough)
  obtain rfl : _ = t := (Prod.mk.inj run).2
  refine ⟨(actuals given s).1, _, made, .of_handed length ?_ (furnished.created.trans bound.created)
    (fun v hv => ⟨furnished.used v hv, furnished.untracked v hv⟩) fun k p hk => ?_⟩
  · simp [bindings, length]
  · have below := (List.getElem?_eq_some_iff.1 hk).1
    obtain ⟨⟨a, x⟩, hg⟩ : ∃ g, (site.callArguments.zip xs)[k]? = some g :=
      ⟨_, List.getElem?_eq_getElem (Nat.lt_of_lt_of_le below (Nat.le_of_not_lt enough))⟩
    obtain ⟨v, hv⟩ : ∃ v, (actuals given s).1[k]? = some v :=
      ⟨_, List.getElem?_eq_getElem (length ▸ below)⟩
    have hgiven : given[k]? = some (a, x) := (List.getElem?_take_of_lt below).trans hg
    refine ⟨a, v, _, (List.getElem?_zip_eq_some.1 hg).1, hv, ?_,
      .of_bound hP hs.toRecorded hu after furnished (actuals_quiet given s) bound parameters distinct
        hk hgiven hv⟩
    have pair : (callee.parameters.zip (actuals given s).1)[k]? = some (p, v) :=
      List.getElem?_zip_eq_some.2 ⟨hk, hv⟩
    simp [bindings, pair]

end Effect

namespace Replay

open Effect in
/-- Arguments are bound at once, whatever was recorded before. Every parameter gets one new version
that was computed from the version of its argument, which is the one that was the latest before the
call if the argument was tracked. The binding fails exactly if an argument or a term is missing. -/
theorem arguments_bound_at_once {id : Nat} {ds : List Declaration} {program : Program}
    (hp : Program.ofDeclarations id ds = .ok program) {site callee : Value} (hsite : site ∈ program)
    (hc : site.callee? = some callee) (distinct : callee.parameters.Nodup) (next : Nat)
    (existential : Bool) (events : List Event) (xs : List Term) :
    let s := (pursue 0 events (start program next existential)).2.state
    (∀ t, (bindCall site xs).run s = (.ok (), t) →
      ∃ arguments bound made, CallBound site callee arguments bound made s t) ∧
    ((∃ fault t, (bindCall site xs).run s = (.error fault, t)) ↔
      ∃ k < callee.parameters.length, site.callArguments[k]? = none ∨ xs[k]? = none) := by
  intro s
  obtain ⟨n, hP⟩ := Program.declared_ofDeclarations hp
  have settled : Settled s := (pursue_standing program next existential events).settled
  have values := pursue_start_values hP next existential events
  exact ⟨fun t run => bindCall_bound hP settled values hsite hc distinct run,
    bindCall_fails_iff hc xs s⟩

/-! A function that calls itself with its parameters swapped. -/

namespace Swapping

def literal : Value := ⟨1, "k", .constant, .integer 32⟩
def left : Value := ⟨2, "x", .argument "f" 0, .integer 32⟩
def right : Value := ⟨3, "y", .argument "f" 1, .integer 32⟩
def callee : Value := ⟨4, "f", .function false [left, right], .integer 32⟩
def outer : Value := ⟨5, "c", .instruction .call "main" [literal, literal, callee], .integer 32⟩
def inner : Value := ⟨6, "d", .instruction .call "f" [right, left, callee], .integer 32⟩

def declarations : List Declaration :=
  [⟨"k", .constant, .integer 32⟩,
    ⟨"x", .argument "f" 0, .integer 32⟩,
    ⟨"y", .argument "f" 1, .integer 32⟩,
    ⟨"f", .function false ["x", "y"], .integer 32⟩,
    ⟨"c", .instruction .call "main" ["k", "k", "f"], .integer 32⟩,
    ⟨"d", .instruction .call "f" ["y", "x", "f"], .integer 32⟩]

def program : Program :=
  [literal, left, right, callee, outer, inner]

def events : List Event :=
  [.bindCall "c" [.ofBits 1 32, .ofBits 2 32], .fork]

def state : State :=
  (pursue 0 events (start program 7 false)).2.state

private theorem declared : Program.ofDeclarations 1 declarations = .ok program := by
  rfl

private theorem distinct : callee.parameters.Nodup :=
  List.Nodup.of_map Value.id (by decide : ([left, right].map Value.id).Nodup)

end Swapping

/-- Each parameter now has the term that the other one had, and was computed from it. With one term
only, nothing is bound. -/
theorem arguments_bound_at_once_swapped :
    (∃ t x y x' y',
      (Effect.bindCall Swapping.inner [.ofBits 2 32, .ofBits 1 32]).run Swapping.state =
        (.ok (), t) ∧
      Swapping.state.path.latest? Swapping.left = some x ∧
      Swapping.state.path.latest? Swapping.right = some y ∧
      t.path.latest? Swapping.left = some x' ∧ t.path.latest? Swapping.right = some y' ∧
      t.path.sourcesOf x' = [y] ∧ t.path.sourcesOf y' = [x] ∧
      x'.term = y.term ∧ y'.term = x.term) ∧
    ∃ fault t, (Effect.bindCall Swapping.inner [.ofBits 2 32]).run Swapping.state =
      (.error fault, t) := by
  have member : Swapping.inner ∈ Swapping.program := by simp [Swapping.program]
  have bind := arguments_bound_at_once Swapping.declared member rfl Swapping.distinct 7 false
    Swapping.events
  refine ⟨?_, (bind [.ofBits 2 32]).2.2 ⟨1, by decide, .inr rfl⟩⟩
  have left : (Swapping.state.path.latest? Swapping.left).isSome := rfl
  have right : (Swapping.state.path.latest? Swapping.right).isSome := rfl
  obtain ⟨x, hx⟩ := Option.isSome_iff_exists.1 left
  obtain ⟨y, hy⟩ := Option.isSome_iff_exists.1 right
  let t := ((Effect.bindCall Swapping.inner [.ofBits 2 32, .ofBits 1 32]).run Swapping.state).2
  have run : (Effect.bindCall Swapping.inner [.ofBits 2 32, .ofBits 1 32]).run Swapping.state =
    (.ok (), t) := rfl
  obtain ⟨arguments, bound, made, h⟩ := (bind [.ofBits 2 32, .ofBits 1 32]).1 t run
  obtain ⟨_, v, x', ⟨⟩, _, _, first⟩ := h.handed 0 Swapping.left rfl
  obtain ⟨_, w, y', ⟨⟩, _, _, second⟩ := h.handed 1 Swapping.right rfl
  obtain rfl : v = y := first.tracked nofun y hy
  obtain rfl : w = x := second.tracked nofun x hx
  exact ⟨t, w, v, x', y', run, hx, hy, first.latest, second.latest, first.source, second.source,
    first.term, second.term⟩

end Replay

end PathSlice
