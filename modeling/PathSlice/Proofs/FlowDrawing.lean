import PathSlice.Proofs.DeclaredPrograms
import PathSlice.Proofs.MemoryAccess
import PathSlice.Proofs.ReplayRuns

/-! The flows that an effect records. They lead into versions that the effect created, and come from
older versions, or from versions that nothing flows into; only a load can let a version flow into
itself, which it does exactly if it reads a location twice that holds nothing. -/
namespace PathSlice

/-- What recording flows can do. A version flows into itself exactly if `loop` holds. -/
structure Drawn (loop : Prop) (s t : State) : Prop where
  next : s.next ≤ t.next
  kept : ∀ e ∈ s.path.flows, e ∈ t.path.flows
  added : ∀ e ∈ t.path.flows, e ∈ s.path.flows ∨
    s.next ≤ e.target.id ∧ e.target.id < t.next ∧ e.source.id < t.next ∧
      (e.source.id = e.target.id → loop) ∧
      (e.source.id ≤ e.target.id ∨ ∀ d ∈ t.path.flows, d.target.id ≠ e.source.id)
  looped : loop → ∃ e ∈ t.path.flows, e.source.id = e.target.id

namespace Drawn

variable {loop loop' : Prop} {s t u : State}

theorem of_flows_eq (hn : s.next ≤ t.next) (hf : t.path.flows = s.path.flows) :
    Drawn False s t :=
  ⟨hn, fun _ he => hf ▸ he, fun _ he => .inl (hf ▸ he), False.elim⟩

theorem refl (s : State) : Drawn False s s :=
  of_flows_eq (Nat.le_refl _) rfl

theorem of_same (h : SameFlows s t) : Drawn False s t :=
  of_flows_eq h.next h.flows

theorem congr (h : Drawn loop s t) (hl : loop ↔ loop') : Drawn loop' s t :=
  propext hl ▸ h

/-- Nothing flows into itself where nothing can. -/
theorem idle (h : Drawn False s t) (hl : ¬loop) : Drawn loop s t :=
  h.congr ⟨False.elim, hl⟩

theorem trans (h : Drawn loop s t) (h' : Drawn loop' t u) : Drawn (loop ∨ loop') s u := by
  refine ⟨Nat.le_trans h.next h'.next, fun e he => h'.kept e (h.kept e he), fun e he => ?_, ?_⟩
  · rcases h'.added e he with he | ⟨hlow, hhigh, hsource, hloop, hcase⟩
    · rcases h.added e he with he | ⟨hlow, hhigh, hsource, hloop, hcase⟩
      · exact .inl he
      · have hn := h'.next
        refine .inr ⟨hlow, by omega, by omega, fun hi => .inl (hloop hi), hcase.imp_right ?_⟩
        -- Later flows lead into versions that are younger than this source.
        intro hroot d hd
        rcases h'.added d hd with hd | ⟨hd, _⟩
        · exact hroot d hd
        · omega
    · exact .inr ⟨Nat.le_trans h.next hlow, hhigh, hsource, fun hi => .inr (hloop hi), hcase⟩
  · rintro (hl | hl)
    · obtain ⟨e, he, hi⟩ := h.looped hl
      exact ⟨e, h'.kept e he, hi⟩
    · exact h'.looped hl

theorem comp (h : Drawn False s t) (h' : Drawn loop t u) : Drawn loop s u :=
  (h.trans h').congr (Iff.of_eq (false_or loop))

theorem after (h : SameFlows s t) (h' : Drawn loop t u) : Drawn loop s u :=
  (of_same h).comp h'

private theorem still (h : Drawn loop s t) (h' : SameFlows t u) : Drawn loop s u :=
  (h.trans (of_same h')).congr (Iff.of_eq (or_false loop))

end Drawn

namespace Recorded

variable {s : State}

/-- A recorded state stands for itself. -/
theorem self (h : Recorded s) : (recording 0).states s s s :=
  ⟨rfl, rfl, h, Nat.zero_le _⟩

theorem of_tracks {α : Type} {m : Recorder α} {Q : State → α → α → Prop}
    (h : (recording 0).Tracks s m m s s Q) :
    Recorded (m s).2 ∧ Grown s (m s).2 ∧ Q (m s).2 (m s).1 (m s).1 := by
  obtain ⟨w, hm, ⟨hw, _, hrec, _⟩, hq⟩ := h
  have hm : Moves 0 s w := hm
  exact ⟨hw ▸ hrec, hw ▸ hm.grown, hw ▸ hq⟩

theorem target_lt (h : Recorded s) {e : Flow} (he : e ∈ s.path.flows) : e.target.id < s.next :=
  h.numbered.versions_lt _ (h.closed.flows e he).1

theorem newVersion (h : Recorded s) (value : Value) (x : Term) :
    Recorded (Recorder.newVersion value x s).2 :=
  (of_tracks ((recording_lawful 0).newVersion h.self value x)).1

/-- A version that was looked up is on the path. -/
theorem of_lookup {m : Recorder (Option Version)}
    (h : (recording 0).Tracks s m m s s fun w => Option.Rel ((recording 0).versions w)) :
    Recorded (m s).2 ∧ Grown s (m s).2 ∧ ∀ v ∈ (m s).1, v ∈ (m s).2.path.versions := by
  obtain ⟨hrec, hg, hv⟩ := of_tracks h
  refine ⟨hrec, hg, fun v he => ?_⟩
  rw [Option.mem_def.1 he] at hv
  cases hv with
  | some hv => exact hv.2

end Recorded

/-- All flows added lead into one new version, which is younger than the targets of the others. -/
theorem Drawn.of_filled {loop : Prop} {s t : State} (hs : Recorded s) {r : Version}
    (hr : r.id = s.next) (hnext : s.next < t.next)
    (kept : ∀ e ∈ s.path.flows, e ∈ t.path.flows)
    (added : ∀ e ∈ t.path.flows, e ∈ s.path.flows ∨
      e.target = r ∧ e.source.id < t.next ∧ (e.source.id = r.id → loop))
    (looped : loop → ∃ e ∈ t.path.flows, e.source.id = e.target.id) : Drawn loop s t := by
  have below : ∀ d ∈ t.path.flows, d.target.id ≤ r.id := by
    intro d hd
    rcases added d hd with hd | ⟨ht, _⟩
    · have := hs.target_lt hd
      omega
    · exact Nat.le_of_eq (congrArg Version.id ht)
  refine ⟨Nat.le_of_lt hnext, kept, fun e he => (added e he).imp_right ?_, looped⟩
  rintro ⟨rfl, hsource, hloop⟩
  refine ⟨Nat.le_of_eq hr.symm, by omega, hsource, hloop, ?_⟩
  by_cases hle : e.source.id ≤ e.target.id
  · exact .inl hle
  · refine .inr fun d hd => ?_
    have := below d hd
    omega

namespace Recorder

variable {s : State}

private theorem versionOf?_value {value : Value} {x : Term} {v : Version}
    (h : (versionOf? value x s).1 = some v) : v.value.id = value.id := by
  rcases versionOf?_cases value x s with hv | hv | hv <;> rw [hv] at h
  · simpa using List.find?_some h
  · cases h
    rfl
  · cases h
    rfl

private theorem flows_addFlows (r : Version) (vs : List Version) (s : State) :
    (addFlows r vs s).2.next = s.next ∧
      (∀ e ∈ s.path.flows, e ∈ (addFlows r vs s).2.path.flows) ∧
      ∀ e ∈ (addFlows r vs s).2.path.flows, e ∈ s.path.flows ∨ e.target = r ∧ e.source ∈ vs := by
  induction vs generalizing s with
  | nil => exact ⟨rfl, fun _ he => he, fun _ he => .inl he⟩
  | cons v vs ih =>
    obtain ⟨hn, kept, added⟩ := ih (addFlow v r none s).2
    refine ⟨hn, fun e he => kept e (Path.mem_flows_addFlow he v r none), fun e he => ?_⟩
    rcases added e he with he | ⟨ht, hs⟩
    · rcases Path.mem_flows_of_mem_addFlow he with rfl | he
      · exact .inr ⟨rfl, List.mem_cons_self⟩
      · exact .inl he
    · exact .inr ⟨ht, List.mem_cons_of_mem v hs⟩

/-- A new version is computed from versions that are there. -/
theorem derive_drawn (hs : Recorded s) {vs : List Version} (hvs : ∀ v ∈ vs, v ∈ s.path.versions)
    (value : Value) (x : Term) :
    Drawn False s (addFlows (newVersion value x s).1 vs (newVersion value x s).2).2 := by
  obtain ⟨hn, kept, added⟩ := flows_addFlows (newVersion value x s).1 vs (newVersion value x s).2
  have hnext : s.next < _ := Nat.lt_of_lt_of_eq (Nat.lt_succ_self s.next) hn.symm
  have hr : (newVersion value x s).1.id = s.next := rfl
  refine .of_filled hs hr hnext kept (fun e he => (added e he).imp_right ?_) False.elim
  rintro ⟨ht, hsource⟩
  have hlt := hs.numbered.versions_lt _ (hvs _ hsource)
  exact ⟨ht, Nat.lt_trans hlt hnext, fun hi => Nat.ne_of_lt hlt hi⟩

theorem deriveFrom_drawn (hs : Recorded s) {v : Version} (hv : v ∈ s.path.versions) (value : Value)
    (x : Term) :
    Drawn False s (addFlow v (newVersion value x s).1 none (newVersion value x s).2).2 := by
  have known : ∀ u ∈ [v], u ∈ s.path.versions := List.forall_mem_singleton.2 hv
  exact derive_drawn hs known value x

theorem bindEach_drawn (hs : Recorded s) {bound : List (Value × Version)}
    (hb : ∀ b ∈ bound, b.2 ∈ s.path.versions) : Drawn False s (bindEach bound s).2 := by
  induction bound generalizing s with
  | nil => exact .refl s
  | cons b bound ih =>
    obtain ⟨hb, hbound⟩ := List.forall_mem_cons.1 hb
    let t := (newVersion b.1 b.2.term s).2
    let u := (addFlow b.2 (newVersion b.1 b.2.term s).1 none t).2
    have step : Drawn False s u := deriveFrom_drawn hs hb b.1 b.2.term
    have hm : Moves 0 s u := by
      refine .tail (.single (.version s b.1 b.2.term)) (.flow ?_ List.mem_cons_self (Nat.zero_le _))
      exact List.mem_cons_of_mem _ hb
    exact step.comp (ih (hm.recorded hs) fun b hb => hm.grown.versions _ (hbound b hb))

/-- Arguments are not the call itself, so its result does not flow into itself. -/
private theorem flows_flowArguments (hs : Recorded s) {r : Version} (hr : r ∈ s.path.versions) (x : Term)
    {values : List Value} (hv : ∀ v ∈ values, v.id ≠ r.value.id) (xs : List Term) :
    let t := (flowArguments r x values xs s).2
    s.next ≤ t.next ∧ (∀ e ∈ s.path.flows, e ∈ t.path.flows) ∧
      ∀ e ∈ t.path.flows, e ∈ s.path.flows ∨
        e.target = r ∧ e.source.id < t.next ∧ e.source.id ≠ r.id := by
  induction values generalizing s xs with
  | nil => exact ⟨Nat.le_refl _, fun _ he => he, fun _ he => .inl he⟩
  | cons value values ih =>
    obtain ⟨hvalue, hvalues⟩ := List.forall_mem_cons.1 hv
    let looked := versionOf? value (xs.head?.getD x) s
    have quiet : SameFlows s looked.2 := versionOf?_quiet value (xs.head?.getD x) s
    obtain ⟨hrec, hg, hmem⟩ := Recorded.of_lookup
      ((recording_lawful 0).versionOf? hs.self value (xs.head?.getD x))
    have hr' : r ∈ looked.2.path.versions := hg.versions r hr
    cases hv : looked.1 with
    | none =>
      have run : flowArguments r x (value :: values) xs s =
          flowArguments r x values xs.tail looked.2 := by
        rw [flowArguments, run_bind, show (versionOf? value (xs.head?.getD x) s).1 = none from hv]
      obtain ⟨hn, kept, added⟩ := ih hrec hr' hvalues xs.tail
      rw [run]
      rw [quiet.flows] at kept added
      exact ⟨Nat.le_trans quiet.next hn, kept, added⟩
    | some v =>
      have run : flowArguments r x (value :: values) xs s =
          flowArguments r x values xs.tail (addFlow v r none looked.2).2 := by
        rw [flowArguments, run_bind, show (versionOf? value (xs.head?.getD x) s).1 = some v from hv]
        rfl
      have hv' := hmem v hv
      have hne : v.id ≠ r.id := by
        intro hi
        rw [← hrec.numbered.version_eq hv' hr' hi, versionOf?_value hv] at hvalue
        exact hvalue rfl
      have hflow : Move 0 looked.2 (addFlow v r none looked.2).2 := .flow hv' hr' (Nat.zero_le _)
      obtain ⟨hn, kept, added⟩ :=
        ih (hflow.recorded hrec) (hflow.grown.versions r hr') hvalues xs.tail
      have hn : looked.2.next ≤ _ := hn
      rw [run]
      refine ⟨Nat.le_trans quiet.next hn, fun e he => kept e ?_, fun e he => ?_⟩
      · exact Path.mem_flows_addFlow (quiet.flows.symm ▸ he) v r none
      · rcases added e he with he | he
        · rcases Path.mem_flows_of_mem_addFlow he with rfl | he
          · exact .inr ⟨rfl, Nat.lt_of_lt_of_le (hrec.numbered.versions_lt v hv') hn, hne⟩
          · exact .inl (quiet.flows ▸ he)
        · exact .inr he

end Recorder

namespace Effect

open Recorder

variable {s : State} {i : Value}

/-- Recording stops at a missing operand. -/
theorem operand_drawn {index : Nat} {k : Value → Effect Unit}
    (h : ∀ v, i.operands[index]? = some v → Drawn False s ((k v).run s).2) :
    Drawn False s ((operand i index >>= k).run s).2 :=
  run_operand_state (P := Drawn False s) (.refl s) h

/-- What is drawn after a lookup. -/
theorem lookup_drawn {m : Recorder (Option Version)} (hq : Keeps SameFlows m)
    (hm : (recording 0).Tracks s m m s s fun w => Option.Rel ((recording 0).versions w))
    {k : Option Version → Effect Unit}
    (hk : ∀ v? t, Recorded t → Grown s t → (∀ v ∈ v?, v ∈ t.path.versions) →
      Drawn False t ((k v?).run t).2) :
    Drawn False s ((liftM m >>= k).run s).2 := by
  obtain ⟨hrec, hg, hv⟩ := Recorded.of_lookup hm
  exact .after (hq s) (hk _ _ hrec hg hv)

theorem versionOf?_drawn (hs : Recorded s) (value : Value) (x : Term)
    {k : Option Version → Effect Unit}
    (hk : ∀ v? t, Recorded t → Grown s t → (∀ v ∈ v?, v ∈ t.path.versions) →
      Drawn False t ((k v?).run t).2) :
    Drawn False s ((liftM (versionOf? value x) >>= k).run s).2 :=
  lookup_drawn (versionOf?_quiet value x) ((recording_lawful 0).versionOf? hs.self value x) hk

private theorem callFrom_drawn (hs : Recorded s) {site : Value}
    (hsite : ∀ v ∈ site.operands, v.id ≠ site.id) (xs : List Term) (count : Nat) :
    Drawn False s ((callFrom site xs count).run s).2 := by
  cases xs with
  | nil => exact .refl s
  | cons x xs =>
    have hvalues : ∀ v ∈ site.callArguments.take count, v.id ≠ site.id := by
      intro v hv
      have hv := List.mem_of_mem_take hv
      unfold Value.callArguments at hv
      split at hv
      · exact hsite v (List.dropLast_subset _ hv)
      · exact absurd hv List.not_mem_nil
    have created : (newVersion site x s).1 ∈ (newVersion site x s).2.path.versions :=
      List.mem_cons_self
    obtain ⟨hn, kept, added⟩ :=
      flows_flowArguments (hs.newVersion site x) created x hvalues xs
    exact .of_filled hs rfl hn kept added False.elim

private theorem call_drawn (hs : Recorded s) {site : Value} (hsite : ∀ v ∈ site.operands, v.id ≠ site.id)
    (xs : List Term) : Drawn False s ((call site xs).run s).2 := by
  unfold call
  cases site.callee? with
  | none => exact .refl s
  | some callee =>
    dsimp only
    split
    · exact .refl s
    · cases External.ruleFor? callee.name xs.length with
      | none =>
        dsimp only
        split
        · exact .refl s
        · cases xs with
          | nil => exact .refl s
          | cons x xs =>
            exact .after (notify_quiet _ s) (.of_same (newVersion_quiet site x _))
      | some rule =>
        cases rule with
        | fresh =>
          cases xs with
          | nil => exact .refl s
          | cons x xs => exact .of_same (newVersion_quiet site x s)
        | allocation =>
          cases xs with
          | nil => exact .refl s
          | cons x xs => exact .of_same (newPointer_quiet site site x s)
        | fromFirst count => exact callFrom_drawn hs hsite xs count
        | fromAll => exact callFrom_drawn hs hsite xs _

private theorem bindCall_drawn (hs : Recorded s) (site : Value) (xs : List Term) :
    Drawn False s ((bindCall site xs).run s).2 := by
  rw [bindCall_eq]
  cases site.callee? with
  | none => exact .refl s
  | some callee =>
    dsimp only
    split
    · exact .refl s
    · obtain ⟨hrec, _, hvs⟩ := Recorded.of_tracks ((recording_lawful 0).actuals hs.self
        ((site.callArguments.zip xs).take callee.parameters.length))
      refine .after (actuals_quiet _ s) (bindEach_drawn hrec fun b hb => ?_)
      exact (List.forall₂_same.1 hvs _ (List.of_mem_zip hb).2).2

private theorem bindReturn_drawn (hs : Recorded s) (site ret : Value) (x : Term) :
    Drawn False s ((bindReturn site ret x).run s).2 := by
  unfold bindReturn
  split
  · cases ret.operands.head? with
    | none => exact .refl s
    | some returned =>
      refine versionOf?_drawn hs returned x fun v? t ht _ hv => ?_
      cases v? with
      | none => exact .refl t
      | some v => exact deriveFrom_drawn ht (hv v rfl) site x
  · exact .refl s

private theorem convert_drawn (hs : Recorded s) (i : Value) (x : Term) (erroneous : Bool) :
    Drawn False s ((convert i x erroneous).run s).2 := by
  refine operand_drawn fun source _ => ?_
  refine versionOf?_drawn hs source x fun v? t ht _ hv => ?_
  cases v? with
  | some v => exact deriveFrom_drawn ht (hv v rfl) i x
  | none =>
    dsimp only
    split
    · exact .refl t
    · split
      · exact .of_same (newPointer_quiet i source x t)
      · split
        · refine .after (newVersion_quiet source x t) ?_
          exact deriveFrom_drawn (ht.newVersion source x) List.mem_cons_self i x
        · exact .refl t

private theorem unary_drawn (hs : Recorded s) (i : Value) (opcode : Opcode) (x : Term) (erroneous : Bool) :
    Drawn False s ((unary i opcode x erroneous).run s).2 := by
  unfold unary
  split
  · exact .of_same (newPointer_quiet i i x s)
  · split
    · exact convert_drawn hs i x erroneous
    · exact .refl s

private theorem choose_drawn (hs : Recorded s) (i : Value) (incoming : Nat) (x : Term) (erroneous : Bool) :
    Drawn False s ((choose i incoming x erroneous).run s).2 := by
  refine operand_drawn fun source _ => ?_
  refine versionOf?_drawn hs source x fun v? t ht _ hv => ?_
  cases v? with
  | some v => exact deriveFrom_drawn ht (hv v rfl) i x
  | none =>
    dsimp only
    split
    · exact .of_same (newVersion_quiet i x t)
    · exact .refl t

private theorem elementOf_drawn (hs : Recorded s) {start : Version} (hstart : start ∈ s.path.versions)
    (i : Value) (x : Term) : Drawn False s (elementOf i start x s).2 := by
  obtain ⟨hrec, hg, _⟩ := Recorded.of_tracks
    ((recording_lawful 0).resolveAll hs.self (⟨rfl, hstart⟩ : (recording 0).versions s start start))
  unfold elementOf
  rw [run_bind]
  refine .after (resolveAll_quiet start s) ?_
  split
  · refine .after (newVersion_quiet i x _) ?_
    exact .of_same (pointInto_quiet _ x _ _)
  · rw [run_get]
    split
    · exact derive_drawn hrec (fun v hv => hrec.closed.mem_versions_of_mem_sourcesOf hv) i x
    · exact .of_same (newPointer_quiet i start.value x _)

private theorem element_drawn (hs : Recorded s) (i : Value) (inBounds : Bool) (x y : Term) :
    Drawn False s ((element i inBounds x y).run s).2 := by
  refine operand_drawn fun base _ => ?_
  split
  · exact .of_same (constantElement_quiet i base x y s)
  · refine versionOf?_drawn hs base y fun v? t ht _ hv => ?_
    cases v? with
    | some v => exact elementOf_drawn ht (hv v rfl) i x
    | none =>
      dsimp only
      split
      · refine .after (newVersion_quiet base y t) ?_
        exact elementOf_drawn (ht.newVersion base y) List.mem_cons_self i x
      · exact .refl t

private theorem rangeBound_drawn (hs : Recorded s) {v? : Option Version}
    (hv : ∀ v ∈ v?, v ∈ s.path.versions) (i : Value) (opcode : Opcode) (bound : String)
    (value : Value) (x : Term) {k : Option Version → Effect Unit}
    (hk : ∀ v? t, Recorded t → Grown s t → (∀ v ∈ v?, v ∈ t.path.versions) →
      Drawn False t ((k v?).run t).2) :
    Drawn False s ((liftM (rangeBound i opcode bound value x v?) >>= k).run s).2 := by
  have known : Option.Rel ((recording 0).versions s) v? v? := by
    cases v? with
    | none => exact .none
    | some v => exact .some ⟨rfl, hv v rfl⟩
  exact lookup_drawn (rangeBound_quiet i opcode bound value x v?)
    ((recording_lawful 0).rangeBound hs.self known i opcode bound value x) hk

private theorem ternary_drawn (hs : Recorded s) (i : Value) (opcode : Opcode) (x y z : Term) :
    Drawn False s ((ternary i opcode x y z).run s).2 := by
  unfold ternary
  cases opcode.combined? with
  | none => exact .refl s
  | some positions =>
    refine operand_drawn fun first _ => operand_drawn fun second _ => ?_
    refine versionOf?_drawn hs first y fun a s ht _ ha => ?_
    refine versionOf?_drawn ht second z fun b s ht hg hb => ?_
    have ha : ∀ v ∈ a, v ∈ s.path.versions := fun v hv => hg.versions v (ha v hv)
    refine rangeBound_drawn ht ha i opcode "start" first y fun a s ht hg ha => ?_
    have hb : ∀ v ∈ b, v ∈ s.path.versions := fun v hv => hg.versions v (hb v hv)
    refine rangeBound_drawn ht hb i opcode "end" second z fun b s ht hg hb => ?_
    have hvs : ∀ v ∈ a.toList ++ b.toList, v ∈ s.path.versions := by
      intro v hv
      rcases List.mem_append.1 hv with hv | hv
      · exact hg.versions v (ha v (Option.mem_toList.1 hv))
      · exact hb v (Option.mem_toList.1 hv)
    dsimp only
    split
    · have notice : Move 0 s _ := .notice s (.untracked i.render)
      exact .after (notify_quiet _ s) (derive_drawn (notice.recorded ht) hvs i x)
    · exact derive_drawn ht hvs i x

/-! Loads. -/

/-- The locations of the address that a value holds. -/
def locationsOf (value : Value) (address : Term) : Recorder (List Location) := do
  match ← versionOf? value address with
  | none => return []
  | some a => resolveAll a

/-- The locations that a load reads, unless it is settled without reading any. -/
def reading (source : Value) (address : Term) (i : Value) (x : Term) :
    Recorder (List Location) := do
  if ← loadUnknown source address i x then return [] else locationsOf source address

/-- The instruction is a load that reads a location twice which holds nothing. -/
def Rereads (i : Value) (xs : List Term) (s : State) : Prop :=
  i.opcode? = some .load ∧ ∃ x y source, xs = [x, y] ∧ i.operands[0]? = some source ∧
    (reading source y i x s).2.path.Rereads (reading source y i x s).1

private theorem not_rereads_nil (p : Path) : ¬p.Rereads [] := by
  rintro ⟨l, hl, _⟩
  exact absurd hl List.not_mem_nil

/-- The loaded version flows into itself exactly if a location that holds nothing is read twice. -/
private theorem loadFrom_drawn (hs : Recorded s) (i : Value) (x : Term) (ls : List Location) :
    Drawn (s.path.Rereads ls) s (loadFrom (newVersion i x s).1 ls (newVersion i x s).2).2 := by
  have h := loadFrom_loaded (newVersion i x s).1 ls (newVersion i x s).2
  have hnext : s.next < _ := Nat.lt_of_lt_of_eq (Nat.lt_succ_self s.next) h.next.symm
  have hr : (newVersion i x s).1.id = s.next := rfl
  refine .of_filled hs hr hnext h.kept (fun e he => (h.added e he).imp_right ?_) fun hl => ?_
  · rintro ⟨ht, _, ⟨l, _, hc⟩ | ⟨hv, hl⟩⟩
    · obtain ⟨d, hd, _, hsource⟩ := Path.mem_deposits_of_content? (p := s.path) hc
      have hlt := hs.numbered.versions_lt _ (hs.closed.deposits d hd).2
      rw [hsource] at hlt
      exact ⟨ht, Nat.lt_trans hlt hnext, fun hi => absurd hi (Nat.ne_of_lt hlt)⟩
    · rw [hv]
      exact ⟨ht, hnext, fun _ => hl⟩
  · obtain ⟨e, he, ht, hsource⟩ := h.read _ (.inr ⟨rfl, hl⟩)
    exact ⟨e, he, hsource.trans ht.symm⟩

private theorem loadResolved_drawn (hs : Recorded s) (source : Value) (y : Term) (i : Value) (x : Term) :
    Drawn ((locationsOf source y s).2.path.Rereads (locationsOf source y s).1) s
      ((loadResolved source y i x).run s).2 := by
  obtain ⟨ht, _, hv⟩ := Recorded.of_lookup ((recording_lawful 0).versionOf? hs.self source y)
  unfold locationsOf
  rw [run_bind]
  refine .after (versionOf?_quiet source y s) ?_
  cases ha : (versionOf? source y s).1 with
  | none =>
    rw [loadResolved_of_none ha]
    exact (Drawn.refl _).idle (not_rereads_nil _)
  | some a =>
    rw [loadResolved_of_some ha]
    have known : (recording 0).versions _ a a := ⟨rfl, hv a ha⟩
    obtain ⟨ht, _, _⟩ := Recorded.of_tracks ((recording_lawful 0).resolveAll ht.self known)
    refine .after (resolveAll_quiet a _) ?_
    split
    · rename_i he
      dsimp only
      rw [List.isEmpty_iff.1 he]
      exact (Drawn.refl _).idle (not_rereads_nil _)
    · exact loadFrom_drawn ht i x _

private theorem load_drawn (hs : Recorded s) {source : Value} (h₀ : i.operands[0]? = some source)
    (x y : Term) :
    Drawn ((reading source y i x s).2.path.Rereads (reading source y i x s).1) s
      ((load i x y).run s).2 := by
  obtain ⟨hu, _, _⟩ := Recorded.of_tracks ((recording_lawful 0).loadUnknown hs.self source y i x)
  unfold load reading
  rw [run_operand h₀, run_lift, run_bind]
  refine .after (loadUnknown_quiet source y i x s) ?_
  generalize loadUnknown source y i x s = r at *
  obtain ⟨settled, t⟩ := r
  cases settled with
  | true => exact (Drawn.refl t).idle (not_rereads_nil _)
  | false =>
    refine .still (loadResolved_drawn hu source y i x) (Keeps.rest (fun done => ?_) _ t)
    refine .ite (.pure _) ?_
    exact .bind (newLocation_quiet source y) fun l => .bind (newVersion_quiet i x) fun v =>
      deposit_quiet l v

private theorem binary_drawn (hs : Recorded s) {opcode : Opcode} (ho : i.opcode? = some opcode)
    (x y : Term) : Drawn (Rereads i [x, y] s) s ((binary i opcode x y).run s).2 := by
  have other (h : opcode ≠ .load) : ¬Rereads i [x, y] s :=
    fun hr => h (Option.some.inj (ho.symm.trans hr.1))
  unfold binary
  split
  · cases h₀ : i.operands[0]? with
    | none =>
      have missing : ¬Rereads i [x, y] s := by
        rintro ⟨_, _, _, source, _, hsource, _⟩
        cases h₀.symm.trans hsource
      refine .idle (operand_drawn fun v hv => ?_) missing
      cases h₀.symm.trans hv
    | some source =>
      refine (load_drawn hs h₀ x y).congr ⟨fun hl => ⟨ho, x, y, source, rfl, h₀, hl⟩, ?_⟩
      rintro ⟨_, x', y', source', hxs, hsource, hl⟩
      cases hxs
      cases h₀.symm.trans hsource
      exact hl
  · exact .idle (.of_same (store_quiet i x y s)) (other nofun)
  · exact .idle (element_drawn hs i _ x y) (other nofun)
  · rename_i hload _ _
    exact (Drawn.refl s).idle (other hload)

private theorem execute_drawn (hs : Recorded s) (hi : ∀ v ∈ i.operands, v.id ≠ i.id) (xs : List Term)
    (erroneous : Bool) : Drawn (Rereads i xs s) s ((execute i xs erroneous).run s).2 := by
  have other (h : ∀ x y, xs ≠ [x, y]) : ¬Rereads i xs s := by
    rintro ⟨_, x, y, _, hxs, _⟩
    exact h x y hxs
  unfold execute
  split
  · rename_i ho
    refine (Drawn.refl s).idle fun hr => ?_
    cases ho.symm.trans hr.1
  · rename_i ho
    refine (call_drawn hs hi xs).idle fun hr => ?_
    cases ho.symm.trans hr.1
  · rename_i ho
    split
    · refine .idle ?_ (other nofun)
      split
      · exact .of_same (Keeps.andThen (operand_quiet i 0) slice_quiet s)
      · exact .refl s
    · exact .idle (unary_drawn hs i _ _ erroneous) (other nofun)
    · exact binary_drawn hs ho _ _
    · exact .idle (ternary_drawn hs i _ _ _ _) (other nofun)
    · rename_i htwo _
      exact (Drawn.refl s).idle (other htwo)

private theorem access_drawn (hs : Recorded s) (hi : ∀ v ∈ i.operands, v.id ≠ i.id) (xs : List Term)
    (checked erroneous : Bool) :
    Drawn (Rereads i xs s) s ((access i xs checked erroneous).run s).2 := by
  refine .still (execute_drawn hs hi xs erroneous) (Keeps.rest (fun _ => ?_) _ s)
  have sliced (index : Nat) : Keeps SameFlows (operand i index >>= slice).run :=
    .andThen (operand_quiet i index) slice_quiet
  refine .ite ?_ (.pure _)
  split
  · exact sliced 0
  · exact sliced 1
  · exact .pure _

end Effect

namespace Event

/-- The event is a load that reads a location twice which holds nothing. -/
def Rereads (program : Program) (s : State) : Event → Prop
  | .execute i xs _ | .access i xs _ _ => ∃ v, program.resolve i = .ok v ∧ Effect.Rereads v xs s
  | _ => False

variable {program : Program} {n : Nat} {s : State} {e : Event}

private theorem effect_drawn (hp : program.Declared n) (hs : Recorded s) {x : Effect Unit}
    (hx : e.effect program = .ok x) : Drawn (e.Rereads program s) s (x s).2 := by
  have operands {name : String} {v : Value} (hv : program.resolve name = .ok v) :
      ∀ w ∈ v.operands, w.id ≠ v.id := fun w hw =>
    Nat.ne_of_lt (hp.operand (Program.mem_of_resolve hv) hw).2
  have named {name : String} {v : Value} (hv : program.resolve name = .ok v) (xs : List Term) :
      Effect.Rereads v xs s ↔ ∃ w, program.resolve name = .ok w ∧ Effect.Rereads w xs s := by
    simp [hv]
  cases Event.asks_of_effect hx with
  | execute hi xs erroneous =>
    exact (Effect.execute_drawn hs (operands hi) xs erroneous).congr (named hi xs)
  | access hi xs checked erroneous =>
    exact (Effect.access_drawn hs (operands hi) xs checked erroneous).congr (named hi xs)
  | @choose _ i _ incoming y erroneous => exact Effect.choose_drawn hs i incoming y erroneous
  | @bindCall _ site _ xs => exact Effect.bindCall_drawn hs site xs
  | @bindReturn _ _ site ret _ _ y => exact Effect.bindReturn_drawn hs site ret y
  | nothing he =>
    cases e with
    | fork | backtrack | shadow | expect => exact .refl s
    | execute | phi | access | bindCall | bindReturn => cases he

/-- An event that names a value which is not declared loads nothing. -/
private theorem not_rereads_of_error {fault : NameFault} (h : e.effect program = .error fault) (s : State) :
    ¬e.Rereads program s := by
  cases e with
  | execute i xs erroneous | access i xs erroneous =>
    rintro ⟨v, hv, _⟩
    simp only [Event.effect, hv] at h
    cases h
  | phi | bindCall | bindReturn | fork | backtrack | shadow | expect => exact id

end Event

namespace Replay

variable {r : Replay} {e : Event} {n : Nat}

/-- What an effect or a fork draws. -/
theorem apply_drawn (hp : r.program.Declared n) (hs : Settled r.state) (he : e.isEffect ∨ e.isFork)
    (index : Nat) :
    Drawn (e.Rereads r.program r.state) r.state ((apply index e).run r).2.state := by
  rcases he with he | he
  · rw [apply_of_isEffect he]
    cases hx : e.effect r.program with
    | error fault =>
      exact (Drawn.refl r.state).idle (Event.not_rereads_of_error hx r.state)
    | ok x => exact Event.effect_drawn hp hs.toRecorded hx
  · cases e with
    | fork => exact .of_flows_eq (Nat.le_add_right _ 2) rfl
    | execute | phi | access | backtrack | bindCall | bindReturn | shadow | expect => cases he

end Replay

end PathSlice
