import PathSlice.Proofs.RecorderCorrespondence

/-! Two runs of the same effect: in states that stand for each other, by a lawful correspondence, every
effect has the same outcome, and the states that it leaves behind stand for each other. -/
namespace PathSlice

theorem Value.opcode?_of_isConditionalBranch {i : Value} (h : i.isConditionalBranch) :
    i.opcode? = some .br := by
  unfold isConditionalBranch at h
  simp only [Bool.and_eq_true, decide_eq_true_eq] at h
  exact h.1

namespace Correspondence

variable {α β γ δ : Type} {C : Correspondence} {w : C.World} {s t : State}

private theorem toList_rel {R : α → β → Prop} {x : Option α} {y : Option β}
    (h : Option.Rel R x y) : List.Forall₂ R x.toList y.toList := by
  cases h with
  | some h => exact .cons h .nil
  | none => exact .nil

private theorem isNone_eq {R : α → β → Prop} {x : Option α} {y : Option β}
    (h : Option.Rel R x y) : x.isNone = y.isNone := by
  cases h <;> rfl

namespace Records

variable (L : C.Records)

include L

theorem ok {a : α} {b : β} {Q : C.World → α → β → Prop} (hs : C.states w s t) (hq : Q w a b) :
    C.Follows w (Pure.pure a) (Pure.pure b) s t Q :=
  ⟨w, L.refl w, hs, .ok hq⟩

theorem fail {Q : C.World → α → β → Prop} (hs : C.states w s t) (f : Fault) :
    C.Follows w (throw f) (throw f) s t Q :=
  ⟨w, L.refl w, hs, .error f⟩

theorem andThen {m : Effect α} {n : Effect β} {k : α → Effect γ} {l : β → Effect δ}
    {Q : C.World → α → β → Prop} {R : C.World → γ → δ → Prop} (h : C.Follows w m n s t Q)
    (hk : ∀ w' a b s' t', C.Later w w' → C.states w' s' t' → Q w' a b →
      C.Follows w' (k a) (l b) s' t' R) :
    C.Follows w (m >>= k) (n >>= l) s t R := by
  refine L.bind (k := ExceptT.bindCont k) (l := ExceptT.bindCont l) h
    fun w' r r' s' t' hw hs hr => ?_
  cases hr with
  | ok hq => exact hk w' _ _ s' t' hw hs hq
  | error f => exact ⟨w', L.refl w', hs, .error f⟩

theorem record {m : Recorder α} {n : Recorder β} {k : α → Effect γ} {l : β → Effect δ}
    {Q : C.World → α → β → Prop} {R : C.World → γ → δ → Prop} (h : C.Tracks w m n s t Q)
    (hk : ∀ w' a b s' t', C.Later w w' → C.states w' s' t' → Q w' a b →
      C.Follows w' (k a) (l b) s' t' R) :
    C.Follows w (liftM m >>= k) (liftM n >>= l) s t R :=
  L.andThen h.lift hk

theorem operand (hs : C.states w s t) (i : Value) (index : Nat) :
    C.Follows w (Effect.operand i index) (Effect.operand i index) s t fun _ a b => a = b := by
  unfold Effect.operand
  cases i.operands[index]? with
  | none => exact L.fail hs _
  | some v => exact L.ok hs rfl

/-- A new version that is computed from a given one. -/
theorem derive {a b : Version} (hs : C.states w s t) (h : C.versions w a b) (value : Value)
    (x : Term) :
    C.Follows w
      (liftM (Recorder.newVersion value x) >>= fun r => (liftM (Recorder.addFlow a r) : Effect Unit))
      (liftM (Recorder.newVersion value x) >>= fun r => (liftM (Recorder.addFlow b r) : Effect Unit))
      s t C.Any := by
  refine L.record (L.newVersion hs value x) fun w r r' s t hw hs hr => ?_
  exact (L.addFlow hs (L.version_later hw h) hr).lift

theorem resultTerm (hs : C.states w s t) (site : Value) (xs : List Term) :
    C.Follows w (Effect.resultTerm site xs) (Effect.resultTerm site xs) s t
      fun _ a b => a = b := by
  cases xs with
  | nil => exact L.fail hs _
  | cons x xs => exact L.ok hs rfl

theorem callFrom (hs : C.states w s t) (site : Value) (xs : List Term) (count : Nat) :
    C.Follows w (Effect.callFrom site xs count) (Effect.callFrom site xs count) s t C.Any := by
  refine L.andThen (L.resultTerm hs site xs) fun w x x' s t hw hs hx => ?_
  subst hx
  refine L.record (L.newVersion hs site x) fun w v v' s t hw hs hv => ?_
  exact (L.flowArguments hs hv x _ _).lift

theorem call (hs : C.states w s t) (site : Value) (xs : List Term) :
    C.Follows w (Effect.call site xs) (Effect.call site xs) s t C.Any := by
  unfold Effect.call
  cases site.callee? with
  | none => exact L.ok hs trivial
  | some callee =>
    refine Follows.ite (fun _ => L.ok hs trivial) fun _ => ?_
    cases External.ruleFor? callee.name xs.length with
    | none =>
      refine Follows.ite (fun _ => L.ok hs trivial) fun _ => ?_
      refine L.andThen (L.resultTerm hs site xs) fun w x x' s t hw hs hx => ?_
      subst hx
      refine L.record (L.notify hs _) fun w _ _ s t hw hs _ => ?_
      exact (L.newVersion hs site x).discardLift
    | some rule =>
      cases rule with
      | fresh =>
        refine L.andThen (L.resultTerm hs site xs) fun w x x' s t hw hs hx => ?_
        subst hx
        exact (L.newVersion hs site x).discardLift
      | allocation =>
        refine L.andThen (L.resultTerm hs site xs) fun w x x' s t hw hs hx => ?_
        subst hx
        exact (L.newPointer hs site site x).discardLift
      | fromFirst count => exact L.callFrom hs site xs count
      | fromAll => exact L.callFrom hs site xs _

theorem bindCall (hs : C.states w s t) (site : Value) (xs : List Term) :
    C.Follows w (Effect.bindCall site xs) (Effect.bindCall site xs) s t C.Any := by
  rw [Effect.bindCall_eq]
  cases site.callee? with
  | none => exact L.ok hs trivial
  | some callee =>
    refine Follows.ite (fun _ => L.fail hs _) fun _ => ?_
    refine L.record (L.actuals hs _) fun w vs vs' s t hw hs hvs => ?_
    exact (L.bindEach hs hvs callee.parameters).lift

theorem bindReturn (hs : C.states w s t) (site ret : Value) (x : Term) :
    C.Follows w (Effect.bindReturn site ret x) (Effect.bindReturn site ret x) s t C.Any := by
  unfold Effect.bindReturn
  refine Follows.ite (fun _ => ?_) fun _ => L.ok hs trivial
  cases ret.operands.head? with
  | none => exact L.ok hs trivial
  | some returned =>
    refine L.record (L.versionOf? hs returned x) fun w v? v?' s t hw hs hv => ?_
    cases hv with
    | none => exact L.ok hs trivial
    | some hv => exact L.derive hs hv site x

/-! Instructions. -/

theorem convert (hs : C.states w s t) (i : Value) (x : Term) (erroneous : Bool) :
    C.Follows w (Effect.convert i x erroneous) (Effect.convert i x erroneous) s t C.Any := by
  refine L.andThen (L.operand hs i 0) fun w source source' s t hw hs he => ?_
  subst he
  refine L.record (L.versionOf? hs source x) fun w v? v?' s t hw hs hv => ?_
  cases hv with
  | some hv => exact L.derive hs hv i x
  | none =>
    refine Follows.ite (fun _ => L.ok hs trivial) fun _ => ?_
    refine Follows.ite (fun _ => (L.newPointer hs i source x).discardLift) fun _ => ?_
    refine Follows.ite (fun _ => ?_) fun _ => L.fail hs _
    refine L.record (L.newVersion hs source x) fun w v v' s t hw hs hv => ?_
    exact L.derive hs (L.target_version hv) i x

theorem unary (hs : C.states w s t) (i : Value) (opcode : Opcode) (x : Term) (erroneous : Bool) :
    C.Follows w (Effect.unary i opcode x erroneous) (Effect.unary i opcode x erroneous) s t
      C.Any := by
  refine Follows.ite (fun _ => (L.newPointer hs i i x).discardLift) fun _ => ?_
  exact Follows.ite (fun _ => L.convert hs i x erroneous) fun _ => L.fail hs _

theorem loadUnknown (hs : C.states w s t) (source : Value) (y : Term) (i : Value) (x : Term) :
    C.Tracks w (Effect.loadUnknown source y i x) (Effect.loadUnknown source y i x) s t
      fun _ a b => a = b := by
  refine L.bind (L.versionOf? hs source y) fun w a? b? s t hw hs ha => ?_
  cases ha with
  | none => exact L.pure hs rfl
  | some ha =>
    refine L.bind (L.resolveAll hs ha) fun w ls ms s t hw hs hl => ?_
    have ha := L.version_later hw ha
    cases hl with
    | nil =>
      refine L.bind (L.newLocation hs source y) fun w l m s t hw hs hl => ?_
      have ha := L.version_later hw ha
      refine L.bind (L.addPointer hs ha hl) fun w _ _ s t hw hs _ => ?_
      have hl := L.location_later hw hl
      refine L.bind (L.newVersion hs i x) fun w v v' s t hw hs hv => ?_
      have hl := L.location_later hw hl
      refine L.bind (L.deposit hs hl (L.target_version hv)) fun w _ _ s t hw hs _ => ?_
      exact L.pure hs rfl
    | cons hl hr =>
      cases hr with
      | cons _ _ => exact L.pure hs rfl
      | nil =>
        dsimp only
        rw [L.site_eq hl]
        refine Tracks.ite (fun _ => ?_) fun _ => L.pure hs rfl
        refine L.bind (L.newVersion hs i x) fun w v v' s t hw hs hv => ?_
        refine L.bind (L.locationAt hs i y) fun w l m s t hw hs hl => ?_
        have hv := L.target_version (L.target_later hw hv)
        refine L.bind (L.addPointer hs hv hl) fun w _ _ s t hw hs _ => ?_
        exact L.pure hs rfl

theorem loadResolved (hs : C.states w s t) (source : Value) (y : Term) (i : Value) (x : Term) :
    C.Follows w (Effect.loadResolved source y i x) (Effect.loadResolved source y i x) s t
      fun _ a b => a = b := by
  refine L.record (L.versionOf? hs source y) fun w a? b? s t hw hs ha => ?_
  cases ha with
  | none => exact L.ok hs rfl
  | some ha =>
    refine L.record (L.resolveAll hs ha) fun w ls ms s t hw hs hl => ?_
    rw [isEmpty_eq hl]
    refine Follows.ite (fun _ => L.fail hs _) fun _ => ?_
    refine L.record (L.newVersion hs i x) fun w v v' s t hw hs hv => ?_
    have hl := hl.imp fun _ _ => L.location_later hw
    refine L.record (L.loadFrom hs hv hl) fun w _ _ s t hw hs _ => ?_
    exact L.ok hs rfl

theorem load (hs : C.states w s t) (i : Value) (x y : Term) :
    C.Follows w (Effect.load i x y) (Effect.load i x y) s t C.Any := by
  refine L.andThen (L.operand hs i 0) fun w source source' s t hw hs he => ?_
  subst he
  refine L.record (L.loadUnknown hs source y i x) fun w done done' s t hw hs he => ?_
  subst he
  refine Follows.ite (fun _ => L.ok hs trivial) fun _ => ?_
  refine L.andThen (L.loadResolved hs source y i x) fun w done done' s t hw hs he => ?_
  subst he
  refine Follows.ite (fun _ => L.ok hs trivial) fun _ => ?_
  refine L.record (L.newLocation hs source y) fun w l m s t hw hs hl => ?_
  refine L.record (L.newVersion hs i x) fun w v v' s t hw hs hv => ?_
  exact (L.deposit hs (L.location_later hw hl) (L.target_version hv)).lift

theorem store (hs : C.states w s t) (i : Value) (x y : Term) :
    C.Follows w (Effect.store i x y) (Effect.store i x y) s t C.Any := by
  refine L.andThen (L.operand hs i 0) fun w source source' s t hw hs he => ?_
  subst he
  refine L.andThen (L.operand hs i 1) fun w target target' s t hw hs he => ?_
  subst he
  refine L.record (L.versionOf? hs source x) fun w d? e? s t hw hs hd => ?_
  refine L.record (L.versionOf? hs target y) fun w a? b? s t hw hs ha => ?_
  cases hd with
  | some hd =>
    have hd := L.version_later hw hd
    cases ha with
    | none => exact (L.storeInto hs hd x y .nil).lift
    | some ha =>
      refine L.record (L.resolveAll hs ha) fun w ls ms s t hw hs hl => ?_
      exact (L.storeInto hs (L.version_later hw hd) x y hl).lift
  | none =>
    have keep : ∀ {w s t ls ms}, C.states w s t → List.Forall₂ (C.locations w) ls ms →
        C.Follows w (liftM (Recorder.newVersion source x) >>= fun d =>
            (liftM (Recorder.storeInto d x y ls) : Effect Unit))
          (liftM (Recorder.newVersion source x) >>= fun d =>
            (liftM (Recorder.storeInto d x y ms) : Effect Unit)) s t C.Any := by
      intro w s t ls ms hs hl
      refine L.record (L.newVersion hs source x) fun w d e s t hw hs hd => ?_
      have hl := hl.imp fun _ _ => L.location_later hw
      exact (L.storeInto hs (L.target_version hd) x y hl).lift
    cases ha with
    | none => exact keep hs .nil
    | some ha => exact L.record (L.resolveAll hs ha) fun w ls ms s t _ hs hl => keep hs hl

theorem constantElement (hs : C.states w s t) (i base : Value) (x y : Term) :
    C.Tracks w (Effect.constantElement i base x y) (Effect.constantElement i base x y) s t
      C.Any := by
  have finish : ∀ {w s t l m}, C.states w s t → C.locations w l m →
      C.Tracks w (Recorder.newVersion i x >>= fun v => Recorder.addPointer v l)
        (Recorder.newVersion i x >>= fun v => Recorder.addPointer v m) s t C.Any := by
    intro w s t l m hs hl
    refine L.bind (L.newVersion hs i x) fun w v v' s t hw hs hv => ?_
    exact L.addPointer hs (L.target_version hv) (L.location_later hw hl)
  have fallback : ∀ {w s t}, C.states w s t →
      C.Tracks w (Recorder.locationAt base x >>= fun l =>
          Recorder.newVersion i x >>= fun v => Recorder.addPointer v l)
        (Recorder.locationAt base x >>= fun l =>
          Recorder.newVersion i x >>= fun v => Recorder.addPointer v l) s t C.Any := by
    intro w s t hs
    exact L.bind (L.locationAt hs base x) fun w l m s t _ hs hl => finish hs hl
  refine L.bind (L.versionOf? hs base y) fun w v? v?' s t hw hs hv => ?_
  cases hv with
  | none => exact fallback hs
  | some hv =>
    refine L.bind (L.resolve? hs hv) fun w l? m? s t hw hs hl => ?_
    cases hl with
    | none => exact fallback hs
    | some hl => exact L.bind (L.elementAt hs hl x) fun w l m s t _ hs hl => finish hs hl

theorem elementOf {a b : Version} (hs : C.states w s t) (h : C.versions w a b) (i : Value)
    (x : Term) :
    C.Tracks w (Effect.elementOf i a x) (Effect.elementOf i b x) s t C.Any := by
  refine L.bind (L.resolveAll hs h) fun w ls ms s t hw hs hl => ?_
  have h := L.version_later hw h
  rw [isEmpty_eq hl]
  refine Tracks.ite (fun _ => ?_) fun _ => Tracks.get ?_
  · refine L.bind (L.newVersion hs i x) fun w v v' s t hw hs hv => ?_
    exact L.pointInto hs (L.target_version hv) x (hl.imp fun _ _ => L.location_later hw)
  · have hf := L.sources hs h
    dsimp only
    rw [isEmpty_eq hf, L.value_eq h]
    refine Tracks.ite (fun _ => ?_) fun _ => (L.newPointer hs i b.value x).discard
    refine L.bind (L.newVersion hs i x) fun w v v' s t hw hs hv => ?_
    exact L.addFlows hs hv (hf.imp fun _ _ => L.version_later hw)

theorem element (hs : C.states w s t) (i : Value) (inBounds : Bool) (x y : Term) :
    C.Follows w (Effect.element i inBounds x y) (Effect.element i inBounds x y) s t C.Any := by
  refine L.andThen (L.operand hs i 0) fun w base base' s t hw hs he => ?_
  subst he
  refine Follows.ite (fun _ => (L.constantElement hs i base x y).lift) fun _ => ?_
  refine L.record (L.versionOf? hs base y) fun w v? v?' s t hw hs hv => ?_
  cases hv with
  | some hv => exact (L.elementOf hs hv i x).lift
  | none =>
    refine Follows.ite (fun _ => ?_) fun _ => L.fail hs _
    refine L.record (L.newVersion hs base y) fun w v v' s t hw hs hv => ?_
    exact (L.elementOf hs (L.target_version hv) i x).lift

theorem binary (hs : C.states w s t) (i : Value) (opcode : Opcode) (x y : Term) :
    C.Follows w (Effect.binary i opcode x y) (Effect.binary i opcode x y) s t C.Any := by
  unfold Effect.binary
  split
  · exact L.load hs i x y
  · exact L.store hs i x y
  · exact L.element hs i _ x y
  · exact L.fail hs _

theorem rangeBound {a? b? : Option Version} (hs : C.states w s t)
    (h : Option.Rel (C.versions w) a? b?) (i : Value) (opcode : Opcode) (bound : String)
    (value : Value) (x : Term) :
    C.Tracks w (Effect.rangeBound i opcode bound value x a?)
      (Effect.rangeBound i opcode bound value x b?) s t fun w => Option.Rel (C.versions w) := by
  unfold Effect.rangeBound
  rw [isNone_eq h]
  refine Tracks.ite (fun _ => ?_) fun _ => L.pure hs h
  exact Tracks.map ((L.newVersion hs value x).imp fun _ _ _ hv => .some (L.target_version hv))

theorem ternary (hs : C.states w s t) (i : Value) (opcode : Opcode) (x y z : Term) :
    C.Follows w (Effect.ternary i opcode x y z) (Effect.ternary i opcode x y z) s t C.Any := by
  unfold Effect.ternary
  cases opcode.combined? with
  | none => exact L.fail hs _
  | some positions =>
    refine L.andThen (L.operand hs i positions.1) fun w first first' s t hw hs he => ?_
    subst he
    refine L.andThen (L.operand hs i positions.2) fun w second second' s t hw hs he => ?_
    subst he
    refine L.record (L.versionOf? hs first y) fun w a? b? s t hw hs ha => ?_
    refine L.record (L.versionOf? hs second z) fun w c? d? s t hw hs hc => ?_
    have ha := rel_imp ha fun _ _ => L.version_later hw
    refine L.record (L.rangeBound hs ha i opcode "start" first y) fun w a? b? s t hw hs ha => ?_
    have hc := rel_imp hc fun _ _ => L.version_later hw
    refine L.record (L.rangeBound hs hc i opcode "end" second z) fun w c? d? s t hw hs hc => ?_
    have ha := rel_imp ha fun _ _ => L.version_later hw
    have finish : ∀ {w' s' t'}, C.Later w w' → C.states w' s' t' →
        C.Follows w' (liftM (Recorder.newVersion i x) >>= fun r =>
            (liftM (Recorder.addFlows r (a?.toList ++ c?.toList)) : Effect Unit))
          (liftM (Recorder.newVersion i x) >>= fun r =>
            (liftM (Recorder.addFlows r (b?.toList ++ d?.toList)) : Effect Unit)) s' t' C.Any := by
      intro w' s' t' hw hs
      refine L.record (L.newVersion hs i x) fun w r r' s t hw' hs hr => ?_
      have hw := L.trans hw hw'
      refine (L.addFlows hs hr (List.rel_append ?_ ?_)).lift
      · exact toList_rel (rel_imp ha fun _ _ => L.version_later hw)
      · exact toList_rel (rel_imp hc fun _ _ => L.version_later hw)
    rw [isNone_eq ha, isNone_eq hc]
    refine Follows.ite (fun _ => ?_) fun _ => finish (L.refl w) hs
    exact L.record (L.notify hs _) fun w' _ _ s t hw hs _ => finish hw hs

theorem choose (hs : C.states w s t) (i : Value) (incoming : Nat) (x : Term) (erroneous : Bool) :
    C.Follows w (Effect.choose i incoming x erroneous) (Effect.choose i incoming x erroneous) s t
      C.Any := by
  refine L.andThen (L.operand hs i incoming) fun w source source' s t hw hs he => ?_
  subst he
  refine L.record (L.versionOf? hs source x) fun w v? v?' s t hw hs hv => ?_
  cases hv with
  | some hv => exact L.derive hs hv i x
  | none =>
    exact Follows.ite (fun _ => (L.newVersion hs i x).discardLift) fun _ => L.fail hs _

/-- Only a conditional branch without terms is sliced. -/
theorem execute {i : Value} {xs : List Term} (hs : C.states w s t)
    (hi : xs = [] → ¬i.isConditionalBranch) (erroneous : Bool) :
    C.Follows w (Effect.execute i xs erroneous) (Effect.execute i xs erroneous) s t C.Any := by
  unfold Effect.execute
  split
  · exact L.fail hs _
  · exact L.call hs i xs
  · split
    · rw [if_neg (hi rfl)]
      exact L.ok hs trivial
    · exact L.unary hs i _ _ erroneous
    · exact L.binary hs i _ _ _
    · exact L.ternary hs i _ _ _ _
    · exact L.fail hs _

end Records

namespace Lawful

variable (L : C.Lawful)

include L

omit L in
theorem slice_eq_sliceFrom {value : Value} {v : Version} (h : s.path.latest? value = some v) :
    (Effect.slice value).run s = (.ok (), (Recorder.sliceFrom v s).2) := by
  unfold Effect.slice
  change (Effect.markValue s.path {} value >>= _).run s = _
  unfold Effect.markValue
  rw [h]
  rfl

omit L in
theorem slice_eq_fault {value : Value} (h : s.path.latest? value = none)
    (hc : ¬ value.isConstant) : (Effect.slice value).run s = (.error (.unknownValue value), s) := by
  unfold Effect.slice
  change (Effect.markValue s.path {} value >>= _).run s = _
  unfold Effect.markValue
  rw [h]
  simp only [hc]
  rfl

omit L in
theorem slice_eq_sliceIdly {value : Value} (h : s.path.latest? value = none)
    (hc : value.isConstant) :
    (Effect.slice value).run s =
      (.ok (), ((if value.operands.any (·.name == "__dso_handle") then
        Recorder.notify (.ignored value.render) >>= fun _ => Recorder.sliceIdly
        else Recorder.sliceIdly) s).2) := by
  unfold Effect.slice
  change (Effect.markValue s.path {} value >>= _).run s = _
  unfold Effect.markValue
  rw [h]
  simp only [hc, if_true]
  split <;> rfl

theorem slice (hs : C.states w s t) (value : Value) :
    C.Follows w (Effect.slice value) (Effect.slice value) s t C.Any := by
  have h := L.latest hs value
  unfold Follows Tracks
  cases hx : s.path.latest? value with
  | some a =>
    obtain ⟨b, hy, hab⟩ := rel_some h hx
    rw [slice_eq_sliceFrom hx, slice_eq_sliceFrom hy]
    obtain ⟨w', hw, hs, _⟩ := L.sliceFrom hs hab
    exact ⟨w', hw, hs, .ok trivial⟩
  | none =>
    have hy := rel_none h hx
    by_cases hc : value.isConstant
    · rw [slice_eq_sliceIdly hx hc, slice_eq_sliceIdly hy hc]
      have idle : C.Tracks w (if value.operands.any (·.name == "__dso_handle") then
          Recorder.notify (.ignored value.render) >>= fun _ => Recorder.sliceIdly
          else Recorder.sliceIdly) (if value.operands.any (·.name == "__dso_handle") then
          Recorder.notify (.ignored value.render) >>= fun _ => Recorder.sliceIdly
          else Recorder.sliceIdly) s t C.Any := by
        refine Tracks.ite (fun _ => ?_) fun _ => L.sliceIdly hs
        exact L.bind (L.notify hs _) fun w _ _ s t _ hs _ => L.sliceIdly hs
      obtain ⟨w', hw, hs, _⟩ := idle
      exact ⟨w', hw, hs, .ok trivial⟩
    · rw [slice_eq_fault hx hc, slice_eq_fault hy hc]
      exact ⟨w, L.refl w, hs, .error _⟩

omit L in
theorem execute_of_branch {i : Value} (h : i.isConditionalBranch) (erroneous : Bool) :
    Effect.execute i [] erroneous = Effect.operand i 0 >>= Effect.slice := by
  unfold Effect.execute
  simp only [Value.opcode?_of_isConditionalBranch h, h, if_true]

theorem sliceOperand (hs : C.states w s t) (i : Value) (position : Nat) :
    C.Follows w (Effect.operand i position >>= Effect.slice)
      (Effect.operand i position >>= Effect.slice) s t C.Any := by
  refine L.andThen (L.operand hs i position) fun w v v' s t _ hs he => ?_
  subst he
  exact L.slice hs v

theorem execute (hs : C.states w s t) (i : Value) (xs : List Term) (erroneous : Bool) :
    C.Follows w (Effect.execute i xs erroneous) (Effect.execute i xs erroneous) s t C.Any := by
  by_cases hb : xs = [] ∧ i.isConditionalBranch
  · obtain ⟨rfl, hb⟩ := hb
    rw [execute_of_branch hb]
    exact L.sliceOperand hs i 0
  · exact L.toRecords.execute hs (fun hx hi => hb ⟨hx, hi⟩) erroneous

theorem access (hs : C.states w s t) (i : Value) (xs : List Term) (checked erroneous : Bool) :
    C.Follows w (Effect.access i xs checked erroneous) (Effect.access i xs checked erroneous) s t
      C.Any := by
  refine L.andThen (L.execute hs i xs erroneous) fun w _ _ s t hw hs _ => ?_
  refine Follows.ite (fun _ => ?_) fun _ => L.ok hs trivial
  split
  · exact L.sliceOperand hs i 0
  · exact L.sliceOperand hs i 1
  · exact L.fail hs _

end Lawful

end Correspondence

end PathSlice
