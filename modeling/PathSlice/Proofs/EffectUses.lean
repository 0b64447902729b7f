import PathSlice.Proofs.CoreVersions
import PathSlice.Proofs.GlobalRegistration

/-! The operands that effects use. For every effect the operands that it looks up are listed with
the terms they are used with, in the order in which they are looked up; an effect that succeeds
introduces the globals among them that have no version yet. -/
namespace PathSlice

/-- The operand at a position, used with a term. -/
def Value.used (i : Value) (index : Nat) (x : Term) : List (Value × Term) :=
  (i.operands[index]?.map (·, x)).toList

theorem Value.used_of_operand {i a : Value} {index : Nat} (h : i.operands[index]? = some a)
    (x : Term) : i.used index x = [(a, x)] := by
  simp [used, h]

theorem Value.not_isGlobal_of_opcode? {v : Value} {o : Opcode} (h : v.opcode? = some o) :
    ¬v.isGlobal := by
  unfold opcode? at h
  unfold isGlobal
  cases hk : v.kind <;> simp_all

private theorem Value.not_isGlobal_of_isArgument {v : Value} (h : v.isArgument) : ¬v.isGlobal := by
  unfold isArgument at h
  unfold isGlobal
  cases hk : v.kind <;> simp_all

private theorem Value.not_isGlobal_of_operand {v a : Value} {index : Nat}
    (h : v.operands[index]? = some a) : ¬v.isGlobal := by
  unfold operands at h
  unfold isGlobal
  cases hk : v.kind <;> simp_all

namespace Effect

open Recorder hiding Enters

/-- A call of a function that is not explored uses the arguments that its result depends on. -/
def callUses (site : Value) (terms : List Term) : List (Value × Term) :=
  match site.callee?, terms with
  | some callee, x :: rest =>
    if callee.isIntrinsic then []
    else
      let count := match External.ruleFor? callee.name terms.length with
        | some (.fromFirst count) => count
        | some .fromAll => rest.length
        | _ => 0
      (site.callArguments.take count).zip (rest ++ List.replicate count x)
  | _, _ => []

/-- What an instruction with two terms uses: a load and the address of an element use an address, a
store its data and an address. -/
def binaryUses (instruction : Value) (opcode : Opcode) (term address : Term) :
    List (Value × Term) :=
  match opcode with
  | .load | .getElementPtr _ => instruction.used 0 address
  | .store => instruction.used 0 term ++ instruction.used 1 address
  | _ => []

/-- What an instruction with three terms uses. -/
def ternaryUses (instruction : Value) (opcode : Opcode) (left right : Term) : List (Value × Term) :=
  match opcode.combined? with
  | some (first, second) => instruction.used first left ++ instruction.used second right
  | none => []

def executeUses (instruction : Value) (terms : List Term) : List (Value × Term) :=
  match instruction.opcode? with
  | none => []
  | some opcode =>
    if opcode = .call then callUses instruction terms
    else
      match terms with
      | [x] => if opcode.isConversion then instruction.used 0 x else []
      | [x, y] => binaryUses instruction opcode x y
      | [_, y, z] => ternaryUses instruction opcode y z
      | _ => []

/-- The arguments that are bound to parameters, from the last to the first. -/
def bindCallUses (site : Value) (terms : List Term) : List (Value × Term) :=
  match site.callee? with
  | some callee => ((site.callArguments.zip terms).take callee.parameters.length).reverse
  | none => []

def bindReturnUses (ret : Value) (term : Term) : List (Value × Term) :=
  if ret.opcode? = some .ret then ret.used 0 term else []

/-- If the effect succeeds, it has looked up the operands given, and what it gives has the
property. -/
def Enters {α : Type} (P : Program) (us : List (Value × Term)) (e : Effect α) (s : State)
    (Q : α → Prop) : Prop :=
  ∀ a t, e.run s = (.ok a, t) → Entering P us s t ∧ Q a

namespace Enters

variable {α β : Type} {P : Program} {n : Nat} {us us' : List (Value × Term)} {s : State}
  {e e' : Effect α} {m : Recorder α} {k : α → Effect β} {Q : α → Prop} {Q' : β → Prop}

theorem pure {a : α} (hs : s.path.Within P) (ha : Q a) : Enters P [] (pure a) s Q := by
  intro b t run
  cases run
  exact ⟨.refl hs, ha⟩

theorem throw (fault : Fault) : Enters P us (throw fault : Effect α) s Q :=
  fun _ _ run => nomatch run

theorem ite {c : Prop} [Decidable c] (h : Enters P us e s Q) (h' : Enters P us e' s Q) :
    Enters P us (if c then e else e') s Q := by
  split
  · exact h
  · exact h'

theorem bind (he : Enters P us e s Q)
    (hk : ∀ a t, t.path.Within P → Q a → Enters P us' (k a) t Q') :
    Enters P (us ++ us') (e >>= k) s Q' := by
  intro b t run
  obtain ⟨a, u, hu, ht⟩ := ok_of_bind run
  obtain ⟨first, hq⟩ := he a u hu
  obtain ⟨rest, hq'⟩ := hk a u first.within hq b t ht
  exact ⟨first.trans rest, hq'⟩

theorem next (he : Enters P [] e s Q)
    (hk : ∀ a t, t.path.Within P → Q a → Enters P us (k a) t Q') : Enters P us (e >>= k) s Q' :=
  he.bind hk

theorem last (he : Enters P us e s Q)
    (hk : ∀ a t, t.path.Within P → Q a → Enters P [] (k a) t Q') : Enters P us (e >>= k) s Q' :=
  List.append_nil us ▸ he.bind hk

theorem lift (h : Recorder.Enters P us m s Q) : Enters P us (liftM m) s Q := by
  intro a t run
  cases run
  exact h

theorem operand (hP : P.Declared n) {i : Value} (hi : i ∈ P) {index : Nat} {k : Value → Effect β}
    (h : ∀ a ∈ P, i.operands[index]? = some a → Enters P us (k a) s Q') :
    Enters P us (operand i index >>= k) s Q' := by
  cases ha : i.operands[index]? with
  | some a =>
    unfold Enters
    rw [run_operand ha]
    exact h a (hP.operand hi (List.mem_of_getElem? ha)).1 ha
  | none =>
    unfold Effect.operand
    rw [ha]
    exact throw _

end Enters

variable {P : Program} {n : Nat} {s : State} {i : Value}

private theorem convert_enters (hP : P.Declared n) (hs : s.path.Within P) (hi : i ∈ P)
    (hg : ¬i.isGlobal) (x : Term) (erroneous : Bool) :
    Enters P (i.used 0 x) (convert i x erroneous) s fun _ => True := by
  refine .operand hP hi fun source hsource ho => ?_
  rw [Value.used_of_operand ho]
  refine .last (.lift (versionOf?_enters hP hs hsource x)) fun v? t ht ⟨found, missing⟩ => ?_
  have derive {v : Version} {t : State} (ht : t.path.Within P) (hv : v.value ∈ P) :
      Recorder.Enters P [] (newVersion i x >>= fun r => addFlow v r) t fun _ => True :=
    (newVersion_enters hP ht hi hg x).next fun r t ht _ => addFlow_enters ht hv r none
  cases v? with
  | some v => exact .lift (derive ht (found v rfl))
  | none =>
    have hn := missing rfl
    refine .ite (.pure ht trivial) (.ite ?_ (.ite ?_ (.throw _)))
    · exact .last (.lift (newPointer_enters hP ht hi hg source x)) fun _ t ht _ => .pure ht trivial
    · exact .last (.lift (newVersion_enters hP ht hsource hn x)) fun v t ht hv =>
        .lift (derive ht (hv ▸ hsource))

private theorem unary_enters (hP : P.Declared n) (hs : s.path.Within P) (hi : i ∈ P) (hg : ¬i.isGlobal)
    (opcode : Opcode) (x : Term) (erroneous : Bool) :
    Enters P (if opcode.isConversion then i.used 0 x else []) (unary i opcode x erroneous) s
      fun _ => True := by
  unfold unary
  by_cases ha : opcode = .alloca
  · subst ha
    exact .last (.lift (newPointer_enters hP hs hi hg i x)) fun _ t ht _ => .pure ht trivial
  · rw [if_neg ha]
    split
    · exact convert_enters hP hs hi hg x erroneous
    · exact .throw _

/-- A global that is a pointer resolves, so a load never makes its version point elsewhere. -/
private theorem loadUnknown_enters (hP : P.Declared n) (hs : s.path.Within P) {source : Value}
    (hsource : source ∈ P) (hi : i ∈ P) (hg : ¬i.isGlobal) (y x : Term) :
    Recorder.Enters P [(source, y)] (loadUnknown source y i x) s fun _ => True := by
  have looked := versionOf?_enters hP hs hsource y
  refine looked.goOn ?_
  cases hv : (versionOf? source y s).1 with
  | none => exact .pure looked.1.within trivial
  | some a =>
    have ha := mem_versions_of_versionOf? hv
    have haP := looked.1.within.versions a ha
    have resolved := resolveAll_enters hP looked.1.within haP
    refine resolved.goOn ?_
    match hls : (resolveAll a (versionOf? source y s).2).1 with
    | [] =>
      have address : a.value.isGlobal → ¬a.value.isPointer := by
        intro hl hp
        have pointing := looked.1.within.pointed a ha hl hp
        exact resolveAll_ne_nil_iff.2 (.inl (.inl pointing)) hls
      refine (newLocation_enters resolved.1.within source y).next fun l t ht _ => ?_
      refine (addPointer_enters hP ht haP address l).next fun _ t ht _ => ?_
      refine (newVersion_enters hP ht hi hg x).next fun v t ht hv => ?_
      exact (deposit_enters ht (hv ▸ hi) l).next fun _ t ht _ => .pure ht trivial
    | [l] =>
      dsimp only
      split
      · refine (newVersion_enters hP resolved.1.within hi hg x).next fun v t ht hv => ?_
        refine (locationAt_enters ht i y).next fun k t ht _ => ?_
        exact (addPointer_enters hP ht (hv ▸ hi) (fun hl => absurd hl (hv ▸ hg)) k).next
          fun _ t ht _ => .pure ht trivial
      · exact .pure resolved.1.within trivial
    | _ :: _ :: _ => exact .pure resolved.1.within trivial

private theorem loadResolved_enters (hP : P.Declared n) (hs : s.path.Within P) {source : Value}
    (hsource : source ∈ P) (hi : i ∈ P) (hg : ¬i.isGlobal) (y x : Term) :
    Enters P [(source, y)] (loadResolved source y i x) s fun _ => True := by
  refine .last (.lift (versionOf?_enters hP hs hsource y)) fun v? t ht ⟨found, _⟩ => ?_
  cases v? with
  | none => exact .pure ht trivial
  | some a =>
    refine .last (.lift (resolveAll_enters hP ht (found a rfl))) fun ls t ht _ => ?_
    refine .ite (.throw _) ?_
    refine .last (.lift (newVersion_enters hP ht hi hg x)) fun v t ht hv => ?_
    exact .last (.lift (loadFrom_enters ht (hv ▸ hi) ls)) fun _ t ht _ => .pure ht trivial

/-- A load looks its address up once or twice. -/
private theorem load_enters (hP : P.Declared n) (hs : s.path.Within P) (hi : i ∈ P) (hg : ¬i.isGlobal)
    (x y : Term) : Enters P (i.used 0 y) (load i x y) s fun _ => True := by
  refine .operand hP hi fun source hsource ho => ?_
  rw [Value.used_of_operand ho]
  obtain ⟨first, _⟩ := loadUnknown_enters hP hs hsource hi hg y x
  intro b t run
  rw [run_lift] at run
  cases hu : (loadUnknown source y i x s).1 with
  | true =>
    rw [hu] at run
    cases run
    exact ⟨first, trivial⟩
  | false =>
    rw [hu] at run
    have rest : Enters P [(source, y)] (loadResolved source y i x >>= fun settled =>
        if settled then (pure () : Effect Unit)
        else do
          let l ← newLocation source y
          let loaded ← newVersion i x
          deposit l loaded) (loadUnknown source y i x s).2 fun _ => True := by
      refine .last (loadResolved_enters hP first.within hsource hi hg y x) fun _ t ht _ => ?_
      refine .ite (.pure ht trivial) ?_
      refine .last (.lift (newLocation_enters ht source y)) fun l t ht _ => ?_
      refine .last (.lift (newVersion_enters hP ht hi hg x)) fun v t ht hv => ?_
      exact .lift (deposit_enters ht (hv ▸ hi) l)
    obtain ⟨second, _⟩ := rest b t run
    refine ⟨(first.trans second).congr fun g _ _ => ?_, trivial⟩
    rw [firstUse?_append, Option.or_self]

private theorem locationsOf_enters (hP : P.Declared n) (hs : s.path.Within P) {target : Value}
    (htarget : target ∈ P) (y : Term) :
    Recorder.Enters P [(target, y)] (locationsOf target y) s fun _ => True := by
  refine (versionOf?_enters hP hs htarget y).last fun a? t ht ⟨found, _⟩ => ?_
  cases a? with
  | some a => exact resolveAll_enters hP ht (found a rfl)
  | none => exact .pure ht trivial

private theorem dataOr_enters (hP : P.Declared n) (hs : s.path.Within P) {source : Value}
    (hsource : source ∈ P) {d? : Option Version} (found : Found P source d?) (x : Term) :
    Recorder.Enters P [] (dataOr source x d?) s (·.value ∈ P) := by
  cases d? with
  | some d => exact .pure hs (found.within d rfl)
  | none =>
    exact (newVersion_enters hP hs hsource (found.missing rfl) x).imp fun d hd => hd ▸ hsource

private theorem storing_enters (hP : P.Declared n) (hs : s.path.Within P) (hi : i ∈ P) (x y : Term) :
    Enters P (i.used 0 x ++ i.used 1 y) (storing i x y) s (·.1.value ∈ P) := by
  refine .operand hP hi fun source hsource ho => .operand hP hi fun target htarget ho' => ?_
  rw [Value.used_of_operand ho, Value.used_of_operand ho']
  refine .bind (.lift (versionOf?_enters hP hs hsource x)) fun d? t ht found => ?_
  refine .last (.lift (locationsOf_enters hP ht htarget y)) fun ls t ht _ => ?_
  refine .last (.lift (dataOr_enters hP ht hsource found x)) fun d t ht hd => ?_
  exact .pure ht hd

/-- A store makes up nothing, so all its versions come from looking operands up. -/
private theorem store_enters (hP : P.Declared n) (h : Settled s) (hs : s.path.Within P) (hi : i ∈ P)
    (x y : Term) :
    Enters P (i.used 0 x ++ i.used 1 y) (store i x y) s fun _ => True := by
  have stored : Enters P (i.used 0 x ++ i.used 1 y) (storeWith pure i x y) s fun _ => True :=
    .last (storing_enters hP hs hi x y) fun found t ht hd =>
      .lift (storeIntoWith_enters ht hd found.2)
  unfold Enters
  rw [← h.storeWith_eq pure]
  exact stored

private theorem constantElement_enters (hP : P.Declared n) (hs : s.path.Within P) (hi : i ∈ P)
    (hg : ¬i.isGlobal) {base : Value} (hbase : base ∈ P) (x y : Term) :
    Recorder.Enters P [(base, y)] (constantElement i base x y) s fun _ => True := by
  have point {l : Location} {t : State} (ht : t.path.Within P) :
      Recorder.Enters P [] (newVersion i x >>= fun v => addPointer v l) t fun _ => True :=
    (newVersion_enters hP ht hi hg x).next fun v t ht hv =>
      addPointer_enters hP ht (hv ▸ hi) (fun hl => absurd hl (hv ▸ hg)) l
  have fallback {t : State} (ht : t.path.Within P) : Recorder.Enters P []
      (locationAt base x >>= fun l => newVersion i x >>= fun v => addPointer v l) t fun _ => True :=
    (locationAt_enters ht base x).next fun _ t ht _ => point ht
  refine (versionOf?_enters hP hs hbase y).last fun v? t ht ⟨found, _⟩ => ?_
  cases v? with
  | none => exact fallback ht
  | some v =>
    refine (resolve?_enters hP ht (found v rfl)).next fun l? t ht _ => ?_
    cases l? with
    | none => exact fallback ht
    | some l => exact (elementAt_enters ht l x).next fun _ t ht _ => point ht

private theorem elementOf_enters (hP : P.Declared n) (hs : s.path.Within P) (hi : i ∈ P)
    (hg : ¬i.isGlobal) {start : Version} (hstart : start.value ∈ P) (x : Term) :
    Recorder.Enters P [] (elementOf i start x) s fun _ => True := by
  refine (resolveAll_enters hP hs hstart).next fun ls t ht _ => ?_
  split
  · exact (newVersion_enters hP ht hi hg x).next fun v t ht hv =>
      pointInto_enters hP ht (hv ▸ hi) (hv ▸ hg) x ls
  · refine .get ?_
    dsimp only
    split
    · have sources : ∀ u ∈ t.path.sourcesOf start, u.value ∈ P := by
        intro u hu
        obtain ⟨e, he, _, rfl⟩ := Path.mem_flows_of_mem_sourcesOf hu
        exact ht.sources e he
      exact (newVersion_enters hP ht hi hg x).next fun v t ht _ => addFlows_enters ht v sources
    · exact (newPointer_enters hP ht hi hg start.value x).next fun _ t ht _ => .pure ht trivial

private theorem element_enters (hP : P.Declared n) (hs : s.path.Within P) (hi : i ∈ P) (hg : ¬i.isGlobal)
    (inBounds : Bool) (x y : Term) :
    Enters P (i.used 0 y) (element i inBounds x y) s fun _ => True := by
  refine .operand hP hi fun base hbase ho => ?_
  rw [Value.used_of_operand ho]
  refine .ite (.lift (constantElement_enters hP hs hi hg hbase x y)) ?_
  refine .last (.lift (versionOf?_enters hP hs hbase y)) fun v? t ht ⟨found, missing⟩ => ?_
  cases v? with
  | some start => exact .lift (elementOf_enters hP ht hi hg (found start rfl) x)
  | none =>
    refine .ite ?_ (.throw _)
    exact .last (.lift (newVersion_enters hP ht hbase (missing rfl) y)) fun start t ht hv =>
      .lift (elementOf_enters hP ht hi hg (hv ▸ hbase) x)

private theorem binary_enters (hP : P.Declared n) (h : Settled s) (hs : s.path.Within P) (hi : i ∈ P)
    (hg : ¬i.isGlobal) (opcode : Opcode) (x y : Term) :
    Enters P (binaryUses i opcode x y) (binary i opcode x y) s fun _ => True := by
  cases opcode with
  | load => exact load_enters hP hs hi hg x y
  | store => exact store_enters hP h hs hi x y
  | getElementPtr inBounds => exact element_enters hP hs hi hg inBounds x y
  | _ => exact .throw _

private theorem rangeBound_enters (hP : P.Declared n) (hs : s.path.Within P) {value : Value}
    (hvalue : value ∈ P) {v? : Option Version} (found : Found P value v?) (opcode : Opcode)
    (bound : String) (x : Term) :
    Recorder.Enters P [] (rangeBound i opcode bound value x v?) s
      fun v? => ∀ v, v? = some v → v.value ∈ P := by
  unfold rangeBound
  split
  · rename_i made
    have hg := found.missing (Option.isNone_iff_eq_none.1 made.2.2.1)
    refine (newVersion_enters hP hs hvalue hg x).next fun v t ht hv => .pure ht fun u hu => ?_
    rw [← Option.some.inj hu, hv]
    exact hvalue
  · exact .pure hs found.within

private theorem notify_enters (hs : s.path.Within P) (x : Notice) :
    Recorder.Enters P [] (notify x) s fun _ => True :=
  ⟨.of_same hs rfl rfl rfl rfl, trivial⟩

private theorem ternary_enters (hP : P.Declared n) (hs : s.path.Within P) (hi : i ∈ P) (hg : ¬i.isGlobal)
    (opcode : Opcode) (x y z : Term) :
    Enters P (ternaryUses i opcode y z) (ternary i opcode x y z) s fun _ => True := by
  have combine {a b : Option Version} (ha : ∀ v, a = some v → v.value ∈ P)
      (hb : ∀ v, b = some v → v.value ∈ P) {t : State} (ht : t.path.Within P) : Enters P []
      (liftM (newVersion i x) >>= fun r => liftM (addFlows r (a.toList ++ b.toList)) : Effect Unit)
      t fun _ => True := by
    refine .last (.lift (newVersion_enters hP ht hi hg x)) fun r t ht _ => .lift ?_
    refine addFlows_enters ht r fun v hv => ?_
    rcases List.mem_append.1 hv with hv | hv
    · exact ha v (Option.mem_toList.1 hv)
    · exact hb v (Option.mem_toList.1 hv)
  unfold ternary ternaryUses
  match opcode.combined? with
  | none => exact .throw _
  | some (first, second) =>
    refine .operand hP hi fun left hleft ho => .operand hP hi fun right hright ho' => ?_
    dsimp only
    rw [Value.used_of_operand ho, Value.used_of_operand ho']
    refine .bind (.lift (versionOf?_enters hP hs hleft y)) fun a t ht found => ?_
    refine .last (.lift (versionOf?_enters hP ht hright z)) fun b t ht found' => ?_
    refine .last (.lift (rangeBound_enters hP ht hleft found opcode _ y)) fun a t ht ha => ?_
    refine .last (.lift (rangeBound_enters hP ht hright found' opcode _ z)) fun b t ht hb => ?_
    split
    · exact .last (.lift (notify_enters ht _)) fun _ t ht _ => combine ha hb ht
    · exact combine ha hb ht

private theorem slice_enters (hs : s.path.Within P) (value : Value) :
    Enters P [] (slice value) s fun _ => True := by
  intro a t run
  have path := (slice_state value s).1
  rw [run] at path
  exact ⟨.of_same hs (by rw [path]) (by rw [path]) (by rw [path]) (by rw [path]), trivial⟩

theorem mem_of_mem_callArguments (hP : P.Declared n) (hi : i ∈ P) {a : Value}
    (ha : a ∈ i.callArguments) : a ∈ P := by
  unfold Value.callArguments at ha
  split at ha
  · exact (hP.operand hi (List.dropLast_subset _ ha)).1
  · exact absurd ha List.not_mem_nil

private theorem resultTerm_enters {β : Type} {us : List (Value × Term)} {xs : List Term}
    {k : Term → Effect β} {Q : β → Prop}
    (h : ∀ x rest, xs = x :: rest → Enters P us (k x) s Q) :
    Enters P us (resultTerm i xs >>= k) s Q := by
  cases xs with
  | nil => exact .throw _
  | cons x rest => exact h x rest rfl

private theorem callFrom_enters (hP : P.Declared n) (hs : s.path.Within P) (hi : i ∈ P) (hg : ¬i.isGlobal)
    (x : Term) (rest : List Term) (count : Nat) :
    Enters P ((i.callArguments.take count).zip (rest ++ List.replicate count x))
      (callFrom i (x :: rest) count) s fun _ => True := by
  refine resultTerm_enters fun y ys hy => ?_
  cases hy
  refine .next (.lift (newVersion_enters hP hs hi hg x)) fun r t ht _ => .lift ?_
  exact flowArguments_enters hP ht r x
    (fun u hu => mem_of_mem_callArguments hP hi (List.mem_of_mem_take hu)) rest
    (List.length_take_le _ _)

private theorem call_enters (hP : P.Declared n) (hs : s.path.Within P) (hi : i ∈ P) (hg : ¬i.isGlobal)
    (xs : List Term) : Enters P (callUses i xs) (call i xs) s fun _ => True := by
  have fresh {m : Recorder Version} {t : State} (h : Recorder.Enters P [] m t (·.value = i)) :
      Enters P [] (discard (liftM m) : Effect Unit) t fun _ => True :=
    .last (.lift h) fun _ t ht _ => .pure ht trivial
  unfold call callUses
  cases hcallee : i.callee? with
  | none => exact .pure hs trivial
  | some callee =>
    cases xs with
    | nil =>
      dsimp only
      refine .ite (.pure hs trivial) ?_
      cases External.ruleFor? callee.name [].length with
      | none => exact .ite (.pure hs trivial) (.throw _)
      | some rule => cases rule <;> exact .throw _
    | cons x rest =>
      dsimp only
      by_cases intrinsic : callee.isIntrinsic
      · rw [if_pos intrinsic, if_pos intrinsic]
        exact .pure hs trivial
      · rw [if_neg intrinsic, if_neg intrinsic]
        cases External.ruleFor? callee.name (x :: rest).length with
        | none =>
          refine .ite (.pure hs trivial) (resultTerm_enters fun y ys hy => ?_)
          cases hy
          exact .next (.lift (notify_enters hs _)) fun _ t ht _ =>
            fresh (newVersion_enters hP ht hi hg x)
        | some rule =>
          cases rule with
          | fresh => exact fresh (newVersion_enters hP hs hi hg x)
          | allocation => exact fresh (newPointer_enters hP hs hi hg i x)
          | fromFirst count => exact callFrom_enters hP hs hi hg x rest count
          | fromAll => exact callFrom_enters hP hs hi hg x rest rest.length

theorem choose_enters (hP : P.Declared n) (hs : s.path.Within P) (hi : i ∈ P) (incoming : Nat)
    (x : Term) (erroneous : Bool) :
    Enters P (i.used incoming x) (choose i incoming x erroneous) s fun _ => True := by
  refine .operand hP hi fun source hsource ho => ?_
  have hg := Value.not_isGlobal_of_operand ho
  rw [Value.used_of_operand ho]
  refine .last (.lift (versionOf?_enters hP hs hsource x)) fun v? t ht ⟨found, _⟩ => ?_
  cases v? with
  | some v =>
    exact .last (.lift (newVersion_enters hP ht hi hg x)) fun r t ht _ =>
      .lift (addFlow_enters ht (found v rfl) r none)
  | none =>
    refine .ite ?_ (.throw _)
    exact .last (.lift (newVersion_enters hP ht hi hg x)) fun _ t ht _ => .pure ht trivial

theorem bindReturn_enters (hP : P.Declared n) (hs : s.path.Within P) (hi : i ∈ P)
    (hg : ¬i.isGlobal) {ret : Value} (hret : ret ∈ P) (x : Term) :
    Enters P (bindReturnUses ret x) (bindReturn i ret x) s fun _ => True := by
  unfold bindReturn bindReturnUses
  split
  · rw [List.head?_eq_getElem?]
    cases ho : ret.operands[0]? with
    | none =>
      rw [Value.used, ho]
      exact .pure hs trivial
    | some returned =>
      rw [Value.used_of_operand ho]
      have hreturned := (hP.operand hret (List.mem_of_getElem? ho)).1
      refine .last (.lift (versionOf?_enters hP hs hreturned x)) fun v? t ht ⟨found, _⟩ => ?_
      cases v? with
      | some v =>
        exact .last (.lift (newVersion_enters hP ht hi hg x)) fun r t ht _ =>
          .lift (addFlow_enters ht (found v rfl) r none)
      | none => exact .pure ht trivial
  · exact .pure hs trivial

theorem mem_of_callee? (hP : P.Declared n) (hi : i ∈ P) {callee : Value}
    (h : i.callee? = some callee) : callee ∈ P := by
  unfold Value.callee? at h
  split at h
  · split at h
    · cases h
    · rename_i called hlast
      have hcalled := (hP.operand hi (List.mem_of_getLast? hlast)).1
      split at h
      · cases h
        exact hcalled
      · rename_i wrapped rest hk
        split at h
        · cases h
          refine (hP.operand hcalled ?_).1
          rw [Value.operands, hk]
          exact List.mem_cons_self
        · cases h
      · cases h
  · cases h

/-- Parameters are no globals. -/
theorem bindCall_enters (hP : P.Declared n) (ha : ∀ f ∈ P, ∀ a ∈ f.parameters, a.isArgument)
    (hs : s.path.Within P) (hi : i ∈ P) (xs : List Term) :
    Enters P (bindCallUses i xs) (bindCall i xs) s fun _ => True := by
  unfold bindCallUses
  rw [bindCall_eq]
  cases hcallee : i.callee? with
  | none => exact .pure hs trivial
  | some callee =>
    have hf := mem_of_callee? hP hi hcallee
    refine .ite (.throw _) ?_
    have given : ∀ u ∈ (i.callArguments.zip xs).take callee.parameters.length, u.1 ∈ P :=
      fun u hu => mem_of_mem_callArguments hP hi (List.of_mem_zip (List.mem_of_mem_take hu)).1
    refine .last (.lift (actuals_enters hP hs given)) fun vs t ht hvs => .lift ?_
    refine bindEach_enters hP ht fun b hb => ?_
    obtain ⟨hb₁, hb₂⟩ := List.of_mem_zip hb
    have argument := ha callee hf b.1 hb₁
    exact ⟨hP.parameter hf hb₁, Value.not_isGlobal_of_isArgument argument, hvs b.2 hb₂⟩

theorem execute_enters (hP : P.Declared n) (h : Settled s) (hs : s.path.Within P) (hi : i ∈ P)
    (xs : List Term) (erroneous : Bool) :
    Enters P (executeUses i xs) (execute i xs erroneous) s fun _ => True := by
  unfold execute
  split
  · exact .throw _
  · rename_i ho
    rw [executeUses, ho]
    exact call_enters hP hs hi (Value.not_isGlobal_of_opcode? ho) xs
  · rename_i opcode hc ho
    have hg := Value.not_isGlobal_of_opcode? ho
    rw [executeUses, ho]
    dsimp only
    rw [if_neg hc]
    match xs with
    | [] =>
      exact .ite (.operand hP hi fun condition _ _ => slice_enters hs condition) (.pure hs trivial)
    | [x] => exact unary_enters hP hs hi hg opcode x erroneous
    | [x, y] => exact binary_enters hP h hs hi hg opcode x y
    | [x, y, z] => exact ternary_enters hP hs hi hg opcode x y z
    | _ :: _ :: _ :: _ :: _ => exact .throw _

end Effect

end PathSlice
