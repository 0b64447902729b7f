import PathSlice.Proofs.AddressResolution
import PathSlice.Proofs.DeclaredPrograms
import PathSlice.Proofs.FlowDrawing
import PathSlice.Proofs.FrameOwnership

/-! The registration of globals. A global gets its version, and its location if it is a pointer,
when it is looked up for the first time, with the term it is used with there. All that effects
create besides are versions of other values, and pointers from those. So what an effect does to a
global can be read off the list of the operands that the effect looks up. -/
namespace PathSlice

namespace Path

variable {p q : Path} {P : Program}

/-- The versions of a value, the latest first. -/
def versionsOf (p : Path) (g : Value) : List Version :=
  p.versions.filter (·.value.id == g.id)

/-- The pointers from versions of a value, the latest first. -/
def pointersOf (p : Path) (g : Value) : List Pointer :=
  p.pointers.filter (·.version.value.id == g.id)

private theorem versionsOf_eq_nil_iff {g : Value} : p.versionsOf g = [] ↔ p.latest? g = none := by
  simp only [versionsOf, latest?, List.filter_eq_nil_iff, List.find?_eq_none]

/-- The versions on the path are those of values of the program, and what the versions of globals
that are pointers point to is known. -/
structure Within (P : Program) (p : Path) : Prop where
  versions : ∀ v ∈ p.versions, v.value ∈ P
  deposits : ∀ d ∈ p.deposits, d.version.value ∈ P
  sources : ∀ e ∈ p.flows, e.source.value ∈ P
  pointed : ∀ v ∈ p.versions, v.value.isGlobal → v.value.isPointer → (p.pointee? v).isSome

theorem Within.congr (h : p.Within P) (hv : q.versions = p.versions)
    (hp : q.pointers = p.pointers) (hd : q.deposits = p.deposits) (hf : q.flows = p.flows) :
    q.Within P := by
  refine ⟨?_, ?_, ?_, ?_⟩
  · rw [hv]
    exact h.versions
  · rw [hd]
    exact h.deposits
  · rw [hf]
    exact h.sources
  · simp only [hv, pointee?, hp]
    exact h.pointed

private theorem Within.of_latest? (h : p.Within P) {value : Value} {v : Version}
    (hv : p.latest? value = some v) : v.value ∈ P :=
  h.versions v (mem_versions_of_latest? hv)

private theorem Within.of_mem_ends (h : p.Within P) {v u : Version} (hv : v.value ∈ P)
    (hu : u ∈ p.ends v) : u.value ∈ P := by
  rcases mem_ends hu with rfl | ⟨e, he, rfl⟩
  · exact hv
  · exact h.sources e he

end Path

/-- The first term that a value is used with. -/
def firstUse? (us : List (Value × Term)) (g : Value) : Option Term :=
  (us.find? (·.1.id == g.id)).map (·.2)

theorem firstUse?_append (us us' : List (Value × Term)) (g : Value) :
    firstUse? (us ++ us') g = (firstUse? us g).or (firstUse? us' g) := by
  simp [firstUse?, List.find?_append, Option.map_or]

theorem firstUse?_of_ne {value g : Value} (h : value.id ≠ g.id) (x : Term) :
    firstUse? [(value, x)] g = none := by
  simp [firstUse?, h]

private theorem firstUse?_of_eq {value g : Value} (h : value.id = g.id) (x : Term) :
    firstUse? [(value, x)] g = some x := by
  simp [firstUse?, h]

/-- Nothing is said of a global that was not said before. -/
structure Kept (g : Value) (s t : State) : Prop where
  versions : t.path.versionsOf g = s.path.versionsOf g
  pointers : g.isPointer → t.path.pointersOf g = s.path.pointersOf g

/-- A global gets its first version, which points to a new location if the global is a pointer. -/
structure Introduced (g : Value) (y : Term) (s t : State) : Prop where
  before : s.path.versionsOf g = []
  after : ∃ i, t.path.versionsOf g = [⟨i, g, y⟩] ∧
    (g.isPointer → t.path.pointersOf g =
      ⟨⟨i, g, y⟩, Location.start (i + 1) g y⟩ :: s.path.pointersOf g)

/-- What becomes of a global that is used with some terms: it is introduced with the first of them,
unless it was before. -/
inductive Entered (g : Value) (us : List (Value × Term)) (s t : State) : Prop
  | kept (h : Kept g s t) (unused : s.path.versionsOf g = [] → firstUse? us g = none)
  | introduced {y : Term} (first : firstUse? us g = some y) (h : Introduced g y s t)

/-- What becomes of the globals of a program. -/
structure Entering (P : Program) (us : List (Value × Term)) (s t : State) : Prop where
  within : t.path.Within P
  entered : ∀ g ∈ P, g.isGlobal → Entered g us s t

section Entering

variable {P : Program} {g : Value} {us us' : List (Value × Term)} {s t u : State} {y : Term}

theorem Kept.trans (h : Kept g s t) (h' : Kept g t u) : Kept g s u :=
  ⟨h'.versions.trans h.versions, fun hg => (h'.pointers hg).trans (h.pointers hg)⟩

private theorem Introduced.after_kept (h : Kept g s t) (h' : Introduced g y t u) :
    Introduced g y s u := by
  obtain ⟨i, hv, hp⟩ := h'.after
  refine ⟨h.versions ▸ h'.before, i, hv, fun hg => ?_⟩
  rw [hp hg, h.pointers hg]

theorem Introduced.kept (h : Introduced g y s t) (h' : Kept g t u) : Introduced g y s u := by
  obtain ⟨i, hv, hp⟩ := h.after
  exact ⟨h.before, i, h'.versions.trans hv, fun hg => (h'.pointers hg).trans (hp hg)⟩

theorem Introduced.versionsOf_ne_nil (h : Introduced g y s t) : t.path.versionsOf g ≠ [] := by
  obtain ⟨i, hv, _⟩ := h.after
  rw [hv]
  exact List.cons_ne_nil _ _

theorem Entered.trans (h : Entered g us s t) (h' : Entered g us' t u) :
    Entered g (us ++ us') s u := by
  cases h with
  | kept k unused =>
    cases h' with
    | kept k' unused' =>
      refine .kept (k.trans k') fun hs => ?_
      rw [firstUse?_append, unused hs, unused' (k.versions.trans hs)]
      rfl
    | introduced first i =>
      refine .introduced ?_ (i.after_kept k)
      rw [firstUse?_append, unused (k.versions ▸ i.before), first]
      rfl
  | introduced first i =>
    cases h' with
    | kept k' _ =>
      refine .introduced ?_ (i.kept k')
      rw [firstUse?_append, first]
      rfl
    | introduced _ i' => exact absurd i'.before i.versionsOf_ne_nil

theorem Entered.congr (h : Entered g us s t) (hu : firstUse? us g = firstUse? us' g) :
    Entered g us' s t := by
  cases h with
  | kept k unused => exact .kept k (hu ▸ unused)
  | introduced first i => exact .introduced (hu ▸ first) i

/-- A global that is used has a version then. -/
theorem Entered.versionsOf_ne_nil (h : Entered g us s t) (hu : (firstUse? us g).isSome) :
    t.path.versionsOf g ≠ [] := by
  cases h with
  | kept same unused =>
    intro none
    rw [unused (same.versions ▸ none)] at hu
    cases hu
  | introduced _ new => exact new.versionsOf_ne_nil

namespace Entering

theorem idle (hw : t.path.Within P) (h : ∀ g ∈ P, g.isGlobal → Kept g s t) : Entering P [] s t :=
  ⟨hw, fun g hg hl => .kept (h g hg hl) fun _ => rfl⟩

theorem of_same (hs : s.path.Within P) (hv : t.path.versions = s.path.versions)
    (hp : t.path.pointers = s.path.pointers) (hd : t.path.deposits = s.path.deposits)
    (hf : t.path.flows = s.path.flows) : Entering P [] s t := by
  refine idle (hs.congr hv hp hd hf) fun g _ _ => ⟨?_, fun _ => ?_⟩
  · rw [Path.versionsOf, hv, Path.versionsOf]
  · rw [Path.pointersOf, hp, Path.pointersOf]

theorem refl (hs : s.path.Within P) : Entering P [] s s :=
  of_same hs rfl rfl rfl rfl

theorem trans (h : Entering P us s t) (h' : Entering P us' t u) : Entering P (us ++ us') s u :=
  ⟨h'.within, fun g hg hl => (h.entered g hg hl).trans (h'.entered g hg hl)⟩

theorem congr (h : Entering P us s t)
    (hu : ∀ g ∈ P, g.isGlobal → firstUse? us g = firstUse? us' g) : Entering P us' s t :=
  ⟨h.within, fun g hg hl => (h.entered g hg hl).congr (hu g hg hl)⟩

end Entering

end Entering

private theorem Value.not_isGlobal_of_isEntryArgument {v : Value} (h : v.isEntryArgument) :
    ¬v.isGlobal := by
  unfold isEntryArgument at h
  unfold isGlobal
  cases hk : v.kind <;> simp_all

/-- A value of a program that is no global has an identity of its own. -/
theorem Program.Declared.id_ne {P : Program} {n : Nat} (hP : P.Declared n) {value g : Value}
    (hv : value ∈ P) (h : ¬value.isGlobal) (hg : g ∈ P) (hl : g.isGlobal) : value.id ≠ g.id :=
  fun hi => h (hP.value_eq hv hg hi ▸ hl)

/-- A global that has no version is introduced. -/
theorem Entering.introduce {P : Program} {n : Nat} (hP : P.Declared n) {s t : State}
    (hs : s.path.Within P) {value : Value} (hv : value ∈ P) (hn : s.path.latest? value = none)
    {j : Nat} {x : Term}
    (versions : t.path.versions = ⟨j, value, x⟩ :: s.path.versions)
    (pointers : t.path.pointers = if value.isPointer then
      ⟨⟨j, value, x⟩, Location.start (j + 1) value x⟩ :: s.path.pointers else s.path.pointers)
    (deposits : t.path.deposits = s.path.deposits) (flows : t.path.flows = s.path.flows) :
    Entering P [(value, x)] s t := by
  refine ⟨⟨?_, deposits ▸ hs.deposits, flows ▸ hs.sources, ?_⟩, fun g hg hl => ?_⟩
  · rw [versions]
    exact List.forall_mem_cons.2 ⟨hv, hs.versions⟩
  · rw [versions]
    refine List.forall_mem_cons.2 ⟨fun _ hp => ?_, fun u hu hg hp => ?_⟩
    · simp [Path.pointee?, pointers, if_pos hp]
    · have known := hs.pointed u hu hg hp
      rw [Path.pointee?, pointers]
      split
      · rw [List.find?_cons]
        split
        · rfl
        · exact known
      · exact known
  · by_cases hi : value.id = g.id
    · obtain rfl := hP.value_eq hv hg hi
      have before := Path.versionsOf_eq_nil_iff.2 hn
      refine .introduced (firstUse?_of_eq rfl x) ⟨before, j, ?_, fun hp => ?_⟩
      · rw [Path.versionsOf, versions, List.filter_cons_of_pos (by simp)]
        exact congrArg _ before
      · rw [Path.pointersOf, pointers, if_pos hp]
        exact List.filter_cons_of_pos (by simp)
    · refine .kept ⟨?_, fun _ => ?_⟩ fun _ => firstUse?_of_ne hi x
      · rw [Path.versionsOf, versions]
        exact List.filter_cons_of_neg (by simpa using hi)
      · rw [Path.pointersOf, pointers]
        split
        · exact List.filter_cons_of_neg (by simpa using hi)
        · rfl

namespace Recorder

/-- The computation looks up the operands given, and what it gives has the property. -/
def Enters {α : Type} (P : Program) (us : List (Value × Term)) (m : Recorder α) (s : State)
    (Q : α → Prop) : Prop :=
  Entering P us s (m s).2 ∧ Q (m s).1

namespace Enters

variable {α β : Type} {P : Program} {us us' : List (Value × Term)} {s : State} {m : Recorder α}
  {k : α → Recorder β} {Q : α → Prop} {Q' : β → Prop}

theorem pure {a : α} (hs : s.path.Within P) (ha : Q a) : Enters P [] (pure a) s Q :=
  ⟨.refl hs, ha⟩

theorem bind (hm : Enters P us m s Q)
    (hk : ∀ a t, t.path.Within P → Q a → Enters P us' (k a) t Q') :
    Enters P (us ++ us') (m >>= k) s Q' := by
  obtain ⟨rest, hq⟩ := hk (m s).1 (m s).2 hm.1.within hm.2
  exact ⟨hm.1.trans rest, hq⟩

/-- What comes first looks nothing up. -/
theorem next (hm : Enters P [] m s Q)
    (hk : ∀ a t, t.path.Within P → Q a → Enters P us (k a) t Q') : Enters P us (m >>= k) s Q' :=
  hm.bind hk

/-- What comes last looks nothing up. -/
theorem last (hm : Enters P us m s Q)
    (hk : ∀ a t, t.path.Within P → Q a → Enters P [] (k a) t Q') : Enters P us (m >>= k) s Q' :=
  List.append_nil us ▸ hm.bind hk

/-- What comes last looks nothing up; it is known what it goes on from. -/
theorem goOn (hm : Enters P us m s Q) (hk : Enters P [] (k (m s).1) (m s).2 Q') :
    Enters P us (m >>= k) s Q' :=
  ⟨List.append_nil us ▸ hm.1.trans hk.1, hk.2⟩

theorem get {k : State → Recorder α} (h : Enters P us (k s) s Q) :
    Enters P us (get >>= k) s Q :=
  h

theorem imp {Q' : α → Prop} (h : Enters P us m s Q) (hq : ∀ a, Q a → Q' a) :
    Enters P us m s Q' :=
  ⟨h.1, hq _ h.2⟩

theorem congr (h : Enters P us m s Q)
    (hu : ∀ g ∈ P, g.isGlobal → firstUse? us g = firstUse? us' g) : Enters P us' m s Q :=
  ⟨h.1.congr hu, h.2⟩

end Enters

variable {P : Program} {n : Nat} {s : State} {value i : Value} {v : Version}

section Records

theorem newVersion_enters (hP : P.Declared n) (hs : s.path.Within P) (hi : i ∈ P)
    (hg : ¬i.isGlobal) (x : Term) : Enters P [] (newVersion i x) s (·.value = i) := by
  refine ⟨.idle ⟨?_, hs.deposits, hs.sources, ?_⟩ fun g hgP hl => ⟨?_, fun _ => rfl⟩, rfl⟩
  · exact List.forall_mem_cons.2 ⟨hi, hs.versions⟩
  · exact List.forall_mem_cons.2 ⟨fun hl => absurd hl hg, hs.pointed⟩
  · refine List.filter_cons_of_neg ?_
    simpa using hP.id_ne hi hg hgP hl

theorem newLocation_enters (hs : s.path.Within P) (site : Value) (x : Term) :
    Enters P [] (newLocation site x) s fun _ => True :=
  ⟨.of_same hs rfl rfl rfl rfl, trivial⟩

/-- A version that is no global with an address of its own may be made to point anywhere. -/
theorem addPointer_enters (hP : P.Declared n) (hs : s.path.Within P) (hv : v.value ∈ P)
    (hg : v.value.isGlobal → ¬v.value.isPointer) (l : Location) :
    Enters P [] (addPointer v l) s fun _ => True := by
  have front : (addPointer v l s).2.path.pointers = ⟨v, l⟩ :: s.path.pointers := rfl
  refine ⟨.idle ⟨hs.versions, hs.deposits, hs.sources, fun u hu hl hp => ?_⟩
    fun g hgP hl => ⟨rfl, fun hp => ?_⟩, trivial⟩
  · simp only [Path.pointee?, front, List.find?_cons]
    split
    · rfl
    · exact hs.pointed u hu hl hp
  · refine List.filter_cons_of_neg ?_
    have hi : v.value.id ≠ g.id := by
      intro hi
      rw [← hP.value_eq hv hgP hi] at hl hp
      exact hg hl hp
    simpa using hi

theorem deposit_enters (hs : s.path.Within P) (hv : v.value ∈ P) (l : Location) :
    Enters P [] (deposit l v) s fun _ => True :=
  ⟨.idle ⟨hs.versions, List.forall_mem_cons.2 ⟨hv, hs.deposits⟩, hs.sources, hs.pointed⟩
    fun _ _ _ => ⟨rfl, fun _ => rfl⟩, trivial⟩

theorem addFlow_enters (hs : s.path.Within P) (hv : v.value ∈ P) (target : Version)
    (via : Option Location) : Enters P [] (addFlow v target via) s fun _ => True := by
  have versions : (addFlow v target via s).2.path.versions = s.path.versions :=
    Path.versions_addFlow ..
  have pointers : (addFlow v target via s).2.path.pointers = s.path.pointers :=
    Path.pointers_addFlow ..
  have deposits : (addFlow v target via s).2.path.deposits = s.path.deposits :=
    Path.deposits_addFlow ..
  refine ⟨.idle ⟨?_, ?_, fun e he => ?_, ?_⟩ fun g _ _ => ⟨?_, fun _ => ?_⟩, trivial⟩
  · rw [versions]
    exact hs.versions
  · rw [deposits]
    exact hs.deposits
  · rcases Path.mem_flows_of_mem_addFlow he with rfl | he
    · exact hv
    · exact hs.sources e he
  · simp only [versions, Path.pointee?, pointers]
    exact hs.pointed
  · rw [Path.versionsOf, versions, Path.versionsOf]
  · rw [Path.pointersOf, pointers, Path.pointersOf]

theorem newPointer_enters (hP : P.Declared n) (hs : s.path.Within P) (hi : i ∈ P)
    (hg : ¬i.isGlobal) (site : Value) (x : Term) :
    Enters P [] (newPointer i site x) s (·.value = i) := by
  refine (newVersion_enters hP hs hi hg x).next fun v t ht hv => ?_
  refine (newLocation_enters ht site x).next fun l t ht _ => ?_
  refine (addPointer_enters hP ht (hv ▸ hi) (fun hl => absurd hl (hv ▸ hg)) l).next
    fun _ t ht _ => ?_
  exact .pure ht hv

theorem locationAt_enters (hs : s.path.Within P) (site : Value) (x : Term) :
    Enters P [] (locationAt site x) s fun _ => True := by
  refine .get ?_
  split
  · exact .pure hs trivial
  · exact newLocation_enters hs site x

theorem elementAt_enters (hs : s.path.Within P) (base : Location) (x : Term) :
    Enters P [] (elementAt base x) s fun _ => True := by
  refine .get ?_
  split
  · exact .pure hs trivial
  · unfold Enters
    rw [run_bind, relocate_run]
    exact ⟨.of_same hs rfl rfl rfl rfl, trivial⟩

end Records

section Lookups

/-- What is looked up for a value is a version of a value of the program; nothing is found only for
a value that is no global. -/
structure Found (P : Program) (value : Value) (v? : Option Version) : Prop where
  within : ∀ v, v? = some v → v.value ∈ P
  missing : v? = none → ¬value.isGlobal

theorem Found.of_mem (hv : v.value ∈ P) : Found P value (some v) :=
  ⟨fun _ hu => Option.some.inj hu ▸ hv, fun hn => absurd hn (Option.some_ne_none v)⟩

theorem versionOf?_of_global (hg : value.isGlobal) (hl : s.path.latest? value = none) (x : Term) :
    versionOf? value x s =
      if value.isPointer then (some (newPointer value value x s).1, (newPointer value value x s).2)
      else (some (newVersion value x s).1, (newVersion value x s).2) := by
  have lasting : value.Lasting := fun _ => hg
  obtain ⟨element, constant⟩ := lasting.tests
  simp only [versionOf?, element, constant, Bool.false_eq_true, if_false]
  rw [run_get, hl]
  simp only [hg, if_true]
  split <;> rfl

/-- Whatever is created for a value that is no global, no global is used. -/
private theorem versionOf?_enters_of_not_isGlobal (hP : P.Declared n) (hs : s.path.Within P)
    (hv : value ∈ P) (hg : ¬value.isGlobal) (x : Term) :
    Enters P [(value, x)] (versionOf? value x) s (Found P value) := by
  have unused : ∀ g ∈ P, g.isGlobal → firstUse? [] g = firstUse? [(value, x)] g :=
    fun g hgP hl => (firstUse?_of_ne (hP.id_ne hv hg hgP hl) x).symm
  refine Enters.congr ?_ unused
  unfold Enters
  rcases versionOf?_cases value x s with h | h | h <;> rw [h]
  · exact ⟨.refl hs, fun v hl => hs.of_latest? hl, fun _ => hg⟩
  · obtain ⟨entering, hi⟩ := newVersion_enters hP hs hv hg x
    exact ⟨entering, .of_mem (hi ▸ hv)⟩
  · obtain ⟨entering, hi⟩ := newPointer_enters hP hs hv hg value x
    exact ⟨entering, .of_mem (hi ▸ hv)⟩

theorem versionOf?_enters (hP : P.Declared n) (hs : s.path.Within P) (hv : value ∈ P) (x : Term) :
    Enters P [(value, x)] (versionOf? value x) s (Found P value) := by
  by_cases hg : value.isGlobal
  · unfold Enters
    cases hl : s.path.latest? value with
    | some u =>
      rw [versionOf?_of_latest? (fun _ => hg) hl]
      refine ⟨⟨hs, fun g hgP hgl => .kept ⟨rfl, fun _ => rfl⟩ fun hn => firstUse?_of_ne ?_ x⟩,
        .of_mem (hs.of_latest? hl)⟩
      intro hi
      obtain rfl := hP.value_eq hv hgP hi
      rw [Path.versionsOf_eq_nil_iff, hl] at hn
      cases hn
    | none =>
      rw [versionOf?_of_global hg hl]
      by_cases hp : value.isPointer
      · rw [if_pos hp]
        refine ⟨.introduce hP hs hv hl rfl ?_ rfl rfl, .of_mem hv⟩
        rw [if_pos hp]
        rfl
      · rw [if_neg hp]
        refine ⟨.introduce hP hs hv hl rfl ?_ rfl rfl, .of_mem hv⟩
        rw [if_neg hp]
        rfl
  · exact versionOf?_enters_of_not_isGlobal hP hs hv hg x

theorem mem_versions_of_versionOf? {x : Term} (h : (versionOf? value x s).1 = some v) :
    v ∈ (versionOf? value x s).2.path.versions := by
  rcases versionOf?_cases value x s with hv | hv | hv <;> rw [hv] at h ⊢
  · exact Path.mem_versions_of_latest? h
  · cases h
    exact List.mem_cons_self
  · cases h
    exact List.mem_cons_self

private theorem versionOrNew_enters (hP : P.Declared n) (hs : s.path.Within P) (hv : value ∈ P) (x : Term) :
    Enters P [(value, x)] (versionOrNew value x) s (·.value ∈ P) := by
  refine (versionOf?_enters hP hs hv x).last fun v? t ht ⟨found, missing⟩ => ?_
  cases v? with
  | some v => exact .pure ht (found v rfl)
  | none => exact (newVersion_enters hP ht hv (missing rfl) x).imp fun u hu => hu ▸ hv

theorem actuals_enters (hP : P.Declared n) (hs : s.path.Within P) {given : List (Value × Term)}
    (h : ∀ u ∈ given, u.1 ∈ P) :
    Enters P given.reverse (actuals given) s fun vs => ∀ v ∈ vs, v.value ∈ P := by
  induction given with
  | nil => exact .pure hs fun v hv => absurd hv List.not_mem_nil
  | cons u given ih =>
    obtain ⟨hu, hgiven⟩ := List.forall_mem_cons.1 h
    rw [List.reverse_cons]
    refine (ih hgiven).bind fun vs t ht hvs => ?_
    refine (versionOrNew_enters hP ht hu u.2).last fun v t ht hv => ?_
    exact .pure ht (List.forall_mem_cons.2 ⟨hv, hvs⟩)

/-- Arguments without terms are used with the term of the result. -/
theorem flowArguments_enters (hP : P.Declared n) (hs : s.path.Within P) (result : Version)
    (x : Term) {values : List Value} (h : ∀ u ∈ values, u ∈ P) (xs : List Term) {k : Nat}
    (hk : values.length ≤ k) :
    Enters P (values.zip (xs ++ List.replicate k x)) (flowArguments result x values xs) s
      fun _ => True := by
  induction values generalizing s xs k with
  | nil => exact .pure hs trivial
  | cons value values ih =>
    obtain ⟨hv, hvalues⟩ := List.forall_mem_cons.1 h
    have step {us : List (Value × Term)} (ys : List Term)
        (rest : ∀ t : State, t.path.Within P →
          Enters P us (flowArguments result x values ys.tail) t fun _ => True) :
        Enters P ((value, ys.head?.getD x) :: us) (flowArguments result x (value :: values) ys) s
          fun _ => True := by
      refine (versionOf?_enters hP hs hv _).bind fun v? t ht ⟨found, _⟩ => ?_
      cases v? with
      | some v => exact (addFlow_enters ht (found v rfl) result none).next fun _ t ht _ => rest t ht
      | none => exact rest t ht
    cases xs with
    | cons y ys => exact step (y :: ys) fun t ht => ih ht hvalues ys (Nat.le_of_succ_le hk)
    | nil =>
      obtain ⟨k, rfl⟩ := Nat.exists_eq_succ_of_ne_zero (Nat.ne_of_gt (Nat.zero_lt_of_lt hk))
      exact step [] fun t ht => ih ht hvalues [] (Nat.le_of_succ_le_succ hk)

theorem bindEach_enters (hP : P.Declared n) (hs : s.path.Within P)
    {bound : List (Value × Version)}
    (h : ∀ b ∈ bound, b.1 ∈ P ∧ ¬b.1.isGlobal ∧ b.2.value ∈ P) :
    Enters P [] (bindEach bound) s fun _ => True := by
  induction bound generalizing s with
  | nil => exact .pure hs trivial
  | cons b bound ih =>
    obtain ⟨⟨hparameter, hg, hargument⟩, hbound⟩ := List.forall_mem_cons.1 h
    refine (newVersion_enters hP hs hparameter hg _).next fun v t ht _ => ?_
    exact (addFlow_enters ht hargument v none).next fun _ t ht _ => ih ht hbound

end Lookups

section Resolution

theorem resolve?_enters (hP : P.Declared n) (hs : s.path.Within P) (hv : v.value ∈ P) :
    Enters P [] (resolve? v) s fun _ => True := by
  refine .get ?_
  split
  · exact .pure hs trivial
  · split
    · rename_i entry
      have hg := Value.not_isGlobal_of_isEntryArgument entry
      refine (newLocation_enters hs _ _).next fun l t ht _ => ?_
      refine (newVersion_enters hP ht hv hg _).next fun u t ht hu => ?_
      refine (addPointer_enters hP ht (hu ▸ hv) (fun hl => absurd hl (hu ▸ hg)) l).next
        fun _ t ht _ => ?_
      exact .pure ht trivial
    · exact .pure hs trivial

private theorem resolveEach_enters (hP : P.Declared n) (hs : s.path.Within P) {vs : List Version}
    (h : ∀ v ∈ vs, v.value ∈ P) : Enters P [] (resolveEach vs) s fun _ => True := by
  induction vs generalizing s with
  | nil => exact .pure hs trivial
  | cons v vs ih =>
    obtain ⟨hv, hvs⟩ := List.forall_mem_cons.1 h
    refine (resolve?_enters hP hs hv).next fun l? t ht _ => ?_
    cases l? with
    | none => exact ih ht hvs
    | some l => exact (ih ht hvs).next fun _ t ht _ => .pure ht trivial

theorem resolveAll_enters (hP : P.Declared n) (hs : s.path.Within P) (hv : v.value ∈ P) :
    Enters P [] (resolveAll v) s fun _ => True := by
  refine (resolve?_enters hP hs hv).next fun l? t ht _ => ?_
  cases l? with
  | none => exact .get (resolveEach_enters hP ht fun u hu => ht.of_mem_ends hv hu)
  | some l => exact .pure ht trivial

theorem loadFrom_enters (hs : s.path.Within P) (hv : v.value ∈ P) (ls : List Location) :
    Enters P [] (loadFrom v ls) s fun _ => True := by
  induction ls generalizing s with
  | nil => exact .pure hs trivial
  | cons l ls ih =>
    refine .get ?_
    split
    · rename_i held hc
      obtain ⟨d, hd, _, rfl⟩ := Path.mem_deposits_of_content? hc
      exact (addFlow_enters hs (hs.deposits d hd) v (some l)).next fun _ t ht _ => ih ht
    · exact (deposit_enters hs hv l).next fun _ t ht _ => ih ht

/-- A store that makes nothing up. -/
theorem storeIntoWith_enters (hs : s.path.Within P) (hv : v.value ∈ P) (ls : List Location) :
    Enters P [] (storeIntoWith Pure.pure v ls) s fun _ => True := by
  induction ls generalizing s with
  | nil => exact .pure hs trivial
  | cons l ls ih =>
    refine .get ?_
    split <;> exact (deposit_enters hs hv _).next fun _ t ht _ => ih ht

theorem pointInto_enters (hP : P.Declared n) (hs : s.path.Within P) (hv : v.value ∈ P)
    (hg : ¬v.value.isGlobal) (x : Term) (ls : List Location) :
    Enters P [] (pointInto v x ls) s fun _ => True := by
  induction ls generalizing s with
  | nil => exact .pure hs trivial
  | cons l ls ih =>
    refine (elementAt_enters hs l x).next fun k t ht _ => ?_
    exact (addPointer_enters hP ht hv (fun hl => absurd hl hg) k).next fun _ t ht _ => ih ht

theorem addFlows_enters (hs : s.path.Within P) (target : Version) {vs : List Version}
    (h : ∀ v ∈ vs, v.value ∈ P) : Enters P [] (addFlows target vs) s fun _ => True := by
  induction vs generalizing s with
  | nil => exact .pure hs trivial
  | cons v vs ih =>
    obtain ⟨hv, hvs⟩ := List.forall_mem_cons.1 h
    exact (addFlow_enters hs hv target none).next fun _ t ht _ => ih ht hvs

end Resolution

end Recorder

end PathSlice
