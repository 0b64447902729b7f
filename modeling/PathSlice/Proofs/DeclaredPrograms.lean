import Mathlib.Data.List.Pairwise
import PathSlice.Program.Format

/-! Programs made of declarations: identities ascend in order of declaration, and a value refers to
values declared before it. Global variables are pointers, since they are read as such. -/
namespace PathSlice

private theorem Declaration.type_of_ofFields {tag : String} {j : Json} {d : Declaration}
    (h : ofFields tag j = some d) (hk : d.kind = .globalVariable) : d.type = .pointer := by
  have bound {α : Type} {x : Option α} {f : α → Option Declaration} (h : (x >>= f) = some d) :
      ∃ a, f a = some d := by
    cases x with
    | none => cases h
    | some a => exact ⟨a, h⟩
  unfold ofFields at h
  dsimp only at h
  split at h
  case h_7 => cases h
  all_goals
    obtain ⟨fields, h⟩ := bound h
    split at h
    case h_2 => cases h
    repeat obtain ⟨_, h⟩ := bound h
    cases h
  · cases hk
  · cases hk
  · cases hk
  · cases hk
  · rfl
  · cases hk

/-- A global variable is read as a pointer. -/
theorem Declaration.type_of_ofOutline {depth : Nat} {o : Json.Outline} {d : Declaration}
    (h : ofOutline depth o = .ok d) (hk : d.kind = .globalVariable) : d.type = .pointer := by
  unfold ofOutline at h
  cases ht : o.tagged "kind" tags depth with
  | error fault =>
    rw [ht] at h
    cases h
  | ok tagged =>
    rw [ht] at h
    dsimp only [bind, Except.bind] at h
    split at h
    · rename_i hd
      cases h
      exact type_of_ofFields hd hk
    · cases h

namespace Program

variable {p p' : Program} {n : Nat}

/-- The identities of a program ascend and are below `n`, and references go back. -/
structure Declared (n : Nat) (p : Program) : Prop where
  ascending : p.Pairwise fun v w => v.id < w.id
  below : ∀ v ∈ p, v.id < n
  references : ∀ v ∈ p, ∀ w ∈ v.kind.references, w ∈ p ∧ w.id < v.id

theorem mem_of_resolve {name : String} {v : Value} (h : p.resolve name = .ok v) : v ∈ p := by
  unfold resolve find? at h
  split at h
  · cases h
    exact List.mem_of_find?_eq_some ‹_›
  · cases h

private theorem mem_of_mapM_resolve {names : List String} {vs : List Value}
    (h : names.mapM p.resolve = .ok vs) : ∀ v ∈ vs, v ∈ p := by
  induction names generalizing vs with
  | nil =>
    cases h
    exact fun _ hv => absurd hv List.not_mem_nil
  | cons name names ih =>
    rw [List.mapM_cons] at h
    cases hv : p.resolve name with
    | error fault =>
      rw [hv] at h
      cases h
    | ok v =>
      rw [hv] at h
      cases hvs : names.mapM p.resolve with
      | error fault =>
        rw [hvs] at h
        cases h
      | ok rest =>
        rw [hvs] at h
        cases h
        exact List.forall_mem_cons.2 ⟨mem_of_resolve hv, ih hvs⟩

/-- A declared value refers to values that are there already. -/
private theorem references_resolveKind {kind : Kind String} {kind' : Kind Value}
    (h : p.resolveKind kind = .ok kind') : ∀ v ∈ kind'.references, v ∈ p := by
  have listed : ∀ {names : List String} {make : List Value → Kind Value},
      (∀ vs, (make vs).references = vs) → make <$> names.mapM p.resolve = .ok kind' →
        ∀ v ∈ kind'.references, v ∈ p := by
    intro names make hmake h
    cases hvs : names.mapM p.resolve with
    | error fault =>
      rw [hvs] at h
      cases h
    | ok vs =>
      rw [hvs] at h
      cases h
      rw [hmake]
      exact mem_of_mapM_resolve hvs
  cases kind with
  | argument | constant | globalVariable =>
    cases h
    exact fun _ hv => absurd hv List.not_mem_nil
  | constantExpr | function | instruction => exact listed (fun _ => rfl) h

theorem Declared.declare (h : Declared n p) {d : Declaration} (hp : p.declare n d = .ok p') :
    Declared (n + 1) p' := by
  unfold Program.declare at hp
  split at hp
  · cases hp
  · cases hk : p.resolveKind d.kind with
    | error fault =>
      rw [hk] at hp
      cases hp
    | ok kind =>
      rw [hk] at hp
      cases hp
      have known := references_resolveKind hk
      refine ⟨?_, fun v hv => ?_, fun v hv w hw => ?_⟩
      · exact List.pairwise_append.2 ⟨h.ascending, List.pairwise_singleton _ _, fun v hv w hw =>
          List.mem_singleton.1 hw ▸ h.below v hv⟩
      · rcases List.mem_append.1 hv with hv | hv
        · exact Nat.lt_succ_of_lt (h.below v hv)
        · rw [List.mem_singleton.1 hv]
          exact Nat.lt_succ_self n
      · rcases List.mem_append.1 hv with hv | hv
        · obtain ⟨hmem, hlt⟩ := h.references v hv w hw
          exact ⟨List.mem_append_left _ hmem, hlt⟩
        · rw [List.mem_singleton.1 hv] at hw ⊢
          exact ⟨List.mem_append_left _ (known w hw), h.below w (known w hw)⟩

theorem Declared.declareAll (h : Declared n p) {ds : List Declaration}
    (hp : p.declareAll n ds = .ok p') : ∃ m, Declared m p' := by
  induction ds generalizing p n with
  | nil =>
    cases hp
    exact ⟨n, h⟩
  | cons d ds ih =>
    cases hd : p.declare n d with
    | error fault =>
      rw [Program.declareAll, hd] at hp
      cases hp
    | ok q =>
      rw [Program.declareAll, hd] at hp
      exact ih (h.declare hd) hp

theorem declared_ofDeclarations {id : Nat} {ds : List Declaration}
    (h : ofDeclarations id ds = .ok p) : ∃ n, Declared n p :=
  Declared.declareAll ⟨.nil, fun _ hv => absurd hv List.not_mem_nil,
    fun _ hv => absurd hv List.not_mem_nil⟩ h

private theorem globalVariable_of_resolveKind {kind : Kind String}
    (h : p.resolveKind kind = .ok .globalVariable) : kind = .globalVariable := by
  have listed {names : List String} {make : List Value → Kind Value}
      (h : make <$> names.mapM p.resolve = .ok .globalVariable) :
      ∃ vs, make vs = .globalVariable := by
    cases hvs : names.mapM p.resolve with
    | error fault =>
      rw [hvs] at h
      cases h
    | ok vs =>
      rw [hvs] at h
      exact ⟨vs, Except.ok.inj h⟩
  cases kind with
  | globalVariable => rfl
  | argument | constant => cases h
  | constantExpr | function | instruction =>
    obtain ⟨_, hm⟩ := listed h
    cases hm

private theorem isPointer_of_declare {d : Declaration} (h : p.declare n d = .ok p')
    (hd : d.kind = .globalVariable → d.type = .pointer)
    (hp : ∀ g ∈ p, g.isGlobalVariable → g.isPointer) :
    ∀ g ∈ p', g.isGlobalVariable → g.isPointer := by
  unfold Program.declare at h
  split at h
  · cases h
  · cases hk : p.resolveKind d.kind with
    | error fault =>
      rw [hk] at h
      cases h
    | ok kind =>
      rw [hk] at h
      cases h
      intro g hg hv
      rcases List.mem_append.1 hg with hg | hg
      · exact hp g hg hv
      · rw [List.mem_singleton.1 hg] at hv ⊢
        have variable_kind : kind = .globalVariable := by
          cases kind <;> simp_all [Value.isGlobalVariable]
        rw [variable_kind] at hk
        simpa [Value.isPointer] using hd (globalVariable_of_resolveKind hk)

/-- Where global variables are declared as pointers, they are pointers. -/
theorem isPointer_of_declareAll {ds : List Declaration} (h : p.declareAll n ds = .ok p')
    (hd : ∀ d ∈ ds, d.kind = .globalVariable → d.type = .pointer)
    (hp : ∀ g ∈ p, g.isGlobalVariable → g.isPointer) :
    ∀ g ∈ p', g.isGlobalVariable → g.isPointer := by
  induction ds generalizing p n with
  | nil =>
    cases h
    exact hp
  | cons d ds ih =>
    obtain ⟨hd, hds⟩ := List.forall_mem_cons.1 hd
    cases hq : p.declare n d with
    | error fault =>
      rw [Program.declareAll, hq] at h
      cases h
    | ok q =>
      rw [Program.declareAll, hq] at h
      exact ih h hds (isPointer_of_declare hq hd hp)

namespace Declared

/-- Values are known by their identities. -/
theorem value_eq (h : Declared n p) {v w : Value} (hv : v ∈ p) (hw : w ∈ p) (hi : v.id = w.id) :
    v = w := by
  have symm : Std.Symm fun v w : Value => v.id ≠ w.id := ⟨fun _ _ h => h.symm⟩
  by_contra hne
  exact (h.ascending.imp fun hlt => Nat.ne_of_lt hlt).forall hv hw hne hi

theorem operand (h : Declared n p) {v w : Value} (hv : v ∈ p) (hw : w ∈ v.operands) :
    w ∈ p ∧ w.id < v.id := by
  refine h.references v hv w ?_
  unfold Value.operands at hw
  split at hw
  · rename_i hk
    rw [hk]
    exact hw
  · rename_i hk
    rw [hk]
    exact hw
  · exact absurd hw List.not_mem_nil

theorem parameter (h : Declared n p) {v w : Value} (hv : v ∈ p) (hw : w ∈ v.parameters) :
    w ∈ p := by
  refine (h.references v hv w ?_).1
  unfold Value.parameters at hw
  split at hw
  · rename_i hk
    rw [hk]
    exact hw
  · exact absurd hw List.not_mem_nil

end Declared

end Program

end PathSlice
