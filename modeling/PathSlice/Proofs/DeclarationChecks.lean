import Mathlib.Data.List.Induction
import Mathlib.Data.List.Nodup
import Mathlib.Logic.Relation
import PathSlice.Proofs.DeclaredPrograms

/-! The check of declarations. A list of declarations is accepted exactly if it is orderly: names are
distinct, and a declaration refers to earlier ones only. Otherwise there is a first declaration that
is at fault, and its fault is reported. What is accepted makes a program whose values, read as
declarations again, are the list. -/
namespace PathSlice

/-- The same kind with other references. -/
def Kind.map {ρ τ : Type} (f : ρ → τ) : Kind ρ → Kind τ
  | .argument owner ordinal => .argument owner ordinal
  | .constant => .constant
  | .constantExpr opcode operands => .constantExpr opcode (operands.map f)
  | .function intrinsic parameters => .function intrinsic (parameters.map f)
  | .globalVariable => .globalVariable
  | .instruction opcode owner operands => .instruction opcode owner (operands.map f)

/-- The declaration that a value was made from. -/
def Value.declaration (v : Value) : Declaration :=
  ⟨v.name, v.kind.map (·.name), v.type⟩

namespace Declaration

/-- What is wrong with a declaration behind others with the given names: it has one of these names,
or else it refers to another name. -/
def fault? (names : List String) (d : Declaration) : Option NameFault :=
  if d.name ∈ names then some (.duplicate d.name)
  else (d.kind.references.find? (· ∉ names)).map .unknown

/-- Names are distinct, and references go back to declarations before. -/
structure Orderly (ds : List Declaration) : Prop where
  distinct : (ds.map (·.name)).Nodup
  earlier : ∀ k d, ds[k]? = some d → ∀ r ∈ d.kind.references, r ∈ (ds.take k).map (·.name)

variable {names : List String} {d : Declaration} {ds : List Declaration}

theorem fault?_eq_none_iff :
    d.fault? names = none ↔ d.name ∉ names ∧ ∀ r ∈ d.kind.references, r ∈ names := by
  unfold fault?
  by_cases hd : d.name ∈ names
  · simp [hd]
  · simp [hd]

private theorem orderly_nil : Orderly [] :=
  ⟨.nil, fun k d h => by simp at h⟩

theorem Orderly.take (h : Orderly ds) (n : Nat) : Orderly (ds.take n) := by
  refine ⟨h.distinct.sublist ((ds.take_sublist n).map _), fun k d hk r hr => ?_⟩
  rw [List.getElem?_take] at hk
  split at hk
  · rename_i hlt
    rw [List.take_take, Nat.min_eq_left (Nat.le_of_lt hlt)]
    exact h.earlier k d hk r hr
  · cases hk

/-- A declaration of an orderly list is not at fault behind those before it. -/
theorem Orderly.fault?_eq_none (h : Orderly ds) {k : Nat} (hk : ds[k]? = some d) :
    d.fault? ((ds.take k).map (·.name)) = none := by
  refine fault?_eq_none_iff.2 ⟨?_, h.earlier k d hk⟩
  have upto := (h.take (k + 1)).distinct
  rw [List.take_add_one, hk, List.map_append, List.nodup_append] at upto
  exact fun hd => upto.2.2 _ hd _ (List.mem_map_of_mem (Option.mem_toList.2 rfl)) rfl

/-- The next declaration keeps the list orderly if it is not at fault. -/
theorem Orderly.concat (h : Orderly ds) (hd : d.fault? (ds.map (·.name)) = none) :
    Orderly (ds ++ [d]) := by
  obtain ⟨new, known⟩ := fault?_eq_none_iff.1 hd
  constructor
  · rw [List.map_append, List.nodup_append]
    refine ⟨h.distinct, List.pairwise_singleton _ _, fun a ha b hb heq => new ?_⟩
    have last : b = d.name := List.mem_singleton.1 hb
    rwa [← last, ← heq]
  · intro k d' hk
    rcases Nat.lt_trichotomy k ds.length with hlt | rfl | hgt
    · rw [List.getElem?_append_left hlt] at hk
      rw [List.take_append_of_le_length (Nat.le_of_lt hlt)]
      exact h.earlier k d' hk
    · rw [List.getElem?_concat_length] at hk
      cases hk
      rw [List.take_left]
      exact known
    · rw [List.getElem?_eq_none (by simpa using Nat.succ_le_of_lt hgt)] at hk
      cases hk

/-- A list is orderly, or there is a first declaration at fault. -/
theorem orderly_or_fault (ds : List Declaration) :
    Orderly ds ∨ ∃ k d fault, ds[k]? = some d ∧ Orderly (ds.take k) ∧
      d.fault? ((ds.take k).map (·.name)) = some fault := by
  induction ds using List.reverseRecOn with
  | nil => exact .inl orderly_nil
  | append_singleton ds d ih =>
    rcases ih with h | ⟨k, d', fault, hk, h, hf⟩
    · cases hf : d.fault? (ds.map (·.name)) with
      | none => exact .inl (h.concat hf)
      | some fault =>
        refine .inr ⟨ds.length, d, fault, List.getElem?_concat_length, ?_⟩
        rw [List.take_left]
        exact ⟨h, hf⟩
    · have hlt : k < ds.length := (List.getElem?_eq_some_iff.1 hk).1
      refine .inr ⟨k, d', fault, List.getElem?_append_left hlt ▸ hk, ?_⟩
      rw [List.take_append_of_le_length (Nat.le_of_lt hlt)]
      exact ⟨h, hf⟩

/-- The first declarations are orderly exactly if none of them is at fault. -/
private theorem orderly_take_iff {k : Nat} :
    Orderly (ds.take k) ↔
      ∀ j < k, ∀ e : Declaration, ds[j]? = some e → e.fault? ((ds.take j).map (·.name)) = none := by
  have prior {j : Nat} (hj : j < k) : (ds.take k).take j = ds.take j := by
    rw [List.take_take, Nat.min_eq_left (Nat.le_of_lt hj)]
  constructor
  · intro h j hj e he
    rw [← List.getElem?_take_of_lt hj] at he
    rw [← prior hj]
    exact h.fault?_eq_none he
  · intro h
    rcases orderly_or_fault (ds.take k) with orderly | ⟨j, e, fault, he, _, hf⟩
    · exact orderly
    · rw [List.getElem?_take] at he
      split at he
      · rename_i hj
        rw [prior hj, h j hj e he] at hf
        cases hf
      · cases he

end Declaration

namespace Program

variable {p q : Program} {id : Nat} {name : String} {v : Value} {d : Declaration}
  {ds ds' : List Declaration}

theorem isSome_find?_iff : (p.find? name).isSome ↔ name ∈ p.map (·.name) := by
  simp [find?]

private theorem resolve_of_not_mem (h : name ∉ p.map (·.name)) :
    p.resolve name = .error (.unknown name) := by
  rw [← isSome_find?_iff, Option.not_isSome_iff_eq_none] at h
  rw [resolve, h]

private theorem resolve_of_mem (h : name ∈ p.map (·.name)) :
    ∃ v, p.resolve name = .ok v ∧ v.name = name := by
  obtain ⟨v, hv⟩ := Option.isSome_iff_exists.1 (isSome_find?_iff.2 h)
  refine ⟨v, ?_, by simpa using List.find?_some hv⟩
  rw [resolve, hv]

/-- The first unknown name is reported. -/
private theorem mapM_resolve_error {names : List String}
    (h : names.find? (· ∉ p.map (·.name)) = some name) :
    names.mapM p.resolve = .error (.unknown name) := by
  induction names with
  | nil => cases h
  | cons n names ih =>
    rw [List.mapM_cons]
    by_cases hn : n ∈ p.map (·.name)
    · obtain ⟨v, hv, _⟩ := resolve_of_mem hn
      rw [List.find?_cons_of_neg (by simpa using hn)] at h
      rw [hv, ih h]
      rfl
    · rw [List.find?_cons_of_pos (by simpa using hn)] at h
      cases h
      rw [resolve_of_not_mem hn]
      rfl

/-- Known names stand for values with these names. -/
private theorem mapM_resolve_ok {names : List String} (h : ∀ n ∈ names, n ∈ p.map (·.name)) :
    ∃ vs, names.mapM p.resolve = .ok vs ∧ vs.map (·.name) = names := by
  induction names with
  | nil => exact ⟨[], rfl, rfl⟩
  | cons n names ih =>
    obtain ⟨hn, hnames⟩ := List.forall_mem_cons.1 h
    obtain ⟨v, hv, rfl⟩ := resolve_of_mem hn
    obtain ⟨vs, hvs, rfl⟩ := ih hnames
    refine ⟨v :: vs, ?_, rfl⟩
    rw [List.mapM_cons, hv, hvs]
    rfl

private theorem resolveKind_error {kind : Kind String}
    (h : kind.references.find? (· ∉ p.map (·.name)) = some name) :
    p.resolveKind kind = .error (.unknown name) := by
  cases kind with
  | argument | constant | globalVariable => cases h
  | constantExpr | function | instruction =>
    dsimp only [Kind.references] at h
    rw [resolveKind, mapM_resolve_error h]
    rfl

private theorem resolveKind_ok {kind : Kind String}
    (h : ∀ r ∈ kind.references, r ∈ p.map (·.name)) :
    ∃ kind', p.resolveKind kind = .ok kind' ∧ kind'.map (·.name) = kind := by
  cases kind with
  | argument | constant | globalVariable => exact ⟨_, rfl, rfl⟩
  | constantExpr | function | instruction =>
    dsimp only [Kind.references] at h
    obtain ⟨vs, hvs, rfl⟩ := mapM_resolve_ok h
    rw [resolveKind, hvs]
    exact ⟨_, rfl, rfl⟩

/-- One declaration that is at fault is refused. -/
private theorem declare_error {fault : NameFault} (h : d.fault? (p.map (·.name)) = some fault) :
    p.declare id d = .error fault := by
  unfold Declaration.fault? at h
  unfold declare
  split at h
  · rename_i old
    cases h
    rw [if_pos (isSome_find?_iff.2 old)]
    rfl
  · rename_i new
    obtain ⟨r, hr, rfl⟩ := Option.map_eq_some_iff.1 h
    rw [if_neg (mt isSome_find?_iff.1 new), resolveKind_error hr]
    rfl

/-- One declaration that is not at fault adds a value that was made from it. -/
private theorem declare_ok (id : Nat) (h : d.fault? (p.map (·.name)) = none) :
    ∃ v : Value, p.declare id d = .ok (p ++ [v]) ∧ v.id = id ∧ v.declaration = d := by
  obtain ⟨new, known⟩ := Declaration.fault?_eq_none_iff.1 h
  obtain ⟨kind, hkind, names⟩ := resolveKind_ok known
  refine ⟨⟨id, d.name, kind, d.type⟩, ?_, rfl, by rw [Value.declaration, names]⟩
  rw [declare, if_neg (mt isSome_find?_iff.1 new), hkind]
  rfl

private theorem declareAll_append (p : Program) (id : Nat) (ds ds' : List Declaration) :
    p.declareAll id (ds ++ ds') =
      (p.declareAll id ds).bind fun q => q.declareAll (id + ds.length) ds' := by
  induction ds generalizing p id with
  | nil => rfl
  | cons d ds ih =>
    rw [List.cons_append, declareAll, declareAll]
    cases p.declare id d with
    | error fault => rfl
    | ok q =>
      refine (ih q (id + 1)).trans ?_
      rw [List.length_cons, Nat.add_assoc, Nat.add_comm 1]
      rfl

theorem map_name_eq (h : p.map Value.declaration = ds) :
    p.map (·.name) = ds.map (·.name) := by
  rw [← h, List.map_map]
  rfl

/-- An orderly list is accepted, and its values have ascending identities. -/
theorem ofDeclarations_ok (h : Declaration.Orderly ds) (id : Nat) :
    ∃ p, ofDeclarations id ds = .ok p ∧ p.map Value.declaration = ds ∧
      p.map (·.id) = List.range' id ds.length := by
  induction ds using List.reverseRecOn with
  | nil => exact ⟨[], rfl, rfl, rfl⟩
  | append_singleton ds d ih =>
    have before : Declaration.Orderly ds := by simpa using h.take ds.length
    obtain ⟨p, hp, declarations, ids⟩ := ih before
    have last := h.fault?_eq_none (List.getElem?_concat_length (l := ds) (a := d))
    rw [List.take_left, ← map_name_eq declarations] at last
    obtain ⟨v, hv, hi, rfl⟩ := declare_ok (id + ds.length) last
    refine ⟨p ++ [v], ?_, ?_, ?_⟩
    · have run : declareAll [] id ds = .ok p := hp
      rw [ofDeclarations, declareAll_append, run]
      change p.declareAll (id + ds.length) [v.declaration] = _
      rw [declareAll, hv]
      rfl
    · rw [List.map_append, declarations]
      rfl
    · rw [List.map_append, ids, List.length_append, List.length_singleton, List.range'_concat]
      simp [hi]

/-- The fault of the first declaration at fault is reported. -/
theorem ofDeclarations_error {k : Nat} {fault : NameFault} (hk : ds[k]? = some d)
    (before : Declaration.Orderly (ds.take k))
    (hf : d.fault? ((ds.take k).map (·.name)) = some fault) :
    ofDeclarations id ds = .error fault := by
  obtain ⟨p, hp, declarations, _⟩ := ofDeclarations_ok before id
  rw [← map_name_eq declarations] at hf
  have run : declareAll [] id (ds.take k) = .ok p := hp
  have split : ds = ds.take k ++ d :: ds.drop (k + 1) := by
    obtain ⟨hlt, rfl⟩ := List.getElem?_eq_some_iff.1 hk
    rw [← List.drop_eq_getElem_cons hlt, List.take_append_drop]
  rw [split, ofDeclarations, declareAll_append, run]
  change p.declareAll _ (d :: ds.drop (k + 1)) = _
  rw [declareAll, declare_error hf]
  rfl

/-- Only orderly lists are accepted. -/
theorem orderly_of_ok (h : ofDeclarations id ds = .ok p) : Declaration.Orderly ds := by
  rcases Declaration.orderly_or_fault ds with orderly | ⟨k, d, fault, hk, before, hf⟩
  · exact orderly
  · rw [ofDeclarations_error hk before hf] at h
    cases h

private theorem ofDeclarations_error_iff {fault : NameFault} :
    ofDeclarations id ds = .error fault ↔
      ∃ k d, ds[k]? = some d ∧ Declaration.Orderly (ds.take k) ∧
        d.fault? ((ds.take k).map (·.name)) = some fault := by
  constructor
  · intro h
    rcases Declaration.orderly_or_fault ds with orderly | ⟨k, d, fault', hk, before, hf⟩
    · obtain ⟨p, hp, _⟩ := ofDeclarations_ok orderly id
      rw [hp] at h
      cases h
    · rw [ofDeclarations_error hk before hf] at h
      cases h
      exact ⟨k, d, hk, before, hf⟩
  · rintro ⟨k, d, hk, before, hf⟩
    exact ofDeclarations_error hk before hf

/-- A value is found by its name. -/
theorem find?_eq_some_iff (h : (p.map (·.name)).Nodup) :
    p.find? name = some v ↔ v ∈ p ∧ v.name = name := by
  constructor
  · intro hv
    exact ⟨List.mem_of_find?_eq_some hv, by simpa using List.find?_some hv⟩
  · rintro ⟨hv, rfl⟩
    have found := isSome_find?_iff.2 (List.mem_map_of_mem (f := Value.name) hv)
    obtain ⟨w, hw⟩ := Option.isSome_iff_exists.1 found
    have same : w.name = v.name := by simpa using List.find?_some hw
    rw [hw, List.inj_on_of_nodup_map h (List.mem_of_find?_eq_some hw) hv same]

/-- References go down, so they do not lead round in a circle. -/
theorem Declared.acyclic (h : Declared id p) (i : Nat) :
    ¬Relation.TransGen (fun i j => ∃ v ∈ p, ∃ w ∈ v.kind.references, v.id = i ∧ w.id = j) i i := by
  have down {i j : Nat} (hij : Relation.TransGen
      (fun i j => ∃ v ∈ p, ∃ w ∈ v.kind.references, v.id = i ∧ w.id = j) i j) : j < i := by
    induction hij with
    | single hij =>
      obtain ⟨v, hv, w, hw, rfl, rfl⟩ := hij
      exact (h.references v hv w hw).2
    | tail _ hij ih =>
      obtain ⟨v, hv, w, hw, rfl, rfl⟩ := hij
      exact Nat.lt_trans (h.references v hv w hw).2 ih
  exact fun hi => Nat.lt_irrefl i (down hi)

/-- Declarations are accepted exactly if their names are distinct and each refers to declarations
before it. Then the values are made from the declarations in order, with identities one after the
other; every name that is declared, and no other, stands for its value; and a value refers to values
with smaller identities, so references do not lead round in a circle. Otherwise the fault is that of
the first declaration at fault: a name that was declared before, or else the first name that it
refers to and that was not. -/
theorem ofDeclarations_exact (id : Nat) (ds : List Declaration) :
    ((∃ p, ofDeclarations id ds = .ok p) ↔
      (ds.map (·.name)).Nodup ∧
        ∀ k d, ds[k]? = some d → ∀ r ∈ d.kind.references, r ∈ (ds.take k).map (·.name)) ∧
    (∀ p, ofDeclarations id ds = .ok p →
      p.map Value.declaration = ds ∧ p.map (·.id) = List.range' id ds.length ∧
      (∀ name v, p.find? name = some v ↔ v ∈ p ∧ v.name = name) ∧
      (∀ v ∈ p, ∀ w ∈ v.kind.references, w ∈ p ∧ w.id < v.id) ∧
      ∀ i, ¬Relation.TransGen
        (fun i j => ∃ v ∈ p, ∃ w ∈ v.kind.references, v.id = i ∧ w.id = j) i i) ∧
    ∀ fault, ofDeclarations id ds = .error fault ↔
      ∃ k, ∃ d : Declaration, ds[k]? = some d ∧
        (∀ j < k, ∀ e : Declaration, ds[j]? = some e →
          e.fault? ((ds.take j).map (·.name)) = none) ∧
        d.fault? ((ds.take k).map (·.name)) = some fault := by
  refine ⟨⟨?_, ?_⟩, ?_, ?_⟩
  · rintro ⟨p, hp⟩
    have orderly := orderly_of_ok hp
    exact ⟨orderly.distinct, orderly.earlier⟩
  · rintro ⟨distinct, earlier⟩
    obtain ⟨p, hp, _⟩ := ofDeclarations_ok ⟨distinct, earlier⟩ id
    exact ⟨p, hp⟩
  · intro p hp
    have orderly := orderly_of_ok hp
    obtain ⟨q, hq, declarations, ids⟩ := ofDeclarations_ok orderly id
    cases hp.symm.trans hq
    obtain ⟨n, declared⟩ := declared_ofDeclarations hp
    have distinct : (p.map (·.name)).Nodup := map_name_eq declarations ▸ orderly.distinct
    exact ⟨declarations, ids, fun name v => find?_eq_some_iff distinct, declared.references,
      declared.acyclic⟩
  · intro fault
    simp only [ofDeclarations_error_iff, Declaration.orderly_take_iff]

end Program

end PathSlice
