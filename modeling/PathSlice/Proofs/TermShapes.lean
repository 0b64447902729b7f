import PathSlice.Proofs.ArraySubstitution
import PathSlice.Shadow.Session

/-! Terms that are built alike. What shadows are put in the place of arrays turns a term into is a term
of the same shape: it differs from the first one in the arrays that it reads, and in nothing else. -/
namespace PathSlice

mutual

/-- The terms are built alike, from the same operators and constants. Only the arrays may differ. -/
inductive Term.SameShape : Term → Term → Prop
  | binary (op : BinaryOp) {left right left' right' : Term} (hl : Term.SameShape left left')
      (hr : Term.SameShape right right') :
      Term.SameShape (.binary op left right) (.binary op left' right')
  | cast (op : CastOp) {operand operand' : Term} (h : Term.SameShape operand operand')
      (w : Width) : Term.SameShape (.cast op operand w) (.cast op operand' w)
  | constant (value : UInt64) (w : Width) : Term.SameShape (.constant value w) (.constant value w)
  | extract {operand operand' : Term} (h : Term.SameShape operand operand') (offset : UInt32)
      (w : Width) : Term.SameShape (.extract operand offset w) (.extract operand' offset w)
  | not {operand operand' : Term} (h : Term.SameShape operand operand') :
      Term.SameShape (.not operand) (.not operand')
  | keep {operand operand' : Term} (h : Term.SameShape operand operand') :
      Term.SameShape (.keep operand) (.keep operand')
  | read (array array' : SymArray) {writes writes' : Writes} {index index' : Term}
      (hw : Writes.SameShape writes writes') (hi : Term.SameShape index index') :
      Term.SameShape (.read array writes index) (.read array' writes' index')
  | select {condition consequent alternate condition' consequent' alternate' : Term}
      (hc : Term.SameShape condition condition') (ht : Term.SameShape consequent consequent')
      (ha : Term.SameShape alternate alternate') :
      Term.SameShape (.select condition consequent alternate)
        (.select condition' consequent' alternate')

/-- There are as many writes in both chains, in the same order and built alike. -/
inductive Writes.SameShape : Writes → Writes → Prop
  | none : Writes.SameShape .none .none
  | write {older older' : Writes} {index value index' value' : Term}
      (ho : Writes.SameShape older older') (hi : Term.SameShape index index')
      (hv : Term.SameShape value value') :
      Writes.SameShape (.write older index value) (.write older' index' value')

end

mutual

theorem Term.sameShape_mapArrays (f : SymArray → SymArray) :
    ∀ t : Term, (t.mapArrays f).SameShape t
  | .binary op left right =>
    .binary op (left.sameShape_mapArrays f) (right.sameShape_mapArrays f)
  | .cast op operand w => .cast op (operand.sameShape_mapArrays f) w
  | .constant value w => .constant value w
  | .extract operand offset w => .extract (operand.sameShape_mapArrays f) offset w
  | .not operand => .not (operand.sameShape_mapArrays f)
  | .keep operand => .keep (operand.sameShape_mapArrays f)
  | .read array writes index =>
    .read (f array) array (writes.sameShape_mapArrays f) (index.sameShape_mapArrays f)
  | .select condition consequent alternate =>
    .select (condition.sameShape_mapArrays f) (consequent.sameShape_mapArrays f)
      (alternate.sameShape_mapArrays f)

theorem Writes.sameShape_mapArrays (f : SymArray → SymArray) :
    ∀ ws : Writes, (ws.mapArrays f).SameShape ws
  | .none => .none
  | .write older index value =>
    .write (older.sameShape_mapArrays f) (index.sameShape_mapArrays f)
      (value.sameShape_mapArrays f)

end

/-- A read is a byte wide whatever it reads, so the width does not depend on the arrays. -/
theorem Term.SameShape.width_eq : ∀ {t t' : Term}, t.SameShape t' → t.width = t'.width
  | _, _, .binary op hl hr => by simp only [Term.width, hl.width_eq, hr.width_eq]
  | _, _, .cast .. => rfl
  | _, _, .constant .. => rfl
  | _, _, .extract .. => rfl
  | _, _, .not h => h.width_eq
  | _, _, .keep h => h.width_eq
  | _, _, .read .. => rfl
  | _, _, .select _ ht _ => ht.width_eq

/-- If all arrays have an image, their images are what the map puts in their place. -/
private theorem map_imageOr {image : SymArray → Option SymArray} {as : List SymArray}
    (h : ∀ a ∈ as, (image a).isSome) : as.map image = (as.map (imageOr image)).map some := by
  rw [List.map_map]
  refine List.map_congr_left fun a ha => ?_
  obtain ⟨b, hb⟩ := Option.isSome_iff_exists.1 (h a ha)
  simp [imageOr, hb]

/-- What comes of putting shadows in the place of the arrays of a term, whatever shadows were used
before. It succeeds if and only if all arrays have shadows. The result reads the shadows of the
arrays in their order, has the width and the shape of the term, and the shadows of its arrays are
noted as used besides those that were. Otherwise an array that the term reads and that has no shadow
is told, and no shadows but those of arrays of the term are noted as used besides those that were. -/
theorem Term.substitute_exact (r : Registry) (t : Term) (used : List SymArray) :
    let run := (t.substitute r.shadow?).run used
    ((∃ t', run.1 = .ok t') ↔ ∀ a ∈ t.arrays, (r.shadow? a).isSome) ∧
    (∀ t', run.1 = .ok t' →
      t.arrays.map r.shadow? = t'.arrays.map some ∧ t'.width = t.width ∧ t'.SameShape t ∧
      ∀ b, b ∈ run.2 ↔ b ∈ used ∨ ∃ a ∈ t.arrays, r.shadow? a = some b) ∧
    ∀ a, run.1 = .error a →
      a ∈ t.arrays ∧ r.shadow? a = none ∧ used ⊆ run.2 ∧
      ∀ b ∈ run.2, b ∈ used ∨ ∃ a ∈ t.arrays, r.shadow? a = some b := by
  intro run
  obtain ⟨result, used', hrun, met⟩ := t.meets_substitute r.shadow? used
  rw [show run = (result, used') from hrun]
  cases met with
  | all known mem =>
    refine ⟨⟨fun _ => known, fun _ => ⟨_, rfl⟩⟩, ?_, nofun⟩
    rintro _ ⟨⟩
    have shape := t.sameShape_mapArrays (imageOr r.shadow?)
    refine ⟨?_, shape.width_eq, shape, mem⟩
    rw [t.arrays_mapArrays]
    exact map_imageOr known
  | lacks hx unknown kept only =>
    refine ⟨⟨nofun, fun known => ?_⟩, nofun, ?_⟩
    · have := known _ hx
      simp [unknown] at this
    · rintro _ ⟨⟩
      exact ⟨hx, unknown, kept, only⟩

end PathSlice
