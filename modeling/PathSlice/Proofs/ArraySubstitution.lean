import PathSlice.Proofs.AscendingLists
import PathSlice.Shadow.Substitution

/-! Substitution of arrays as a map over terms. A computation that meets certain arrays and needs
their images either yields what the images determine, and has then used exactly those, or it fails
at one of the arrays that has no image. Such computations are put together from smaller ones, and
substitution is one of them: what it meets are the arrays of the term, and what it yields is the
term with every array replaced. -/
namespace PathSlice

mutual

/-- The term with another array in the place of every one. -/
def Term.mapArrays (f : SymArray → SymArray) : Term → Term
  | .binary op left right => .binary op (left.mapArrays f) (right.mapArrays f)
  | .cast op operand w => .cast op (operand.mapArrays f) w
  | .constant value w => .constant value w
  | .extract operand offset w => .extract (operand.mapArrays f) offset w
  | .not operand => .not (operand.mapArrays f)
  | .keep operand => .keep (operand.mapArrays f)
  | .read array writes index => .read (f array) (writes.mapArrays f) (index.mapArrays f)
  | .select condition consequent alternate =>
    .select (condition.mapArrays f) (consequent.mapArrays f) (alternate.mapArrays f)

def Writes.mapArrays (f : SymArray → SymArray) : Writes → Writes
  | .none => .none
  | .write older index value =>
    .write (older.mapArrays f) (index.mapArrays f) (value.mapArrays f)

end

mutual

theorem Term.arrays_mapArrays (f : SymArray → SymArray) :
    ∀ t : Term, (t.mapArrays f).arrays = t.arrays.map f
  | .binary _ left right => by
    simp [Term.mapArrays, Term.arrays, left.arrays_mapArrays f, right.arrays_mapArrays f]
  | .cast _ operand _ => by simp [Term.mapArrays, Term.arrays, operand.arrays_mapArrays f]
  | .constant .. => by simp [Term.mapArrays, Term.arrays]
  | .extract operand _ _ => by simp [Term.mapArrays, Term.arrays, operand.arrays_mapArrays f]
  | .not operand => by simp [Term.mapArrays, Term.arrays, operand.arrays_mapArrays f]
  | .keep operand => by simp [Term.mapArrays, Term.arrays, operand.arrays_mapArrays f]
  | .read _ writes index => by
    simp [Term.mapArrays, Term.arrays, writes.arrays_mapArrays f, index.arrays_mapArrays f]
  | .select condition consequent alternate => by
    simp [Term.mapArrays, Term.arrays, condition.arrays_mapArrays f,
      consequent.arrays_mapArrays f, alternate.arrays_mapArrays f]

theorem Writes.arrays_mapArrays (f : SymArray → SymArray) :
    ∀ ws : Writes, Term.writesArrays (ws.mapArrays f) = (Term.writesArrays ws).map f
  | .none => by simp [Writes.mapArrays, Term.writesArrays]
  | .write older index value => by
    simp [Writes.mapArrays, Term.writesArrays, older.arrays_mapArrays f, index.arrays_mapArrays f,
      value.arrays_mapArrays f]

end

theorem SymArray.eq_of_compare {a b : SymArray} (h : a.compare b = .eq) : a = b := by
  obtain ⟨name, size⟩ := a
  obtain ⟨hname, hsize⟩ := Ordering.then_eq_eq.1 h
  cases Std.LawfulEqOrd.eq_of_compare hname
  cases Std.LawfulEqOrd.eq_of_compare hsize
  rfl

/-- What comes of meeting the arrays `as` after the images `used` were used, if `a` is determined by
their images. All of them have an image, and these were used; or one has none, and images of others
may have been used. -/
inductive Met {ε α : Type} (image : SymArray → Option SymArray) (missing : SymArray → ε)
    (as : List SymArray) (a : α) (used : List SymArray) : Except ε α → List SymArray → Prop
  | all {used' : List SymArray} (known : ∀ x ∈ as, (image x).isSome)
      (mem : ∀ b, b ∈ used' ↔ b ∈ used ∨ ∃ x ∈ as, image x = some b) :
      Met image missing as a used (.ok a) used'
  | lacks {used' : List SymArray} {x : SymArray} (hx : x ∈ as) (unknown : image x = none)
      (kept : ∀ b ∈ used, b ∈ used')
      (only : ∀ b ∈ used', b ∈ used ∨ ∃ y ∈ as, image y = some b) :
      Met image missing as a used (.error (missing x)) used'

/-- The computation meets the arrays `as`, and yields `a` if all of them have an image. In its state
`enter used` the images `used` were used. -/
def Meets {ε σ α : Type} (image : SymArray → Option SymArray) (missing : SymArray → ε)
    (enter : List SymArray → σ) (m : ExceptT ε (StateM σ) α) (as : List SymArray) (a : α) : Prop :=
  ∀ used, ∃ result used', m.run (enter used) = (result, enter used') ∧
    Met image missing as a used result used'

namespace Meets

variable {ε σ α β : Type} {image : SymArray → Option SymArray} {missing : SymArray → ε}
  {enter : List SymArray → σ} {m : ExceptT ε (StateM σ) α} {k : α → ExceptT ε (StateM σ) β}
  {as bs : List SymArray} {a : α} {b : β}

theorem pure (a : α) : Meets image missing enter (pure a) [] a :=
  fun used => ⟨.ok a, used, rfl, .all (by simp) (by simp)⟩

private theorem run_bind_eq {s t : σ} {result : Except ε α} (h : m.run s = (result, t)) :
    (m >>= k).run s = ExceptT.bindCont k result t := by
  change ExceptT.bindCont k (m.run s).1 (m.run s).2 = _
  rw [h]

/-- One computation after another meets the arrays of both. -/
theorem bind (hm : Meets image missing enter m as a) (hk : Meets image missing enter (k a) bs b) :
    Meets image missing enter (m >>= k) (as ++ bs) b := by
  intro used
  obtain ⟨result, used', hrun, met⟩ := hm used
  cases met with
  | lacks hx unknown kept only =>
    refine ⟨_, used', run_bind_eq hrun, .lacks (List.mem_append_left bs hx) unknown kept ?_⟩
    intro c hc
    exact (only c hc).imp_right fun ⟨y, hy, hc⟩ => ⟨y, List.mem_append_left bs hy, hc⟩
  | all known mem =>
    obtain ⟨result, used'', hrun', met⟩ := hk used'
    refine ⟨result, used'', (run_bind_eq hrun).trans hrun', ?_⟩
    cases met with
    | lacks hx unknown kept only =>
      refine .lacks (List.mem_append_right as hx) unknown ?_ (by grind)
      intro c hc
      exact kept c ((mem c).2 (.inl hc))
    | all known' mem' => exact .all (by grind) (by grind)

theorem map (hm : Meets image missing enter m as a) (f : α → β) :
    Meets image missing enter (m >>= fun x => Pure.pure (f x)) as (f a) := by
  simpa using hm.bind (k := fun x => Pure.pure (f x)) (pure (f a))

/-- Neither the order of the arrays matters nor how often they are met. -/
theorem congr (hm : Meets image missing enter m as a) (h : ∀ x, x ∈ as ↔ x ∈ bs) :
    Meets image missing enter m bs a := by
  intro used
  obtain ⟨result, used', hrun, met⟩ := hm used
  refine ⟨result, used', hrun, ?_⟩
  cases met with
  | all known mem => exact .all (by simpa [h] using known) (by simpa [h] using mem)
  | lacks hx unknown kept only =>
    exact .lacks ((h _).1 hx) unknown kept (by simpa [h] using only)

end Meets

namespace Substitution

variable {image : SymArray → Option SymArray}

private theorem meets_use {x y : SymArray} (h : image x = some y) :
    Meets image id id (use y) [x] () := by
  refine fun used => ⟨.ok (), Ascending.insert SymArray.compare y used, rfl, .all ?_ ?_⟩
  · simp [h]
  · intro b
    rw [Ascending.mem_insert_iff_of_eq SymArray.eq_of_compare, or_comm]
    simp [h, eq_comm]

private theorem meets_throw {α : Type} {x : SymArray} (h : image x = none) (as : List SymArray) (a : α) :
    Meets image id id (throw x) (x :: as) a :=
  fun used => ⟨.error x, used, rfl, .lacks List.mem_cons_self h (fun _ hb => hb) fun _ => .inl⟩

end Substitution

/-- The image of an array, or the array itself if it has none. -/
def imageOr (image : SymArray → Option SymArray) (a : SymArray) : SymArray :=
  (image a).getD a

mutual

theorem Term.meets_substitute (image : SymArray → Option SymArray) :
    ∀ t : Term, Meets image id id (t.substitute image) t.arrays (t.mapArrays (imageOr image))
  | .binary _ left right =>
    (left.meets_substitute image).bind ((right.meets_substitute image).map _)
  | .cast _ operand _ => (operand.meets_substitute image).map _
  | .constant .. => .pure _
  | .extract operand _ _ => (operand.meets_substitute image).map _
  | .not operand => (operand.meets_substitute image).map _
  | .keep operand => (operand.meets_substitute image).map _
  | .read array writes index => by
    simp only [Term.substitute, Term.arrays, Term.mapArrays]
    cases h : image array with
    | none => exact Substitution.meets_throw h _ _
    | some shadow =>
      rw [imageOr, h]
      exact (Substitution.meets_use h).bind
        ((writes.meets_substitute image).bind ((index.meets_substitute image).map _))
  | .select condition consequent alternate => by
    simp only [Term.arrays, List.append_assoc]
    exact (condition.meets_substitute image).bind
      ((consequent.meets_substitute image).bind ((alternate.meets_substitute image).map _))

theorem Writes.meets_substitute (image : SymArray → Option SymArray) :
    ∀ ws : Writes, Meets image id id (ws.substitute image) (Term.writesArrays ws)
      (ws.mapArrays (imageOr image))
  | .none => .pure _
  | .write older index value => by
    -- the older writes are met first, but come last among the arrays
    have inOrder : Meets image id id ((Writes.write older index value).substitute image)
        (Term.writesArrays older ++ (index.arrays ++ value.arrays))
        ((Writes.write older index value).mapArrays (imageOr image)) :=
      (older.meets_substitute image).bind
        ((index.meets_substitute image).bind ((value.meets_substitute image).map _))
    exact inOrder.congr fun x => by simp only [Term.writesArrays, List.mem_append, or_comm]

end

end PathSlice
