import PathSlice.Proofs.ArraySubstitution
import PathSlice.Proofs.CoreLocations
import PathSlice.Shadow.Copy

/-! One registry after another. Putting the shadows of one registry in the place of arrays, and then
those of a second one in the place of the first, is the same as putting shadows of shadows there at
once. A registry can be undone exactly if different arrays of the term have different shadows. The
same holds of copies of locations, which keep the site and are core if the location is. -/
namespace PathSlice

mutual

theorem Term.mapArrays_mapArrays (f g : SymArray → SymArray) :
    ∀ t : Term, (t.mapArrays f).mapArrays g = t.mapArrays (g ∘ f)
  | .binary _ left right => by
    simp only [Term.mapArrays, left.mapArrays_mapArrays f g, right.mapArrays_mapArrays f g]
  | .cast _ operand _ => by simp only [Term.mapArrays, operand.mapArrays_mapArrays f g]
  | .constant .. => by simp only [Term.mapArrays]
  | .extract operand _ _ => by simp only [Term.mapArrays, operand.mapArrays_mapArrays f g]
  | .not operand => by simp only [Term.mapArrays, operand.mapArrays_mapArrays f g]
  | .keep operand => by simp only [Term.mapArrays, operand.mapArrays_mapArrays f g]
  | .read _ writes index => by
    simp only [Term.mapArrays, Function.comp_apply, writes.mapArrays_mapArrays f g,
      index.mapArrays_mapArrays f g]
  | .select condition consequent alternate => by
    simp only [Term.mapArrays, condition.mapArrays_mapArrays f g,
      consequent.mapArrays_mapArrays f g, alternate.mapArrays_mapArrays f g]

theorem Writes.mapArrays_mapArrays (f g : SymArray → SymArray) :
    ∀ ws : Writes, (ws.mapArrays f).mapArrays g = ws.mapArrays (g ∘ f)
  | .none => by simp only [Writes.mapArrays]
  | .write older index value => by
    simp only [Writes.mapArrays, older.mapArrays_mapArrays f g, index.mapArrays_mapArrays f g,
      value.mapArrays_mapArrays f g]

end

mutual

theorem Term.mapArrays_congr {f g : SymArray → SymArray} :
    ∀ t : Term, (∀ a ∈ t.arrays, f a = g a) → t.mapArrays f = t.mapArrays g
  | .binary _ left right, h => by
    simp only [Term.arrays, List.forall_mem_append] at h
    simp only [Term.mapArrays, left.mapArrays_congr h.1, right.mapArrays_congr h.2]
  | .cast _ operand _, h => by simp only [Term.mapArrays, operand.mapArrays_congr h]
  | .constant .., _ => by simp only [Term.mapArrays]
  | .extract operand _ _, h => by simp only [Term.mapArrays, operand.mapArrays_congr h]
  | .not operand, h => by simp only [Term.mapArrays, operand.mapArrays_congr h]
  | .keep operand, h => by simp only [Term.mapArrays, operand.mapArrays_congr h]
  | .read _ writes index, h => by
    simp only [Term.arrays, List.forall_mem_cons, List.forall_mem_append] at h
    simp only [Term.mapArrays, h.1, writes.mapArrays_congr h.2.1, index.mapArrays_congr h.2.2]
  | .select condition consequent alternate, h => by
    simp only [Term.arrays, List.forall_mem_append] at h
    simp only [Term.mapArrays, condition.mapArrays_congr h.1.1,
      consequent.mapArrays_congr h.1.2, alternate.mapArrays_congr h.2]

theorem Writes.mapArrays_congr {f g : SymArray → SymArray} :
    ∀ ws : Writes, (∀ a ∈ Term.writesArrays ws, f a = g a) → ws.mapArrays f = ws.mapArrays g
  | .none, _ => by simp only [Writes.mapArrays]
  | .write older index value, h => by
    simp only [Term.writesArrays, List.forall_mem_append] at h
    simp only [Writes.mapArrays, older.mapArrays_congr h.2, index.mapArrays_congr h.1.1,
      value.mapArrays_congr h.1.2]

end

mutual

theorem Term.mapArrays_id : ∀ t : Term, t.mapArrays id = t
  | .binary _ left right => by simp only [Term.mapArrays, left.mapArrays_id, right.mapArrays_id]
  | .cast _ operand _ => by simp only [Term.mapArrays, operand.mapArrays_id]
  | .constant .. => by simp only [Term.mapArrays]
  | .extract operand _ _ => by simp only [Term.mapArrays, operand.mapArrays_id]
  | .not operand => by simp only [Term.mapArrays, operand.mapArrays_id]
  | .keep operand => by simp only [Term.mapArrays, operand.mapArrays_id]
  | .read _ writes index => by
    simp only [Term.mapArrays, id_eq, writes.mapArrays_id, index.mapArrays_id]
  | .select condition consequent alternate => by
    simp only [Term.mapArrays, condition.mapArrays_id, consequent.mapArrays_id,
      alternate.mapArrays_id]

theorem Writes.mapArrays_id : ∀ ws : Writes, ws.mapArrays id = ws
  | .none => by simp only [Writes.mapArrays]
  | .write older index value => by
    simp only [Writes.mapArrays, older.mapArrays_id, index.mapArrays_id, value.mapArrays_id]

end

/-- A map changes a term exactly if it changes one of its arrays. -/
private theorem Term.mapArrays_eq_iff {f g : SymArray → SymArray} {t : Term} :
    t.mapArrays f = t.mapArrays g ↔ ∀ a ∈ t.arrays, f a = g a := by
  refine ⟨fun h => ?_, t.mapArrays_congr⟩
  have arrays := congrArg Term.arrays h
  rw [t.arrays_mapArrays, t.arrays_mapArrays] at arrays
  exact List.map_inj_left.1 arrays

theorem Term.mapArrays_eq_self_iff {f : SymArray → SymArray} {t : Term} :
    t.mapArrays f = t ↔ ∀ a ∈ t.arrays, f a = a := by
  conv_lhs => rhs; rw [← t.mapArrays_id]
  exact mapArrays_eq_iff

namespace Registry

/-- The registry of the given arrays in which an array has the given shadow, if any. -/
def tabulate (as : List SymArray) (image : SymArray → Option SymArray) : Registry :=
  ⟨as.filterMap fun a => (image a).map (a, ·)⟩

private theorem shadow?_tabulate (as : List SymArray) (image : SymArray → Option SymArray) (a : SymArray) :
    (tabulate as image).shadow? a = if a ∈ as then image a else none := by
  unfold shadow? tabulate
  induction as with
  | nil => rfl
  | cons b as ih =>
    cases hb : image b with
    | none =>
      simp only [List.filterMap_cons, hb, Option.map_none, ih, List.mem_cons]
      by_cases hab : a = b
      · simp [hab, hb]
      · simp [hab]
    | some c =>
      simp only [List.filterMap_cons, hb, Option.map_some, List.lookup_cons, ih, List.mem_cons]
      by_cases hab : a = b
      · simp [hab, hb]
      · simp [hab, beq_eq_false_iff_ne.2 hab]

/-- An array has the shadow in the second registry of its shadow in the first one. -/
def andThen (r r' : Registry) : Registry :=
  tabulate (r.entries.map (·.1)) fun a => (r.shadow? a).bind r'.shadow?

theorem shadow?_andThen (r r' : Registry) (a : SymArray) :
    (r.andThen r').shadow? a = (r.shadow? a).bind r'.shadow? := by
  rw [andThen, shadow?_tabulate, ite_eq_left_iff]
  intro ha
  have unknown : r.shadow? a = none := by
    refine List.lookup_eq_none_iff.2 fun x hx => ?_
    simpa using fun h : a = x.1 => ha (List.mem_map.2 ⟨x, hx, h.symm⟩)
  rw [unknown]
  rfl

/-- The registry `r'` leads from the shadows that the given arrays have in `r` back to the arrays. -/
def Undoes (r' r : Registry) (as : List SymArray) : Prop :=
  ∀ a ∈ as, ∀ b, r.shadow? a = some b → r'.shadow? b = some a

/-- Some registry leads back exactly if different arrays have different shadows. -/
private theorem exists_undoes_iff {r : Registry} {as : List SymArray}
    (known : ∀ a ∈ as, (r.shadow? a).isSome) :
    (∃ r' : Registry, r'.Undoes r as) ↔
      ∀ a ∈ as, ∀ a' ∈ as, r.shadow? a = r.shadow? a' → a = a' := by
  constructor
  · rintro ⟨r', back⟩ a ha a' ha' same
    obtain ⟨b, hb⟩ := Option.isSome_iff_exists.1 (known a ha)
    have forth := back a ha b hb
    rw [back a' ha' b (same ▸ hb)] at forth
    exact (Option.some.inj forth).symm
  · intro injective
    refine ⟨tabulate (as.filterMap r.shadow?) fun b => as.find? (r.shadow? · == some b), ?_⟩
    intro a ha b hb
    rw [shadow?_tabulate, if_pos (List.mem_filterMap.2 ⟨a, ha, hb⟩)]
    cases found : as.find? (r.shadow? · == some b) with
    | none => simpa [hb] using List.find?_eq_none.1 found a ha
    | some a' =>
      have hb' : r.shadow? a' = some b := by simpa using List.find?_some found
      have ha' := List.mem_of_find?_eq_some found
      rw [injective a ha a' ha' (hb.trans hb'.symm)]

end Registry

/-- A computation that meets arrays yields its result if all of them have an image. -/
theorem Meets.toOption_run {ε σ α : Type} {image : SymArray → Option SymArray}
    {missing : SymArray → ε} {enter : List SymArray → σ} {m : ExceptT ε (StateM σ) α}
    {as : List SymArray} {a : α} (h : Meets image missing enter m as a) (used : List SymArray) :
    (m.run (enter used)).1.toOption = if ∀ x ∈ as, (image x).isSome then some a else none := by
  obtain ⟨result, used', hrun, met⟩ := h used
  rw [hrun]
  cases met with
  | all known _ => exact (if_pos known).symm
  | lacks hx unknown _ _ =>
    refine (if_neg fun known => ?_).symm
    simpa [unknown] using known _ hx

theorem Meets.toOption_run_eq_some_iff {ε σ α : Type} {image : SymArray → Option SymArray}
    {missing : SymArray → ε} {enter : List SymArray → σ} {m : ExceptT ε (StateM σ) α}
    {as : List SymArray} {a b : α} (h : Meets image missing enter m as a) (used : List SymArray) :
    (m.run (enter used)).1.toOption = some b ↔ (∀ x ∈ as, (image x).isSome) ∧ a = b := by
  rw [h.toOption_run, Option.ite_none_right_eq_some, Option.some.injEq]

/-- The arrays that the address and the offset of a location read. -/
def Location.arrays (l : Location) : List SymArray :=
  l.address.arrays ++ l.offset.arrays

theorem Substitution.meets_location (image : SymArray → Option SymArray) (l : Location) :
    Meets image id id (l.substitute image) l.arrays
      (l.address.mapArrays (imageOr image), l.offset.mapArrays (imageOr image)) :=
  (l.address.meets_substitute image).bind ((l.offset.meets_substitute image).map _)

section Composition

variable {r r' : Registry} {as : List SymArray}

private theorem isSome_shadow?_andThen (known : ∀ a ∈ as, (r.shadow? a).isSome) :
    (∀ b ∈ as.map (imageOr r.shadow?), (r'.shadow? b).isSome) ↔
      ∀ a ∈ as, ((r.andThen r').shadow? a).isSome := by
  rw [List.forall_mem_map]
  refine forall₂_congr fun a ha => ?_
  obtain ⟨b, hb⟩ := Option.isSome_iff_exists.1 (known a ha)
  simp [Registry.shadow?_andThen, imageOr, hb]

private theorem imageOr_andThen {a : SymArray} (h : ((r.andThen r').shadow? a).isSome) :
    imageOr r'.shadow? (imageOr r.shadow? a) = imageOr (r.andThen r').shadow? a := by
  rw [Registry.shadow?_andThen] at h
  obtain ⟨c, hc⟩ := Option.isSome_iff_exists.1 h
  obtain ⟨b, hb, hc⟩ := Option.bind_eq_some_iff.1 hc
  simp [imageOr, Registry.shadow?_andThen, hb, hc]

theorem Term.mapArrays_andThen {t : Term}
    (known : ∀ a ∈ t.arrays, ((r.andThen r').shadow? a).isSome) :
    (t.mapArrays (imageOr r.shadow?)).mapArrays (imageOr r'.shadow?) =
      t.mapArrays (imageOr (r.andThen r').shadow?) := by
  rw [t.mapArrays_mapArrays]
  exact t.mapArrays_congr fun a ha => imageOr_andThen (known a ha)

/-- Leading back is having all shadows at hand and putting every array in its own place. -/
theorem undoes_iff (known : ∀ a ∈ as, (r.shadow? a).isSome) :
    r'.Undoes r as ↔ (∀ a ∈ as, ((r.andThen r').shadow? a).isSome) ∧
      ∀ a ∈ as, imageOr (r.andThen r').shadow? a = a := by
  rw [← forall₂_and]
  refine forall₂_congr fun a ha => ?_
  obtain ⟨b, hb⟩ := Option.isSome_iff_exists.1 (known a ha)
  cases hc : r'.shadow? b <;> simp [Registry.shadow?_andThen, imageOr, hb, hc]

/-- Meeting shadows with the second registry comes to the same as meeting the arrays with both. -/
theorem Meets.toOption_andThen {α : Type} {m m' : Substitution α} {x y : α}
    (known : ∀ a ∈ as, (r.shadow? a).isSome)
    (h : Meets r'.shadow? id id m (as.map (imageOr r.shadow?)) x)
    (h' : Meets (r.andThen r').shadow? id id m' as y)
    (same : (∀ a ∈ as, ((r.andThen r').shadow? a).isSome) → x = y) (used used' : List SymArray) :
    (m.run used).1.toOption = (m'.run used').1.toOption := by
  refine (h.toOption_run used).trans (.trans ?_ (h'.toOption_run used').symm)
  rw [if_congr (isSome_shadow?_andThen known) rfl rfl]
  split
  · rename_i all
    rw [same all]
  · rfl

end Composition

namespace Registry

variable {r r' : Registry} {t : Term} {l l' : Location}

private theorem toOption_term_andThen (known : ∀ a ∈ t.arrays, (r.shadow? a).isSome)
    (used used' : List SymArray) :
    (((t.mapArrays (imageOr r.shadow?)).substitute r'.shadow?).run used).1.toOption =
      ((t.substitute (r.andThen r').shadow?).run used').1.toOption := by
  have meets := (t.mapArrays (imageOr r.shadow?)).meets_substitute r'.shadow?
  rw [t.arrays_mapArrays] at meets
  exact meets.toOption_andThen known (t.meets_substitute _) Term.mapArrays_andThen used used'

private theorem toOption_term_undone (known : ∀ a ∈ t.arrays, (r.shadow? a).isSome)
    (used : List SymArray) :
    ((t.substitute (r.andThen r').shadow?).run used).1.toOption = some t ↔
      r'.Undoes r t.arrays := by
  rw [undoes_iff known, ← Term.mapArrays_eq_self_iff]
  exact (t.meets_substitute _).toOption_run_eq_some_iff used

private theorem toOption_location_andThen (known : ∀ a ∈ l.arrays, (r.shadow? a).isSome)
    (ha : l'.address = l.address.mapArrays (imageOr r.shadow?))
    (ho : l'.offset = l.offset.mapArrays (imageOr r.shadow?)) (used used' : List SymArray) :
    ((l'.substitute r'.shadow?).run used).1.toOption =
      ((l.substitute (r.andThen r').shadow?).run used').1.toOption := by
  have arrays : l'.arrays = l.arrays.map (imageOr r.shadow?) := by
    simp [Location.arrays, ha, ho, Term.arrays_mapArrays]
  have meets := Substitution.meets_location r'.shadow? l'
  rw [arrays] at meets
  refine meets.toOption_andThen known (Substitution.meets_location _ l) (fun all => ?_) used used'
  obtain ⟨address, offset⟩ := List.forall_mem_append.1 all
  rw [ha, ho, Term.mapArrays_andThen address, Term.mapArrays_andThen offset]

private theorem toOption_location_undone (known : ∀ a ∈ l.arrays, (r.shadow? a).isSome)
    (used : List SymArray) :
    ((l.substitute (r.andThen r').shadow?).run used).1.toOption = some (l.address, l.offset) ↔
      r'.Undoes r l.arrays := by
  rw [undoes_iff known, Location.arrays, List.forall_mem_append (p := fun a => imageOr _ a = a),
    ← Term.mapArrays_eq_self_iff, ← Term.mapArrays_eq_self_iff, ← Prod.mk.injEq]
  exact (Substitution.meets_location _ l).toOption_run_eq_some_iff used

end Registry

namespace State

/-- The identities of core locations were taken from the supply. -/
def Issued (s : State) : Prop :=
  ∀ i ∈ s.marks.locations, i < s.next

/-- All there is to a location besides its identity: the site, whether it is core, the address and
the offset. -/
def profile (s : State) (l : Location) : Value × Bool × Term × Term :=
  (l.site, s.marks.isCoreLocation l, l.address, l.offset)

end State

namespace Recorder

/-- What there is to a copy, if there is one. -/
def profile? (copied : (Except SymArray Location × List SymArray) × State) :
    Option (Value × Bool × Term × Term) :=
  copied.1.1.toOption.map copied.2.profile

variable {s s' : State} {l l' : Location} {used used' : List SymArray}
  {image : SymArray → Option SymArray}

private theorem shadowCopy_run (image : SymArray → Option SymArray) (l : Location) (used : List SymArray)
    (s : State) :
    (shadowCopy image l used).run s =
      match (l.substitute image).run used with
      | (.ok (x, y), used') => ((.ok (relocate l x y s).1, used'), (relocate l x y s).2)
      | (.error a, used') => ((.error a, used'), s) := by
  unfold shadowCopy
  obtain ⟨result, used'⟩ := (l.substitute image).run used
  cases result <;> rfl

/-- A new location of the object of another one is core if that is. -/
private theorem profile_relocate (h : s.Issued) (x y : Term) :
    (relocate l x y s).2.profile (relocate l x y s).1 =
      (l.site, s.marks.isCoreLocation l, x, y) := by
  have new : s.next ∉ s.marks.locations := fun hi => Nat.lt_irrefl _ (h _ hi)
  rw [relocate_run]
  cases core : s.marks.isCoreLocation l <;>
    simp [State.profile, Marks.isCoreLocation, Marks.addLocation,
      Ascending.mem_insert_compare_iff, new]

private theorem issued_relocate (h : s.Issued) (x y : Term) : (relocate l x y s).2.Issued := by
  intro i hi
  rw [relocate_run] at hi ⊢
  dsimp only at hi ⊢
  split at hi
  · rcases Ascending.mem_of_mem_insert hi with rfl | hi
    · exact Nat.lt_succ_self s.next
    · exact Nat.lt_succ_of_lt (h i hi)
  · exact Nat.lt_succ_of_lt (h i hi)

/-- A copy has the site of the location, is core if that is, and is over shadows. -/
theorem profile?_shadowCopy (h : s.Issued) (image : SymArray → Option SymArray) (l : Location)
    (used : List SymArray) :
    profile? ((shadowCopy image l used).run s) =
      ((l.substitute image).run used).1.toOption.map
        fun x => (l.site, s.marks.isCoreLocation l, x.1, x.2) := by
  rw [shadowCopy_run]
  split
  · rename_i hx
    rw [hx]
    exact congrArg some (profile_relocate h _ _)
  · rename_i hx
    rw [hx]
    rfl

/-- What is copied is over shadows, and all its arrays have some. -/
private theorem shadowCopy_ok (h : s.Issued)
    (hcopy : (shadowCopy image l used).run s = ((.ok l', used'), s')) :
    s'.Issued ∧ (∀ a ∈ l.arrays, (image a).isSome) ∧ l'.site = l.site ∧
      s'.marks.isCoreLocation l' = s.marks.isCoreLocation l ∧
      l'.address = l.address.mapArrays (imageOr image) ∧
      l'.offset = l.offset.mapArrays (imageOr image) := by
  have profile := profile?_shadowCopy h image l used
  rw [hcopy] at profile
  obtain ⟨⟨x, y⟩, hx, profile⟩ := Option.map_eq_some_iff.1 profile.symm
  obtain ⟨known, terms⟩ := ((Substitution.meets_location image l).toOption_run_eq_some_iff used).1 hx
  simp only [State.profile, Prod.mk.injEq] at profile terms
  obtain ⟨site, core, address, offset⟩ := profile
  refine ⟨?_, known, site.symm, core.symm, (terms.1.trans address).symm,
    (terms.2.trans offset).symm⟩
  rw [shadowCopy_run] at hcopy
  split at hcopy <;> cases hcopy
  exact issued_relocate h _ _

end Recorder

/-! Every state that events lead to has issued the identities of its core locations. -/

namespace Marks

/-- Core locations have identities below the given one, unless they are core to some frame. -/
def Accounted (n : Nat) (m : Marks) : Prop :=
  ∀ i ∈ m.locations, i < n ∨ ∃ x ∈ m.frames, x.2.id = i

private theorem Accounted.addSinks {n : Nat} {m : Marks} (h : m.Accounted n) (frame : Nat)
    (ls : List Location) :
    (ls.foldl (fun m l => (m.addLocation l).addToFrame frame l) m).Accounted n := by
  induction ls generalizing m with
  | nil => exact h
  | cons l ls ih =>
    apply ih
    intro i hi
    rcases Ascending.mem_of_mem_insert hi with rfl | hi
    · exact .inr ⟨(frame, l), List.mem_cons_self, rfl⟩
    · refine (h i hi).imp_right fun ⟨x, hx, hxi⟩ => ⟨x, List.mem_cons_of_mem _ hx, hxi⟩

private theorem accounted_foldl_addVersion {n : Nat} (vs : List Version) {m : Marks} :
    (vs.foldl addVersion m).Accounted n ↔ m.Accounted n := by
  induction vs generalizing m with
  | nil => rfl
  | cons v vs ih => exact ih

end Marks

namespace Recorder

private theorem accounted_coreSinks {n : Nat} (fs : List Frame) (g : Support.Graph) {s : State}
    (h : s.marks.Accounted n) : (coreSinks g fs s).2.marks.Accounted n := by
  induction fs generalizing g s with
  | nil => exact h
  | cons f parents ih =>
    have sinks := h.addSinks f.id g.sortedSinks
    cases parents with
    | nil => exact sinks
    | cons f' parents => exact ih _ sinks

end Recorder

theorem Move.issued {n : Nat} {s t : State} (h : Move n s t) (hi : s.Issued) (hc : Cored t) :
    t.Issued := by
  have before : s.marks.Accounted s.next := fun i hm => .inl (hi i hm)
  -- A slice marks locations and makes them core to frames at once, and those are of the path.
  have sliced (hn : t.next = s.next) (accounted : t.marks.Accounted s.next) : t.Issued := by
    intro i hm
    rcases accounted i hm with hm | ⟨x, hx, rfl⟩
    · exact hn ▸ hm
    · exact hc.locations_lt x hx
  cases h with
  | version | location => exact fun i hm => Nat.lt_succ_of_lt (hi i hm)
  | pointer | deposit | flow | passage | notice => exact hi
  | @element base x hb hx =>
    have moved := Recorder.issued_relocate (l := base) hi x (base.displaced (x.sub base.address))
    rw [Recorder.relocate_run] at moved
    rw [Recorder.elementAt_run hx]
    exact moved
  | @slice v hv =>
    refine sliced (Recorder.sliceFrom_state v s).2.1 ?_
    exact Recorder.accounted_coreSinks s.path.frames (s.path.addSupport {} v).graph
      ((Marks.accounted_foldl_addVersion (s.path.closure v)).2 before)
  | sliceIdly =>
    exact sliced (Recorder.sliceIdly_state s).2.1
      (Recorder.accounted_coreSinks s.path.frames {} before)

theorem Moves.issued {n : Nat} {s t : State} (h : Moves n s t) (hi : s.Issued) (hc : Cored s)
    (hr : Recorded s) (hl : s.path.Layered n) : t.Issued := by
  induction h with
  | refl => exact hi
  | tail h hm ih =>
    have h : Moves n s _ := h
    exact hm.issued ih (hc.moves hr hl (h.tail hm))

theorem Turn.issued {e : Event} {s t : State} (h : Turn e s t) (hi : s.Issued) (hc : Cored s)
    (hs : Standing s) : t.Issued := by
  cases h with
  | effect _ hm => exact hm.issued hi hc hs.settled.toRecorded hs.settled.layered
  | fork => exact fun i hm => Nat.lt_add_right 2 (hi i hm)
  | backtrack => exact fun i hm => Nat.lt_succ_of_lt (hi i hm)
  | idle => exact hi

/-- Whatever the events, core locations have identities from the supply. -/
private theorem Replay.pursue_issued (program : Program) (next : Nat) (existential : Bool)
    (events : List Event) : (pursue 0 events (start program next existential)).2.state.Issued :=
  (pursue_invariant (P := fun s => Cored s ∧ s.Issued)
    (fun hs ht h => ⟨h.1.turn hs ht, ht.issued h.2 h.1 hs⟩)
    (start_standing program next existential)
    ⟨start_cored program next existential, fun _ hi => absurd hi List.not_mem_nil⟩ 0 events).2

namespace Registry

/-- One registry after another, whatever shadows were used before. A term that is over shadows of the
first can be put over shadows of the second if and only if it can be put over shadows of shadows at
once, with the same result. That is the term itself exactly if the second registry leads back from
the shadows of the arrays that the term reads, and some registry does so exactly if they have
different shadows. The same holds of the address and the offset of a copy of a location, which keeps
the site and is core if the location is, in every state that issued the identities of its core
locations. All states that events lead to are such. -/
theorem andThen_exact (r r' : Registry) (used used' used'' : List SymArray) :
    (∀ a, (r.andThen r').shadow? a = (r.shadow? a).bind r'.shadow?) ∧
    (∀ t t' : Term, ((t.substitute r.shadow?).run used).1 = .ok t' →
      let again := ((t'.substitute r'.shadow?).run used').1.toOption
      again = ((t.substitute (r.andThen r').shadow?).run used'').1.toOption ∧
      (again = some t ↔ r'.Undoes r t.arrays) ∧
      ((∃ back : Registry, back.Undoes r t.arrays) ↔
        ∀ a ∈ t.arrays, ∀ b ∈ t.arrays, r.shadow? a = r.shadow? b → a = b)) ∧
    (∀ (s s' : State) l l' us, s.Issued →
      (Recorder.shadowCopy r.shadow? l used).run s = ((.ok l', us), s') →
      let again := Recorder.profile? ((Recorder.shadowCopy r'.shadow? l' used').run s')
      l'.site = l.site ∧ s'.marks.isCoreLocation l' = s.marks.isCoreLocation l ∧
      again = Recorder.profile? ((Recorder.shadowCopy (r.andThen r').shadow? l used'').run s) ∧
      (again = some (s.profile l) ↔ r'.Undoes r l.arrays)) ∧
    ∀ program next existential events,
      (Replay.pursue 0 events (Replay.start program next existential)).2.state.Issued := by
  refine ⟨shadow?_andThen r r', fun t t' ht => ?_, fun s s' l l' us hs hcopy => ?_,
    Replay.pursue_issued⟩
  · obtain ⟨known, rfl⟩ := ((t.meets_substitute r.shadow?).toOption_run_eq_some_iff used).1
      (congrArg Except.toOption ht)
    refine ⟨toOption_term_andThen known used' used'', ?_, exists_undoes_iff known⟩
    rw [toOption_term_andThen known used' used'']
    exact toOption_term_undone known used''
  · obtain ⟨issued, known, site, core, address, offset⟩ := Recorder.shadowCopy_ok hs hcopy
    have twice : Recorder.profile? ((Recorder.shadowCopy r'.shadow? l' used').run s') =
        Recorder.profile? ((Recorder.shadowCopy (r.andThen r').shadow? l used'').run s) := by
      rw [Recorder.profile?_shadowCopy issued, Recorder.profile?_shadowCopy hs, site, core,
        toOption_location_andThen known address offset used' used'']
    refine ⟨site, core, twice, ?_⟩
    rw [twice, Recorder.profile?_shadowCopy hs, ← toOption_location_undone known used'']
    simp [State.profile, Prod.ext_iff]

namespace ThereAndBack

def initial : SymArray := ⟨"initial", 8⟩

def shadowed : SymArray := ⟨"shadowed", 8⟩

/-- The byte at one place of an array, after it was written to the place before. -/
def moved (a : SymArray) : Term :=
  .read a (.write .none (.pointer 3) (.read a .none (.pointer 4))) (.pointer 4)

def slot : Location :=
  ⟨5, ⟨1, "p", .instruction .alloca "main" [], .pointer⟩, moved initial, .pointer 0⟩

/-- The slot is core. -/
def state : State :=
  { next := 7, path := .root 6, marks := { locations := [5] } }

def forth : Registry :=
  ({} : Registry).register initial shadowed

def back : Registry :=
  ({} : Registry).register shadowed initial

end ThereAndBack

open ThereAndBack in
/-- A core location at a symbolic address, copied over shadows and the copy copied back. -/
theorem andThen_exact_thereAndBack :
    state.Issued ∧ ∃ copy us s, (Recorder.shadowCopy forth.shadow? slot []).run state =
        ((.ok copy, us), s) ∧ copy.address = moved shadowed ∧ s.marks.isCoreLocation copy ∧
      Recorder.profile? ((Recorder.shadowCopy back.shadow? copy []).run s) =
        some (state.profile slot) := by
  have issued : state.Issued := by
    unfold State.Issued
    decide
  refine ⟨issued, _, _, _, rfl, rfl, rfl, ?_⟩
  refine ((andThen_exact forth back [] [] []).2.2.1 state _ slot _ _ issued rfl).2.2.2.2 ?_
  unfold Undoes
  decide

end Registry

end PathSlice
