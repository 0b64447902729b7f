import Mathlib.Data.List.Pairwise
import Mathlib.Order.Basic
import Mathlib.Tactic.Push
import PathSlice.Order.Ascending

/-! Ascending lists whose elements are compared by a numeric key. `insert` and `put` keep such a list
strictly ascending, so it holds at most one element for a key, and its members are known exactly. -/
namespace PathSlice.Ascending

variable {α β : Type}

/-- The keys of the list are strictly ascending. -/
def Sorted (key : α → Nat) (l : List α) : Prop :=
  l.Pairwise fun a b => key a < key b

theorem compareOn_eq_lt {key : α → Nat} {a b : α} :
    compareOn key a b = .lt ↔ key a < key b :=
  Nat.compare_eq_lt

theorem compareOn_eq_eq {key : α → Nat} {a b : α} :
    compareOn key a b = .eq ↔ key a = key b :=
  Nat.compare_eq_eq

theorem compareOn_eq_gt {key : α → Nat} {a b : α} :
    compareOn key a b = .gt ↔ key b < key a :=
  Nat.compare_eq_gt

section Members

variable {key : α → Nat} {a x : α} {l : List α}

/-- An element is added exactly if its key is new. -/
theorem mem_insert_iff (h : Sorted key l) :
    x ∈ insert (compareOn key) a l ↔ x ∈ l ∨ (x = a ∧ ∀ b ∈ l, key b ≠ key a) := by
  induction l with
  | nil => simp [insert]
  | cons b l ih =>
    obtain ⟨hb, hl⟩ := List.pairwise_cons.1 h
    simp only [insert]
    split
    · rename_i hc
      have hab := compareOn_eq_lt.1 hc
      have hnew : ∀ c ∈ b :: l, key c ≠ key a := by
        intro c hc
        rcases List.mem_cons.1 hc with rfl | hc
        · omega
        · have := hb c hc
          omega
      rw [List.mem_cons, or_comm]
      exact or_congr_right ⟨fun hx => ⟨hx, hnew⟩, fun hx => hx.1⟩
    · rename_i hc
      have hab := compareOn_eq_eq.1 hc
      exact ⟨.inl, fun hx => hx.elim id fun hx => absurd hab.symm (hx.2 b List.mem_cons_self)⟩
    · rename_i hc
      have hab := compareOn_eq_gt.1 hc
      have hne : key b ≠ key a := by omega
      rw [List.mem_cons, ih hl, List.mem_cons, List.forall_mem_cons, or_assoc]
      simp [hne]

theorem sorted_insert (h : Sorted key l) : Sorted key (insert (compareOn key) a l) := by
  induction l with
  | nil => exact List.pairwise_singleton _ a
  | cons b l ih =>
    obtain ⟨hb, hl⟩ := List.pairwise_cons.1 h
    simp only [insert]
    split
    · rename_i hc
      have hab := compareOn_eq_lt.1 hc
      refine List.pairwise_cons.2 ⟨fun c hc => ?_, h⟩
      rcases List.mem_cons.1 hc with rfl | hc
      · exact hab
      · exact Nat.lt_trans hab (hb c hc)
    · exact h
    · rename_i hc
      refine List.pairwise_cons.2 ⟨fun c hc' => ?_, ih hl⟩
      rcases mem_of_mem_insert hc' with rfl | hc'
      · exact compareOn_eq_gt.1 hc
      · exact hb c hc'

/-- A key is there afterwards exactly if it was there or is the key added. -/
theorem exists_key_insert_iff (h : Sorted key l) {k : Nat} :
    (∃ x ∈ insert (compareOn key) a l, key x = k) ↔ key a = k ∨ ∃ x ∈ l, key x = k := by
  constructor
  · rintro ⟨x, hx, rfl⟩
    rcases mem_of_mem_insert hx with rfl | hx
    · exact .inl rfl
    · exact .inr ⟨x, hx, rfl⟩
  · rintro (rfl | ⟨x, hx, rfl⟩)
    · by_cases hn : ∀ b ∈ l, key b ≠ key a
      · exact ⟨a, (mem_insert_iff h).2 (.inr ⟨rfl, hn⟩), rfl⟩
      · push Not at hn
        obtain ⟨b, hb, hk⟩ := hn
        exact ⟨b, mem_insert_of_mem hb, hk⟩
    · exact ⟨x, mem_insert_of_mem hx, rfl⟩

/-- If only equal elements compare equal, an element is there afterwards exactly if it was there or
is the one added. -/
theorem mem_insert_iff_of_eq {cmp : α → α → Ordering} (h : ∀ {a b}, cmp a b = .eq → a = b) :
    x ∈ insert cmp a l ↔ x = a ∨ x ∈ l := by
  induction l with
  | nil => simp [insert]
  | cons b l ih =>
    simp only [insert]
    split
    · simp
    · rename_i hb
      simp [h hb]
    · rw [List.mem_cons, ih, List.mem_cons]
      exact or_left_comm

theorem mem_insert_compare_iff {k n : Nat} {ns : List Nat} :
    k ∈ insert compare n ns ↔ k = n ∨ k ∈ ns :=
  mem_insert_iff_of_eq Nat.compare_eq_eq.1

/-- Putting an element takes away the one that had its key. -/
theorem mem_put_iff (h : Sorted key l) :
    x ∈ put (compareOn key) a l ↔ x = a ∨ (x ∈ l ∧ key x ≠ key a) := by
  induction l with
  | nil => simp [put]
  | cons b l ih =>
    obtain ⟨hb, hl⟩ := List.pairwise_cons.1 h
    simp only [put]
    split
    · rename_i hc
      have hab := compareOn_eq_lt.1 hc
      refine List.mem_cons.trans (or_congr_right ⟨fun hx => ⟨hx, ?_⟩, fun hx => hx.1⟩)
      rcases List.mem_cons.1 hx with rfl | hx
      · omega
      · have := hb x hx
        omega
    · rename_i hc
      have hab := compareOn_eq_eq.1 hc
      refine List.mem_cons.trans (or_congr_right ⟨fun hx => ?_, fun hx => ?_⟩)
      · have := hb x hx
        exact ⟨List.mem_cons_of_mem b hx, by omega⟩
      · exact (List.mem_cons.1 hx.1).resolve_left fun hxb => hx.2 (by rw [hxb, hab])
    · rename_i hc
      have hab := compareOn_eq_gt.1 hc
      have hne : key b ≠ key a := by omega
      rw [List.mem_cons, ih hl, List.mem_cons]
      constructor
      · rintro (rfl | rfl | hx)
        · exact .inr ⟨.inl rfl, hne⟩
        · exact .inl rfl
        · exact .inr ⟨.inr hx.1, hx.2⟩
      · rintro (rfl | ⟨rfl | hx, hxa⟩)
        · exact .inr (.inl rfl)
        · exact .inl rfl
        · exact .inr (.inr ⟨hx, hxa⟩)

theorem sorted_put (h : Sorted key l) : Sorted key (put (compareOn key) a l) := by
  induction l with
  | nil => exact List.pairwise_singleton _ a
  | cons b l ih =>
    obtain ⟨hb, hl⟩ := List.pairwise_cons.1 h
    simp only [put]
    split
    · rename_i hc
      have hab := compareOn_eq_lt.1 hc
      refine List.pairwise_cons.2 ⟨fun c hc => ?_, h⟩
      rcases List.mem_cons.1 hc with rfl | hc
      · exact hab
      · exact Nat.lt_trans hab (hb c hc)
    · rename_i hc
      have hab := compareOn_eq_eq.1 hc
      exact List.pairwise_cons.2 ⟨fun c hc => hab ▸ hb c hc, hl⟩
    · rename_i hc
      refine List.pairwise_cons.2 ⟨fun c hc' => ?_, ih hl⟩
      rcases mem_of_mem_put hc' with rfl | hc'
      · exact compareOn_eq_gt.1 hc
      · exact hb c hc'

theorem eq_of_key_eq (h : Sorted key l) {y : α} (hx : x ∈ l) (hy : y ∈ l) (hk : key x = key y) :
    x = y := by
  induction l with
  | nil => simp at hx
  | cons b l ih =>
    obtain ⟨hb, hl⟩ := List.pairwise_cons.1 h
    rcases List.mem_cons.1 hx with rfl | hxl <;> rcases List.mem_cons.1 hy with rfl | hyl
    · rfl
    · have := hb y hyl
      omega
    · have := hb x hxl
      omega
    · exact ih hl hxl hyl

end Members

section OfList

variable {key : α → Nat} {x : α} {l : List α}

private theorem foldl_insert_mem {cmp : α → α → Ordering} {acc : List α}
    (h : x ∈ l.foldl (fun acc a => insert cmp a acc) acc) : x ∈ acc ∨ x ∈ l := by
  induction l generalizing acc with
  | nil => exact .inl h
  | cons a l ih =>
    rcases ih h with h | h
    · rcases mem_of_mem_insert h with rfl | h
      · exact .inr List.mem_cons_self
      · exact .inl h
    · exact .inr (List.mem_cons_of_mem a h)

private theorem foldl_insert_spec {acc : List α} (h : Sorted key acc) :
    Sorted key (l.foldl (fun acc a => insert (compareOn key) a acc) acc) ∧ ∀ k,
      (∃ x ∈ l.foldl (fun acc a => insert (compareOn key) a acc) acc, key x = k) ↔
        (∃ x ∈ acc, key x = k) ∨ ∃ x ∈ l, key x = k := by
  induction l generalizing acc with
  | nil => exact ⟨h, fun k => by simp⟩
  | cons a l ih =>
    obtain ⟨hs, hk⟩ := ih (sorted_insert (a := a) h)
    refine ⟨hs, fun k => (hk k).trans ?_⟩
    rw [exists_key_insert_iff h]
    constructor
    · rintro ((hx | hx) | ⟨x, hx, hxk⟩)
      · exact .inr ⟨a, List.mem_cons_self, hx⟩
      · exact .inl hx
      · exact .inr ⟨x, List.mem_cons_of_mem a hx, hxk⟩
    · rintro (hx | ⟨x, hx, hxk⟩)
      · exact .inl (.inr hx)
      · rcases List.mem_cons.1 hx with rfl | hx
        · exact .inl (.inl hxk)
        · exact .inr ⟨x, hx, hxk⟩

theorem mem_of_mem_ofList {cmp : α → α → Ordering} (h : x ∈ ofList cmp l) : x ∈ l :=
  (foldl_insert_mem h).resolve_left List.not_mem_nil

theorem sorted_ofList : Sorted key (ofList (compareOn key) l) :=
  (foldl_insert_spec List.Pairwise.nil).1

theorem exists_key_ofList_iff {k : Nat} :
    (∃ x ∈ ofList (compareOn key) l, key x = k) ↔ ∃ x ∈ l, key x = k := by
  refine ((foldl_insert_spec List.Pairwise.nil).2 k).trans ?_
  simp

/-- No element is lost if no two have the same key. -/
theorem mem_ofList_iff (h : l.Pairwise fun a b => key a ≠ key b) :
    x ∈ ofList (compareOn key) l ↔ x ∈ l := by
  refine ⟨mem_of_mem_ofList, fun hx => ?_⟩
  obtain ⟨y, hy, hk⟩ := exists_key_ofList_iff.2 ⟨x, hx, rfl⟩
  have : Std.Symm fun a b : α => key a ≠ key b := ⟨fun _ _ hab => hab.symm⟩
  have hyx : y = x := by
    by_contra hne
    exact h.forall (mem_of_mem_ofList hy) hx hne hk
  exact hyx ▸ hy

end OfList

section Map

variable {cmp : α → α → Ordering} {cmp' : β → β → Ordering} {f : α → β}

theorem insert_map (h : ∀ x y, cmp' (f x) (f y) = cmp x y) (a : α) (l : List α) :
    insert cmp' (f a) (l.map f) = (insert cmp a l).map f := by
  induction l with
  | nil => rfl
  | cons b l ih =>
    simp only [List.map_cons, insert, h]
    cases cmp a b with
    | lt => rfl
    | eq => rfl
    | gt => rw [List.map_cons, ih]

theorem put_map (h : ∀ x y, cmp' (f x) (f y) = cmp x y) (a : α) (l : List α) :
    put cmp' (f a) (l.map f) = (put cmp a l).map f := by
  induction l with
  | nil => rfl
  | cons b l ih =>
    simp only [List.map_cons, put, h]
    cases cmp a b with
    | lt => rfl
    | eq => rfl
    | gt => rw [List.map_cons, ih]

theorem ofList_map (h : ∀ x y, cmp' (f x) (f y) = cmp x y) (l : List α) :
    ofList cmp' (l.map f) = (ofList cmp l).map f := by
  have key : ∀ acc, (l.map f).foldl (fun acc a => insert cmp' a acc) (acc.map f) =
      (l.foldl (fun acc a => insert cmp a acc) acc).map f := by
    induction l with
    | nil => intro acc; rfl
    | cons a l ih => intro acc; rw [List.map_cons, List.foldl_cons, insert_map h, ih]; rfl
  exact key []

end Map

/-- Two ascending lists with the same members are equal. -/
theorem eq_of_mem_iff {key : α → Nat} {l l' : List α} (h : Sorted key l) (h' : Sorted key l')
    (hm : ∀ x, x ∈ l ↔ x ∈ l') : l = l' := by
  have nodup : ∀ {m : List α}, Sorted key m → m.Nodup := by
    intro m hs
    exact hs.imp fun hab => ne_of_apply_ne key (Nat.ne_of_lt hab)
  refine List.Perm.eq_of_pairwise ?_ h h' ((List.perm_ext_iff_of_nodup (nodup h) (nodup h')).2 hm)
  intro a b _ _ hab hba
  exact absurd hab (Nat.lt_asymm hba)

end PathSlice.Ascending
