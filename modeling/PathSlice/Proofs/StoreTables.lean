import Mathlib.Data.List.Induction
import Mathlib.Data.List.Perm.Subperm
import PathSlice.Proofs.AscendingLists
import PathSlice.Slice.Stores

/-! Tables of stores by site. A table has one group for a site. The group of symbolic stores lists
those of the site in their order, and the group of concrete stores has for every address the last
store that was made there. -/
namespace PathSlice

namespace Ascending

variable {α : Type} {key : α → Nat} {l : List α} {k : Nat} {x : α}

/-- Looking a key up in an ascending list finds the element with that key. -/
theorem find?_eq_some_iff (h : Sorted key l) :
    l.find? (key · == k) = some x ↔ x ∈ l ∧ key x = k := by
  constructor
  · intro hx
    have := List.find?_some hx
    exact ⟨List.mem_of_find?_eq_some hx, by simpa using this⟩
  · rintro ⟨hx, rfl⟩
    cases hf : l.find? (key · == key x) with
    | none =>
      have := List.find?_eq_none.1 hf x hx
      simp at this
    | some y =>
      have hk := List.find?_some hf
      exact congrArg some (eq_of_key_eq h (List.mem_of_find?_eq_some hf) hx (by simpa using hk))

private theorem find?_put (h : Sorted key l) (a : α) :
    (put (compareOn key) a l).find? (key · == k) =
      if key a = k then some a else l.find? (key · == k) := by
  refine Option.ext fun x => ?_
  rw [find?_eq_some_iff (sorted_put h), mem_put_iff h]
  split
  · rename_i ha
    rw [Option.some_inj]
    constructor
    · rintro ⟨rfl | ⟨_, hne⟩, hk⟩
      · rfl
      · exact absurd (hk.trans ha.symm) hne
    · rintro rfl
      exact ⟨.inl rfl, ha⟩
  · rename_i ha
    rw [find?_eq_some_iff h]
    constructor
    · rintro ⟨rfl | ⟨hx, _⟩, hk⟩
      · exact absurd hk ha
      · exact ⟨hx, hk⟩
    · rintro ⟨hx, rfl⟩
      exact ⟨.inr ⟨hx, Ne.symm ha⟩, rfl⟩

/-- Words are compared like the numbers they stand for. -/
private theorem compareOn_uint64 (f : α → UInt64) : compareOn f = compareOn fun a => (f a).toNat := by
  funext a b
  have lt : f a < f b ↔ (f a).toNat < (f b).toNat := UInt64.lt_iff_toNat_lt
  have eq : f a = f b ↔ (f a).toNat = (f b).toNat := UInt64.toNat_inj.symm
  change compareOfLessAndEq (f a) (f b) = compareOfLessAndEq (f a).toNat (f b).toNat
  simp only [compareOfLessAndEq, lt, eq]

end Ascending

namespace Store

variable {α : Type} {gs : List (Group α)} {site : Value}

/-- A table has one group for a site. -/
abbrev Grouped (gs : List (Group α)) : Prop :=
  Ascending.Sorted (fun g : Group α => g.site.id) gs

private theorem groupOf_congr {other : Value} (h : other.id = site.id) :
    groupOf other gs = groupOf site gs := by
  simp only [groupOf, h]

private theorem groupOf_updateGroup (h : Grouped gs) (site other : Value) (change : List α → List α) :
    groupOf site (updateGroup other change gs) =
      if other.id = site.id then change (groupOf site gs) else groupOf site gs := by
  unfold updateGroup
  rw [groupOf, Ascending.find?_put h]
  split
  · rename_i hi
    rw [groupOf_congr hi]
    rfl
  · rfl

private theorem grouped_updateGroup (h : Grouped gs) (site : Value) (change : List α → List α) :
    Grouped (updateGroup site change gs) :=
  Ascending.sorted_put h

/-- Every group of a table is found under its site. -/
theorem groupOf_of_mem (h : Grouped gs) {g : Group α} (hg : g ∈ gs) :
    groupOf g.site gs = g.stores := by
  have found : gs.find? (·.site.id == g.site.id) = some g :=
    (Ascending.find?_eq_some_iff h).2 ⟨hg, rfl⟩
  simp [groupOf, found]

/-- A group that lists something is in the table. -/
theorem exists_group {a : α} (h : a ∈ groupOf site gs) :
    ∃ g ∈ gs, g.site.id = site.id ∧ g.stores = groupOf site gs := by
  unfold groupOf at h ⊢
  cases hf : gs.find? (·.site.id == site.id) with
  | none => simp [hf] at h
  | some g =>
    have hi := List.find?_some hf
    exact ⟨g, List.mem_of_find?_eq_some hf, by simpa using hi, rfl⟩

/-- The table lists something under a site. -/
def Lists (gs : List (Group α)) (site : Value) (a : α) : Prop :=
  ∃ g ∈ gs, g.site.id = site.id ∧ a ∈ g.stores

private theorem lists_iff (h : Grouped gs) {a : α} : Lists gs site a ↔ a ∈ groupOf site gs := by
  constructor
  · rintro ⟨g, hg, hi, ha⟩
    rwa [← groupOf_congr hi, groupOf_of_mem h hg]
  · intro ha
    obtain ⟨g, hg, hi, hs⟩ := exists_group ha
    exact ⟨g, hg, hi, hs ▸ ha⟩

section Symbolic

theorem symbolic_concat (ss : List Store) (s : Store) :
    symbolic (ss ++ [s]) =
      match s.numeric with
      | some _ => symbolic ss
      | none => updateGroup s.site (· ++ [s]) (symbolic ss) := by
  rw [symbolic, List.foldl_append]
  rfl

theorem grouped_symbolic (ss : List Store) : Grouped (symbolic ss) := by
  induction ss using List.reverseRecOn with
  | nil => exact .nil
  | append_singleton ss s ih =>
    rw [symbolic_concat]
    split
    · exact ih
    · exact grouped_updateGroup ih _ _

theorem groupOf_symbolic (site : Value) (ss : List Store) :
    groupOf site (symbolic ss) =
      ss.filter fun s => s.numeric.isNone && s.site.id == site.id := by
  induction ss using List.reverseRecOn with
  | nil => rfl
  | append_singleton ss s ih =>
    rw [symbolic_concat, List.filter_append, ← ih]
    cases hn : s.numeric with
    | some n => simp [hn]
    | none =>
      dsimp only
      rw [groupOf_updateGroup (grouped_symbolic ss)]
      by_cases hi : s.site.id = site.id <;> simp [hn, hi]

theorem mem_of_lists_symbolic {ss : List Store} {site : Value} {s : Store}
    (h : Lists (symbolic ss) site s) : s ∈ ss := by
  rw [lists_iff (grouped_symbolic ss), groupOf_symbolic] at h
  exact List.mem_of_mem_filter h

/-- No group of symbolic stores is empty. -/
private theorem ne_nil_of_mem_symbolic {ss : List Store} {g : Group Store} (h : g ∈ symbolic ss) :
    g.stores ≠ [] := by
  induction ss using List.reverseRecOn with
  | nil => exact absurd h List.not_mem_nil
  | append_singleton ss s ih =>
    rw [symbolic_concat] at h
    split at h
    · exact ih h
    · rcases Ascending.mem_of_mem_put h with rfl | h
      · simp
      · exact ih h

/-- Of fewer stores every symbolic list is part of a list of the same site. -/
theorem subperm_symbolic {ss ss' : List Store} (h : ss.Subperm ss') :
    ∀ g ∈ symbolic ss, ∃ g' ∈ symbolic ss', g'.site.id = g.site.id ∧
      g.stores.Subperm g'.stores := by
  intro g hg
  have fewer : g.stores.Subperm (groupOf g.site (symbolic ss')) := by
    rw [← groupOf_of_mem (grouped_symbolic ss) hg, groupOf_symbolic, groupOf_symbolic]
    exact h.filter _
  obtain ⟨a, ha⟩ := List.exists_mem_of_ne_nil _ (ne_nil_of_mem_symbolic hg)
  obtain ⟨g', hg', hi, hs⟩ := exists_group (fewer.subset ha)
  exact ⟨g', hg', hi, hs ▸ fewer⟩

end Symbolic

section Concrete

/-- The store is at the address in the object of the site. -/
def isAt (s : Store) (site : Value) (n : UInt64) : Bool :=
  s.site.id == site.id && s.numeric == some n

theorem concrete_concat (ss : List Store) (s : Store) :
    concrete (ss ++ [s]) =
      match s.numeric with
      | some n => updateGroup s.site (Ascending.put (compareOn (·.1)) (n, s)) (concrete ss)
      | none => concrete ss := by
  rw [concrete, List.foldl_append]
  rfl

private theorem grouped_concrete (ss : List Store) : Grouped (concrete ss) := by
  induction ss using List.reverseRecOn with
  | nil => exact .nil
  | append_singleton ss s ih =>
    rw [concrete_concat]
    split
    · exact grouped_updateGroup ih _ _
    · exact ih

private abbrev numericKey (e : UInt64 × Store) : Nat :=
  e.1.toNat

private theorem groupOf_concrete_concat (site : Value) (ss : List Store) (s : Store) {n : UInt64}
    (hn : s.numeric = some n) :
    groupOf site (concrete (ss ++ [s])) =
      if s.site.id = site.id then
        Ascending.put (compareOn numericKey) (n, s) (groupOf site (concrete ss))
      else groupOf site (concrete ss) := by
  rw [concrete_concat, hn]
  dsimp only
  rw [groupOf_updateGroup (grouped_concrete ss), Ascending.compareOn_uint64]

/-- The group of a site has for every address the last store made there. -/
private theorem mem_groupOf_concrete (site : Value) (ss : List Store) :
    Ascending.Sorted numericKey (groupOf site (concrete ss)) ∧
      ∀ n s, (n, s) ∈ groupOf site (concrete ss) ↔ ss.reverse.find? (·.isAt site n) = some s := by
  induction ss using List.reverseRecOn with
  | nil => exact ⟨.nil, fun n s => by simp [concrete, groupOf]⟩
  | append_singleton ss a ih =>
    obtain ⟨sorted, mem⟩ := ih
    cases hn : a.numeric with
    | none =>
      rw [concrete_concat, hn]
      refine ⟨sorted, fun n s => ?_⟩
      have away : a.isAt site n = false := by simp [isAt, hn]
      simp [mem, away]
    | some m =>
      rw [groupOf_concrete_concat site ss a hn]
      by_cases hi : a.site.id = site.id
      · rw [if_pos hi]
        refine ⟨Ascending.sorted_put sorted, fun n s => ?_⟩
        rw [Ascending.mem_put_iff sorted, mem, List.reverse_append]
        by_cases hm : m = n
        · have here : a.isAt site n = true := by simp [isAt, hn, hi, hm]
          subst hm
          simp [here, eq_comm]
        · have away : a.isAt site n = false := by simp [isAt, hn, hm]
          have hne : ¬n.toNat = m.toNat := fun h => hm (UInt64.toNat_inj.1 h.symm)
          simp [away, hne, Ne.symm hm]
      · rw [if_neg hi]
        refine ⟨sorted, fun n s => ?_⟩
        have away : a.isAt site n = false := by simp [isAt, hi]
        simp [mem, away]

theorem lists_concrete_iff {ss : List Store} {site : Value} {n : UInt64} {s : Store} :
    Lists (concrete ss) site (n, s) ↔ ss.reverse.find? (·.isAt site n) = some s :=
  (lists_iff (grouped_concrete ss)).trans ((mem_groupOf_concrete site ss).2 n s)

theorem mem_of_lists_concrete {ss : List Store} {site : Value} {n : UInt64} {s : Store}
    (h : Lists (concrete ss) site (n, s)) : s ∈ ss :=
  List.mem_reverse.1 (List.mem_of_find?_eq_some (lists_concrete_iff.1 h))

end Concrete

end Store

end PathSlice
