import Mathlib.Logic.Hydra
import PathSlice.Proofs.GraphHistories

/-! Consuming sinks until none of some locations is left. A location may be consumed more than once,
since each of its children makes it a sink again. But parents lie on higher levels, so a sink is a
head of a hydra that only lesser heads grow in place of: whatever sink is taken next, there is an
end to it, and what is left then does not depend on the order. -/
namespace PathSlice.Support.Graph

variable {g g' g'' : Graph} {l : Location} {ls ls' : List Location} {i j k n : Nat}

/-- One of the sinks among the locations is consumed. -/
def Consumes (ls : List Location) (g g' : Graph) : Prop :=
  ∃ l, Among ls l.id ∧ g.SinkAt l.id ∧ g' = g.consume l

/-- Any number of sinks among the locations is consumed, in any order. -/
abbrev Consumption (ls : List Location) : Graph → Graph → Prop :=
  Relation.ReflTransGen (Consumes ls)

/-- Rounds are made as long as one of the locations is a sink, which is the case `k` times. -/
inductive Ends (ls : List Location) : Nat → Graph → Graph → Prop
  | clear {g : Graph} (h : g.sinksAmong ls = []) : Ends ls 0 g g
  | round {g g' : Graph} {k : Nat} (h : g.sinksAmong ls ≠ [])
      (rest : Ends ls k (g.consumeRound ls) g') : Ends ls (k + 1) g g'

private theorem sinksAmong_eq_nil_iff : g.sinksAmong ls = [] ↔ ∀ i, g.SinkAt i → ¬Among ls i := by
  constructor
  · intro h i hi hl
    obtain ⟨l, hl, _⟩ := exists_sinksAmong_iff.2 ⟨hi, hl⟩
    simp [h] at hl
  · intro h
    apply List.eq_nil_iff_forall_not_mem.2
    intro l hl
    obtain ⟨hs, ha⟩ := exists_sinksAmong_iff.1 ⟨l, hl, rfl⟩
    exact h l.id hs ha

/-! Rounds. -/

section Rounds

private theorem consumeRound_of_clear (h : g.sinksAmong ls = []) : g.consumeRound ls = g := by
  simp [consumeRound, h]

private theorem rounds_of_clear (h : g.sinksAmong ls = []) (n : Nat) :
    Nat.repeat (consumeRound ls) n g = g := by
  induction n with
  | zero => rfl
  | succ n ih => rw [repeat_succ, consumeRound_of_clear h, ih]

/-- A further round changes nothing, so as many rounds as are enough may be made. -/
private theorem exists_ends (h : (Nat.repeat (consumeRound ls) n g).sinksAmong ls = []) :
    ∃ k ≤ n, Ends ls k g (Nat.repeat (consumeRound ls) n g) := by
  induction n generalizing g with
  | zero => exact ⟨0, Nat.le_refl 0, .clear h⟩
  | succ n ih =>
    by_cases hg : g.sinksAmong ls = []
    · rw [rounds_of_clear hg]
      exact ⟨0, Nat.zero_le _, .clear hg⟩
    · rw [repeat_succ] at h ⊢
      obtain ⟨k, hk, rest⟩ := ih h
      exact ⟨k + 1, Nat.succ_le_succ hk, .round hg rest⟩

private theorem consumption_foldl_consume {todo : List Location} (h : ∀ l ∈ todo, Among ls l.id) :
    Consumption ls g (todo.foldl consume g) := by
  induction todo generalizing g with
  | nil => exact .refl
  | cons l todo ih =>
    obtain ⟨hl, htodo⟩ := List.forall_mem_cons.1 h
    by_cases hs : g.SinkAt l.id
    · exact .head ⟨l, hl, hs, rfl⟩ (ih htodo)
    · rw [List.foldl_cons, consume_of_not_sinkAt hs]
      exact ih htodo

/-- The rounds are one of the orders in which sinks can be consumed. -/
private theorem consumption_rounds (n : Nat) :
    Consumption ls g (Nat.repeat (consumeRound ls) n g) := by
  induction n with
  | zero => exact .refl
  | succ n ih =>
    apply ih.trans
    apply consumption_foldl_consume
    intro l hl
    exact (exists_sinksAmong_iff.1 ⟨l, hl, rfl⟩).2

/-- Of the locations to be consumed only their identities count. -/
private theorem consumeRound_congr (h : ∀ i, Among ls i ↔ Among ls' i) :
    consumeRound ls = consumeRound ls' := by
  have listed : ∀ s : Location, ls.any (·.id == s.id) = ls'.any (·.id == s.id) := by
    intro s
    rw [Bool.eq_iff_iff]
    simpa [Among] using h s.id
  funext g
  simp only [consumeRound, sinksAmong, listed]

end Rounds

private theorem Reduced.consumption (h : Reduced g ls g') (hc : Consumption ls g' g'') :
    Reduced g ls g'' := by
  induction hc with
  | refl => exact h
  | tail _ step ih =>
    obtain ⟨l, hl, _, rfl⟩ := step
    exact ih.consume hl

/-! Any order. -/

section AnyOrder

/-- How many nodes lie on higher levels than a location. -/
def height (g : Graph) (i : Nat) : Nat :=
  g.nodes.countP fun n => g.nodes.any fun m => m.location.id == i && decide (m.level + 1 ≤ n.level)

private theorem Leveled.height_eq (h : g.Leveled) {m : Node} (hm : m ∈ g.nodes) :
    g.height m.location.id = g.nodes.countP (m.level + 1 ≤ ·.level) := by
  apply List.countP_congr
  intro n _
  simp only [List.any_eq_true, Bool.and_eq_true, beq_iff_eq, decide_eq_true_eq]
  constructor
  · rintro ⟨m', hm', hi, hn⟩
    rwa [h.level_eq hm hm' hi.symm]
  · exact fun hn => ⟨m, hm, rfl, hn⟩

private theorem Leveled.height_lt (h : g.Leveled) (he : g.EdgeAt i j) : g.height j < g.height i := by
  obtain ⟨e, he, rfl, rfl⟩ := he
  obtain ⟨m, hm, n, hn, hc, hp, hlt⟩ := h.ascends e he
  rw [← hc, ← hp, h.height_eq hm, h.height_eq hn]
  exact countP_level_lt hn (by omega)

/-- From parent to parent every way comes to an end. -/
theorem Leveled.wellFounded_edgeAt (h : g.Leveled) : WellFounded fun j i => g.EdgeAt i j :=
  Subrelation.wf (fun he => h.height_lt he) (measure g.height).wf

private theorem exists_foldl_promote (ps sinks : List Location) :
    ∃ new, ps.foldl promote sinks = sinks ++ new ∧ ∀ l ∈ new, l ∈ ps := by
  induction ps generalizing sinks with
  | nil => exact ⟨[], by simp, by simp⟩
  | cons p ps ih =>
    obtain ⟨new, hnew, hsub⟩ := ih (promote sinks p)
    have later : ∀ l ∈ new, l ∈ p :: ps := fun l hl => List.mem_cons_of_mem p (hsub l hl)
    by_cases hp : sinks.any (·.id == p.id)
    · refine ⟨new, ?_, later⟩
      simpa [promote, hp] using hnew
    · refine ⟨p :: new, ?_, List.forall_mem_cons.2 ⟨List.mem_cons_self, later⟩⟩
      simpa [promote, hp] using hnew

/-- The identities of the sinks. -/
def heads (g : Graph) : Multiset Nat :=
  (g.sinks.map (·.id) : List Nat)

/-- A head is cut off, and its parents that are not heads yet grow in its place. -/
private theorem cutExpand_consume (h : g.SinkAt l.id) :
    Relation.CutExpand (fun j i => g.EdgeAt i j) (g.consume l).heads g.heads := by
  obtain ⟨s, hs, hi⟩ := h
  have sink : g.isSink l = true := List.any_eq_true.2 ⟨s, hs, by simp [hi]⟩
  obtain ⟨t, before, behind, _, ht, split, erased⟩ :=
    List.exists_of_eraseP (p := (·.id == l.id)) hs (by simpa using hi)
  obtain ⟨new, hnew, hsub⟩ := exists_foldl_promote (g.parents l) (before ++ behind)
  have sinks : (g.consume l).sinks = before ++ behind ++ new := by
    simp [consume, sink, erased, ← hnew]
  have parents : ∀ j ∈ new.map (·.id), g.EdgeAt l.id j := by
    intro j hj
    obtain ⟨p, hp, rfl⟩ := List.mem_map.1 hj
    exact (among_parents g l).1 ⟨p, hsub p hp, rfl⟩
  refine ⟨(new.map (·.id) : List Nat), l.id, by simpa using parents, ?_⟩
  have ht : t.id = l.id := by simpa using ht
  have perm : List.Perm ((before ++ behind ++ new).map (·.id) ++ [l.id])
      ((before ++ t :: behind).map (·.id) ++ new.map (·.id)) := by
    simp only [List.map_append, List.map_cons, ht]
    grind
  unfold heads
  rw [sinks, split]
  exact Multiset.coe_eq_coe.2 perm

/-- There is no endless consumption. -/
private theorem Leveled.acc_consumes (h : g.Leveled) (ls : List Location) :
    Acc (fun g'' g' => Consumes ls g' g'') g := by
  have irrefl : Std.Irrefl fun j i => g.EdgeAt i j := h.wellFounded_edgeAt.irrefl
  have ends := h.wellFounded_edgeAt.cutExpand.apply g.heads
  -- Edges stay while sinks are consumed, so it is one hydra all along.
  suffices all : ∀ heads, Acc (Relation.CutExpand fun j i => g.EdgeAt i j) heads →
      ∀ g', g'.edges = g.edges → g'.heads = heads → Acc (fun g'' g' => Consumes ls g' g'') g' from
    all _ ends g rfl rfl
  intro heads acc
  induction acc with
  | intro heads _ ih =>
    intro g' he hh
    apply Acc.intro
    rintro _ ⟨l, _, hs, rfl⟩
    have cut := cutExpand_consume hs
    have edges : g'.EdgeAt = g.EdgeAt := by
      funext i j
      exact propext (edgeAt_congr he)
    rw [edges, hh] at cut
    exact ih _ cut _ ((edges_consume g' l).trans he) rfl

end AnyOrder

/-- After any operations, making rounds until none of some locations is a sink comes to an end, and
there are at most as many rounds as nodes. Nodes, levels and edges stay. The sinks are then the
locations, not among those given, that a way from a sink leads to through none but these. Whatever
sink is taken next, consumption ends, and with the same sinks; consuming once more changes nothing,
and nor do order and repetition of the locations. -/
theorem consumeAll_exhausts (cs : List Change) (ls : List Location) :
    let g := after cs
    (∃ k ≤ g.nodes.length, Ends ls k g (g.consumeAll ls)) ∧
    (g.consumeAll ls).nodes = g.nodes ∧ (g.consumeAll ls).edges = g.edges ∧
    (∀ l, (g.consumeAll ls).level? l = g.level? l) ∧
    (∀ i, (g.consumeAll ls).SinkAt i ↔ ¬Among ls i ∧ ∃ j, g.SinkAt j ∧ g.Through ls j i) ∧
    (∀ run : Nat → Graph, run 0 = g → ∃ n, ¬Consumes ls (run n) (run (n + 1))) ∧
    Consumption ls g (g.consumeAll ls) ∧
    (∀ g', Consumption ls g g' → g'.sinksAmong ls = [] →
      ∀ i, g'.SinkAt i ↔ (g.consumeAll ls).SinkAt i) ∧
    (g.consumeAll ls).consumeAll ls = g.consumeAll ls ∧
    ∀ ls', (∀ i, Among ls' i ↔ Among ls i) → g.consumeAll ls' = g.consumeAll ls := by
  intro g
  have h : g.Leveled := (simple_after cs).toLeveled
  have reduced := h.reduced_consumeAll ls
  have clear : (g.consumeAll ls).sinksAmong ls = [] :=
    sinksAmong_eq_nil_iff.2 (h.clear_consumeAll ls)
  refine ⟨exists_ends clear, reduced.nodes, reduced.edges, fun l => ?_,
    fun i => h.sinkAt_consumeAll ls, fun run start => ?_, consumption_rounds _,
    fun g' hc hclear i => ?_, rounds_of_clear clear _, fun ls' same => ?_⟩
  · simp only [level?, reduced.nodes]
  · by_contra endless
    have none := acc_iff_isEmpty_descending_chain.1 (h.acc_consumes ls)
    exact none.false ⟨run, start, by simpa using endless⟩
  · rw [h.sinkAt_consumeAll ls]
    exact ((Reduced.refl h ls).consumption hc).sinkAt_iff (sinksAmong_eq_nil_iff.1 hclear)
  · simp only [consumeAll, consumeRound_congr same]

end PathSlice.Support.Graph
