import Mathlib.Data.List.Count
import Mathlib.Data.List.MinMax
import PathSlice.Proofs.AscendingLists
import PathSlice.Support.Graph

/-! Consuming the sinks of a graph of support. In a graph that was built up by its operations parents
lie on higher levels than their children. Every round of consumption raises the level of the sinks
that are left to be consumed, so there are rounds enough; what is left are the locations that come
first behind those consumed. -/
namespace PathSlice.Support.Graph

variable {g g' : Graph} {l : Location} {ls : List Location} {i j : Nat}

def SinkAt (g : Graph) (i : Nat) : Prop :=
  ∃ l ∈ g.sinks, l.id = i

/-- The location with the second identity is a parent of the one with the first. -/
def EdgeAt (g : Graph) (i j : Nat) : Prop :=
  ∃ e ∈ g.edges, e.child.id = i ∧ e.parent.id = j

/-- The identity is that of one of some locations. -/
def Among (ls : List Location) (i : Nat) : Prop :=
  ∃ l ∈ ls, l.id = i

/-- Nodes and sinks are distinct, sinks are nodes, and edges lead to higher levels. -/
structure Leveled (g : Graph) : Prop where
  nodes : g.nodes.Pairwise fun m n => m.location.id ≠ n.location.id
  sinks : g.sinks.Pairwise fun l m => l.id ≠ m.id
  sink_node : ∀ i, g.SinkAt i → ∃ n ∈ g.nodes, n.location.id = i
  ascends : ∀ e ∈ g.edges, ∃ m ∈ g.nodes, ∃ n ∈ g.nodes,
    m.location.id = e.child.id ∧ n.location.id = e.parent.id ∧ m.level < n.level

section Levels

theorem exists_node_of_level? {k : Int} (h : g.level? l = some k) :
    ∃ n ∈ g.nodes, n.location.id = l.id ∧ n.level = k := by
  obtain ⟨n, hn, hk⟩ := Option.map_eq_some_iff.1 h
  have hi := List.find?_some hn
  exact ⟨n, List.mem_of_find?_eq_some hn, by simpa using hi, hk⟩

theorem ne_of_level? (h : g.level? l = none) : ∀ n ∈ g.nodes, n.location.id ≠ l.id := by
  intro n hn hi
  have := List.find?_eq_none.1 (Option.map_eq_none_iff.1 h) n hn
  simp [hi] at this

private theorem level?_addNode (k : Int) {m : Location} (hm : m.id ≠ l.id) :
    (g.addNode l k).level? m = g.level? m := by
  simp [level?, addNode, Ne.symm hm]

theorem Leveled.level_eq (h : g.Leveled) {m n : Node} (hm : m ∈ g.nodes) (hn : n ∈ g.nodes)
    (hi : m.location.id = n.location.id) : m = n := by
  have symm : Std.Symm fun m n : Node => m.location.id ≠ n.location.id := ⟨fun _ _ h => h.symm⟩
  by_contra hne
  exact h.nodes.forall hm hn hne hi

theorem Leveled.lt_of_edgeAt (h : g.Leveled) (he : g.EdgeAt i j) {m n : Node} (hm : m ∈ g.nodes)
    (hn : n ∈ g.nodes) (hi : m.location.id = i) (hj : n.location.id = j) : m.level < n.level := by
  obtain ⟨e, he, rfl, rfl⟩ := he
  obtain ⟨m', hm', n', hn', hi', hj', hlt⟩ := h.ascends e he
  have := h.level_eq hm hm' (hi.trans hi'.symm)
  have := h.level_eq hn hn' (hj.trans hj'.symm)
  subst m n
  exact hlt

end Levels

/-! Building a graph up. -/

theorem leveled_empty : ({} : Graph).Leveled where
  nodes := .nil
  sinks := .nil
  sink_node := by simp [SinkAt]
  ascends := by simp

namespace Leveled

theorem addNode (h : g.Leveled) (hl : g.level? l = none) (k : Int) : (g.addNode l k).Leveled where
  nodes := by
    have new := ne_of_level? hl
    simpa [Graph.addNode, List.pairwise_append, h.nodes] using new
  sinks := h.sinks
  sink_node i hi := by
    obtain ⟨n, hn, hi⟩ := h.sink_node i hi
    exact ⟨n, List.mem_append_left _ hn, hi⟩
  ascends e he := by
    obtain ⟨m, hm, n, hn, hrest⟩ := h.ascends e he
    exact ⟨m, List.mem_append_left _ hm, n, List.mem_append_left _ hn, hrest⟩

theorem addSinkAt (h : g.Leveled) (hl : g.level? l = none) (k : Int) :
    (g.addSinkAt l k).Leveled := by
  have hnode := h.addNode hl k
  refine ⟨hnode.nodes, ?_, ?_, hnode.ascends⟩
  · have new : ∀ s ∈ g.sinks, s.id ≠ l.id := by
      intro s hs hi
      obtain ⟨n, hn, hn'⟩ := h.sink_node s.id ⟨s, hs, rfl⟩
      exact ne_of_level? hl n hn (hn'.trans hi)
    simpa [Graph.addSinkAt, Graph.addNode, List.pairwise_append, h.sinks] using new
  · rintro i ⟨s, hs, rfl⟩
    rcases List.mem_append.1 hs with hs | hs
    · exact hnode.sink_node s.id ⟨s, hs, rfl⟩
    · rw [List.mem_singleton.1 hs]
      exact ⟨⟨l, k⟩, List.mem_append_right _ List.mem_cons_self, rfl⟩

theorem addEdge (h : g.Leveled) {child parent : Location} {m n : Node} (hm : m ∈ g.nodes)
    (hn : n ∈ g.nodes) (hc : m.location.id = child.id) (hp : n.location.id = parent.id)
    (hlt : m.level < n.level) : (g.addEdge child parent).Leveled := by
  unfold Graph.addEdge
  split
  · exact h
  · refine ⟨h.nodes, h.sinks, h.sink_node, fun e he => ?_⟩
    rcases List.mem_append.1 he with he | he
    · exact h.ascends e he
    · rw [List.mem_singleton.1 he]
      exact ⟨m, hm, n, hn, hc, hp, hlt⟩

theorem addSink (h : g.Leveled) (l : Location) : (g.addSink l).Leveled := by
  unfold Graph.addSink contains
  cases hl : g.level? l with
  | none => exact h.addSinkAt hl 0
  | some k => exact h

theorem support (h : g.Leveled) (parent child : Location) : (g.support parent child).2.Leveled := by
  unfold Graph.support
  split
  · exact h
  · rename_i hne
    cases hp : g.level? parent with
    | some p =>
      obtain ⟨n, hn, hni, hnl⟩ := exists_node_of_level? hp
      cases hc : g.level? child with
      | some c =>
        obtain ⟨m, hm, hmi, hml⟩ := exists_node_of_level? hc
        dsimp only
        split
        · exact h
        · exact h.addEdge hm hn hmi hni (by omega)
      | none =>
        have hs := h.addSinkAt hc (p - 1)
        refine hs.addEdge (m := ⟨child, p - 1⟩) ?_ (List.mem_append_left _ hn) rfl hni (by
          simp only [hnl]
          omega)
        exact List.mem_append_right _ List.mem_cons_self
    | none =>
      cases hc : g.level? child with
      | some c =>
        obtain ⟨m, hm, hmi, hml⟩ := exists_node_of_level? hc
        have hs := h.addNode hp (c + 1)
        refine hs.addEdge (n := ⟨parent, c + 1⟩) (List.mem_append_left _ hm) ?_ hmi rfl (by
          simp only [hml]
          omega)
        exact List.mem_append_right _ List.mem_cons_self
      | none =>
        have hs := h.addSinkAt hc 0
        have hp' : (g.addSinkAt child 0).level? parent = none :=
          (level?_addNode 0 hne).trans hp
        have hs' := hs.addNode hp' 1
        refine hs'.addEdge (m := ⟨child, 0⟩) (n := ⟨parent, 1⟩) ?_ ?_ rfl rfl Int.zero_lt_one
        · exact List.mem_append_left _ (List.mem_append_right _ List.mem_cons_self)
        · exact List.mem_append_right _ List.mem_cons_self

end Leveled

/-! Consuming one sink. -/

section Consume

private theorem among_promote (sinks : List Location) (l : Location) :
    Among (promote sinks l) i ↔ Among sinks i ∨ l.id = i := by
  unfold promote Among
  split
  · rename_i h
    obtain ⟨m, hm, hi⟩ := List.any_eq_true.1 h
    have hi : m.id = l.id := by simpa using hi
    constructor
    · exact .inl
    · rintro (h | rfl)
      · exact h
      · exact ⟨m, hm, hi⟩
  · simp [or_and_right, exists_or]

theorem mem_of_mem_foldl_promote {ps sinks : List Location} (h : l ∈ ps.foldl promote sinks) :
    l ∈ sinks ∨ l ∈ ps := by
  induction ps generalizing sinks with
  | nil => exact .inl h
  | cons p ps ih =>
    rcases ih h with h | h
    · unfold promote at h
      split at h
      · exact .inl h
      · rcases List.mem_append.1 h with h | h
        · exact .inl h
        · exact .inr (List.mem_singleton.1 h ▸ List.mem_cons_self)
    · exact .inr (List.mem_cons_of_mem p h)

private theorem distinct_promote {sinks : List Location} (h : sinks.Pairwise fun l m => l.id ≠ m.id)
    (l : Location) : (promote sinks l).Pairwise fun l m => l.id ≠ m.id := by
  unfold promote
  split
  · exact h
  · rename_i hl
    simpa [List.pairwise_append, h] using hl

theorem among_foldl_promote (ps sinks : List Location) :
    Among (ps.foldl promote sinks) i ↔ Among sinks i ∨ Among ps i := by
  induction ps generalizing sinks with
  | nil => simp [Among]
  | cons p ps ih =>
    have := ih (promote sinks p)
    simp only [List.foldl_cons, this, among_promote]
    simp [Among, or_assoc]

theorem distinct_foldl_promote (ps : List Location) {sinks : List Location}
    (h : sinks.Pairwise fun l m => l.id ≠ m.id) :
    (ps.foldl promote sinks).Pairwise fun l m => l.id ≠ m.id := by
  induction ps generalizing sinks with
  | nil => exact h
  | cons p ps ih => exact ih (distinct_promote h p)

private theorem among_eraseP {sinks : List Location} (h : sinks.Pairwise fun l m => l.id ≠ m.id)
    (l : Location) :
    Among (sinks.eraseP (·.id == l.id)) i ↔ Among sinks i ∧ i ≠ l.id := by
  induction sinks with
  | nil => simp [Among]
  | cons s sinks ih =>
    obtain ⟨hs, hrest⟩ := List.pairwise_cons.1 h
    have ih := ih hrest
    by_cases hi : s.id = l.id
    · have gone : Among sinks i → i ≠ l.id := by
        rintro ⟨m, hm, rfl⟩ hl
        exact hs m hm (hi.trans hl.symm)
      simp only [List.eraseP_cons, hi, beq_self_eq_true, cond_true]
      simp only [Among, List.mem_cons, exists_eq_or_imp, hi] at gone ⊢
      constructor
      · exact fun hm => ⟨.inr hm, gone hm⟩
      · rintro ⟨hm | hm, hne⟩
        · exact absurd hm.symm hne
        · exact hm
    · have hb : (s.id == l.id) = false := by simpa using hi
      simp only [List.eraseP_cons, hb, cond_false]
      simp only [Among, List.mem_cons, exists_eq_or_imp] at ih ⊢
      rw [ih, or_and_right]
      constructor
      · rintro (rfl | hm)
        · exact .inl ⟨rfl, hi⟩
        · exact .inr hm
      · rintro (hm | hm)
        · exact .inl hm.1
        · exact .inr hm

theorem nodes_consume (g : Graph) (l : Location) : (g.consume l).nodes = g.nodes := by
  unfold consume
  split <;> rfl

theorem edges_consume (g : Graph) (l : Location) : (g.consume l).edges = g.edges := by
  unfold consume
  split <;> rfl

theorem among_parents (g : Graph) (l : Location) : Among (g.parents l) i ↔ g.EdgeAt l.id i := by
  constructor
  · rintro ⟨m, hm, rfl⟩
    obtain ⟨e, he, rfl⟩ := List.mem_map.1 hm
    obtain ⟨he, hc⟩ := List.mem_filter.1 he
    exact ⟨e, he, by simpa using hc, rfl⟩
  · rintro ⟨e, he, hc, rfl⟩
    exact ⟨e.parent, List.mem_map_of_mem (List.mem_filter.2 ⟨he, by simpa using hc⟩), rfl⟩

/-- A sink makes way for its parents. -/
theorem sinkAt_consume (h : g.Leveled) (hl : g.SinkAt l.id) :
    (g.consume l).SinkAt i ↔ (g.SinkAt i ∧ i ≠ l.id) ∨ g.EdgeAt l.id i := by
  have sink : g.isSink l = true := by
    obtain ⟨s, hs, hi⟩ := hl
    exact List.any_eq_true.2 ⟨s, hs, by simp [hi]⟩
  unfold consume
  rw [if_pos sink]
  have := among_foldl_promote (i := i) (g.parents l) (g.sinks.eraseP (·.id == l.id))
  rw [among_eraseP h.sinks, among_parents] at this
  exact this

theorem consume_of_not_sinkAt (hl : ¬g.SinkAt l.id) : g.consume l = g := by
  have sink : g.isSink l = false := by
    refine List.any_eq_false.2 fun s hs hi => hl ⟨s, hs, by simpa using hi⟩
  simp [consume, sink]

theorem Leveled.consume (h : g.Leveled) (l : Location) : (g.consume l).Leveled := by
  by_cases hl : g.SinkAt l.id
  · refine ⟨nodes_consume g l ▸ h.nodes, ?_, fun i hi => ?_, ?_⟩
    · unfold Graph.consume
      split
      · exact distinct_foldl_promote _ (h.sinks.sublist List.eraseP_sublist)
      · exact h.sinks
    · rw [nodes_consume]
      rcases (sinkAt_consume h hl).1 hi with hi | ⟨e, he, _, rfl⟩
      · exact h.sink_node i hi.1
      · obtain ⟨_, _, n, hn, _, hp, _⟩ := h.ascends e he
        exact ⟨n, hn, hp⟩
    · rw [nodes_consume, edges_consume]
      exact h.ascends
  · rwa [consume_of_not_sinkAt hl]

end Consume

/-! Consuming all sinks among some locations. -/

/-- A way to a parent, or to a parent of a parent, and so on, whose locations but the last are among
those given. -/
inductive Through (g : Graph) (ls : List Location) (i : Nat) : Nat → Prop
  | refl : Through g ls i i
  | step {j k : Nat} (h : Through g ls i j) (hj : Among ls j) (he : g.EdgeAt j k) : Through g ls i k

/-- Of every way that starts here a sink is left, or it ends among the locations consumed. -/
inductive Covers (g : Graph) (ls : List Location) : Nat → Prop
  | sink {i : Nat} (h : g.SinkAt i) : Covers g ls i
  | consumed {i : Nat} (hi : Among ls i) (hp : ∀ j, g.EdgeAt i j → Covers g ls j) : Covers g ls i

theorem edgeAt_congr (h : g'.edges = g.edges) : g'.EdgeAt i j ↔ g.EdgeAt i j := by
  simp only [EdgeAt, h]

/-- The parents of the sink that is consumed stand in for it. -/
theorem Covers.consume (h : g.Covers ls i) (hg : g.Leveled) (hl : Among ls l.id)
    (hs : g.SinkAt l.id) : (g.consume l).Covers ls i := by
  have hedges := edges_consume g l
  induction h with
  | @sink i hi =>
    by_cases hne : i = l.id
    · subst hne
      refine .consumed hl fun j hj => .sink ?_
      exact (sinkAt_consume hg hs).2 (.inr ((edgeAt_congr hedges).1 hj))
    · exact .sink ((sinkAt_consume hg hs).2 (.inl ⟨hi, hne⟩))
  | consumed hi _ ih => exact .consumed hi fun j hj => ih j ((edgeAt_congr hedges).1 hj)

/-- What holds of a graph some of whose sinks among the given locations were consumed. -/
structure Reduced (g : Graph) (ls : List Location) (g' : Graph) : Prop where
  leveled : g'.Leveled
  nodes : g'.nodes = g.nodes
  edges : g'.edges = g.edges
  sound : ∀ i, g'.SinkAt i → ∃ j, g.SinkAt j ∧ g.Through ls j i
  complete : ∀ i, g.SinkAt i → g'.Covers ls i

namespace Reduced

theorem refl (h : g.Leveled) (ls : List Location) : Reduced g ls g :=
  ⟨h, rfl, rfl, fun i hi => ⟨i, hi, .refl⟩, fun _ hi => .sink hi⟩

theorem consume (h : Reduced g ls g') (hl : Among ls l.id) : Reduced g ls (g'.consume l) := by
  by_cases hs : g'.SinkAt l.id
  · have hedges : (g'.consume l).edges = g'.edges := edges_consume g' l
    refine ⟨h.leveled.consume l, (nodes_consume g' l).trans h.nodes, hedges.trans h.edges,
      fun i hi => ?_, fun i hi => ?_⟩
    · rcases (sinkAt_consume h.leveled hs).1 hi with hi | he
      · exact h.sound i hi.1
      · obtain ⟨j, hj, hway⟩ := h.sound l.id hs
        exact ⟨j, hj, hway.step hl ((edgeAt_congr h.edges).1 he)⟩
    · exact (h.complete i hi).consume h.leveled hl hs
  · rwa [consume_of_not_sinkAt hs]

theorem foldl_consume (h : Reduced g ls g') {todo : List Location}
    (ht : ∀ l ∈ todo, Among ls l.id) : Reduced g ls (todo.foldl Graph.consume g') := by
  induction todo generalizing g' with
  | nil => exact h
  | cons l todo ih =>
    obtain ⟨hl, htodo⟩ := List.forall_mem_cons.1 ht
    exact ih (h.consume hl) htodo

end Reduced

theorem exists_sinksAmong_iff :
    (∃ l ∈ g.sinksAmong ls, l.id = i) ↔ g.SinkAt i ∧ Among ls i := by
  refine Ascending.exists_key_ofList_iff.trans ?_
  constructor
  · rintro ⟨l, hl, rfl⟩
    obtain ⟨hs, hi⟩ := List.mem_filter.1 hl
    exact ⟨⟨l, hs, rfl⟩, by simpa [Among] using hi⟩
  · rintro ⟨⟨l, hs, rfl⟩, hi⟩
    exact ⟨l, List.mem_filter.2 ⟨hs, by simpa [Among] using hi⟩, rfl⟩

theorem Reduced.consumeRound (h : Reduced g ls g') : Reduced g ls (g'.consumeRound ls) :=
  h.foldl_consume fun l hl => (exists_sinksAmong_iff.1 ⟨l, hl, rfl⟩).2

theorem Reduced.rounds (h : Reduced g ls g') (k : Nat) :
    Reduced g ls (Nat.repeat (Graph.consumeRound ls) k g') := by
  induction k with
  | zero => exact h
  | succ k ih => exact ih.consumeRound

/-! Every round takes the lowest of the sinks that are left to be consumed. -/

section Rounds

/-- The sinks among the given locations are on the given level or above it. -/
def Above (g : Graph) (ls : List Location) (b : Int) : Prop :=
  ∀ i, g.SinkAt i → Among ls i → ∀ n ∈ g.nodes, n.location.id = i → b ≤ n.level

/-- While a round is under way, the sinks on the lowest level are still to be taken. -/
private theorem above_foldl_consume {b : Int} {todo : List Location} (h : g.Leveled)
    (ht : ∀ l ∈ todo, ∀ n ∈ g.nodes, n.location.id = l.id → b ≤ n.level)
    (hs : ∀ i, g.SinkAt i → Among ls i → Among todo i ∨
      ∀ n ∈ g.nodes, n.location.id = i → b + 1 ≤ n.level) :
    (todo.foldl consume g).Above ls (b + 1) := by
  induction todo generalizing g with
  | nil =>
    intro i hi hl
    exact (hs i hi hl).resolve_left (by simp [Among])
  | cons l todo ih =>
    obtain ⟨hl, htodo⟩ := List.forall_mem_cons.1 ht
    refine ih (h.consume l) (nodes_consume g l ▸ htodo) fun i hi hm => ?_
    rw [nodes_consume]
    have kept (hi : g.SinkAt i) (hne : i ≠ l.id) : Among todo i ∨
        ∀ n ∈ g.nodes, n.location.id = i → b + 1 ≤ n.level := by
      refine (hs i hi hm).imp_left ?_
      rintro ⟨s, hs, rfl⟩
      exact ⟨s, (List.mem_cons.1 hs).resolve_left fun heq => hne (heq ▸ rfl), rfl⟩
    by_cases hsink : g.SinkAt l.id
    · rcases (sinkAt_consume h hsink).1 hi with ⟨hi, hne⟩ | he
      · exact kept hi hne
      · obtain ⟨m, hm, hml⟩ := h.sink_node l.id hsink
        refine .inr fun n hn hni => ?_
        have := hl m hm hml
        have := h.lt_of_edgeAt he hm hn hml hni
        omega
    · rw [consume_of_not_sinkAt hsink] at hi
      exact kept hi fun heq => hsink (heq ▸ hi)

theorem Above.consumeRound {b : Int} (h : g.Leveled) (hb : g.Above ls b) :
    (g.consumeRound ls).Above ls (b + 1) := by
  refine above_foldl_consume h (fun l hl n hn hi => ?_) fun i hi hm => .inl ?_
  · obtain ⟨hs, ha⟩ := exists_sinksAmong_iff.1 ⟨l, hl, rfl⟩
    exact hb l.id hs ha n hn hi
  · exact exists_sinksAmong_iff.2 ⟨hi, hm⟩

/-- Of the sinks to be consumed one is on the lowest level. -/
theorem Leveled.exists_lowest (h : g.Leveled) (hs : ∃ i, g.SinkAt i ∧ Among ls i) :
    ∃ m ∈ g.nodes, (g.SinkAt m.location.id ∧ Among ls m.location.id) ∧ g.Above ls m.level := by
  classical
  let left := g.nodes.filter fun n => g.SinkAt n.location.id ∧ Among ls n.location.id
  have mem_left {n : Node} : n ∈ left ↔
      n ∈ g.nodes ∧ g.SinkAt n.location.id ∧ Among ls n.location.id := by simp [left]
  have some_left : left ≠ [] := by
    obtain ⟨i, hi, hl⟩ := hs
    obtain ⟨n, hn, rfl⟩ := h.sink_node i hi
    exact List.ne_nil_of_mem (mem_left.2 ⟨hn, hi, hl⟩)
  obtain ⟨m, hm⟩ : ∃ m, left.argmin Node.level = some m :=
    Option.ne_none_iff_exists'.1 (mt List.argmin_eq_none.1 some_left)
  obtain ⟨hnode, hsink⟩ := mem_left.1 (List.argmin_mem hm)
  refine ⟨m, hnode, hsink, fun i hi hl n hn hni => ?_⟩
  subst hni
  exact List.le_of_mem_argmin (mem_left.2 ⟨hn, hi, hl⟩) hm

private theorem Reduced.clear_of_clear (h : Reduced g ls g') (hg : ∀ i, g.SinkAt i → ¬Among ls i) :
    ∀ i, g'.SinkAt i → ¬Among ls i := by
  intro i hi
  obtain ⟨j, hj, hway⟩ := h.sound i hi
  have stays : ∀ k, g.Through ls j k → k = j := by
    intro k hk
    induction hk with
    | refl => rfl
    | step _ hl _ ih => exact absurd (ih ▸ hl) (hg j hj)
  rw [stays i hway]
  exact hg j hj

theorem repeat_succ {α : Type} (f : α → α) (k : Nat) (a : α) :
    Nat.repeat f (k + 1) a = Nat.repeat f k (f a) := by
  induction k with
  | zero => rfl
  | succ k ih => exact congrArg f ih

/-- Fewer nodes are above the level of a node than on it and above. -/
theorem countP_level_lt {ns : List Node} {m : Node} (hm : m ∈ ns) {b : Int}
    (hb : b ≤ m.level) : ns.countP (m.level + 1 ≤ ·.level) < ns.countP (b ≤ ·.level) := by
  have less : (ns.filter (b ≤ ·.level)).countP (m.level + 1 ≤ ·.level) <
      (ns.filter (b ≤ ·.level)).length :=
    List.countP_lt_length_iff.2 ⟨m, List.mem_filter.2 ⟨hm, by simpa using hb⟩,
      decide_eq_false (by omega)⟩
  have higher : ∀ n : Node, (decide (m.level + 1 ≤ n.level) && decide (b ≤ n.level)) =
      decide (m.level + 1 ≤ n.level) := by
    intro n
    by_cases hn : m.level + 1 ≤ n.level
    · have : b ≤ n.level := by omega
      simp [hn, this]
    · simp [hn]
  simpa only [List.countP_filter, higher, ← List.countP_eq_length_filter] using less

/-- There are rounds enough if there are as many as nodes on the lowest level and above. -/
private theorem clear_rounds {k : Nat} {b : Int} (h : g.Leveled) (hb : g.Above ls b)
    (hk : g.nodes.countP (b ≤ ·.level) ≤ k) :
    ∀ i, (Nat.repeat (consumeRound ls) k g).SinkAt i → ¬Among ls i := by
  induction k generalizing g b with
  | zero =>
    intro i hi hl
    obtain ⟨n, hn, hni⟩ := h.sink_node i hi
    have hpos : 0 < g.nodes.countP (b ≤ ·.level) :=
      List.countP_pos_iff.2 ⟨n, hn, by simpa using hb i hi hl n hn hni⟩
    omega
  | succ k ih =>
    by_cases hs : ∃ i, g.SinkAt i ∧ Among ls i
    · obtain ⟨m, hm, ⟨hmi, hml⟩, hlow⟩ := h.exists_lowest hs
      have hround := (Reduced.refl h ls).consumeRound
      have hbm : b ≤ m.level := hb _ hmi hml m hm rfl
      have hless := countP_level_lt hm hbm
      rw [repeat_succ]
      refine ih hround.leveled (hlow.consumeRound h) ?_
      rw [hround.nodes]
      omega
    · have clear : ∀ i, g.SinkAt i → ¬Among ls i := fun i hi hl => hs ⟨i, hi, hl⟩
      exact ((Reduced.refl h ls).rounds (k + 1)).clear_of_clear clear

/-- Nothing among the locations consumed is left. -/
theorem Leveled.clear_consumeAll (h : g.Leveled) (ls : List Location) :
    ∀ i, (g.consumeAll ls).SinkAt i → ¬Among ls i := by
  by_cases hs : ∃ i, g.SinkAt i ∧ Among ls i
  · obtain ⟨m, _, _, hlow⟩ := h.exists_lowest hs
    exact clear_rounds h hlow List.countP_le_length
  · have clear : ∀ i, g.SinkAt i → ¬Among ls i := fun i hi hl => hs ⟨i, hi, hl⟩
    exact ((Reduced.refl h ls).rounds _).clear_of_clear clear

end Rounds

theorem Leveled.reduced_consumeAll (h : g.Leveled) (ls : List Location) :
    Reduced g ls (g.consumeAll ls) :=
  (Reduced.refl h ls).rounds g.nodes.length

/-- Once nothing is left to be consumed, the sinks are the first locations behind those there were
that are not consumed. -/
theorem Reduced.sinkAt_iff (h : Reduced g ls g') (clear : ∀ i, g'.SinkAt i → ¬Among ls i) :
    g'.SinkAt i ↔ ¬Among ls i ∧ ∃ j, g.SinkAt j ∧ g.Through ls j i := by
  constructor
  · exact fun hi => ⟨clear i hi, h.sound i hi⟩
  · rintro ⟨hl, j, hj, hway⟩
    have covered : ∀ k, g.Through ls j k → g'.Covers ls k := by
      intro k hk
      induction hk with
      | refl => exact h.complete j hj
      | step _ hl he ih =>
        cases ih with
        | sink hs => exact absurd hl (clear _ hs)
        | consumed _ hp => exact hp _ ((edgeAt_congr h.edges).2 he)
    cases covered i hway with
    | sink hs => exact hs
    | consumed hi => exact absurd hi hl

theorem Leveled.sinkAt_consumeAll (h : g.Leveled) (ls : List Location) :
    (g.consumeAll ls).SinkAt i ↔ ¬Among ls i ∧ ∃ j, g.SinkAt j ∧ g.Through ls j i :=
  (h.reduced_consumeAll ls).sinkAt_iff (h.clear_consumeAll ls)

end PathSlice.Support.Graph
