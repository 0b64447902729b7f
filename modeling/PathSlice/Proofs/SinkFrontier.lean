import PathSlice.Proofs.GraphHistories

/-! The frontier of a graph of support. While a graph is built up every node is a sink or lies
behind one, and a sink that is consumed hands what lies behind it on to its parents. So whatever was
not consumed itself is never lost: it is a sink, or comes to be one when enough others are consumed.
-/
namespace PathSlice.Support.Graph

variable {g g' : Graph} {l : Location} {i j : Nat}

/-- The location with the identity is a sink, or a way leads to it from a sink, from parent to
parent. -/
def Reached (g : Graph) (i : Nat) : Prop :=
  ∃ j, g.SinkAt j ∧ Relation.ReflTransGen g.EdgeAt j i

namespace Reached

theorem sink (h : g.SinkAt i) : g.Reached i :=
  ⟨i, h, .refl⟩

theorem parent (h : g.Reached i) (he : g.EdgeAt i j) : g.Reached j := by
  obtain ⟨k, hk, way⟩ := h
  exact ⟨k, hk, way.tail he⟩

/-- What is behind a sink stays reached if the sink does and no edge is lost. -/
theorem transfer (h : g.Reached i) (hs : ∀ k, g.SinkAt k → g'.Reached k)
    (he : ∀ j k, g.EdgeAt j k → g'.EdgeAt j k) : g'.Reached i := by
  obtain ⟨j, hj, way⟩ := h
  induction way with
  | refl => exact hs j hj
  | tail _ edge ih => exact ih.parent (he _ _ edge)

end Reached

/-! Building a graph up. -/

section Building

private theorem edgeAt_addEdge {child parent : Location} (h : g.EdgeAt i j) :
    (g.addEdge child parent).EdgeAt i j := by
  obtain ⟨e, he, ends⟩ := h
  exact ⟨e, (continues_addEdge g child parent).edges.subset he, ends⟩

private theorem sinkAt_addEdge {child parent : Location} :
    (g.addEdge child parent).SinkAt i ↔ g.SinkAt i := by
  unfold addEdge
  split <;> rfl

theorem sinkAt_addSinkAt {k : Int} : (g.addSinkAt l k).SinkAt i ↔ g.SinkAt i ∨ l.id = i := by
  simp [SinkAt, addSinkAt, or_and_right, exists_or]

theorem Reached.addEdge (h : g.Reached i) (child parent : Location) :
    (g.addEdge child parent).Reached i :=
  h.transfer (fun _ hk => .sink (sinkAt_addEdge.2 hk)) fun _ _ => edgeAt_addEdge

theorem Reached.addSinkAt (h : g.Reached i) (l : Location) (k : Int) :
    (g.addSinkAt l k).Reached i :=
  h.transfer (fun _ hk => .sink (sinkAt_addSinkAt.2 (.inl hk))) fun _ _ edge => edge

theorem Reached.addSink (h : g.Reached i) (l : Location) : (g.addSink l).Reached i := by
  unfold Graph.addSink
  split
  · exact h
  · exact h.addSinkAt l 0

theorem Reached.support (h : g.Reached i) (parent child : Location) :
    (g.support parent child).2.Reached i := by
  unfold Graph.support
  split
  · exact h
  · split
    · split
      · exact h
      · exact h.addEdge child parent
    · exact (h.addSinkAt child _).addEdge child parent
    · exact Reached.addEdge (g := g.addNode parent _) h child parent
    · exact Reached.addEdge (g := (g.addSinkAt child 0).addNode parent 1) (h.addSinkAt child 0)
        child parent

/-- Every node is a sink or lies behind one. -/
def Rooted (g : Graph) : Prop :=
  ∀ i, g.NodeAt i → g.Reached i

namespace Rooted

theorem addSinkAt (h : g.Rooted) (l : Location) (k : Int) : (g.addSinkAt l k).Rooted := by
  intro i hi
  rcases (nodeAt_addSinkAt l k).1 hi with hi | hi
  · exact (h i hi).addSinkAt l k
  · exact .sink (sinkAt_addSinkAt.2 (.inr hi))

theorem addEdge (h : g.Rooted) (child parent : Location) : (g.addEdge child parent).Rooted :=
  fun i hi => (h i ((nodeAt_addEdge child parent).1 hi)).addEdge child parent

/-- A parent that is new lies behind its child. -/
theorem addParent (h : g.Rooted) {child : Location} (hc : g.NodeAt child.id) (parent : Location)
    (k : Int) : ((g.addNode parent k).addEdge child parent).Rooted := by
  have kept {i : Nat} (hi : g.NodeAt i) : ((g.addNode parent k).addEdge child parent).Reached i :=
    Reached.addEdge (g := g.addNode parent k) (h i hi) child parent
  intro i hi
  rcases (nodeAt_addNode parent k).1 ((nodeAt_addEdge child parent).1 hi) with hi | rfl
  · exact kept hi
  · exact (kept hc).parent (hasEdge_iff.1 (hasEdge_addEdge _ child parent))

theorem addSink (h : g.Rooted) (l : Location) : (g.addSink l).Rooted := by
  unfold Graph.addSink
  split
  · exact h
  · exact h.addSinkAt l 0

theorem support (h : g.Rooted) (parent child : Location) : (g.support parent child).2.Rooted := by
  unfold Graph.support
  split
  · exact h
  · cases hp : g.level? parent with
    | some p =>
      cases hc : g.level? child with
      | some c =>
        dsimp only
        split
        · exact h
        · exact h.addEdge child parent
      | none => exact (h.addSinkAt child (p - 1)).addEdge child parent
    | none =>
      cases hc : g.level? child with
      | some c => exact h.addParent (nodeAt_of_level? hc) parent (c + 1)
      | none =>
        have there : (g.addSinkAt child 0).NodeAt child.id :=
          (nodeAt_addSinkAt child 0).2 (.inr rfl)
        exact (h.addSinkAt child 0).addParent there parent 1

end Rooted

/-- The operation belongs to the building of a graph. -/
def Change.Builds : Change → Prop
  | .sink _ | .support .. => True
  | .consume _ | .consumeAll _ => False

private theorem rooted_after {cs : List Change} (h : ∀ c ∈ cs, c.Builds) : (after cs).Rooted := by
  induction cs using List.reverseRecOn with
  | nil => exact fun i ⟨n, hn, _⟩ => absurd hn List.not_mem_nil
  | append_singleton cs c ih =>
    obtain ⟨hcs, hc⟩ := List.forall_mem_append.1 h
    rw [after_concat]
    cases c with
    | sink l => exact (ih hcs).addSink l
    | support parent child => exact (ih hcs).support parent child
    | consume | consumeAll => exact (hc _ List.mem_cons_self).elim

end Building

/-! Consuming sinks. -/

section Consuming

theorem isSink_iff : g.isSink l ↔ g.SinkAt l.id := by
  simp [isSink, SinkAt]

/-- Other sinks stay, however often a graph lists them. -/
private theorem sinkAt_consume_of_ne (h : g.SinkAt i) (hi : i ≠ l.id) : (g.consume l).SinkAt i := by
  unfold consume
  split
  · obtain ⟨s, hs, rfl⟩ := h
    have left : s ∈ g.sinks.eraseP (·.id == l.id) :=
      (List.mem_eraseP_of_neg (by simpa using hi)).2 hs
    exact (among_foldl_promote _ _).2 (.inl ⟨s, left, rfl⟩)
  · exact h

private theorem sinkAt_consume_of_edgeAt (hl : g.SinkAt l.id) (h : g.EdgeAt l.id i) :
    (g.consume l).SinkAt i := by
  unfold consume
  rw [if_pos (isSink_iff.2 hl)]
  exact (among_foldl_promote _ _).2 (.inr ((among_parents g l).2 h))

private theorem sinkAt_of_sinkAt_consume (h : (g.consume l).SinkAt i) :
    g.SinkAt i ∨ g.SinkAt l.id ∧ g.EdgeAt l.id i := by
  unfold consume at h
  split at h
  · rename_i hl
    rcases (among_foldl_promote _ _).1 h with ⟨s, hs, hi⟩ | h
    · exact .inl ⟨s, List.mem_of_mem_eraseP hs, hi⟩
    · exact .inr ⟨isSink_iff.1 hl, (among_parents g l).1 h⟩
  · exact .inl h

private theorem edgeAt_consume (g : Graph) (l : Location) : (g.consume l).EdgeAt = g.EdgeAt := by
  unfold EdgeAt
  rw [edges_consume]

private theorem reached_of_reached_consume (h : (g.consume l).Reached i) : g.Reached i := by
  refine h.transfer (fun k hk => ?_) fun j k edge => edgeAt_consume g l ▸ edge
  rcases sinkAt_of_sinkAt_consume hk with hk | ⟨hl, edge⟩
  · exact .sink hk
  · exact (Reached.sink hl).parent edge

/-- Nothing but the location consumed is lost. -/
theorem Reached.consume (h : g.Reached i) (hi : i ≠ l.id) : (g.consume l).Reached i := by
  obtain ⟨j, hj, way⟩ := h
  unfold Reached
  rw [edgeAt_consume]
  by_cases hne : j = l.id
  · subst hne
    -- The way leaves the sink consumed by way of a parent, which is a sink afterwards.
    rcases way.cases_head with rfl | ⟨k, edge, rest⟩
    · exact absurd rfl hi
    · exact ⟨k, sinkAt_consume_of_edgeAt hj edge, rest⟩
  · exact ⟨j, sinkAt_consume_of_ne hj hne, way⟩

theorem Reached.foldl_consume {ls : List Location} (h : g.Reached i) (hi : ¬Among ls i) :
    (ls.foldl Graph.consume g).Reached i := by
  induction ls generalizing g with
  | nil => exact h
  | cons l ls ih =>
    refine ih (h.consume fun heq => hi ⟨l, List.mem_cons_self, heq.symm⟩) ?_
    rintro ⟨m, hm, hmi⟩
    exact hi ⟨m, List.mem_cons_of_mem l hm, hmi⟩

/-- What no round takes is still reached when the rounds are over. -/
theorem Reached.rounds {ls : List Location} {n : Nat} (h : g.Reached i)
    (hi : ∀ k < n, ¬Among ((Nat.repeat (consumeRound ls) k g).sinksAmong ls) i) :
    (Nat.repeat (consumeRound ls) n g).Reached i := by
  induction n with
  | zero => exact h
  | succ n ih =>
    exact (ih fun k hk => hi k (Nat.lt_succ_of_lt hk)).foldl_consume (hi n (Nat.lt_succ_self n))

/-- The operation consumes the location with the identity. -/
def Change.Takes (g : Graph) (i : Nat) : Change → Prop
  | .consume l => l.id = i ∧ g.SinkAt i
  | .consumeAll ls => ∃ k < g.nodes.length,
      Among ((Nat.repeat (consumeRound ls) k g).sinksAmong ls) i
  | .sink _ | .support .. => False

/-- One of some operations, carried out one after the other, consumes the location. -/
def Taken (g : Graph) (i : Nat) : List Change → Prop
  | [] => False
  | c :: cs => c.Takes g i ∨ (g.change c).Taken i cs

theorem Reached.change (h : g.Reached i) {c : Change} (hc : ¬c.Takes g i) :
    (g.change c).Reached i := by
  cases c with
  | sink l => exact h.addSink l
  | support parent child => exact h.support parent child
  | consume l =>
    by_cases hi : i = l.id
    · have spared : ¬g.SinkAt l.id := fun hs => hc ⟨hi.symm, hi ▸ hs⟩
      have same : g.change (.consume l) = g := consume_of_not_sinkAt spared
      rwa [same]
    · exact h.consume hi
  | consumeAll ls => exact h.rounds fun k hk taken => hc ⟨k, hk, taken⟩

private theorem Reached.foldl_change {cs : List Change} (h : g.Reached i) (hi : ¬g.Taken i cs) :
    (cs.foldl Graph.change g).Reached i := by
  induction cs generalizing g with
  | nil => exact h
  | cons c cs ih =>
    obtain ⟨hc, hcs⟩ := not_or.1 hi
    exact ih (h.change hc) hcs

end Consuming

/-- In a graph that was built up every node is a sink or lies behind one. In any graph the
consumption of a location takes nothing else out of what is a sink or lies behind one, and adds
nothing. So whatever operations follow, a node that they do not consume is a sink or lies behind
one. -/
theorem frontier_complete (bs cs : List Change) (hb : ∀ c ∈ bs, c.Builds) :
    (∀ i, (after bs).NodeAt i → (after bs).Reached i) ∧
    (∀ g l, (∀ i, Reached g i → i ≠ l.id → (g.consume l).Reached i) ∧
      ∀ i, (g.consume l).Reached i → g.Reached i) ∧
    ∀ i, (after bs).NodeAt i → ¬(after bs).Taken i cs → (after (bs ++ cs)).Reached i := by
  have rooted := rooted_after hb
  refine ⟨rooted, fun g l => ⟨fun i h hi => h.consume hi, fun i => reached_of_reached_consume⟩, ?_⟩
  intro i hi spared
  have kept := (rooted i hi).foldl_change spared
  rwa [after, ← List.foldl_append] at kept

/-- An element of an array. -/
def slot (index : Nat) : Location :=
  .start index ⟨0, "p", .instruction .alloca "f" [], .pointer⟩ (.pointer (8 * index.toUInt64))

/-- The elements 1 and 3 support the element 0, and 2 supports 1. -/
def slots : List Change :=
  [.support (slot 1) (slot 0), .support (slot 2) (slot 1), .support (slot 3) (slot 0)]

theorem frontier_complete_slots :
    (∀ c ∈ slots, c.Builds) ∧ (after slots).NodeAt 2 ∧
      ¬(after slots).Taken 2 [.consume (slot 0), .consumeAll [slot 1]] ∧
      (after (slots ++ [.consume (slot 0), .consumeAll [slot 1]])).Reached 2 := by
  have builds : ∀ c ∈ slots, c.Builds := by simp [slots, Change.Builds]
  have node : (after slots).NodeAt 2 :=
    (nodeAt_after slots).2 ⟨.support (slot 2) (slot 1), by simp [slots], by decide, .inl rfl⟩
  have spared : ¬(after slots).Taken 2 [.consume (slot 0), .consumeAll [slot 1]] := by
    rintro (⟨hi, _⟩ | ⟨k, _, taken⟩ | h)
    · exact absurd hi (by decide)
    · obtain ⟨l, hl, hi⟩ := (exists_sinksAmong_iff.1 taken).2
      rw [List.mem_singleton.1 hl] at hi
      exact absurd hi (by decide)
    · exact h
  exact ⟨builds, node, spared, (frontier_complete slots _ builds).2.2 2 node spared⟩

end PathSlice.Support.Graph
