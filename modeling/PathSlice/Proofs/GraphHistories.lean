import Mathlib.Data.List.Infix
import Mathlib.Logic.Relation
import PathSlice.Proofs.SinkConsumption

/-! Graphs of support after any sequence of operations. Nodes and edges are only ever added, a node
keeps its level, and every edge leads to a higher level, so no location supports itself. An edge is
refused only if its parent is not on the higher level, and then nothing changes. -/
namespace PathSlice.Support.Graph

variable {g g' g'' : Graph} {l : Location} {i j : Nat}

/-- An operation on a graph. -/
inductive Change where
  | sink (l : Location)
  | support (parent child : Location)
  | consume (l : Location)
  | consumeAll (ls : List Location)

def change (g : Graph) : Change → Graph
  | .sink l => g.addSink l
  | .support parent child => (g.support parent child).2
  | .consume l => g.consume l
  | .consumeAll ls => g.consumeAll ls

/-- The graph after some operations, starting with the empty graph. -/
def after (cs : List Change) : Graph :=
  cs.foldl change {}

theorem after_concat (cs : List Change) (c : Change) : after (cs ++ [c]) = (after cs).change c := by
  simp [after]

/-! What an operation can do to nodes and edges. -/

/-- Nodes, with their levels, and edges are added behind those there are. -/
structure Continues (g g' : Graph) : Prop where
  nodes : g.nodes <+: g'.nodes
  edges : g.edges <+: g'.edges

namespace Continues

theorem refl (g : Graph) : Continues g g :=
  ⟨List.prefix_rfl, List.prefix_rfl⟩

theorem trans (h : Continues g g') (h' : Continues g' g'') : Continues g g'' :=
  ⟨h.nodes.trans h'.nodes, h.edges.trans h'.edges⟩

/-- A node that was there is found first, so its level stays. -/
theorem level? (h : Continues g g') {k : Int} (hk : g.level? l = some k) : g'.level? l = some k := by
  obtain ⟨new, hnew⟩ := h.nodes
  obtain ⟨n, hn, rfl⟩ := Option.map_eq_some_iff.1 hk
  simp [Graph.level?, ← hnew, List.find?_append, hn]

end Continues

theorem continues_addEdge (g : Graph) (child parent : Location) :
    Continues g (g.addEdge child parent) := by
  unfold addEdge
  split
  · exact .refl g
  · exact ⟨List.prefix_rfl, List.prefix_append _ _⟩

private theorem continues_addSink (g : Graph) (l : Location) : Continues g (g.addSink l) := by
  unfold addSink
  split
  · exact .refl g
  · exact ⟨List.prefix_append _ _, List.prefix_rfl⟩

/-- An edge is refused and nothing changes, or it is added once its ends are nodes. -/
theorem support_cases (g : Graph) (parent child : Location) :
    ((g.support parent child).1 ≠ .added ∧ (g.support parent child).2 = g ∧
      ∀ p c, g.level? parent = some p → g.level? child = some c → p ≤ c) ∨
    ((g.support parent child).1 = .added ∧ ∃ g' : Graph, g.nodes <+: g'.nodes ∧ g'.edges = g.edges ∧
      (g.support parent child).2 = g'.addEdge child parent) := by
  unfold support
  by_cases hi : parent.id = child.id
  · left
    simp only [hi, if_true]
    refine ⟨by simp, trivial, fun p c hp hc => ?_⟩
    have same : g.level? parent = g.level? child := by simp [level?, hi]
    rw [same, hc] at hp
    exact (Option.some.inj hp).ge
  · simp only [hi, if_false]
    cases hp : g.level? parent with
    | some p =>
      cases hc : g.level? child with
      | some c =>
        by_cases hle : p ≤ c
        · left
          simp [hle]
        · right
          simp only [hle, if_false]
          exact ⟨trivial, g, List.prefix_rfl, rfl, rfl⟩
      | none =>
        exact .inr ⟨rfl, g.addSinkAt child (p - 1), List.prefix_append _ _, rfl, rfl⟩
    | none =>
      cases hc : g.level? child with
      | some c => exact .inr ⟨rfl, g.addNode parent (c + 1), List.prefix_append _ _, rfl, rfl⟩
      | none =>
        have both : g.nodes <+: ((g.addSinkAt child 0).addNode parent 1).nodes :=
          (List.prefix_append _ _).trans (List.prefix_append _ _)
        exact .inr ⟨rfl, _, both, rfl, rfl⟩

private theorem continues_support (g : Graph) (parent child : Location) :
    Continues g (g.support parent child).2 := by
  rcases support_cases g parent child with ⟨_, same, _⟩ | ⟨_, g', hn, he, added⟩
  · rw [same]
    exact .refl g
  · have hg : Continues g g' := ⟨hn, he ▸ List.prefix_rfl⟩
    rw [added]
    exact hg.trans (continues_addEdge g' child parent)

/-! Which locations are nodes. -/

section Nodes

/-- There is a node for the location with the identity. -/
def NodeAt (g : Graph) (i : Nat) : Prop :=
  ∃ n ∈ g.nodes, n.location.id = i

/-- The operation brings the location with the identity into the graph. A loop brings nothing. -/
def Change.Brings (i : Nat) : Change → Prop
  | .sink l => l.id = i
  | .support parent child => parent.id ≠ child.id ∧ (parent.id = i ∨ child.id = i)
  | .consume _ => False
  | .consumeAll _ => False

theorem nodeAt_of_level? {k : Int} (h : g.level? l = some k) : g.NodeAt l.id := by
  obtain ⟨n, hn, hi, _⟩ := exists_node_of_level? h
  exact ⟨n, hn, hi⟩

theorem nodeAt_addNode (l : Location) (k : Int) :
    (g.addNode l k).NodeAt i ↔ g.NodeAt i ∨ l.id = i := by
  simp [NodeAt, addNode, or_and_right, exists_or]

theorem nodeAt_addSinkAt (l : Location) (k : Int) :
    (g.addSinkAt l k).NodeAt i ↔ g.NodeAt i ∨ l.id = i :=
  nodeAt_addNode l k

theorem nodeAt_addEdge (child parent : Location) :
    (g.addEdge child parent).NodeAt i ↔ g.NodeAt i := by
  unfold addEdge
  split <;> rfl

theorem nodeAt_addSink (l : Location) : (g.addSink l).NodeAt i ↔ g.NodeAt i ∨ l.id = i := by
  unfold addSink contains
  cases hl : g.level? l with
  | none => exact nodeAt_addSinkAt l 0
  | some k =>
    have there := nodeAt_of_level? hl
    exact ⟨.inl, fun h => h.elim id fun hi => hi ▸ there⟩

private theorem nodeAt_support (parent child : Location) :
    (g.support parent child).2.NodeAt i ↔
      g.NodeAt i ∨ parent.id ≠ child.id ∧ (parent.id = i ∨ child.id = i) := by
  unfold support
  by_cases hi : parent.id = child.id
  · simp [hi]
  · simp only [hi, if_false, ne_eq, not_false_eq_true, true_and]
    cases hp : g.level? parent with
    | some p =>
      have parent_there := nodeAt_of_level? hp
      cases hc : g.level? child with
      | some c =>
        have child_there := nodeAt_of_level? hc
        have ends : parent.id = i ∨ child.id = i → g.NodeAt i := by
          rintro (rfl | rfl)
          · exact parent_there
          · exact child_there
        rw [or_iff_left_of_imp ends]
        dsimp only
        split
        · rfl
        · exact nodeAt_addEdge child parent
      | none =>
        dsimp only
        rw [nodeAt_addEdge, nodeAt_addSinkAt]
        grind
    | none =>
      cases hc : g.level? child with
      | some c =>
        have child_there := nodeAt_of_level? hc
        dsimp only
        rw [nodeAt_addEdge, nodeAt_addNode]
        grind
      | none =>
        dsimp only
        rw [nodeAt_addEdge, nodeAt_addNode, nodeAt_addSinkAt, or_assoc, or_comm (a := child.id = i)]

private theorem nodeAt_congr (h : g'.nodes = g.nodes) : g'.NodeAt i ↔ g.NodeAt i := by
  simp only [NodeAt, h]

private theorem Leveled.nodeAt_change (h : g.Leveled) (c : Change) :
    (g.change c).NodeAt i ↔ g.NodeAt i ∨ c.Brings i := by
  cases c with
  | sink l => exact nodeAt_addSink l
  | support parent child => exact nodeAt_support parent child
  | consume l => simpa [change, Change.Brings] using nodeAt_congr (nodes_consume g l)
  | consumeAll ls => simpa [change, Change.Brings] using nodeAt_congr (h.reduced_consumeAll ls).nodes

end Nodes

/-! No edge twice. -/

/-- A leveled graph in which no two edges join the same locations. -/
structure Simple (g : Graph) : Prop extends Leveled g where
  distinct : g.edges.Pairwise fun d e => d.child.id = e.child.id → d.parent.id ≠ e.parent.id

private theorem simple_empty : ({} : Graph).Simple where
  toLeveled := leveled_empty
  distinct := .nil

theorem hasEdge_iff {child parent : Location} :
    g.hasEdge child parent ↔ g.EdgeAt child.id parent.id := by
  simp [hasEdge, EdgeAt]

theorem hasEdge_addEdge (g : Graph) (child parent : Location) :
    (g.addEdge child parent).hasEdge child parent := by
  unfold addEdge
  split
  · assumption
  · simp [hasEdge]

private theorem distinct_addEdge
    (h : g.edges.Pairwise fun d e => d.child.id = e.child.id → d.parent.id ≠ e.parent.id)
    (child parent : Location) :
    (g.addEdge child parent).edges.Pairwise
      fun d e => d.child.id = e.child.id → d.parent.id ≠ e.parent.id := by
  unfold addEdge
  split
  · exact h
  · rename_i new
    simpa [List.pairwise_append, h, hasEdge] using new

namespace Simple

theorem addSink (h : g.Simple) (l : Location) : (g.addSink l).Simple := by
  refine ⟨h.toLeveled.addSink l, ?_⟩
  unfold Graph.addSink
  split <;> exact h.distinct

theorem support (h : g.Simple) (parent child : Location) : (g.support parent child).2.Simple := by
  refine ⟨h.toLeveled.support parent child, ?_⟩
  rcases support_cases g parent child with ⟨_, same, _⟩ | ⟨_, g', _, he, added⟩
  · rw [same]
    exact h.distinct
  · rw [added]
    exact distinct_addEdge (he ▸ h.distinct) child parent

theorem change (h : g.Simple) (c : Change) : (g.change c).Simple := by
  cases c with
  | sink l => exact h.addSink l
  | support parent child => exact h.support parent child
  | consume l => exact ⟨h.toLeveled.consume l, (edges_consume g l).symm ▸ h.distinct⟩
  | consumeAll ls =>
    have reduced := h.toLeveled.reduced_consumeAll ls
    exact ⟨reduced.leveled, reduced.edges.symm ▸ h.distinct⟩

end Simple

theorem simple_after (cs : List Change) : (after cs).Simple := by
  induction cs using List.reverseRecOn with
  | nil => exact simple_empty
  | append_singleton cs c ih =>
    rw [after_concat]
    exact ih.change c

theorem nodeAt_after (cs : List Change) : (after cs).NodeAt i ↔ ∃ c ∈ cs, c.Brings i := by
  induction cs using List.reverseRecOn with
  | nil => simp [after, NodeAt]
  | append_singleton cs c ih =>
    rw [after_concat, (simple_after cs).nodeAt_change, ih]
    simp [or_and_right, exists_or]

theorem Leveled.continues_change (h : g.Leveled) (c : Change) : Continues g (g.change c) := by
  cases c with
  | sink l => exact continues_addSink g l
  | support parent child => exact continues_support g parent child
  | consume l =>
    exact ⟨(nodes_consume g l).symm ▸ List.prefix_rfl, (edges_consume g l).symm ▸ List.prefix_rfl⟩
  | consumeAll ls =>
    have reduced := h.reduced_consumeAll ls
    exact ⟨reduced.nodes.symm ▸ List.prefix_rfl, reduced.edges.symm ▸ List.prefix_rfl⟩

/-! Levels forbid cycles. -/

section Levels

theorem Leveled.level?_eq (h : g.Leveled) {n : Node} (hn : n ∈ g.nodes)
    (hi : n.location.id = l.id) : g.level? l = some n.level := by
  cases hl : g.level? l with
  | none => exact absurd hi (ne_of_level? hl n hn)
  | some k =>
    obtain ⟨m, hm, hmi, rfl⟩ := exists_node_of_level? hl
    rw [h.level_eq hm hn (hmi.trans hi.symm)]

private theorem Leveled.level?_lt (h : g.Leveled) {e : Edge} (he : e ∈ g.edges) :
    ∃ c p, g.level? e.child = some c ∧ g.level? e.parent = some p ∧ c < p := by
  obtain ⟨m, hm, n, hn, hc, hp, hlt⟩ := h.ascends e he
  exact ⟨m.level, n.level, h.level?_eq hm hc, h.level?_eq hn hp, hlt⟩

private theorem Leveled.lt_of_transGen (h : g.Leveled) (hway : Relation.TransGen g.EdgeAt i j) :
    ∃ m ∈ g.nodes, ∃ n ∈ g.nodes, m.location.id = i ∧ n.location.id = j ∧ m.level < n.level := by
  induction hway with
  | single he =>
    obtain ⟨e, he, rfl, rfl⟩ := he
    exact h.ascends e he
  | tail _ he ih =>
    obtain ⟨m, hm, n, hn, hi, hj, hlt⟩ := ih
    obtain ⟨e, he, hc, rfl⟩ := he
    obtain ⟨_, _, n', hn', _, hp, _⟩ := h.ascends e he
    have := h.lt_of_edgeAt ⟨e, he, hc, rfl⟩ hn hn' hj hp
    exact ⟨m, hm, n', hn', hi, hp, by omega⟩

theorem Leveled.acyclic (h : g.Leveled) (i : Nat) : ¬Relation.TransGen g.EdgeAt i i := by
  intro hway
  obtain ⟨m, hm, n, hn, hi, hj, hlt⟩ := h.lt_of_transGen hway
  rw [h.level_eq hm hn (hi.trans hj.symm)] at hlt
  exact lt_irrefl _ hlt

private theorem mem_of_mem_prunings {k : Nat} {es : List Edge} {e : Edge} (h : e ∈ Nat.repeat prune k es) :
    e ∈ es := by
  induction k with
  | zero => exact h
  | succ k ih => exact ih (List.mem_filter.1 h).1

/-- An edge that outlasts some prunings has as many nodes above its parent: another edge that
outlasts one pruning fewer goes on from there. -/
private theorem Leveled.le_countP_of_mem_prunings (h : g.Leveled) (k : Nat) :
    ∀ e ∈ Nat.repeat prune k g.edges, ∀ n ∈ g.nodes, n.location.id = e.parent.id →
      k ≤ g.nodes.countP (n.level + 1 ≤ ·.level) := by
  induction k with
  | zero => intros; exact Nat.zero_le _
  | succ k ih =>
    intro e he n hn hp
    obtain ⟨_, hnext⟩ := List.mem_filter.1 he
    obtain ⟨d, hd, hdc⟩ := List.any_eq_true.1 hnext
    have hdc : d.child.id = e.parent.id := by simpa using hdc
    have hedge := mem_of_mem_prunings hd
    obtain ⟨_, _, m, hm, _, hdp, _⟩ := h.ascends d hedge
    have hlt : n.level < m.level := h.lt_of_edgeAt ⟨d, hedge, rfl, rfl⟩ hn hm (hp.trans hdc.symm) hdp
    have hk := ih d hd m hm hdp
    have hless := countP_level_lt hm (b := n.level + 1) hlt
    omega

theorem Leveled.isAcyclic (h : g.Leveled) : g.isAcyclic = true := by
  refine List.isEmpty_iff.2 (List.eq_nil_iff_forall_not_mem.2 fun e he => ?_)
  obtain ⟨_, _, n, hn, _, hp, _⟩ := h.ascends e (mem_of_mem_prunings he)
  have hk := h.le_countP_of_mem_prunings _ e he n hn hp
  have hless : g.nodes.countP (n.level + 1 ≤ ·.level) < g.nodes.length :=
    List.countP_lt_length_iff.2 ⟨n, hn, decide_eq_false (by omega)⟩
  omega

/-- An edge is reported as added if and only if it is there afterwards. -/
private theorem Leveled.support_eq_added_iff (h : g.Leveled) (parent child : Location) :
    (g.support parent child).1 = .added ↔ (g.support parent child).2.hasEdge child parent := by
  rcases support_cases g parent child with ⟨refused, same, hle⟩ | ⟨added, g', _, _, hg'⟩
  · refine ⟨fun added => absurd added refused, fun there => ?_⟩
    rw [same, hasEdge_iff] at there
    obtain ⟨e, he, hc, hp⟩ := there
    obtain ⟨m, hm, n, hn, hmi, hni, hlt⟩ := h.ascends e he
    have := hle _ _ (h.level?_eq hn (hni.trans hp)) (h.level?_eq hm (hmi.trans hc))
    omega
  · rw [hg']
    exact ⟨fun _ => hasEdge_addEdge g' child parent, fun _ => added⟩

private theorem support_eq_of_ne_added {parent child : Location}
    (h : (g.support parent child).1 ≠ .added) : (g.support parent child).2 = g := by
  rcases support_cases g parent child with ⟨_, same, _⟩ | ⟨added, _⟩
  · exact same
  · exact absurd added h

end Levels

/-- What holds of a graph after any operations: locations have one node each and sinks are distinct
nodes; edges are distinct and ascend, so there are no cycles; the next operation keeps nodes, levels
and edges; and an edge is there after it was to be added unless it was refused, which changes
nothing. -/
theorem after_ordered (cs : List Change) :
    (after cs).Simple ∧
    (∀ i, (after cs).NodeAt i ↔ ∃ c ∈ cs, c.Brings i) ∧
    (∀ e ∈ (after cs).edges, ∃ c p,
      (after cs).level? e.child = some c ∧ (after cs).level? e.parent = some p ∧ c < p) ∧
    (∀ i, ¬Relation.TransGen (after cs).EdgeAt i i) ∧ (after cs).isAcyclic = true ∧
    (∀ c, Continues (after cs) ((after cs).change c) ∧
      ∀ l k, (after cs).level? l = some k → ((after cs).change c).level? l = some k) ∧
    ∀ parent child,
      (((after cs).support parent child).1 = .added ↔
        ((after cs).support parent child).2.hasEdge child parent) ∧
      (((after cs).support parent child).1 ≠ .added →
        ((after cs).support parent child).2 = after cs) := by
  have h := simple_after cs
  have leveled := h.toLeveled
  refine ⟨h, fun i => nodeAt_after cs, fun e he => leveled.level?_lt he, leveled.acyclic,
    leveled.isAcyclic, fun c => ?_, fun parent child => ?_⟩
  · have continues := leveled.continues_change c
    exact ⟨continues, fun l k hk => continues.level? hk⟩
  · exact ⟨leveled.support_eq_added_iff parent child, support_eq_of_ne_added⟩

end PathSlice.Support.Graph
