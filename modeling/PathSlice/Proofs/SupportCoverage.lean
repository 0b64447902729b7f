import PathSlice.Proofs.AgendaRuns
import PathSlice.Proofs.ChainSearch
import PathSlice.Proofs.GraphHistories
import PathSlice.Proofs.ReplayRuns
import PathSlice.Slice.Marking

/-! Which locations end up in the graph of support of a version. Behind a version lie its origins,
and behind an origin those of what was loaded there. The graph does not go on after a step back, to
a location that the way has passed before. Which way it takes to an origin that there are several
ways to depends on the order of its work, so a step is one that may lead back if it does so on any of
them. What lies only behind such steps may be missing; everything else that lies behind the version
is a node, and nothing else is. -/
namespace PathSlice

namespace Support.Graph

variable {g g' g'' : Graph} {l m : Location}

theorem contains_iff : g.contains l ↔ ∃ n ∈ g.nodes, n.location.id = l.id := by
  unfold contains level?
  rw [Option.isSome_map, List.find?_isSome]
  simp

theorem contains_congr (h : l.id = m.id) : g.contains l ↔ g.contains m := by
  rw [contains_iff, contains_iff, h]

theorem nodes_addEdge (child parent : Location) : (g.addEdge child parent).nodes = g.nodes := by
  unfold addEdge
  split <;> rfl

/-- The second graph has the nodes of the first, nodes for some locations and no others. -/
structure Extends (g g' : Graph) (ls : List Location) : Prop where
  kept : g.nodes ⊆ g'.nodes
  contained : ∀ l ∈ ls, g'.contains l
  added : ∀ n ∈ g'.nodes, n ∈ g.nodes ∨ n.location ∈ ls

namespace Extends

variable {ls ms : List Location}

theorem contains (h : Extends g g' ls) (hl : g.contains l) : g'.contains l := by
  obtain ⟨n, hn, hi⟩ := contains_iff.1 hl
  exact contains_iff.2 ⟨n, h.kept hn, hi⟩

theorem refl (g : Graph) : Extends g g [] :=
  ⟨List.Subset.refl _, fun _ hl => absurd hl List.not_mem_nil, fun _ hn => .inl hn⟩

theorem trans (h : Extends g g' ls) (h' : Extends g' g'' ms) : Extends g g'' (ls ++ ms) := by
  refine ⟨List.Subset.trans h.kept h'.kept, fun l hl => ?_, fun n hn => ?_⟩
  · rcases List.mem_append.1 hl with hl | hl
    · exact h'.contains (h.contained l hl)
    · exact h'.contained l hl
  · rcases h'.added n hn with hn | hn
    · exact (h.added n hn).imp id (List.mem_append_left _)
    · exact .inr (List.mem_append_right _ hn)

/-- Nothing changes for a location that is a node already. -/
theorem same (h : g.contains l) (hn : g'.nodes = g.nodes) : Extends g g' [l] := by
  refine ⟨hn ▸ List.Subset.refl _, fun m hm => ?_, fun n hm => .inl (hn ▸ hm)⟩
  rw [List.mem_singleton.1 hm, contains_iff, hn]
  exact contains_iff.1 h

/-- One node is added. -/
theorem new {n : Node} (hn : g'.nodes = g.nodes ++ [n]) : Extends g g' [n.location] := by
  refine ⟨hn ▸ List.subset_append_left _ _, fun m hm => ?_, fun m hm => ?_⟩
  · rw [List.mem_singleton.1 hm, contains_iff, hn]
    exact ⟨n, List.mem_append_right _ List.mem_cons_self, rfl⟩
  · rw [hn] at hm
    rcases List.mem_append.1 hm with hm | hm
    · exact .inl hm
    · exact .inr (List.mem_map_of_mem hm)

end Extends

private theorem extends_addSink (g : Graph) (l : Location) : Extends g (g.addSink l) [l] := by
  unfold addSink
  by_cases h : g.contains l
  · rw [if_pos h]
    exact .same h rfl
  · rw [if_neg h]
    exact .new (n := ⟨l, 0⟩) rfl

theorem extends_foldl_addSink (os : List Origin) (g : Graph) :
    Extends g (os.foldl (fun g o => g.addSink o.location) g) (os.map (·.location)) := by
  induction os generalizing g with
  | nil => exact .refl g
  | cons o os ih => exact (extends_addSink g o.location).trans (ih _)

/-- What was put on top of a graph: nodes that lie higher than a node that was there, and edges from
a child to some parents. No sink is among it. -/
structure Rises (g g' : Graph) (child : Location) (parents : List Location) : Prop extends
    Continues g g' where
  sinks : g'.sinks = g.sinks
  higher : ∀ n ∈ g'.nodes, n ∈ g.nodes ∨ ∃ m ∈ g.nodes, m.level < n.level
  joins : ∀ e ∈ g'.edges, e ∈ g.edges ∨ e.child = child ∧ e.parent ∈ parents

namespace Rises

variable {child : Location} {ls ms : List Location}

theorem refl (g : Graph) (child : Location) (ls : List Location) : Rises g g child ls :=
  ⟨.refl g, rfl, fun _ hn => .inl hn, fun _ he => .inl he⟩

theorem trans (h : Rises g g' child ls) (h' : Rises g' g'' child ms) :
    Rises g g'' child (ls ++ ms) := by
  refine ⟨h.toContinues.trans h'.toContinues, h'.sinks.trans h.sinks, fun n hn => ?_, fun e he => ?_⟩
  · rcases h'.higher n hn with hn | ⟨m, hm, hlt⟩
    · exact h.higher n hn
    · rcases h.higher m hm with hm | ⟨k, hk, hlt'⟩
      · exact .inr ⟨m, hm, hlt⟩
      · exact .inr ⟨k, hk, hlt'.trans hlt⟩
  · rcases h'.joins e he with he | ⟨hc, hp⟩
    · exact (h.joins e he).imp id fun ⟨hc, hp⟩ => ⟨hc, List.mem_append_left _ hp⟩
    · exact .inr ⟨hc, List.mem_append_right _ hp⟩

/-- A node is put above a node that is there. -/
theorem addNode {c : Int} (hc : g.level? child = some c) (l : Location) :
    Rises g (g.addNode l (c + 1)) child [] := by
  obtain ⟨m, hm, _, rfl⟩ := exists_node_of_level? hc
  refine ⟨⟨List.prefix_append _ _, List.prefix_rfl⟩, rfl, fun n hn => ?_, fun _ he => .inl he⟩
  rcases List.mem_append.1 hn with hn | hn
  · exact .inl hn
  · rw [List.mem_singleton.1 hn]
    exact .inr ⟨m, hm, Int.lt_succ m.level⟩

theorem addEdge (g : Graph) (child parent : Location) :
    Rises g (g.addEdge child parent) child [parent] := by
  unfold Graph.addEdge
  split
  · exact .refl g child _
  · refine ⟨⟨List.prefix_rfl, List.prefix_append _ _⟩, rfl, fun _ hn => .inl hn, fun e he => ?_⟩
    rcases List.mem_append.1 he with he | he
    · exact .inl he
    · rw [List.mem_singleton.1 he]
      exact .inr ⟨rfl, List.mem_singleton_self parent⟩

end Rises

/-- A child that is a node gets a parent above it, or nothing changes. -/
theorem rises_support {child : Location} (h : g.contains child) (parent : Location) :
    Rises g (g.support parent child).2 child [parent] := by
  obtain ⟨c, hc⟩ := Option.isSome_iff_exists.1 h
  unfold support
  split
  · exact .refl g child _
  · rw [hc]
    cases g.level? parent with
    | none => exact (Rises.addNode hc parent).trans (.addEdge _ child parent)
    | some k =>
      dsimp only
      split
      · exact .refl g child _
      · exact .addEdge g child parent

end Support.Graph

/-- What an origin is known by: the identities of its source and of its location. -/
def Origin.ids (o : Origin) : Option Nat × Nat :=
  (o.source.map (·.id), o.location.id)

namespace Path

open Support (Graph)

/-- A refused edge joins two nodes, so a parent is a node in any case. -/
theorem Build.extends_support {b : Build} {child : Location} (h : b.graph.contains child)
    (parent : Location) : Graph.Extends b.graph (b.support parent child).graph [parent] := by
  unfold Build.support Graph.support
  by_cases hi : parent.id = child.id
  · rw [if_pos hi]
    exact .same ((Graph.contains_congr hi).2 h) rfl
  · rw [if_neg hi]
    obtain ⟨c, hc⟩ := Option.isSome_iff_exists.1 h
    rw [hc]
    cases hp : b.graph.level? parent with
    | none => exact .new (n := ⟨parent, c + 1⟩) (Graph.nodes_addEdge _ _)
    | some k =>
      have hparent : b.graph.contains parent := Option.isSome_iff_exists.2 ⟨k, hp⟩
      by_cases hk : k ≤ c
      · simp only [hk, if_true]
        exact .same hparent rfl
      · simp only [hk, if_false]
        exact .same hparent (Graph.nodes_addEdge _ _)

theorem Build.extends_foldl_support {b : Build} {child : Location} (h : b.graph.contains child)
    (os : List Origin) :
    Graph.Extends b.graph (os.foldl (fun b o => b.support o.location child) b).graph
      (os.map (·.location)) := by
  induction os generalizing b with
  | nil => exact .refl b.graph
  | cons o os ih =>
    have ho := Build.extends_support h o.location
    exact ho.trans (ih (ho.contains h))

theorem Build.rises_support {b : Build} {child : Location} (h : b.graph.contains child)
    (parent : Location) : Graph.Rises b.graph (b.support parent child).graph child [parent] := by
  have rises := Graph.rises_support h parent
  unfold Build.support
  split
  · exact .refl b.graph child _
  · rename_i hs
    rwa [hs] at rises

theorem Build.rises_foldl_support {b : Build} {child : Location} (h : b.graph.contains child)
    (os : List Origin) :
    Graph.Rises b.graph (os.foldl (fun b o => b.support o.location child) b).graph child
      (os.map (·.location)) := by
  induction os generalizing b with
  | nil => exact .refl b.graph child _
  | cons o os ih =>
    have next := (Build.extends_support h o.location).contains h
    exact (Build.rises_support h o.location).trans (ih next)

/-- The origins behind a version: its own, and those of what was loaded from an origin behind it. -/
inductive Behind (p : Path) (v : Version) : Origin → Prop
  | first {o : Origin} (h : o ∈ p.origins v) : Behind p v o
  | next {o o' : Origin} {s : Version} (h : Behind p v o) (hs : o.source = some s)
      (ho : o' ∈ p.origins s) : Behind p v o'

/-- A way from `t` from origin to origin, the last one first. Each of them is an origin of what was
loaded at the one before, and no location is passed twice. -/
inductive Way (p : Path) (t : Version) : List Origin → Prop
  | first {o : Origin} (h : o ∈ p.origins t) : Way p t [o]
  | next {o o' : Origin} {s : Version} {passed : List Origin} (h : Way p t (o :: passed))
      (hs : o.source = some s) (ho : o' ∈ p.origins s)
      (new : ∀ q ∈ o :: passed, q.location.id ≠ o'.location.id) : Way p t (o' :: o :: passed)

/-- A step from the first origin to the second may lead back: a way to the first has passed the
location of the second, with another version. -/
def LeadsBack (p : Path) (t : Version) (o o' : Origin) : Prop :=
  ∃ last passed, p.Way t (last :: passed) ∧ last.ids = o.ids ∧
    ∃ q ∈ last :: passed, q.location.id = o'.location.id ∧ q.ids ≠ o'.ids

/-- The origins that are gone on from: those of `t`, and those come to from there by steps that do
not lead back. -/
inductive Pursued (p : Path) (t : Version) : Origin → Prop
  | first {o : Origin} (h : o ∈ p.origins t) : Pursued p t o
  | next {o o' : Origin} {s : Version} (h : Pursued p t o) (hs : o.source = some s)
      (ho : o' ∈ p.origins s) (hb : ¬p.LeadsBack t o o') : Pursued p t o'

/-- The origins of `t`, and of what was loaded at the origins that are gone on from. -/
inductive Traced (p : Path) (t : Version) : Origin → Prop
  | first {o : Origin} (h : o ∈ p.origins t) : Traced p t o
  | next {o o' : Origin} {s : Version} (h : Pursued p t o) (hs : o.source = some s)
      (ho : o' ∈ p.origins s) : Traced p t o'

theorem Way.behind {p : Path} {t : Version} {way : List Origin} (h : p.Way t way) :
    ∀ q ∈ way, p.Behind t q := by
  induction h with
  | first ho => exact List.forall_mem_singleton.2 (.first ho)
  | next _ hs ho _ ih =>
    have before := ih _ List.mem_cons_self
    exact List.forall_mem_cons.2 ⟨.next before hs ho, ih⟩

namespace Step

def key (st : Step) : Nat × Nat :=
  (st.source.id, st.target.id)

/-- The origin that a step goes on from. -/
def origin (st : Step) : Origin :=
  ⟨some st.source, st.target⟩

end Step

theorem mem_onward {trail : List Nat} {os : List Origin} {st : Step} :
    st ∈ onward trail os ↔ st.origin ∈ os ∧ st.trail = trail := by
  unfold onward
  rw [List.mem_filterMap]
  constructor
  · rintro ⟨⟨source, l⟩, ho, hs⟩
    obtain ⟨s, rfl, rfl⟩ := Option.map_eq_some_iff.1 hs
    exact ⟨ho, rfl⟩
  · rintro ⟨ho, rfl⟩
    exact ⟨st.origin, ho, rfl⟩

/-- The steps that a step brings up, and the graph with its support. -/
def take (p : Path) (st : Step) (b : Build) : List Step × Build :=
  ((onward (st.target.id :: st.trail) (p.expansion st)).reverse,
    (p.expansion st).foldl (fun b o => b.support o.location st.target) b)

theorem addSupport_eq (p : Path) (g : Graph) (t : Version) :
    p.addSupport g t =
      Agenda.run Step.key p.take (fun _ b => b) p.passages (onward [] (p.origins t)).reverse
        ⟨(p.origins t).foldl (fun g o => g.addSink o.location) g, []⟩ :=
  rfl

theorem mem_expansion {p : Path} {st : Step} {o : Origin} :
    o ∈ p.expansion st ↔
      o ∈ p.origins st.source ∧ o.location.id ∉ st.target.id :: st.trail := by
  simp [expansion]

theorem mem_passages_of_mem_origins {p : Path} {o : Origin} {v s : Version}
    (ho : o ∈ p.origins v) (hs : o.source = some s) : (s.id, o.location.id) ∈ p.passages := by
  obtain ⟨e, he, rfl, hv⟩ := flow_of_mem_origins ho hs
  exact List.mem_filterMap.2 ⟨e, he, by rw [hv]; rfl⟩

private theorem Pursued.mem_passages {p : Path} {t s : Version} {o : Origin} (h : p.Pursued t o)
    (hs : o.source = some s) : (s.id, o.location.id) ∈ p.passages := by
  cases h with
  | first ho => exact mem_passages_of_mem_origins ho hs
  | next _ _ ho _ => exact mem_passages_of_mem_origins ho hs

section Tracing

variable {p : Path} {t : Version} {pending pending' : List (Nat × Nat)} {stack stack' : List Step}
variable {b b' : Build} {st : Step} {o : Origin}

/-- An origin is a node and, unless it was come to by a step back, the walk has gone on from it or
will do so. -/
structure Met (pending : List (Nat × Nat)) (stack : List Step) (b : Build) (back : Prop)
    (o : Origin) : Prop where
  node : b.graph.contains o.location
  entered : ¬back → ∀ s, o.source = some s → (s.id, o.location.id) ∈ pending →
    ∃ st ∈ stack, st.key = (s.id, o.location.id)

/-- The walk went on from an origin. -/
structure Taken (pending : List (Nat × Nat)) (b : Build) (o : Origin) : Prop where
  node : b.graph.contains o.location
  gone : ∀ s, o.source = some s → (s.id, o.location.id) ∉ pending

/-- A step on the stack stands for a node, and its trail for a way there that the walk has taken. -/
structure Ahead (p : Path) (t : Version) (pending : List (Nat × Nat)) (b : Build) (st : Step) :
    Prop where
  node : b.graph.contains st.target
  way : ∃ passed, p.Way t (st.origin :: passed) ∧ passed.map (·.location.id) = st.trail ∧
    ∀ q ∈ passed, Taken pending b q

/-- What holds while the support of `t` is collected. -/
structure Tracing (p : Path) (t : Version) (pending : List (Nat × Nat)) (stack : List Step)
    (b : Build) : Prop where
  sinks : ∀ o ∈ p.origins t, Met pending stack b False o
  steps : ∀ st ∈ stack, p.Ahead t pending b st
  visited : ∀ o s, o.source = some s → (s.id, o.location.id) ∈ p.passages →
    (s.id, o.location.id) ∉ pending →
      ∀ o' ∈ p.origins s, Met pending stack b (p.LeadsBack t o o') o'
  nodes : ∀ n ∈ b.graph.nodes, ∃ o, p.Behind t o ∧ n.location = o.location

theorem Met.mono {back : Prop} (h : Met pending stack b back o) (hp : pending' ⊆ pending)
    (hs : ∀ st ∈ stack, st.key ∈ pending' → st ∈ stack')
    (hb : ∀ l, b.graph.contains l → b'.graph.contains l) : Met pending' stack' b' back o := by
  refine ⟨hb _ h.node, fun forth s hsource hk => ?_⟩
  obtain ⟨st, hst, hkey⟩ := h.entered forth s hsource (hp hk)
  exact ⟨st, hs st hst (hkey ▸ hk), hkey⟩

theorem Taken.mono (h : Taken pending b o) (hp : pending' ⊆ pending)
    (hb : ∀ l, b.graph.contains l → b'.graph.contains l) : Taken pending' b' o :=
  ⟨hb _ h.node, fun s hs hk => h.gone s hs (hp hk)⟩

theorem Ahead.mono (h : p.Ahead t pending b st) (hp : pending' ⊆ pending)
    (hb : ∀ l, b.graph.contains l → b'.graph.contains l) : p.Ahead t pending' b' st := by
  obtain ⟨passed, way, htrail, taken⟩ := h.way
  exact ⟨hb _ h.node, passed, way, htrail, fun q hq => (taken q hq).mono hp hb⟩

theorem Ahead.behind (h : p.Ahead t pending b st) : p.Behind t st.origin := by
  obtain ⟨_, way, _⟩ := h.way
  exact way.behind _ List.mem_cons_self

private theorem without_subset (k : Nat × Nat) (pending : List (Nat × Nat)) :
    Agenda.without k pending ⊆ pending :=
  fun _ h => (Agenda.mem_without.1 h).1

/-- Once a step is taken, the walk went on from all that it has passed. -/
theorem Ahead.passed (h : p.Ahead t pending b st) :
    ∃ passed, p.Way t (st.origin :: passed) ∧
      (st.origin :: passed).map (·.location.id) = st.target.id :: st.trail ∧
      ∀ q ∈ st.origin :: passed, Taken (Agenda.without st.key pending) b q := by
  obtain ⟨passed, way, htrail, taken⟩ := h.way
  refine ⟨passed, way, htrail ▸ rfl, List.forall_mem_cons.2 ⟨⟨h.node, ?_⟩, ?_⟩⟩
  · intro s hs hk
    cases hs
    exact (Agenda.mem_without.1 hk).2 rfl
  · exact fun q hq => (taken q hq).mono (without_subset st.key pending) fun _ hl => hl

/-- The walk has gone on from an origin that it passed with the same version. -/
theorem Taken.met {q : Origin} {back : Prop} (h : Taken pending b q)
    (hi : q.location.id = o.location.id) (same : ¬back → q.ids = o.ids) :
    Met pending stack b back o := by
  refine ⟨(Graph.contains_congr hi).1 h.node, fun forth s hs hk => ?_⟩
  have sources : q.source.map (·.id) = some s.id := by
    rw [(Prod.mk.inj (same forth)).1, hs]
    rfl
  obtain ⟨s', hs', hid⟩ := Option.map_eq_some_iff.1 sources
  rw [← hid, ← hi] at hk
  exact absurd hk (h.gone s' hs')

theorem tracing_initial (p : Path) (t : Version) :
    p.Tracing t p.passages (onward [] (p.origins t)).reverse
      ⟨(p.origins t).foldl (fun g o => g.addSink o.location) {}, []⟩ := by
  have hext := Graph.extends_foldl_addSink (p.origins t) {}
  have node := fun o (ho : o ∈ p.origins t) => hext.contained _ (List.mem_map_of_mem ho)
  refine ⟨fun o ho => ⟨node o ho, fun _ s hs _ => ?_⟩, fun st hst => ?_, ?_, fun n hn => ?_⟩
  · refine ⟨⟨s, o.location, []⟩, List.mem_reverse.2 (mem_onward.2 ⟨?_, rfl⟩), rfl⟩
    rw [Step.origin, ← hs]
    exact ho
  · obtain ⟨ho, htrail⟩ := mem_onward.1 (List.mem_reverse.1 hst)
    exact ⟨node _ ho, [], .first ho, htrail.symm, fun _ hq => absurd hq List.not_mem_nil⟩
  · exact fun o s _ hm hn => absurd hm hn
  · obtain ⟨o, ho, hl⟩ := List.mem_map.1 ((hext.added n hn).resolve_left List.not_mem_nil)
    exact ⟨o, .first ho, hl.symm⟩

/-- The origins of what a step loaded are met once the step is taken. One that the walk skips lies
where it has passed, with the same version unless the step leads back. -/
theorem Ahead.met (h : p.Ahead t pending b st) {o' : Origin} (hids : st.origin.ids = o.ids)
    (ho : o' ∈ p.origins st.source) (rest : List Step) :
    Met (Agenda.without st.key pending) ((p.take st b).1 ++ rest) (p.take st b).2
      (p.LeadsBack t o o') o' := by
  have hext := Build.extends_foldl_support h.node (p.expansion st)
  by_cases hi : o'.location.id ∈ st.target.id :: st.trail
  · obtain ⟨passed, way, hway, taken⟩ := h.passed
    rw [← hway] at hi
    obtain ⟨q, hq, hi⟩ := List.mem_map.1 hi
    have there := (taken q hq).mono (List.Subset.refl _) fun _ => hext.contains
    refine there.met hi fun forth => ?_
    by_contra other
    exact forth ⟨st.origin, passed, way, hids, q, hq, hi, other⟩
  · have hexp := mem_expansion.2 ⟨ho, hi⟩
    refine ⟨hext.contained _ (List.mem_map_of_mem hexp), fun _ s hs _ => ?_⟩
    refine ⟨⟨s, o'.location, st.target.id :: st.trail⟩, List.mem_append_left _ ?_, rfl⟩
    refine List.mem_reverse.2 (mem_onward.2 ⟨?_, rfl⟩)
    rw [Step.origin, ← hs]
    exact hexp

theorem Ahead.steps (h : p.Ahead t pending b st) :
    ∀ next ∈ (p.take st b).1, p.Ahead t (Agenda.without st.key pending) (p.take st b).2 next := by
  intro next hnext
  have hext := Build.extends_foldl_support h.node (p.expansion st)
  obtain ⟨hexp, htrail⟩ := mem_onward.1 (List.mem_reverse.1 hnext)
  obtain ⟨ho, new⟩ := mem_expansion.1 hexp
  obtain ⟨passed, way, hway, taken⟩ := h.passed
  have onto : p.Way t (next.origin :: st.origin :: passed) := by
    refine .next way rfl ho fun q hq hi => ?_
    rw [← hway] at new
    exact new (hi ▸ List.mem_map_of_mem hq)
  refine ⟨hext.contained _ (List.mem_map_of_mem hexp), _, onto, hway.trans htrail.symm, ?_⟩
  exact fun q hq => (taken q hq).mono (List.Subset.refl _) fun _ => hext.contains

theorem tracing_visit {rest : List Step} (h : p.Tracing t pending (st :: rest) b) :
    p.Tracing t (Agenda.without st.key pending) ((p.take st b).1 ++ rest) (p.take st b).2 := by
  obtain ⟨hst, hrest⟩ := List.forall_mem_cons.1 h.steps
  have hext := Build.extends_foldl_support hst.node (p.expansion st)
  have fewer := without_subset st.key pending
  have met {back : Prop} {o : Origin} (ho : Met pending (st :: rest) b back o) :
      Met (Agenda.without st.key pending) ((p.take st b).1 ++ rest) (p.take st b).2 back o := by
    refine ho.mono fewer (fun st' hm hk => ?_) fun _ => hext.contains
    rcases List.mem_cons.1 hm with rfl | hm
    · exact absurd rfl (Agenda.mem_without.1 hk).2
    · exact List.mem_append_right _ hm
  refine ⟨fun o ho => met (h.sinks o ho), fun next hnext => ?_, fun o s hs hm hn o' ho => ?_,
    fun n hn => ?_⟩
  · rcases List.mem_append.1 hnext with hnext | hnext
    · exact hst.steps next hnext
    · exact (hrest next hnext).mono fewer fun _ => hext.contains
  · by_cases hk : (s.id, o.location.id) = st.key
    · obtain ⟨hsource, hlocation⟩ := Prod.mk.inj hk
      rw [origins_congr hsource] at ho
      refine hst.met ?_ ho rest
      simp [Origin.ids, Step.origin, hs, hsource, hlocation]
    · exact met (h.visited o s hs hm (fun hp => hn (Agenda.mem_without.2 ⟨hp, hk⟩)) o' ho)
  · rcases hext.added n hn with hn | hn
    · exact h.nodes n hn
    · obtain ⟨o, ho, hl⟩ := List.mem_map.1 hn
      exact ⟨o, .next hst.behind rfl (mem_expansion.1 ho).1, hl.symm⟩

theorem tracing_pass {rest : List Step} (hk : st.key ∉ pending)
    (h : p.Tracing t pending (st :: rest) b) : p.Tracing t pending rest b := by
  have met {back : Prop} {o : Origin} (ho : Met pending (st :: rest) b back o) :
      Met pending rest b back o := by
    refine ho.mono (List.Subset.refl _) (fun st' hm hk' => ?_) fun _ hl => hl
    rcases List.mem_cons.1 hm with rfl | hm
    · exact absurd hk' hk
    · exact hm
  exact ⟨fun o ho => met (h.sinks o ho), (List.forall_mem_cons.1 h.steps).2,
    fun o s hs hm hn o' ho => met (h.visited o s hs hm hn o' ho), h.nodes⟩

/-- When no step is left, the walk has gone on from all it has entered. -/
theorem Met.gone {back : Prop} (h : Met pending [] b back o) (forth : ¬back) :
    ∀ s, o.source = some s → (s.id, o.location.id) ∉ pending := by
  intro s hs hk
  obtain ⟨_, hst, _⟩ := h.entered forth s hs hk
  exact absurd hst List.not_mem_nil

theorem Tracing.gone (h : p.Tracing t pending [] b) (ho : p.Pursued t o) :
    ∀ s, o.source = some s → (s.id, o.location.id) ∉ pending := by
  induction ho with
  | first ho => exact (h.sinks _ ho).gone id
  | @next o o' s before hs ho hb ih =>
    exact (h.visited o s hs (before.mem_passages hs) (ih s hs) o' ho).gone hb

theorem Tracing.contains (h : p.Tracing t pending [] b) (ho : p.Traced t o) :
    b.graph.contains o.location := by
  cases ho with
  | first ho => exact (h.sinks _ ho).node
  | @next before _ s hpursued hs ho =>
    exact (h.visited before s hs (hpursued.mem_passages hs) (h.gone hpursued s hs) o ho).node

/-- What holds while the support of `t` is collected holds of all of it. -/
theorem tracing_addSupport (p : Path) (t : Version) :
    ∃ pending, p.Tracing t pending [] (p.addSupport {} t) :=
  Agenda.run_invariant (p.Tracing t) (fun _ _ _ _ _ => tracing_visit)
    (fun _ _ _ _ => tracing_pass) (tracing_initial p t)

end Tracing

/-- Every origin that can be traced from a version is a node of its support, and every node is the
location of an origin behind the version. -/
theorem addSupport_traced (p : Path) (t : Version) :
    (∀ o, p.Traced t o → (p.addSupport {} t).graph.contains o.location) ∧
      ∀ n ∈ (p.addSupport {} t).graph.nodes, ∃ o, p.Behind t o ∧ n.location = o.location := by
  obtain ⟨_, h⟩ := tracing_addSupport p t
  exact ⟨fun o ho => h.contains ho, h.nodes⟩

end Path

namespace Replay

/-- A location `l` is filled from `m`, that had been filled from `n`. It is then refilled with a
version computed from what was loaded from it, and the last version is computed from both. -/
def mixedProgram : Program :=
  ((Program.ofDeclarations 1 [
    ⟨"k", .constant, .integer 32⟩,
    ⟨"n", .instruction .alloca "main" [], .pointer⟩,
    ⟨"m", .instruction .alloca "main" [], .pointer⟩,
    ⟨"l", .instruction .alloca "main" [], .pointer⟩,
    ⟨"u", .instruction .add "main" ["k", "k"], .integer 32⟩,
    ⟨"sn", .instruction .store "main" ["u", "n"], .void⟩,
    ⟨"x", .instruction .load "main" ["n"], .integer 32⟩,
    ⟨"sm", .instruction .store "main" ["x", "m"], .void⟩,
    ⟨"y", .instruction .load "main" ["m"], .integer 32⟩,
    ⟨"sl", .instruction .store "main" ["y", "l"], .void⟩,
    ⟨"z", .instruction .load "main" ["l"], .integer 32⟩,
    ⟨"w", .instruction .add "main" ["z", "k"], .integer 32⟩,
    ⟨"sw", .instruction .store "main" ["w", "l"], .void⟩,
    ⟨"t", .instruction .load "main" ["l"], .integer 32⟩,
    ⟨"v", .instruction .add "main" ["z", "t"], .integer 32⟩]).toOption).getD []

def mixed : List Event :=
  [.execute "n" [.pointer 16] false,
    .execute "m" [.pointer 32] false,
    .execute "l" [.pointer 48] false,
    .execute "u" [.ofBits 2 32, .ofBits 1 32, .ofBits 1 32] false,
    .execute "sn" [.ofBits 2 32, .pointer 16] false,
    .execute "x" [.ofBits 2 32, .pointer 16] false,
    .execute "sm" [.ofBits 2 32, .pointer 32] false,
    .execute "y" [.ofBits 2 32, .pointer 32] false,
    .execute "sl" [.ofBits 2 32, .pointer 48] false,
    .execute "z" [.ofBits 2 32, .pointer 48] false,
    .execute "w" [.ofBits 3 32, .ofBits 2 32, .ofBits 1 32] false,
    .execute "sw" [.ofBits 3 32, .pointer 48] false,
    .execute "t" [.ofBits 3 32, .pointer 48] false,
    .execute "v" [.ofBits 5 32, .ofBits 2 32, .ofBits 3 32] false]

def mixedPath : Path :=
  (pursue 0 mixed (start mixedProgram 16 false)).2.state.path

/-- The origins of the versions that lie on a way from the last one, which is 32. -/
private def mixedOrigins : Nat → List (Option Nat × Nat)
  | 32 => [(some 27, 22), (some 30, 22)]
  | 30 => [(some 27, 22)]
  | 27 => [(some 26, 20)]
  | 26 => [(some 25, 18)]
  | _ => []

private def mixedBehind : List (Option Nat × Nat) :=
  [(some 27, 22), (some 30, 22), (some 26, 20), (some 25, 18)]

/-- Only the identity of a version matters for its origins, so it is enough to look at one version
for each identity. -/
private theorem origins_ids {p : Path} {ids : List Nat} {table : Nat → List (Option Nat × Nat)}
    (h : ∀ i ∈ ids, (p.origins ⟨i, ⟨1, "k", .constant, .integer 32⟩, .pointer 0⟩).map Origin.ids =
      table i) (v : Version) (hv : v.id ∈ ids) : (p.origins v).map Origin.ids = table v.id := by
  rw [← h v.id hv]
  exact congrArg _ (Path.origins_congr rfl)

private theorem mixed_ids : ∀ v : Version, v.id ∈ [32, 30, 27, 26, 25] →
    (mixedPath.origins v).map Origin.ids = mixedOrigins v.id :=
  origins_ids (by decide +kernel)

private theorem exists_origin {p : Path} {v : Version} {ids : List (Option Nat × Nat)} {i j : Nat}
    (hv : (p.origins v).map Origin.ids = ids) (h : (some i, j) ∈ ids) :
    ∃ o ∈ p.origins v, ∃ s, o.source = some s ∧ s.id = i ∧ o.location.id = j := by
  obtain ⟨o, ho, hids⟩ := List.mem_map.1 (hv ▸ h)
  obtain ⟨hs, hl⟩ := Prod.mk.inj hids
  obtain ⟨s, hs, hi⟩ := Option.map_eq_some_iff.1 hs
  exact ⟨o, ho, s, hs, hi, hl⟩

private theorem mixed_behind {v : Version} (hv : v.id = 32) {o : Origin}
    (h : mixedPath.Behind v o) : o.ids ∈ mixedBehind := by
  have start : mixedOrigins 32 ⊆ mixedBehind := by decide
  have closed : ∀ ids ∈ mixedBehind, ∀ i ∈ ids.1,
      i ∈ [32, 30, 27, 26, 25] ∧ mixedOrigins i ⊆ mixedBehind := by
    decide
  induction h with
  | first ho =>
    rw [← hv, ← mixed_ids v (by simp [hv])] at start
    exact start (List.mem_map_of_mem ho)
  | @next o o' s _ hs ho ih =>
    obtain ⟨known, within⟩ := closed _ ih s.id (Option.map_eq_some_iff.2 ⟨s, hs, rfl⟩)
    exact within (mixed_ids s known ▸ List.mem_map_of_mem ho)

/-- The way from the last version to `n` starts at `l`, and the same content of `l` also lies behind
its refill. -/
theorem addSupport_traced_mixed :
    ∃ v ∈ mixedPath.versions, ∃ o, o.location.id = 18 ∧ mixedPath.Traced v o ∧
      (mixedPath.addSupport {} v).graph.contains o.location := by
  obtain ⟨v, hv, hid⟩ := Option.map_eq_some_iff.1
    (by decide +kernel : mixedPath.versions[0]?.map (·.id) = some 32)
  obtain ⟨l, hl, y, hy, hyid, hlid⟩ := exists_origin (i := 27) (j := 22)
    (mixed_ids v (by simp [hid])) (by rw [hid]; decide)
  obtain ⟨m, hm, x, hx, hxid, hmid⟩ := exists_origin (i := 26) (j := 20)
    (mixed_ids y (by simp [hyid])) (by rw [hyid]; decide)
  obtain ⟨n, hn, u, _, _, hnid⟩ := exists_origin (i := 25) (j := 18)
    (mixed_ids x (by simp [hxid])) (by rw [hxid]; decide)
  have hmids : m.ids = (some 26, 20) := by simp [Origin.ids, hx, hxid, hmid]
  -- Wherever a way passes `m`, it does so with the same version.
  have forth : ¬mixedPath.LeadsBack v l m := by
    rintro ⟨_, _, way, _, q, hq, hi, other⟩
    have same : ∀ ids ∈ mixedBehind, ids.2 = 20 → ids = (some 26, 20) := by decide
    exact other ((same _ (mixed_behind hid (way.behind q hq)) (hi.trans hmid)).trans hmids.symm)
  have traced : mixedPath.Traced v n := .next (.next (.first hl) hy hm forth) hx hn
  exact ⟨v, List.mem_of_getElem? hv, n, hnid, traced,
    (Path.addSupport_traced mixedPath v).1 n traced⟩

/-- A location `l` is refilled with a version computed from what was loaded from it; that had been
loaded from `m`. -/
def refilledProgram : Program :=
  ((Program.ofDeclarations 1 [
    ⟨"k", .constant, .integer 32⟩,
    ⟨"m", .instruction .alloca "main" [], .pointer⟩,
    ⟨"l", .instruction .alloca "main" [], .pointer⟩,
    ⟨"x", .instruction .add "main" ["k", "k"], .integer 32⟩,
    ⟨"sm", .instruction .store "main" ["x", "m"], .void⟩,
    ⟨"y", .instruction .load "main" ["m"], .integer 32⟩,
    ⟨"sl", .instruction .store "main" ["y", "l"], .void⟩,
    ⟨"z", .instruction .load "main" ["l"], .integer 32⟩,
    ⟨"w", .instruction .add "main" ["z", "k"], .integer 32⟩,
    ⟨"sw", .instruction .store "main" ["w", "l"], .void⟩,
    ⟨"t", .instruction .load "main" ["l"], .integer 32⟩]).toOption).getD []

def refilled : List Event :=
  [.execute "m" [.pointer 16] false,
    .execute "l" [.pointer 32] false,
    .execute "x" [.ofBits 2 32, .ofBits 1 32, .ofBits 1 32] false,
    .execute "sm" [.ofBits 2 32, .pointer 16] false,
    .execute "y" [.ofBits 2 32, .pointer 16] false,
    .execute "sl" [.ofBits 2 32, .pointer 32] false,
    .execute "z" [.ofBits 2 32, .pointer 32] false,
    .execute "w" [.ofBits 3 32, .ofBits 2 32, .ofBits 1 32] false,
    .execute "sw" [.ofBits 3 32, .pointer 32] false,
    .execute "t" [.ofBits 3 32, .pointer 32] false]

def refilledPath : Path :=
  (pursue 0 refilled (start refilledProgram 12 false)).2.state.path

private def refilledOrigins : Nat → List (Option Nat × Nat)
  | 24 => [(some 23, 16)]
  | 23 => [(some 20, 16)]
  | _ => [(some 19, 14)]

private theorem refilled_ids : ∀ v : Version, v.id ∈ [24, 23, 20] →
    (refilledPath.origins v).map Origin.ids = refilledOrigins v.id :=
  origins_ids (by decide +kernel)

/-- The last version was computed from what was in `m`, but its support stops at `l`: the way to `m`
passes `l` twice. -/
theorem addSupport_misses_refilled :
    ∃ t ∈ refilledPath.versions, ∃ o, refilledPath.Behind t o ∧
      ¬(refilledPath.addSupport {} t).graph.contains o.location := by
  obtain ⟨t, ht, told⟩ := Option.map_eq_some_iff.1
    (by decide +kernel : refilledPath.versions[0]?.map (fun t =>
      (t.id, (refilledPath.addSupport {} t).graph.nodes.map (·.location.id))) = some (24, [16]))
  obtain ⟨hid, nodes⟩ := Prod.mk.inj told
  obtain ⟨l, hl, w, hw, hwid, _⟩ := exists_origin (i := 23) (j := 16)
    (refilled_ids t (by simp [hid])) (by rw [hid]; decide)
  obtain ⟨l', hl', y, hy, hyid, _⟩ := exists_origin (i := 20) (j := 16)
    (refilled_ids w (by simp [hwid])) (by rw [hwid]; decide)
  obtain ⟨m, hm, x, hx, hxid, hmid⟩ := exists_origin (i := 19) (j := 14)
    (refilled_ids y (by simp [hyid])) (by rw [hyid]; decide)
  refine ⟨t, List.mem_of_getElem? ht, m, ?_, fun hc => ?_⟩
  · exact .next (.next (.first hl) hw hl') hy hm
  · obtain ⟨n, hn, hi⟩ := Support.Graph.contains_iff.1 hc
    have hn := List.mem_singleton.1 (nodes ▸ List.mem_map_of_mem hn)
    omega

end Replay

end PathSlice
