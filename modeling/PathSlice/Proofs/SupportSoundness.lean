import PathSlice.Proofs.LookupLoops
import PathSlice.Proofs.SinkFrontier
import PathSlice.Proofs.SupportCoverage

/-! Nothing stray gets into the graph of support of a version. Its sinks are the origins of the
version, at level zero. All other nodes lie higher and stand for origins behind the version, and an
edge leads from an origin to an origin of what was loaded there. The loop that collects the graph
comes to an end, since it goes on from every passage through memory once at most. -/
namespace PathSlice

open StateTransition

namespace Agenda

variable {κ τ σ : Type} [DecidableEq κ]

/-- The state of an agenda as a loop: instead of the keys that are pending it remembers those that
were opened. -/
structure Progress (κ τ σ : Type) where
  opened : List κ
  stack : List τ
  result : σ

/-- One turn of the loop. -/
def turn (key : τ → κ) (visit : τ → σ → List τ × σ) (pass : τ → σ → σ) (c : Progress κ τ σ) :
    Option (Progress κ τ σ) :=
  match c.stack with
  | [] => none
  | t :: rest =>
    if key t ∈ c.opened then some ⟨c.opened, rest, pass t c.result⟩
    else some ⟨key t :: c.opened, (visit t c.result).1 ++ rest, (visit t c.result).2⟩

variable {key : τ → κ} {visit : τ → σ → List τ × σ} {pass : τ → σ → σ} {rest : List τ} {t : τ}
variable {opened : List κ}

private theorem turn_opened (h : key t ∈ opened) (s : σ) :
    turn key visit pass ⟨opened, t :: rest, s⟩ = some ⟨opened, rest, pass t s⟩ :=
  if_pos h

private theorem turn_new (h : key t ∉ opened) (s : σ) :
    turn key visit pass ⟨opened, t :: rest, s⟩ =
      some ⟨key t :: opened, (visit t s).1 ++ rest, (visit t s).2⟩ :=
  if_neg h

/-- If only finitely many keys come up, and those of them are pending that were not opened, the loop
ends with the result of the run. -/
private theorem eval_turn_run (keys : List κ) (hvisit : ∀ t s, ∀ next ∈ (visit t s).1, key next ∈ keys)
    {pending : List κ} {stack : List τ} (s : σ) (hstack : ∀ t ∈ stack, key t ∈ keys)
    (hpending : ∀ k ∈ keys, k ∈ pending ↔ k ∉ opened) :
    ∃ opened', ⟨opened', [], run key visit pass pending stack s⟩ ∈
      eval (turn key visit pass) ⟨opened, stack, s⟩ := by
  induction pending, stack, s using run_induction key visit pass generalizing opened with
  | nil pending s =>
    rw [run_nil]
    exact ⟨opened, mem_eval.2 ⟨.refl, rfl⟩⟩
  | visited pending t rest s hk ih =>
    obtain ⟨ht, hrest⟩ := List.forall_mem_cons.1 hstack
    rw [run_visit hk, eval_turn (turn_new ((hpending _ ht).1 hk) s)]
    apply ih
    · exact List.forall_mem_append.2 ⟨hvisit t s, hrest⟩
    · intro k hk
      rw [mem_without, hpending k hk, List.mem_cons, not_or]
      exact and_comm
  | passed pending t rest s hk ih =>
    obtain ⟨ht, hrest⟩ := List.forall_mem_cons.1 hstack
    have there : key t ∈ opened := by
      by_contra hn
      exact hk ((hpending _ ht).2 hn)
    rw [run_pass hk, eval_turn (turn_opened there s)]
    exact ih hrest hpending

end Agenda

namespace Support.Graph

variable {g : Graph}

/-- A graph of sinks at level zero, without edges. -/
structure Flat (g : Graph) : Prop where
  nodes : g.nodes = g.sinks.map (⟨·, 0⟩)
  edges : g.edges = []

theorem Flat.addSink (h : g.Flat) (l : Location) : (g.addSink l).Flat := by
  unfold Graph.addSink
  by_cases hl : g.contains l
  · rw [if_pos hl]
    exact h
  · rw [if_neg hl]
    refine ⟨?_, h.edges⟩
    simp [addSinkAt, addNode, h.nodes]

theorem Flat.foldl_addSink (h : g.Flat) (os : List Origin) :
    (os.foldl (fun g o => g.addSink o.location) g).Flat := by
  induction os generalizing g with
  | nil => exact h
  | cons o os ih => exact ih (h.addSink o.location)

theorem Flat.level_eq (h : g.Flat) {n : Node} (hn : n ∈ g.nodes) :
    n.location ∈ g.sinks ∧ n.level = 0 := by
  rw [h.nodes] at hn
  obtain ⟨l, hl, rfl⟩ := List.mem_map.1 hn
  exact ⟨hl, rfl⟩

theorem Flat.level? (h : g.Flat) {l : Location} (hl : l ∈ g.sinks) : g.level? l = some 0 := by
  have node : (⟨l, 0⟩ : Node) ∈ g.nodes := by
    rw [h.nodes]
    exact List.mem_map_of_mem hl
  obtain ⟨k, hk⟩ := Option.isSome_iff_exists.1 (contains_iff.2 ⟨_, node, rfl⟩)
  obtain ⟨n, hn, _, rfl⟩ := exists_node_of_level? hk
  rw [hk, (h.level_eq hn).2]

end Support.Graph

namespace Path

open Support (Graph)

/-- The graph with which the support of a version starts. -/
def sinkGraph (p : Path) (t : Version) : Graph :=
  (p.origins t).foldl (fun g o => g.addSink o.location) {}

theorem flat_sinkGraph (p : Path) (t : Version) : (p.sinkGraph t).Flat :=
  Graph.Flat.foldl_addSink ⟨rfl, rfl⟩ (p.origins t)

/-- The sinks at the start are the origins. -/
private theorem sinks_sinkGraph (p : Path) (t : Version) :
    (∀ l ∈ (p.sinkGraph t).sinks, ∃ o ∈ p.origins t, o.location = l) ∧
      ∀ o ∈ p.origins t, (p.sinkGraph t).isSink o.location := by
  have flat := flat_sinkGraph p t
  have extended := Graph.extends_foldl_addSink (p.origins t) {}
  constructor
  · intro l hl
    have node : ⟨l, 0⟩ ∈ (p.sinkGraph t).nodes := by
      rw [flat.nodes]
      exact List.mem_map_of_mem hl
    exact List.mem_map.1 ((extended.added _ node).resolve_left List.not_mem_nil)
  · intro o ho
    obtain ⟨n, hn, hi⟩ := Graph.contains_iff.1 (extended.contained _ (List.mem_map_of_mem ho))
    exact Graph.isSink_iff.2 ⟨n.location, (flat.level_eq hn).1, hi⟩

section Founded

variable {p : Path} {t : Version} {b : Build} {st : Step}

/-- An origin behind `t` is at the first location, and what was loaded there has an origin at the
second. -/
def Supplies (p : Path) (t : Version) (child parent : Location) : Prop :=
  ∃ o s, p.Behind t o ∧ o.source = some s ∧ o.location = child ∧
    ∃ o' ∈ p.origins s, o'.location = parent

/-- The graph was put on top of the sinks, at higher levels, along steps from origin to origin. -/
structure Founded (p : Path) (t : Version) (g : Graph) : Prop extends
    Graph.Continues (p.sinkGraph t) g where
  sinks : g.sinks = (p.sinkGraph t).sinks
  levels : ∀ n ∈ g.nodes, n ∈ (p.sinkGraph t).nodes ∨ 1 ≤ n.level
  supplies : ∀ e ∈ g.edges, p.Supplies t e.child e.parent

private theorem founded_sinkGraph (p : Path) (t : Version) : p.Founded t (p.sinkGraph t) := by
  refine ⟨.refl _, rfl, fun _ hn => .inl hn, fun e he => ?_⟩
  rw [(flat_sinkGraph p t).edges] at he
  cases he

/-- One step is taken from an origin behind `t` that is a node. -/
theorem Founded.take (h : p.Founded t b.graph) (ho : p.Behind t st.origin)
    (hn : b.graph.contains st.target) : p.Founded t (p.take st b).2.graph := by
  have rises := Build.rises_foldl_support hn (p.expansion st)
  refine ⟨h.toContinues.trans rises.toContinues, rises.sinks.trans h.sinks, fun n hn => ?_,
    fun e he => ?_⟩
  · rcases rises.higher n hn with hn | ⟨m, hm, hlt⟩
    · exact h.levels n hn
    · right
      rcases h.levels m hm with hm | hm
      · have := ((flat_sinkGraph p t).level_eq hm).2
        omega
      · omega
  · rcases rises.joins e he with he | ⟨hc, hp⟩
    · exact h.supplies e he
    · obtain ⟨o, hexp, hl⟩ := List.mem_map.1 hp
      exact ⟨st.origin, st.source, ho, rfl, hc.symm, o, (mem_expansion.1 hexp).1, hl⟩

private theorem founded_addSupport (p : Path) (t : Version) : p.Founded t (p.addSupport {} t).graph := by
  let inv (pending : List (Nat × Nat)) (stack : List Step) (b : Build) : Prop :=
    p.Tracing t pending stack b ∧ p.Founded t b.graph
  have run : ∃ left, inv left [] (p.addSupport {} t) := by
    rw [addSupport_eq]
    refine Agenda.run_invariant inv ?_ ?_ ⟨tracing_initial p t, founded_sinkGraph p t⟩
    · intro _ st rest b _ ⟨tracing, founded⟩
      have ahead := tracing.steps st List.mem_cons_self
      exact ⟨tracing_visit tracing, founded.take ahead.behind ahead.node⟩
    · exact fun _ _ _ _ hk ⟨tracing, founded⟩ => ⟨tracing_pass hk tracing, founded⟩
  obtain ⟨_, _, founded⟩ := run
  exact founded

end Founded

/-- The loop that collects the support of a version ends. Only passages through memory come up. -/
private theorem eval_addSupport (p : Path) (t : Version) :
    ∃ opened, ⟨opened, [], p.addSupport {} t⟩ ∈
      eval (Agenda.turn Step.key p.take fun _ b => b)
        ⟨[], (onward [] (p.origins t)).reverse, ⟨p.sinkGraph t, []⟩⟩ := by
  have passage : ∀ {v : Version} {st : Step}, st.origin ∈ p.origins v → st.key ∈ p.passages :=
    fun ho => mem_passages_of_mem_origins ho rfl
  rw [addSupport_eq]
  refine Agenda.eval_turn_run p.passages (fun st b next hnext => ?_) _ (fun st hst => ?_) ?_
  · have hexp := (mem_onward.1 (List.mem_reverse.1 hnext)).1
    exact passage (mem_expansion.1 hexp).1
  · exact passage (mem_onward.1 (List.mem_reverse.1 hst)).1
  · simp

/-- Collecting the support of a version on an empty graph ends. The sinks are the origins of the
version, all at level zero; all other nodes are at higher levels and stand for origins behind the
version; and an edge leads to an origin of what was loaded from an origin behind it. -/
theorem addSupport_sound (p : Path) (t : Version) :
    let g := (p.addSupport {} t).graph
    (∃ opened, ⟨opened, [], p.addSupport {} t⟩ ∈
      eval (Agenda.turn Step.key p.take fun _ b => b)
        ⟨[], (onward [] (p.origins t)).reverse,
          ⟨(p.origins t).foldl (fun g o => g.addSink o.location) {}, []⟩⟩) ∧
    (∀ l ∈ g.sinks, ∃ o ∈ p.origins t, o.location = l) ∧
    (∀ o ∈ p.origins t, g.isSink o.location) ∧
    (∀ l ∈ g.sinks, g.level? l = some 0) ∧
    (∀ n ∈ g.nodes, ¬g.isSink n.location → 1 ≤ n.level) ∧
    (∀ n ∈ g.nodes, ∃ o, p.Behind t o ∧ n.location = o.location) ∧
    ∀ e ∈ g.edges, ∃ o s, p.Behind t o ∧ o.source = some s ∧ o.location = e.child ∧
      ∃ o' ∈ p.origins s, o'.location = e.parent := by
  intro g
  have founded := founded_addSupport p t
  have flat := flat_sinkGraph p t
  obtain ⟨origin_of_sink, sink_of_origin⟩ := sinks_sinkGraph p t
  obtain ⟨_, tracing⟩ := tracing_addSupport p t
  have same : ∀ l, g.isSink l = (p.sinkGraph t).isSink l := by
    intro l
    unfold Graph.isSink
    rw [founded.sinks]
  refine ⟨eval_addSupport p t, ?_, ?_, ?_, ?_, tracing.nodes, founded.supplies⟩
  · rw [founded.sinks]
    exact origin_of_sink
  · intro o ho
    rw [same]
    exact sink_of_origin o ho
  · rw [founded.sinks]
    exact fun l hl => founded.toContinues.level? (flat.level? hl)
  · intro n hn hno
    refine (founded.levels n hn).resolve_left fun hstart => hno ?_
    rw [same]
    exact Graph.isSink_iff.2 ⟨n.location, (flat.level_eq hstart).1, rfl⟩

end Path

end PathSlice
