import PathSlice.Proofs.SinkFrontier
import PathSlice.Proofs.SupportCoverage

/-! Two versions marked in one graph of support. The nearest locations that the second comes from
become sinks unless they are nodes already, so one that lies behind the first version, but is not
nearest to it, is no sink. The order in which the versions are marked matters exactly if there is
such a location. -/
namespace PathSlice

namespace Support.Graph

variable {g : Graph} {l : Location} {i : Nat}

private theorem sinkAt_addSink (l : Location) :
    (g.addSink l).SinkAt i ↔ g.SinkAt i ∨ l.id = i ∧ ¬g.NodeAt i := by
  unfold addSink
  by_cases hl : g.contains l
  · have there : g.NodeAt l.id := contains_iff.1 hl
    rw [if_pos hl, or_iff_left]
    rintro ⟨rfl, new⟩
    exact new there
  · have new : l.id = i → ¬g.NodeAt i := by
      rintro rfl there
      exact hl (contains_iff.2 there)
    rw [if_neg hl, sinkAt_addSinkAt, and_iff_left_of_imp new]

theorem sinkAt_foldl_addSink (os : List Origin) (g : Graph) :
    (os.foldl (fun g o => g.addSink o.location) g).SinkAt i ↔
      g.SinkAt i ∨ (∃ o ∈ os, o.location.id = i) ∧ ¬g.NodeAt i := by
  induction os generalizing g with
  | nil => simp
  | cons o os ih =>
    rw [List.foldl_cons, ih, sinkAt_addSink, nodeAt_addSink, List.exists_mem_cons_iff]
    tauto

end Support.Graph

namespace Path

open Support (Graph)

variable {p : Path} {t : Version} {i : Nat}

/-- A nearest location that a version comes from has the identity. -/
def Nearest (p : Path) (t : Version) (i : Nat) : Prop :=
  ∃ o ∈ p.origins t, o.location.id = i

/-- A child that is a node already is not made a sink. -/
private theorem Build.sinkAt_foldl_support {b : Build} {child : Location} (h : b.graph.contains child)
    (os : List Origin) :
    (os.foldl (fun b o => b.support o.location child) b).graph.SinkAt i ↔ b.graph.SinkAt i := by
  unfold Graph.SinkAt
  rw [(Build.rises_foldl_support h os).sinks]

/-- While the support of a version is collected every step starts at a node, so the sinks stay those
that were there at first. -/
theorem sinkAt_addSupport (p : Path) (g : Graph) (t : Version) :
    (p.addSupport g t).graph.SinkAt i ↔ g.SinkAt i ∨ p.Nearest t i ∧ ¬g.NodeAt i := by
  let start := (p.origins t).foldl (fun g o => g.addSink o.location) g
  let inv (_ : List (Nat × Nat)) (stack : List Step) (b : Build) : Prop :=
    (∀ st ∈ stack, b.graph.contains st.target) ∧ (b.graph.SinkAt i ↔ start.SinkAt i)
  have run : ∃ left, inv left [] (p.addSupport g t) := by
    rw [addSupport_eq]
    refine Agenda.run_invariant inv ?_ ?_ ⟨fun st hst => ?_, Iff.rfl⟩
    · intro _ st rest b _ ⟨hnodes, hsinks⟩
      obtain ⟨hst, hrest⟩ := List.forall_mem_cons.1 hnodes
      have hext := Build.extends_foldl_support hst (p.expansion st)
      refine ⟨fun next hnext => ?_, (Build.sinkAt_foldl_support hst (p.expansion st)).trans hsinks⟩
      rcases List.mem_append.1 hnext with hnext | hnext
      · have ho := (mem_onward.1 (List.mem_reverse.1 hnext)).1
        exact hext.contained next.target (List.mem_map_of_mem (f := (·.location)) ho)
      · exact hext.contains (hrest next hnext)
    · exact fun _ st rest b _ ⟨hnodes, hsinks⟩ => ⟨(List.forall_mem_cons.1 hnodes).2, hsinks⟩
    · have ho := (mem_onward.1 (List.mem_reverse.1 hst)).1
      exact (Graph.extends_foldl_addSink (p.origins t) g).contained st.target
        (List.mem_map_of_mem (f := (·.location)) ho)
  obtain ⟨_, _, same⟩ := run
  exact same.trans (Graph.sinkAt_foldl_addSink (p.origins t) g)

private theorem Nearest.nodeAt_addSupport (h : p.Nearest t i) : (p.addSupport {} t).graph.NodeAt i := by
  obtain ⟨o, ho, rfl⟩ := h
  obtain ⟨_, traced⟩ := tracing_addSupport p t
  exact Graph.contains_iff.1 (traced.sinks o ho).node

end Path

namespace Recorder

open Support (Graph)

/-- Marks two versions of a path one after the other, in one graph that is empty at first. -/
def markInTurn (p : Path) (a b : Version) : Recorder Graph := do
  mark p (← mark p {} a) b

theorem sinkAt_markInTurn (p : Path) (a b : Version) (s : State) (i : Nat) :
    (markInTurn p a b s).1.SinkAt i ↔
      p.Nearest a i ∨ p.Nearest b i ∧ ¬(mark p {} a s).1.NodeAt i := by
  have first : (p.addSupport {} a).graph.SinkAt i ↔ p.Nearest a i := by
    rw [Path.sinkAt_addSupport]
    simp [Graph.SinkAt, Graph.NodeAt]
  have second := Path.sinkAt_addSupport (i := i) p (p.addSupport {} a).graph b
  rw [first] at second
  exact second

/-- The sinks after two versions were marked are the nearest locations of the first and those of the
second that the marking of the first made no nodes. The other order makes the same sinks exactly if
every nearest location of one version that is a node for the other is a nearest location of the
other, too; and exactly then both orders make all nearest locations of both versions sinks. -/
theorem markInTurn_sinks (p : Path) (a b : Version) (s : State) :
    let sinks (a b : Version) := (markInTurn p a b s).1.SinkAt
    let nodes (a : Version) := (mark p {} a s).1.NodeAt
    let agree := ∀ i, (p.Nearest b i → nodes a i → p.Nearest a i) ∧
      (p.Nearest a i → nodes b i → p.Nearest b i)
    (∀ i, sinks a b i ↔ p.Nearest a i ∨ p.Nearest b i ∧ ¬nodes a i) ∧
    ((∀ i, sinks a b i ↔ sinks b a i) ↔ agree) ∧
    ((∀ i, p.Nearest a i ∨ p.Nearest b i → sinks a b i ∧ sinks b a i) ↔ agree) := by
  intro sinks nodes agree
  have forth : ∀ i, sinks a b i ↔ p.Nearest a i ∨ p.Nearest b i ∧ ¬nodes a i :=
    sinkAt_markInTurn p a b s
  have back : ∀ i, sinks b a i ↔ p.Nearest b i ∨ p.Nearest a i ∧ ¬nodes b i :=
    sinkAt_markInTurn p b a s
  have here : ∀ i, p.Nearest a i → nodes a i := fun i h => h.nodeAt_addSupport
  have there : ∀ i, p.Nearest b i → nodes b i := fun i h => h.nodeAt_addSupport
  refine ⟨forth, forall_congr' fun i => ?_, forall_congr' fun i => ?_⟩
  · rw [forth, back]
    have := here i
    have := there i
    tauto
  · rw [forth, back]
    tauto

end Recorder

namespace Replay

open Recorder (markInTurn)

/-- What was in `m` went into `l` and from there into the last sum. The sum comes from `l`, with `m`
behind it, so marking it first keeps `m` from becoming a sink for what was loaded from there. -/
theorem markInTurn_differs_refilled :
    ∃ a ∈ refilledPath.versions, ∃ b ∈ refilledPath.versions, ∀ s,
      (∃ i, refilledPath.Nearest b i ∧ ¬(markInTurn refilledPath a b s).1.SinkAt i) ∧
      ¬∀ i, (markInTurn refilledPath a b s).1.SinkAt i ↔
        (markInTurn refilledPath b a s).1.SinkAt i := by
  obtain ⟨a, ha, told⟩ := Option.map_eq_some_iff.1
    (by decide +kernel : refilledPath.versions[1]?.map (fun a =>
      ((refilledPath.origins a).map (·.location.id),
        (refilledPath.addSupport {} a).graph.nodes.map (·.location.id))) = some ([16], [16, 14]))
  obtain ⟨origins, nodes⟩ := Prod.mk.inj told
  obtain ⟨b, hb, loaded⟩ := Option.map_eq_some_iff.1
    (by decide +kernel : refilledPath.versions[4]?.map (fun b =>
      (refilledPath.origins b).map (·.location.id)) = some [14])
  refine ⟨a, List.mem_of_getElem? ha, b, List.mem_of_getElem? hb, fun s => ?_⟩
  have near : refilledPath.Nearest b 14 := List.mem_map.1 (loaded ▸ List.mem_singleton_self 14)
  have missing : ¬(markInTurn refilledPath a b s).1.SinkAt 14 := by
    intro h
    rcases (Recorder.sinkAt_markInTurn refilledPath a b s 14).1 h with h | ⟨_, new⟩
    · have h := origins ▸ List.mem_map.2 h
      simp at h
    · exact new (List.mem_map.1 (nodes ▸ by decide : 14 ∈ _))
  refine ⟨⟨14, near, missing⟩, fun same => missing ((same 14).2 ?_)⟩
  exact (Recorder.sinkAt_markInTurn refilledPath _ _ s 14).2 (.inl near)

end Replay

end PathSlice
