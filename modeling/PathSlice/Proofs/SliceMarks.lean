import PathSlice.Proofs.ReplayRuns
import PathSlice.Proofs.SinkConsumption
import PathSlice.Proofs.SupportCoverage

/-! Which locations a slice makes core to which frame: those that come first behind the origins of
the version once all locations of the frames further in were consumed, frame by frame. -/
namespace PathSlice

open Support (Graph)

namespace Path

/-- Versions come from locations of the path. -/
private theorem mem_locations_of_mem_origins {n : Nat} {p : Path} (hc : p.Closed) (hn : p.Numbered n)
    (ha : Apart p.frames) {v : Version} {o : Origin} (ho : o ∈ p.origins v) :
    o.location ∈ p.locations := by
  have ids : (p.frames.map (·.id)).Nodup := hn.frames.imp fun h => Nat.ne_of_gt h
  obtain ⟨u, hu⟩ := (origins_spec ha ids v).2.1 o ho
  generalize o.location = l, o.source = source at hu
  cases hu with
  | passage h he hv =>
    have hf := h.suffix.subset List.mem_cons_self
    have he := (Frame.mem_flows_of_mem_flowsInto he).1
    exact (hc.flows _ (List.mem_flatMap.2 ⟨_, hf, he⟩)).2.2 l hv
  | deposit h _ hl =>
    have hf := h.suffix.subset List.mem_cons_self
    obtain ⟨d, hd, rfl⟩ := Option.map_eq_some_iff.1 hl
    exact (hc.deposits d (List.mem_flatMap.2 ⟨_, hf, List.mem_of_find?_eq_some hd⟩)).1

end Path

namespace Support.Graph

variable {g : Graph} {l : Location} {ls : List Location}

/-- All locations that are or can become sinks are among the given ones. -/
structure Within (ls : List Location) (g : Graph) : Prop where
  sinks : ∀ l ∈ g.sinks, l ∈ ls
  parents : ∀ e ∈ g.edges, e.parent ∈ ls

theorem within_empty (ls : List Location) : Within ls {} := by
  constructor <;> simp

namespace Within

theorem addSinkAt (h : Within ls g) (hl : l ∈ ls) (k : Int) : Within ls (g.addSinkAt l k) := by
  refine ⟨fun m hm => ?_, h.parents⟩
  rcases List.mem_append.1 hm with hm | hm
  · exact h.sinks m hm
  · exact List.mem_singleton.1 hm ▸ hl

theorem addSink (h : Within ls g) (hl : l ∈ ls) : Within ls (g.addSink l) := by
  unfold Graph.addSink
  split
  · exact h
  · exact h.addSinkAt hl 0

theorem addEdge (h : Within ls g) (child : Location) (hl : l ∈ ls) :
    Within ls (g.addEdge child l) := by
  unfold Graph.addEdge
  split
  · exact h
  · refine ⟨h.sinks, fun e he => ?_⟩
    rcases List.mem_append.1 he with he | he
    · exact h.parents e he
    · exact List.mem_singleton.1 he ▸ hl

theorem support (h : Within ls g) {parent child : Location} (hp : parent ∈ ls) (hc : child ∈ ls) :
    Within ls (g.support parent child).2 := by
  unfold Graph.support
  split
  · exact h
  · split
    · split
      · exact h
      · exact h.addEdge child hp
    · exact (h.addSinkAt hc _).addEdge child hp
    · exact Within.addEdge (g := g.addNode parent _) ⟨h.sinks, h.parents⟩ child hp
    · have hs := h.addSinkAt hc 0
      exact Within.addEdge (g := (g.addSinkAt child 0).addNode parent 1) ⟨hs.sinks, hs.parents⟩
        child hp

theorem consume (h : Within ls g) (l : Location) : Within ls (g.consume l) := by
  unfold Graph.consume
  split
  · refine ⟨fun m hm => ?_, h.parents⟩
    rcases mem_of_mem_foldl_promote hm with hm | hm
    · exact h.sinks m (List.mem_of_mem_eraseP hm)
    · obtain ⟨e, he, rfl⟩ := List.mem_map.1 hm
      exact h.parents e (List.mem_filter.1 he).1
  · exact h

theorem consumeAll (h : Within ls g) (ms : List Location) : Within ls (g.consumeAll ms) := by
  have foldl : ∀ {todo : List Location} {g : Graph}, Within ls g →
      Within ls (todo.foldl Graph.consume g) := by
    intro todo
    induction todo with
    | nil => exact id
    | cons m todo ih => exact fun h => ih (h.consume m)
  unfold Graph.consumeAll
  induction g.nodes.length with
  | zero => exact h
  | succ k ih => exact foldl ih

end Within

/-- The locations that are sinks after those of some frames were consumed, one frame after the
other. -/
inductive Surfaces (g : Graph) : List Frame → Nat → Prop
  | sink {i : Nat} (h : g.SinkAt i) : Surfaces g [] i
  | pass {inner : List Frame} {f : Frame} {i j : Nat} (h : Surfaces g inner i)
      (hway : g.Through f.locations i j) (hj : ¬Among f.locations j) : Surfaces g (inner ++ [f]) j

/-- The graph that is left for a frame when those further in have consumed their locations. -/
def leftBy (g : Graph) (inner : List Frame) : Graph :=
  inner.foldl (fun g f => g.consumeAll f.locations) g

private theorem through_congr {g g' : Graph} (h : g'.edges = g.edges) {i j : Nat}
    (hway : g'.Through ls i j) : g.Through ls i j := by
  induction hway with
  | refl => exact .refl
  | step _ hj he ih => exact ih.step hj ((edgeAt_congr h).1 he)

private theorem surfaces_append_iff {inner : List Frame} {f : Frame} {j : Nat} :
    g.Surfaces (inner ++ [f]) j ↔
      ¬Among f.locations j ∧ ∃ i, g.Surfaces inner i ∧ g.Through f.locations i j := by
  constructor
  · intro h
    generalize hfs : inner ++ [f] = fs at h
    cases h with
    | sink => exact absurd hfs (by simp)
    | pass h hway hj =>
      obtain ⟨rfl, hf⟩ := List.append_inj' hfs rfl
      cases hf
      exact ⟨hj, _, h, hway⟩
  · rintro ⟨hj, i, h, hway⟩
    exact .pass h hway hj

theorem Leveled.leftBy (h : g.Leveled) (inner : List Frame) :
    (g.leftBy inner).Leveled ∧ (g.leftBy inner).edges = g.edges ∧
      ∀ i, (g.leftBy inner).SinkAt i ↔ g.Surfaces inner i := by
  induction inner using List.reverseRecOn with
  | nil =>
    refine ⟨h, rfl, fun i => ⟨.sink, fun hi => ?_⟩⟩
    generalize hfs : ([] : List Frame) = fs at hi
    cases hi with
    | sink hi => exact hi
    | pass => exact absurd hfs.symm (by simp)
  | append_singleton inner f ih =>
    obtain ⟨hl, he, hs⟩ := ih
    have last : g.leftBy (inner ++ [f]) = (g.leftBy inner).consumeAll f.locations := by
      simp [Graph.leftBy]
    have reduced := hl.reduced_consumeAll f.locations
    rw [last]
    refine ⟨reduced.leveled, reduced.edges.trans he, fun j => ?_⟩
    rw [hl.sinkAt_consumeAll, surfaces_append_iff]
    refine and_congr_right fun _ => exists_congr fun i => and_congr (hs i) ?_
    exact ⟨through_congr he, through_congr he.symm⟩

theorem Within.leftBy (h : Within ls g) (inner : List Frame) : Within ls (g.leftBy inner) := by
  induction inner generalizing g with
  | nil => exact h
  | cons f inner ih => exact ih (h.consumeAll f.locations)

private theorem Leveled.mem_sortedSinks (h : g.Leveled) : l ∈ g.sortedSinks ↔ l ∈ g.sinks :=
  Ascending.mem_ofList_iff h.sinks

end Support.Graph

namespace Path

variable {p : Path} {n : Nat}

private theorem Build.leveled_support {b : Build} (h : b.graph.Leveled) (parent child : Location) :
    (b.support parent child).graph.Leveled := by
  unfold Build.support
  have := h.support parent child
  split
  · exact h
  · rename_i hg
    rw [hg] at this
    exact this

private theorem Build.within_support {b : Build} {ls : List Location} (h : Graph.Within ls b.graph)
    {parent child : Location} (hp : parent ∈ ls) (hc : child ∈ ls) :
    Graph.Within ls (b.support parent child).graph := by
  unfold Build.support
  have := h.support hp hc
  split
  · exact h
  · rename_i hg
    rw [hg] at this
    exact this

/-- What holds of the graph while the support of a version is collected. -/
structure Supporting (p : Path) (stack : List Step) (b : Build) : Prop where
  leveled : b.graph.Leveled
  within : Graph.Within p.locations b.graph
  targets : ∀ st ∈ stack, st.target ∈ p.locations

private theorem Supporting.foldl_support {stack : List Step} {b : Build} (h : Supporting p stack b)
    {child : Location} (hc : child ∈ p.locations) {os : List Origin}
    (ho : ∀ o ∈ os, o.location ∈ p.locations) :
    Supporting p stack (os.foldl (fun b o => b.support o.location child) b) := by
  induction os generalizing b with
  | nil => exact h
  | cons o os ih =>
    obtain ⟨ho, hos⟩ := List.forall_mem_cons.1 ho
    exact ih ⟨Build.leveled_support h.leveled _ _, Build.within_support h.within ho hc, h.targets⟩
      hos

private theorem supporting_initial {g : Graph} (hg : g.Leveled) (hw : Graph.Within p.locations g)
    {os : List Origin} (ho : ∀ o ∈ os, o.location ∈ p.locations) :
    Supporting p (onward [] os).reverse
      ⟨os.foldl (fun g o => g.addSink o.location) g, []⟩ := by
  have targets : ∀ st ∈ (onward [] os).reverse, st.target ∈ p.locations := by
    intro st hst
    exact ho _ (mem_onward.1 (List.mem_reverse.1 hst)).1
  refine ⟨?_, ?_, targets⟩
  · clear ho targets hw
    induction os generalizing g with
    | nil => exact hg
    | cons o os ih => exact ih (hg.addSink o.location)
  · clear targets hg
    induction os generalizing g with
    | nil => exact hw
    | cons o os ih =>
      obtain ⟨ho, hos⟩ := List.forall_mem_cons.1 ho
      exact ih (hw.addSink ho) hos

theorem Supporting.visit {st : Step} {rest : List Step} {b : Build}
    (h : Supporting p (st :: rest) b) (known : ∀ v, ∀ o ∈ p.origins v, o.location ∈ p.locations) :
    Supporting p ((p.take st b).1 ++ rest) (p.take st b).2 := by
  obtain ⟨hst, hrest⟩ := List.forall_mem_cons.1 h.targets
  have found : ∀ o ∈ p.expansion st, o.location ∈ p.locations :=
    fun o ho => known _ o (mem_expansion.1 ho).1
  have hb := h.foldl_support hst found
  refine ⟨hb.leveled, hb.within, fun next hnext => ?_⟩
  rcases List.mem_append.1 hnext with hnext | hnext
  · exact found _ (mem_onward.1 (List.mem_reverse.1 hnext)).1
  · exact hrest next hnext

/-- The graph of what supports a version is leveled and stays within the path. -/
private theorem addSupport_supporting (hc : p.Closed) (hn : p.Numbered n) (ha : Apart p.frames)
    {g : Graph} (hg : g.Leveled) (hw : Graph.Within p.locations g) (t : Version) :
    Supporting p [] (p.addSupport g t) := by
  have known : ∀ v, ∀ o ∈ p.origins v, o.location ∈ p.locations :=
    fun _ _ => mem_locations_of_mem_origins hc hn ha
  have pass : ∀ (st : Step) rest b, Supporting p (st :: rest) b → Supporting p rest b :=
    fun _ _ _ h => ⟨h.leveled, h.within, (List.forall_mem_cons.1 h.targets).2⟩
  have h : ∃ _ : List (Nat × Nat), Supporting p [] (p.addSupport g t) :=
    Agenda.run_invariant (fun _ => Supporting p) (fun _ _ _ _ _ h => h.visit known)
      (fun _ st rest b _ => pass st rest b) (supporting_initial hg hw (known t))
  exact h.choose_spec

end Path

namespace Recorder

/-- Every frame gets the sinks that those further in left. -/
theorem mem_frames_coreSinks (fs : List Frame) (g : Graph) (s : State) (x : Nat × Location) :
    x ∈ (coreSinks g fs s).2.marks.frames ↔
      x ∈ s.marks.frames ∨ ∃ inner f outer, fs = inner ++ f :: outer ∧ x.1 = f.id ∧
        x.2 ∈ (g.leftBy inner).sortedSinks := by
  have added : ∀ (i : Nat) (ls : List Location) (m : Marks),
      x ∈ (ls.foldl (fun m l => (m.addLocation l).addToFrame i l) m).frames ↔
        x ∈ m.frames ∨ x.1 = i ∧ x.2 ∈ ls := by
    intro i ls
    induction ls with
    | nil => simp
    | cons l ls ih =>
      intro m
      rw [List.foldl_cons, ih]
      have head : x ∈ ((m.addLocation l).addToFrame i l).frames ↔ x = (i, l) ∨ x ∈ m.frames :=
        List.mem_cons
      rw [head, Prod.ext_iff, List.mem_cons]
      grind
  induction fs generalizing g s with
  | nil =>
    have same : (coreSinks g [] s).2 = s := rfl
    simp [same]
  | cons f parents ih =>
    have here := added f.id g.sortedSinks s.marks
    have split : (∃ inner f' outer, f :: parents = inner ++ f' :: outer ∧ x.1 = f'.id ∧
          x.2 ∈ (g.leftBy inner).sortedSinks) ↔
        (x.1 = f.id ∧ x.2 ∈ g.sortedSinks) ∨ ∃ inner f' outer, parents = inner ++ f' :: outer ∧
          x.1 = f'.id ∧ x.2 ∈ ((g.consumeAll f.locations).leftBy inner).sortedSinks := by
      constructor
      · rintro ⟨inner, f', outer, hfs, hi, hl⟩
        cases inner with
        | nil =>
          cases hfs
          exact .inl ⟨hi, hl⟩
        | cons f'' inner =>
          cases hfs
          exact .inr ⟨inner, f', outer, rfl, hi, hl⟩
      · rintro (⟨hi, hl⟩ | ⟨inner, f', outer, rfl, hi, hl⟩)
        · exact ⟨[], f, parents, rfl, hi, hl⟩
        · exact ⟨f :: inner, f', outer, rfl, hi, hl⟩
    rw [split, ← or_assoc, ← here]
    cases parents <;> exact ih (g.consumeAll f.locations) _

private theorem frames_foldl_addVersion (vs : List Version) (m : Marks) :
    (vs.foldl Marks.addVersion m).frames = m.frames := by
  induction vs generalizing m with
  | nil => rfl
  | cons v vs ih => exact ih (m.addVersion v)

/-- A slice makes core to a frame the locations of the path that surface behind the frames further
in. -/
theorem mem_frames_sliceFrom {s : State} (h : Recorded s) (ha : Path.Apart s.path.frames)
    (v : Version) (x : Nat × Location) :
    x ∈ (sliceFrom v s).2.marks.frames ↔
      x ∈ s.marks.frames ∨ ∃ inner f outer, s.path.frames = inner ++ f :: outer ∧ x.1 = f.id ∧
        x.2 ∈ s.path.locations ∧ (s.path.addSupport {} v).graph.Surfaces inner x.2.id := by
  have built := Path.addSupport_supporting h.closed h.numbered ha Graph.leveled_empty
    (Graph.within_empty _) v
  have marks : (mark s.path {} v s).2.marks.frames = s.marks.frames :=
    frames_foldl_addVersion _ _
  refine (mem_frames_coreSinks s.path.frames (s.path.addSupport {} v).graph _ x).trans ?_
  refine or_congr (iff_of_eq (congrArg (x ∈ ·) marks)) ?_
  refine exists_congr fun inner => exists_congr fun f => exists_congr fun outer => ?_
  refine and_congr_right fun _ => and_congr_right fun _ => ?_
  obtain ⟨leveled, _, sinks⟩ := built.leveled.leftBy inner
  have within := built.within.leftBy inner
  rw [leveled.mem_sortedSinks, ← sinks]
  constructor
  · exact fun hx => ⟨within.sinks _ hx, _, hx, rfl⟩
  · rintro ⟨hx, l, hl, hi⟩
    exact h.numbered.location_eq (within.sinks l hl) hx hi ▸ hl

theorem mem_frames_sliceIdly (s : State) (x : Nat × Location) :
    x ∈ (sliceIdly s).2.marks.frames ↔ x ∈ s.marks.frames := by
  refine (mem_frames_coreSinks s.path.frames {} _ x).trans (or_iff_left ?_)
  rintro ⟨inner, _, _, _, _, hx⟩
  have within := (Graph.within_empty []).leftBy inner
  exact List.not_mem_nil (within.sinks _ (Ascending.mem_of_mem_ofList hx))

end Recorder

/-- A conditional branch slices its condition. -/
theorem Replay.apply_branch {r : Replay} {name function : String} {branch condition : Value}
    (hr : r.program.resolve name = .ok branch)
    (hk : branch.kind = .instruction .br function [condition]) (index : Nat) (erroneous : Bool) :
    ((apply index (.execute name [] erroneous)).run r).2.state =
      ((Effect.slice condition).run r.state).2 := by
  have sliced : Effect.execute branch [] erroneous = Effect.slice condition := by
    unfold Effect.execute Value.isConditionalBranch Value.opcode? Effect.operand Value.operands
    rw [hk]
    rfl
  rw [apply_of_isEffect rfl]
  simp only [Event.effect, hr]
  exact congrArg (fun x : Effect Unit => (x r.state).2) sliced

end PathSlice
