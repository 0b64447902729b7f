import PathSlice.Proofs.BacktrackRuns
import PathSlice.Proofs.FlowClosure
import PathSlice.Proofs.FlowDrawing

/-! The order of flows. As long as no frame is given up, flows lead from older to younger versions,
or from versions that nothing flows into. So a cycle is a version that flows into itself, and that
comes from a load which read a location twice that held nothing. -/
namespace PathSlice

namespace Path

variable {p : Path} {i j : Nat}

/-- A version with the first identity flows into one with the second. -/
def Feeds (p : Path) (i j : Nat) : Prop :=
  ∃ e ∈ p.flows, e.source.id = i ∧ e.target.id = j

/-- Flows lead from older to younger versions, or from versions that nothing flows into. -/
def Ordered (p : Path) : Prop :=
  ∀ i j, p.Feeds i j → i ≤ j ∨ ∀ k, ¬p.Feeds k i

theorem feeds_of_mem_sourcesOf {v x : Version} (h : x ∈ p.sourcesOf v) : p.Feeds x.id v.id := by
  obtain ⟨e, he, ht, rfl⟩ := mem_flows_of_mem_sourcesOf h
  exact ⟨e, he, rfl, ht⟩

namespace Ordered

private theorem lt_or_feeds_self (h : p.Ordered) (hij : Relation.TransGen p.Feeds i j) :
    i < j ∨ (∀ k, ¬p.Feeds k i) ∨ i = j ∧ p.Feeds i i := by
  induction hij using Relation.TransGen.head_induction_on with
  | single hij =>
    rcases h _ _ hij with hle | hroot
    · rcases Nat.lt_or_eq_of_le hle with hlt | rfl
      · exact .inl hlt
      · exact .inr (.inr ⟨rfl, hij⟩)
    · exact .inr (.inl hroot)
  | @head a b hab _ ih =>
    rcases h _ _ hab with hle | hroot
    · -- Something flows into `b`, so the rest of the way starts with no origin.
      rcases ih with hlt | hroot | ⟨rfl, hself⟩
      · exact .inl (Nat.lt_of_le_of_lt hle hlt)
      · exact absurd hab (hroot _)
      · rcases Nat.lt_or_eq_of_le hle with hlt | rfl
        · exact .inl hlt
        · exact .inr (.inr ⟨rfl, hself⟩)
    · exact .inr (.inl hroot)

/-- A cycle is a version that flows into itself. -/
theorem feeds_self (h : p.Ordered) (hi : Relation.TransGen p.Feeds i i) : p.Feeds i i := by
  rcases h.lt_or_feeds_self hi with hlt | hroot | ⟨_, hself⟩
  · exact absurd hlt (Nat.lt_irrefl i)
  · obtain ⟨k, _, hk⟩ := Relation.TransGen.tail'_iff.1 hi
    exact absurd hk (hroot k)
  · exact hself

/-- Going back along flows ends, at the latest, in a version that only itself flows into. -/
theorem exists_origin (h : p.Ordered) (v : Version) :
    ∃ u ∈ p.closure v, ∀ x ∈ p.sourcesOf u, x.id = u.id := by
  have back : ∀ n, ∀ u ∈ p.closure v, u.id = n →
      ∃ w ∈ p.closure v, ∀ x ∈ p.sourcesOf w, x.id = w.id := by
    intro n
    induction n using Nat.strongRecOn with
    | _ n ih =>
      rintro u hu rfl
      by_cases hall : ∀ x ∈ p.sourcesOf u, x.id = u.id
      · exact ⟨u, hu, hall⟩
      · push Not at hall
        obtain ⟨x, hx, hne⟩ := hall
        obtain ⟨y, hy, hi⟩ := exists_mem_closure_of_sourcesOf hu hx
        rcases h _ _ (feeds_of_mem_sourcesOf hx) with hle | hroot
        · exact ih y.id (hi ▸ Nat.lt_of_le_of_ne hle hne) y hy rfl
        · refine ⟨y, hy, fun z hz => ?_⟩
          exact absurd (feeds_of_mem_sourcesOf hz) (hi ▸ hroot z.id)
  obtain ⟨u, hu, _⟩ := exists_mem_closure p v
  exact back u.id u hu rfl

end Ordered

end Path

namespace Drawn

variable {loop : Prop} {s t : State}

theorem ordered (h : Drawn loop s t) (hs : Recorded s) (ho : s.path.Ordered) : t.path.Ordered := by
  rintro _ _ ⟨e, he, rfl, rfl⟩
  rcases h.added e he with he | ⟨_, _, _, _, hcase⟩
  · refine (ho _ _ ⟨e, he, rfl, rfl⟩).imp_right fun hroot k => ?_
    rintro ⟨d, hd, rfl, hi⟩
    rcases h.added d hd with hd | ⟨hlow, _⟩
    · exact hroot _ ⟨d, hd, rfl, hi⟩
    · have := hs.numbered.versions_lt _ (hs.closed.flows e he).2.1
      omega
  · refine hcase.imp_right fun hroot k => ?_
    rintro ⟨d, hd, _, hi⟩
    exact hroot d hd hi

private theorem exists_feeds_self_iff (h : Drawn loop s t) :
    (∃ i, t.path.Feeds i i) ↔ (∃ i, s.path.Feeds i i) ∨ loop := by
  constructor
  · rintro ⟨i, e, he, hs, ht⟩
    rcases h.added e he with he | ⟨_, _, _, hloop, _⟩
    · exact .inl ⟨i, e, he, hs, ht⟩
    · exact .inr (hloop (hs.trans ht.symm))
  · rintro (⟨i, e, he, hi⟩ | hl)
    · exact ⟨i, e, h.kept e he, hi⟩
    · obtain ⟨e, he, hi⟩ := h.looped hl
      exact ⟨_, e, he, hi, rfl⟩

end Drawn

/-- A version that was computed from nothing but itself is found wherever no end is. -/
private theorem Settled.exists_alone {s : State} (h : Settled s) (ho : s.path.Ordered) {v : Version}
    (hv : v ∈ s.path.versions) (hends : s.path.ends v = []) :
    ∃ u ∈ s.path.closure v, s.path.sourcesOf u = [u] := by
  obtain ⟨u, hu, hself⟩ := ho.exists_origin v
  have hmem : u ∈ s.path.versions := by
    rcases Path.mem_closure hu with rfl | ⟨e, he, rfl⟩
    · exact hv
    · exact (h.closed.flows e he).2.1
  have hne : s.path.sourcesOf u ≠ [] := by
    intro hnil
    exact List.filter_eq_nil_iff.1 hends u hu (List.isEmpty_iff.2 hnil)
  have only : ∀ x ∈ s.path.sourcesOf u, x = u := by
    intro x hx
    exact h.numbered.version_eq (h.closed.mem_versions_of_mem_sourcesOf hx) hmem (hself _ hx)
  have itself : u ∈ s.path.sourcesOf u := by
    obtain ⟨x, hx⟩ := List.exists_mem_of_ne_nil _ hne
    exact only x hx ▸ hx
  refine ⟨u, hu, Ascending.eq_of_mem_iff (h.layered.sourcesOf_ascending u)
    (List.pairwise_singleton _ _) fun y => ?_⟩
  rw [List.mem_singleton]
  exact ⟨only y, fun hy => hy ▸ itself⟩

namespace Replay

/-- What effects and forks draw. -/
private theorem pursue_drawn {r : Replay} {n : Nat} {events : List Event} (hp : r.program.Declared n)
    (hs : Settled r.state) (he : ∀ e ∈ events, e.isEffect ∨ e.isFork) (index : Nat) :
    Drawn (∃ k e, events[k]? = some e ∧
        Event.Rereads r.program (pursue index (events.take k) r).2.state e)
      r.state (pursue index events r).2.state := by
  induction events generalizing r index with
  | nil => exact (Drawn.refl r.state).idle (by simp)
  | cons e es ih =>
    obtain ⟨he, hes⟩ := List.forall_mem_cons.1 he
    have hprogram := (apply_turn hs e index).1
    have rest := ih (r := ((apply index e).run r).2) (hprogram ▸ hp) (apply_settled hs he index) hes
      (index + 1)
    refine ((apply_drawn hp hs he index).trans rest).congr ⟨?_, ?_⟩
    · rintro (hl | ⟨k, d, hd, hl⟩)
      · exact ⟨0, e, rfl, hl⟩
      · exact ⟨k + 1, d, hd, hprogram ▸ hl⟩
    · rintro ⟨k, d, hd, hl⟩
      cases k with
      | zero =>
        cases hd
        exact .inl hl
      | succ k => exact .inr ⟨k, d, hd, hprogram.symm ▸ hl⟩

/-- Flows have no cycles but versions that flow into themselves, which there are exactly if a load
read a location twice that held nothing. Without cycles every version was ultimately computed from
versions that were computed from nothing. A version of which that is not true was computed from one
that was computed from itself alone. -/
theorem flows_acyclic_iff {id : Nat} {ds : List Declaration} {program : Program}
    (hp : Program.ofDeclarations id ds = .ok program) (next : Nat) (existential : Bool)
    (events : List Event) (he : ∀ e ∈ events, e.isEffect ∨ e.isFork) :
    let state k := (pursue 0 (events.take k) (start program next existential)).2.state
    let p := (pursue 0 events (start program next existential)).2.state.path
    (∀ i, Relation.TransGen p.Feeds i i → p.Feeds i i) ∧
    ((∀ i, ¬Relation.TransGen p.Feeds i i) ↔
      ∀ k e, events[k]? = some e → ¬Event.Rereads program (state k) e) ∧
    ((∀ i, ¬Relation.TransGen p.Feeds i i) → ∀ v ∈ p.versions, p.ends v ≠ []) ∧
    ∀ v ∈ p.versions, p.ends v = [] → ∃ u ∈ p.closure v, p.sourcesOf u = [u] := by
  intro state p
  obtain ⟨n, hdeclared⟩ := Program.declared_ofDeclarations hp
  have hstart := start_settled program next existential
  have drawn := pursue_drawn (r := start program next existential) hdeclared hstart he 0
  have settled := pursue_settled hstart he 0
  have ordered : p.Ordered := drawn.ordered hstart.toRecorded fun i j hij => by
    obtain ⟨e, he, _⟩ := hij
    exact absurd he List.not_mem_nil
  have none : ¬∃ i, (start program next existential).state.path.Feeds i i := by
    rintro ⟨i, e, he, _⟩
    exact absurd he List.not_mem_nil
  have acyclic : (∀ i, ¬Relation.TransGen p.Feeds i i) ↔ ¬∃ i, p.Feeds i i :=
    ⟨fun h ⟨i, hi⟩ => h i (.single hi), fun h i hi => h ⟨i, ordered.feeds_self hi⟩⟩
  have alone : ∀ v ∈ p.versions, p.ends v = [] → ∃ u ∈ p.closure v, p.sourcesOf u = [u] :=
    fun v hv => settled.exists_alone ordered hv
  refine ⟨fun i => ordered.feeds_self, ?_, fun h v hv hends => ?_, alone⟩
  · rw [acyclic, drawn.exists_feeds_self_iff, or_iff_right none]
    push Not
    rfl
  · obtain ⟨u, _, hu⟩ := alone v hv hends
    have hself : u ∈ p.sourcesOf u := hu ▸ List.mem_cons_self
    exact h u.id (.single (Path.feeds_of_mem_sourcesOf hself))

/-! A choice between two addresses of one element that nothing was put into. -/

namespace Choice

def literal : Value := ⟨1, "k", .constant, .integer 32⟩
def slot : Value := ⟨2, "p", .instruction .alloca "main" [], .pointer⟩
def left : Value := ⟨3, "a", .instruction (.getElementPtr true) "main" [slot, literal], .pointer⟩
def right : Value := ⟨4, "b", .instruction (.getElementPtr true) "main" [slot, literal], .pointer⟩
def chosen : Value := ⟨5, "s", .instruction .select "main" [literal, left, right], .pointer⟩
def read : Value := ⟨6, "t", .instruction .load "main" [chosen], .integer 32⟩

def declarations : List Declaration :=
  [⟨"k", .constant, .integer 32⟩,
    ⟨"p", .instruction .alloca "main" [], .pointer⟩,
    ⟨"a", .instruction (.getElementPtr true) "main" ["p", "k"], .pointer⟩,
    ⟨"b", .instruction (.getElementPtr true) "main" ["p", "k"], .pointer⟩,
    ⟨"s", .instruction .select "main" ["k", "a", "b"], .pointer⟩,
    ⟨"t", .instruction .load "main" ["s"], .integer 32⟩]

def program : Program := [literal, slot, left, right, chosen, read]

def events : List Event :=
  [.execute "p" [.pointer 16] false,
    .execute "a" [.pointer 16, .pointer 16] false,
    .execute "b" [.pointer 16, .pointer 16] false,
    .execute "s" [.pointer 16, .pointer 16, .pointer 16] false,
    .execute "t" [.ofBits 0 32, .pointer 16] false]

private theorem declared : Program.ofDeclarations 1 declarations = .ok program := by
  rfl

/-- What the load reads, and the state in which it does. -/
def found : List Location × State :=
  Effect.reading chosen (.pointer 16) read (.ofBits 0 32)
    (pursue 0 (events.take 4) (start program 7 false)).2.state

private theorem found_twice :
    found.1.map (fun l => (l.id, (found.2.path.content? l).isNone)) = [(9, true), (9, true)] := by
  decide +kernel

private theorem rereads :
    Event.Rereads program (pursue 0 (events.take 4) (start program 7 false)).2.state
      (.execute "t" [.ofBits 0 32, .pointer 16] false) := by
  refine ⟨read, rfl, rfl, .ofBits 0 32, .pointer 16, chosen, rfl, rfl, ?_⟩
  change found.2.path.Rereads found.1
  have twice := found_twice
  match hls : found.1 with
  | [l, k] =>
    rw [hls] at twice
    simp only [List.map_cons, List.map_nil, List.cons.injEq, Prod.mk.injEq,
      Option.isNone_iff_eq_none, and_true] at twice
    obtain ⟨⟨hl, hempty⟩, hk, _⟩ := twice
    exact ⟨l, List.mem_cons_self, hempty, by simp [hl, hk]⟩
  | [] | [_] | _ :: _ :: _ :: _ => simp [hls] at twice

end Choice

/-- The load puts its result into the element and reads it at once. -/
theorem flows_acyclic_iff_choice :
    (∀ e ∈ Choice.events, e.isEffect ∨ e.isFork) ∧
      ∃ i, Relation.TransGen
        (pursue 0 Choice.events (start Choice.program 7 false)).2.state.path.Feeds i i := by
  have he : ∀ e ∈ Choice.events, e.isEffect ∨ e.isFork := by
    decide
  refine ⟨he, ?_⟩
  by_contra hnone
  push Not at hnone
  obtain ⟨_, hiff, _⟩ := flows_acyclic_iff Choice.declared 7 false Choice.events he
  exact hiff.1 hnone 4 _ rfl Choice.rereads

end Replay

end PathSlice
