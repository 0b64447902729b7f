import PathSlice.Proofs.FlowClosure
import PathSlice.Proofs.LookupLoops

/-! The closure of a version and its ends, as two loops that know nothing of each other. Each works
off a stack, and puts a version there when it comes across it for the first time. Both come to an
end on every path, flows that go round in circles included, with what the closure and the ends are
defined to be. -/
namespace PathSlice

open StateTransition

/-- A loop ends if every turn makes something smaller, and what every turn keeps holds there. -/
theorem exists_mem_eval {σ : Type} {turn : σ → Option σ} (P : σ → Prop) (size : σ → Nat)
    (step : ∀ {c c'}, P c → turn c = some c' → P c' ∧ size c' < size c) {c : σ} (h : P c) :
    ∃ c' ∈ eval turn c, P c' ∧ turn c' = none := by
  induction hn : size c using Nat.strong_induction_on generalizing c with
  | _ n ih =>
    cases hc : turn c with
    | none => exact ⟨c, mem_eval.2 ⟨.refl, hc⟩, h, hc⟩
    | some c' =>
      obtain ⟨h', hlt⟩ := step h hc
      rw [eval_turn hc]
      exact ih (size c') (hn ▸ hlt) h' rfl

namespace Path

/-- The state of a loop: the versions come across, in order of creation, and the versions to go on
from, the next one first. -/
structure Trail where
  visited : List Version
  stack : List Version

/-- True if the loop has come across a version. -/
def Trail.knows (c : Trail) (v : Version) : Bool :=
  c.visited.any (·.id == v.id)

/-- Comes across a version. -/
def Trail.meet (c : Trail) (v : Version) : Trail :=
  if c.knows v then c else ⟨Ascending.insert Version.compare v c.visited, v :: c.stack⟩

/-- One turn of the loop that collects the closure of a version. -/
def gather (p : Path) (c : Trail) : Option Trail :=
  match c.stack with
  | [] => none
  | v :: rest => some ((p.sourcesOf v).foldl Trail.meet ⟨c.visited, rest⟩)

/-- The state of the loop that collects the ends of a version. -/
structure EndTrail extends Trail where
  ends : List Version

/-- One turn of that loop. A version without sources is an end. -/
def gatherEnds (p : Path) (c : EndTrail) : Option EndTrail :=
  match c.stack with
  | [] => none
  | v :: rest =>
    match p.sourcesOf v with
    | [] => some ⟨⟨c.visited, rest⟩, Ascending.insert Version.compare v c.ends⟩
    | sources => some ⟨sources.foldl Trail.meet ⟨c.visited, rest⟩, c.ends⟩

section Turns

variable {p : Path} {t v : Version} {c c' : Trail} {rest : List Version}

theorem Trail.knows_iff : c.knows v ↔ ∃ u ∈ c.visited, u.id = v.id := by
  simp [knows]

private theorem gather_cons (h : c.stack = v :: rest) :
    p.gather c = some ((p.sourcesOf v).foldl Trail.meet ⟨c.visited, rest⟩) := by
  unfold gather
  rw [h]

/-- The two loops take the same turns. -/
private theorem gather_of_gatherEnds {c c' : EndTrail} (h : p.gatherEnds c = some c') :
    p.gather c.toTrail = some c'.toTrail := by
  unfold gatherEnds at h
  split at h
  · cases h
  · rename_i v rest hs
    rw [gather_cons hs]
    split at h
    · rename_i none
      cases h
      rw [none]
      rfl
    · cases h
      rfl

/-- The identities of the sources that the loop has not come across. -/
def Trail.ahead (p : Path) (c : Trail) : List Nat :=
  p.sourceIds.filter fun i => !c.visited.any (·.id == i)

/-- What is left to do: sources to come across and versions to go on from. -/
def Trail.size (p : Path) (c : Trail) : Nat :=
  (c.ahead p).length + c.stack.length

/-- What becomes of a loop that comes across some versions: it knows them afterwards, and goes on
from those that are new. -/
structure Trail.Met (p : Path) (xs : List Version) (c c' : Trail) : Prop where
  sorted : Ascending.Sorted Version.id c'.visited
  visited : ∀ u ∈ c.visited, u ∈ c'.visited
  stack : ∀ u ∈ c.stack, u ∈ c'.stack
  known : ∀ x ∈ xs, c'.knows x
  new : ∀ u ∈ c'.visited, u ∈ c.visited ∨ u ∈ xs ∧ u ∈ c'.stack
  pushed : ∀ u ∈ c'.stack, u ∈ c.stack ∨ u ∈ c'.visited
  size : c'.size p ≤ c.size p

theorem Trail.knows_of_subset (h : ∀ u ∈ c.visited, u ∈ c'.visited) (hv : c.knows v) :
    c'.knows v := by
  obtain ⟨u, hu, hi⟩ := knows_iff.1 hv
  exact knows_iff.2 ⟨u, h u hu, hi⟩

private theorem Trail.mem_ahead : v.id ∈ c.ahead p ↔ v.id ∈ p.sourceIds ∧ ¬c.knows v := by
  simp [ahead, knows]

private theorem Trail.ahead_insert (hs : Ascending.Sorted Version.id c.visited) :
    ahead p ⟨Ascending.insert Version.compare v c.visited, rest⟩ =
      Agenda.without v.id (c.ahead p) := by
  unfold ahead Agenda.without
  rw [List.filter_filter]
  refine List.filter_congr fun i _ => ?_
  have key : (∃ u ∈ Ascending.insert Version.compare v c.visited, u.id = i) ↔
      v.id = i ∨ ∃ u ∈ c.visited, u.id = i :=
    Ascending.exists_key_insert_iff hs
  have any : (Ascending.insert Version.compare v c.visited).any (·.id == i) =
      (i == v.id || c.visited.any (·.id == i)) := by
    rw [Bool.eq_iff_iff, Bool.or_eq_true, beq_iff_eq, eq_comm (a := i)]
    simpa using key
  rw [any, Bool.not_or, decide_not, Bool.beq_eq_decide_eq]

private theorem Trail.meet_met (hs : Ascending.Sorted Version.id c.visited) (hv : v.id ∈ p.sourceIds) :
    Met p [v] c (c.meet v) := by
  unfold meet
  by_cases hk : c.knows v
  · rw [if_pos hk]
    refine ⟨hs, fun _ hu => hu, fun _ hu => hu, ?_, fun _ hu => .inl hu, fun _ hu => .inl hu,
      Nat.le_refl _⟩
    exact fun x hx => List.mem_singleton.1 hx ▸ hk
  · rw [if_neg hk]
    have new : ∀ b ∈ c.visited, b.id ≠ v.id := fun b hb hi => hk (knows_iff.2 ⟨b, hb, hi⟩)
    have mem {u : Version} : u ∈ Ascending.insert Version.compare v c.visited ↔
        u ∈ c.visited ∨ u = v :=
      (Ascending.mem_insert_iff hs).trans (or_congr_right (and_iff_left new))
    refine ⟨Ascending.sorted_insert hs, fun u hu => mem.2 (.inl hu),
      fun u hu => List.mem_cons_of_mem v hu, fun x hx => ?_, fun u hu => ?_, fun u hu => ?_, ?_⟩
    · exact knows_iff.2 ⟨v, mem.2 (.inr rfl), by rw [List.mem_singleton.1 hx]⟩
    · refine (mem.1 hu).imp_right fun hu => ?_
      rw [hu]
      exact ⟨List.mem_singleton_self v, List.mem_cons_self⟩
    · exact (List.mem_cons.1 hu).symm.imp_right fun hu => mem.2 (.inr hu)
    · have fewer := Agenda.length_without_lt (mem_ahead.2 ⟨hv, hk⟩)
      simp only [size, ahead_insert hs, List.length_cons]
      omega

private theorem Trail.foldl_meet_met (hs : Ascending.Sorted Version.id c.visited) {xs : List Version}
    (hxs : ∀ x ∈ xs, x.id ∈ p.sourceIds) : Met p xs c (xs.foldl Trail.meet c) := by
  induction xs generalizing c with
  | nil =>
    exact ⟨hs, fun _ hu => hu, fun _ hu => hu, fun _ hx => absurd hx List.not_mem_nil,
      fun _ hu => .inl hu, fun _ hu => .inl hu, Nat.le_refl _⟩
  | cons x xs ih =>
    obtain ⟨hx, hxs⟩ := List.forall_mem_cons.1 hxs
    have first := meet_met hs hx
    have rest := ih first.sorted hxs
    refine ⟨rest.sorted, fun u hu => rest.visited u (first.visited u hu),
      fun u hu => rest.stack u (first.stack u hu), ?_, fun u hu => ?_, fun u hu => ?_,
      Nat.le_trans rest.size first.size⟩
    · refine List.forall_mem_cons.2 ⟨?_, rest.known⟩
      exact knows_of_subset rest.visited (first.known x (List.mem_singleton_self x))
    · rcases rest.new u hu with hu | ⟨hu, hs⟩
      · rcases first.new u hu with hu | ⟨hu, hs⟩
        · exact .inl hu
        · rw [List.mem_singleton.1 hu] at hs ⊢
          exact .inr ⟨List.mem_cons_self, rest.stack x hs⟩
      · exact .inr ⟨List.mem_cons_of_mem x hu, hs⟩
    · rcases rest.pushed u hu with hu | hu
      · exact (first.pushed u hu).imp_right (rest.visited u)
      · exact .inr hu

/-- What holds while the closure of `t` is collected: all that was come across is behind `t`, and so
are its sources, unless the loop is still to go on from it. -/
structure Trail.Gathers (p : Path) (t : Version) (c : Trail) : Prop where
  sorted : Ascending.Sorted Version.id c.visited
  stems : ∀ u ∈ c.visited, p.Stems t u
  target : c.knows t
  stack : ∀ u ∈ c.stack, u ∈ c.visited
  sources : ∀ u ∈ c.visited, u ∈ c.stack ∨ ∀ x ∈ p.sourcesOf u, c.knows x

private theorem Trail.gathers_start (p : Path) (t : Version) : Gathers p t ⟨[t], [t]⟩ where
  sorted := List.pairwise_singleton _ t
  stems _ hu := List.mem_singleton.1 hu ▸ .refl
  target := knows_iff.2 ⟨t, List.mem_singleton_self t, rfl⟩
  stack _ hu := hu
  sources _ hu := .inl hu

private theorem id_mem_sourceIds {x : Version} (hx : x ∈ p.sourcesOf v) : x.id ∈ p.sourceIds := by
  obtain ⟨e, he, _, rfl⟩ := mem_flows_of_mem_sourcesOf hx
  exact List.mem_map_of_mem he

theorem Trail.Gathers.turn (h : c.Gathers p t) (hc : p.gather c = some c') :
    c'.Gathers p t ∧ c'.size p < c.size p := by
  unfold gather at hc
  split at hc
  · cases hc
  · rename_i v rest hs
    cases hc
    have hv : v ∈ c.visited := h.stack v (hs ▸ List.mem_cons_self)
    have met := foldl_meet_met (c := ⟨c.visited, rest⟩) h.sorted
      fun x (hx : x ∈ p.sourcesOf v) => id_mem_sourceIds hx
    refine ⟨⟨met.sorted, fun u hu => ?_, knows_of_subset met.visited h.target, fun u hu => ?_,
      fun u hu => ?_⟩, ?_⟩
    · rcases met.new u hu with hu | ⟨hu, _⟩
      · exact h.stems u hu
      · exact (h.stems v hv).tail hu
    · rcases met.pushed u hu with hu | hu
      · exact met.visited u (h.stack u (hs ▸ List.mem_cons_of_mem v hu))
      · exact hu
    · rcases met.new u hu with hu | ⟨_, hu⟩
      · rcases h.sources u hu with hu | hu
        · rw [hs] at hu
          rcases List.mem_cons.1 hu with rfl | hu
          · exact .inr met.known
          · exact .inl (met.stack u hu)
        · exact .inr fun x hx => knows_of_subset met.visited (hu x hx)
      · exact .inl hu
    · refine Nat.lt_of_le_of_lt met.size ?_
      simp only [size, ahead, hs, List.length_cons]
      omega

/-- Where the loop ends, it has come across all that `t` stems from. -/
theorem Trail.Gathers.knows_of_stems (h : c.Gathers p t) (hc : c.stack = []) {u : Version}
    (hu : p.Stems t u) : c.knows u := by
  induction hu with
  | refl => exact h.target
  | tail _ hx ih =>
    obtain ⟨y, hy, hi⟩ := knows_iff.1 ih
    rcases h.sources y hy with hs | hs
    · rw [hc] at hs
      exact absurd hs List.not_mem_nil
    · exact hs _ (sourcesOf_congr hi ▸ hx)

end Turns

/-- Ascending lists with the same identities. -/
theorem ids_eq_of_mem_iff {us vs : List Version} (hu : Ascending.Sorted Version.id us)
    (hv : Ascending.Sorted Version.id vs)
    (h : ∀ i, (∃ u ∈ us, u.id = i) ↔ ∃ v ∈ vs, v.id = i) : us.map (·.id) = vs.map (·.id) := by
  have ascending {ws : List Version} (hw : Ascending.Sorted Version.id ws) :
      Ascending.Sorted id (ws.map (·.id)) := List.pairwise_map.2 hw
  refine Ascending.eq_of_mem_iff (ascending hu) (ascending hv) ?_
  simpa using h

/-- The first loop ends with the closure. -/
private theorem eval_gather (p : Path) (t : Version) :
    ∃ visited, ⟨visited, []⟩ ∈ eval p.gather ⟨[t], [t]⟩ ∧
      visited.map (·.id) = (p.closure t).map (·.id) := by
  obtain ⟨⟨visited, stack⟩, hc, h, last⟩ := exists_mem_eval (Trail.Gathers p t) (Trail.size p)
    (fun h hc => h.turn hc) (Trail.gathers_start p t)
  cases stack with
  | cons v rest => cases last
  | nil =>
    refine ⟨visited, hc, ids_eq_of_mem_iff h.sorted (p.closure_ascending t) fun i => ?_⟩
    rw [exists_mem_closure_iff]
    constructor
    · rintro ⟨u, hu, hi⟩
      exact ⟨u, h.stems u hu, hi⟩
    · rintro ⟨u, hu, rfl⟩
      exact Trail.knows_iff.1 (h.knows_of_stems rfl hu)

section Ends

variable {p : Path} {t : Version} {c c' : EndTrail}

/-- The ends collected are the versions without sources that the loop has gone on from. -/
structure EndTrail.Gathers (p : Path) (t : Version) (c : EndTrail) : Prop extends
    Trail.Gathers p t c.toTrail where
  sortedEnds : Ascending.Sorted Version.id c.ends
  sound : ∀ u ∈ c.ends, u ∈ c.visited ∧ p.sourcesOf u = []
  complete : ∀ u ∈ c.visited, p.sourcesOf u = [] → u ∈ c.stack ∨ ∃ e ∈ c.ends, e.id = u.id

theorem EndTrail.Gathers.turn (h : c.Gathers p t) (hc : p.gatherEnds c = some c') :
    c'.Gathers p t ∧ c'.toTrail.size p < c.toTrail.size p := by
  obtain ⟨gathers, smaller⟩ := h.toGathers.turn (gather_of_gatherEnds hc)
  refine ⟨?_, smaller⟩
  unfold gatherEnds at hc
  split at hc
  · cases hc
  · rename_i v rest hs
    have complete (u : Version) (hu : u ∈ c.visited) (hn : p.sourcesOf u = []) :
        u = v ∨ u ∈ rest ∨ ∃ e ∈ c.ends, e.id = u.id := by
      rw [← or_assoc, ← List.mem_cons, ← hs]
      exact h.complete u hu hn
    split at hc
    · rename_i none
      cases hc
      refine ⟨gathers, Ascending.sorted_insert h.sortedEnds, fun u hu => ?_, fun u hu hn => ?_⟩
      · rcases Ascending.mem_of_mem_insert hu with rfl | hu
        · exact ⟨h.stack u (hs ▸ List.mem_cons_self), none⟩
        · exact h.sound u hu
      · rcases complete u hu hn with rfl | hu | hu
        · exact .inr ((Ascending.exists_key_insert_iff h.sortedEnds).2 (.inl rfl))
        · exact .inl hu
        · exact .inr ((Ascending.exists_key_insert_iff h.sortedEnds).2 (.inr hu))
    · rename_i some
      cases hc
      have met := Trail.foldl_meet_met (c := ⟨c.visited, rest⟩) h.sorted
        fun x (hx : x ∈ p.sourcesOf v) => id_mem_sourceIds hx
      refine ⟨gathers, h.sortedEnds, fun u hu => ?_, fun u hu hn => ?_⟩
      · obtain ⟨hu, hn⟩ := h.sound u hu
        exact ⟨met.visited u hu, hn⟩
      · rcases met.new u hu with hu | ⟨_, hu⟩
        · rcases complete u hu hn with rfl | hu | hu
          · exact absurd hn some
          · exact .inl (met.stack u hu)
          · exact .inr hu
        · exact .inl hu

/-- The second loop ends with the ends. -/
private theorem eval_gatherEnds (p : Path) (t : Version) :
    ∃ visited ends, ⟨⟨visited, []⟩, ends⟩ ∈ eval p.gatherEnds ⟨⟨[t], [t]⟩, []⟩ ∧
      ends.map (·.id) = (p.ends t).map (·.id) := by
  have start : EndTrail.Gathers p t ⟨⟨[t], [t]⟩, []⟩ :=
    ⟨Trail.gathers_start p t, .nil, fun _ hu => absurd hu List.not_mem_nil, fun _ hu _ => .inl hu⟩
  obtain ⟨⟨⟨visited, stack⟩, ends⟩, hc, h, last⟩ := exists_mem_eval (EndTrail.Gathers p t)
    (fun c => c.toTrail.size p) (fun h hc => h.turn hc) start
  cases stack with
  | cons v rest =>
    unfold gatherEnds at last
    split at last
    · rename_i none
      cases none
    · split at last <;> cases last
  | nil =>
    refine ⟨visited, ends, hc, ids_eq_of_mem_iff h.sortedEnds (p.ends_ascending t) fun i => ?_⟩
    constructor
    · rintro ⟨u, hu, rfl⟩
      obtain ⟨hv, hn⟩ := h.sound u hu
      obtain ⟨w, hw, hi⟩ := exists_mem_closure_iff.2 ⟨u, h.stems u hv, rfl⟩
      refine ⟨w, List.mem_filter.2 ⟨hw, ?_⟩, hi⟩
      rw [sourcesOf_congr hi, hn]
      rfl
    · rintro ⟨w, hw, rfl⟩
      obtain ⟨hw, hn⟩ := List.mem_filter.1 hw
      obtain ⟨u, hu, hi⟩ := Trail.knows_iff.1 (h.knows_of_stems rfl (stems_of_mem_closure hw))
      have none : p.sourcesOf u = [] := sourcesOf_congr hi ▸ List.isEmpty_iff.1 hn
      obtain ⟨e, he, hei⟩ := (h.complete u hu none).resolve_left List.not_mem_nil
      exact ⟨e, he, hei.trans hi⟩

/-- A version has no sources exactly if no frame has recorded a flow into it. -/
private theorem sourcesOf_eq_nil_iff {v : Version} :
    p.sourcesOf v = [] ↔ ∀ f ∈ p.frames, ∀ e ∈ f.flows, e.target.id ≠ v.id := by
  constructor
  · intro none f hf e he ht
    have into : e ∈ f.flows.filter (·.target.id == v.id) :=
      List.mem_filter.2 ⟨he, by simpa using ht⟩
    obtain ⟨d, hd, _⟩ : ∃ d ∈ f.flowsInto v, d.source.id = e.source.id :=
      Ascending.exists_key_ofList_iff.2 ⟨e, into, rfl⟩
    have source : d.source ∈ p.sourcesOf v :=
      List.mem_flatMap.2 ⟨f, List.mem_reverse.2 hf, List.mem_map_of_mem hd⟩
    rw [none] at source
    exact absurd source List.not_mem_nil
  · intro none
    refine List.eq_nil_iff_forall_not_mem.2 fun x hx => ?_
    obtain ⟨e, he, ht, _⟩ := mem_flows_of_mem_sourcesOf hx
    obtain ⟨f, hf, he⟩ := List.mem_flatMap.1 he
    exact none f hf e he ht

end Ends

/-- On every path the loops that collect the closure of a version and its ends come to an end with
them. The closure lists, in ascending order, exactly the versions that are reached by going from
version to source any number of times; the ends are those of them that no frame has recorded a flow
into. Versions are known by their identities. -/
theorem closure_exact (p : Path) (t : Version) :
    (∃ visited, ⟨visited, []⟩ ∈ eval p.gather ⟨[t], [t]⟩ ∧
      visited.map (·.id) = (p.closure t).map (·.id)) ∧
    (∃ visited ends, ⟨⟨visited, []⟩, ends⟩ ∈ eval p.gatherEnds ⟨⟨[t], [t]⟩, []⟩ ∧
      ends.map (·.id) = (p.ends t).map (·.id)) ∧
    (p.closure t).Pairwise (fun u v => u.id < v.id) ∧
    (∀ u ∈ p.closure t, Relation.ReflTransGen (fun a b => b ∈ p.sourcesOf a) t u) ∧
    (∀ u, Relation.ReflTransGen (fun a b => b ∈ p.sourcesOf a) t u →
      ∃ v ∈ p.closure t, v.id = u.id) ∧
    (p.ends t).Sublist (p.closure t) ∧
    ∀ u, u ∈ p.ends t ↔
      u ∈ p.closure t ∧ ∀ f ∈ p.frames, ∀ e ∈ f.flows, e.target.id ≠ u.id := by
  refine ⟨eval_gather p t, eval_gatherEnds p t, p.closure_ascending t,
    fun u hu => stems_of_mem_closure hu, fun u hu => exists_mem_closure_iff.2 ⟨u, hu, rfl⟩,
    List.filter_sublist, fun u => ?_⟩
  rw [ends, List.mem_filter, List.isEmpty_iff, sourcesOf_eq_nil_iff]

end Path

end PathSlice
