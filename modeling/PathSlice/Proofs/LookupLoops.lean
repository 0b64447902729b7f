import Mathlib.Computability.StateTransition
import PathSlice.Proofs.MergedFrames

/-! The lookup of the origins of a version, as two loops, one inside the other. Each works off a stack
and remembers what it has come across; nothing bounds the number of their turns beforehand. Both
come to an end on every path, flows that go round in circles included, and end with what the walk
and the search find. What is found is justified by the records of the path. -/
namespace PathSlice

open StateTransition

/-- A loop ends from where one turn leads as it ends from before the turn. -/
theorem eval_turn {σ : Type} {turn : σ → Option σ} {c c' : σ} (h : turn c = some c') :
    eval turn c = eval turn c' :=
  reaches_eval (.single (Option.mem_def.2 h))

namespace Frame

/-- The state of the inner loop: the identities of the versions come across, the versions to walk on
from, the next one first, and the ends found. -/
structure Tour where
  visited : List Nat
  stack : List Version
  found : List LocalOrigin

/-- Follows one flow, to a version that was not come across before. -/
def Tour.follow (f : Frame) (c : Tour) (e : Flow) : Tour :=
  if e.via.isSome then
    { c with found := Ascending.put LocalOrigin.compare ⟨some e.source, e.via⟩ c.found }
  else if f.leadsOn e.source then
    if e.source.id ∈ c.visited then c
    else { c with visited := e.source.id :: c.visited, stack := e.source :: c.stack }
  else
    { c with found := Ascending.put LocalOrigin.compare ⟨some e.source, none⟩ c.found }

/-- One turn of the inner loop. -/
def tour (f : Frame) (c : Tour) : Option Tour :=
  match c.stack with
  | [] => none
  | v :: rest =>
    match f.flowsInto v with
    | [] =>
      match f.lastDeposit? v with
      | some l =>
        some ⟨c.visited, rest, Ascending.put LocalOrigin.compare ⟨none, some l⟩ c.found⟩
      | none => some ⟨c.visited, rest, c.found⟩
    | es => some (es.foldl (Tour.follow f) ⟨c.visited, rest, c.found⟩)

variable {f : Frame}

/-- A walk stands where the loop does: what is pending are the sources of flows that the loop has not
come across. -/
structure Tour.Matches (f : Frame) (c : Tour) (w : Walk) : Prop where
  stack : c.stack = w.stack
  found : c.found = w.found
  pending : ∀ e ∈ f.flows, e.source.id ∈ w.pending ↔ e.source.id ∉ c.visited

namespace Tour.Matches

variable {c : Tour} {w : Walk}

theorem follow (h : c.Matches f w) {e : Flow} (he : e ∈ f.flows) :
    (c.follow f e).Matches f (f.follow w e) := by
  unfold Tour.follow Frame.follow
  by_cases hv : e.via.isSome
  · rw [if_pos hv, if_pos hv]
    exact ⟨h.stack, by rw [h.found], h.pending⟩
  · rw [if_neg hv, if_neg hv]
    by_cases hs : f.leadsOn e.source
    · rw [if_pos hs, if_pos hs]
      by_cases hc : e.source.id ∈ c.visited
      · rw [if_pos hc, if_neg fun hp => (h.pending e he).1 hp hc]
        exact h
      · rw [if_neg hc, if_pos ((h.pending e he).2 hc)]
        refine ⟨by rw [h.stack], h.found, fun d hd => ?_⟩
        rw [Agenda.mem_without, h.pending d hd, List.mem_cons, not_or]
        exact and_comm
    · rw [if_neg hs, if_neg hs]
      exact ⟨h.stack, by rw [h.found], h.pending⟩

theorem foldl_follow (h : c.Matches f w) {es : List Flow} (hes : ∀ e ∈ es, e ∈ f.flows) :
    (es.foldl (Tour.follow f) c).Matches f (es.foldl f.follow w) := by
  induction es generalizing c w with
  | nil => exact h
  | cons e es ih =>
    obtain ⟨he, hes⟩ := List.forall_mem_cons.1 hes
    exact ih (h.follow he) hes

/-- The loop ends with what the walk finds. The induction is on the walk, which ends because fewer
and fewer versions are pending. -/
theorem eval_tour (h : c.Matches f w) : ∃ visited, ⟨visited, [], f.walk w⟩ ∈ eval f.tour c := by
  obtain ⟨visited, stack, found⟩ := c
  obtain ⟨rfl, rfl, hpending⟩ := h
  induction w using walk.induct f generalizing visited with
  | case1 w hw =>
    rw [walk_nil hw, hw]
    exact ⟨visited, mem_eval.2 ⟨.refl, rfl⟩⟩
  | case2 w v rest hw hv l hl ih =>
    rw [walk_deposit hw hv hl, hw, eval_turn (by simp only [tour, hv, hl]; rfl)]
    exact ih visited hpending
  | case3 w v rest hw hv hl ih =>
    rw [walk_unknown hw hv hl, hw, eval_turn (by simp only [tour, hv, hl]; rfl)]
    exact ih visited hpending
  | case4 w v rest hw e es hv _ ih =>
    have hes : ∀ d ∈ e :: es, d ∈ f.flows := fun d hd =>
      (mem_flows_of_mem_flowsInto (v := v) (hv ▸ hd)).1
    have next : Tour.Matches f ⟨visited, rest, w.found⟩ ⟨w.pending, rest, w.found⟩ :=
      ⟨rfl, rfl, hpending⟩
    have next := next.foldl_follow hes
    rw [walk_flows hw hv, hw, eval_turn (by simp only [tour, hv]; rfl)]
    have last := ih _ next.pending
    rw [← next.stack, ← next.found] at last
    exact last

end Tour.Matches

/-- From a version alone the inner loop ends with the ends of the ways that lead to it. -/
theorem eval_tour (f : Frame) (v : Version) :
    ∃ visited, ⟨visited, [], f.localOrigins v⟩ ∈ eval f.tour ⟨[v.id], [v], []⟩ := by
  refine Tour.Matches.eval_tour ⟨rfl, rfl, fun e he => ?_⟩
  rw [Agenda.mem_without, List.mem_singleton]
  exact and_iff_right (List.mem_map_of_mem he)

end Frame

namespace Path

/-- The state of the outer loop: the versions to look up, each on the path whose current frame is to
be asked, the next one first, and the search so far. -/
structure Lookups where
  stack : List (Path × Version)
  search : Search

/-- What a frame leaves to its parent when it has found some ends for `v`, the next one first: the
version itself if there are none, and otherwise the sources that have no location. -/
def leftOver (v : Version) : List LocalOrigin → List Version
  | [] => [v]
  | os => os.reverse.filterMap fun
    | ⟨some source, none⟩ => some source
    | _ => none

/-- The lookups of some versions in the parent frame. There are none in a root frame. -/
def handUp (p : Path) (vs : List Version) : List (Path × Version) :=
  match p.ancestors with
  | [] => []
  | f :: fs => vs.map (⟨f, fs⟩, ·)

/-- One turn of the outer loop. -/
def lookUp (c : Lookups) : Option Lookups :=
  match c.stack with
  | [] => none
  | (p, v) :: rest =>
    if (p.current.id, v.id) ∈ c.search.seen then some ⟨rest, c.search⟩
    else
      let noted : Search := { c.search with seen := (p.current.id, v.id) :: c.search.seen }
      let os := p.current.localOrigins v
      some ⟨p.handUp (leftOver v os) ++ rest, noted.keep os⟩

section Loop

variable {f : Frame} {fs : List Frame} {v : Version} {s : Search}

/-- A search keeps the ends that a frame finds and goes on with what the frame leaves over. -/
private theorem search_leftOver (h : (f.id, v.id) ∉ s.seen) :
    search (f :: fs) v s =
      (leftOver v (f.localOrigins v)).foldl (fun s u => search fs u s)
        (Search.keep { s with seen := (f.id, v.id) :: s.seen } (f.localOrigins v)) := by
  by_cases ho : f.localOrigins v = []
  · rw [search_up h ho, ho]
    rfl
  · rw [search_found h ho]
    generalize f.localOrigins v = os at ho
    cases os with
    | nil => exact absurd rfl ho
    | cons o os =>
      unfold leftOver
      rw [List.foldl_filterMap]
      congr 1
      funext s o
      match o with
      | ⟨some _, none⟩ => rfl
      | ⟨none, _⟩ => rfl
      | ⟨some _, some _⟩ => rfl

private theorem lookUp_seen {p : Path} (h : (p.current.id, v.id) ∈ s.seen) (rest : List (Path × Version)) :
    lookUp ⟨(p, v) :: rest, s⟩ = some ⟨rest, s⟩ :=
  if_pos h

private theorem lookUp_fresh {p : Path} (h : (p.current.id, v.id) ∉ s.seen)
    (rest : List (Path × Version)) :
    lookUp ⟨(p, v) :: rest, s⟩ =
      some ⟨p.handUp (leftOver v (p.current.localOrigins v)) ++ rest,
        Search.keep { s with seen := (p.current.id, v.id) :: s.seen } (p.current.localOrigins v)⟩ :=
  if_neg h

/-- The loop works off what was handed up one by one, as the search goes on in the parent frames, if
it works off a single lookup there like that. -/
private theorem eval_lookUp_handUp {p : Path} {rest : List (Path × Version)}
    (h : ∀ q : Path, q.frames = p.ancestors → ∀ u rest s,
      eval lookUp ⟨(q, u) :: rest, s⟩ = eval lookUp ⟨rest, search q.frames u s⟩)
    (vs : List Version) (s : Search) :
    eval lookUp ⟨p.handUp vs ++ rest, s⟩ =
      eval lookUp ⟨rest, vs.foldl (fun s u => search p.ancestors u s) s⟩ := by
  obtain ⟨f, fs⟩ := p
  cases fs with
  | nil =>
    simp only [search, List.foldl_fixed]
    rfl
  | cons g fs =>
    induction vs generalizing s with
    | nil => rfl
    | cons u us ih => exact (h ⟨g, fs⟩ rfl u _ s).trans (ih _)

/-- The loop works a lookup off as the search does. The induction is on the frames left to ask. -/
private theorem eval_lookUp_cons (p : Path) (v : Version) (rest : List (Path × Version)) (s : Search) :
    eval lookUp ⟨(p, v) :: rest, s⟩ = eval lookUp ⟨rest, search p.frames v s⟩ := by
  generalize hfs : p.frames = fs
  induction fs generalizing p v rest s with
  | nil => cases hfs
  | cons f fs ih =>
    obtain ⟨rfl, rfl⟩ := List.cons.inj hfs
    by_cases h : (p.current.id, v.id) ∈ s.seen
    · rw [eval_turn (lookUp_seen h rest), search_seen h]
    · rw [eval_turn (lookUp_fresh h rest), search_leftOver h]
      exact eval_lookUp_handUp (fun q hq u rest s => hq ▸ ih q u rest s hq) _ _

end Loop

/-- The outer loop ends with the origins. -/
private theorem eval_lookUp (p : Path) (t : Version) :
    ∃ seen, ⟨[], ⟨seen, p.origins t⟩⟩ ∈ eval lookUp ⟨[(p, t)], {}⟩ := by
  rw [eval_lookUp_cons]
  exact ⟨_, mem_eval.2 ⟨.refl, rfl⟩⟩

section Justification

variable {p : Path} {t v : Version}

theorem computedFrom_leads {f : Frame} (hf : f ∈ p.frames) (hv : p.mergedFrame.ComputedFrom t v)
    {u : Version} (hu : f.Leads v u) : p.mergedFrame.ComputedFrom t u := by
  induction hu with
  | refl => exact hv
  | step _ he hvia ih =>
    obtain ⟨he, ht⟩ := Frame.mem_flows_of_mem_flowsInto he
    exact .flow ih (List.mem_flatMap.2 ⟨f, hf, he⟩) ht hvia

/-- A frame of the path recorded what an origin of `t` says: a flow through its location, or that a
version was put there. The version concerned is one that `t` was computed from. -/
inductive Justified (p : Path) (t : Version) : Option Version → Location → Prop
  | passage {u : Version} {f : Frame} {e : Flow} {l : Location}
      (hu : p.mergedFrame.ComputedFrom t u) (hf : f ∈ p.frames) (he : e ∈ f.flows)
      (ht : e.target.id = u.id) (hv : e.via = some l) : Justified p t (some e.source) l
  | deposit {u : Version} {f : Frame} {d : Deposit} (hu : p.mergedFrame.ComputedFrom t u)
      (hf : f ∈ p.frames) (hd : d ∈ f.deposits) (hv : d.version.id = u.id) :
      Justified p t none d.location

private theorem justified_of_mem_localOrigins {f : Frame} (hf : f ∈ p.frames)
    (hv : p.mergedFrame.ComputedFrom t v) {source : Option Version} {l : Location}
    (ho : ⟨source, some l⟩ ∈ f.localOrigins v) : p.Justified t source l := by
  cases (f.localOrigins_spec v).2.1 _ ho with
  | passage hu he hvia =>
    obtain ⟨he, ht⟩ := Frame.mem_flows_of_mem_flowsInto he
    exact .passage (computedFrom_leads hf hv hu) hf he ht hvia
  | deposit hu _ hl =>
    obtain ⟨d, hd, rfl⟩ := Option.map_eq_some_iff.1 hl
    exact .deposit (computedFrom_leads hf hv hu) hf (List.mem_of_find?_eq_some hd)
      (by simpa using List.find?_some hd)

/-- Whatever a frame of the path leaves over, `t` was computed from it. -/
theorem justified_of_mem_origins {o : Origin} (ho : o ∈ p.origins t) :
    p.Justified t o.source o.location := by
  let inv (s : Search) : Prop := s.Sorted ∧ ∀ o ∈ s.found, p.Justified t o.source o.location
  let comes (gs : List Frame) (v : Version) : Prop :=
    gs ⊆ p.frames ∧ p.mergedFrame.ComputedFrom t v
  have final : inv (search p.frames t {}) := by
    refine search_keeps comes inv id ?_ ?_ ?_ ⟨List.Subset.refl _, .self⟩
      ⟨List.Pairwise.nil, fun _ ho => absurd ho List.not_mem_nil⟩
    · rintro f gs v s ⟨hg, hv⟩ ⟨hsorted, hs⟩
      obtain ⟨hsorted, _, _, hfound⟩ := s.keep_spec hsorted (f.localOrigins v)
      refine ⟨hsorted, fun o ho => ?_⟩
      rcases hfound o ho with ho | ho
      · exact hs o ho
      · exact justified_of_mem_localOrigins (List.cons_subset.1 hg).1 hv ho
    · exact fun ⟨hg, hv⟩ _ => ⟨(List.cons_subset.1 hg).2, hv⟩
    · rintro f gs v source ⟨hg, hv⟩ ho
      obtain ⟨hf, hg⟩ := List.cons_subset.1 hg
      refine ⟨hg, ?_⟩
      cases (f.localOrigins_spec v).2.1 _ ho with
      | unknown hu he hvia _ => exact computedFrom_leads hf hv (.step hu he hvia)
  exact final.2 o ho

end Justification

/-- Looking up where a version comes from ends on every path, and every origin is justified by what
the frames of the path recorded. -/
theorem origins_justified (p : Path) (t : Version) :
    (∀ f ∈ p.frames, ∀ v, ∃ visited,
      ⟨visited, [], f.localOrigins v⟩ ∈ eval f.tour ⟨[v.id], [v], []⟩) ∧
    (∃ seen, ⟨[], ⟨seen, p.origins t⟩⟩ ∈ eval lookUp ⟨[(p, t)], {}⟩) ∧
    (∀ s l, ⟨some s, l⟩ ∈ p.origins t → ∃ u, p.mergedFrame.ComputedFrom t u ∧
      ∃ f ∈ p.frames, ∃ e ∈ f.flows, e.source = s ∧ e.target.id = u.id ∧ e.via = some l) ∧
    ∀ l, ⟨none, l⟩ ∈ p.origins t → ∃ u, p.mergedFrame.ComputedFrom t u ∧
      ∃ f ∈ p.frames, ∃ d ∈ f.deposits, d.version.id = u.id ∧ d.location = l := by
  refine ⟨fun f _ v => f.eval_tour v, eval_lookUp p t, fun s l ho => ?_, fun l ho => ?_⟩
  · cases justified_of_mem_origins ho with
    | passage hu hf he ht hv => exact ⟨_, hu, _, hf, _, he, rfl, ht, hv⟩
  · cases justified_of_mem_origins ho with
    | deposit hu hf hd hv => exact ⟨_, hu, _, hf, _, hd, hv, rfl⟩

end Path

end PathSlice
