import PathSlice.Proofs.ChainSearch
import PathSlice.Proofs.ReplayRuns

/-! Which nearest locations of a version a root frame answers with. The nearest locations are those
that its ways through the frame go through first, or that a version without sources was last put
into. The answer is keyed by the version that was loaded: it holds one nearest location for every
such version, so a location is missed when another one is answered for each of its versions. -/
namespace PathSlice

namespace Frame

variable {f : Frame} {t : Version}

/-- `t` was computed from a version along flows that go through no location. -/
inductive ComputedFrom (f : Frame) (t : Version) : Version → Prop
  | self : ComputedFrom f t t
  | flow {u : Version} {e : Flow} (h : ComputedFrom f t u) (he : e ∈ f.flows)
      (ht : e.target.id = u.id) (hv : e.via = none) : ComputedFrom f t e.source

/-- A nearest location of `t`, with the version that was loaded from it on the way. There is none if
the location is where a version without sources was last put. -/
inductive Nearest (f : Frame) (t : Version) : Option Version → Location → Prop
  | passage {u : Version} {e : Flow} {l : Location} (h : f.ComputedFrom t u) (he : e ∈ f.flows)
      (ht : e.target.id = u.id) (hv : e.via = some l) : Nearest f t (some e.source) l
  | deposit {u : Version} {l : Location} (h : f.ComputedFrom t u)
      (hu : ∀ e ∈ f.flows, e.target.id ≠ u.id) (hl : f.lastDeposit? u = some l) :
      Nearest f t none l

theorem mem_flowsInto_iff (hd : f.Distinct) {u : Version} {e : Flow} :
    e ∈ f.flowsInto u ↔ e ∈ f.flows ∧ e.target.id = u.id := by
  have apart : (f.flows.filter (·.target.id == u.id)).Pairwise
      fun d e => d.source.id ≠ e.source.id := by
    refine List.pairwise_filter.2 (hd.imp fun {d e} h hd he => h ?_)
    have hd : d.target.id = u.id := by simpa using hd
    have he : e.target.id = u.id := by simpa using he
    rw [hd, he]
  unfold flowsInto
  rw [Ascending.mem_ofList_iff apart, List.mem_filter]
  simp

private theorem flowsInto_eq_nil_iff (hd : f.Distinct) {u : Version} :
    f.flowsInto u = [] ↔ ∀ e ∈ f.flows, e.target.id ≠ u.id := by
  rw [List.eq_nil_iff_forall_not_mem]
  constructor
  · exact fun h e he ht => h e ((mem_flowsInto_iff hd).2 ⟨he, ht⟩)
  · intro h e he
    obtain ⟨he, ht⟩ := (mem_flowsInto_iff hd).1 he
    exact h e he ht

end Frame

namespace Path

variable {f : Frame} {t : Version}

theorem comesTo_root_iff (hd : f.Distinct) {g : Frame} {gs : List Frame} {u : Version} :
    ComesTo [f] t (g :: gs) u ↔ g :: gs = [f] ∧ f.ComputedFrom t u := by
  constructor
  · intro h
    generalize hg : g :: gs = hs at h
    induction h generalizing g gs with
    | start => exact ⟨rfl, .self⟩
    | along h he hv ih =>
      obtain ⟨hf, hc⟩ := ih rfl
      cases hf
      obtain ⟨he, ht⟩ := (Frame.mem_flowsInto_iff hd).1 he
      exact ⟨rfl, .flow hc he ht hv⟩
    | up h hu ih =>
      obtain ⟨hf, _⟩ := ih rfl
      cases hf
      cases hg
  · rintro ⟨hg, hc⟩
    rw [hg]
    induction hc with
    | self => exact .start
    | flow _ he ht hv ih => exact .along ih ((Frame.mem_flowsInto_iff hd).2 ⟨he, ht⟩) hv

private theorem endsAt_root_iff (hd : f.Distinct) {source : Option Version} {l : Location} :
    (∃ u, EndsAt [f] t u source l) ↔ f.Nearest t source l := by
  constructor
  · rintro ⟨u, h⟩
    cases h with
    | passage h he hv =>
      obtain ⟨hf, hc⟩ := (comesTo_root_iff hd).1 h
      cases hf
      obtain ⟨he, ht⟩ := (Frame.mem_flowsInto_iff hd).1 he
      exact .passage hc he ht hv
    | deposit h hu hl =>
      obtain ⟨hf, hc⟩ := (comesTo_root_iff hd).1 h
      cases hf
      exact .deposit hc ((Frame.flowsInto_eq_nil_iff hd).1 hu) hl
  · intro h
    cases h with
    | passage hc he ht hv =>
      exact ⟨_, .passage ((comesTo_root_iff hd).2 ⟨rfl, hc⟩)
        ((Frame.mem_flowsInto_iff hd).2 ⟨he, ht⟩) hv⟩
    | deposit hc hu hl =>
      exact ⟨_, .deposit ((comesTo_root_iff hd).2 ⟨rfl, hc⟩)
        ((Frame.flowsInto_eq_nil_iff hd).2 hu) hl⟩

variable {n : Nat}

/-- A root frame has put away whatever it loads, so it knows it. -/
theorem undisturbed_root (ht : (⟨f, []⟩ : Path).Traceable) (t : Version) : Undisturbed [f] t := by
  intro g gs u v d e hu hd _ hs hv he hvia hi
  have distinct := ht.distinct f List.mem_cons_self
  obtain ⟨hg, _⟩ := (comesTo_root_iff distinct).1 hv
  cases hg
  obtain ⟨l, hl⟩ := Option.isSome_iff_exists.1 hvia
  have hflow : e ∈ (⟨f, []⟩ : Path).flows :=
    List.mem_append_left _ (Frame.mem_flows_of_mem_flowsInto he).1
  have hput : (⟨l, e.source⟩ : Deposit) ∈ f.deposits := by
    simpa [deposits, frames] using ht.deposited e hflow l hl
  have hnone := (Frame.leadsOn_eq_false.1 hs).2
  unfold Frame.lastDeposit? at hnone
  rw [Option.map_eq_none_iff, List.find?_eq_none] at hnone
  exact hnone _ hput (by simp [hi])

/-- A root frame answers with nearest locations. -/
private theorem root_answers (hc : (⟨f, []⟩ : Path).Closed) (hn : (⟨f, []⟩ : Path).Numbered n)
    (ht : (⟨f, []⟩ : Path).Traceable) (t : Version) :
    Answers (f.Nearest t) ((⟨f, []⟩ : Path).origins t) := by
  have distinct := ht.distinct f List.mem_cons_self
  have h := chain_answers hc hn (List.pairwise_singleton _ _) (undisturbed_root ht t)
  exact h.congr fun _ _ => endsAt_root_iff distinct

end Path

namespace Replay

/-- What a root frame answers with, after any effects and for any version. Every answer is a nearest
location with its source, and every source has exactly one answer. All nearest locations are
answered with their sources if and only if no source has two of them, and a nearest location is
missed if and only if every source of it is answered with another one. -/
theorem origins_nearest (program : Program) (next : Nat) (existential : Bool) (events : List Event)
    (he : ∀ e ∈ events, e.isEffect) (t : Version) :
    let p := (pursue 0 events (start program next existential)).2.state.path
    let f := p.current
    (∀ o ∈ p.origins t, f.Nearest t o.source o.location) ∧
      (∀ source l, f.Nearest t source l → ∃! o, o ∈ p.origins t ∧ o.source = source) ∧
      ((∀ source l, f.Nearest t source l → ⟨source, l⟩ ∈ p.origins t) ↔
        ∀ source l l', f.Nearest t source l → f.Nearest t source l' → l = l') ∧
      ∀ l, (∀ o ∈ p.origins t, o.location ≠ l) ↔
        ∀ source, f.Nearest t source l → ∃ o ∈ p.origins t, o.source = source ∧ o.location ≠ l := by
  have root : ∀ s : State, Settled s → s.path.ancestors = [] →
      Path.Answers (s.path.current.Nearest t) (s.path.origins t) := by
    rintro ⟨n, ⟨f, ancestors⟩, marks, notices⟩ h rfl
    exact Path.root_answers h.closed h.numbered h.traceable t
  have hstart := start_settled program next existential
  have h := root _ (pursue_settled hstart (fun e hm => .inl (he e hm)) 0)
    (pursue_ancestors hstart he 0)
  exact ⟨h.sound, fun _ _ => h.existsUnique, h.all_iff, h.missed_iff⟩

/-- A sum is stored twice and both copies are loaded and added. -/
def twoCopiesProgram : Program :=
  ((Program.ofDeclarations 1 [
    ⟨"k", .constant, .integer 32⟩,
    ⟨"p", .instruction .alloca "main" [], .pointer⟩,
    ⟨"q", .instruction .alloca "main" [], .pointer⟩,
    ⟨"x", .instruction .add "main" ["k", "k"], .integer 32⟩,
    ⟨"sp", .instruction .store "main" ["x", "p"], .void⟩,
    ⟨"sq", .instruction .store "main" ["x", "q"], .void⟩,
    ⟨"a", .instruction .load "main" ["p"], .integer 32⟩,
    ⟨"b", .instruction .load "main" ["q"], .integer 32⟩,
    ⟨"t", .instruction .add "main" ["a", "b"], .integer 32⟩]).toOption).getD []

def twoCopies : List Event :=
  [.execute "p" [.pointer 16] false,
    .execute "q" [.pointer 32] false,
    .execute "x" [.ofBits 2 32, .ofBits 1 32, .ofBits 1 32] false,
    .execute "sp" [.ofBits 2 32, .pointer 16] false,
    .execute "sq" [.ofBits 2 32, .pointer 32] false,
    .execute "a" [.ofBits 2 32, .pointer 16] false,
    .execute "b" [.ofBits 2 32, .pointer 32] false,
    .execute "t" [.ofBits 4 32, .ofBits 2 32, .ofBits 2 32] false]

def twoCopiesPath : Path :=
  (pursue 0 twoCopies (start twoCopiesProgram 10 false)).2.state.path

theorem origins_nearest_twoCopies :
    (∀ e ∈ twoCopies, e.isEffect) ∧ ∀ t l,
      (∀ o ∈ twoCopiesPath.origins t, o.location ≠ l) ↔
        ∀ source, twoCopiesPath.current.Nearest t source l →
          ∃ o ∈ twoCopiesPath.origins t, o.source = source ∧ o.location ≠ l :=
  ⟨by decide, fun t =>
    (origins_nearest twoCopiesProgram 10 false twoCopies (by decide) t).2.2.2⟩

-- Both locations are nearest ones of the last version, under one source, and one is missed.
example :
    (twoCopiesPath.versions.head?.map fun t => (twoCopiesPath.origins t).map (·.location.id)) =
        some [12] ∧
      (twoCopiesPath.current.flows.map fun e => (e.target.id, e.source.id, e.via.map (·.id))) =
        [(20, 19, none), (20, 18, none), (19, 17, some 14), (18, 17, some 12), (17, 16, none),
          (17, 15, none)] := by
  decide +kernel

end Replay

end PathSlice
