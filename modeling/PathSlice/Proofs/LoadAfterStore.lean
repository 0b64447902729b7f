import PathSlice.Proofs.BacktrackRuns
import PathSlice.Proofs.DeclaredPrograms
import PathSlice.Proofs.FlowClosure
import PathSlice.Proofs.MemoryAccess

/-! A store followed by a load through the same address. Both find the same locations, but the store
turns to the latest ones at their addresses, so the load sees the data exactly where they are the
latest themselves. -/
namespace PathSlice

theorem Settled.execute {s : State} (h : Settled s) (i : Value) (xs : List Term)
    (erroneous : Bool) : Settled ((Effect.execute i xs erroneous).run s).2 := by
  obtain ⟨w, hm, ⟨hw, _⟩, _⟩ := (recording_lawful s.next).execute
    ⟨rfl, rfl, h.toRecorded, Nat.le_refl _⟩ i xs erroneous
  have hm : Moves s.next s w := hm
  rw [hw]
  exact ⟨hm.recorded h.toRecorded, (hm.layered h.layered).mono hm.grown.next⟩

namespace Recorded

variable {s t : State} {v : Version}

theorem mem_versions_of_mem_ends (h : Recorded s) (hv : v ∈ s.path.versions) {u : Version}
    (hu : u ∈ s.path.ends v) : u ∈ s.path.versions := by
  rcases Path.mem_ends hu with rfl | ⟨e, he, rfl⟩
  · exact hv
  · exact (h.closed.flows e he).2.1

private theorem mem_locations_of_mem_addressed (h : Recorded s) {l : Location}
    (hl : l ∈ s.path.addressed v) : l ∈ s.path.locations := by
  have pointed {u : Version} (hu : s.path.pointee? u = some l) : l ∈ s.path.locations := by
    obtain ⟨r, hr, _, rfl⟩ := Path.mem_pointers_of_pointee? hu
    exact (h.closed.pointers r hr).2
  unfold Path.addressed at hl
  split at hl
  · rename_i hp
    rw [← List.mem_singleton.1 hl] at hp
    exact pointed hp
  · obtain ⟨u, _, hu⟩ := List.mem_filterMap.1 hl
    exact pointed hu

/-- What an address resolves to stays the same as long as addresses do. -/
theorem resolveAll_eq (h : Recorded s) (hv : v ∈ s.path.versions) (ha : s.path.Allocated v)
    (ht : SameAddresses s t) : Recorder.resolveAll v t = (s.path.addressed v, t) := by
  have known {u : Version} (hu : u ∈ s.path.versions) : t.path.pointee? u = s.path.pointee? u :=
    ht.pointee u (h.numbered.versions_lt u hu)
  have plain {u : Version} (hu : u ∈ s.path.versions) (hp : s.path.Plain u) : t.path.Plain u := by
    unfold Path.Plain
    rw [known hu]
    exact hp
  have allocated : t.path.Allocated v := by
    refine ⟨plain hv ha.plain, ?_⟩
    rw [known hv, ht.ends]
    exact fun hn u hu => plain (h.mem_versions_of_mem_ends hv hu) (ha.ends hn u hu)
  rw [Recorder.resolveAll_of_allocated allocated]
  simp only [Path.addressed, known hv, ht.ends]
  split
  · rfl
  · congr 1
    exact List.filterMap_congr fun u hu => known (h.mem_versions_of_mem_ends hv hu)

end Recorded

namespace Recorder

variable {s : State} {value a : Value} {va : Version}

private theorem latest?_cons {v : Version} {t : State} (h : t.path.versions = v :: s.path.versions)
    (a : Value) : t.path.latest? a = if v.value.id = a.id then some v else s.path.latest? a := by
  by_cases hi : v.value.id = a.id <;> simp [Path.latest?, h, hi]

theorem latest?_newVersion (value a : Value) (x : Term) (s : State) :
    (newVersion value x s).2.path.latest? a =
      if value.id = a.id then some (newVersion value x s).1 else s.path.latest? a :=
  latest?_cons (s := s) (v := (newVersion value x s).1) (t := (newVersion value x s).2) rfl a

/-- Looking a value up leaves the latest version of another one as it is. Constants are the only
values that get new versions when they are looked up. -/
theorem latest?_versionOf? (ha : s.path.latest? a = some va)
    (h : value.id = a.id → ¬value.isConstant) (x : Term) :
    (versionOf? value x s).2.path.latest? a = some va := by
  by_cases hi : value.id = a.id
  · rw [versionOf?_of_not_isConstant (h hi)]
    exact ha
  · rcases versionOf?_cases value x s with hv | hv | hv <;> rw [hv]
    · exact ha
    · rw [latest?_newVersion, if_neg hi, ha]
    · rw [latest?_cons (s := s) rfl a]
      exact (if_neg hi).trans ha

private theorem latest?_versionOrNew (ha : s.path.latest? a = some va)
    (h : value.id = a.id → ¬value.isConstant) (x : Term) :
    (versionOrNew value x s).2.path.latest? a = some va := by
  have first := latest?_versionOf? ha h x
  unfold versionOrNew
  rw [run_bind]
  cases hv : (versionOf? value x s).1 with
  | some v => exact first
  | none =>
    have hi : value.id ≠ a.id := by
      intro hi
      rw [versionOf?_of_not_isConstant (h hi)] at hv
      rw [Path.latest?, ← hi] at ha
      cases hv.symm.trans ha
    exact (latest?_newVersion value a x _).trans ((if_neg hi).trans first)

/-- The version used is the latest one from then on. -/
private theorem latest?_versionOrNew_self (value : Value) (x : Term) (s : State) :
    (versionOrNew value x s).2.path.latest? value = some (versionOrNew value x s).1 := by
  unfold versionOrNew
  rw [run_bind]
  rcases versionOf?_cases value x s with hv | hv | hv <;> rw [hv]
  · cases h : s.path.latest? value with
    | some v => exact h
    | none => exact (latest?_newVersion value value x s).trans (if_pos rfl)
  · exact (latest?_newVersion value value x s).trans (if_pos rfl)
  · exact (latest?_cons (s := s) rfl value).trans (if_pos rfl)

end Recorder

namespace Effect

open Recorder

variable {s : State} {i a source : Value} {va : Version} {ls : List Location}

private theorem store_run (h₀ : i.operands[0]? = some source) (h₁ : i.operands[1]? = some a)
    (hc : ¬a.isConstant) (x y : Term)
    (hv : (versionOf? source x s).2.path.latest? a = some va)
    (hr : resolveAll va (versionOf? source x s).2 = (ls, (versionOf? source x s).2)) :
    (store i x y).run s =
      (.ok (), (storeInto (versionOrNew source x s).1 x y ls (versionOrNew source x s).2).2) := by
  have looked := versionOf?_of_not_isConstant hc y (versionOf? source x s).2
  rw [hv] at looked
  unfold store versionOrNew
  rw [run_operand h₀, run_operand h₁, run_lift, run_lift, looked]
  rw [run_bind]
  dsimp only
  rw [run_lift, hr]
  cases (versionOf? source x s).1 <;> rfl

private theorem load_run (h₀ : i.operands[0]? = some a) (hc : ¬a.isConstant) (x y : Term)
    (hv : s.path.latest? a = some va) (hr : resolveAll va s = (ls, s)) (hne : ls ≠ [])
    (he : ∀ l ∈ ls, ¬l.site.isEntryArgument) :
    (load i x y).run s =
      (.ok (), (loadFrom (newVersion i x s).1 ls (newVersion i x s).2).2) := by
  have looked := versionOf?_of_not_isConstant hc y s
  rw [hv] at looked
  have unknown : loadUnknown a y i x s = (false, s) := by
    unfold loadUnknown
    rw [run_bind, looked]
    dsimp only
    rw [run_bind, hr]
    match ls, hne, he with
    | [l], _, he =>
      rw [List.forall_mem_singleton] at he
      simp only [he]
      rfl
    | _ :: _ :: _, _, _ => rfl
  have resolved : (loadResolved a y i x).run s =
      (.ok true, (loadFrom (newVersion i x s).1 ls (newVersion i x s).2).2) := by
    have empty : ls.isEmpty = false := by simpa using hne
    rw [loadResolved_of_some (congrArg Prod.fst looked), looked, hr]
    simp only [empty]
    rfl
  unfold load
  rw [run_operand h₀, run_lift, unknown]
  exact run_of_ok resolved _

end Effect

namespace Settled

open Recorder

variable {s : State} {a source : Value} {va : Version} {ls : List Location}

/-- What a store through an address leaves behind. -/
private theorem store_state (h : Settled s) {i : Value} (h₀ : i.operands[0]? = some source)
    (h₁ : i.operands[1]? = some a) (hc : ¬a.isConstant)
    (hs : source.id = a.id → ¬source.isConstant) (hv : s.path.latest? a = some va)
    (ha : s.path.Allocated va) (x y : Term) :
    ∃ d t, (Effect.store i x y).run s = (.ok (), t) ∧ t.path.latest? source = some d ∧
      t.path.latest? a = some va ∧ resolveAll va t = (s.path.addressed va, t) ∧
      ∀ l ∈ s.path.addressed va,
        (t.path.IsLatest l → t.path.content? l = some d) ∧
        (¬t.path.IsLatest l → t.path.content? l = s.path.content? l) := by
  have hva := Path.mem_versions_of_latest? hv
  have hlooked : Looked s (versionOrNew source x s).2 := by
    refine Keeps.bind (versionOf?_looked source x) (fun v? => ?_) s
    cases v? with
    | some v => exact .pure v
    | none => exact newVersion_looked source x
  obtain ⟨w, hm, ⟨hw, _, hrec, _⟩, -⟩ := (recording_lawful 0).versionOrNew
    ⟨rfl, rfl, h.toRecorded, Nat.zero_le _⟩ source x
  have hm : Moves 0 s w := hm
  subst hw
  have hls : ∀ l ∈ s.path.addressed va, l ∈ (versionOrNew source x s).2.path.locations :=
    fun l hl => hm.grown.locations l (h.mem_locations_of_mem_addressed hl)
  have hrun := Effect.store_run h₀ h₁ hc x y (latest?_versionOf? hv hs x)
    (h.resolveAll_eq hva ha (versionOf?_looked source x s).toSameAddresses)
  rw [storeInto_run _ x y hls] at hrun
  refine ⟨(versionOrNew source x s).1, _, hrun, latest?_versionOrNew_self source x s,
    latest?_versionOrNew hv hs x, ?_, fun l hl => ?_⟩
  · refine h.resolveAll_eq hva ha ⟨⟨hlooked.next, ?_, ?_⟩, hlooked.pointee⟩
    · exact hlooked.current
    · exact hlooked.ancestors
  · have hiff := Path.exists_latestOf_iff hrec.numbered hls hl
    refine ⟨fun hlatest => ?_, fun hlatest => ?_⟩
    · exact (Path.content?_stored _ l).trans (if_pos (hiff.2 hlatest))
    · exact (Path.content?_stored _ l).trans
        ((if_neg fun he => hlatest (hiff.1 he)).trans (hlooked.content? l))

/-- What a load through an address leaves behind. -/
private theorem load_state (h : Settled s) {i : Value} (h₀ : i.operands[0]? = some a) (hc : ¬a.isConstant)
    (hv : s.path.latest? a = some va) (hr : resolveAll va s = (ls, s)) (hne : ls ≠ [])
    (he : ∀ l ∈ ls, ¬l.site.isEntryArgument) (ho : i.opcode? = some .load) (x y : Term)
    (erroneous : Bool) :
    ∃ v t, (Effect.execute i [x, y] erroneous).run s = (.ok (), t) ∧
      t.path.latest? i = some v ∧ v.id = s.next ∧
      (∀ f ∈ t.path.flows, f.target.id = v.id → ∃ l ∈ ls, f.via = some l) ∧
      (∀ u, u ∈ t.path.sourcesOf v ↔ s.path.Reads v ls u) ∧
      Ascending.Sorted Version.id (t.path.sourcesOf v) := by
  have executed : Effect.execute i [x, y] erroneous = Effect.load i x y := by
    simp only [Effect.execute, ho, Effect.binary]
  have hrun := Effect.load_run h₀ hc x y hv hr hne he
  have hload := loadFrom_loaded (newVersion i x s).1 ls (newVersion i x s).2
  have ht : Settled (loadFrom (newVersion i x s).1 ls (newVersion i x s).2).2 := by
    have := h.execute i [x, y] erroneous
    rwa [executed, hrun] at this
  -- The loaded version is new, so nothing flowed into it before.
  have fresh : ∀ f ∈ s.path.flows, f.target.id ≠ s.next := fun f hf =>
    Nat.ne_of_lt (h.numbered.versions_lt _ (h.closed.flows f hf).1)
  rw [executed, hrun]
  refine ⟨(newVersion i x s).1, _, rfl, ?_, rfl, fun f hf hi => ?_, fun u => ?_,
    ht.layered.sourcesOf_ascending _⟩
  · rw [Path.latest?, hload.versions]
    exact (latest?_newVersion i i x s).trans (if_pos rfl)
  · rcases hload.added f hf with hf | ⟨_, hl, _⟩
    · exact absurd hi (fresh f hf)
    · exact hl
  · rw [Path.mem_sourcesOf_iff ht.traceable]
    constructor
    · rintro ⟨f, hf, hi, rfl⟩
      rcases hload.added f hf with hf | ⟨_, _, hr⟩
      · exact absurd hi (fresh f hf)
      · exact hr
    · intro hu
      obtain ⟨f, hf, hi, hs⟩ := hload.read u hu
      refine ⟨f, hf, hi, ht.numbered.version_eq (ht.closed.flows f hf).2.1 ?_ hs⟩
      rw [hload.versions]
      rcases hu with ⟨l, _, hc⟩ | ⟨rfl, _⟩
      · obtain ⟨e, he, _, rfl⟩ := Path.mem_deposits_of_content? hc
        exact List.mem_cons_of_mem _ (h.closed.deposits e he).2
      · exact List.mem_cons_self

end Settled

/-- What is read from locations that hold `d` where they are the latest ones, and what they held
before where they are not. -/
private theorem Path.reads_iff {p q : Path} {d v : Version} {ls : List Location}
    (h : ∀ l ∈ ls, (q.IsLatest l → q.content? l = some d) ∧
      (¬q.IsLatest l → q.content? l = p.content? l)) (c : Version) :
    q.Reads v ls c ↔
      c = d ∧ (∃ l ∈ ls, q.IsLatest l) ∨
      (∃ l ∈ ls, ¬q.IsLatest l ∧ p.content? l = some c) ∨
      c = v ∧ ∃ l ∈ ls, ¬q.IsLatest l ∧ p.content? l = none ∧
        1 < (ls.map (·.id)).count l.id := by
  constructor
  · rintro (⟨l, hl, hc⟩ | ⟨hv, l, hl, hc, hcount⟩)
    · by_cases hlatest : q.IsLatest l
      · rw [(h l hl).1 hlatest] at hc
        exact .inl ⟨(Option.some.inj hc).symm, l, hl, hlatest⟩
      · rw [(h l hl).2 hlatest] at hc
        exact .inr (.inl ⟨l, hl, hlatest, hc⟩)
    · have hlatest : ¬q.IsLatest l := by
        intro hlatest
        rw [(h l hl).1 hlatest] at hc
        cases hc
      rw [(h l hl).2 hlatest] at hc
      exact .inr (.inr ⟨hv, l, hl, hlatest, hc, hcount⟩)
  · rintro (⟨rfl, l, hl, hlatest⟩ | ⟨l, hl, hlatest, hc⟩ | ⟨hv, l, hl, hlatest, hc, hcount⟩)
    · exact .inl ⟨l, hl, (h l hl).1 hlatest⟩
    · exact .inl ⟨l, hl, ((h l hl).2 hlatest).trans hc⟩
    · exact .inr ⟨hv, l, hl, ((h l hl).2 hlatest).trans hc, hcount⟩

namespace Replay

open Recorder

/-- After a store a load through the same address reads the data from every location of the address
that is the latest one at its place, and what was there before from the others. It reads itself if
one of those holds nothing and is read twice. -/
theorem load_after_store {id : Nat} {ds : List Declaration} {program : Program}
    (hp : Program.ofDeclarations id ds = .ok program) (next : Nat) (existential : Bool)
    (events : List Event) {store load source a : Value} (hstore : store ∈ program)
    (hso : store.opcode? = some .store) (hs₀ : store.operands[0]? = some source)
    (hs₁ : store.operands[1]? = some a) (hlo : load.opcode? = some .load)
    (hl₀ : load.operands[0]? = some a) (hc : ¬a.isConstant) {s : State}
    (hs : s = (pursue 0 events (start program next existential)).2.state) {va : Version}
    (hva : s.path.latest? a = some va) {ls : List Location} (hls : ls = (resolveAll va s).1)
    (hne : ls ≠ []) (he : ∀ l ∈ ls, ¬l.site.isEntryArgument) (x y x' y' : Term) (e e' : Bool) :
    ∃ d v t u, (Effect.execute store [x, y] e).run s = (.ok (), t) ∧
      (Effect.execute load [x', y'] e').run t = (.ok (), u) ∧
      t.path.latest? source = some d ∧ u.path.latest? load = some v ∧ v.id = t.next ∧
      (∀ f ∈ u.path.flows, f.target.id = v.id → ∃ l ∈ ls, f.via = some l) ∧
      (∀ c, c ∈ u.path.sourcesOf v ↔
        c = d ∧ (∃ l ∈ ls, t.path.IsLatest l) ∨
        (∃ l ∈ ls, ¬t.path.IsLatest l ∧ s.path.content? l = some c) ∨
        c = v ∧ ∃ l ∈ ls, ¬t.path.IsLatest l ∧ s.path.content? l = none ∧
          1 < (ls.map (·.id)).count l.id) ∧
      ((∀ l ∈ ls, t.path.IsLatest l) → u.path.sourcesOf v = [d]) := by
  obtain ⟨n, hdeclared⟩ := Program.declared_ofDeclarations hp
  have settled : Settled s := hs ▸ (pursue_standing program next existential events).settled
  have distinct : source.id = a.id → ¬source.isConstant := by
    intro hi
    have hmem {w : Value} {k : Nat} (hw : store.operands[k]? = some w) : w ∈ program :=
      (hdeclared.operand hstore (List.mem_of_getElem? hw)).1
    rw [hdeclared.value_eq (hmem hs₀) (hmem hs₁) hi]
    exact hc
  have allocated : s.path.Allocated va := allocated_of_resolveAll (hls ▸ he)
  rw [resolveAll_of_allocated allocated] at hls
  subst hls
  obtain ⟨d, t, hrun, hd, hat, hrt, hcontent⟩ :=
    settled.store_state hs₀ hs₁ hc distinct hva allocated x y
  have executed : (Effect.execute store [x, y] e).run s = (.ok (), t) := by
    rw [← hrun]
    simp only [Effect.execute, hso, Effect.binary]
  have settled' : Settled t := by
    have := settled.execute store [x, y] e
    rwa [executed] at this
  obtain ⟨v, u, hrun', hv, hi, hvia, hsources, hsorted⟩ :=
    settled'.load_state hl₀ hc hat hrt hne he hlo x' y' e'
  refine ⟨d, v, t, u, executed, hrun', hd, hv, hi, hvia, ?_⟩
  have reads (c : Version) := (hsources c).trans (Path.reads_iff hcontent c)
  refine ⟨reads, fun hlatest => Ascending.eq_of_mem_iff hsorted (List.pairwise_singleton _ _) ?_⟩
  intro c
  obtain ⟨k, hk⟩ := List.exists_mem_of_ne_nil _ hne
  rw [reads, List.mem_singleton]
  constructor
  · rintro (⟨hd, _⟩ | ⟨l, hl, hn, _⟩ | ⟨_, l, hl, hn, _⟩)
    · exact hd
    · exact absurd (hlatest l hl) hn
    · exact absurd (hlatest l hl) hn
  · exact fun hd => .inl ⟨hd, k, hk, hlatest k hk⟩

/-! A slot that is allocated again at the same address, and a copy of its first address. -/

namespace Recast

def literal : Value := ⟨1, "k", .constant, .integer 32⟩
def slot : Value := ⟨2, "p", .instruction .alloca "main" [], .pointer⟩
def copy : Value := ⟨3, "q", .instruction .bitCast "main" [slot], .pointer⟩
def datum : Value := ⟨4, "x", .instruction .add "main" [literal, literal], .integer 32⟩
def write : Value := ⟨5, "w", .instruction .store "main" [datum, copy], .void⟩
def read : Value := ⟨6, "r", .instruction .load "main" [copy], .integer 32⟩

def declarations : List Declaration :=
  [⟨"k", .constant, .integer 32⟩,
    ⟨"p", .instruction .alloca "main" [], .pointer⟩,
    ⟨"q", .instruction .bitCast "main" ["p"], .pointer⟩,
    ⟨"x", .instruction .add "main" ["k", "k"], .integer 32⟩,
    ⟨"w", .instruction .store "main" ["x", "q"], .void⟩,
    ⟨"r", .instruction .load "main" ["q"], .integer 32⟩]

def program : Program := [literal, slot, copy, datum, write, read]

def events : List Event :=
  [.execute "p" [.pointer 16] false,
    .execute "q" [.pointer 16] false,
    .execute "p" [.pointer 16] false,
    .execute "x" [.ofBits 2 32, .ofBits 1 32, .ofBits 1 32] false]

def state : State :=
  (pursue 0 events (start program 7 false)).2.state

def written : State :=
  ((Effect.execute write [.ofBits 2 32, .pointer 16] false).run state).2

private theorem declared : Program.ofDeclarations 1 declarations = .ok program := by
  rfl

private theorem resolved :
    (state.path.latest? copy).map (fun va => (resolveAll va state).1.map fun l =>
      (l.id, l.site.isEntryArgument, (state.path.content? l).isNone,
        (written.path.latestLocation? l.site l.address).map (·.id))) =
      some [(9, false, true, some 12)] := by
  decide +kernel

end Recast

/-- The copy is the address of the first slot, and the store goes to the second one, so that the
load reads nothing. -/
theorem load_after_store_recast :
    ∃ d v t u,
      (Effect.execute Recast.write [.ofBits 2 32, .pointer 16] false).run Recast.state =
        (.ok (), t) ∧
      (Effect.execute Recast.read [.ofBits 2 32, .pointer 16] false).run t = (.ok (), u) ∧
      t.path.latest? Recast.datum = some d ∧ u.path.latest? Recast.read = some v ∧
      u.path.sourcesOf v = [] := by
  obtain ⟨va, hva, hfound⟩ := Option.map_eq_some_iff.1 Recast.resolved
  obtain ⟨l, hl, hfacts⟩ := List.map_eq_singleton_iff.1 hfound
  simp only [Prod.mk.injEq, Option.isNone_iff_eq_none] at hfacts
  obtain ⟨hid, hentry, hempty, hlater⟩ := hfacts
  have hwrite : Recast.write ∈ Recast.program := by simp [Recast.program]
  have hread : Recast.read.operands[0]? = some Recast.copy := rfl
  have hstate : Recast.state = (pursue 0 Recast.events (start Recast.program 7 false)).2.state :=
    rfl
  obtain ⟨d, v, t, u, ht, hu, hd, hv, _, _, hsources, _⟩ :=
    load_after_store Recast.declared 7 false Recast.events hwrite rfl rfl rfl rfl hread (by decide)
      hstate hva hl.symm (List.cons_ne_nil l []) (by simp [hentry]) (.ofBits 2 32) (.pointer 16)
      (.ofBits 2 32) (.pointer 16) false false
  refine ⟨d, v, t, u, ht, hu, hd, hv, List.eq_nil_iff_forall_not_mem.2 fun c hc => ?_⟩
  have hstale : ¬t.path.IsLatest l := by
    intro hlatest
    rw [Recast.written, ht, hlatest, Option.map_some, hid] at hlater
    exact absurd hlater (by decide)
  rw [hsources] at hc
  simp [hstale, hempty] at hc

end Replay

end PathSlice
