import Mathlib.Data.List.Nodup
import PathSlice.Proofs.CoreLocations
import PathSlice.Proofs.StoreTables

/-! The core stores of a path among all of its stores. Both tables are filled from locations in some
order, and a store gives way to a later one at the same address. All symbolic core stores are
stores. A concrete one is the store of a core location, and the table of all stores reports the
latest location at its address instead. -/
namespace PathSlice

namespace Path

variable {p : Path}

/-- The latest location of an object at a numeric address that holds something. -/
def holder? (p : Path) (site : Value) (n : UInt64) : Option Location :=
  p.locations.find? fun l =>
    l.site.id == site.id && l.numericAddress? == some n && (p.content? l).isSome

private theorem any_isAt_storeAt? (site : Value) (n : UInt64) (l : Location) :
    (p.storeAt? l).any (·.isAt site n) =
      (l.site.id == site.id && l.numericAddress? == some n && (p.content? l).isSome) := by
  unfold storeAt?
  cases p.content? l with
  | none => simp
  | some v => simp [Store.isAt]

private theorem foldl_promote_of_pairwise {ls acc : List Location}
    (h : (acc ++ ls).Pairwise fun l m => l.id ≠ m.id) :
    ls.foldl Support.Graph.promote acc = acc ++ ls := by
  induction ls generalizing acc with
  | nil => simp
  | cons l ls ih =>
    have new : acc.any (·.id == l.id) = false := by
      refine List.any_eq_false.2 fun m hm hi => ?_
      exact (List.pairwise_append.1 h).2.2 m hm l List.mem_cons_self (by simpa using hi)
    rw [List.append_cons] at h
    rw [List.foldl_cons, Support.Graph.promote, new]
    exact (ih h).trans (List.append_cons acc l ls).symm

theorem Numbered.allLocations_eq {n : Nat} (h : p.Numbered n) :
    p.allLocations = p.locations.reverse := by
  have order : p.frames.reverse.flatMap (·.locations.reverse) = p.locations.reverse := by
    exact List.reverse_flatMap.symm
  have ids : p.locations.reverse.Pairwise fun l m => l.id ≠ m.id :=
    List.pairwise_reverse.2 (h.locations.imp fun hlt => Nat.ne_of_lt hlt)
  unfold allLocations
  rw [order]
  exact foldl_promote_of_pairwise ids

/-- The store of a location that holds a version. -/
def storeOf (x : Location × Version) : Store :=
  ⟨x.1.site, x.1.numericAddress?, x.1.address, x.2.term⟩

/-- Of all stores at an address that of the latest location is reported. -/
private theorem Numbered.lists_plainStores_iff {n : Nat} (h : p.Numbered n) {site : Value} {a : UInt64}
    {l : Location} {v : Version} (hl : p.holder? site a = some l) (hv : p.content? l = some v)
    (s : Store) :
    Store.Lists (Store.concrete p.plainStores) site (a, s) ↔ s = storeOf (l, v) := by
  rw [Store.lists_concrete_iff]
  unfold plainStores
  rw [h.allLocations_eq, List.filterMap_reverse, List.reverse_reverse, List.find?_filterMap]
  simp only [any_isAt_storeAt?]
  rw [show p.locations.find? _ = some l from hl, Option.bind_some, storeAt?, hv, Option.map_some,
    Option.some_inj, eq_comm]
  rfl

/-- Terms are reported as they are if shadows are not put in place of arrays. -/
theorem shadowedStores_run {session : Session} (h : session.existential = false)
    (xs : List (Location × Version)) :
    (shadowedStores xs).run session = (.ok (xs.map storeOf), session) := by
  have plain : ∀ t, (Extraction.substitute t).run session = (.ok t, session) := by
    obtain ⟨existential, registry, used⟩ := session
    subst h
    exact fun t => rfl
  have bind {α β : Type} {m : Extraction α} {a : α} (hm : m.run session = (.ok a, session))
      (k : α → Extraction β) : (m >>= k).run session = (k a).run session := by
    change ExceptT.bindCont k (m.run session).1 (m.run session).2 = _
    rw [hm]
    rfl
  induction xs with
  | nil => rfl
  | cons x xs ih =>
    obtain ⟨l, v⟩ := x
    unfold shadowedStores
    rw [bind (plain l.address), bind (plain v.term), bind ih]
    rfl

private theorem coreContents_eq (p : Path) (m : Marks) :
    p.coreContents m =
      (p.coreLocations m).filterMap fun l => ((p.content? l).filter m.isCore).map (l, ·) := by
  unfold coreContents
  congr 1
  funext l
  cases p.content? l with
  | none => rfl
  | some v =>
    rw [Option.filter_some, apply_ite (Option.map _)]
    rfl

theorem mem_coreContents {m : Marks} {l : Location} {v : Version} :
    (l, v) ∈ p.coreContents m ↔
      l ∈ p.coreLocations m ∧ p.content? l = some v ∧ m.isCore v = true := by
  rw [coreContents_eq, List.mem_filterMap]
  constructor
  · rintro ⟨k, hk, h⟩
    obtain ⟨w, hw, he⟩ := Option.map_eq_some_iff.1 h
    cases he
    exact ⟨hk, Option.filter_eq_some_iff.1 hw⟩
  · rintro ⟨hl, hv⟩
    exact ⟨l, hl, by rw [Option.filter_eq_some_iff.2 hv, Option.map_some]⟩

private theorem nodup_coreLocations (p : Path) (m : Marks) : (p.coreLocations m).Nodup :=
  (Support.Graph.distinct_foldl_promote _ .nil).imp fun hne => ne_of_apply_ne Location.id hne

private theorem nodup_coreContents (p : Path) (m : Marks) : (p.coreContents m).Nodup := by
  rw [coreContents_eq]
  refine (p.nodup_coreLocations m).filterMap fun l k x hl hk => ?_
  obtain ⟨v, _, rfl⟩ := Option.map_eq_some_iff.1 hl
  obtain ⟨w, _, he⟩ := Option.map_eq_some_iff.1 hk
  exact (congrArg Prod.fst he).symm

/-- The locations that hold something, with what they hold. -/
def contents (p : Path) : List (Location × Version) :=
  p.allLocations.filterMap fun l => (p.content? l).map (l, ·)

private theorem plainStores_eq (p : Path) : p.plainStores = p.contents.map storeOf := by
  unfold plainStores contents
  rw [List.map_filterMap]
  congr 1
  funext l
  unfold storeAt?
  cases p.content? l <;> rfl

end Path

section Core

variable {s : State}

/-- A core location that holds something is on the path, even if it is core to a frame that outlived
its own. -/
theorem Cored.mem_locations_of_content? (h : Cored s) (hs : Standing s) {l : Location} {v : Version}
    (hl : l ∈ s.path.coreLocations s.marks) (hv : s.path.content? l = some v) :
    l ∈ s.path.locations := by
  obtain ⟨f, _, hf⟩ := h.mem_coreLocations.1 hl
  obtain ⟨d, hd, hi, _⟩ := Path.mem_deposits_of_content? hv
  have onPath := (hs.settled.closed.deposits d hd).1
  have same : l = d.location := h.known _ hf _ onPath hi.symm
  exact same ▸ onPath

private theorem Cored.subperm_contents (h : Cored s) (hs : Standing s) :
    (s.path.coreContents s.marks).Subperm s.path.contents := by
  refine List.subperm_of_subset (s.path.nodup_coreContents s.marks) fun x hx => ?_
  obtain ⟨l, v⟩ := x
  obtain ⟨hl, hv, _⟩ := Path.mem_coreContents.1 hx
  have onPath := h.mem_locations_of_content? hs hl hv
  refine List.mem_filterMap.2 ⟨l, hs.settled.numbered.mem_allLocations.2 onPath, ?_⟩
  rw [hv]
  rfl

end Core

/-- Where something is held, the latest location there that holds anything is found. -/
private theorem Path.exists_holder {p : Path} {l : Location} {v : Version} {site : Value} {n : UInt64}
    (hl : l ∈ p.locations) (hv : p.content? l = some v) (h : (storeOf (l, v)).isAt site n) :
    ∃ l' v', p.holder? site n = some l' ∧ p.content? l' = some v' := by
  have some_holds : (p.holder? site n).isSome := by
    refine List.find?_isSome.2 ⟨l, hl, ?_⟩
    rw [← any_isAt_storeAt?, storeAt?, hv]
    exact h
  obtain ⟨l', hl'⟩ := Option.isSome_iff_exists.1 some_holds
  have holds := List.find?_some hl'
  simp only [Bool.and_eq_true] at holds
  obtain ⟨v', hv'⟩ := Option.isSome_iff_exists.1 holds.2
  exact ⟨l', v', hl', hv'⟩

namespace Replay

/-- What is reported of the core, after any events and if terms are reported as they are. All
symbolic core stores are among the symbolic stores of the path. A concrete core store is that of a
core location with a core version; all stores report for its address the latest location there that
holds anything, and so they report it alike if and only if that one has the same address and holds
the same term. -/
theorem coreStores_reported (program : Program) (next : Nat) (existential : Bool)
    (events : List Event) (session : Session) (hsession : session.existential = false) :
    let s := (pursue 0 events (start program next existential)).2.state
    ∃ core all, (s.path.stores s.marks true).run session = (.ok core, session) ∧
      (s.path.stores s.marks false).run session = (.ok all, session) ∧
      (∀ g ∈ Store.symbolic core, ∃ g' ∈ Store.symbolic all,
        g'.site.id = g.site.id ∧ g.stores.Subperm g'.stores) ∧
      ∀ site n st, Store.Lists (Store.concrete core) site (n, st) →
        ∃ l ∈ s.path.coreLocations s.marks, ∃ v, s.path.content? l = some v ∧
          s.marks.isCore v ∧ st = Path.storeOf (l, v) ∧
          ∃ l' v', s.path.holder? site n = some l' ∧ s.path.content? l' = some v' ∧
            (∀ st', Store.Lists (Store.concrete all) site (n, st') ↔ st' = Path.storeOf (l', v')) ∧
            ((∃ st', Store.Lists (Store.concrete all) site (n, st') ∧
                st'.address = st.address ∧ st'.content = st.content) ↔
              l'.address = l.address ∧ v'.term = v.term) := by
  intro s
  have hs := pursue_standing program next existential events
  have hc := pursue_cored (start_cored program next existential)
    (start_standing program next existential) 0 events
  refine ⟨(s.path.coreContents s.marks).map Path.storeOf, s.path.plainStores,
    Path.shadowedStores_run hsession _, rfl, ?_, fun site n st hst => ?_⟩
  · rw [Path.plainStores_eq]
    obtain ⟨xs, perm, sub⟩ := hc.subperm_contents hs
    exact Store.subperm_symbolic ⟨_, perm.map Path.storeOf, sub.map Path.storeOf⟩
  · have found := Store.lists_concrete_iff.1 hst
    obtain ⟨⟨l, v⟩, hx, rfl⟩ :=
      List.mem_map.1 (List.mem_reverse.1 (List.mem_of_find?_eq_some found))
    obtain ⟨hl, hv, hcore⟩ := Path.mem_coreContents.1 hx
    have onPath := hc.mem_locations_of_content? hs hl hv
    have here := List.find?_some found
    obtain ⟨l', v', hl', hv'⟩ := Path.exists_holder onPath hv here
    have lists := hs.settled.numbered.lists_plainStores_iff hl' hv'
    refine ⟨l, hl, v, hv, hcore, rfl, l', v', hl', hv', lists, ?_⟩
    simp only [s, lists, exists_eq_left]
    rfl

/-- Memory is allocated twice at one address, and what was loaded from the first location is
branched on after something else was stored into the second. -/
def reallocatedProgram : Program :=
  ((Program.ofDeclarations 1 [
    ⟨"k", .constant, .integer 32⟩,
    ⟨"p", .instruction .alloca "main" [], .pointer⟩,
    ⟨"x", .instruction .add "main" ["k", "k"], .integer 32⟩,
    ⟨"y", .instruction .add "main" ["k", "k"], .integer 32⟩,
    ⟨"sx", .instruction .store "main" ["x", "p"], .void⟩,
    ⟨"sy", .instruction .store "main" ["y", "p"], .void⟩,
    ⟨"a", .instruction .load "main" ["p"], .integer 32⟩,
    ⟨"br", .instruction .br "main" ["a"], .void⟩]).toOption).getD []

def reallocated : List Event :=
  [.execute "p" [.pointer 16] false,
    .execute "x" [.ofBits 2 32, .ofBits 1 32, .ofBits 1 32] false,
    .execute "sx" [.ofBits 2 32, .pointer 16] false,
    .execute "a" [.ofBits 2 32, .pointer 16] false,
    .execute "p" [.pointer 16] false,
    .execute "y" [.ofBits 3 32, .ofBits 1 32, .ofBits 2 32] false,
    .execute "sy" [.ofBits 3 32, .pointer 16] false,
    .execute "br" [] false]

/-- The state before the branch. -/
def reallocatedState : State :=
  (pursue 0 (reallocated.take 7) (start reallocatedProgram 9 false)).2.state

/-- What is told of a location and of what it holds: the address, the content, and the content of
the location that holds something at this address last. -/
private def told (x : Location × Version) : Option UInt64 × Option UInt64 × Option UInt64 :=
  let p := reallocatedState.path
  (x.1.numericAddress?, x.2.term.constant?,
    ((p.holder? x.1.site 16).bind p.content?).bind (·.term.constant?))

private theorem reallocated_slice :
    ∃ v, (reallocatedState.path.coreContents (Recorder.sliceFrom v reallocatedState).2.marks).map
        told = [(some 16, some 2, some 3)] ∧
      (pursue 0 reallocated (start reallocatedProgram 9 false)).2.state =
        (Recorder.sliceFrom v reallocatedState).2 := by
  obtain ⟨a, br, ha, hbr, hk⟩ : ∃ a br, reallocatedProgram.find? "a" = some a ∧
      reallocatedProgram.resolve "br" = .ok br ∧ br.kind = .instruction .br "main" [a] :=
    ⟨_, _, rfl, rfl, rfl⟩
  have latest : (reallocatedProgram.find? "a").bind (fun a =>
      (reallocatedState.path.latest? a).map fun v =>
        (reallocatedState.path.coreContents (Recorder.sliceFrom v reallocatedState).2.marks).map
          told) = some [(some 16, some 2, some 3)] := by
    decide +kernel
  rw [ha] at latest
  obtain ⟨v, hv, core⟩ := Option.map_eq_some_iff.1 latest
  have hp := (pursue_program_standing (start_standing reallocatedProgram 9 false) 0
    (reallocated.take 7)).1
  refine ⟨v, core, ?_⟩
  rw [show reallocated = reallocated.take 7 ++ [.execute "br" [] false] from rfl, pursue_append]
  refine (apply_branch (hp ▸ hbr) hk _ false).trans ?_
  exact congrArg Prod.snd (Correspondence.Lawful.slice_eq_sliceFrom hv)

/-- The core store of the first location is not among the stores: the second location holds
something else. -/
theorem coreStores_reported_reallocated :
    let s := (pursue 0 reallocated (start reallocatedProgram 9 false)).2.state
    let plain : Session := { existential := false }
    ∃ core all, (s.path.stores s.marks true).run plain = (.ok core, plain) ∧
      (s.path.stores s.marks false).run plain = (.ok all, plain) ∧
      ∃ site n st, Store.Lists (Store.concrete core) site (n, st) ∧
        ¬∃ st', Store.Lists (Store.concrete all) site (n, st') ∧ st'.address = st.address ∧
          st'.content = st.content := by
  intro s plain
  obtain ⟨core, all, hcore, hall, _, h⟩ :=
    coreStores_reported reallocatedProgram 9 false reallocated plain rfl
  refine ⟨core, all, hcore, hall, ?_⟩
  obtain ⟨v, contents, hs⟩ := reallocated_slice
  have hpath : s.path = reallocatedState.path :=
    (congrArg State.path hs).trans (Recorder.sliceFrom_state v reallocatedState).1
  have contents : (s.path.coreContents s.marks).map told = [(some 16, some 2, some 3)] := by
    rw [hpath, show s.marks = _ from congrArg State.marks hs]
    exact contents
  obtain ⟨⟨l, w⟩, hx, htold⟩ := List.map_eq_singleton_iff.1 contents
  simp only [told, Prod.mk.injEq] at htold
  obtain ⟨hnumeric, hterm, later⟩ := htold
  have hcore' : core = (s.path.coreContents s.marks).map Path.storeOf :=
    Except.ok.inj (congrArg Prod.fst (hcore.symm.trans (Path.shadowedStores_run rfl _)))
  have listed : Store.Lists (Store.concrete core) l.site (16, Path.storeOf (l, w)) := by
    rw [Store.lists_concrete_iff, hcore', hx]
    simp [Store.isAt, Path.storeOf, hnumeric]
  obtain ⟨m, _, u, _, _, hst, l', v', hl', hv', _, alike⟩ := h l.site 16 _ listed
  refine ⟨l.site, 16, _, listed, fun hsame => ?_⟩
  have same : v'.term = w.term := (alike.1 hsame).2.trans (congrArg Store.content hst).symm
  rw [← hpath, hl', Option.bind_some, hv', Option.bind_some, same, hterm] at later
  exact absurd later (by decide)

end Replay

end PathSlice
