import Mathlib.Data.List.Basic
import PathSlice.Proofs.IdentityRenaming
import PathSlice.Proofs.ReplayRuns

/-! Forks do not show. A replay of effects in one frame and a replay of the same effects with forks in
between have the same outcomes and end with the same relations between versions and locations, up
to an order-preserving renaming of identities. The two replays stay twins event by event; a fork takes
two identities, so it moves the renaming of all later ones up by two. -/
namespace PathSlice

/-- What two states have in common, up to a renaming of identities: every lookup along the path, and
which versions are core. -/
structure SameRelations (ρ : Nat → Nat) (s t : State) : Prop where
  versions : t.path.versions = s.path.versions.map (·.rename ρ)
  locations : t.path.locations = s.path.locations.map (·.rename ρ)
  latest : ∀ v, t.path.latest? v = (s.path.latest? v).map (·.rename ρ)
  latestLocation : ∀ site x,
    t.path.latestLocation? site x = (s.path.latestLocation? site x).map (·.rename ρ)
  content : ∀ l, t.path.content? (l.rename ρ) = (s.path.content? l).map (·.rename ρ)
  pointee : ∀ v, t.path.pointee? (v.rename ρ) = (s.path.pointee? v).map (·.rename ρ)
  sources : ∀ v, t.path.sourcesOf (v.rename ρ) = (s.path.sourcesOf v).map (·.rename ρ)
  closure : ∀ v, t.path.closure (v.rename ρ) = (s.path.closure v).map (·.rename ρ)
  ends : ∀ v, t.path.ends (v.rename ρ) = (s.path.ends v).map (·.rename ρ)
  core : ∀ v, t.marks.isCore (v.rename ρ) = s.marks.isCore v

namespace Twin

variable {ρ : Nat → Nat} {n : Nat} {s t : State}

private theorem sameRelations (hρ : StrictMono ρ) (h : Twin ρ n s t) : SameRelations ρ s t where
  versions := h.renames.versions
  locations := h.renames.locations
  latest := h.renames.latest?
  latestLocation := h.renames.latestLocation?
  content := h.renames.content? hρ
  pointee := h.renames.pointee? hρ
  sources := h.renames.sourcesOf hρ h.layered h.layered'
  closure := h.renames.closure hρ h.layered h.layered'
  ends := h.renames.ends hρ h.layered h.layered'
  core v := by
    unfold Marks.isCore
    rw [h.marked, Bool.eq_iff_iff, List.contains_iff_mem, List.contains_iff_mem]
    exact List.mem_map_of_injective hρ.injective

/-- The next effect begins. -/
private theorem restart (hρ : StrictMono ρ) (h : Twin ρ n s t) : Twin ρ s.next s t :=
  { h with
    layered := h.layered.mono h.begun
    layered' := h.layered'.mono (hρ.monotone h.begun)
    begun := Nat.le_refl _ }

end Twin

/-- Renames identities from `n` on to identities that lie by `d` further up. -/
def raised (ρ : Nat → Nat) (n d i : Nat) : Nat :=
  if i < n then ρ i else ρ i + d

section Raised

variable {ρ : Nat → Nat} {n d : Nat}

theorem raised_strictMono (hρ : StrictMono ρ) (n d : Nat) : StrictMono (raised ρ n d) := by
  intro i j hij
  have := hρ hij
  unfold raised
  split <;> split <;> omega

theorem raised_of_lt {i : Nat} (h : i < n) : raised ρ n d i = ρ i :=
  if_pos h

theorem raised_of_le {i : Nat} (h : n ≤ i) : raised ρ n d i = ρ i + d :=
  if_neg (Nat.not_lt.2 h)

/-- Where consecutive identities stay consecutive, they do so when raised. -/
theorem raised_steady (h : ∀ i, n ≤ i → ρ (i + 1) = ρ i + 1) :
    ∀ i, n ≤ i → raised ρ n d (i + 1) = raised ρ n d i + 1 := by
  intro i hi
  rw [raised_of_le hi, raised_of_le (Nat.le_succ_of_le hi), h i hi, Nat.add_right_comm]

end Raised

namespace Path.Renames

/-- What a path recorded is renamed as before if no identity in use is. -/
theorem congr {ρ σ : Nat → Nat} {n : Nat} {p q : Path} (h : Renames ρ p q) (hc : p.Closed)
    (hn : p.Numbered n) (hi : ∀ i < n, σ i = ρ i) : Renames σ p q := by
  have renamed := p.renames_rename σ
  rw [rename_congr hc hn hi] at renamed
  have same := p.renames_rename ρ
  constructor
  · exact h.versions.trans (same.versions.symm.trans renamed.versions)
  · exact h.locations.trans (same.locations.symm.trans renamed.locations)
  · exact h.pointers.trans (same.pointers.symm.trans renamed.pointers)
  · exact h.deposits.trans (same.deposits.symm.trans renamed.deposits)
  · exact h.flows.trans (same.flows.symm.trans renamed.flows)

end Path.Renames

/-- A fork on one side. -/
theorem Twin.fork {ρ : Nat → Nat} {s t : State} (h : Twin ρ s.next s t) (hs : Settled s)
    (ht : Settled t) : Twin (raised ρ s.next 2) s.next s (Replay.fork t).2 := by
  have next : raised ρ s.next 2 s.next = t.next + 2 := by
    rw [raised_of_le (Nat.le_refl _), h.next]
  have kept : s.path.Renames (raised ρ s.next 2) t.path :=
    h.renames.congr hs.closed hs.numbered fun i hi => raised_of_lt hi
  refine ⟨⟨kept.versions, kept.locations, kept.pointers, kept.deposits, kept.flows⟩, h.layered, ?_,
    Nat.le_refl _, next.symm, raised_steady h.steady, ?_⟩
  · rw [next]
    exact ht.fork.layered
  · refine h.marked.trans (List.map_congr_left fun i hi => ?_)
    exact (raised_of_lt (hs.marked i hi)).symm

namespace Replay

/-- Two replays side by side, the second of which may have forked where the first did not. -/
structure Abreast (ρ : Nat → Nat) (r r' : Replay) : Prop where
  program : r'.program = r.program
  order : StrictMono ρ
  settled : Settled r.state
  settled' : Settled r'.state
  twin : Twin ρ r.state.next r.state r'.state

namespace Abreast

variable {ρ : Nat → Nat} {r r' : Replay}

theorem fork (h : Abreast ρ r r') (index : Nat) :
    Abreast (raised ρ r.state.next 2) r ((apply index .fork).run r').2 where
  program := h.program
  order := raised_strictMono h.order _ _
  settled := h.settled
  settled' := h.settled'.fork
  twin := h.twin.fork h.settled h.settled'

theorem cause_eq_of_alike {Q : Unit → Unit → Prop} {a b : Except Fault Unit}
    (h : Alike Q a b) (i j : Nat) :
    (b.mapError (ReplayFault.event j)).mapError (·.cause) =
      (a.mapError (ReplayFault.event i)).mapError (·.cause) := by
  cases h <;> rfl

/-- An effect has the same outcome in both replays and keeps them side by side. -/
theorem effect (h : Abreast ρ r r') {e : Event} (he : e.isEffect) (i j : Nat) :
    ((apply j e).run r').1.mapError (·.cause) = ((apply i e).run r).1.mapError (·.cause) ∧
      Abreast ρ ((apply i e).run r).2 ((apply j e).run r').2 := by
  rw [apply_of_isEffect he, apply_of_isEffect he, h.program]
  cases hx : e.effect r.program with
  | error fault => exact ⟨rfl, h⟩
  | ok x =>
    obtain ⟨_, _, htwin, halike⟩ := (twinning_lawful h.order r.state.next).effect (w := ()) h.twin hx
    exact ⟨cause_eq_of_alike halike i j, rfl, h.order, h.settled.effect hx, h.settled'.effect hx,
      htwin.restart h.order⟩

/-- Replays stay side by side if forks are left out of one of them. -/
theorem pursue (h : Abreast ρ r r') {events : List Event}
    (he : ∀ e ∈ events, e.isEffect ∨ e.isFork) (i j : Nat) :
    (pursue j events r').1 = (pursue i (events.filter fun e => !e.isFork) r).1 ∧
      ∃ σ, (∀ k < r.state.next, σ k = ρ k) ∧
        Abreast σ (Replay.pursue i (events.filter fun e => !e.isFork) r).2
          (Replay.pursue j events r').2 := by
  induction events generalizing ρ r r' i j with
  | nil => exact ⟨rfl, ρ, fun _ _ => rfl, h⟩
  | cons e es ih =>
    obtain ⟨he, hes⟩ := List.forall_mem_cons.1 he
    rcases he with he | he
    · have hf : e.isFork = false := by
        cases e <;> first | rfl | cases he
      obtain ⟨hout, hstep⟩ := h.effect he i j
      obtain ⟨houts, σ, hσ, hend⟩ := ih hstep hes (i + 1) (j + 1)
      rw [List.filter_cons_of_pos (by simp [hf])]
      refine ⟨?_, σ, fun k hk => hσ k ?_, hend⟩
      · simp only [Replay.pursue, he, if_true, hout, houts]
      · obtain ⟨s, hs, _, hm⟩ := apply_moves h.settled he i
        rw [hs]
        exact Nat.lt_of_lt_of_le hk hm.grown.next
    · cases e with
      | fork =>
        obtain ⟨houts, σ, hσ, hend⟩ := ih (h.fork j) hes i (j + 1)
        refine ⟨houts, σ, fun k hk => ?_, hend⟩
        exact (hσ k hk).trans (raised_of_lt hk)
      | execute | phi | access | backtrack | bindCall | bindReturn | shadow | expect => cases he

theorem start (program : Program) (next : Nat) (existential : Bool) :
    Abreast id (Replay.start program next existential) (Replay.start program next existential) where
  program := rfl
  order := strictMono_id
  settled := start_settled program next existential
  settled' := start_settled program next existential
  twin := ⟨⟨rfl, rfl, rfl, rfl, rfl⟩, .root next, .root next, Nat.le_refl _, rfl, fun _ _ => rfl, rfl⟩

end Abreast

/-- Forks inserted anywhere between effects change neither what becomes of an effect nor, up to a
renaming of identities that keeps their order, any relation along the path. -/
theorem fork_transparency (program : Program) (next : Nat) (existential : Bool)
    (plain forked : List Event) (hplain : ∀ e ∈ plain, e.isEffect)
    (hforked : forked.filter (fun e => !e.isFork) = plain) :
    let flat := pursue 0 plain (start program next existential)
    let chain := pursue 0 forked (start program next existential)
    chain.1 = flat.1 ∧ ∃ ρ : Nat → Nat, StrictMono ρ ∧ (∀ i ≤ next, ρ i = i) ∧
      SameRelations ρ flat.2.state chain.2.state := by
  have events : ∀ e ∈ forked, e.isEffect ∨ e.isFork := by
    intro e he
    by_cases hf : e.isFork
    · exact .inr hf
    · exact .inl (hplain e (hforked ▸ List.mem_filter.2 ⟨he, by simp [hf]⟩))
  obtain ⟨houts, ρ, hρ, hend⟩ := (Abreast.start program next existential).pursue events 0 0
  rw [hforked] at houts hend
  exact ⟨houts, ρ, hend.order, fun i hi => hρ i (Nat.lt_succ_of_le hi),
    hend.twin.sameRelations hend.order⟩

/-- A sum is stored and loaded again, and a branch is taken on it. -/
def roundTripProgram : Program :=
  ((Program.ofDeclarations 1 [
    ⟨"k", .constant, .integer 32⟩,
    ⟨"p", .instruction .alloca "main" [], .pointer⟩,
    ⟨"x", .instruction .add "main" ["k", "k"], .integer 32⟩,
    ⟨"s", .instruction .store "main" ["x", "p"], .void⟩,
    ⟨"a", .instruction .load "main" ["p"], .integer 32⟩,
    ⟨"b", .instruction .br "main" ["a"], .void⟩]).toOption).getD []

def roundTrip : List Event :=
  [.execute "p" [.pointer 16] false,
    .execute "x" [.ofBits 2 32, .ofBits 1 32, .ofBits 1 32] false,
    .execute "s" [.ofBits 2 32, .pointer 16] false,
    .access "a" [.ofBits 2 32, .pointer 16] true false,
    .execute "b" [] false]

def forkedRoundTrip : List Event :=
  [.fork, .execute "p" [.pointer 16] false,
    .execute "x" [.ofBits 2 32, .ofBits 1 32, .ofBits 1 32] false, .fork, .fork,
    .execute "s" [.ofBits 2 32, .pointer 16] false, .fork,
    .access "a" [.ofBits 2 32, .pointer 16] true false,
    .execute "b" [] false]

theorem fork_transparency_roundTrip :
    (∀ e ∈ roundTrip, e.isEffect) ∧ forkedRoundTrip.filter (fun e => !e.isFork) = roundTrip ∧
      let flat := pursue 0 roundTrip (start roundTripProgram 7 false)
      let chain := pursue 0 forkedRoundTrip (start roundTripProgram 7 false)
      chain.1 = flat.1 ∧ ∃ ρ : Nat → Nat, StrictMono ρ ∧ (∀ i ≤ 7, ρ i = i) ∧
        SameRelations ρ flat.2.state chain.2.state :=
  ⟨by decide, rfl, fork_transparency roundTripProgram 7 false roundTrip forkedRoundTrip (by decide) rfl⟩

end Replay

end PathSlice
