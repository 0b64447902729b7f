import PathSlice.Proofs.EffectUses
import PathSlice.Proofs.FailedEffects

/-! Globals along a path. Whatever the events, every global has one version on a path from its first
use on, and one that is a pointer has one location, at the address of that use. -/
namespace PathSlice

/-- What an event uses, each operand with its term. -/
def Event.uses (program : Program) (e : Event) : List (Value × Term) :=
  let of (name : String) (us : Value → List (Value × Term)) :=
    match program.resolve name with
    | .ok v => us v
    | .error _ => []
  match e with
  | .execute i xs _ | .access i xs _ _ => of i (Effect.executeUses · xs)
  | .phi i incoming x _ => of i (·.used incoming x)
  | .bindCall site xs => of site (Effect.bindCallUses · xs)
  | .bindReturn _ ret x => of ret (Effect.bindReturnUses · x)
  | .fork | .backtrack | .shadow .. | .expect .. => []

namespace Effect

variable {P : Program} {n : Nat} {us : List (Value × Term)} {s : State}

/-- The effect failed and changed nothing, or used what it was given. -/
def Tried (P : Program) (us : List (Value × Term)) (e : Effect Unit) (s : State) : Prop :=
  (∃ fault, e.run s = (.error fault, s)) ∨ Entering P us s (e.run s).2

theorem Enters.tried {e : Effect Unit} {Q : Unit → Prop} (h : Enters P us e s Q)
    (ha : e.Atomic s) : Tried P us e s := by
  cases he : e.run s with
  | mk outcome t =>
    cases outcome with
    | ok a =>
      refine .inr ?_
      rw [he]
      exact (h a t he).1
    | error fault =>
      have failed := congrArg Prod.fst he
      exact .inl ⟨fault, Prod.ext failed (ha fault failed)⟩

/-- What is sliced after an access changes nothing on the path. -/
private theorem access_tried (hP : P.Declared n) (h : Settled s) (hs : s.path.Within P) {i : Value}
    (hi : i ∈ P) (xs : List Term) (checked erroneous : Bool) :
    Tried P (executeUses i xs) (access i xs checked erroneous) s := by
  have executed := (execute_enters hP h hs hi xs erroneous).tried
    (execute_atomic i h.toRecorded xs erroneous)
  unfold Tried
  rw [access_eq]
  rcases run_bind_cases (execute i xs erroneous) (fun _ => sliceAddress i checked) s with
    ⟨fault, t, hm, hb⟩ | ⟨b, t, hm, hb⟩
  · rw [hb]
    unfold Tried at executed
    rw [hm] at executed
    exact executed.imp_left fun ⟨_, he⟩ => ⟨fault, by cases he; rfl⟩
  · have path := (sliceAddress_sliced i checked t).path
    obtain ⟨fault, he⟩ | entering := executed
    · rw [hm] at he
      cases he
    · rw [hm] at entering
      have sliced : Entering P [] t ((sliceAddress i checked).run t).2 :=
        .of_same entering.within (by rw [path]) (by rw [path]) (by rw [path]) (by rw [path])
      refine .inr ?_
      rw [hb, ← List.append_nil (executeUses i xs)]
      exact entering.trans sliced

end Effect

/-- What an event that asks for an effect does to globals. -/
theorem Event.tried {P : Program} {n : Nat} {s : State} {e : Event} {x : Effect Unit}
    (hx : e.effect P = .ok x) (he : e.isEffect) (hP : P.Declared n)
    (ha : ∀ f ∈ P, ∀ a ∈ f.parameters, a.isArgument)
    (hsite : ∀ site ret y, e = .bindReturn site ret y → ∀ v, P.resolve site = .ok v → v.isCall)
    (h : Settled s) (hs : s.path.Within P) : Effect.Tried P (e.uses P) x s := by
  have recorded := h.toRecorded
  cases Event.asks_of_effect hx with
  | @execute _ i hi xs erroneous =>
    have enters := Effect.execute_enters hP h hs (Program.mem_of_resolve hi) xs erroneous
    simpa only [Event.uses, hi] using enters.tried (Effect.execute_atomic i recorded xs erroneous)
  | @choose _ i hi incoming y erroneous =>
    have enters := Effect.choose_enters hP hs (Program.mem_of_resolve hi) incoming y erroneous
    simpa only [Event.uses, hi] using enters.tried (Effect.choose_atomic i incoming y erroneous)
  | @access _ i hi xs checked erroneous =>
    have tried := Effect.access_tried hP h hs (Program.mem_of_resolve hi) xs checked erroneous
    simpa only [Event.uses, hi] using tried
  | @bindCall _ site hr xs =>
    have enters := Effect.bindCall_enters hP ha hs (Program.mem_of_resolve hr) xs
    simpa only [Event.uses, hr] using enters.tried (Effect.bindCall_atomic site xs)
  | @bindReturn name name' site ret hr hret y =>
    have call : site.opcode? = some .call := by
      simpa [Value.isCall] using hsite name name' y rfl site hr
    have enters := Effect.bindReturn_enters hP hs (Program.mem_of_resolve hr)
      (Value.not_isGlobal_of_opcode? call) (Program.mem_of_resolve hret) y
    simpa only [Event.uses, hret] using enters.tried (Effect.bindReturn_atomic site ret y)
  | nothing idle =>
    rw [he] at idle
    cases idle

/-- What is known of the globals of a program on a path: every one has at most one version, of which
`R` holds, and that of a pointer points to one location, which was created with it. -/
structure Path.Registered (P : Program) (R : Value → Version → Prop) (p : Path) : Prop where
  within : p.Within P
  globals : ∀ g ∈ P, g.isGlobal → p.versionsOf g = [] ∨
    ∃ v, p.versionsOf g = [v] ∧ R g v ∧
      (g.isPointer → p.pointersOf g = [⟨v, Location.start (v.id + 1) g v.term⟩])

namespace Path.Registered

variable {P : Program} {R : Value → Version → Prop} {p q : Path}

theorem root (id : Nat) : (Path.root id).Registered P R where
  within := by constructor <;> simp [Path.root, versions, deposits, flows, frames]
  globals _ _ _ := .inl rfl

theorem congr (h : p.Registered P R) (hv : q.versions = p.versions)
    (hp : q.pointers = p.pointers) (hd : q.deposits = p.deposits) (hf : q.flows = p.flows) :
    q.Registered P R := by
  refine ⟨h.within.congr hv hp hd hf, ?_⟩
  simp only [versionsOf, pointersOf, hv, hp]
  exact h.globals

/-- A version that is introduced is the first one, and nothing pointed anywhere for it. -/
theorem entering {us : List (Value × Term)} {s t : State} (h : s.path.Registered P R)
    (hc : s.path.Closed) (he : Entering P us s t)
    (first : ∀ g v, s.path.versionsOf g = [] → firstUse? us g = some v.term →
      t.path.versionsOf g = [v] → R g v) : t.path.Registered P R := by
  refine ⟨he.within, fun g hg hl => ?_⟩
  cases he.entered g hg hl with
  | kept same _ =>
    rw [same.versions]
    refine (h.globals g hg hl).imp_right fun ⟨v, hv, hr, hp⟩ => ⟨v, hv, hr, fun hpointer => ?_⟩
    exact (same.pointers hpointer).trans (hp hpointer)
  | introduced used new =>
    obtain ⟨i, hv, hp⟩ := new.after
    refine .inr ⟨_, hv, first g _ new.before used hv, fun hpointer => ?_⟩
    have none : s.path.pointersOf g = [] := by
      refine List.filter_eq_nil_iff.2 fun r hr => ?_
      exact List.filter_eq_nil_iff.1 new.before _ (hc.pointers r hr).1
    rw [hp hpointer, none]

theorem versionsOf_eq (h : p.Registered P R) {g : Value} (hg : g ∈ P) (hl : g.isGlobal)
    {v : Version} (hv : v ∈ p.versionsOf g) : p.versionsOf g = [v] ∧ R g v ∧
      (g.isPointer → p.pointersOf g = [⟨v, Location.start (v.id + 1) g v.term⟩]) := by
  rcases h.globals g hg hl with none | ⟨w, hw, rest⟩
  · rw [none] at hv
    exact absurd hv List.not_mem_nil
  · rw [hw] at hv
    rw [List.mem_singleton.1 hv]
    exact ⟨hw, rest⟩

/-- The version of a global that is a pointer points to its one location. -/
private theorem pointers_eq (h : p.Registered P R) (hc : p.Closed) {n : Nat} (hn : p.Numbered n) {g : Value}
    (hg : g ∈ P) (hl : g.isGlobal) (hp : g.isPointer) {v : Version} (hv : v ∈ p.versionsOf g) :
    p.pointers.filter (·.version.id == v.id) = [⟨v, Location.start (v.id + 1) g v.term⟩] := by
  obtain ⟨only, _, pointers⟩ := h.versionsOf_eq hg hl hv
  rw [← pointers hp]
  refine List.filter_congr fun r hr => ?_
  have created := (hc.pointers r hr).1
  rw [Bool.eq_iff_iff, beq_iff_eq, beq_iff_eq]
  constructor
  · intro hi
    rw [hn.version_eq created (List.mem_filter.1 hv).1 hi]
    exact beq_iff_eq.1 (List.mem_filter.1 hv).2
  · intro hi
    have among : r.version ∈ p.versionsOf g := List.mem_filter.2 ⟨created, beq_iff_eq.2 hi⟩
    rw [only] at among
    rw [List.mem_singleton.1 among]

end Path.Registered

/-- A turn keeps what is known of the globals on every outer part of the path, if it does so for the
whole path whenever it is an effect. -/
theorem Turn.registered {P : Program} {R : Value → Version → Prop} {e : Event} {s t : State}
    (h : Turn e s t) (hs : ∀ j q, s.path.up? j = some q → q.Registered P R)
    (ht : e.isEffect → t.path.Registered P R) :
    ∀ j q, t.path.up? j = some q → q.Registered P R := by
  intro j q hq
  cases h with
  | effect he hm =>
    cases j with
    | zero =>
      cases hq
      exact ht he
    | succ j =>
      rw [Path.up?_succ_congr hm.grown.ancestors] at hq
      exact hs (j + 1) q hq
  | fork =>
    cases j with
    | zero =>
      cases hq
      exact (hs 0 s.path s.path.up?_zero).congr rfl rfl rfl rfl
    | succ j => exact hs j q hq
  | backtrack ha =>
    cases j with
    | zero =>
      cases hq
      obtain ⟨f, fs, hf⟩ := List.exists_cons_of_ne_nil ha
      have outer : s.path.up? 1 = some ⟨f, fs⟩ := by simp [Path.up?, Path.frames, hf]
      rw [hf]
      exact (hs 1 _ outer).congr rfl rfl rfl rfl
    | succ j => exact hs (j + 1) q (hq ▸ Path.up?_succ_congr rfl)
  | idle => exact hs j q hq

namespace Replay

/-- The state after the first events. -/
def stateAt (r : Replay) (events : List Event) (k : Nat) : State :=
  (pursue 0 (events.take k) r).2.state

/-- The version of a global was created by an event before which there was none on the path, and it
has the first term that the event uses the global with. -/
def FirstUsed (r : Replay) (events : List Event) (g : Value) (v : Version) : Prop :=
  ∃ k e, events[k]? = some e ∧ (r.stateAt events k).path.versionsOf g = [] ∧
    firstUse? (e.uses r.program) g = some v.term ∧
    (r.stateAt events (k + 1)).path.versionsOf g = [v]

section Runs

variable {r : Replay} {events : List Event} {k n : Nat}

theorem stateAt_succ {e : Event} (h : events[k]? = some e) :
    r.stateAt events (k + 1) =
      ((apply k e).run (pursue 0 (events.take k) r).2).2.state := by
  have hk : k ≤ events.length := Nat.le_of_lt (List.getElem?_eq_some_iff.1 h).1
  rw [stateAt, List.take_add_one, h, pursue_append, List.length_take_of_le hk, Nat.zero_add]
  rfl

/-- An event that asks for an effect fails and changes nothing, or uses what it is given. -/
theorem apply_entering {P : Program} (hr : r.program = P) {e : Event} (he : e.isEffect)
    (index : Nat) (hP : P.Declared n) (ha : ∀ f ∈ P, ∀ a ∈ f.parameters, a.isArgument)
    (hsite : ∀ site ret x, e = .bindReturn site ret x → ∀ v, P.resolve site = .ok v → v.isCall)
    (h : Settled r.state) (hs : r.state.path.Within P) :
    (∃ fault, ((apply index e).run r).1 = .error fault) ∧
        ((apply index e).run r).2.state = r.state ∨
      Entering P (e.uses P) r.state ((apply index e).run r).2.state := by
  rw [apply_of_isEffect he, hr]
  cases hx : e.effect P with
  | error fault => exact .inl ⟨⟨_, rfl⟩, rfl⟩
  | ok x =>
    rcases Event.tried hx he hP ha hsite h hs with ⟨fault, run⟩ | entering
    · have run : x r.state = (.error fault, r.state) := run
      dsimp only
      rw [run]
      exact .inl ⟨⟨_, rfl⟩, rfl⟩
    · exact .inr entering

private theorem stateAt_registered (h : Standing r.state) (hr : ∀ j q, r.state.path.up? j = some q →
      q.Registered r.program (r.FirstUsed events))
    (hP : r.program.Declared n) (ha : ∀ f ∈ r.program, ∀ a ∈ f.parameters, a.isArgument)
    (hsites : ∀ site ret x, Event.bindReturn site ret x ∈ events →
      ∀ v, r.program.resolve site = .ok v → v.isCall) (k : Nat) :
    ∀ j q, (r.stateAt events k).path.up? j = some q →
      q.Registered r.program (r.FirstUsed events) := by
  induction k with
  | zero => exact hr
  | succ k ih =>
    cases hk : events[k]? with
    | none =>
      have same : r.stateAt events (k + 1) = r.stateAt events k := by
        simp [stateAt, List.take_add_one, hk]
      rw [same]
      exact ih
    | some e =>
      obtain ⟨program, standing⟩ := pursue_program_standing h 0 (events.take k)
      have turn := (apply_turn standing.settled e k).2
      have here := ih 0 _ (Path.up?_zero _)
      rw [stateAt_succ hk]
      refine turn.registered ih fun he => ?_
      have hsite := fun site ret x (hx : e = .bindReturn site ret x) =>
        hsites site ret x (hx ▸ List.mem_of_getElem? hk)
      rcases apply_entering program he k hP ha hsite standing.settled here.within with
        ⟨_, same⟩ | entering
      · rw [same]
        exact here
      · refine here.entering standing.settled.closed entering fun g v before used after => ?_
        exact ⟨k, e, hk, before, used, stateAt_succ hk ▸ after⟩

end Runs

open Recorder

/-- Every global has at most one version on any path that events lead to, and an event that uses one
leaves it with a version. The version of a global variable has the term of its first use, and on
every path that it is on it points to one location, which belongs to the variable and has that term
as its address; it is the version that the variable stands for there, and resolves to that location.
Global variables are declared as pointers, as their declarations are read. -/
theorem globals_registered {id : Nat} {ds : List Declaration} {program : Program}
    (hp : Program.ofDeclarations id ds = .ok program)
    (hvariables : ∀ d ∈ ds, d.kind = .globalVariable → d.type = .pointer)
    (hparameters : ∀ f ∈ program, ∀ a ∈ f.parameters, a.isArgument) (next : Nat)
    (existential : Bool) (events : List Event)
    (hsites : ∀ site ret x, Event.bindReturn site ret x ∈ events →
      ∀ v, program.resolve site = .ok v → v.isCall) {g : Value} (hg : g ∈ program)
    (hl : g.isGlobal) :
    let r := start program next existential
    (∀ k j q, (r.stateAt events k).path.up? j = some q → (q.versionsOf g).length ≤ 1) ∧
    (∀ k e, events[k]? = some e → ((apply k e).run (pursue 0 (events.take k) r).2).1 = .ok () →
      (firstUse? (e.uses program) g).isSome → (r.stateAt events (k + 1)).path.versionsOf g ≠ []) ∧
    (g.isGlobalVariable →
      ∀ k j q v, (r.stateAt events k).path.up? j = some q → v ∈ q.versionsOf g →
        r.FirstUsed events g v ∧ ∃ l : Location, l.site = g ∧ l.address = v.term ∧
          ∀ k j q, (r.stateAt events k).path.up? j = some q → v ∈ q.versions →
            q.pointers.filter (·.version.id == v.id) = [⟨v, l⟩] ∧ l ∈ q.locations ∧
            ∀ t : State, t.path = q →
              (∀ y, versionOf? g y t = (some v, t)) ∧ resolveAll v t = ([l], t)) := by
  intro r
  obtain ⟨n, hP⟩ := Program.declared_ofDeclarations hp
  have pointer := Program.isPointer_of_declareAll hp hvariables
    fun _ hn => absurd hn List.not_mem_nil
  have standing (k : Nat) : Standing (r.stateAt events k) :=
    pursue_standing program next existential (events.take k)
  have registered : ∀ k j q, (r.stateAt events k).path.up? j = some q →
      q.Registered program (r.FirstUsed events) := by
    refine stateAt_registered (start_standing program next existential) (fun j q hq => ?_) hP
      hparameters hsites
    cases j with
    | zero =>
      cases hq
      exact .root next
    | succ j => cases j <;> cases hq
  refine ⟨fun k j q hq => ?_, fun k e hk hok hu => ?_, fun hv k j q v hq hmem => ?_⟩
  · rcases (registered k j q hq).globals g hg hl with none | ⟨v, hv, _⟩
    · rw [none]
      exact Nat.zero_le 1
    · rw [hv]
      exact Nat.le_refl 1
  · have he : e.isEffect := by
      cases e with
      | fork | backtrack | shadow | expect => cases hu
      | _ => rfl
    have same := (pursue_program_standing (start_standing program next existential) 0
      (events.take k)).1
    have hsite := fun site ret x (hx : e = .bindReturn site ret x) =>
      hsites site ret x (hx ▸ List.mem_of_getElem? hk)
    have here := (registered k 0 _ (Path.up?_zero _)).within
    rw [stateAt_succ hk]
    rcases apply_entering same he k hP hparameters hsite (standing k).settled here with
      ⟨⟨fault, failed⟩, _⟩ | entering
    · rw [hok] at failed
      cases failed
    · exact (entering.entered g hg hl).versionsOf_ne_nil hu
  · obtain ⟨_, first, _⟩ := (registered k j q hq).versionsOf_eq hg hl hmem
    refine ⟨first, Location.start (v.id + 1) g v.term, rfl, rfl, fun k j q hq hmem' => ?_⟩
    have settled := (standing k).at_up j q hq
    have among : v ∈ q.versionsOf g := List.mem_filter.2 ⟨hmem', (List.mem_filter.1 hmem).2⟩
    obtain ⟨only, _⟩ := (registered k j q hq).versionsOf_eq hg hl among
    have pointers := (registered k j q hq).pointers_eq settled.closed settled.numbered hg hl
      (pointer g hg hv) among
    have pointee : q.pointee? v = some (Location.start (v.id + 1) g v.term) := by
      rw [Path.pointee?, ← List.head?_filter, pointers]
      rfl
    have latest : q.latest? g = some v := by
      rw [Path.latest?, ← List.head?_filter]
      exact congrArg List.head? only
    refine ⟨pointers, ?_, fun t ht => ⟨fun y => ?_, ?_⟩⟩
    · obtain ⟨ptr, hptr, _, hlocation⟩ := Path.mem_pointers_of_pointee? pointee
      exact hlocation ▸ (settled.closed.pointers ptr hptr).2
    · exact versionOf?_of_latest? (fun _ => hl) (ht ▸ latest) y
    · rw [resolveAll_run, resolve?_of_pointee? (ht ▸ pointee)]

/-! A global that is written, read at another address in a new frame, and handed to a function. -/

namespace Counter

def literal : Value := ⟨1, "k", .constant, .integer 32⟩
def counter : Value := ⟨2, "g", .globalVariable, .pointer⟩
def parameter : Value := ⟨3, "a", .argument "f" 0, .integer 32⟩
def callee : Value := ⟨4, "f", .function false [parameter], .integer 32⟩
def giveBack : Value := ⟨5, "r", .instruction .ret "f" [parameter], .void⟩
def datum : Value := ⟨6, "x", .instruction .add "main" [literal, literal], .integer 32⟩
def write : Value := ⟨7, "w", .instruction .store "main" [datum, counter], .void⟩
def read : Value := ⟨8, "y", .instruction .load "main" [counter], .integer 32⟩
def site : Value := ⟨9, "c", .instruction .call "main" [read, callee], .integer 32⟩

def declarations : List Declaration :=
  [⟨"k", .constant, .integer 32⟩,
    ⟨"g", .globalVariable, .pointer⟩,
    ⟨"a", .argument "f" 0, .integer 32⟩,
    ⟨"f", .function false ["a"], .integer 32⟩,
    ⟨"r", .instruction .ret "f" ["a"], .void⟩,
    ⟨"x", .instruction .add "main" ["k", "k"], .integer 32⟩,
    ⟨"w", .instruction .store "main" ["x", "g"], .void⟩,
    ⟨"y", .instruction .load "main" ["g"], .integer 32⟩,
    ⟨"c", .instruction .call "main" ["y", "f"], .integer 32⟩]

def program : Program :=
  [literal, counter, parameter, callee, giveBack, datum, write, read, site]

def events : List Event :=
  [.execute "x" [.ofBits 2 32, .ofBits 1 32, .ofBits 1 32] false,
    .fork,
    .execute "w" [.ofBits 2 32, .pointer 16] false,
    .fork,
    .execute "y" [.ofBits 2 32, .pointer 32] false,
    .bindCall "c" [.ofBits 2 32],
    .bindReturn "c" "r" (.ofBits 2 32)]

def replay : Replay :=
  start program 10 false

private theorem declared : Program.ofDeclarations 1 declarations = .ok program := by
  rfl

private theorem parameters : ∀ f ∈ program, ∀ a ∈ f.parameters, a.isArgument := by
  simp [program, literal, counter, parameter, callee, giveBack, datum, write, read, site,
    Value.parameters, Value.isArgument]

private theorem sites (name ret : String) (x : Term) (h : Event.bindReturn name ret x ∈ events)
    (v : Value) (hv : program.resolve name = .ok v) : v.isCall := by
  obtain ⟨rfl, _⟩ : name = "c" ∧ ret = "r" ∧ x = .ofBits 2 32 := by simpa [events] using h
  cases hv
  rfl

end Counter

/-- The location of the counter keeps the address that it was written at. -/
theorem globals_registered_counter :
    let s := Counter.replay.stateAt Counter.events 7
    ∃ v l, s.path.versionsOf Counter.counter = [v] ∧ l.site = Counter.counter ∧
      l.address = .pointer 16 ∧ s.path.pointers.filter (·.version.id == v.id) = [⟨v, l⟩] ∧
      resolveAll v s = ([l], s) ∧
      (Counter.events[4]?.map fun e => firstUse? (e.uses Counter.program) Counter.counter) =
        some (some (.pointer 32)) := by
  intro s
  have terms : (s.path.versionsOf Counter.counter).map (·.term) = [.pointer 16] := rfl
  obtain ⟨v, only, hterm⟩ := List.map_eq_singleton_iff.1 terms
  have hv : v ∈ s.path.versionsOf Counter.counter := only ▸ List.mem_singleton.2 rfl
  have member : Counter.counter ∈ Counter.program := by simp [Counter.program]
  obtain ⟨_, _, located⟩ := globals_registered Counter.declared (by simp [Counter.declarations])
    Counter.parameters 10 false Counter.events Counter.sites member rfl
  obtain ⟨_, l, hsite, haddress, kept⟩ := located rfl 7 0 s.path v s.path.up?_zero hv
  obtain ⟨pointers, _, resolves⟩ := kept 7 0 s.path s.path.up?_zero (List.mem_filter.1 hv).1
  exact ⟨v, l, only, hsite, haddress.trans hterm, pointers, (resolves s rfl).2, rfl⟩

end Replay

end PathSlice
