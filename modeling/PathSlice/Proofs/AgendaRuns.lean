import Mathlib.Logic.Function.Basic
import PathSlice.Order.Agenda

/-! Runs of an agenda. What every single step keeps holds at the end, with some keys still pending
and nothing on the stack; and a run on renamed tasks is the renamed run. -/
namespace PathSlice.Agenda

variable {κ τ σ : Type} [DecidableEq κ]
variable {key : τ → κ} {visit : τ → σ → List τ × σ} {pass : τ → σ → σ}

private theorem run_eq (pending : List κ) (stack : List τ) (s : σ) :
    run key visit pass pending stack s =
      match skip key pass pending stack s with
      | (none, s) => s
      | (some (t, rest), s) =>
        run key visit pass (without (key t) pending) ((visit t s).1 ++ rest) (visit t s).2 := by
  rw [run]
  split <;> simp only [*]

theorem run_nil (pending : List κ) (s : σ) : run key visit pass pending [] s = s :=
  run_eq pending [] s

theorem run_visit {pending : List κ} {t : τ} (h : key t ∈ pending) (rest : List τ) (s : σ) :
    run key visit pass pending (t :: rest) s =
      run key visit pass (without (key t) pending) ((visit t s).1 ++ rest) (visit t s).2 := by
  rw [run_eq, skip, if_pos h]

theorem run_pass {pending : List κ} {t : τ} (h : key t ∉ pending) (rest : List τ) (s : σ) :
    run key visit pass pending (t :: rest) s = run key visit pass pending rest (pass t s) := by
  rw [run_eq, run_eq pending rest, skip, if_neg h]

/-- What visiting and passing a task carry over from what comes after it holds of every stack. -/
theorem run_induction (key : τ → κ) (visit : τ → σ → List τ × σ) (pass : τ → σ → σ)
    {motive : List κ → List τ → σ → Prop}
    (nil : ∀ pending s, motive pending [] s)
    (visited : ∀ pending t rest s, key t ∈ pending →
      motive (without (key t) pending) ((visit t s).1 ++ rest) (visit t s).2 →
        motive pending (t :: rest) s)
    (passed : ∀ pending t rest s, key t ∉ pending → motive pending rest (pass t s) →
      motive pending (t :: rest) s)
    (pending : List κ) (stack : List τ) (s : σ) : motive pending stack s := by
  -- The outer induction is on the pending keys, the inner one on the stack.
  induction hn : pending.length using Nat.strongRecOn generalizing pending stack s with
  | _ n ih =>
    induction stack generalizing s with
    | nil => exact nil pending s
    | cons t rest inner =>
      by_cases hk : key t ∈ pending
      · exact visited pending t rest s hk (ih _ (hn ▸ length_without_lt hk) _ _ _ rfl)
      · exact passed pending t rest s hk (inner (pass t s))

/-- An invariant of visiting and of passing a task holds when the stack is worked off. -/
theorem run_invariant (inv : List κ → List τ → σ → Prop)
    (hvisit : ∀ pending t rest s, key t ∈ pending → inv pending (t :: rest) s →
      inv (without (key t) pending) ((visit t s).1 ++ rest) (visit t s).2)
    (hpass : ∀ pending t rest s, key t ∉ pending → inv pending (t :: rest) s →
      inv pending rest (pass t s))
    {pending : List κ} {stack : List τ} {s : σ} (h : inv pending stack s) :
    ∃ left, inv left [] (run key visit pass pending stack s) := by
  induction pending, stack, s using run_induction key visit pass with
  | nil pending s => exact ⟨pending, (run_nil pending s).symm ▸ h⟩
  | visited pending t rest s hk ih =>
    rw [run_visit hk]
    exact ih (hvisit pending t rest s hk h)
  | passed pending t rest s hk ih =>
    rw [run_pass hk]
    exact ih (hpass pending t rest s hk h)

section Map

variable {κ' τ' σ' : Type} [DecidableEq κ']
variable {key' : τ' → κ'} {visit' : τ' → σ' → List τ' × σ'} {pass' : τ' → σ' → σ'}
variable {f : κ → κ'} {g : τ → τ'} {h : σ → σ'}

private theorem without_map (hf : Function.Injective f) (k : κ) (pending : List κ) :
    without (f k) (pending.map f) = (without k pending).map f := by
  simp only [without, List.filter_map]
  congr 2
  funext x
  simp [Function.comp, hf.eq_iff]

/-- Renaming keys injectively, and tasks and results along with them, renames the run. -/
theorem run_map (hf : Function.Injective f) (hkey : ∀ t, key' (g t) = f (key t))
    (hvisit : ∀ t s, visit' (g t) (h s) = ((visit t s).1.map g, h (visit t s).2))
    (hpass : ∀ t s, pass' (g t) (h s) = h (pass t s))
    (pending : List κ) (stack : List τ) (s : σ) :
    run key' visit' pass' (pending.map f) (stack.map g) (h s) =
      h (run key visit pass pending stack s) := by
  induction pending, stack, s using run_induction key visit pass with
  | nil pending s => rw [List.map_nil, run_nil, run_nil]
  | visited pending t rest s hk ih =>
    have hk' : key' (g t) ∈ pending.map f := by
      rw [hkey]
      exact List.mem_map_of_mem hk
    rw [List.map_cons, run_visit hk', run_visit hk, hkey, without_map hf, hvisit, ← List.map_append,
      ih]
  | passed pending t rest s hk ih =>
    have hk' : key' (g t) ∉ pending.map f := by
      rw [hkey]
      intro hm
      obtain ⟨k, hk', he⟩ := List.mem_map.1 hm
      exact hk (hf he ▸ hk')
    rw [List.map_cons, run_pass hk', run_pass hk, hpass, ih]

end Map

end PathSlice.Agenda
