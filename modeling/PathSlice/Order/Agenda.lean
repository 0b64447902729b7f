/-! Working off a stack of tasks. A task is opened only while its key is pending, and opening it
takes the key away, so every key is opened at most once and the work ends however the tasks
refer to each other. -/
namespace PathSlice.Agenda

variable {κ τ σ : Type} [DecidableEq κ]

def without (k : κ) (pending : List κ) : List κ :=
  pending.filter (· ≠ k)

theorem mem_without {k x : κ} {pending : List κ} :
    x ∈ without k pending ↔ x ∈ pending ∧ x ≠ k := by
  simp [without]

theorem length_without_lt {k : κ} {pending : List κ} (h : k ∈ pending) :
    (without k pending).length < pending.length := by
  simp only [without]
  induction pending with
  | nil => simp at h
  | cons a l ih =>
    by_cases ha : a = k
    · have := List.length_filter_le (fun x => decide (x ≠ k)) l
      rw [List.filter_cons_of_neg (by simp [ha]), List.length_cons]
      omega
    · have := ih ((List.mem_cons.1 h).resolve_left (Ne.symm ha))
      rw [List.filter_cons_of_pos (by simp [ha]), List.length_cons, List.length_cons]
      omega

/-- Passes the tasks on top of the stack whose keys are not pending. The first part is the task
below them and what is left of the stack. -/
def skip (key : τ → κ) (pass : τ → σ → σ) (pending : List κ) :
    List τ → σ → Option (τ × List τ) × σ
  | [], s => (none, s)
  | t :: rest, s =>
    if key t ∈ pending then (some (t, rest), s) else skip key pass pending rest (pass t s)

theorem mem_of_skip {key : τ → κ} {pass : τ → σ → σ} {pending : List κ} {stack rest : List τ}
    {t : τ} {s s' : σ} (h : skip key pass pending stack s = (some (t, rest), s')) :
    key t ∈ pending := by
  fun_induction skip key pass pending stack s with
  | case1 => cases h
  | case2 t rest s hk =>
    cases h
    exact hk
  | case3 t rest s hk ih => exact ih h

/-- Takes the topmost task whose key is pending, after those above it were passed. `visit` handles
it and says which tasks it brings up, the first of them to be taken next. -/
def run (key : τ → κ) (visit : τ → σ → List τ × σ) (pass : τ → σ → σ)
    (pending : List κ) (stack : List τ) (s : σ) : σ :=
  match taken : skip key pass pending stack s with
  | (none, s) => s
  | (some (t, rest), s) =>
    have := length_without_lt (mem_of_skip taken)
    run key visit pass (without (key t) pending) ((visit t s).1 ++ rest) (visit t s).2
termination_by pending.length

end PathSlice.Agenda
