import Mathlib.Data.List.TakeWhile
import PathSlice.Proofs.AgendaRuns
import PathSlice.Proofs.LookupLoops
import PathSlice.Proofs.SinkFrontier
import PathSlice.Support.Printer

/-! The tree of a graph of support, as it is printed. A location may wait on the stack many times:
once for every child that was opened, and once as a sink. It is opened, which lists its parents,
where it is taken from the stack first, and only named where it is taken again. So there is one line
for every sink and one for every edge behind the sinks, and each of these edges is shown once. -/
namespace PathSlice

namespace Text

private theorem lines_cons (s : String) (ls : List String) : lines (s :: ls) = s ++ "\n" ++ lines ls := by
  simp [lines]

private theorem eq_of_mem_indent {depth : Nat} {c : Char} (h : c ∈ (indent depth).toList) : c = ' ' := by
  simp only [indent, String.toList_join, List.mem_flatMap, List.mem_replicate] at h
  obtain ⟨_, ⟨_, rfl⟩, hc⟩ := h
  simpa using hc

/-- Texts without line breaks are found again by splitting where the lines end. -/
private theorem splitOn_lines {ls : List String} (h : ∀ s ∈ ls, '\n' ∉ s.toList) :
    (lines ls).toList.splitOn '\n' = ls.map (·.toList) ++ [[]] := by
  induction ls with
  | nil => rfl
  | cons s ls ih =>
    obtain ⟨hs, hls⟩ := List.forall_mem_cons.1 h
    have text : (lines (s :: ls)).toList = s.toList ++ '\n' :: (lines ls).toList := by
      simp [lines_cons]
    rw [text, List.splitOn, List.splitOnP_append_cons _ _ (by simp), ← List.splitOn,
      ← List.splitOn, List.splitOn_eq_singleton hs, ih hls]
    rfl

end Text

namespace Support.Graph

open StateTransition

variable {g : Graph} {l : Location} {m : Marks} {d : Nat} {pending printed : List Nat}
variable {stack rest : List (Location × Nat)} {lines : List Line}

private theorem parents_congr {k : Location} (h : k.id = l.id) : g.parents k = g.parents l := by
  simp only [parents, h]

theorem mem_children_iff : l.id ∈ g.edges.map (·.child.id) ↔ g.parents l ≠ [] := by
  simp [parents]

/-- Without double edges, the parent on an edge is among the parents of the child once. -/
private theorem Simple.countP_parents (h : g.Simple) {e : Edge} (he : e ∈ g.edges)
    (hl : l.id = e.child.id) : (g.parents l).countP (·.id = e.parent.id) = 1 := by
  let ends (e : Edge) : Nat × Nat := (e.child.id, e.parent.id)
  have nodup : (g.edges.map ends).Nodup := by
    refine List.pairwise_map.2 (h.distinct.imp fun apart same => ?_)
    obtain ⟨hc, hp⟩ := Prod.mk.inj same
    exact apart hc hp
  have one := List.count_eq_one_of_mem nodup (List.mem_map_of_mem he)
  rw [List.count, List.countP_map] at one
  rw [parents, List.countP_map, List.countP_filter, ← one]
  refine List.countP_congr fun e' _ => ?_
  simp [ends, hl, and_comm]

/-- The parents of some distinct locations are the parents on the edges from these locations. -/
private theorem flatMap_parents_perm {ls : List Location} (h : (ls.map (·.id)).Nodup) :
    (ls.flatMap g.parents).Perm
      ((g.edges.filter (·.child.id ∈ ls.map (·.id))).map (·.parent)) := by
  induction ls with
  | nil => simp
  | cons l ls ih =>
    obtain ⟨new, h⟩ := List.nodup_cons.1 h
    let among := g.edges.filter (·.child.id ∈ (l :: ls).map (·.id))
    have first : among.filter (·.child.id == l.id) = g.edges.filter (·.child.id == l.id) := by
      rw [List.filter_filter]
      refine List.filter_congr fun e _ => ?_
      by_cases hl : e.child.id = l.id <;> simp [hl]
    have others : among.filter (fun e => !(e.child.id == l.id)) =
        g.edges.filter (·.child.id ∈ ls.map (·.id)) := by
      rw [List.filter_filter]
      refine List.filter_congr fun e _ => ?_
      by_cases hl : e.child.id = l.id
      · simpa [hl] using new
      · simp [hl]
    have split := List.filter_append_perm (·.child.id == l.id) among
    rw [first, others] at split
    rw [List.flatMap_cons]
    refine ((ih h).append_left (g.parents l)).trans ?_
    simpa only [parents, List.map_append] using split.map (·.parent)

/-! The lines that a stack gives. -/

/-- The remark on a location where its parents are not listed. -/
def passed (g : Graph) (l : Location) : String :=
  if (g.parents l).isEmpty then "" else " (printed)"

/-- The lines that a stack of locations with their depths gives, as long as the parents of the
locations pending are still to be listed. -/
inductive Lists (g : Graph) : List Nat → List (Location × Nat) → List Line → Prop
  | done (pending : List Nat) : Lists g pending [] []
  | opened {pending : List Nat} {l : Location} {depth : Nat} {rest : List (Location × Nat)}
      {lines : List Line} (h : l.id ∈ pending)
      (next :
        Lists g (Agenda.without l.id pending) ((g.parents l).map (·, depth + 1) ++ rest) lines) :
      Lists g pending ((l, depth) :: rest) (⟨l, depth, " depends on"⟩ :: lines)
  | named {pending : List Nat} {l : Location} {depth : Nat} {rest : List (Location × Nat)}
      {lines : List Line} (h : l.id ∉ pending) (next : Lists g pending rest lines) :
      Lists g pending ((l, depth) :: rest) (⟨l, depth, g.passed l⟩ :: lines)

/-- The locations whose parents are listed. -/
def openings (lines : List Line) : List Location :=
  (lines.filter (·.remark = " depends on")).map (·.location)

/-- Of the lines that follow a line, those one level below it, up to the next line that is not
deeper. -/
def beneath (depth : Nat) (behind : List Line) : List Line :=
  (behind.takeWhile (depth < ·.depth)).filter (·.depth = depth + 1)

private theorem passed_ne (g : Graph) (l : Location) : g.passed l ≠ " depends on" := by
  unfold passed
  split <;> decide

private theorem passed_of_parents (h : g.parents l ≠ []) : g.passed l = " (printed)" := by
  simp [passed, h]

private theorem passed_of_no_parents (h : g.parents l = []) : g.passed l = "" := by
  simp [passed, h]

@[simp] theorem openings_opened (l : Location) (depth : Nat) (lines : List Line) :
    openings (⟨l, depth, " depends on"⟩ :: lines) = l :: openings lines := by
  simp [openings]

@[simp] theorem openings_named (l : Location) (depth : Nat) (lines : List Line) :
    openings (⟨l, depth, g.passed l⟩ :: lines) = openings lines := by
  simp [openings, passed_ne]

theorem mem_openings :
    l ∈ openings lines ↔ ∃ x ∈ lines, x.remark = " depends on" ∧ x.location = l := by
  simp [openings, and_assoc]

theorem lists_tree (g : Graph) :
    Lists g (g.edges.map (·.child.id)) (g.sinks.map (·, 0)) g.tree := by
  -- Whatever lines the rest of the stack gives, they complete those written so far.
  let inv (pending : List Nat) (stack : List (Location × Nat)) (written : List Line) : Prop :=
    ∀ lines, Lists g pending stack lines →
      Lists g (g.edges.map (·.child.id)) (g.sinks.map (·, 0)) (written.reverse ++ lines)
  have ended : ∃ left, inv left [] g.tree.reverse := by
    unfold tree
    rw [List.reverse_reverse]
    apply Agenda.run_invariant inv
    · intro pending t rest written hk h lines next
      simpa using h _ (.opened hk next)
    · intro pending t rest written hk h lines next
      simpa [passed] using h _ (.named hk next)
    · exact fun lines all => all
  obtain ⟨left, h⟩ := ended
  simpa using h [] (.done left)

namespace Lists

/-! Which locations are listed. -/

/-- Every location on the stack has its line, and so has every parent that is listed. -/
theorem perm (h : Lists g pending stack lines) :
    (lines.map (·.location)).Perm (stack.map (·.1) ++ (openings lines).flatMap g.parents) := by
  induction h with
  | done => simp [openings]
  | @opened pending l depth rest lines _ _ ih =>
    rw [openings_opened, List.flatMap_cons]
    refine (ih.trans ?_).cons l
    simpa [Function.comp_def] using List.perm_append_comm_assoc _ _ _
  | @named pending l depth rest lines _ _ ih =>
    rw [openings_named]
    exact ih.cons l

private theorem mem_pending (h : Lists g pending stack lines) :
    ∀ k ∈ openings lines, k.id ∈ pending := by
  induction h with
  | done => simp [openings]
  | opened hl _ ih =>
    rw [openings_opened]
    refine List.forall_mem_cons.2 ⟨hl, fun k hk => ?_⟩
    exact (Agenda.mem_without.1 (ih k hk)).1
  | named _ _ ih =>
    rw [openings_named]
    exact ih

/-- No location is opened twice. -/
private theorem nodup_openings (h : Lists g pending stack lines) :
    ((openings lines).map (·.id)).Nodup := by
  induction h with
  | done => simp [openings]
  | opened _ next ih =>
    rw [openings_opened, List.map_cons]
    refine List.nodup_cons.2 ⟨fun again => ?_, ih⟩
    obtain ⟨k, hk, hi⟩ := List.mem_map.1 again
    exact (Agenda.mem_without.1 (next.mem_pending k hk)).2 hi
  | named _ _ ih =>
    rw [openings_named]
    exact ih

theorem reached (h : Lists g pending stack lines) (hs : ∀ t ∈ stack, g.Reached t.1.id) :
    ∀ x ∈ lines, g.Reached x.location.id := by
  induction h with
  | done => simp
  | @opened pending l depth rest lines _ _ ih =>
    obtain ⟨hl, hrest⟩ := List.forall_mem_cons.1 hs
    refine List.forall_mem_cons.2 ⟨hl, ih fun t ht => ?_⟩
    rcases List.mem_append.1 ht with ht | ht
    · obtain ⟨p, hp, rfl⟩ := List.mem_map.1 ht
      exact hl.parent ((among_parents g l).1 ⟨p, hp, rfl⟩)
    · exact hrest t ht
  | named _ _ ih =>
    obtain ⟨hl, hrest⟩ := List.forall_mem_cons.1 hs
    exact List.forall_mem_cons.2 ⟨hl, ih hrest⟩

/-! What is remarked. -/

theorem remark (h : Lists g pending stack lines) :
    ∀ x ∈ lines, x.remark = " depends on" ∨ x.remark = g.passed x.location := by
  induction h with
  | done => simp
  | opened _ _ ih => exact List.forall_mem_cons.2 ⟨.inl rfl, ih⟩
  | named _ _ ih => exact List.forall_mem_cons.2 ⟨.inr rfl, ih⟩

private theorem remark_of_not_pending (h : Lists g pending stack lines) (hl : l.id ∉ pending) :
    ∀ x ∈ lines, x.location.id = l.id → x.remark = g.passed l := by
  intro x hx hi
  rcases h.remark x hx with opened | passed
  · exact absurd (hi ▸ h.mem_pending _ (mem_openings.2 ⟨x, hx, opened, rfl⟩)) hl
  · rw [passed, Graph.passed, Graph.passed, parents_congr hi]

/-- A location that is pending is opened on its first line, and passed on all others. -/
theorem remarks_of_pending (h : Lists g pending stack lines) (hl : l.id ∈ pending)
    (there : ∃ x ∈ lines, x.location.id = l.id) :
    ∃ n, (lines.filter (·.location.id = l.id)).map (·.remark) =
      " depends on" :: List.replicate n (g.passed l) := by
  induction h with
  | done => simp at there
  | @opened pending k depth rest lines _ next ih =>
    by_cases hi : k.id = l.id
    · -- From here on the location is not pending any more.
      have later := next.remark_of_not_pending (l := l) (by simp [Agenda.mem_without, hi])
      refine ⟨(lines.filter (·.location.id = l.id)).length, ?_⟩
      rw [List.filter_cons_of_pos (by simpa using hi), List.map_cons, List.cons_inj_right,
        List.eq_replicate_iff]
      refine ⟨List.length_map _, fun r hr => ?_⟩
      obtain ⟨x, hx, rfl⟩ := List.mem_map.1 hr
      obtain ⟨hx, hxi⟩ := List.mem_filter.1 hx
      exact later x hx (by simpa using hxi)
    · rw [List.filter_cons_of_neg (by simpa using hi)]
      apply ih (Agenda.mem_without.2 ⟨hl, Ne.symm hi⟩)
      simpa [hi] using there
  | @named pending k depth rest lines hk _ ih =>
    have hi : k.id ≠ l.id := fun hi => hk (hi ▸ hl)
    rw [List.filter_cons_of_neg (by simpa using hi)]
    apply ih hl
    simpa [hi] using there

/-! How deep lines stand. -/

theorem depth_of_mem_parents (g : Graph) (l : Location) (d : Nat) :
    ∀ t ∈ (g.parents l).map (·, d + 1), t.2 = d + 1 := by
  simp

private theorem le_depth (h : Lists g pending stack lines) (hs : ∀ t ∈ stack, d ≤ t.2) :
    ∀ x ∈ lines, d ≤ x.depth := by
  induction h with
  | done => simp
  | @opened pending l depth rest lines _ _ ih =>
    obtain ⟨hl, hrest⟩ := List.forall_mem_cons.1 hs
    refine List.forall_mem_cons.2 ⟨hl, ih (List.forall_mem_append.2 ⟨fun t ht => ?_, hrest⟩)⟩
    rw [depth_of_mem_parents g l depth t ht]
    exact Nat.le_succ_of_le hl
  | named _ _ ih =>
    obtain ⟨hl, hrest⟩ := List.forall_mem_cons.1 hs
    exact List.forall_mem_cons.2 ⟨hl, ih hrest⟩

/-- What comes onto the stack later is deeper, so the least depth is that of the stack alone. -/
theorem filter_depth (h : Lists g pending stack lines) (hs : ∀ t ∈ stack, d ≤ t.2) :
    (lines.filter (·.depth = d)).map (·.location) = (stack.filter (·.2 = d)).map (·.1) := by
  induction h with
  | done => rfl
  | @opened pending l depth rest lines _ _ ih =>
    obtain ⟨hl, hrest⟩ := List.forall_mem_cons.1 hs
    have deeper : ∀ t ∈ (g.parents l).map (·, depth + 1), d < t.2 := by
      intro t ht
      rw [depth_of_mem_parents g l depth t ht]
      exact Nat.lt_succ_of_le hl
    have none : ((g.parents l).map (·, depth + 1)).filter (·.2 = d) = [] :=
      List.filter_eq_nil_iff.2 fun t ht => by simpa using (deeper t ht).ne'
    have ih := ih (List.forall_mem_append.2 ⟨fun t ht => (deeper t ht).le, hrest⟩)
    rw [List.filter_append, none, List.nil_append] at ih
    by_cases hd : depth = d <;> simp [hd, ih]
  | @named pending l depth rest lines _ _ ih =>
    obtain ⟨_, hrest⟩ := List.forall_mem_cons.1 hs
    have ih := ih hrest
    by_cases hd : depth = d <;> simp [hd, ih]

/-- The upper part of a stack is worked off before the lower part. -/
private theorem append {upper lower : List (Location × Nat)} (h : Lists g pending (upper ++ lower) lines) :
    ∃ pending' first second, lines = first ++ second ∧ Lists g pending upper first ∧
      Lists g pending' lower second := by
  generalize hs : upper ++ lower = stack at h
  induction h generalizing upper with
  | done pending =>
    obtain ⟨rfl, rfl⟩ := List.append_eq_nil_iff.1 hs
    exact ⟨pending, [], [], rfl, .done pending, .done pending⟩
  | @opened pending l depth rest lines hl next ih =>
    cases upper with
    | nil =>
      subst hs
      exact ⟨pending, [], _, rfl, .done pending, .opened hl next⟩
    | cons t upper =>
      obtain ⟨rfl, rfl⟩ := List.cons.inj hs
      obtain ⟨pending', first, second, rfl, hfirst, hsecond⟩ := ih (List.append_assoc _ _ _)
      exact ⟨pending', _, second, rfl, .opened hl hfirst, hsecond⟩
  | @named pending l depth rest lines hl next ih =>
    cases upper with
    | nil =>
      subst hs
      exact ⟨pending, [], _, rfl, .done pending, .named hl next⟩
    | cons t upper =>
      obtain ⟨rfl, rfl⟩ := List.cons.inj hs
      obtain ⟨pending', first, second, rfl, hfirst, hsecond⟩ := ih rfl
      exact ⟨pending', _, second, rfl, .named hl hfirst, hsecond⟩

/-- The next line is that of the topmost location. -/
theorem takeWhile_depth (h : Lists g pending stack lines) (hs : ∀ t ∈ stack, t.2 ≤ d) :
    lines.takeWhile (d < ·.depth) = [] := by
  cases h with
  | done => rfl
  | opened _ _ => simpa using (List.forall_mem_cons.1 hs).1
  | named _ _ => simpa using (List.forall_mem_cons.1 hs).1

/-- Below a location that is opened stand its parents. -/
private theorem beneath_opened
    (h : Lists g pending ((g.parents l).map (·, d + 1) ++ rest) lines)
    (hs : ∀ t ∈ rest, t.2 ≤ d) : (beneath d lines).map (·.location) = g.parents l := by
  obtain ⟨_, first, second, rfl, hfirst, hsecond⟩ := h.append
  have deep : ∀ t ∈ (g.parents l).map (·, d + 1), d + 1 ≤ t.2 :=
    fun t ht => (depth_of_mem_parents g l d t ht).ge
  have deeper : ∀ x ∈ first, decide (d < x.depth) = true :=
    fun x hx => decide_eq_true (hfirst.le_depth deep x hx)
  have within : (first ++ second).takeWhile (d < ·.depth) = first := by
    rw [List.takeWhile_append_of_pos deeper, hsecond.takeWhile_depth hs, List.append_nil]
  rw [beneath, within, hfirst.filter_depth deep]
  simp [List.filter_map, Function.comp_def]

/-- Whatever waits on the stack waits above what stands less deep in the tree. So the parents of a
location, with all that is listed below them, come before anything else. -/
private theorem beneath_eq (h : Lists g pending stack lines) (hs : stack.Pairwise fun s t => t.2 ≤ s.2)
    {before behind : List Line} {x : Line} (hx : lines = before ++ x :: behind) :
    (beneath x.depth behind).map (·.location) =
      if x.remark = " depends on" then g.parents x.location else [] := by
  induction h generalizing before with
  | done => simp at hx
  | @opened pending l depth rest lines _ next ih =>
    obtain ⟨hrest, hs⟩ := List.pairwise_cons.1 hs
    cases before with
    | nil =>
      obtain ⟨rfl, rfl⟩ := List.cons.inj hx
      rw [if_pos rfl]
      exact next.beneath_opened hrest
    | cons y before =>
      -- The parents are one level deeper than `l`, and `l` was the deepest on the stack.
      refine ih ?_ (List.cons.inj hx).2
      refine List.pairwise_append.2 ⟨?_, hs, fun s hp t ht => ?_⟩
      · exact List.pairwise_map.2 (List.pairwise_of_forall fun _ _ => Nat.le_refl _)
      · rw [depth_of_mem_parents g l depth s hp]
        exact Nat.le_succ_of_le (hrest t ht)
  | @named pending l depth rest lines _ next ih =>
    obtain ⟨hrest, hs⟩ := List.pairwise_cons.1 hs
    cases before with
    | nil =>
      obtain ⟨rfl, rfl⟩ := List.cons.inj hx
      rw [if_neg (passed_ne g l), beneath, next.takeWhile_depth hrest]
      rfl
    | cons y before => exact ih hs (List.cons.inj hx).2

end Lists

/-! Printing as a loop. -/

section Printing

/-- The written form of a line. -/
def Line.render (m : Marks) (x : Line) : String :=
  Text.indent x.depth ++ m.location x.location ++ x.remark

/-- The state of the loop: the identities of the locations that were opened, the locations to print,
each with its depth, the next one first, and the text so far. -/
structure Printout where
  printed : List Nat
  stack : List (Location × Nat)
  text : String

/-- One turn of the loop. Only a location with parents is ever noted as printed. -/
def print (g : Graph) (m : Marks) (c : Printout) : Option Printout :=
  match c.stack with
  | [] => none
  | (l, depth) :: rest =>
    let text := c.text ++ Text.indent depth ++ m.location l
    if l.id ∈ c.printed then some ⟨c.printed, rest, text ++ " (printed)\n"⟩
    else
      match g.parents l with
      | [] => some ⟨c.printed, rest, text ++ "\n"⟩
      | ps => some ⟨l.id :: c.printed, ps.map (·, depth + 1) ++ rest, text ++ " depends on\n"⟩

/-- Pending are the locations with parents that were not printed. -/
structure Awaits (g : Graph) (pending printed : List Nat) : Prop where
  pending_iff : ∀ l : Location, l.id ∈ pending ↔ g.parents l ≠ [] ∧ l.id ∉ printed
  parents_ne : ∀ l : Location, l.id ∈ printed → g.parents l ≠ []

private theorem awaits_start (g : Graph) : Awaits g (g.edges.map (·.child.id)) [] where
  pending_iff _ := by simp [mem_children_iff]
  parents_ne _ h := absurd h List.not_mem_nil

namespace Awaits

theorem opened (h : Awaits g pending printed) (hl : l.id ∈ pending) :
    Awaits g (Agenda.without l.id pending) (l.id :: printed) where
  pending_iff k := by
    rw [Agenda.mem_without, h.pending_iff k, List.mem_cons, not_or, and_assoc]
    exact and_congr_right fun _ => and_comm
  parents_ne k hk := by
    rcases List.mem_cons.1 hk with hk | hk
    · rw [parents_congr hk]
      exact ((h.pending_iff l).1 hl).1
    · exact h.parents_ne k hk

private theorem print_opened (h : Awaits g pending printed) (hl : l.id ∈ pending) (text : String) :
    g.print m ⟨printed, (l, d) :: rest, text⟩ =
      some ⟨l.id :: printed, (g.parents l).map (·, d + 1) ++ rest,
        text ++ Text.lines [Line.render m ⟨l, d, " depends on"⟩]⟩ := by
  obtain ⟨hparents, new⟩ := (h.pending_iff l).1 hl
  cases hps : g.parents l with
  | nil => exact absurd hps hparents
  | cons p ps => simp [print, new, hps, Text.lines, Line.render, String.append_assoc]

private theorem print_named (h : Awaits g pending printed) (hl : l.id ∉ pending) (text : String) :
    g.print m ⟨printed, (l, d) :: rest, text⟩ =
      some ⟨printed, rest, text ++ Text.lines [Line.render m ⟨l, d, g.passed l⟩]⟩ := by
  by_cases hp : l.id ∈ printed
  · simp [print, hp, passed_of_parents (h.parents_ne l hp), Text.lines, Line.render,
      String.append_assoc]
  · have none : g.parents l = [] := by
      by_contra hparents
      exact hl ((h.pending_iff l).2 ⟨hparents, hp⟩)
    simp [print, hp, none, passed_of_no_parents none, Text.lines, Line.render, String.append_assoc]

end Awaits

/-- The loop ends, with the lines of the stack written behind the text so far. -/
theorem Lists.eval_print (h : Lists g pending stack lines) (hp : Awaits g pending printed)
    (text : String) :
    ∃ printed', ⟨printed', [], text ++ Text.lines (lines.map (Line.render m))⟩ ∈
      eval (g.print m) ⟨printed, stack, text⟩ := by
  induction h generalizing printed text with
  | done =>
    have nothing : text ++ Text.lines (([] : List Line).map (Line.render m)) = text := by
      simp [Text.lines]
    rw [nothing]
    exact ⟨printed, mem_eval.2 ⟨.refl, rfl⟩⟩
  | opened hl _ ih =>
    rw [eval_turn (hp.print_opened hl text)]
    obtain ⟨printed', ended⟩ := ih (hp.opened hl) (text ++ Text.lines [Line.render m ⟨_, _, _⟩])
    exact ⟨printed', by simpa [Text.lines, String.append_assoc] using ended⟩
  | named hl _ ih =>
    rw [eval_turn (hp.print_named hl text)]
    obtain ⟨printed', ended⟩ := ih hp (text ++ Text.lines [Line.render m ⟨_, _, _⟩])
    exact ⟨printed', by simpa [Text.lines, String.append_assoc] using ended⟩

theorem eval_print (g : Graph) (m : Marks) :
    ∃ printed, ⟨printed, [], g.render m⟩ ∈ eval (g.print m) ⟨[], g.sinks.map (·, 0), ""⟩ := by
  have ended := (lists_tree g).eval_print (m := m) (awaits_start g) ""
  rwa [String.empty_append] at ended

/-- If the written forms of the locations have no line breaks, nor has that of a line. -/
private theorem Lists.not_mem_render (h : Lists g pending stack lines)
    (hm : ∀ x ∈ lines, '\n' ∉ (m.location x.location).toList) :
    ∀ s ∈ lines.map (Line.render m), '\n' ∉ s.toList := by
  intro s hs
  obtain ⟨x, hx, rfl⟩ := List.mem_map.1 hs
  have indent : '\n' ∉ (Text.indent x.depth).toList := by
    intro hc
    exact absurd (Text.eq_of_mem_indent hc) (by decide)
  have remark : '\n' ∉ x.remark.toList := by
    rcases h.remark x hx with opened | passed
    · rw [opened]
      decide
    · rw [passed, Graph.passed]
      split <;> decide
  simpa [Line.render, indent, remark] using hm x hx

end Printing

/-! The whole tree. -/

section Tree

private theorem sinks_tree (g : Graph) : (g.tree.filter (·.depth = 0)).map (·.location) = g.sinks := by
  rw [(lists_tree g).filter_depth (by simp)]
  simp [List.filter_map, Function.comp_def]

/-- If a location with parents has a line, its parents are listed. -/
theorem exists_opening (hl : g.parents l ≠ []) (there : ∃ x ∈ g.tree, x.location.id = l.id) :
    ∃ k ∈ openings g.tree, k.id = l.id := by
  obtain ⟨n, remarks⟩ := (lists_tree g).remarks_of_pending (mem_children_iff.2 hl) there
  have first : " depends on" ∈ (g.tree.filter (·.location.id = l.id)).map (·.remark) := by
    rw [remarks]
    exact List.mem_cons_self
  obtain ⟨x, hx, opened⟩ := List.mem_map.1 first
  obtain ⟨hx, hi⟩ := List.mem_filter.1 hx
  exact ⟨x.location, mem_openings.2 ⟨x, hx, opened, rfl⟩, by simpa using hi⟩

theorem mem_parents {e : Edge} (he : e ∈ g.edges) (hi : e.child.id = l.id) :
    e.parent ∈ g.parents l :=
  List.mem_map_of_mem (List.mem_filter.2 ⟨he, by simpa using hi⟩)

/-- A location has a line if and only if it is a sink or behind one: the locations listed are closed
under going to parents. -/
theorem exists_line_iff {i : Nat} : (∃ x ∈ g.tree, x.location.id = i) ↔ g.Reached i := by
  have perm := (lists_tree g).perm
  constructor
  · rintro ⟨x, hx, rfl⟩
    refine (lists_tree g).reached (fun t ht => ?_) x hx
    obtain ⟨s, hs, rfl⟩ := List.mem_map.1 ht
    exact .sink ⟨s, hs, rfl⟩
  · rintro ⟨j, ⟨s, hs, rfl⟩, way⟩
    induction way with
    | refl =>
      have listed : s ∈ g.tree.map (·.location) := by
        refine perm.mem_iff.2 (List.mem_append_left _ ?_)
        simpa using hs
      obtain ⟨x, hx, rfl⟩ := List.mem_map.1 listed
      exact ⟨x, hx, rfl⟩
    | tail _ edge ih =>
      obtain ⟨e, he, rfl, rfl⟩ := edge
      have some : g.parents e.child ≠ [] := List.ne_nil_of_mem (mem_parents he rfl)
      obtain ⟨k, hk, hi⟩ := exists_opening some ih
      have listed : e.parent ∈ g.tree.map (·.location) := by
        refine perm.mem_iff.2 (List.mem_append_right _ ?_)
        exact List.mem_flatMap.2 ⟨k, hk, mem_parents he hi.symm⟩
      obtain ⟨x, hx, hp⟩ := List.mem_map.1 listed
      exact ⟨x, hx, by rw [hp]⟩

private theorem child_mem_openings_iff {e : Edge} (he : e ∈ g.edges) :
    e.child.id ∈ (openings g.tree).map (·.id) ↔ g.Reached e.child.id := by
  rw [← exists_line_iff, List.mem_map]
  constructor
  · rintro ⟨k, hk, hi⟩
    obtain ⟨x, hx, _, rfl⟩ := mem_openings.1 hk
    exact ⟨x, hx, hi⟩
  · exact exists_opening (List.ne_nil_of_mem (mem_parents he rfl))

open Classical in
/-- One line for every sink and one for every edge behind the sinks. -/
theorem tree_perm (g : Graph) :
    (g.tree.map (·.location)).Perm
      (g.sinks ++ (g.edges.filter (g.Reached ·.child.id)).map (·.parent)) := by
  have perm := (lists_tree g).perm
  have parents := flatMap_parents_perm (g := g) (lists_tree g).nodup_openings
  have edges : g.edges.filter (·.child.id ∈ (openings g.tree).map (·.id)) =
      g.edges.filter (g.Reached ·.child.id) :=
    List.filter_congr fun e he => by simp only [child_mem_openings_iff he]
  rw [edges] at parents
  have sinks : (g.sinks.map (·, 0)).map (·.1) = g.sinks := by simp [Function.comp_def]
  rw [sinks] at perm
  exact perm.trans (parents.append_left g.sinks)

private theorem remarks_tree (hl : g.Reached l.id) (hp : g.parents l ≠ []) :
    ∃ n, (g.tree.filter (·.location.id = l.id)).map (·.remark) =
      " depends on" :: List.replicate n " (printed)" := by
  rw [← passed_of_parents hp]
  exact (lists_tree g).remarks_of_pending (mem_children_iff.2 hp) (exists_line_iff.2 hl)

private theorem remark_of_no_parents {x : Line} (hx : x ∈ g.tree) (hp : g.parents x.location = []) :
    x.remark = "" := by
  rw [← passed_of_no_parents hp]
  exact (lists_tree g).remark_of_not_pending (fun h => mem_children_iff.1 h hp) x hx rfl

private theorem beneath_tree {before behind : List Line} {x : Line} (h : g.tree = before ++ x :: behind) :
    (beneath x.depth behind).map (·.location) =
      if x.remark = " depends on" then g.parents x.location else [] := by
  refine (lists_tree g).beneath_eq ?_ h
  exact List.pairwise_map.2 (List.pairwise_of_forall fun _ _ => Nat.le_refl _)

/-- An edge behind the sinks is shown once, beneath the line where its child is opened. -/
private theorem Simple.shown_once (h : g.Simple) {e : Edge} (he : e ∈ g.edges)
    (reached : g.Reached e.child.id) :
    ∃ before x behind, g.tree = before ++ x :: behind ∧ x.location.id = e.child.id ∧
      x.remark = " depends on" ∧
      (beneath x.depth behind).countP (·.location.id = e.parent.id) = 1 := by
  obtain ⟨k, hk, hi⟩ := List.mem_map.1 ((child_mem_openings_iff he).2 reached)
  obtain ⟨x, hx, opened, rfl⟩ := mem_openings.1 hk
  obtain ⟨before, behind, split⟩ := List.append_of_mem hx
  refine ⟨before, x, behind, split, hi, opened, ?_⟩
  have parents := beneath_tree split
  rw [if_pos opened] at parents
  have once := h.countP_parents he hi
  rw [← parents, List.countP_map] at once
  exact once

end Tree

open Classical in
/-- After any operations, printing the graph comes to an end with the lines of its tree; unless the
name of a location breaks a line, splitting the text gives them back. There is one line for every
sink and one for every edge that starts at a sink or behind one, so these are the locations that are
printed; at depth zero are the sinks, in their order. A location with parents is opened on its first
line and named as printed on all others. Beneath a line that opens a location, and beneath no other,
stand its parents, one level deeper, in the order of the edges to them, before any line that is not
deeper; and edges are only ever added behind those there are. So every edge behind the sinks is shown
once. -/
theorem edges_shown_once (cs : List Change) (m : Marks) :
    let g := after cs
    (∃ printed, ⟨printed, [], g.render m⟩ ∈ eval (g.print m) ⟨[], g.sinks.map (·, 0), ""⟩) ∧
    g.render m = Text.lines (g.tree.map (Line.render m)) ∧
    ((∀ x ∈ g.tree, '\n' ∉ (m.location x.location).toList) →
      (g.render m).toList.splitOn '\n' = g.tree.map (fun x => (x.render m).toList) ++ [[]]) ∧
    (g.tree.map (·.location)).Perm
      (g.sinks ++ (g.edges.filter (g.Reached ·.child.id)).map (·.parent)) ∧
    g.tree.length = g.sinks.length + g.edges.countP (g.Reached ·.child.id) ∧
    (g.tree.filter (·.depth = 0)).map (·.location) = g.sinks ∧
    (∀ i, (∃ x ∈ g.tree, x.location.id = i) ↔ g.Reached i) ∧
    (∀ l, g.Reached l.id → g.parents l ≠ [] →
      ∃ n, (g.tree.filter (·.location.id = l.id)).map (·.remark) =
        " depends on" :: List.replicate n " (printed)") ∧
    (∀ x ∈ g.tree, g.parents x.location = [] → x.remark = "") ∧
    (∀ before x behind, g.tree = before ++ x :: behind →
      (beneath x.depth behind).map (·.location) =
        if x.remark = " depends on" then
          (g.edges.filter (·.child.id == x.location.id)).map (·.parent)
        else []) ∧
    (∀ c, g.edges <+: (g.change c).edges) ∧
    ∀ e ∈ g.edges, g.Reached e.child.id →
      ∃ before x behind, g.tree = before ++ x :: behind ∧ x.location.id = e.child.id ∧
        x.remark = " depends on" ∧
        (beneath x.depth behind).countP (·.location.id = e.parent.id) = 1 := by
  intro g
  have simple : g.Simple := simple_after cs
  refine ⟨eval_print g m, rfl, fun plain => ?_, tree_perm g, ?_, sinks_tree g,
    fun i => exists_line_iff, fun l => remarks_tree, fun x => remark_of_no_parents,
    fun before x behind => beneath_tree, fun c => (simple.toLeveled.continues_change c).edges,
    fun e he => simple.shown_once he⟩
  · have split := Text.splitOn_lines ((lists_tree g).not_mem_render plain)
    rwa [List.map_map] at split
  · have length := (tree_perm g).length_eq
    simpa [List.countP_eq_length_filter] using length

end Support.Graph

end PathSlice
