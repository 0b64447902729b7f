/-! Lists kept strictly ascending for a comparison, used as finite sets and as finite maps
whose entries are compared by key. `insert` keeps the entry that is there, `put` replaces it. -/
namespace PathSlice.Ascending

variable {α : Type}

/-- Adds `a` unless an element that compares equal is there already. -/
def insert (cmp : α → α → Ordering) (a : α) : List α → List α
  | [] => [a]
  | b :: l =>
    match cmp a b with
    | .lt => a :: b :: l
    | .eq => b :: l
    | .gt => b :: insert cmp a l

/-- Adds `a` in place of an element that compares equal. -/
def put (cmp : α → α → Ordering) (a : α) : List α → List α
  | [] => [a]
  | b :: l =>
    match cmp a b with
    | .lt => a :: b :: l
    | .eq => a :: l
    | .gt => b :: put cmp a l

/-- The elements of a list in ascending order; of equal ones the first is kept. -/
def ofList (cmp : α → α → Ordering) (l : List α) : List α :=
  l.foldl (fun acc a => insert cmp a acc) []

theorem mem_of_mem_insert {cmp : α → α → Ordering} {a x : α} {l : List α}
    (h : x ∈ insert cmp a l) : x = a ∨ x ∈ l := by
  induction l with
  | nil => simpa [insert] using h
  | cons b l ih =>
    simp only [insert] at h
    split at h
    · simpa using h
    · exact .inr h
    · rcases List.mem_cons.1 h with h | h
      · exact .inr (h ▸ List.mem_cons_self)
      · exact (ih h).imp id (List.mem_cons_of_mem b)

theorem mem_insert_of_mem {cmp : α → α → Ordering} {a x : α} {l : List α}
    (h : x ∈ l) : x ∈ insert cmp a l := by
  induction l with
  | nil => simp at h
  | cons b l ih =>
    simp only [insert]
    split
    · exact List.mem_cons_of_mem a h
    · exact h
    · rcases List.mem_cons.1 h with h | h
      · exact h ▸ List.mem_cons_self
      · exact List.mem_cons_of_mem b (ih h)

theorem mem_of_mem_put {cmp : α → α → Ordering} {a x : α} {l : List α}
    (h : x ∈ put cmp a l) : x = a ∨ x ∈ l := by
  induction l with
  | nil => simpa [put] using h
  | cons b l ih =>
    simp only [put] at h
    split at h
    · simpa using h
    · exact (List.mem_cons.1 h).imp id (List.mem_cons_of_mem b)
    · rcases List.mem_cons.1 h with h | h
      · exact .inr (h ▸ List.mem_cons_self)
      · exact (ih h).imp id (List.mem_cons_of_mem b)

theorem mem_put (cmp : α → α → Ordering) (a : α) (l : List α) : a ∈ put cmp a l := by
  induction l with
  | nil => simp [put]
  | cons b l ih =>
    simp only [put]
    split
    · exact List.mem_cons_self
    · exact List.mem_cons_self
    · exact List.mem_cons_of_mem b ih

end PathSlice.Ascending
