import Mathlib.Data.List.Basic

/-! # Terminated lines

A list is cut at every occurrence of a separator. The pieces before a separator are the
terminated lines; the piece after the last separator is a line that has only begun.
Elements and separator are arbitrary. -/
namespace LineSplitting

variable {α : Type*}

def unlines (sep : α) (ls : List (List α)) : List α := ls.flatMap (· ++ [sep])

@[simp] theorem unlines_nil (sep : α) : unlines sep [] = [] := rfl
@[simp] theorem unlines_cons (sep : α) (l : List α) (ls : List (List α)) :
    unlines sep (l :: ls) = l ++ sep :: unlines sep ls := by simp [unlines]

variable [DecidableEq α]

def lines (sep : α) (xs : List α) : List (List α) := (xs.splitOn sep).dropLast

def unfinished (sep : α) (xs : List α) : List α :=
  (xs.splitOn sep).getLast (List.splitOn_ne_nil sep xs)

theorem splitOn_eq_lines (sep : α) (xs : List α) :
    xs.splitOn sep = lines sep xs ++ [unfinished sep xs] :=
  (List.dropLast_concat_getLast (List.splitOn_ne_nil sep xs)).symm

theorem lines_unique {sep : α} {xs : List α} {ls : List (List α)} {u : List α}
    (h : xs.splitOn sep = ls ++ [u]) : lines sep xs = ls ∧ unfinished sep xs = u := by
  rw [splitOn_eq_lines] at h
  obtain ⟨hl, hu⟩ := List.append_inj' h rfl
  exact ⟨hl, List.singleton_inj.mp hu⟩

theorem lines_of_not_mem {sep : α} {xs : List α} (h : sep ∉ xs) :
    lines sep xs = [] ∧ unfinished sep xs = xs :=
  lines_unique (by simpa using List.splitOn_eq_singleton h)

@[simp] theorem lines_nil (sep : α) : lines sep [] = [] := rfl
@[simp] theorem unfinished_nil (sep : α) : unfinished sep [] = [] := rfl

theorem lines_cons_sep (sep : α) (xs : List α) :
    lines sep (sep :: xs) = [] :: lines sep xs ∧
      unfinished sep (sep :: xs) = unfinished sep xs := by
  apply lines_unique
  rw [List.splitOn_cons_eq_if_modifyHead, splitOn_eq_lines]
  simp

/-- Only the line that has begun matters for how the list goes on. -/
theorem splitOn_append (sep : α) (xs ys : List α) :
    (xs ++ ys).splitOn sep = lines sep xs ++ (unfinished sep xs ++ ys).splitOn sep := by
  induction xs with
  | nil => simp
  | cons x xs ih =>
    by_cases hx : x = sep
    · subst hx
      rw [List.cons_append, List.splitOn_cons_eq_if_modifyHead, ih, (lines_cons_sep x xs).1,
        (lines_cons_sep x xs).2]
      simp
    · have hcut : (x :: xs).splitOn sep = (xs.splitOn sep).modifyHead (x :: ·) := by
        simp [List.splitOn_cons_eq_if_modifyHead, hx]
      rw [List.cons_append, List.splitOn_cons_eq_if_modifyHead, ih]
      rw [splitOn_eq_lines sep xs] at hcut
      cases hl : lines sep xs with
      | nil =>
        have hu : (x :: xs).splitOn sep = [] ++ [x :: unfinished sep xs] := by
          rw [hcut, hl]; rfl
        obtain ⟨h₁, h₂⟩ := lines_unique hu
        simp [h₁, h₂, hx, List.splitOn_cons_eq_if_modifyHead]
      | cons l ls =>
        have hu : (x :: xs).splitOn sep = ((x :: l) :: ls) ++ [unfinished sep xs] := by
          rw [hcut, hl]; rfl
        obtain ⟨h₁, h₂⟩ := lines_unique hu
        simp [h₁, h₂, hx]

theorem lines_append (sep : α) (xs ys : List α) :
    lines sep (xs ++ ys) = lines sep xs ++ lines sep (unfinished sep xs ++ ys) := by
  have h := splitOn_append sep xs ys
  rw [splitOn_eq_lines sep (unfinished sep xs ++ ys), ← List.append_assoc] at h
  exact (lines_unique h).1

theorem unfinished_append (sep : α) (xs ys : List α) :
    unfinished sep (xs ++ ys) = unfinished sep (unfinished sep xs ++ ys) := by
  have h := splitOn_append sep xs ys
  rw [splitOn_eq_lines sep (unfinished sep xs ++ ys), ← List.append_assoc] at h
  exact (lines_unique h).2

theorem lines_terminated {sep : α} {l : List α} (h : sep ∉ l) (xs : List α) :
    lines sep (l ++ sep :: xs) = l :: lines sep xs ∧
      unfinished sep (l ++ sep :: xs) = unfinished sep xs := by
  apply lines_unique
  rw [List.splitOn_append_cons_self_of_not_mem h, splitOn_eq_lines]
  rfl

theorem not_mem_splitOn {sep : α} {xs piece : List α} (h : piece ∈ xs.splitOn sep) :
    sep ∉ piece := by
  induction xs generalizing piece with
  | nil => simp_all
  | cons x xs ih =>
    rw [List.splitOn_cons_eq_if_modifyHead] at h
    by_cases hx : x = sep
    · simp only [hx, beq_self_eq_true, ↓reduceIte, List.mem_cons] at h
      rcases h with rfl | h
      · simp
      · exact ih h
    · simp only [beq_iff_eq, hx, ↓reduceIte] at h
      obtain ⟨p, ps, hp⟩ := List.exists_cons_of_ne_nil (List.splitOn_ne_nil sep xs)
      simp only [hp, List.modifyHead_cons, List.mem_cons] at h ih
      rcases h with rfl | h
      · simpa [Ne.symm hx] using ih (Or.inl rfl)
      · exact ih (Or.inr h)

theorem not_mem_unfinished (sep : α) (xs : List α) : sep ∉ unfinished sep xs :=
  not_mem_splitOn (List.getLast_mem (List.splitOn_ne_nil sep xs))

theorem lines_unlines {sep : α} {ls : List (List α)} (h : ∀ l ∈ ls, sep ∉ l) :
    lines sep (unlines sep ls) = ls ∧ unfinished sep (unlines sep ls) = [] := by
  induction ls with
  | nil => exact ⟨rfl, rfl⟩
  | cons l ls ih =>
    have hl := lines_terminated (h l List.mem_cons_self) (unlines sep ls)
    obtain ⟨h₁, h₂⟩ := ih fun k hk => h k (List.mem_cons_of_mem _ hk)
    rw [unlines_cons, hl.1, hl.2, h₁, h₂]
    exact ⟨rfl, rfl⟩

theorem unlines_lines (sep : α) (xs : List α) :
    unlines sep (lines sep xs) ++ unfinished sep xs = xs := by
  have key : ∀ (ls : List (List α)) (u : List α),
      [sep].intercalate (ls ++ [u]) = unlines sep ls ++ u := by
    intro ls u
    induction ls with
    | nil => simp
    | cons l ls ih =>
      rw [List.cons_append, List.intercalate_cons_of_ne_nil (by simp), ih]
      simp
  rw [← key, ← splitOn_eq_lines, List.intercalate_splitOn]

end LineSplitting
