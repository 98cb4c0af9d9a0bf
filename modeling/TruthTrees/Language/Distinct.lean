/-!
# Lists without repetitions

Terms and instances are collected in the order in which they are first met, each of them once.
-/

namespace TruthTrees

variable {α : Type _} [DecidableEq α]

/-- Append the elements of the second list that are not there yet, each once. -/
def appendNew (xs : List α) : List α → List α
  | [] => xs
  | y :: ys => appendNew (if y ∈ xs then xs else xs ++ [y]) ys

theorem appendNew_cons_of_mem {xs : List α} {y : α} (h : y ∈ xs) (ys : List α) :
    appendNew xs (y :: ys) = appendNew xs ys := by
  simp [appendNew, h]

theorem appendNew_cons_of_not_mem {xs : List α} {y : α} (h : y ∉ xs) (ys : List α) :
    appendNew xs (y :: ys) = appendNew (xs ++ [y]) ys := by
  simp [appendNew, h]

@[simp] theorem mem_appendNew {xs ys : List α} {a : α} :
    a ∈ appendNew xs ys ↔ a ∈ xs ∨ a ∈ ys := by
  induction ys generalizing xs with
  | nil => simp [appendNew]
  | cons y ys ih =>
    by_cases h : y ∈ xs
    · rw [appendNew_cons_of_mem h, ih]
      grind
    · rw [appendNew_cons_of_not_mem h, ih]
      grind

theorem nodup_appendNew {xs ys : List α} (h : xs.Nodup) : (appendNew xs ys).Nodup := by
  induction ys generalizing xs with
  | nil => exact h
  | cons y ys ih =>
    by_cases hy : y ∈ xs
    · rw [appendNew_cons_of_mem hy]
      exact ih h
    · rw [appendNew_cons_of_not_mem hy]
      apply ih
      grind

/-- Collect the elements of a list in the order of their first occurrence. -/
def distinct (xs : List α) : List α :=
  appendNew [] xs

@[simp] theorem mem_distinct {xs : List α} {a : α} : a ∈ distinct xs ↔ a ∈ xs := by
  simp [distinct]

theorem nodup_distinct (xs : List α) : (distinct xs).Nodup :=
  nodup_appendNew List.nodup_nil

end TruthTrees
