import Mathlib.Data.List.Basic

/-!
# Words

The words of a list, that is the non-empty parts between separators.

A reader that goes through the list from the left skips separators, takes what
comes up to the next one, and goes on behind it. `words_dropWhile` and
`words_cons_of_ne` say that it sees the words in order.

## Main definitions

* `words`: The non-empty parts between separators.

## Theorems

* `words_dropWhile`: Leading separators do not matter.
* `words_cons_of_ne`: The first word, and the others.
* `words_eq_nil`: A list without words has no more than separators.
-/

namespace Xv6

variable {α : Type} [DecidableEq α]

/-- The non-empty parts of a list between separators. -/
def words (sep : α) (xs : List α) : List (List α) := (xs.splitOn sep).filter (fun w => w ≠ [])

@[simp] theorem words_nil (sep : α) : words sep [] = [] := by
  simp [words, List.splitOn_nil]

@[simp] theorem words_sep_cons (sep : α) (xs : List α) : words sep (sep :: xs) = words sep xs := by
  simp [words, List.splitOn_cons_eq_if_modifyHead]

theorem words_dropWhile (sep : α) (xs : List α) :
    words sep (xs.dropWhile (fun c => c = sep)) = words sep xs := by
  induction xs with
  | nil => rfl
  | cons x xs ih =>
    by_cases hx : x = sep
    · rw [hx, List.dropWhile_cons_of_pos (by simp), words_sep_cons, ih]
    · rw [List.dropWhile_cons_of_neg (by simpa using hx)]

theorem words_cons_of_ne (sep x : α) (xs : List α) (hx : x ≠ sep) :
    words sep (x :: xs) =
      (x :: xs.takeWhile (fun c => c ≠ sep)) :: words sep (xs.dropWhile (fun c => c ≠ sep)) := by
  induction xs generalizing x with
  | nil => simp [words, List.splitOn_cons_eq_if_modifyHead, List.splitOn_nil, hx]
  | cons y ys ih =>
    by_cases hy : y = sep
    · rw [hy, List.takeWhile_cons_of_neg (by simp), List.dropWhile_cons_of_neg (by simp)]
      simp [words, List.splitOn_cons_eq_if_modifyHead, hx]
    · have hrest := ih y hy
      rw [List.takeWhile_cons_of_pos (by simpa using hy),
        List.dropWhile_cons_of_pos (by simpa using hy)]
      -- The word that starts with `y` gets one element more.
      unfold words at hrest ⊢
      rw [List.splitOn_cons_eq_if_modifyHead, if_neg (by simpa using hy)] at hrest
      rw [List.splitOn_cons_eq_if_modifyHead, if_neg (by simpa using hx),
        List.splitOn_cons_eq_if_modifyHead, if_neg (by simpa using hy)]
      cases hs : ys.splitOn sep with
      | nil =>
        rw [hs] at hrest
        simp at hrest
      | cons w ws =>
        rw [hs] at hrest
        simp only [List.modifyHead_cons, ne_eq, reduceCtorEq, not_false_eq_true, decide_true,
          List.filter_cons_of_pos, List.cons.injEq] at hrest ⊢
        exact ⟨⟨trivial, hrest.1⟩, hrest.2⟩

theorem words_eq_nil (sep : α) (xs : List α) :
    words sep xs = [] ↔ xs.dropWhile (fun c => c = sep) = [] := by
  rw [← words_dropWhile]
  cases hxs : xs.dropWhile (fun c => c = sep) with
  | nil => simp
  | cons x ys =>
    have hx : x ≠ sep := by
      intro hc
      have := List.head?_dropWhile_not (fun c => decide (c = sep)) xs
      rw [hxs] at this
      simp [hc] at this
    rw [words_cons_of_ne sep x ys hx]
    simp

end Xv6
