import Xv6.Param
import Xv6.Lib.Slots

/-!
# The Descriptors of primes

What the processes of `user/primes.c` have open. Each stage of the sieve is a process that
its predecessor forks, so it is born with all that was open there.

A stage reads from the pipe on its left, and exits if it reads -1. Otherwise it makes a
pipe to the right and forks the next stage, which closes `pipefd[0]` of its parent and
goes on with `pipeRight`. It does not close `pipeRight[1]`, the write end of the pipe it
reads from. So each stage has one descriptor more than the one before it.

The number of slots of a table is a parameter; it is `NOFILE` in the kernel. Stages are
counted from 0.

## Main definitions

* `pipe`: `sys_pipe`, as far as descriptors go.
* `Stage`: A process that calls `grepNumber`.
* `main`, `grepNumber`: From one process to the next.
* `stage`: A stage of the chain, if it is reached.
* `points`: The descriptors of a stage at each point of its run.

## Theorems

* `opened_stage`: A stage has one descriptor more than the one before.
* `stages_accumulate`: How many a stage has, and which stages are reached.
-/

namespace Xv6.Primes

open Slots

/-- What a descriptor stands for; pipes are numbered. -/
inductive End where
  | console
  | read (pipe : Nat)
  | write (pipe : Nat)
  deriving DecidableEq, Repr

/-- `pipe(fd)`: the table, `fd[0]` and `fd[1]`. -/
def pipe (n : Nat) (t : Slots End) (k : Nat) : Option (Slots End × Nat × Nat) :=
  (insert n t (.read k)).bind (fun (r, t) => (insert n t (.write k)).map (fun (w, t) => (t, r, w)))

/-- A process that calls `grepNumber`: its descriptors after `fork` and after the `close`
    before the call, and `pipefd[0]`. -/
structure Stage where
  born : Slots End
  fds : Slots End
  left : Nat

/-- The descriptors 0, 1 and 2 of a program the shell runs. -/
def standard : Slots End := fun i => if i < 3 then some .console else none

/-- `main` up to the call of `grepNumber` in the child. -/
def main (n : Nat) : Option Stage :=
  (pipe n standard 0).map (fun (t, r, w) => { born := t, fds := remove t w, left := r })

/-- `grepNumber` up to the call of `grepNumber` in the child. -/
def grepNumber (n k : Nat) (s : Stage) : Option Stage :=
  (pipe n s.fds k).map (fun (t, r, _) => { born := t, fds := remove t s.left, left := r })

def stage (n : Nat) : Nat → Option Stage
  | 0 => main n
  | k + 1 => (stage n k).bind (grepNumber n (k + 1))

/-- The descriptors of the process of a stage that reads `number`: after `fork`, at the call
    of `grepNumber`, and, if it goes on and `pipe` succeeds, after `pipe` and after each
    `close` of the parent's branch. -/
def points (n k : Nat) (s : Stage) (number : Int) : List (Slots End) :=
  s.born :: s.fds ::
    if number = -1 then []
    else match pipe n s.fds (k + 1) with
      | none => []
      | some (t, r, w) => [t, remove t r, remove (remove t r) w]

section Table

variable {n : Nat} {t : Slots End}

theorem pipe_eq_some {k r w : Nat} {t' : Slots End} (h : pipe n t k = some (t', r, w)) :
    opened n t' = opened n t + 2 ∧ r ∈ used n t' ∧ w ∈ used n t' ∧ r ≠ w ∧ r ∉ used n t ∧
      used n t ⊆ used n t' := by
  rcases Option.bind_eq_some_iff.mp h with ⟨⟨r', t₁⟩, hr, h⟩
  rcases Option.map_eq_some_iff.mp h with ⟨⟨w', t₂⟩, hw, h⟩
  cases h
  rcases used_insert hr with ⟨hr', hused⟩
  rcases used_insert hw with ⟨hw', hused'⟩
  rw [hused] at hw' hused'
  have hmem : r ∈ Insert.insert r (used n t) := Finset.mem_insert_self _ _
  rw [opened, opened, hused', Finset.card_insert_of_notMem hw', Finset.card_insert_of_notMem hr']
  refine ⟨rfl, Finset.mem_insert_of_mem hmem, Finset.mem_insert_self _ _, ?_, hr', ?_⟩
  · rintro rfl
    exact hw' hmem
  · exact (Finset.subset_insert _ _).trans (Finset.subset_insert _ _)

theorem pipe_isSome_iff (k : Nat) : (pipe n t k).isSome = true ↔ opened n t + 2 ≤ n := by
  have hread := insert_isSome_iff n t (.read k)
  cases hr : insert n t (.read k) with
  | none =>
    rw [hr] at hread
    rw [pipe, hr]
    exact iff_of_false nofun (fun h => nomatch hread.mpr (by omega))
  | some p =>
    rcases used_insert hr with ⟨hr', hused⟩
    have hopen : opened n p.2 = opened n t + 1 := by
      rw [opened, hused, Finset.card_insert_of_notMem hr', opened]
    rw [pipe, hr, Option.bind_some, Option.isSome_map, insert_isSome_iff, hopen]
    omega

theorem opened_remove {i : Nat} (h : i ∈ used n t) : opened n (remove t i) + 1 = opened n t := by
  rw [opened, used_remove, Finset.card_erase_add_one h, opened]

theorem opened_child {k r w i : Nat} {t' : Slots End} (h : pipe n t k = some (t', r, w))
    (hi : i ∈ used n t') (hne : i ≠ r) :
    opened n (remove t' i) = opened n t + 1 ∧ r ∈ used n (remove t' i) := by
  rcases pipe_eq_some h with ⟨hopen, hr, -⟩
  have hremove := opened_remove hi
  refine ⟨by omega, ?_⟩
  rw [used_remove]
  exact Finset.mem_erase.mpr ⟨hne.symm, hr⟩

end Table

theorem opened_standard (n : Nat) : opened n standard = min n 3 := by
  have hused : used n standard = Finset.range (min n 3) := by
    ext i
    rw [mem_used, Finset.mem_range, lt_min_iff, standard]
    split <;> simp_all only [Option.isSome_some, Option.isSome_none, and_true, Bool.false_eq_true]
  rw [opened, hused, Finset.card_range]

/-- Each stage has one descriptor more than the one before, and reads from one of them. -/
theorem opened_stage {n k : Nat} {s : Stage} (h : stage n k = some s) :
    opened n s.born = k + 5 ∧ opened n s.fds = k + 4 ∧ s.left ∈ used n s.fds := by
  induction k generalizing s with
  | zero =>
    rcases Option.map_eq_some_iff.mp h with ⟨⟨t, r, w⟩, hp, rfl⟩
    have hroom := (pipe_isSome_iff 0).mp (Option.isSome_iff_exists.mpr ⟨_, hp⟩)
    rcases pipe_eq_some hp with ⟨hborn, -, hw, hne, -⟩
    rcases opened_child hp hw hne.symm with ⟨hopen, hleft⟩
    rw [opened_standard] at hroom hopen hborn
    exact ⟨hborn.trans (by omega), hopen.trans (by omega), hleft⟩
  | succ k ih =>
    rcases Option.bind_eq_some_iff.mp h with ⟨s₀, hs₀, h⟩
    rcases Option.map_eq_some_iff.mp h with ⟨⟨t, r, w⟩, hp, rfl⟩
    rcases ih hs₀ with ⟨-, hs, hleft₀⟩
    rcases pipe_eq_some hp with ⟨hborn, -, -, -, hr, hsub⟩
    rcases opened_child hp (hsub hleft₀) (fun h => hr (h ▸ hleft₀)) with ⟨hopen, hleft⟩
    exact ⟨hborn.trans (by omega), hopen.trans (by omega), hleft⟩

theorem stage_isSome_iff (n k : Nat) : (stage n k).isSome = true ↔ k + 5 ≤ n := by
  induction k with
  | zero =>
    rw [stage, main, Option.isSome_map, pipe_isSome_iff, opened_standard]
    omega
  | succ k ih =>
    cases hs : stage n k with
    | none =>
      rw [hs] at ih
      rw [stage, hs]
      exact iff_of_false nofun (fun h => nomatch ih.mpr (by omega))
    | some s =>
      rw [stage, hs, Option.bind_some, grepNumber, Option.isSome_map, pipe_isSome_iff,
        (opened_stage hs).2.1]

/-- For any size of the table: stage `k` is reached if there are `k + 5` slots. It is born
    with `k + 5` descriptors and calls `grepNumber` with `k + 4`, and a number bounds its
    descriptors at every point of its run exactly if it is at least `k + 5`, or `k + 6` if
    the stage goes on and its call of `pipe` succeeds. -/
theorem stages_accumulate (n k : Nat) : ((stage n k).isSome = true ↔ k + 5 ≤ n) ∧
    ∀ s, stage n k = some s → opened n s.born = k + 5 ∧ opened n s.fds = k + 4 ∧
      ∀ (number : Int) (b : Nat), (∀ t ∈ points n k s number, opened n t ≤ b) ↔
        k + (if number ≠ -1 ∧ k + 6 ≤ n then 6 else 5) ≤ b := by
  refine ⟨stage_isSome_iff n k, fun s hs => ?_⟩
  rcases opened_stage hs with ⟨hborn, hopen, -⟩
  refine ⟨hborn, hopen, fun number b => ?_⟩
  have hpipe := pipe_isSome_iff (n := n) (t := s.fds) (k + 1)
  rw [hopen] at hpipe
  -- Without a pipe of its own the stage has most when it is born.
  have hshort : (∀ t ∈ [s.born, s.fds], opened n t ≤ b) ↔ k + 5 ≤ b := by
    simp only [List.mem_cons, List.not_mem_nil, or_false, forall_eq_or_imp, forall_eq, hborn, hopen]
    omega
  rw [points]
  by_cases hend : number = -1
  · rw [if_pos hend, if_neg (fun h => h.1 hend)]
    exact hshort
  rw [if_neg hend]
  cases hp : pipe n s.fds (k + 1) with
  | none =>
    rw [hp] at hpipe
    rw [if_neg (fun h => nomatch hpipe.mpr h.2)]
    exact hshort
  | some p =>
    rcases p with ⟨t, r, w⟩
    rw [hp] at hpipe
    rcases pipe_eq_some hp with ⟨ht, hr, hw, hne, -⟩
    have hr' := opened_remove hr
    have hw' := opened_remove (n := n) (t := remove t r) (i := w)
      (by rw [used_remove]; exact Finset.mem_erase.mpr ⟨hne.symm, hw⟩)
    rw [if_pos ⟨hend, hpipe.mp rfl⟩]
    simp only [List.mem_cons, List.not_mem_nil, or_false, forall_eq_or_imp, forall_eq]
    omega

/-- The first stage has up to six descriptors, and five if there is no number for it. -/
theorem stages_accumulate_first : ∃ s, stage NOFILE 0 = some s ∧ opened NOFILE s.fds = 4 ∧
    (∀ t ∈ points NOFILE 0 s 2, opened NOFILE t ≤ 6) ∧
    ∀ t ∈ points NOFILE 0 s (-1), opened NOFILE t ≤ 5 := by
  rcases Option.isSome_iff_exists.mp ((stages_accumulate NOFILE 0).1.mpr (by decide)) with ⟨s, hs⟩
  rcases (stages_accumulate NOFILE 0).2 s hs with ⟨-, hopen, hb⟩
  exact ⟨s, hs, hopen, (hb 2 6).mpr (by decide), (hb (-1) 5).mpr (by decide)⟩

/-- The twelfth stage has fifteen, so its call of `pipe` fails. -/
theorem pipe_fails : ∃ s, stage NOFILE 11 = some s ∧ opened NOFILE s.fds = 15 ∧
    pipe NOFILE s.fds 12 = none := by
  rcases Option.isSome_iff_exists.mp ((stage_isSome_iff NOFILE 11).mpr (by decide)) with ⟨s, hs⟩
  have hopen := (opened_stage hs).2.1
  refine ⟨s, hs, hopen, Option.not_isSome_iff_eq_none.mp (fun h => ?_)⟩
  have hroom := (pipe_isSome_iff 12).mp h
  rw [hopen] at hroom
  exact nomatch hroom

end Xv6.Primes
