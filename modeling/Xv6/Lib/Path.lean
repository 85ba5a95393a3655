import Mathlib.Dynamics.PeriodicPts.Defs
import Mathlib.Data.List.Basic

/-!
# Paths and Rings of Pointers

Lists of nodes linked in one direction, and walks along them.

`Path next p xs q` says that following `next` from `p` one comes through the nodes of
`xs`, in this order, and then to `q`. A ring is a path from a node to itself. Surgery
on a ring happens at one node `p`: the ring is cut into what comes before `p` and what
comes after, and `Path.splice` puts something else after it.

A loop that follows the pointers of a ring from any node comes to every other one,
which `Path.reach` states with a bound on the number of steps.

## Main definitions

* `Path`: Nodes one after the other.

## Theorems

* `Path.iterate_node`: Following pointers, one stays on a ring.
* `Path.reach`: Every node of a ring can be reached from every other one.
* `Path.covers`: A walk around a ring meets every node.
-/

namespace Xv6

open Function

variable {α : Type}

/-- Following `next` from `p`, one comes through `xs` to `q`. -/
def Path (next : α → α) : α → List α → α → Prop
  | p, [], q => next p = q
  | p, x :: xs, q => next p = x ∧ Path next x xs q

theorem path_append (next : α → α) (p q y : α) (xs ys : List α) :
    Path next p (xs ++ y :: ys) q ↔ Path next p xs y ∧ Path next y ys q := by
  induction xs generalizing p with
  | nil => exact Iff.rfl
  | cons x xs ih =>
    change next p = x ∧ Path next x (xs ++ y :: ys) q ↔
      (next p = x ∧ Path next x xs y) ∧ Path next y ys q
    rw [ih x, and_assoc]

namespace Path

variable {next next' : α → α} {p q : α} {xs : List α}

theorem restart (h : Path next p xs q) {p' : α} (hp : next' p' = next p)
    (hxs : ∀ x ∈ xs, next' x = next x) : Path next' p' xs q := by
  induction xs generalizing p p' with
  | nil => exact hp.trans h
  | cons x xs ih =>
    exact ⟨hp.trans h.1, ih h.2 (hxs x List.mem_cons_self)
      (fun y hy => hxs y (List.mem_cons_of_mem x hy))⟩

theorem congr (h : Path next p xs q) (hp : ∀ x ∈ p :: xs, next' x = next x) : Path next' p xs q :=
  h.restart (hp p List.mem_cons_self) (fun x hx => hp x (List.mem_cons_of_mem p hx))

theorem next_eq (h : Path next p xs q) : next p = xs.head?.getD q := by
  cases xs with
  | nil => exact h
  | cons x xs => exact h.1

theorem after {b : α} (h : Path next b xs b) {w r : List α} (hs : b :: xs = w ++ p :: r) :
    Path next p r b := by
  cases w with
  | nil =>
    rw [List.nil_append, List.cons.injEq] at hs
    rw [← hs.1, ← hs.2]
    exact h
  | cons c w =>
    rw [List.cons_append, List.cons.injEq] at hs
    rw [hs.2] at h
    exact ((path_append next b b p w r).mp h).2

theorem splice {b : α} (h : Path next b xs b) {w r : List α} (hs : b :: xs = w ++ p :: r)
    (hw : ∀ z ∈ w, next' z = next z) {r' : List α} (hr : Path next' p r' b) :
    ∃ xs', b :: xs' = w ++ p :: r' ∧ Path next' b xs' b := by
  cases w with
  | nil =>
    rw [List.nil_append, List.cons.injEq] at hs
    refine ⟨r', by rw [hs.1, List.nil_append], ?_⟩
    rw [← hs.1] at hr
    exact hr
  | cons c w =>
    rw [List.cons_append, List.cons.injEq] at hs
    rw [hs.2, path_append] at h
    refine ⟨w ++ p :: r', by rw [hs.1, List.cons_append], ?_⟩
    refine (path_append next' b b p w r').mpr ⟨h.1.congr (fun z hz => hw z ?_), hr⟩
    rw [← hs.1]
    exact hz

/-- Following pointers, one stays on a ring. -/
theorem iterate_node {b x : α} (h : Path next b xs b) (hx : x ∈ b :: xs) (k : Nat) :
    next^[k] x ∈ b :: xs := by
  induction k with
  | zero => exact hx
  | succ k ih =>
    rw [iterate_succ_apply']
    rcases List.append_of_mem ih with ⟨u, v, hs⟩
    rw [(h.after hs).next_eq]
    cases v with
    | nil => exact List.mem_cons_self
    | cons y v =>
      rw [hs]
      exact List.mem_append_right _ (List.mem_cons_of_mem _ List.mem_cons_self)

theorem iterate_last (h : Path next p xs q) : next^[xs.length + 1] p = q := by
  induction xs generalizing p with
  | nil => exact h
  | cons x xs ih =>
    rw [List.length_cons, iterate_succ_apply, h.1]
    exact ih h.2

theorem iterate_mem (h : Path next p xs q) {y : α} (hy : y ∈ xs) :
    ∃ k, k < xs.length ∧ next^[k + 1] p = y := by
  induction xs generalizing p with
  | nil => exact nomatch hy
  | cons x xs ih =>
    rcases List.mem_cons.mp hy with rfl | hy
    · exact ⟨0, Nat.zero_lt_succ _, h.1⟩
    · rcases ih h.2 hy with ⟨k, hk, he⟩
      refine ⟨k + 1, Nat.succ_lt_succ hk, ?_⟩
      rw [iterate_succ_apply, h.1]
      exact he

theorem reach {b x y : α} (h : Path next b xs b) (hx : x ∈ b :: xs) (hy : y ∈ b :: xs) :
    ∃ k, k < 2 * xs.length + 2 ∧ next^[k + 1] x = y := by
  -- From the head to `y`.
  have hfrom : ∃ k, k < xs.length + 1 ∧ next^[k + 1] b = y := by
    rcases List.mem_cons.mp hy with rfl | hy
    · exact ⟨xs.length, Nat.lt_succ_self _, h.iterate_last⟩
    · rcases h.iterate_mem hy with ⟨k, hk, he⟩
      exact ⟨k, Nat.lt_succ_of_lt hk, he⟩
  rcases hfrom with ⟨k, hk, he⟩
  rcases List.mem_cons.mp hx with rfl | hx
  · exact ⟨k, by omega, he⟩
  -- From `x` on to the head, and then as before.
  · rcases List.append_of_mem hx with ⟨u, v, rfl⟩
    have hlast := ((path_append next b b x u v).mp h).2.iterate_last
    refine ⟨k + 1 + v.length, ?_, ?_⟩
    · rw [List.length_append, List.length_cons] at hk ⊢
      omega
    · rw [Nat.add_assoc (k + 1), iterate_add_apply, hlast]
      exact he

/-- A walk from a node of a ring back to it meets every node. -/
theorem covers {b x y : α} (h : Path next b xs b) (hx : x ∈ b :: xs) (hy : y ∈ b :: xs) {n : Nat}
    (hn : next^[n + 1] x = x) : ∃ k, k ≤ n ∧ next^[k + 1] x = y := by
  rcases h.reach hx hy with ⟨k, -, he⟩
  have hp : Function.IsPeriodicPt next (n + 1) x := hn
  have hmod := hp.iterate_mod_apply (k + 1)
  rw [he] at hmod
  have hlt := Nat.mod_lt (k + 1) (Nat.succ_pos n)
  cases hm : (k + 1) % (n + 1) with
  | zero =>
    rw [hm] at hmod
    exact ⟨n, Nat.le_refl n, hn.trans hmod⟩
  | succ m =>
    rw [hm] at hmod hlt
    exact ⟨m, by omega, hmod⟩

end Path

end Xv6
