import Xv6.Lib.Prog
import Mathlib.Algebra.Order.BigOperators.Group.Finset

/-!
# Pools of Programs

Programs that run interleaved on one state, and what each of them knows.

A pool has a state and, for each thread, the rest of its program if it has one.
Any thread may take the next step, and a thread without a program may be given
one.

What holds in every interleaving is proved program by program. Each thread has
a view, a record of what it owns and of what it knows; the views of all threads
and the state are tied together by an invariant. `Local` says for each command
when a view permits it and what the view is after each answer, and `lwp` carries
this through a program. Only that `Local` keeps the invariant has to do with the
other threads, and this is one lemma per command.

## Main definitions

* `Pool`, `Pool.step`: Threads over a state, and the next step of one.
* `lwp`: The weakest precondition of a program on its view.
* `Discipline`: What makes local reasoning sound.

## Theorems

* `Discipline.runs_sound`: Every run of the pool.
* `unique_update`: What identifies its thread still does.
* `sum_update`: A sum over threads when one of them changes.
-/

namespace Xv6

open Function

/-- What can happen next in a pool: a thread starts a job, or goes on. -/
inductive PoolEvent (P J : Type) where
  | start (p : P) (j : J)
  | step (p : P)

/-- A state, and for each thread the rest of its program. -/
structure Pool (C : Type) (R : C → Type) (α σ P : Type) where
  state : σ
  thread : P → Option (Prog C R α)

namespace Pool

variable {C : Type} {R : C → Type} {α ε σ P J : Type} [DecidableEq P]

/-- One step. A thread that has returned is free again after one more step. -/
def step (exec : (c : C) → σ → Outcome ε (R c × σ)) (ready : σ → P → Bool)
    (prog : P → J → Prog C R α) (x : Pool C R α σ P) :
    PoolEvent P J → Outcome ε (Pool C R α σ P)
  | .start p j =>
    if (x.thread p).isNone ∧ ready x.state p then
      .done { x with thread := update x.thread p (some (prog p j)) }
    else .wait
  | .step p =>
    match x.thread p with
    | none => .wait
    | some (.ret _) => .done { x with thread := update x.thread p none }
    | some (.act c k) => do
      let r ← exec c x.state
      return { state := r.2, thread := update x.thread p (some (k r.1)) }

/-- No thread has anything to do. -/
def Idle (x : Pool C R α σ P) : Prop := ∀ p, x.thread p = none

end Pool

section Local

variable {C : Type} {R : C → Type} {α β V : Type}
  (Local : (c : C) → V → (R c → V → Prop) → Prop)

/-- The weakest precondition of a program on the view of its thread. -/
def lwp : Prog C R α → (α → V → Prop) → V → Prop
  | .ret a, Q, v => Q a v
  | .act c k, Q, v => Local c v (fun r v' => lwp (k r) Q v')

theorem lwp_bind (x : Prog C R α) (f : α → Prog C R β) (Q : β → V → Prop) (v : V) :
    lwp Local (x >>= f) Q v ↔ lwp Local x (fun a v' => lwp Local (f a) Q v') v := by
  induction x generalizing v with
  | ret a => exact Iff.rfl
  | act c k ih =>
    change Local c v (fun r v' => lwp Local (k r >>= f) Q v') ↔
      Local c v (fun r v' => lwp Local (k r) (fun a v' => lwp Local (f a) Q v') v')
    have hpost : (fun r v' => lwp Local (k r >>= f) Q v') =
        (fun r v' => lwp Local (k r) (fun a v' => lwp Local (f a) Q v') v') := by
      funext r v'
      exact propext (ih r v')
    rw [hpost]

variable {Local}

theorem lwp_ite {a : Prop} {_ : Decidable a} {x y : Prog C R α} {Q : α → V → Prop} {v : V}
    (hx : a → lwp Local x Q v) (hy : ¬a → lwp Local y Q v) :
    lwp Local (if a then x else y) Q v := by
  by_cases h : a
  · rw [if_pos h]
    exact hx h
  · rw [if_neg h]
    exact hy h

theorem lwp_mono (hmono : ∀ c v post post', Local c v post → (∀ r v', post r v' → post' r v') →
      Local c v post') {x : Prog C R α} {Q Q' : α → V → Prop} {v : V} (h : lwp Local x Q v)
    (hQ : ∀ a v', Q a v' → Q' a v') : lwp Local x Q' v := by
  induction x generalizing v with
  | ret a => exact hQ a v h
  | act c k ih => exact hmono c v _ _ h (fun r v' h' => ih r h')

end Local

section Sound

variable {C : Type} {R : C → Type} {α ε σ P V : Type} [DecidableEq P]

/-- What makes local reasoning sound: a command that the view of its thread
    permits keeps the invariant, with a view it allows, and does not end in a
    panic of `Bad`. -/
structure Discipline (exec : (c : C) → σ → Outcome ε (R c × σ))
    (Local : P → (c : C) → V → (R c → V → Prop) → Prop) (Inv : σ → (P → V) → Prop)
    (Bad : ε → Prop) : Prop where
  act : ∀ s W p c post, Inv s W → Local p c (W p) post →
    Outcome.Meets (fun e => ¬Bad e)
      (fun r => ∃ v, post r.1 v ∧ Inv r.2 (update W p v)) (exec c s)

variable {exec : (c : C) → σ → Outcome ε (R c × σ)}
  {Local : P → (c : C) → V → (R c → V → Prop) → Prop} {Inv : σ → (P → V) → Prop} {Bad : ε → Prop}

variable {J : Type} (ready : σ → P → Bool) (prog : P → J → Prog C R α) (idle : V)
  (Final : P → V → Prop)

/-- The invariant of a pool: the views are those of its threads. A thread
    without a program has the idle view, and any other can go on from its own. -/
def PoolOk (Local : P → (c : C) → V → (R c → V → Prop) → Prop) (Inv : σ → (P → V) → Prop)
    (x : Pool C R α σ P) : Prop :=
  ∃ W, Inv x.state W ∧ ∀ p, match x.thread p with
    | none => W p = idle
    | some y => lwp (Local p) y (fun _ v => Final p v) (W p)

omit [DecidableEq P] in
/-- In an idle pool every view is the idle one. -/
theorem PoolOk.all_idle {x : Pool C R α σ P} (h : PoolOk idle Final Local Inv x) (hx : x.Idle) :
    Inv x.state (fun _ => idle) := by
  rcases h with ⟨W, hI, hW⟩
  have hall : W = fun _ => idle := by
    funext p
    have hp := hW p
    rw [hx p] at hp
    exact hp
  rw [← hall]
  exact hI

/-- A step of the pool keeps its invariant and is not a bad panic. -/
theorem Discipline.step_sound (h : Discipline exec Local Inv Bad)
    (hstart : ∀ s W p j, Inv s W → W p = idle → ready s p = true →
      ∃ v, lwp (Local p) (prog p j) (fun _ v => Final p v) v ∧ Inv s (update W p v))
    (hend : ∀ s W p, Inv s W → Final p (W p) → Inv s (update W p idle))
    (x : Pool C R α σ P) (hx : PoolOk idle Final Local Inv x) (e : PoolEvent P J) :
    Outcome.Meets (fun e => ¬Bad e) (PoolOk idle Final Local Inv)
      (Pool.step exec ready prog x e) := by
  rcases hx with ⟨W, hI, hW⟩
  -- The threads other than the one that moved are as they were.
  have hother : ∀ (p : P) (v : V) (t : Option (Prog C R α)),
      (match t with
        | none => v = idle
        | some y => lwp (Local p) y (fun _ v => Final p v) v) →
      ∀ q, match update x.thread p t q with
        | none => update W p v q = idle
        | some y => lwp (Local q) y (fun _ v => Final q v) (update W p v q) := by
    intro p v t ht q
    by_cases hq : q = p
    · rw [hq, update_self, update_self]
      exact ht
    · rw [update_of_ne hq, update_of_ne hq]
      exact hW q
  cases e with
  | start p j =>
    unfold Pool.step
    by_cases hc : (x.thread p).isNone = true ∧ ready x.state p = true
    · have hp := hW p
      rw [Option.isNone_iff_eq_none.mp hc.1] at hp
      rcases hstart x.state W p j hI hp hc.2 with ⟨v, hv, hI'⟩
      simp only [if_pos hc]
      exact ⟨update W p v, hI', hother p v (some (prog p j)) hv⟩
    · simp only [if_neg hc]
      trivial
  | step p =>
    have hp := hW p
    cases ht : x.thread p with
    | none =>
      simp only [Pool.step, ht]
      trivial
    | some y =>
      rw [ht] at hp
      cases y with
      | ret a =>
        simp only [Pool.step, ht]
        exact ⟨update W p idle, hend x.state W p hI hp, hother p idle none rfl⟩
      | act c k =>
        simp only [Pool.step, ht]
        rw [Outcome.meets_bind]
        refine Outcome.meets_mono (h.act x.state W p c _ hI hp) ?_
        rintro ⟨r, s'⟩ ⟨v, hv, hI'⟩
        exact ⟨update W p v, hI', hother p v (some (k r)) hv⟩

/-- Every run of the pool keeps its invariant, and the step after it is not a
    bad panic. -/
theorem Discipline.runs_sound (h : Discipline exec Local Inv Bad)
    (hstart : ∀ s W p j, Inv s W → W p = idle → ready s p = true →
      ∃ v, lwp (Local p) (prog p j) (fun _ v => Final p v) v ∧ Inv s (update W p v))
    (hend : ∀ s W p, Inv s W → Final p (W p) → Inv s (update W p idle))
    (x y : Pool C R α σ P) (hx : PoolOk idle Final Local Inv x) (es : List (PoolEvent P J))
    (hy : runs (Pool.step exec ready prog) es x = .done y) :
    PoolOk idle Final Local Inv y ∧
      ∀ e m, Pool.step exec ready prog y e = .panic m → ¬Bad m := by
  have hstep := h.step_sound ready prog idle Final hstart hend
  have hok : PoolOk idle Final Local Inv y := by
    refine runs_invariant _ _ (fun x e z hx hz => ?_) es x y hx hy
    have hm := hstep x hx e
    rw [hz] at hm
    exact hm
  refine ⟨hok, fun e m hm => ?_⟩
  have hlast := hstep y hok e
  rw [hm] at hlast
  exact hlast

end Sound

theorem update_proj {P V β : Type} [DecidableEq P] {W : P → V} {p : P} {v : V} (g : V → β)
    (h : g v = g (W p)) (q : P) : g (update W p v q) = g (W q) := by
  by_cases hq : q = p
  · rw [hq, update_self, h]
  · rw [update_of_ne hq]

theorem unique_update {P V : Type} [DecidableEq P] {W : P → V} {R : V → V → Prop}
    (hsymm : ∀ u v, R u v → R v u) (h : ∀ p q, R (W p) (W q) → p = q) {p : P} {v : V}
    (hv : ∀ q, q ≠ p → ¬R v (W q)) (q r : P) (hR : R (update W p v q) (update W p v r)) :
    q = r := by
  by_cases hq : q = p
  · by_cases hr : r = p
    · rw [hq, hr]
    · rw [hq, update_self, update_of_ne hr] at hR
      exact absurd hR (hv r hr)
  · rw [update_of_ne hq] at hR
    by_cases hr : r = p
    · rw [hr, update_self] at hR
      exact absurd (hsymm _ _ hR) (hv q hq)
    · rw [update_of_ne hr] at hR
      exact h q r hR

section Sums

variable {P V : Type} [Fintype P]

theorem le_sum (g : P → Nat) (p : P) : g p ≤ ∑ q, g q :=
  Finset.single_le_sum (fun q _ => Nat.zero_le (g q)) (Finset.mem_univ p)

variable [DecidableEq P]

/-- A sum over all threads when the view of one of them changes. -/
theorem sum_update (g : P → V → Nat) (W : P → V) (p : P) (v : V) :
    ∑ q, g q (update W p v q) + g p (W p) = ∑ q, g q (W q) + g p v := by
  rw [← Finset.add_sum_erase _ _ (Finset.mem_univ p),
    ← Finset.add_sum_erase (f := fun q => g q (W q)) _ (Finset.mem_univ p),
    update_self]
  have hrest : ∑ q ∈ Finset.univ.erase p, g q (update W p v q) =
      ∑ q ∈ Finset.univ.erase p, g q (W q) := by
    refine Finset.sum_congr rfl (fun q hq => ?_)
    rw [update_of_ne (Finset.ne_of_mem_erase hq)]
  rw [hrest]
  omega

theorem add_le_sum (g : P → Nat) {p q : P} (hpq : p ≠ q) : g p + g q ≤ ∑ r, g r := by
  rw [← Finset.add_sum_erase _ _ (Finset.mem_univ p)]
  have hq : q ∈ Finset.univ.erase p := Finset.mem_erase.mpr ⟨fun h => hpq h.symm, Finset.mem_univ q⟩
  exact Nat.add_le_add_left (Finset.single_le_sum (fun r _ => Nat.zero_le (g r)) hq) _

end Sums

end Xv6
