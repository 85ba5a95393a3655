import Xv6.Lib.Prog

/-!
# The Commands of a Run

Which commands a program issues when it is run alone.

A postcondition speaks of the state in which a run ends, and says nothing of a
run that panics or waits. A bound on what a program uses up on its way has to
cover these runs as well: whether it panics may depend on that very bound. So
the commands of a run are listed up to the point where it ends, for whatever
reason, the last one included.

## Main definitions

* `Prog.issued`: The commands that a run issues.
* `Prog.Uses`: The commands that a program may issue, whatever the answers are.

## Theorems

* `Prog.Uses.not_wait`: A program of commands that never wait.
* `Prog.run_bind_inv`: A sequence that ends has gone through its first part.
* `Prog.issued_bind_done`, `Prog.issued_bind_stop`: The commands of a sequence.
-/

namespace Xv6.Prog

variable {C : Type} {R : C → Type} {α β : Type} {ε σ : Type}
  (exec : (c : C) → σ → Outcome ε (R c × σ))

/-- All commands in a program, on every path through it, satisfy `P`. -/
def Uses (P : C → Prop) : Prog C R α → Prop
  | ret _ => True
  | act c k => P c ∧ ∀ r, Uses P (k r)

section Uses

variable {P : C → Prop}

theorem uses_ret (a : α) : Uses P (ret a : Prog C R α) := trivial

theorem uses_call {c : C} (hc : P c) : Uses P (call c : Prog C R (R c)) :=
  ⟨hc, fun _ => trivial⟩

theorem Uses.bind {x : Prog C R α} {f : α → Prog C R β} (hx : Uses P x)
    (hf : ∀ a, Uses P (f a)) : Uses P (x >>= f) := by
  induction x with
  | ret a => exact hf a
  | act c k ih => exact ⟨hx.1, fun r => ih r (hx.2 r)⟩

theorem uses_ite (c : Prop) [Decidable c] {x y : Prog C R α} (hx : Uses P x) (hy : Uses P y) :
    Uses P (if c then x else y) := by
  split
  · exact hx
  · exact hy

/-- A program of commands that never wait does not wait. -/
theorem Uses.not_wait {exec : (c : C) → σ → Outcome ε (R c × σ)} {x : Prog C R α}
    (hx : Uses (fun c => ∀ s, exec c s ≠ .wait) x) (s : σ) : run exec x s ≠ .wait := by
  induction x generalizing s with
  | ret a => exact nofun
  | act c k ih =>
    rw [run_act]
    cases hc : exec c s with
    | done r => exact ih r.1 (hx.2 r.1) r.2
    | panic e => exact nofun
    | wait => exact absurd hc (hx.1 s)

end Uses

/-- The commands that a run issues, until it ends, panics or has to wait. -/
def issued : Prog C R α → σ → List C
  | ret _, _ => []
  | act c k, s => c :: match exec c s with
    | .done r => issued (k r.1) r.2
    | .panic _ => []
    | .wait => []

theorem issued_act_done (c : C) (k : R c → Prog C R α) (s : σ) {r : R c × σ}
    (h : exec c s = .done r) :
    issued exec (act c k) s = c :: issued exec (k r.1) r.2 := by
  rw [issued, h]

theorem issued_act_stop (c : C) (k : R c → Prog C R α) (s : σ) (h : ∀ r, exec c s ≠ .done r) :
    issued exec (act c k) s = [c] := by
  rw [issued]
  cases hc : exec c s with
  | done r => exact absurd hc (h r)
  | panic e | wait => rfl

@[simp] theorem issued_call (c : C) (s : σ) : issued exec (call c) s = [c] := by
  by_cases hdone : ∃ r, exec c s = .done r
  · rcases hdone with ⟨r, hc⟩
    exact issued_act_done exec c ret s hc
  · exact issued_act_stop exec c ret s (fun r hr => hdone ⟨r, hr⟩)

theorem run_bind_inv {exec : (c : C) → σ → Outcome ε (R c × σ)} {x : Prog C R α}
    {f : α → Prog C R β} {s : σ} {r : β × σ} (h : run exec (x >>= f) s = .done r) :
    ∃ a t, run exec x s = .done (a, t) ∧ run exec (f a) t = .done r := by
  rw [run_bind] at h
  rcases (Outcome.bind_eq_done _ _ _).mp h with ⟨q, hx, h⟩
  exact ⟨q.1, q.2, hx, h⟩

theorem issued_bind_done (x : Prog C R α) (f : α → Prog C R β) (s : σ) {a : α} {t : σ}
    (h : run exec x s = .done (a, t)) :
    issued exec (x >>= f) s = issued exec x s ++ issued exec (f a) t := by
  induction x generalizing s with
  | ret b =>
    cases h
    rfl
  | act c k ih =>
    rw [run_act] at h
    rcases (Outcome.bind_eq_done _ _ _).mp h with ⟨r, hc, h⟩
    rw [act_bind, issued_act_done exec c _ s hc, issued_act_done exec c _ s hc,
      ih r.1 r.2 h, List.cons_append]

theorem issued_bind_stop (x : Prog C R α) (f : α → Prog C R β) (s : σ)
    (h : ∀ r, run exec x s ≠ .done r) : issued exec (x >>= f) s = issued exec x s := by
  induction x generalizing s with
  | ret b => exact absurd rfl (h (b, s))
  | act c k ih =>
    rw [act_bind]
    by_cases hdone : ∃ r, exec c s = .done r
    · rcases hdone with ⟨r, hc⟩
      rw [issued_act_done exec c _ s hc, issued_act_done exec c _ s hc,
        ih r.1 r.2 (fun r' hr' => ?_)]
      refine h r' ?_
      rw [run_act, hc]
      exact hr'
    · have hno : ∀ r, exec c s ≠ .done r := fun r hr => hdone ⟨r, hr⟩
      rw [issued_act_stop exec c _ s hno, issued_act_stop exec c _ s hno]

end Xv6.Prog
