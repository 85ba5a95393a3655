import Mathlib.Logic.Relation
import Mathlib.Algebra.Order.Ring.Nat

/-!
# Machines with Panics

Runs of a machine whose steps may succeed, panic or have to wait.

A kernel step has three ways to go. It is carried out, it trips an assertion
and halts the machine, or it is not enabled yet and the caller sleeps. An
`Option` would merge the last two, and the difference is what a safety claim
is about: a run that waits is simply not a run, while a run that panics is the
thing to be ruled out. `Outcome` keeps them apart.

`runs` feeds a machine a list of events. `runs_invariant` is the one induction
on the length of a run.

## Main definitions

* `Outcome`: A result, a panic, or a wait.
* `Outcome.check`: A test that can be evaluated on the result of a run.
* `Outcome.Both`: Outcomes of the same kind with related results.
* `runs`: The run of a machine on a list of events.

## Theorems

* `runs_invariant`: What each step keeps holds after a run.
* `runs_invariant_of`: The same, when each event meets a side condition.
* `Outcome.Both.bind`: Related sequences.
* `runs_both`: Machines whose steps stay related have related runs.
-/

namespace Xv6

/-- The result of a step: a value, a panic, or a step that is not enabled. -/
inductive Outcome (ε α : Type) where
  | done (a : α)
  | panic (e : ε)
  | wait
  deriving DecidableEq, Repr

namespace Outcome

variable {ε α β : Type} {x : Outcome ε α} {y : Outcome ε β}

/-- Sequencing stops at the first panic or wait. -/
def bind : Outcome ε α → (α → Outcome ε β) → Outcome ε β
  | done a, f => f a
  | panic e, _ => panic e
  | wait, _ => wait

instance : Monad (Outcome ε) where
  pure := done
  bind := bind

@[simp] theorem pure_eq (a : α) : (pure a : Outcome ε α) = done a := rfl

@[simp] theorem done_bind (a : α) (f : α → Outcome ε β) : (done a >>= f) = f a := rfl

@[simp] theorem panic_bind (e : ε) (f : α → Outcome ε β) :
    ((panic e : Outcome ε α) >>= f) = panic e := rfl

@[simp] theorem wait_bind (f : α → Outcome ε β) :
    ((wait : Outcome ε α) >>= f) = wait := rfl

/-- There is a result, and it passes a test. -/
def check (p : α → Bool) : Outcome ε α → Bool
  | done a => p a
  | panic _ => false
  | wait => false

theorem exists_of_check (p : α → Bool) (x : Outcome ε α) (h : x.check p = true) :
    ∃ a, x = done a ∧ p a = true := by
  cases x with
  | done a => exact ⟨a, rfl, h⟩
  | panic e | wait => exact nomatch h

theorem exists_of_decide (p : α → Prop) [DecidablePred p] (x : Outcome ε α)
    (h : x.check (fun a => decide (p a)) = true) : ∃ a, x = done a ∧ p a := by
  rcases exists_of_check _ x h with ⟨a, ha, hp⟩
  exact ⟨a, ha, of_decide_eq_true hp⟩

/-- Two outcomes of the same kind, with related results. -/
def Both (R : α → β → Prop) : Outcome ε α → Outcome ε β → Prop
  | done a, done b => R a b
  | panic e, panic e' => e = e'
  | wait, wait => True
  | _, _ => False

theorem Both.cases {R : α → β → Prop} (h : Both R x y) :
    (∃ a b, x = done a ∧ y = done b ∧ R a b) ∨ (∃ e, x = panic e ∧ y = panic e) ∨
      x = wait ∧ y = wait := by
  cases x with
  | done a =>
    cases y with
    | done b => exact Or.inl ⟨a, b, rfl, rfl, h⟩
    | _ => exact h.elim
  | panic e =>
    cases y with
    | panic e' => exact Or.inr (Or.inl ⟨e, rfl, congrArg panic (Eq.symm h)⟩)
    | _ => exact h.elim
  | wait =>
    cases y with
    | wait => exact Or.inr (Or.inr ⟨rfl, rfl⟩)
    | _ => exact h.elim

theorem Both.imp {R R' : α → β → Prop} (h : Both R x y)
    (hR : ∀ a b, x = done a → y = done b → R a b → R' a b) : Both R' x y := by
  rcases h.cases with ⟨a, b, rfl, rfl, hab⟩ | ⟨e, rfl, rfl⟩ | ⟨rfl, rfl⟩
  · exact hR a b rfl rfl hab
  · exact rfl
  · trivial

/-- Related first parts with related rests make related sequences. -/
theorem Both.bind {γ δ : Type} {R : α → β → Prop} {R' : γ → δ → Prop}
    {f : α → Outcome ε γ} {g : β → Outcome ε δ} (h : Both R x y)
    (hR : ∀ a b, R a b → Both R' (f a) (g b)) : Both R' (x >>= f) (y >>= g) := by
  rcases h.cases with ⟨a, b, rfl, rfl, hab⟩ | ⟨e, rfl, rfl⟩ | ⟨rfl, rfl⟩
  · exact hR a b hab
  · exact rfl
  · trivial

/-- Only the second of two related outcomes has something done to its result. -/
theorem Both.map_right {γ : Type} {R : α → γ → Prop} (g : β → γ)
    (h : Both (fun a b => R a (g b)) x y) :
    Both R x (y >>= fun b => pure (g b)) := by
  rcases h.cases with ⟨a, b, rfl, rfl, hab⟩ | ⟨e, rfl, rfl⟩ | ⟨rfl, rfl⟩
  · exact hab
  · exact rfl
  · trivial

theorem bind_eq_done (x : Outcome ε α) (f : α → Outcome ε β) (b : β) :
    (x >>= f) = done b ↔ ∃ a, x = done a ∧ f a = done b := by
  cases x with
  | done a => simp only [done_bind, done.injEq, exists_eq_left']
  | panic e => simp only [panic_bind, reduceCtorEq, false_and, exists_false]
  | wait => simp only [wait_bind, reduceCtorEq, false_and, exists_false]

/-- A guarded step was taken, so the guard held. -/
theorem of_guard {c : Prop} [Decidable c] {a : α}
    (h : (if c then x else wait) = done a) : c ∧ x = done a := by
  by_cases hc : c
  · rw [if_pos hc] at h
    exact ⟨hc, h⟩
  · rw [if_neg hc] at h
    exact nomatch h

/-- A checked step was taken, so the check did not panic or wait. -/
theorem of_check {c : Prop} [Decidable c] {x y : Outcome ε α} {a : α}
    (h : (if c then x else y) = done a) (hx : x ≠ done a := by rintro ⟨⟩) : ¬c ∧ y = done a := by
  by_cases hc : c
  · rw [if_pos hc] at h
    exact absurd h hx
  · rw [if_neg hc] at h
    exact ⟨hc, h⟩

end Outcome

section Runs

variable {ε σ η : Type} (step : σ → η → Outcome ε σ)

/-- The run of a machine on a list of events. -/
def runs : List η → σ → Outcome ε σ
  | [], s => .done s
  | e :: es, s => step s e >>= runs es

@[simp] theorem runs_nil (s : σ) : runs step [] s = .done s := rfl

@[simp] theorem runs_cons (e : η) (es : List η) (s : σ) :
    runs step (e :: es) s = step s e >>= runs step es := rfl

theorem runs_append (es fs : List η) (s : σ) :
    runs step (es ++ fs) s = runs step es s >>= runs step fs := by
  induction es generalizing s with
  | nil => rfl
  | cons e es ih =>
    simp only [List.cons_append, runs_cons]
    cases step s e with
    | done t => exact ih t
    | panic m | wait => rfl

/-- What every step preserves under a side condition on its event, every run
    whose events all meet the condition preserves. The condition may look at
    the state the event is taken in, so it is checked along the run. -/
theorem runs_invariant_of (I : σ → Prop) (C : σ → η → Prop)
    (hstep : ∀ s e t, I s → C s e → step s e = .done t → I t)
    (es : List η) (s t : σ) (hs : I s)
    (hC : ∀ es₁ e es₂ u, es = es₁ ++ e :: es₂ → runs step es₁ s = .done u → C u e)
    (h : runs step es s = .done t) : I t := by
  induction es generalizing s with
  | nil =>
    simp only [runs_nil, Outcome.done.injEq] at h
    rw [← h]
    exact hs
  | cons e es ih =>
    simp only [runs_cons, Outcome.bind_eq_done] at h
    rcases h with ⟨u, hu, ht⟩
    refine ih u (hstep s e u hs (hC [] e es s rfl rfl) hu) ?_ ht
    intro es₁ f es₂ v hes hv
    refine hC (e :: es₁) f es₂ v (by rw [hes, List.cons_append]) ?_
    rw [runs_cons, hu, Outcome.done_bind]
    exact hv

/-- What every step preserves, every run preserves. -/
theorem runs_invariant (I : σ → Prop)
    (hstep : ∀ s e t, I s → step s e = .done t → I t)
    (es : List η) (s t : σ) (hs : I s) (h : runs step es s = .done t) : I t :=
  runs_invariant_of step I (fun _ _ => True) (fun s e t hI _ => hstep s e t hI) es s t hs
    (fun _ _ _ _ _ _ => trivial) h

/-- If the steps of two machines stay related, so do their runs. -/
theorem runs_both {τ : Type} (step' : τ → η → Outcome ε τ) (R : σ → τ → Prop)
    (hstep : ∀ s t e, R s t → Outcome.Both R (step s e) (step' t e))
    (es : List η) (s : σ) (t : τ) (h : R s t) :
    Outcome.Both R (runs step es s) (runs step' es t) := by
  induction es generalizing s t with
  | nil => exact h
  | cons e es ih =>
    rw [runs_cons, runs_cons]
    exact (hstep s t e h).bind ih

end Runs

end Xv6
