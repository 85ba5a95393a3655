import Xv6.Lib.Machine

/-!
# Programs over Commands

Sequential programs whose only access to the state is through commands, and
rules to reason about what they do.

A program is a tree: it has returned, or it issues a command and goes on with
the command's answer. The tree does not say what a command does, so one
program text can be run alone by `run`, or step by step among others, and
properties of its shape can be stated without running it.

`wp` is the weakest precondition of a run. A run that ends does so in the
postcondition; a run that panics does so with a panic in the set `E`; and
nothing is required of a run that has to wait.

## Main definitions

* `Prog`: Programs over commands `C` with answers `R`.
* `Prog.run`: The run of a program alone.
* `Outcome.Meets`: An outcome meets a postcondition.
* `Outcome.Halts`: An outcome that does not wait.
* `Outcome.Ends`: An outcome has a result under a condition and only then.
* `Prog.wp`: The weakest precondition.

## Theorems

* `runs_meets`: Steps that meet an invariant make runs that do.
* `Prog.wp_bind`: The precondition of a sequence.
* `Prog.wp_imp`: From a run to its result.
-/

namespace Xv6

/-- An outcome that ends in `Q`, panics within `E` or waits. -/
def Outcome.Meets {ε α : Type} (E : ε → Prop) (Q : α → Prop) : Outcome ε α → Prop
  | .done a => Q a
  | .panic e => E e
  | .wait => True

namespace Outcome

variable {ε α β : Type} {E : ε → Prop} {x : Outcome ε α} {f : α → Outcome ε β}

@[simp] theorem meets_done (Q : α → Prop) (a : α) : Meets E Q (done a) ↔ Q a := Iff.rfl

theorem meets_bind (Q : β → Prop) (x : Outcome ε α) (f : α → Outcome ε β) :
    Meets E Q (x >>= f) ↔ Meets E (fun a => Meets E Q (f a)) x := by
  cases x with
  | done a | panic e | wait => exact Iff.rfl

theorem meets_mono {Q Q' : α → Prop} (h : Meets E Q x) (hQ : ∀ a, Q a → Q' a) : Meets E Q' x := by
  cases x with
  | done a => exact hQ a h
  | panic e => exact h
  | wait => trivial

/-- An outcome that ends in `Q` or panics. -/
def Halts (Q : α → Prop) : Outcome ε α → Prop
  | done a => Q a
  | panic _ => True
  | wait => False

theorem Halts.bind {P : α → Prop} {Q : β → Prop} (h : Halts P x)
    (hf : ∀ a, P a → Halts Q (f a)) : Halts Q (x >>= f) := by
  cases x with
  | done a => exact hf a h
  | panic e => trivial
  | wait => exact h

/-- An outcome that has a result exactly if `R`, and then one with `Q`. -/
def Ends (R : Prop) (Q : α → Prop) : Outcome ε α → Prop
  | done a => R ∧ Q a
  | panic _ => ¬R
  | wait => False

theorem Ends.imp {R R' : Prop} {Q Q' : α → Prop} (h : Ends R Q x) (hR : R' ↔ R)
    (hQ : R → ∀ a, Q a → Q' a) : Ends R' Q' x := by
  cases x with
  | done a => exact ⟨hR.mpr h.1, hQ h.1 a h.2⟩
  | panic e => exact fun hc => h (hR.mp hc)
  | wait => exact h

theorem Ends.congr {R R' : Prop} {Q : α → Prop} (h : Ends R Q x) (hR : R' ↔ R) : Ends R' Q x :=
  h.imp hR (fun _ _ hq => hq)

theorem Ends.bind {R R' : Prop} {P : α → Prop} {Q : β → Prop} (h : Ends R P x) (hR : R' → R)
    (hf : R → ∀ a, P a → Ends R' Q (f a)) : Ends R' Q (x >>= f) := by
  cases x with
  | done a => exact hf h.1 a h.2
  | panic e => exact fun hc => h (hR hc)
  | wait => exact h

theorem Ends.andThen {R : Prop} {P : α → Prop} {Q : β → Prop} (h : Ends R P x)
    (hf : R → ∀ a, P a → ∃ b, f a = done b ∧ Q b) :
    Ends R Q (x >>= f) := by
  cases x with
  | done a =>
    rcases hf h.1 a h.2 with ⟨b, hb, hq⟩
    rw [done_bind, hb]
    exact ⟨h.1, hq⟩
  | panic e | wait => exact h

theorem Ends.result {R : Prop} {Q : α → Prop} (h : Ends R Q x) (hR : R) :
    ∃ a, x = done a ∧ Q a := by
  cases x with
  | done a => exact ⟨a, rfl, h.2⟩
  | panic e => exact absurd hR h
  | wait => exact h.elim

theorem Ends.of_done {R : Prop} {Q : α → Prop} (h : Ends R Q x) {a : α}
    (ha : x = done a) : R ∧ Q a := by
  rw [ha] at h
  exact h

end Outcome

/-- If every step from a state with `I` meets `I`, so does every run. -/
theorem runs_meets {ε σ η : Type} {step : σ → η → Outcome ε σ} {E : ε → Prop} {I : σ → Prop}
    (hstep : ∀ s e, I s → Outcome.Meets E I (step s e)) (es : List η) (s : σ) (hs : I s) :
    Outcome.Meets E I (runs step es s) := by
  induction es generalizing s with
  | nil => exact hs
  | cons e es ih =>
    rw [runs_cons, Outcome.meets_bind]
    exact Outcome.meets_mono (hstep s e hs) ih

/-- A program: a result, or a command and what to do with its answer. -/
inductive Prog (C : Type) (R : C → Type) (α : Type) where
  | ret (a : α)
  | act (c : C) (k : R c → Prog C R α)

namespace Prog

variable {C : Type} {R : C → Type} {α β : Type}

def bind : Prog C R α → (α → Prog C R β) → Prog C R β
  | ret a, f => f a
  | act c k, f => act c (fun r => (k r).bind f)

instance : Monad (Prog C R) where
  pure := ret
  bind := bind

/-- The program that issues one command and returns its answer. -/
def call (c : C) : Prog C R (R c) := act c ret

@[simp] theorem pure_eq (a : α) : (pure a : Prog C R α) = ret a := rfl

@[simp] theorem ret_bind (a : α) (f : α → Prog C R β) : (ret a >>= f) = f a := rfl

@[simp] theorem act_bind (c : C) (k : R c → Prog C R α) (f : α → Prog C R β) :
    (act c k >>= f) = act c (fun r => k r >>= f) := rfl

theorem bind_assoc {γ : Type} (x : Prog C R α) (f : α → Prog C R β) (g : β → Prog C R γ) :
    (x >>= f) >>= g = x >>= fun a => f a >>= g := by
  induction x with
  | ret a => rfl
  | act c k ih =>
    simp only [act_bind]
    exact congrArg (act c) (funext ih)

section Run

variable {ε σ : Type} (exec : (c : C) → σ → Outcome ε (R c × σ))

/-- The run of a program alone, every command carried out by `exec`. -/
def run : Prog C R α → σ → Outcome ε (α × σ)
  | ret a, s => .done (a, s)
  | act c k, s => (exec c s).bind (fun r => run (k r.1) r.2)

@[simp] theorem run_act (c : C) (k : R c → Prog C R α) (s : σ) :
    run exec (act c k) s = exec c s >>= fun r => run exec (k r.1) r.2 := rfl

@[simp] theorem run_call (c : C) (s : σ) : run exec (call c) s = exec c s := by
  change (exec c s >>= fun r => Outcome.done (r.1, r.2)) = exec c s
  cases exec c s with
  | done r | panic e | wait => rfl

theorem run_bind (x : Prog C R α) (f : α → Prog C R β) (s : σ) :
    run exec (x >>= f) s = run exec x s >>= fun r => run exec (f r.1) r.2 := by
  induction x generalizing s with
  | ret a => rfl
  | act c k ih =>
    simp only [act_bind, run_act]
    cases exec c s with
    | done r => exact ih r.1 r.2
    | panic e | wait => rfl

/-- The weakest precondition of a run that panics only within `E`. -/
def wp (E : ε → Prop) (x : Prog C R α) (Q : α → σ → Prop) (s : σ) : Prop :=
  Outcome.Meets E (fun r => Q r.1 r.2) (run exec x s)

variable {exec} {E : ε → Prop} {Q Q' : α → σ → Prop} {s : σ}

theorem wp_call (c : C) (Q : R c → σ → Prop) :
    wp exec E (call c) Q s ↔ Outcome.Meets E (fun r => Q r.1 r.2) (exec c s) := by
  rw [wp, run_call]

theorem wp_bind (x : Prog C R α) (f : α → Prog C R β) (Q : β → σ → Prop) :
    wp exec E (x >>= f) Q s ↔ wp exec E x (fun a t => wp exec E (f a) Q t) s := by
  rw [wp, run_bind, Outcome.meets_bind]
  exact Iff.rfl

theorem wp_imp {x : Prog C R α} (h : wp exec E x Q s) {a : α} {t : σ}
    (hr : run exec x s = .done (a, t)) : Q a t := by
  rw [wp, hr] at h
  exact h

theorem wp_panic {x : Prog C R α} (h : wp exec E x Q s) {e : ε}
    (hr : run exec x s = .panic e) : E e := by
  rw [wp, hr] at h
  exact h

end Run

end Prog

end Xv6
