import Xv6.Sched.Sound

/-!
# Sleepers

What holds of the processes that sleep, in every state of every run.

`no_lost_wakeup` is the property for which `sleep` takes a lock: once a wakeup
has been sent for a condition that holds, nobody is left asleep who waits for
it. `pipe_sleepers` is what it comes to for pipes. The loop of `pipewrite` has a
way out without a wakeup, and a run that takes it after some bytes have been
accepted can leave a reader asleep in front of them. `rudeRun` is such a run.

A process tests whether it has been killed before it calls `sleep`, and it holds
no lock that `kill` needs in between. `killed_awake` is about this gap.

## Main definitions

* `turns`, `enter`: The steps of a CPU, for runs that can be evaluated.
* `readerRun`: A process sleeps in `piperead`.

## Theorems

* `Reachable.asleep`: Who sleeps has a reason.
* `Reachable.quiet`: The reason has not come true while nobody holds its lock.
-/

namespace Xv6.Sched

/-! ### Runs that can be evaluated -/

section Runs

/-- The variables before anything has happened. -/
def blank : Start Bool where
  pipe := fun _ => .pipealloc (fun _ => 0)
  ticks := 0
  cons := { buf := fun _ => 0, r := 0, w := 0, e := 0 }
  data := fun _ => false

/-- A CPU takes `n` steps in which all allocations succeed. -/
def turns (c : Fin NCPU) (n : Nat) : List (Event NCPU Bool) :=
  List.replicate n (.cpu c { flip := true, trap := .fault })

/-- The process on a CPU makes a system call, of which `n` steps are taken. -/
def enter (c : Fin NCPU) (sc : Syscall Bool) (n : Nat) : List (Event NCPU Bool) :=
  .cpu c { flip := true, trap := .syscall sc } :: turns c n

/-- CPU 0 runs the first process, which forks, and CPU 1 runs the child. -/
def childRun : List (Event NCPU Bool) := turns 0 9 ++ enter 0 .fork 30 ++ turns 1 12

/-- The child reads from a pipe that is empty, and sleeps. -/
def readerRun : List (Event NCPU Bool) :=
  childRun ++ enter 1 (.piperead 0 (fun _ => true) 1) 21

/-- A second child writes to the pipe, and is killed when it has written one of two
    bytes. It leaves without a wakeup. -/
def rudeRun : List (Event NCPU Bool) :=
  readerRun ++ enter 0 .fork 33 ++ turns 2 15 ++
    enter 2 (.pipewrite 0 (fun _ => some 7) 2) 12 ++ enter 0 (.kill 3) 19 ++ turns 2 8

/-- The child is killed after it has found that it is not, and sleeps all the same. -/
def missedRun : List (Event NCPU Bool) :=
  childRun ++ enter 1 (.piperead 0 (fun _ => true) 1) 10 ++ enter 0 (.kill 2) 16 ++ turns 1 9

/-- The child waits for a variable to become true. -/
def awaitRun : List (Event NCPU Bool) := childRun ++ enter 1 (.section 0 [.await id 5]) 15

/-- The result of a run of the first process and its descendants. -/
def result (es : List (Event NCPU Bool)) : Outcome Panic (System NPROC NCPU Bool) :=
  runs (step 0) es (boot 0 blank)

theorem reachable_of_decide (es : List (Event NCPU Bool)) (p : System NPROC NCPU Bool → Prop)
    [DecidablePred p] (h : (result es).check (fun x => decide (p x)) = true) :
    ∃ x, Reachable 0 blank x ∧ p x := by
  rcases Outcome.exists_of_decide p (result es) h with ⟨x, hx, hp⟩
  exact ⟨x, ⟨es, hx⟩, hp⟩

end Runs

section Sleepers

variable {np nc : Nat} {D : Type} {init p : Fin np} {b : Start D} {x : System np nc D}

/-- Who sleeps has a reason, and sleeps on its channel. -/
theorem Reachable.asleep (h : Reachable init b x) (hs : (x.m.slot p).state = .sleeping) :
    ∃ w, (x.m.slot p).nap = some w ∧ (x.m.slot p).chan = some (w.chan p) := by
  rcases h.sound with ⟨W, hW⟩
  cases hw : (x.m.slot p).nap with
  | none => exact absurd hw (hW.inv.naps.asleep p hs)
  | some w =>
    refine ⟨w, rfl, ?_⟩
    rcases hW.inv.naps.nap p w hw with hc | hc
    · -- A process on its way to sleep is still `RUNNING`.
      rcases hW.inv.naps.commit _ w hc with ⟨q, hq, _, _, hrun⟩
      rw [← Thread.proc.inj hq, hs] at hrun
      exact nomatch hrun
    · exact hc.2

/-- While nobody holds the lock of a wait, its condition has not come true, unless a
    writer has left the pipe without a wakeup. -/
theorem Reachable.quiet (h : Reachable init b x) {w : Nap D} (hw : (x.m.slot p).nap = some w)
    (hfree : x.m.lock w.lock = none) (hready : x.m.Ready w p) : x.m.Excused w := by
  rcases h.sound with ⟨W, hW⟩
  exact hW.inv.naps.quiet w p (hW.inv.owned.holds.free_iff.mp hfree) hw hready

/-- A process that sleeps on a channel has tested some condition under some lock.
    While the lock is free, there has been no wakeup since which the condition
    has been true. -/
theorem no_lost_wakeup (h : Reachable init b x) (ch : Nat)
    (hs : (x.m.slot p).state = .sleeping) (hc : (x.m.slot p).chan = some (.other ch)) :
    ∃ n c, (x.m.slot p).nap = some (.await n c ch) ∧
      (x.m.lock (.key (.data n)) = none → Shared.woken (x.m.key (.data n)) c ch = false) := by
  rcases h.asleep hs with ⟨w, hw, hchan⟩
  rw [hc, Option.some.injEq] at hchan
  cases w with
  | await n c ch' =>
    have hch : ch = ch' := Chan.other.inj hchan
    rw [← hch] at hw
    refine ⟨n, c, hw, fun hfree => Bool.not_eq_true _ ▸ fun hwoken => ?_⟩
    have hready : x.m.Ready (.await n c ch) p := Or.inr ⟨.data n, rfl, hwoken⟩
    -- No wait of this kind is excused.
    rcases h.quiet hw hfree hready with ⟨i, hi, _⟩
    cases hi
  | _ => exact nomatch hchan

theorem no_lost_wakeup_awaitRun : ∃ x : System NPROC NCPU Bool, Reachable 0 blank x ∧
    (x.m.slot 1).state = .sleeping ∧ x.m.lock (.key (.data 0)) = none ∧
    ∃ n c, (x.m.slot 1).nap = some (.await n c 5) ∧
      (x.m.lock (.key (.data n)) = none → Shared.woken (x.m.key (.data n)) c 5 = false) := by
  rcases reachable_of_decide awaitRun
    (fun x => (x.m.slot 1).state = .sleeping ∧ (x.m.slot 1).chan = some (.other 5) ∧
      x.m.lock (.key (.data 0)) = none) (by decide +kernel) with ⟨x, hx, hs, hc, hl⟩
  exact ⟨x, hx, hs, hl, no_lost_wakeup hx 5 hs hc⟩

/-- Nobody who sleeps at a pipe has work to do while the lock of the pipe is free,
    except for readers of a pipe that a writer has left without a wakeup it owes. -/
theorem pipe_sleepers (h : Reachable init b x) (i : Nat)
    (hfree : x.m.lock (.key (.pipe i)) = none) (hs : (x.m.slot p).state = .sleeping) :
    ((x.m.slot p).chan = some (.nread i) → x.m.ghost.rude i = false →
      Pipe.empty (x.m.key (.pipe i)) = true ∧ Pipe.writeopen (x.m.key (.pipe i)) = true) ∧
    ((x.m.slot p).chan = some (.nwrite i) →
      Pipe.full (x.m.key (.pipe i)) = true ∧ Pipe.readopen (x.m.key (.pipe i)) = true) := by
  rcases h.asleep hs with ⟨w, hw, hchan⟩
  rw [hchan]
  refine ⟨fun hc hrude => ?_, fun hc => ?_⟩
  · cases w with
    | read j =>
      have hj : j = i := Chan.nread.inj (Option.some.inj hc)
      rw [hj] at hw
      have hnot : ¬(Pipe.empty (x.m.key (.pipe i)) = false ∨
          Pipe.writeopen (x.m.key (.pipe i)) = false) := by
        intro hr
        rcases h.quiet hw hfree (Or.inr ⟨.pipe i, rfl, hr⟩) with ⟨k, hk, hrude'⟩
        rw [← Nap.read.inj hk, hrude] at hrude'
        exact Bool.false_ne_true hrude'
      rw [not_or, Bool.not_eq_false, Bool.not_eq_false] at hnot
      exact hnot
    | _ => exact absurd hc (by simp only [Nap.chan, Option.some.injEq, reduceCtorEq,
        not_false_eq_true])
  · cases w with
    | write j =>
      have hj : j = i := Chan.nwrite.inj (Option.some.inj hc)
      rw [hj] at hw
      have hnot : ¬(Pipe.full (x.m.key (.pipe i)) = false ∨
          Pipe.readopen (x.m.key (.pipe i)) = false) := by
        intro hr
        rcases h.quiet hw hfree (Or.inr ⟨.pipe i, rfl, hr⟩) with ⟨k, hk, _⟩
        cases hk
      rw [not_or, Bool.not_eq_false, Bool.not_eq_false] at hnot
      exact hnot
    | _ => exact absurd hc (by simp only [Nap.chan, Option.some.injEq, reduceCtorEq,
        not_false_eq_true])

theorem pipe_sleepers_readerRun : ∃ x : System NPROC NCPU Bool, Reachable 0 blank x ∧
    (x.m.slot 1).state = .sleeping ∧ (x.m.slot 1).chan = some (.nread 0) ∧
    Pipe.empty (x.m.key (.pipe 0)) = true ∧ Pipe.writeopen (x.m.key (.pipe 0)) = true := by
  rcases reachable_of_decide readerRun
    (fun x => (x.m.slot 1).state = .sleeping ∧ (x.m.slot 1).chan = some (.nread 0) ∧
      x.m.lock (.key (.pipe 0)) = none ∧ x.m.ghost.rude 0 = false) (by decide +kernel)
    with ⟨x, hx, hs, hc, hl, hrude⟩
  exact ⟨x, hx, hs, hc, (pipe_sleepers hx 0 hl hs).1 hc hrude⟩

/-- A reader sleeps in front of a pipe with a byte in it, and nobody holds its lock. -/
theorem rudeRun_asleep : ∃ x : System NPROC NCPU Bool, Reachable 0 blank x ∧
    x.m.lock (.key (.pipe 0)) = none ∧ (x.m.slot 1).state = .sleeping ∧
    (x.m.slot 1).chan = some (.nread 0) ∧ Pipe.empty (x.m.key (.pipe 0)) = false :=
  reachable_of_decide rudeRun _ (by decide +kernel)

/-- The channels of the waits that end when the process is killed. -/
def Chan.killable : Chan np → Bool
  | other _ => false
  | _ => true

theorem Nap.chan_killable (w : Nap D) : (w.chan p).killable = w.killable := by
  cases w <;> rfl

/-- As long as nobody is killed between the test of the flag and the sleep, no
    process sleeps in one of those waits that has been killed. -/
theorem killed_awake (h : Reachable init b x) (htimely : x.m.ghost.untimely = false)
    (ch : Chan np) (hk : ch.killable = true) (hs : (x.m.slot p).state = .sleeping)
    (hc : (x.m.slot p).chan = some ch) : (x.m.slot p).killed = false := by
  rcases h.asleep hs with ⟨w, hw, hchan⟩
  rw [hc, Option.some.injEq] at hchan
  rcases h.sound with ⟨W, hW⟩
  refine hW.inv.kills.nap htimely p w hw ?_
  rw [← Nap.chan_killable (p := p), ← hchan]
  exact hk

theorem killed_awake_readerRun : ∃ x : System NPROC NCPU Bool, Reachable 0 blank x ∧
    (x.m.slot 1).state = .sleeping ∧ (x.m.slot 1).chan = some (.nread 0) ∧
    (x.m.slot 1).killed = false := by
  rcases reachable_of_decide readerRun
    (fun x => (x.m.slot 1).state = .sleeping ∧ (x.m.slot 1).chan = some (.nread 0) ∧
      x.m.ghost.untimely = false) (by decide +kernel) with ⟨x, hx, hs, hc, htimely⟩
  exact ⟨x, hx, hs, hc, killed_awake hx htimely (.nread 0) rfl hs hc⟩

/-- The call `kill(2)` has returned 0, and the child with this pid sleeps in
    `piperead` with its killed flag set. -/
theorem missedRun_killed : ∃ x : System NPROC NCPU Bool, Reachable 0 blank x ∧
    x.m.ghost.returned = [(2, 0)] ∧ (x.m.slot 1).pid = 2 ∧ (x.m.slot 1).killed = true ∧
    (x.m.slot 1).state = .sleeping ∧ (x.m.slot 1).chan = some (.nread 0) :=
  reachable_of_decide missedRun _ (by decide +kernel)

end Sleepers

end Xv6.Sched
