import Xv6.Lib.Machine
import Xv6.Param
import Mathlib.Order.Bounds.Basic

/-!
# sys_sleep

The loop of `sys_sleep` in `kernel/sysproc.c`, and the clock.

What a process does between taking `tickslock` and giving it up again, at the end or inside
`sleep`, is one step, and so is `clockintr`. The counter has 32 bits and wraps.

The loop compares the unsigned number of ticks since the beginning with the signed argument.
C converts the argument, so that a negative one is a large number of ticks: such a call does
not return at once, as it should.

## Main definitions

* `Sleep`, `step`: A call of `sys_sleep`, and what happens to it.
* `prompt`: The process tests again after every tick.
* `LeavesAt`: The tick at which the loop ends.

## Theorems

* `leavesAt_iff`: When the loop ends.
* `sleep_waits_iff`: The loop ends in time exactly for arguments that are not negative.
-/

namespace Xv6.Ticks

/-- Where the process is: at the test of the loop, in `sleep`, or back. -/
inductive Pc where
  | testing
  | asleep
  | left (r : Int)
  deriving DecidableEq, Repr

structure Sleep where
  ticks : BitVec 32
  ticks0 : BitVec 32
  n : BitVec 32
  pc : Pc
  deriving DecidableEq, Repr

inductive Event where
  -- The process runs; the flag is what `killed` returns.
  | run (killed : Bool)
  | clockintr
  deriving DecidableEq, Repr

/-- `sys_sleep` up to the loop. -/
def start (ticks n : BitVec 32) : Sleep :=
  { ticks := ticks, ticks0 := ticks, n := n, pc := .testing }

/-- One step. `wakeup(&ticks)` makes the process run again. -/
def step (x : Sleep) : Event → Outcome Panic Sleep
  | .run killed =>
    match x.pc with
    | .testing =>
      if x.ticks - x.ticks0 < x.n then
        if killed then .done { x with pc := .left (-1) } else .done { x with pc := .asleep }
      else .done { x with pc := .left 0 }
    | _ => .wait
  | .clockintr =>
    .done { x with ticks := x.ticks + 1, pc := if x.pc = .asleep then .testing else x.pc }

/-- The process tests at the beginning and after each of `k` ticks, and is not killed. -/
def prompt : Nat → List Event
  | 0 => [.run false]
  | k + 1 => prompt k ++ [.clockintr, .run false]

/-- The loop ends with the test after `k` ticks. -/
def LeavesAt (ticks n : BitVec 32) (k : Nat) : Prop :=
  ∃ y, runs step (prompt k) (start ticks n) = .done y ∧ y.pc = .left 0

variable {ticks n : BitVec 32}

theorem sub_lt_iff {k : Nat} (hk : k < 2 ^ 32) :
    ticks + BitVec.ofNat 32 k - ticks < n ↔ k < n.toNat := by
  rw [BitVec.add_comm, BitVec.add_sub_cancel, BitVec.lt_def, BitVec.toNat_ofNat,
    Nat.mod_eq_of_lt hk]

/-- After `k` ticks the process sleeps if `k` is less than the argument as an unsigned number,
    and comes back if it is equal. -/
theorem runs_prompt {k : Nat} (hk : k ≤ n.toNat) :
    runs step (prompt k) (start ticks n) = .done { start ticks n with
      ticks := ticks + BitVec.ofNat 32 k
      pc := if k < n.toNat then .asleep else .left 0 } := by
  have hlt := n.isLt
  -- The test after `k` ticks.
  have htest : ∀ k ≤ n.toNat, step { start ticks n with ticks := ticks + BitVec.ofNat 32 k }
      (.run false) = .done { start ticks n with
        ticks := ticks + BitVec.ofNat 32 k
        pc := if k < n.toNat then .asleep else .left 0 } := by
    intro k hk
    simp only [step, start, sub_lt_iff (n := n) (show k < 2 ^ 32 by omega), Bool.false_eq_true,
      if_false]
    split_ifs <;> rfl
  induction k with
  | zero =>
    have h := htest 0 hk
    rw [show ticks + BitVec.ofNat 32 0 = ticks from BitVec.add_zero ticks] at h ⊢
    exact (congrArg (fun r => r >>= runs step []) h)
  | succ k ih =>
    rw [prompt, runs_append, ih (by omega), if_pos (show k < n.toNat by omega)]
    have hnext : ticks + BitVec.ofNat 32 k + 1 = ticks + BitVec.ofNat 32 (k + 1) := by
      rw [BitVec.add_assoc, BitVec.ofNat_add]
      rfl
    change step { start ticks n with ticks := ticks + BitVec.ofNat 32 k + 1 } (.run false) >>=
      runs step [] = _
    rw [hnext, htest (k + 1) hk]
    rfl

/-- A process that has left the loop makes no more tests. -/
theorem runs_prompt_wait {k : Nat} (hk : n.toNat < k) :
    runs step (prompt k) (start ticks n) = .wait := by
  induction k with
  | zero => exact nomatch hk
  | succ k ih =>
    rw [prompt, runs_append]
    by_cases hkn : k = n.toNat
    · rw [runs_prompt hkn.le, if_neg (by omega)]
      rfl
    · rw [ih (by omega)]
      rfl

theorem leavesAt_iff {k : Nat} : LeavesAt ticks n k ↔ k = n.toNat := by
  unfold LeavesAt
  by_cases hk : k ≤ n.toNat
  · rw [runs_prompt hk]
    constructor
    · rintro ⟨y, hy, hpc⟩
      rw [← Outcome.done.inj hy] at hpc
      by_contra hne
      rw [if_pos (by omega)] at hpc
      exact nomatch hpc
    · intro he
      exact ⟨_, rfl, if_neg (by omega)⟩
  · rw [runs_prompt_wait (by omega)]
    exact ⟨fun ⟨y, hy, _⟩ => (nomatch hy), fun he => absurd he.le hk⟩

/-- Whatever the counter is at the beginning, the loop ends at the first tick at which the
    elapsed ticks are at least the argument, exactly if the argument is not negative. -/
theorem sleep_waits_iff (ticks n : BitVec 32) :
    (∀ k, LeavesAt ticks n k ↔ IsLeast {k : Nat | n.toInt ≤ k} k) ↔ 0 ≤ n.toInt := by
  have hcond := BitVec.toInt_eq_toNat_cond n
  have hlt := n.isLt
  constructor
  · intro h
    have hleast : IsLeast {k : Nat | n.toInt ≤ k} n.toNat := (h n.toNat).mp (leavesAt_iff.mpr rfl)
    by_contra hneg
    have hzero := hleast.2 (show n.toInt ≤ (0 : Nat) by omega)
    split at hcond <;> omega
  · intro hn k
    rw [leavesAt_iff]
    have hint : n.toInt = n.toNat := by split at hcond <;> omega
    rw [hint]
    constructor
    · rintro rfl
      exact ⟨le_refl (n.toNat : Int), fun j hj => Int.ofNat_le.mp hj⟩
    · intro hk
      exact Nat.le_antisymm (hk.2 (le_refl (n.toNat : Int))) (Int.ofNat_le.mp hk.1)

/-- The counter wraps while a process waits for two ticks. -/
example : (runs step (prompt 2) (start (-1) 2)).check (fun y => y.pc = .left 0) = true := by
  decide

/-- `sleep(-1)` does not return at once. -/
theorem sleep_negative : (-1 : BitVec 32).toInt ≤ (0 : Nat) ∧ ¬LeavesAt 0 (-1) 0 := by
  refine ⟨by decide, fun h => ?_⟩
  have h0 := leavesAt_iff.mp h
  exact nomatch h0

end Xv6.Ticks
