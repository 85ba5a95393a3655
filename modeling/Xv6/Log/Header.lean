import Xv6.Param

/-!
# The In-Memory Log

The bookkeeping half of `kernel/log.c`: how many operations are outstanding,
whether a commit is running, and which blocks the next commit will write.

Each function is one critical section under `log.lock`. `beginOp` waits where
the source sleeps on the log. The array `log.lh.block` is a list here, since
only its first `log.lh.n` entries are ever read; `log.lh.n` is its length.

Note where `logWrite` makes its first test. It compares the number of logged
blocks with the space left before it looks for the block in the list, so a
full log refuses even a block it already holds. A caller that is going to log at
most `n` different blocks needs room for `n`, and keeps what is left of it after
each call.

## Main definitions

* `Log`: The in-memory state of the log.
* `initlog`: The log of a freshly mounted file system.
* `beginOp`, `logWrite`, `endOp`: The critical sections of the operations.
* `commitDone`: The end of a commit.
* `Log.Room`: An operation is open, and `n` blocks still fit.

## Theorems

* `Log.logWrite_of_room`, `Log.Room.note`: With room left, `log_write` notes the block.
-/

namespace Xv6

/-- `struct log`, less the lock and the device. -/
structure Log where
  start : Nat
  size : Nat
  outstanding : Nat
  committing : Bool
  lh : List Nat
  deriving DecidableEq, Repr

namespace Log

/-- The log `initlog` sets up, once recovery has cleared it. -/
def initlog (sb : Superblock) : Log :=
  { start := sb.logstart, size := sb.nlog, outstanding := 0, committing := false, lh := [] }

/-- `begin_op`: wait for a commit in progress, or for log space. -/
def beginOp (l : Log) : Outcome Panic Log :=
  if l.committing then .wait
  else if l.lh.length + (l.outstanding + 1) * MAXOPBLOCKS > LOGSIZE then .wait
  else .done { l with outstanding := l.outstanding + 1 }

/-- `log_write`: note block `b` for the next commit. The flag tells whether
    the buffer has to be pinned. -/
def logWrite (l : Log) (b : Nat) : Outcome Panic (Log × Bool) :=
  if l.lh.length ≥ LOGSIZE ∨ l.lh.length ≥ l.size - 1 then .panic .tooBigTransaction
  else if l.outstanding < 1 then .panic .logWriteOutsideTrans
  else if b ∈ l.lh then .done (l, false)
  else .done ({ l with lh := l.lh ++ [b] }, true)

/-- The first critical section of `end_op`. The flag tells whether the caller
    has to commit. -/
def endOp (l : Log) : Outcome Panic (Log × Bool) :=
  if l.committing then .panic .logCommitting
  else if l.outstanding - 1 = 0 then
    .done ({ l with outstanding := l.outstanding - 1, committing := true }, true)
  else .done ({ l with outstanding := l.outstanding - 1 }, false)

/-- The log after a commit: emptied by `commit`, opened again by `end_op`. -/
def commitDone (l : Log) : Log := { l with committing := false, lh := [] }

/-! ### Room in the log -/

/-- The log with block `b` noted for the next commit. -/
def note (l : Log) (b : Nat) : Log := if b ∈ l.lh then l else { l with lh := l.lh ++ [b] }

/-- An operation is open, and `n` more blocks fit. -/
structure Room (l : Log) (n : Nat) : Prop where
  opened : 1 ≤ l.outstanding
  header : l.lh.length + n ≤ LOGSIZE
  disk : l.lh.length + n ≤ l.size - 1

theorem logWrite_of_room {l : Log} (h : l.Room 1) (b : Nat) :
    l.logWrite b = .done (l.note b, !decide (b ∈ l.lh)) := by
  have h₁ := h.header
  have h₂ := h.disk
  unfold logWrite note
  rw [if_neg (by omega), if_neg (Nat.not_lt.mpr h.opened)]
  by_cases hb : b ∈ l.lh
  · rw [if_pos hb, if_pos hb, decide_eq_true hb]
    rfl
  · rw [if_neg hb, if_neg hb, decide_eq_false hb]
    rfl

theorem Room.note {l : Log} {n : Nat} (h : l.Room (n + 1)) (b : Nat) : (l.note b).Room n := by
  have h₁ := h.header
  have h₂ := h.disk
  unfold Log.note
  by_cases hb : b ∈ l.lh
  · rw [if_pos hb]
    exact ⟨h.opened, by omega, by omega⟩
  · rw [if_neg hb]
    have hlen : (l.lh ++ [b]).length + n = l.lh.length + (n + 1) := by
      rw [List.length_append, List.length_singleton]
      omega
    exact ⟨h.opened, hlen ▸ h₁, hlen ▸ h₂⟩

theorem Room.mono {l : Log} {m n : Nat} (h : l.Room n) (hm : m ≤ n) : l.Room m :=
  ⟨h.opened, by have := h.header; omega, by have := h.disk; omega⟩

end Log

end Xv6
