import Xv6.Lib.Prog
import Xv6.Console.Model
import Xv6.Pipe.Model

/-!
# Processes and CPUs

The state of `kernel/proc.c` and the steps in which the kernel accesses it.

Several CPUs run threads. Each CPU has a scheduler thread, and each slot of the
process table has the kernel thread of its process. A step is one access to
shared state: a spin lock is taken or given up, the fields of a `struct proc`
are read or written, or a CPU switches to another thread. Spin locks belong to
CPUs and not to threads, as in the source, and so a lock that is held across a
switch is given up by another thread than the one that took it.

The fields of a `struct proc` that `p->lock` protects are a `Slot`. What a
function of the source writes to them between two lock operations is one
`Write`. The parents are apart, since `wait_lock` protects them. Everything
else that is shared and that processes wait for is a variable with a lock of
its own, named by a `Key`: a pipe, the clock, the console, and any number of
variables of a type that is left open.

Part of the state is not in the source, and no program reads it. It records why
a process sleeps, which of its incarnations a slot holds, and what has happened
so far.

## Main definitions

* `Slot`, `Write`: A slot of the process table, and the writes to it.
* `Key`: The variables processes wait for.
* `Nap`: The reasons to sleep.
* `Cmd`: The steps, with `Cmd.Ans` the answers.
-/

namespace Xv6.Sched

open Function (update)

/-- `enum procstate`. -/
inductive State where
  | unused
  | used
  | sleeping
  | runnable
  | running
  | zombie
  deriving DecidableEq, Repr

/-- What a process can sleep on: its own slot in `wait`, the counters of a pipe,
    the clock, the console, or another address. -/
inductive Chan (np : Nat) where
  | proc (p : Fin np)
  | nread (i : Nat)
  | nwrite (i : Nat)
  | ticks
  | cons
  | other (n : Nat)
  deriving DecidableEq, Repr

/-- The variables that processes wait for. -/
inductive Key where
  | pipe (i : Nat)
  | ticks
  | cons
  | data (n : Nat)
  deriving DecidableEq, Repr

inductive Lock (np : Nat) where
  | proc (p : Fin np)
  | wait
  | pid
  | key (k : Key)
  deriving DecidableEq, Repr

/-- A variable with its wakeups: `woken c ch` is set when `wakeup(ch)` has been
    called while condition `c` held, and `c` has held ever since. -/
structure Shared (D : Type) where
  val : D
  woken : (D → Bool) → Nat → Bool
  ok : ∀ c ch, woken c ch = true → c val = true

namespace Shared

variable {D : Type}

def update (x : Shared D) (f : D → D) : Shared D where
  val := f x.val
  woken := fun c ch => x.woken c ch && c (f x.val)
  ok := fun _ _ h => (Bool.and_eq_true_iff.mp h).2

/-- A call of `wakeup` begins. -/
def mark (x : Shared D) (ch : Nat) : Shared D where
  val := x.val
  woken := fun c ch' => if ch' = ch then c x.val else x.woken c ch'
  ok := by
    intro c ch' h
    by_cases hch : ch' = ch
    · rw [if_pos hch] at h
      exact h
    · rw [if_neg hch] at h
      exact x.ok c ch' h

end Shared

def Key.Val (D : Type) : Key → Type
  | pipe _ => Pipe
  | ticks => BitVec 32
  | cons => Console.Cons
  | data _ => Shared D

/-- Why a process sleeps: the call of `sleep`, with the condition it waits for. -/
inductive Nap (D : Type) where
  | wait
  | read (i : Nat)
  | write (i : Nat)
  | ticks (ticks0 n : BitVec 32)
  | cons
  | await (n : Nat) (c : D → Bool) (ch : Nat)

namespace Nap

variable {D : Type} {np : Nat}

/-- The channel of a sleeping process `p`. -/
def chan (p : Fin np) : Nap D → Chan np
  | wait => .proc p
  | read i => .nread i
  | write i => .nwrite i
  | ticks _ _ => .ticks
  | cons => .cons
  | await _ _ ch => .other ch

/-- The lock under which the condition is tested. -/
def lock : Nap D → Lock np
  | wait => .wait
  | read i => .key (.pipe i)
  | write i => .key (.pipe i)
  | ticks _ _ => .key .ticks
  | cons => .key .cons
  | await n _ _ => .key (.data n)

/-- The wait ends when the process is killed. -/
def killable : Nap D → Bool
  | await _ _ _ => false
  | _ => true

/-- What the process waits for has come, as the variable shows. For a condition
    `c` this means that it holds and that there has been a wakeup since. -/
def readyAt : Nap D → (k : Key) → k.Val D → Prop
  | read i, .pipe j, x => i = j ∧ (Pipe.empty x = false ∨ Pipe.writeopen x = false)
  | write i, .pipe j, x => i = j ∧ (Pipe.full x = false ∨ Pipe.readopen x = false)
  | ticks ticks0 n, .ticks, x => ¬(show BitVec 32 from x) - ticks0 < n
  | cons, .cons, x => Console.Cons.r x ≠ Console.Cons.w x
  | await n c ch, .data m, x => n = m ∧ Shared.woken x c ch = true
  | _, _, _ => False

end Nap

/-- The part of `struct proc` that `p->lock` protects. The last three fields
    record why the process sleeps, the incarnation, and whether `kill` or
    `setkilled` has named it. -/
structure Slot (np : Nat) (D : Type) where
  state : State
  chan : Option (Chan np)
  killed : Bool
  xstate : Int
  pid : BitVec 32
  nap : Option (Nap D)
  inc : Nat
  hit : Bool

/-- What the functions of `proc.c` write to a slot. -/
inductive Write (np : Nat) (D : Type) where
  -- `allocproc`.
  | alloc (pid : BitVec 32)
  -- `freeproc`.
  | free
  -- The end of `fork`.
  | ready
  -- `exit`.
  | exit (status : Int)
  -- `scheduler`.
  | run
  -- `yield`.
  | yield
  -- `sleep`: the decision to sleep, the writes, and the last one.
  | commit (w : Nap D)
  | sleep (ch : Chan np)
  | tidy
  -- `wakeup`.
  | wake
  -- `kill` and `setkilled`.
  | kill (pid : BitVec 32)
  | setkilled

namespace Write

variable {np : Nat} {D : Type}

/-- The slot after a write. The number stands for a new incarnation. -/
def apply (n : Nat) : Write np D → Slot np D → Slot np D
  | alloc pid, x => { x with pid := pid, state := .used, inc := n, hit := false }
  | free, x => { x with
      pid := 0, chan := none, killed := false, xstate := 0, state := .unused, nap := none }
  | ready, x => { x with state := .runnable }
  | exit status, x => { x with xstate := status, state := .zombie }
  | run, x => { x with state := .running }
  | yield, x => { x with state := .runnable }
  | commit w, x => { x with nap := some w }
  | sleep ch, x => { x with chan := some ch, state := .sleeping }
  | tidy, x => { x with chan := none }
  | wake, x => { x with state := .runnable, nap := none }
  | kill _, x =>
    if x.state = .sleeping then
      { x with killed := true, hit := true, state := .runnable, nap := none }
    else { x with killed := true, hit := true }
  | setkilled, x => { x with killed := true, hit := true }

end Write

/-- The end of a process: incarnation, pid and exit status. -/
structure Exit where
  inc : Nat
  pid : BitVec 32
  status : Int
  deriving DecidableEq, Repr

/-- What `wait` can learn of a process that has ended. -/
def Slot.ending {np : Nat} {D : Type} (x : Slot np D) : Exit := ⟨x.inc, x.pid, x.xstate⟩

/-- A process that `wait` has found: its end, the caller and the parent. -/
structure Reap (np : Nat) where
  exit : Exit
  caller : Fin np
  parent : Option (Fin np)

/-- A `kill` that has found its target: the slot as it was. -/
structure Struck (np : Nat) (D : Type) where
  pid : BitVec 32
  target : Fin np
  before : Slot np D

/-- What has happened so far. -/
structure Ghost (np : Nat) (D : Type) where
  -- The number of writes to slots.
  count : Nat
  exits : List Exit
  reaps : List (Reap np)
  struck : List (Struck np D)
  -- The calls of `kill` and what they returned.
  returned : List (BitVec 32 × Int)
  -- The process has found itself not killed and is about to sleep.
  window : Fin np → Bool
  -- Somebody was killed in that window.
  untimely : Bool
  -- A writer has left the pipe without waking readers.
  rude : Nat → Bool

/-- A thread: that of a process, or the scheduler of a CPU. -/
inductive Thread (np nc : Nat) where
  | proc (p : Fin np)
  | sched (c : Fin nc)
  deriving DecidableEq, Repr

structure Machine (np nc : Nat) (D : Type) where
  slot : Fin np → Slot np D
  parent : Fin np → Option (Fin np)
  nextpid : BitVec 32
  key : (k : Key) → k.Val D
  lock : Lock np → Option (Fin nc)
  -- `c->noff` and `c->proc`.
  noff : Fin nc → Nat
  cproc : Fin nc → Option (Fin np)
  -- The process whose thread a CPU runs, if it does not run its scheduler.
  on : Fin nc → Option (Fin np)
  -- What `wait` has copied out to a process.
  status : Fin np → Option Int
  ghost : Ghost np D

/-- The thread a CPU runs. -/
def Machine.cur {np nc : Nat} {D : Type} (m : Machine np nc D) (c : Fin nc) : Thread np nc :=
  match m.on c with
  | some p => .proc p
  | none => .sched c

/-- What a process does to a variable while it holds its lock: change it, wake up
    those who sleep on a channel, or wait for a condition. -/
inductive Op (D : Type) where
  | update (f : D → D)
  | wakeup (ch : Nat)
  | await (c : D → Bool) (ch : Nat)

/-- Interrupts: the timer, a character, or a device with a variable. -/
inductive Intr (D : Type) where
  | timer
  | console (c : Byte)
  | device (n : Nat) (f : D → D) (ch : Nat)

inductive Syscall (D : Type) where
  | fork
  | exit (status : Int)
  | wait (addr : Bool)
  | kill (pid : BitVec 32)
  | pipewrite (i : Nat) (src : Pipe.Src) (n : Int)
  | piperead (i : Nat) (dst : Pipe.Dst) (n : Int)
  | pipeclose (i : Nat) (writable : Bool)
  | sleep (n : BitVec 32)
  | consoleread (dst : Pipe.Dst) (n : Nat)
  | section (n : Nat) (ops : List (Op D))

/-- What brings a process from user space into the kernel. -/
inductive Trap (D : Type) where
  | syscall (sc : Syscall D)
  | intr (h : Intr D)
  | fault

inductive Cmd (np : Nat) (D : Type) where
  | panic (e : Panic)
  | acquire (l : Lock np)
  | release (l : Lock np)
  | holding (l : Lock np)
  | noff
  | cpuid
  | myproc
  | setProc (o : Option (Fin np))
  | read (p : Fin np)
  -- The same without a lock.
  | dump (p : Fin np)
  | write (p : Fin np) (w : Write np D)
  | parent (p : Fin np)
  | setParent (p : Fin np) (o : Option (Fin np))
  | nextpid
  | setNextpid (pid : BitVec 32)
  | get (k : Key)
  | set (k : Key) (x : k.Val D)
  -- To the thread of a process, or to the scheduler.
  | swtch (o : Option (Fin np))
  -- The thread of the process will start in `forkret`.
  | spawn (p : Fin np)
  -- Whether an allocation succeeds, or the copy of an exit status to the process.
  | flip
  | copyout (p : Fin np) (status : Int)
  -- What comes from user space.
  | trap
  -- For the record.
  | window (p : Fin np) (b : Bool)
  | rude (i : Nat)
  | reaped (p caller : Fin np) (e : Exit)
  | returned (pid : BitVec 32) (r : Int)

def Cmd.Ans {np : Nat} {D : Type} : Cmd np D → Type
  | panic _ => Empty
  | holding _ => Bool
  | noff => Nat
  | cpuid => Nat
  | myproc => Option (Fin np)
  | read _ => Slot np D
  | dump _ => Slot np D
  | parent _ => Option (Fin np)
  | nextpid => BitVec 32
  | get k => k.Val D
  | flip => Bool
  | copyout _ _ => Bool
  | trap => Trap D
  | _ => Unit

/-- What comes from outside in a step. -/
structure Input (D : Type) where
  flip : Bool
  trap : Trap D

section Perform

variable {np nc : Nat} {D : Type}

namespace Machine

/-- `acquire`, with the `push_off` in it. -/
def acquire (m : Machine np nc D) (c : Fin nc) (l : Lock np) :
    Outcome Panic (Machine np nc D) :=
  match m.lock l with
  | none => .done { m with
      lock := update m.lock l (some c)
      noff := update m.noff c (m.noff c + 1) }
  | some c' => if c' = c then .panic .acquire else .wait

/-- `release`, with the `pop_off` in it. -/
def release (m : Machine np nc D) (c : Fin nc) (l : Lock np) :
    Outcome Panic (Machine np nc D) :=
  if m.lock l ≠ some c then .panic .release
  else if m.noff c < 1 then .panic .popOff
  else .done { m with
    lock := update m.lock l none
    noff := update m.noff c (m.noff c - 1) }

/-- `swtch`: the CPU goes on with another thread. -/
def switch (m : Machine np nc D) (c : Fin nc) (o : Option (Fin np)) : Machine np nc D :=
  { m with on := update m.on c o }

/-- A write to a slot, and the record of it. -/
def write (m : Machine np nc D) (p : Fin np) (w : Write np D) : Machine np nc D :=
  let x := m.slot p
  let g := { m.ghost with count := m.ghost.count + 1 }
  { m with
    slot := update m.slot p (w.apply m.ghost.count x)
    ghost :=
      match w with
      | .exit status => { g with exits := ⟨x.inc, x.pid, status⟩ :: g.exits }
      | .kill pid => { g with
          struck := ⟨pid, p, x⟩ :: g.struck
          untimely := g.untimely || g.window p }
      | _ => g }

end Machine

/-- What a step does on CPU `c`. -/
def perform (c : Fin nc) (i : Input D) :
    (cmd : Cmd np D) → Machine np nc D → Outcome Panic (cmd.Ans × Machine np nc D)
  | .panic e, _ => .panic e
  | .acquire l, m => do return ((), ← m.acquire c l)
  | .release l, m => do return ((), ← m.release c l)
  | .holding l, m => .done (decide (m.lock l = some c), m)
  | .noff, m => .done (m.noff c, m)
  | .cpuid, m => .done (c.val, m)
  | .myproc, m => .done (m.cproc c, m)
  | .setProc o, m => .done ((), { m with cproc := update m.cproc c o })
  | .read p, m => .done (m.slot p, m)
  | .dump p, m => .done (m.slot p, m)
  | .write p w, m => .done ((), m.write p w)
  | .parent p, m => .done (m.parent p, m)
  | .setParent p o, m => .done ((), { m with parent := update m.parent p o })
  | .nextpid, m => .done (m.nextpid, m)
  | .setNextpid pid, m => .done ((), { m with nextpid := pid })
  | .get k, m => .done (m.key k, m)
  | .set k x, m => .done ((), { m with key := update m.key k x })
  | .swtch o, m => .done ((), m.switch c o)
  | .spawn _, m => .done ((), m)
  | .flip, m => .done (i.flip, m)
  | .copyout p status, m => .done (i.flip, { m with
      status := if i.flip then update m.status p (some status) else m.status })
  | .trap, m => .done (i.trap, m)
  | .window p b, m => .done ((), { m with
      ghost := { m.ghost with window := update m.ghost.window p b } })
  | .rude i, m => .done ((), { m with
      ghost := { m.ghost with rude := update m.ghost.rude i true } })
  | .reaped p caller e, m => .done ((), { m with
      ghost := { m.ghost with reaps := ⟨e, caller, m.parent p⟩ :: m.ghost.reaps } })
  | .returned pid r, m => .done ((), { m with
      ghost := { m.ghost with returned := (pid, r) :: m.ghost.returned } })

end Perform

end Xv6.Sched
