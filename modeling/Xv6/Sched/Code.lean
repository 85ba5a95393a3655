import Xv6.Sched.Model

/-!
# The Code of the Scheduler

The functions of `kernel/proc.c`, and those of the functions that wait:
`pipe.c`, `sys_sleep`, `consoleread` and the interrupt handlers that wake them.

A function is a program over the steps of the machine. The tests of a lock or
of the state of a process are where the source has them, and the loops over the
process table are recursions on the list of slots. A loop that sleeps can go on
for ever, so its program is one iteration and ends with a `Label`, the place
where the thread goes on. All such loops are in the outermost function of a
system call, so that a label needs nothing but their variables.

The functions that a process calls for itself take the process as an argument,
where the source has `myproc()`. Memory, files and names are left out; what can
fail in them is a `flip`.

## Main definitions

* `Label`: Where a thread goes on.
* `sleep`, `wakeup`, `sched`, `scheduler`: Waiting and switching.
* `fork`, `exit`, `wait`, `kill`: The life of a process.
* `pipewrite`, `piperead`, `sysSleep`, `consoleread`: The waits.
* `code`: The program at a label.
* `System`, `step`: The machine with the threads' programs.
* `boot`: The system when the CPUs enter `scheduler`.
-/

namespace Xv6.Sched

open Function (update)
open Console (Cons INPUT_BUF_SIZE ctrlD ctrlP newline)

/-- Where a thread goes on. -/
inductive Label (D : Type) where
  -- In user space, with the result of the last system call.
  | user (r : Int)
  -- The end of `usertrap`.
  | trapret (r : Int)
  -- The loops, with their locks held.
  | wait (addr : Bool)
  | pipewrite (i : Nat) (src : Pipe.Src) (n : Int) (k : Nat) (accepted : Bool)
  | piperead (i : Nat) (dst : Pipe.Dst) (n : Int)
  | sysSleep (ticks0 n : BitVec 32)
  | consoleread (dst : Pipe.Dst) (target n : Nat)
  | section (n : Nat) (ops : List (Op D))
  -- The loop of `scheduler`.
  | sched

section Programs

variable {np nc : Nat} {D : Type}

abbrev P (np : Nat) (D : Type) := Prog (Cmd np D) Cmd.Ans

def issue (c : Cmd np D) : P np D c.Ans := Prog.call c

def panic {α : Type} (e : Panic) : P np D α := Prog.act (.panic e) Empty.elim

def acquire (l : Lock np) : P np D Unit := issue (.acquire l)

def release (l : Lock np) : P np D Unit := issue (.release l)

def holding (l : Lock np) : P np D Bool := issue (.holding l)

def noff : P np D Nat := issue .noff

def cpuid : P np D Nat := issue .cpuid

def myproc : P np D (Option (Fin np)) := issue .myproc

def read (p : Fin np) : P np D (Slot np D) := issue (.read p)

def write (p : Fin np) (w : Write np D) : P np D Unit := issue (.write p w)

def getParent (p : Fin np) : P np D (Option (Fin np)) := issue (.parent p)

def getNextpid : P np D (BitVec 32) := issue .nextpid

def get (k : Key) : P np D (k.Val D) := issue (.get k)

def set (k : Key) (x : k.Val D) : P np D Unit := issue (.set k x)

def flip : P np D Bool := issue .flip

/-- `copyout` of an exit status to the memory of the process, if `wait` has got an
    address for it. -/
def copyout (addr : Bool) (p : Fin np) (status : Int) : P np D Bool :=
  if addr then issue (.copyout p status) else return true

/-! ### Switching -/

/-- `sched`. Interrupts are off whenever a lock is held. -/
def sched (p : Fin np) : P np D Unit := do
  if !(← holding (.proc p)) then panic .schedLock
  else if (← noff) ≠ 1 then panic .schedLocks
  else if (← read p).state = .running then panic .schedRunning
  else issue (.swtch none)

def yield (p : Fin np) : P np D Unit := do
  acquire (.proc p)
  write p .yield
  sched p
  release (.proc p)

def forkret (p : Fin np) : P np D (Label D) := do
  release (.proc p)
  return .user 0

/-- The loop of `scheduler` over the process table. -/
def schedulerFrom : List (Fin np) → P np D Unit
  | [] => return ()
  | p :: ps => do
    acquire (.proc p)
    let x ← read p
    if x.state = .runnable then
      write p .run
      issue (.setProc (some p))
      issue (.swtch (some p))
      issue (.setProc none)
      release (.proc p)
      schedulerFrom ps
    else
      release (.proc p)
      schedulerFrom ps

def scheduler : P np D (Label D) := do
  issue (.setProc none)
  schedulerFrom (List.finRange np)
  return .sched

/-! ### Sleep and wakeup -/

/-- `sleep`. The last argument is for the record. -/
def sleep (p : Fin np) (ch : Chan np) (lk : Lock np) (w : Nap D) : P np D Unit := do
  acquire (.proc p)
  write p (.commit w)
  issue (.window p false)
  release lk
  write p (.sleep ch)
  sched p
  write p .tidy
  release (.proc p)
  acquire lk

/-- The loop of `wakeup` over the process table. A null channel is `none`. -/
def wakeupFrom (ch : Option (Chan np)) : List (Fin np) → P np D Unit
  | [] => return ()
  | p :: ps => do
    let me ← myproc
    if some p ≠ me then
      acquire (.proc p)
      let x ← read p
      if x.state = .sleeping ∧ x.chan = ch then
        write p .wake
        release (.proc p)
        wakeupFrom ch ps
      else
        release (.proc p)
        wakeupFrom ch ps
    else wakeupFrom ch ps

def wakeup (ch : Option (Chan np)) : P np D Unit := wakeupFrom ch (List.finRange np)

/-- The loop of `kill` over the process table. -/
def killFrom (pid : BitVec 32) : List (Fin np) → P np D Int
  | [] => return -1
  | p :: ps => do
    acquire (.proc p)
    let x ← read p
    if x.pid = pid then
      write p (.kill pid)
      release (.proc p)
      return 0
    else
      release (.proc p)
      killFrom pid ps

def kill (pid : BitVec 32) : P np D Int := do
  let r ← killFrom pid (List.finRange np)
  issue (.returned pid r)
  return r

def setkilled (p : Fin np) : P np D Unit := do
  acquire (.proc p)
  write p .setkilled
  release (.proc p)

/-- `killed`. A process that is about to sleep records what it has found. -/
def killed (p : Fin np) (waits : Bool) : P np D Bool := do
  acquire (.proc p)
  let x ← read p
  if waits then
    issue (.window p (!x.killed))
    release (.proc p)
    return x.killed
  else
    release (.proc p)
    return x.killed

/-! ### The life of a process -/

def allocpid : P np D (BitVec 32) := do
  acquire .pid
  let pid ← getNextpid
  issue (.setNextpid (pid + 1))
  release .pid
  return pid

def freeproc (p : Fin np) : P np D Unit := do
  issue (.setParent p none)
  write p .free

/-- `allocproc` from `found` on. -/
def allocFound (p : Fin np) : P np D (Option (Fin np)) := do
  let pid ← allocpid
  write p (.alloc pid)
  -- The trapframe, and the page table.
  if !(← flip) then
    freeproc p
    release (.proc p)
    return none
  else if !(← flip) then
    freeproc p
    release (.proc p)
    return none
  else
    issue (.spawn p)
    return some p

/-- The loop of `allocproc` over the process table. -/
def allocprocFrom : List (Fin np) → P np D (Option (Fin np))
  | [] => return none
  | p :: ps => do
    acquire (.proc p)
    let x ← read p
    if x.state = .unused then allocFound p
    else
      release (.proc p)
      allocprocFrom ps

/-- `allocproc`: the slot is returned with its lock held. -/
def allocproc : P np D (Option (Fin np)) := allocprocFrom (List.finRange np)

def fork (p : Fin np) : P np D Int := do
  match ← allocproc with
  | none => return -1
  | some q =>
    -- The user memory is copied.
    if !(← flip) then
      freeproc q
      release (.proc q)
      return -1
    else
      let x ← read q
      release (.proc q)
      acquire .wait
      issue (.setParent q (some p))
      release .wait
      acquire (.proc q)
      write q .ready
      release (.proc q)
      return x.pid.toInt

/-- The loop of `reparent` over the process table. -/
def reparentFrom (init p : Fin np) : List (Fin np) → P np D Unit
  | [] => return ()
  | q :: qs => do
    if (← getParent q) = some p then
      issue (.setParent q (some init))
      wakeup (some (.proc init))
      reparentFrom init p qs
    else reparentFrom init p qs

def reparent (init p : Fin np) : P np D Unit := reparentFrom init p (List.finRange np)

/-- `exit`, from where the files are closed. -/
def exit {α : Type} (init p : Fin np) (status : Int) : P np D α := do
  if p = init then panic .initExiting
  else
    acquire .wait
    reparent init p
    let pp ← getParent p
    wakeup (pp.map .proc)
    acquire (.proc p)
    write p (.exit status)
    release .wait
    sched p
    panic .zombieExit

/-- The loop of `wait` over the process table: the result if there is one, or
    else whether there are children. -/
def waitFrom (p : Fin np) (addr : Bool) : List (Fin np) → Bool → P np D (Int ⊕ Bool)
  | [], havekids => return .inr havekids
  | q :: qs, havekids => do
    if (← getParent q) = some p then
      acquire (.proc q)
      let x ← read q
      if x.state = .zombie then
        if (← copyout addr p x.xstate) = false then
          release (.proc q)
          release .wait
          return .inl (-1)
        else
          issue (.reaped q p x.ending)
          freeproc q
          release (.proc q)
          release .wait
          return .inl x.pid.toInt
      else
        release (.proc q)
        waitFrom p addr qs true
    else waitFrom p addr qs havekids

/-- One round of the loop of `wait`. -/
def waitRound (p : Fin np) (addr : Bool) : P np D (Label D) := do
  match ← waitFrom p addr (List.finRange np) false with
  | .inl r => return .trapret r
  | .inr havekids =>
    if !havekids then
      release .wait
      return .trapret (-1)
    else if ← killed p true then
      release .wait
      return .trapret (-1)
    else
      sleep p (.proc p) .wait .wait
      return .wait addr

/-! ### Pipes -/

/-- The end of `pipewrite`. -/
def pipewriteEnd (i k : Nat) : P np D (Label D) := do
  wakeup (some (.nread i))
  release (.key (.pipe i))
  return .trapret k

/-- The way out of `pipewrite` when there is no reader or the writer is killed. It
    is recorded whether bytes have been accepted since the last wakeup. -/
def pipewriteBad (i : Nat) (accepted : Bool) : P np D (Label D) := do
  if accepted then
    issue (.rude i)
    release (.key (.pipe i))
    return .trapret (-1)
  else
    release (.key (.pipe i))
    return .trapret (-1)

/-- One round of the loop of `pipewrite`. -/
def pipewriteRound (p : Fin np) (i : Nat) (src : Pipe.Src) (n : Int) (k : Nat) (accepted : Bool) :
    P np D (Label D) := do
  if (k : Int) < n then
    let pi ← get (.pipe i)
    if Pipe.readopen pi = false then pipewriteBad i accepted
    else if ← killed p (Pipe.full pi) then pipewriteBad i accepted
    else if Pipe.full pi then
      wakeup (some (.nread i))
      sleep p (.nwrite i) (.key (.pipe i)) (.write i)
      return .pipewrite i src n k false
    else
      match src k with
      | none => pipewriteEnd i k
      | some ch =>
        set (.pipe i) (Pipe.put pi ch)
        return .pipewrite i src n (k + 1) true
  else pipewriteEnd i k

/-- The copy loop of `piperead`, over at most `fuel` more bytes. -/
def pipereadCopy (i : Nat) (dst : Pipe.Dst) : Nat → Nat → P np D Nat
  | 0, k => return k
  | fuel + 1, k => do
    let pi ← get (.pipe i)
    if Pipe.empty pi then return k
    else
      set (.pipe i) (Pipe.drop pi)
      if dst k then pipereadCopy i dst fuel (k + 1) else return k

/-- One round of the wait loop of `piperead`, or the rest. -/
def pipereadRound (p : Fin np) (i : Nat) (dst : Pipe.Dst) (n : Int) : P np D (Label D) := do
  let pi ← get (.pipe i)
  if Pipe.empty pi ∧ Pipe.writeopen pi then
    if ← killed p true then
      release (.key (.pipe i))
      return .trapret (-1)
    else
      sleep p (.nread i) (.key (.pipe i)) (.read i)
      return .piperead i dst n
  else
    let k ← pipereadCopy i dst n.toNat 0
    wakeup (some (.nwrite i))
    release (.key (.pipe i))
    return .trapret k

def pipeclose (i : Nat) (writable : Bool) : P np D Unit := do
  acquire (.key (.pipe i))
  let pi ← get (.pipe i)
  if writable then
    set (.pipe i) { pi with writeopen := false }
    wakeup (some (.nread i))
    release (.key (.pipe i))
  else
    set (.pipe i) { pi with readopen := false }
    wakeup (some (.nwrite i))
    release (.key (.pipe i))

/-! ### The clock, the console and other variables -/

/-- One round of the loop of `sys_sleep`. -/
def sysSleepRound (p : Fin np) (ticks0 n : BitVec 32) : P np D (Label D) := do
  let t ← get .ticks
  if (show BitVec 32 from t) - ticks0 < n then
    if ← killed p true then
      release (.key .ticks)
      return .trapret (-1)
    else
      sleep p .ticks (.key .ticks) (.ticks ticks0 n)
      return .sysSleep ticks0 n
  else
    release (.key .ticks)
    return .trapret 0

/-- The end of `consoleread`. -/
def consolereadEnd (k : Nat) : P np D (Label D) := do
  release (.key .cons)
  return .trapret k

/-- One round of the loops of `consoleread`, when `n` of `target` bytes are left. -/
def consolereadRound (p : Fin np) (dst : Pipe.Dst) (target n : Nat) : P np D (Label D) := do
  if n = 0 then consolereadEnd target
  else
    let x ← get .cons
    if Cons.r x = Cons.w x then
      if ← killed p true then
        release (.key .cons)
        return .trapret (-1)
      else
        sleep p .cons (.key .cons) .cons
        return .consoleread dst target n
    else
      let c := Cons.buf x (Ring.slot INPUT_BUF_SIZE (Cons.r x))
      let y : Cons := { x with r := Cons.r x + 1 }
      set .cons y
      if c = ctrlD then
        if n < target then
          set .cons { y with r := y.r - 1 }
          consolereadEnd (target - n)
        else consolereadEnd (target - n)
      else if dst (target - n) = false then consolereadEnd (target - n)
      else if c = newline then consolereadEnd (target - (n - 1))
      else return .consoleread dst target (n - 1)

/-- The next operation on a variable whose lock is held. -/
def sectionRound (p : Fin np) (n : Nat) : List (Op D) → P np D (Label D)
  | [] => do
    release (.key (.data n))
    return .trapret 0
  | .update f :: ops => do
    let x ← get (.data n)
    set (.data n) (Shared.update x f)
    return .section n ops
  | .wakeup ch :: ops => do
    let x ← get (.data n)
    set (.data n) (Shared.mark x ch)
    wakeup (some (.other ch))
    return .section n ops
  | .await c ch :: ops => do
    let x ← get (.data n)
    if c (Shared.val x) then return .section n ops
    else
      sleep p (.other ch) (.key (.data n)) (.await n c ch)
      return .section n (.await c ch :: ops)

/-! ### Traps -/

def clockintr : P np D Unit := do
  acquire (.key .ticks)
  let t ← get .ticks
  set .ticks ((show BitVec 32 from t) + 1)
  wakeup (some .ticks)
  release (.key .ticks)

/-- The loop of `procdump` over the process table. It takes no locks; what it prints
    is left out. -/
def procdumpFrom : List (Fin np) → P np D Unit
  | [] => return ()
  | p :: ps => do
    let _ ← issue (.dump p)
    procdumpFrom ps

def procdump : P np D Unit := procdumpFrom (List.finRange np)

def consoleintr (c : Byte) : P np D Unit := do
  acquire (.key .cons)
  if c = ctrlP then
    procdump
    release (.key .cons)
  else
    let x ← get .cons
    set .cons (Console.consoleintr x c).1
    if (Console.consoleintr x c).2 then
      wakeup (some .cons)
      release (.key .cons)
    else release (.key .cons)

/-- The handler of a device that changes a variable and wakes up a channel. -/
def deviceintr (n : Nat) (f : D → D) (ch : Nat) : P np D Unit := do
  acquire (.key (.data n))
  let x ← get (.data n)
  set (.data n) ((Shared.update x f).mark ch)
  wakeup (some (.other ch))
  release (.key (.data n))

/-- `devintr`: the result tells whether it was the timer. -/
def devintr : Intr D → P np D Bool
  | .timer => do
    if (← cpuid) = 0 then
      clockintr
      return true
    else return true
  | .console c => do
    consoleintr c
    return false
  | .device n f ch => do
    deviceintr n f ch
    return false

def kerneltrap (h : Intr D) : P np D Unit := do
  let timer ← devintr h
  if timer then
    match ← myproc with
    | none => return ()
    | some p => if (← read p).state = .running then yield p else return ()
  else return ()

def syscall (init p : Fin np) : Syscall D → P np D (Label D)
  | .fork => do
    let r ← fork p
    return .trapret r
  | .exit status => exit init p status
  | .wait addr => do
    acquire .wait
    return .wait addr
  | .kill pid => do
    let r ← kill pid
    return .trapret r
  | .pipewrite i src n => do
    acquire (.key (.pipe i))
    return .pipewrite i src n 0 false
  | .piperead i dst n => do
    acquire (.key (.pipe i))
    return .piperead i dst n
  | .pipeclose i writable => do
    pipeclose i writable
    return .trapret 0
  | .sleep n => do
    acquire (.key .ticks)
    let ticks0 ← get .ticks
    return .sysSleep ticks0 n
  | .consoleread dst n => do
    acquire (.key .cons)
    return .consoleread dst n n
  | .section n ops => do
    acquire (.key (.data n))
    return .section n ops

/-- The part of `usertrap` up to the second test of `killed`. -/
def usertrap (init p : Fin np) : Trap D → P np D (Label D)
  | .syscall sc => do
    if ← killed p false then exit init p (-1) else syscall init p sc
  | .intr h => do
    let timer ← devintr h
    if ← killed p false then exit init p (-1)
    else if timer then
      yield p
      return .user 0
    else return .user 0
  | .fault => do
    setkilled p
    return .trapret 0

def code (init : Fin np) : Thread np nc → Label D → P np D (Label D)
  | .sched _, _ => scheduler
  | .proc p, .user _ => do
    let tr ← issue .trap
    usertrap init p tr
  | .proc p, .trapret r => do
    if ← killed p false then exit init p (-1) else return .user r
  | .proc p, .wait addr => waitRound p addr
  | .proc p, .pipewrite i src n k accepted => pipewriteRound p i src n k accepted
  | .proc p, .piperead i dst n => pipereadRound p i dst n
  | .proc p, .sysSleep ticks0 n => sysSleepRound p ticks0 n
  | .proc p, .consoleread dst target n => consolereadRound p dst target n
  | .proc p, .section n ops => sectionRound p n ops
  | .proc _, .sched => return .sched

end Programs

/-! ### The system -/

/-- The machine and the rest of each thread's program. -/
structure System (np nc : Nat) (D : Type) where
  m : Machine np nc D
  rest : Thread np nc → P np D (Label D)

/-- What can happen next: a CPU takes a step, or it is interrupted. -/
inductive Event (nc : Nat) (D : Type) where
  | cpu (c : Fin nc) (i : Input D)
  | intr (c : Fin nc) (h : Intr D)

section System

variable {np nc : Nat} {D : Type}

/-- The thread that a step prepares. -/
def Cmd.spawned : Cmd np D → Option (Fin np)
  | spawn p => some p
  | _ => none

/-- The threads after a step of thread `t`. -/
def System.resume (x : System np nc D) (t : Thread np nc) (cmd : Cmd np D)
    (y : P np D (Label D)) : Thread np nc → P np D (Label D) :=
  match cmd.spawned with
  | some p => update (update x.rest t y) (.proc p) (forkret p)
  | none => update x.rest t y

/-- One step. Interrupts are possible while a CPU holds no lock. -/
def step (init : Fin np) (x : System np nc D) : Event nc D → Outcome Panic (System np nc D)
  | .cpu c i =>
    match x.rest (x.m.cur c) with
    | .ret l => .done { x with
        rest := update x.rest (x.m.cur c) (code init (x.m.cur c) l) }
    | .act cmd k => do
      let r ← perform c i cmd x.m
      return { m := r.2, rest := x.resume (x.m.cur c) cmd (k r.1) }
  | .intr c h =>
    if x.m.noff c = 0 then
      .done { x with
        rest := update x.rest (x.m.cur c)
          (kerneltrap h >>= fun _ => x.rest (x.m.cur c)) }
    else .wait

/-- What the variables are in the beginning. -/
structure Start (D : Type) where
  pipe : Nat → Pipe
  ticks : BitVec 32
  cons : Cons
  data : Nat → D

def Start.key (b : Start D) : (k : Key) → k.Val D
  | .pipe i => b.pipe i
  | .ticks => b.ticks
  | .cons => b.cons
  | .data n => { val := b.data n, woken := fun _ _ => false, ok := fun _ _ h => nomatch h }

/-- The process table after `userinit`. -/
def bootSlot (init p : Fin np) : Slot np D :=
  if p = init then
    { state := .runnable, chan := none, killed := false, xstate := 0, pid := 1, nap := none
      inc := 0, hit := false }
  else
    { state := .unused, chan := none, killed := false, xstate := 0, pid := 0, nap := none
      inc := 0, hit := false }

/-- The system when the CPUs enter `scheduler`. -/
def boot (init : Fin np) (b : Start D) : System np nc D where
  m :=
    { slot := bootSlot init
      parent := fun _ => none
      nextpid := 2
      key := b.key
      lock := fun _ => none
      noff := fun _ => 0
      cproc := fun _ => none
      on := fun _ => none
      status := fun _ => none
      ghost :=
        { count := 1, exits := [], reaps := [], struck := [], returned := []
          window := fun _ => false, untimely := false, rude := fun _ => false } }
  rest := fun t =>
    match t with
    | .sched _ => .ret .sched
    | .proc p => forkret p

/-- A state of some run. -/
def Reachable (init : Fin np) (b : Start D) (x : System np nc D) : Prop :=
  ∃ es, runs (step init) es (boot init b) = .done x

/-- The step that the thread on a CPU takes next. -/
def System.next (x : System np nc D) (c : Fin nc) : Option (Cmd np D) :=
  match x.rest (x.m.cur c) with
  | .ret _ => none
  | .act cmd _ => some cmd

end System

end Xv6.Sched
