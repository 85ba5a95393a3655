import Xv6.Lib.Ring
import Xv6.Param

/-!
# Pipes

The pipe of `kernel/pipe.c` and its concurrent users.

`pipewrite` and `piperead` hold `pi->lock` throughout, except while they
sleep, but they are not atomic: `killed` is tested on every byte of a write
and another CPU may set it in between. The model therefore steps through the
loops one iteration at a time, with the lock as part of the state, and lets
any process take the next step. A process inside a call is at a `Pc`; the
constructors follow the places where the source can be interrupted.

Sleeping releases the lock and a wakeup sends the sleeper back to acquire it.
A sleeper may also be resumed for no reason at all (`Event.wake`), which both
loops have to survive, since they retest their condition.

User memory enters through the two arguments of a call. The source buffer of a
write gives `none` where `copyin` fails, and the destination of a read gives
`false` where `copyout` fails.

The bytes taken from writers and the bytes handed to readers are recorded in
the order in which that happens. No step reads the record.

## Main definitions

* `Pipe`: The ring, its counters and the two open flags.
* `Pc`: Where a process stands inside a pipe call.
* `System`: One pipe and its users.
* `advance`: The next step of a process inside a call.
-/

namespace Xv6

open Function

/-- `struct pipe`, without its lock. -/
structure Pipe where
  data : Fin PIPESIZE → Byte
  nread : BitVec 32
  nwrite : BitVec 32
  readopen : Bool
  writeopen : Bool

namespace Pipe

/-- The pipe as `pipealloc` leaves it. The page comes from `kalloc`, so the
    ring starts with whatever was in it. -/
def pipealloc (data : Fin PIPESIZE → Byte) : Pipe :=
  { data := data, nread := 0, nwrite := 0, readopen := true, writeopen := true }

/-- The test `pi->nwrite == pi->nread + PIPESIZE`. -/
def full (pi : Pipe) : Bool := pi.nwrite == pi.nread + BitVec.ofNat 32 PIPESIZE

def empty (pi : Pipe) : Bool := pi.nread == pi.nwrite

/-- `pi->data[pi->nwrite++ % PIPESIZE] = ch`. -/
def put (pi : Pipe) (ch : Byte) : Pipe :=
  { pi with
    data := update pi.data (Ring.slot PIPESIZE pi.nwrite) ch
    nwrite := pi.nwrite + 1 }

/-- The byte `pi->data[pi->nread % PIPESIZE]`. -/
def front (pi : Pipe) : Byte := pi.data (Ring.slot PIPESIZE pi.nread)

def drop (pi : Pipe) : Pipe := { pi with nread := pi.nread + 1 }

/-- The bytes in the ring, oldest first. -/
def contents (pi : Pipe) : List Byte := Ring.contents pi.data pi.nread pi.nwrite

/-- A write buffer in user memory; `copyin` fails where it is `none`. -/
abbrev Src := Nat → Option Byte

/-- A read buffer in user memory; `copyout` fails where it is `false`. -/
abbrev Dst := Nat → Bool

/-- Where a process stands. The `w` states are inside `pipewrite` and the `r`
    states inside `piperead`; `lock` is waiting for `pi->lock`, and every
    other state inside a call except `sleep` holds it. -/
inductive Pc where
  | user
  | ret (v : Int)
  | wlock (src : Src) (n : Int) (i : Nat)
  | wloop (src : Src) (n : Int) (i : Nat)
  | wsleep (src : Src) (n : Int) (i : Nat)
  | wexit (i : Nat)
  | rlock (dst : Dst) (n : Int)
  | rwait (dst : Dst) (n : Int)
  | rsleep (dst : Dst) (n : Int)
  | rcopy (dst : Dst) (n : Int) (i : Nat)
  | rexit (i : Nat)

/-- The process is in user space, so it can start a call. -/
def Pc.outside : Pc → Bool
  | user => true
  | ret _ => true
  | _ => false

structure System (T : Type) where
  pi : Pipe
  lock : Option T
  pc : T → Pc
  killed : T → Bool
  accepted : List Byte
  delivered : List Byte

/-- A fresh pipe with every process in user space. -/
def init (T : Type) (data : Fin PIPESIZE → Byte) : System T :=
  { pi := pipealloc data, lock := none, pc := fun _ => .user, killed := fun _ => false,
    accepted := [], delivered := [] }

inductive Event (T : Type) where
  | write (t : T) (src : Src) (n : Int)
  | read (t : T) (dst : Dst) (n : Int)
  | step (t : T)
  | wake (t : T)
  | kill (t : T)
  | close (t : T) (writable : Bool)

/-- Resuming a sleeper sends it back to acquire the lock. -/
def Pc.resume : Pc → Pc
  | wsleep src n i => wlock src n i
  | rsleep dst n => rlock dst n
  | pc => pc

/-- `wakeup(&pi->nread)` on one process. -/
def Pc.wakeReader : Pc → Pc
  | rsleep dst n => rlock dst n
  | pc => pc

/-- `wakeup(&pi->nwrite)` on one process. -/
def Pc.wakeWriter : Pc → Pc
  | wsleep src n i => wlock src n i
  | pc => pc

variable {T : Type} [DecidableEq T]

namespace System

def goto (s : System T) (t : T) (pc : Pc) : System T :=
  { s with pc := update s.pc t pc }

def wakeReaders (s : System T) : System T := { s with pc := fun t => (s.pc t).wakeReader }

def wakeWriters (s : System T) : System T := { s with pc := fun t => (s.pc t).wakeWriter }

def release (s : System T) : System T := { s with lock := none }

/-- `acquire(&pi->lock)`, waiting while another process holds it. -/
def acquire (s : System T) (t : T) (pc : Pc) : Outcome Panic (System T) :=
  match s.lock with
  | none => .done ({ s with lock := some t }.goto t pc)
  | some _ => .wait

end System

/-- One iteration of the loop of `pipewrite`, with the lock held. -/
def pipewrite (s : System T) (t : T) (src : Src) (n : Int) (i : Nat) : System T :=
  if (i : Int) < n then
    if s.pi.readopen = false ∨ s.killed t = true then
      s.release.goto t (.ret (-1))
    else if s.pi.full then
      (s.wakeReaders.goto t (.wsleep src n i)).release
    else
      match src i with
      | none => s.goto t (.wexit i)
      | some ch =>
        { s with pi := s.pi.put ch, accepted := s.accepted ++ [ch] }.goto t (.wloop src n (i + 1))
  else s.goto t (.wexit i)

/-- The wait loop at the start of `piperead`, with the lock held. -/
def pipereadWait (s : System T) (t : T) (dst : Dst) (n : Int) : System T :=
  if s.pi.empty ∧ s.pi.writeopen then
    if s.killed t then s.release.goto t (.ret (-1))
    else (s.goto t (.rsleep dst n)).release
  else s.goto t (.rcopy dst n 0)

/-- One iteration of the copy loop of `piperead`, with the lock held. The
    byte leaves the ring before `copyout` is tried. -/
def piperead (s : System T) (t : T) (dst : Dst) (n : Int) (i : Nat) : System T :=
  if (i : Int) < n then
    if s.pi.empty then s.goto t (.rexit i)
    else if dst i then
      { s with pi := s.pi.drop, delivered := s.delivered ++ [s.pi.front] }.goto t
        (.rcopy dst n (i + 1))
    else { s with pi := s.pi.drop }.goto t (.rexit i)
  else s.goto t (.rexit i)

def advance (s : System T) (t : T) : Outcome Panic (System T) :=
  match s.pc t with
  | .user => .wait
  | .ret _ => .wait
  | .wlock src n i => s.acquire t (.wloop src n i)
  | .wloop src n i => .done (pipewrite s t src n i)
  | .wsleep _ _ _ => .wait
  | .wexit i => .done (s.wakeReaders.release.goto t (.ret i))
  | .rlock dst n => s.acquire t (.rwait dst n)
  | .rwait dst n => .done (pipereadWait s t dst n)
  | .rsleep _ _ => .wait
  | .rcopy dst n i => .done (piperead s t dst n i)
  | .rexit i => .done (s.wakeWriters.release.goto t (.ret i))

/-- `pipeclose`: one critical section that clears an open flag and wakes the
    other side. -/
def pipeclose (s : System T) (writable : Bool) : Outcome Panic (System T) :=
  match s.lock with
  | some _ => .wait
  | none =>
    if writable then .done { s with pi := { s.pi with writeopen := false } }.wakeReaders
    else .done { s with pi := { s.pi with readopen := false } }.wakeWriters

def step (s : System T) : Event T → Outcome Panic (System T)
  | .write t src n => if (s.pc t).outside then .done (s.goto t (.wlock src n 0)) else .wait
  | .read t dst n => if (s.pc t).outside then .done (s.goto t (.rlock dst n)) else .wait
  | .step t => advance s t
  | .wake t => .done (s.goto t (s.pc t).resume)
  | .kill t => .done { s with
      killed := update s.killed t true
      pc := update s.pc t (s.pc t).resume }
  | .close t writable => if (s.pc t).outside then pipeclose s writable else .wait

end Pipe

end Xv6
