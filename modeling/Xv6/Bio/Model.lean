import Xv6.Lib.Links
import Xv6.Lib.Machine
import Xv6.Log.Bio
import Mathlib.Algebra.BigOperators.Group.Finset.Piecewise

/-!
# The Buffer Cache and its Users

The buffer cache of `kernel/bio.c` with its linked list, used by any number of
processes at once.

What a function does under `bcache.lock` is one step. Between such steps other
processes run: after `bget` has counted its reference and before it has the
sleep-lock, while the block is read from the disk, and in `brelse` between the
sleep-lock and the count. A process in the middle of a call is at a `Pc`.

The disk is that of `virtio_disk_rw`, which finds a block by the number of its
first sector and does not look at the device.

The users follow some rules. A buffer is changed only by the process that holds
it. Before it is given back it is written, to the disk or under `log_write`, and
a pin is taken away only after a write to the disk. A step that breaks a rule is
not enabled. `changed` and `saved` are there to state the rules, and `trace` is a
record of what has been read and written; the code looks at none of them.

## Main definitions

* `Cache`, `bget`, `dropRef`: The buffers and their links.
* `System`: The cache, the disk and the processes.
* `Event`, `step`: What can happen next.
* `refs`: The references of a process to a buffer.
* `last`: What was written to a block most recently.
-/

namespace Xv6.Bio

open Function

/-- The buffers and the list through `bcache.head`. -/
structure Cache (P : Type) where
  buf : Fin NBUF → Buf P
  links : Links (Fin NBUF)

namespace Cache

variable {P : Type}

def binit (P : Type) : Cache P where
  buf := (Bcache.binit P).buf
  links := (List.finRange NBUF).foldl Links.pushFront .empty

def modify (c : Cache P) (i : Fin NBUF) (f : Buf P → Buf P) : Cache P :=
  { c with buf := update c.buf i (f (c.buf i)) }

/-- `bget`, up to the point where it waits for the buffer's lock. A loop over more
    nodes than there are buffers would not end. -/
def bget (c : Cache P) (dev b : Nat) : Outcome Panic (Cache P × Fin NBUF) :=
  match Links.find c.links.next (fun i => (c.buf i).dev = dev ∧ (c.buf i).blockno = b)
    (NBUF + 1) (c.links.next none) with
  | none => .wait
  | some (some i) => .done (c.modify i (fun x => { x with refcnt := x.refcnt + 1 }), i)
  | some none =>
    match Links.find c.links.prev (fun i => (c.buf i).refcnt = 0) (NBUF + 1)
        (c.links.prev none) with
    | none => .wait
    | some (some i) => .done (c.modify i (fun x =>
      { x with dev := dev, blockno := b, valid := false, refcnt := 1 }), i)
    | some none => .panic .bget

/-- The part of `brelse` under `bcache.lock`. -/
def dropRef (c : Cache P) (i : Fin NBUF) : Cache P :=
  let c := c.modify i (fun x => { x with refcnt := x.refcnt - 1 })
  if (c.buf i).refcnt = 0 then { c with links := (c.links.unlink i).pushFront i } else c

def bpin (c : Cache P) (i : Fin NBUF) : Cache P :=
  c.modify i (fun x => { x with refcnt := x.refcnt + 1 })

def bunpin (c : Cache P) (i : Fin NBUF) : Cache P :=
  c.modify i (fun x => { x with refcnt := x.refcnt - 1 })

end Cache

/-- The first sector of a block, computed with 32 bits in `virtio_disk_rw`. -/
def sector (b : Nat) : Nat := b * (BSIZE / 512) % 2 ^ 32

inductive Pc where
  | idle
  -- In `bget`, at `acquiresleep`.
  | locking (i : Fin NBUF)
  -- In `bread`, at the test of `valid`, and at the assignment.
  | reading (i : Fin NBUF)
  | validating (i : Fin NBUF)
  -- In `brelse`, at `acquire(&bcache.lock)`.
  | dropping (i : Fin NBUF)
  deriving DecidableEq

/-- A block as `bread` returns it, or as it is written. -/
inductive Obs (P : Type) where
  | read (p : P) (dev b : Nat) (d : Block)
  | write (p : P) (dev b : Nat) (d : Block)

/-- What was written to a block most recently; the record has the newest first. -/
def last {P : Type} (disk : Disk) : List (Obs P) → Nat → Nat → Block
  | [], _, b => disk (sector b)
  | .read _ _ _ _ :: tr, dev, b => last disk tr dev b
  | .write _ dev' b' d :: tr, dev, b => if dev' = dev ∧ b' = b then d else last disk tr dev b

structure System (P : Type) where
  cache : Cache P
  -- By sector.
  disk : Disk
  pc : P → Pc
  pins : Fin NBUF → Nat
  -- Changed since it was last written, to the disk or under `log_write`.
  changed : Fin NBUF → Bool
  -- Written to the disk by its holder, and not changed since.
  saved : Fin NBUF → Bool
  trace : List (Obs P)

inductive Event (P : Type) where
  | bread (p : P) (dev b : Nat)
  -- The next step of the call it is in.
  | step (p : P)
  | modify (p : P) (i : Fin NBUF) (d : Block)
  | bwrite (p : P) (i : Fin NBUF)
  -- `log_write` of a block that is not in the log, or of one that is.
  | bpin (p : P) (i : Fin NBUF)
  | absorb (p : P) (i : Fin NBUF)
  | bunpin (p : P) (i : Fin NBUF)
  | brelse (p : P) (i : Fin NBUF)

section System

variable {P : Type} [DecidableEq P]

/-- The cache is empty and every process is outside. -/
def boot (P : Type) (disk : Disk) : System P where
  cache := .binit P
  disk := disk
  pc := fun _ => .idle
  pins := fun _ => 0
  changed := fun _ => false
  saved := fun _ => false
  trace := []

namespace System

def setPc (x : System P) (p : P) (pc : Pc) : System P :=
  { x with pc := update x.pc p pc }

/-- `bread` returns. -/
def returned (x : System P) (p : P) (i : Fin NBUF) : System P :=
  let b := x.cache.buf i
  { x.setPc p .idle with trace := .read p b.dev b.blockno b.data :: x.trace }

/-- The contents of a buffer count as written. -/
def wrote (x : System P) (p : P) (i : Fin NBUF) : System P :=
  let b := x.cache.buf i
  { x with
    changed := update x.changed i false
    trace := .write p b.dev b.blockno b.data :: x.trace }

/-- The process is in no call and holds the buffer. -/
def holds (x : System P) (p : P) (i : Fin NBUF) : Bool :=
  x.pc p = .idle ∧ (x.cache.buf i).lock = some p

/-- The references of a process: to the buffers it has locked, and to the one it
    waits for or is giving back. -/
def refs (x : System P) (p : P) (i : Fin NBUF) : Nat :=
  (if (x.cache.buf i).lock = some p then 1 else 0) +
    if x.pc p = .locking i ∨ x.pc p = .dropping i then 1 else 0

end System

def advance (x : System P) (p : P) : Pc → Outcome Panic (System P)
  | .idle => .wait
  | .locking i =>
    match (x.cache.buf i).lock with
    | none => .done ({ x with cache := x.cache.modify i (fun b => { b with lock := some p }) }.setPc
        p (.reading i))
    | some _ => .wait
  | .reading i =>
    if (x.cache.buf i).valid then .done (x.returned p i)
    else .done ({ x with
        cache := x.cache.modify i (fun b => { b with data := x.disk (sector b.blockno) }) }.setPc
        p (.validating i))
  | .validating i =>
    .done (System.returned
      { x with cache := x.cache.modify i (fun b => { b with valid := true }) } p i)
  | .dropping i => .done ({ x with cache := x.cache.dropRef i }.setPc p .idle)

def step (x : System P) : Event P → Outcome Panic (System P)
  | .bread p dev b =>
    if x.pc p = .idle then do
      let r ← x.cache.bget dev b
      return { x with cache := r.1 }.setPc p (.locking r.2)
    else .wait
  | .step p => advance x p (x.pc p)
  | .modify p i d =>
    if x.holds p i then
      .done { x with
        cache := x.cache.modify i (fun b => { b with data := d })
        changed := update x.changed i true
        saved := update x.saved i false }
    else .wait
  | .bwrite p i =>
    if x.pc p ≠ .idle then .wait
    else if (x.cache.buf i).lock ≠ some p then .panic .bwrite
    else .done (System.wrote
      { x with
        disk := update x.disk (sector (x.cache.buf i).blockno) (x.cache.buf i).data
        saved := update x.saved i true } p i)
  | .bpin p i =>
    if x.holds p i then
      .done (System.wrote
        { x with
          cache := x.cache.bpin i
          pins := update x.pins i (x.pins i + 1) } p i)
    else .wait
  | .absorb p i => if x.holds p i ∧ 0 < x.pins i then .done (x.wrote p i) else .wait
  | .bunpin p i =>
    if x.holds p i ∧ x.saved i ∧ 0 < x.pins i then
      .done { x with
        cache := x.cache.bunpin i
        pins := update x.pins i (x.pins i - 1) }
    else .wait
  | .brelse p i =>
    if x.pc p ≠ .idle then .wait
    else if (x.cache.buf i).lock ≠ some p then .panic .brelse
    else if x.changed i then .wait
    else .done ({ x with
      cache := x.cache.modify i (fun b => { b with lock := none })
      saved := update x.saved i false }.setPc p (.dropping i))

end System

end Xv6.Bio
