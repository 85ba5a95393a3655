import Xv6.Lib.Bytes
import Xv6.Param

/-!
# The Buffer Cache

The buffers of `kernel/bio.c`: at most `NBUF` disk blocks in memory, found by
block number and recycled least recently used first.

The linked list through `bcache.head` is a list of buffer indices here, most
recently used first. A buffer keeps its index while it is in use, which is
what a `struct buf *` is good for in the source. The sleep-lock of a buffer is
the process that holds it.

## Main definitions

* `Buf`, `Bcache`: A buffer, and the cache.
* `binit`: The cache at boot.
* `bget`: The buffer of a block, found or recycled.
* `bread`: The same, locked and with the block's contents.
* `brelse`, `bpin`, `bunpin`: Giving references back and keeping them.
-/

namespace Xv6

abbrev Block := Buffer BSIZE

abbrev Disk := Nat → Block

/-- `struct buf`, less the links and the flag of the disk driver. -/
structure Buf (P : Type) where
  valid : Bool
  dev : Nat
  blockno : Nat
  lock : Option P
  refcnt : Nat
  data : Block

/-- The buffers, and their order of use. -/
structure Bcache (P : Type) where
  buf : Fin NBUF → Buf P
  lru : List (Fin NBUF)

namespace Bcache

/-- The cache at boot: zeroed buffers, linked in front of each other. -/
def binit (P : Type) : Bcache P :=
  { buf := fun _ =>
      { valid := false, dev := 0, blockno := 0, lock := none, refcnt := 0, data := fun _ => 0 }
    lru := (List.finRange NBUF).reverse }

variable {P : Type}

def modify (bc : Bcache P) (i : Fin NBUF) (f : Buf P → Buf P) : Bcache P :=
  { bc with buf := Function.update bc.buf i (f (bc.buf i)) }

/-- `bget`, up to the point where it waits for the buffer's lock. -/
def bget (bc : Bcache P) (dev b : Nat) : Outcome Panic (Bcache P × Fin NBUF) :=
  match bc.lru.find? (fun i => (bc.buf i).dev = dev ∧ (bc.buf i).blockno = b) with
  | some i => .done (bc.modify i (fun x => { x with refcnt := x.refcnt + 1 }), i)
  | none =>
    match bc.lru.reverse.find? (fun i => (bc.buf i).refcnt = 0) with
    | some i => .done (bc.modify i (fun x =>
      { x with dev := dev, blockno := b, valid := false, refcnt := 1 }), i)
    | none => .panic .bget

/-- `acquiresleep(&b->lock)`. -/
def acquiresleep (bc : Bcache P) (p : P) (i : Fin NBUF) : Outcome Panic (Bcache P) :=
  match (bc.buf i).lock with
  | none => .done (bc.modify i (fun x => { x with lock := some p }))
  | some _ => .wait

/-- Read the block from the disk unless the buffer holds it. -/
def fill (bc : Bcache P) (disk : Disk) (i : Fin NBUF) : Bcache P :=
  if (bc.buf i).valid then bc
  else bc.modify i (fun x => { x with data := disk x.blockno, valid := true })

/-- `bread`: a locked buffer with the contents of the block. -/
def bread (bc : Bcache P) (disk : Disk) (p : P) (dev b : Nat) :
    Outcome Panic (Bcache P × Fin NBUF) := do
  let r ← bc.bget dev b
  let bc ← r.1.acquiresleep p r.2
  return (bc.fill disk r.2, r.2)

variable [DecidableEq P]

/-- `bwrite`: write the buffer's contents to the disk. -/
def bwrite (bc : Bcache P) (disk : Disk) (p : P) (i : Fin NBUF) : Outcome Panic Disk :=
  if (bc.buf i).lock = some p then
    .done (Function.update disk (bc.buf i).blockno (bc.buf i).data)
  else .panic .bwrite

/-- `brelse`: unlock, drop the reference, and if it was the last one move the
    buffer to the front. -/
def brelse (bc : Bcache P) (p : P) (i : Fin NBUF) : Outcome Panic (Bcache P) :=
  if (bc.buf i).lock = some p then
    let bc' := bc.modify i (fun x => { x with lock := none, refcnt := x.refcnt - 1 })
    if (bc.buf i).refcnt - 1 = 0 then .done { bc' with lru := i :: bc'.lru.erase i }
    else .done bc'
  else .panic .brelse

omit [DecidableEq P]

def bpin (bc : Bcache P) (i : Fin NBUF) : Bcache P :=
  bc.modify i (fun x => { x with refcnt := x.refcnt + 1 })

def bunpin (bc : Bcache P) (i : Fin NBUF) : Bcache P :=
  bc.modify i (fun x => { x with refcnt := x.refcnt - 1 })

/-- An assignment to `b->data` by the process that holds the buffer. -/
def setData (bc : Bcache P) (i : Fin NBUF) (d : Block) : Bcache P :=
  bc.modify i (fun x => { x with data := d })

end Bcache

end Xv6
