import Xv6.Fs.State

/-!
# The Inode Table and its Users

The inode table of `kernel/fs.c`, used by any number of processes at once.

What a function does under `itable.lock` is one step, and so is an access to an
inode on the disk, since it happens while the buffer is locked. Everything else
can be interrupted: `ilock` between the sleep-lock and the read, `iput` while it
frees the inode, `ialloc` between two inodes of its search and before its call of
`iget`. A process in the middle of a call is at a `Pc`.

The users follow some rules. An inode is locked only by a process that has a
reference to it, and the last reference of a process outlasts its lock. The copy of
an inode is changed only by the process that has locked it, and `iupdate` writes
the changes before the lock is released. Only `iput` and `ialloc` change which
inodes are free. A step that breaks a rule is not enabled.

`owners`, `changed`, `born`, `tag` and `copied` are there to state the rules and
what they lead to; the code looks at none of them. Each time `ialloc` hands out an
inode this counts as another one, and `tag` and `copied` say from which of them the
inode on the disk and the copy in the table stem.

## Main definitions

* `System`: The table, the disk and the processes.
* `Pc`: Where a process is in a call.
* `Event`, `step`: What can happen next.
-/

namespace Xv6.Itable

open Function

/-- The steps of `ilock` and `iput` on an inode. -/
inductive Stage where
  -- In `ilock`: at `acquiresleep`, at the test of `valid`, and at its assignment.
  | locking
  | loading
  | loaded
  -- In `iput`: in `itrunc` before the inode is changed and at its `iupdate`, at the
  -- assignment of `type`, at `iupdate`, at the assignment of `valid`, at
  -- `releasesleep`, and at the second `acquire(&itable.lock)`.
  | truncating
  | truncated
  | clearing
  | updating
  | invalidating
  | unlocking
  | dropping
  deriving DecidableEq

inductive Pc where
  | idle
  | inside (s : Stage) (k : Fin NINODE)
  -- In `ialloc`: at a turn of the loop, and at the call of `iget`.
  | allocating (dev : Nat) (type : BitVec 16) (inum : Nat)
  | getting (dev inum : Nat)
  deriving DecidableEq

structure System (P : Type) where
  -- By device and number.
  blk : Nat → Nat → Block
  table : Fin NINODE → Entry P
  pc : P → Pc
  -- Who has the references.
  owners : Fin NINODE → List P
  -- Changed since it was last written.
  changed : Fin NINODE → Bool
  -- How often an inode was handed out, and where its contents and its copy are from.
  born : Nat → Nat → Nat
  tag : Nat → Nat → Nat
  copied : Fin NINODE → Nat

inductive Event (P : Type) where
  | iget (p : P) (dev inum : Nat)
  | idup (p : P) (k : Fin NINODE)
  -- A reference is handed to another process, for instance in an open file.
  | pass (p q : P) (k : Fin NINODE)
  | ilock (p : P) (k : Fin NINODE)
  | modify (p : P) (k : Fin NINODE) (d : Dinode)
  | iupdate (p : P) (k : Fin NINODE)
  | iunlock (p : P) (k : Fin NINODE)
  | iput (p : P) (k : Fin NINODE)
  | ialloc (p : P) (dev : Nat) (type : BitVec 16)
  -- The next step of the call it is in.
  | step (p : P)

section System

variable {P : Type} [DecidableEq P]

/-- The table is empty and every process is outside. -/
def boot (P : Type) (blk : Nat → Nat → Block) : System P where
  blk := blk
  table := fun _ => { dev := 0, inum := 0, ref := 0, lock := none, valid := false, d := .zero }
  pc := fun _ => .idle
  owners := fun _ => []
  changed := fun _ => false
  born := fun _ _ => 0
  tag := fun _ _ => 0
  copied := fun _ => 0

namespace System

def setPc (x : System P) (p : P) (pc : Pc) : System P :=
  { x with pc := update x.pc p pc }

def modify (x : System P) (k : Fin NINODE) (f : Entry P → Entry P) : System P :=
  { x with table := update x.table k (f (x.table k)) }

def setOwners (x : System P) (k : Fin NINODE) (o : List P) : System P :=
  { x with owners := update x.owners k o }

def setChanged (x : System P) (k : Fin NINODE) (c : Bool) : System P :=
  { x with changed := update x.changed k c }

/-- The process may give up a reference: it has one, and another one if it has
    locked the inode. -/
def spare (x : System P) (p : P) (k : Fin NINODE) : Bool :=
  x.pc p = .idle ∧ p ∈ x.owners k ∧ ((x.table k).lock = some p → 2 ≤ (x.owners k).count p)

/-- The process is in no call and has locked the inode. -/
def holds (x : System P) (p : P) (k : Fin NINODE) : Bool :=
  x.pc p = .idle ∧ (x.table k).lock = some p

variable (sb : Superblock)

/-- An inode on the disk. -/
def dinode (x : System P) (dev inum : Nat) : Dinode :=
  dinodeAt (x.blk dev (sb.iblock inum)) (inum % IPB)

/-- An inode is written, as part of the `g`th one handed out. -/
def write (x : System P) (dev inum : Nat) (d : Dinode) (g : Nat) : System P :=
  { x with
    blk := update x.blk dev (update (x.blk dev) (sb.iblock inum)
      (putDinode (x.blk dev (sb.iblock inum)) (inum % IPB) d))
    tag := update x.tag dev (update (x.tag dev) inum g) }

def iupdate (x : System P) (k : Fin NINODE) : System P :=
  (x.write sb (x.table k).dev (x.table k).inum (x.table k).d (x.copied k)).setChanged k false

/-- The copy is read from the disk. -/
def load (x : System P) (k : Fin NINODE) : System P :=
  { x.modify k (fun i => { i with d := x.dinode sb i.dev i.inum }) with
    copied := update x.copied k (x.tag (x.table k).dev (x.table k).inum) }

def change (x : System P) (k : Fin NINODE) (f : Dinode → Dinode) : System P :=
  (x.modify k (fun i => { i with d := f i.d })).setChanged k true

/-- The inode is marked allocated on the disk. -/
def allocate (x : System P) (dev inum : Nat) (type : BitVec 16) : System P :=
  { x.write sb dev inum { Dinode.zero with type := type } (x.born dev inum + 1) with
    born := update x.born dev (update (x.born dev) inum (x.born dev inum + 1)) }

/-- Another reference for a process. -/
def addRef (x : System P) (p : P) (k : Fin NINODE) (f : Entry P → Entry P) : System P :=
  (x.modify k f).setOwners k (p :: x.owners k)

/-- `ip->ref--`. -/
def dropRef (x : System P) (p : P) (k : Fin NINODE) : System P :=
  (x.modify k (fun i => { i with ref := i.ref - 1 })).setOwners k ((x.owners k).erase p)

def iget (x : System P) (p : P) (dev inum : Nat) : Outcome Panic (System P) :=
  match (List.finRange NINODE).find?
      (fun k => 0 < (x.table k).ref ∧ (x.table k).dev = dev ∧ (x.table k).inum = inum) with
  | some k => .done (x.addRef p k (fun i => { i with ref := i.ref + 1 }))
  | none =>
    match (List.finRange NINODE).find? (fun k => (x.table k).ref = 0) with
    | some k => .done (x.addRef p k (fun i =>
      { i with dev := dev, inum := inum, ref := 1, valid := false }))
    | none => .panic .igetNoInodes

/-- The first critical section of `iput`, with the `acquiresleep` in it. -/
def iput (x : System P) (p : P) (k : Fin NINODE) : Outcome Panic (System P) :=
  if (x.table k).ref = 1 ∧ (x.table k).valid = true ∧ (x.table k).d.nlink = 0 then
    match (x.table k).lock with
    | none =>
      .done ((x.modify k (fun i => { i with lock := some p })).setPc p (.inside .truncating k))
    | some _ => .wait
  else .done (x.dropRef p k)

end System

variable (sb : Superblock)

/-- The next step of a process in `ilock` or `iput`. -/
def advance (x : System P) (p : P) (k : Fin NINODE) : Stage → Outcome Panic (System P)
  | .locking =>
    match (x.table k).lock with
    | none => .done ((x.modify k (fun i => { i with lock := some p })).setPc p (.inside .loading k))
    | some _ => .wait
  | .loading =>
    if (x.table k).valid then .done (x.setPc p .idle)
    else .done ((x.load sb k).setPc p (.inside .loaded k))
  | .loaded =>
    if (x.table k).d.type = 0 then .panic .ilockNoType
    else .done ((x.modify k (fun i => { i with valid := true })).setPc p .idle)
  | .truncating =>
    .done ((x.change k (fun d => { d with size := 0, addrs := fun _ => 0 })).setPc p
      (.inside .truncated k))
  | .truncated => .done ((x.iupdate sb k).setPc p (.inside .clearing k))
  | .clearing => .done ((x.change k (fun d => { d with type := 0 })).setPc p (.inside .updating k))
  | .updating => .done ((x.iupdate sb k).setPc p (.inside .invalidating k))
  | .invalidating =>
    .done ((x.modify k (fun i => { i with valid := false })).setPc p (.inside .unlocking k))
  | .unlocking =>
    .done ((x.modify k (fun i => { i with lock := none })).setPc p (.inside .dropping k))
  | .dropping => .done ((x.dropRef p k).setPc p .idle)

def step (x : System P) : Event P → Outcome Panic (System P)
  | .iget p dev inum => if x.pc p = .idle then x.iget p dev inum else .wait
  | .idup p k =>
    if x.pc p = .idle ∧ p ∈ x.owners k then
      .done (x.addRef p k (fun i => { i with ref := i.ref + 1 }))
    else .wait
  | .pass p q k =>
    if x.spare p k then .done (x.setOwners k (q :: (x.owners k).erase p)) else .wait
  | .ilock p k =>
    if x.pc p = .idle ∧ p ∈ x.owners k then
      if (x.table k).ref < 1 then .panic .ilock else .done (x.setPc p (.inside .locking k))
    else .wait
  | .modify p k d =>
    if x.holds p k ∧ d.type ≠ 0 then .done (x.change k (fun _ => d)) else .wait
  | .iupdate p k => if x.holds p k then .done (x.iupdate sb k) else .wait
  | .iunlock p k =>
    if x.pc p = .idle ∧ ((x.table k).lock = some p → x.changed k = false) then
      if (x.table k).lock ≠ some p ∨ (x.table k).ref < 1 then .panic .iunlock
      else .done (x.modify k (fun i => { i with lock := none }))
    else .wait
  | .iput p k => if x.spare p k then x.iput p k else .wait
  | .ialloc p dev type =>
    if x.pc p = .idle then .done (x.setPc p (.allocating dev type 1)) else .wait
  | .step p =>
    match x.pc p with
    | .idle => .wait
    | .inside s k => advance sb x p k s
    | .allocating dev type inum =>
      if inum < sb.ninodes then
        if (x.dinode sb dev inum).type = 0 then
          .done ((x.allocate sb dev inum type).setPc p (.getting dev inum))
        else .done (x.setPc p (.allocating dev type (inum + 1)))
      -- "ialloc: no inodes"
      else .done (x.setPc p .idle)
    | .getting dev inum => (x.iget p dev inum).bind (fun y => .done (y.setPc p .idle))

end System

end Xv6.Itable
