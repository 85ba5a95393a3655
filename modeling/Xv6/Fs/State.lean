import Xv6.Fs.Codec
import Xv6.Lib.Prog
import Xv6.Log.Header

/-!
# The State of the File System

The kernel's tables as the file system code sees them, and the steps in which
it accesses them.

A step is what the kernel does without giving another process a chance to
interfere: a critical section under a spin lock, or an access to data that a
sleep lock or ownership by the process protects. The functions of `fs.c`,
`file.c` and `sysfile.c` are then programs over these steps.

Blocks are seen through the buffer cache: `blk b` is what `bread` returns for
block `b`, whatever of it has reached the disk. Buffers are not locked here.
The log is kept for what the file system can observe of it, which is when
`begin_op` waits and when `log_write` panics; `end_op` includes the commit.

The process that runs a step is named in it where it matters, that is for
sleep locks, open files and the current directory.

## Main definitions

* `Inode`: An entry of the inode table.
* `File`: An entry of the file table.
* `Proc`: What a process holds.
* `PipePage`: The two ends of a pipe.
* `Cmd`: The steps, with `Cmd.Ans` the answers.
-/

namespace Xv6

open Function

/-- The type of an open file, in `kernel/file.h`. -/
inductive FdType where
  | none
  | pipe
  | inode
  | device
  deriving DecidableEq, Repr

/-- `struct inode`, with the processes `P` to hold its lock: the fields of the on-disk
    inode are copied to `d`. -/
structure Itable.Entry (P : Type) where
  dev : Nat
  inum : Nat
  ref : Int
  lock : Option P
  valid : Bool
  d : Dinode

/-- An entry of the inode table of the kernel. -/
abbrev Inode := Itable.Entry (Fin NPROC)

/-- `struct file`. A pipe is named by its number in the order of allocation. -/
structure File where
  type : FdType
  ref : Int
  readable : Bool
  writable : Bool
  pipe : Nat
  ip : Fin NINODE
  off : BitVec 32
  major : BitVec 16

/-- The life of a process. A process that runs or sleeps counts as runnable. -/
inductive ProcState where
  | unused
  | used
  | runnable
  | zombie
  deriving DecidableEq, Repr

/-- The part of `struct proc` that refers to files. -/
structure Proc where
  state : ProcState
  parent : Option (Fin NPROC)
  ofile : Fin NOFILE → Option (Fin NFILE)
  cwd : Option (Fin NINODE)

/-- The ends of a pipe, and how often its page was given back. -/
structure PipePage where
  readopen : Bool
  writeopen : Bool
  freed : Nat
  deriving DecidableEq, Repr

structure Kernel where
  blk : Nat → Block
  log : Log
  itable : Fin NINODE → Inode
  ftable : Fin NFILE → File
  proc : Fin NPROC → Proc
  -- Every pipe allocated so far.
  pipes : List PipePage

/-- The slot of the first process, `initproc`. -/
def initproc : Fin NPROC := ⟨0, by decide⟩

inductive Cmd where
  | panic (e : Panic)
  -- Blocks and the log.
  | bread (b : Nat)
  | bput (b : Nat) (d : Block)
  | logWrite (b : Nat)
  | beginOp
  | endOp
  -- The inode table.
  | iget (dev inum : Nat)
  | idup (ip : Fin NINODE)
  | acquire (p : Fin NPROC) (ip : Fin NINODE)
  | release (p : Fin NPROC) (ip : Fin NINODE)
  | inode (ip : Fin NINODE)
  | setInode (ip : Fin NINODE) (d : Dinode)
  | setValid (ip : Fin NINODE) (v : Bool)
  | iputTest (p : Fin NPROC) (ip : Fin NINODE)
  | iputUnlock (ip : Fin NINODE)
  | iputDrop (ip : Fin NINODE)
  -- The file table and pipes.
  | filealloc
  | filedup (f : Fin NFILE)
  | filedrop (f : Fin NFILE)
  | file (f : Fin NFILE)
  | openInode (f : Fin NFILE) (ip : Fin NINODE) (dev : Option (BitVec 16)) (rd wr : Bool)
  | openPipe (f : Fin NFILE) (pi : Nat) (wr : Bool)
  | setOff (f : Fin NFILE) (off : BitVec 32)
  | pipealloc
  | pipeclose (pi : Nat) (wr : Bool)
  -- Processes.
  | ofile (p : Fin NPROC) (fd : Fin NOFILE)
  | setOfile (p : Fin NPROC) (fd : Fin NOFILE) (f : Option (Fin NFILE))
  | cwd (p : Fin NPROC)
  | setCwd (p : Fin NPROC) (ip : Option (Fin NINODE))
  | allocproc
  | freeproc (p : Fin NPROC)
  | setParent (p : Fin NPROC) (q : Fin NPROC)
  | setRunnable (p : Fin NPROC)
  | zombie (p : Fin NPROC)
  | reap (p : Fin NPROC)

def Cmd.Ans : Cmd → Type
  | panic _ => Empty
  | bread _ => Block
  | iget _ _ => Fin NINODE
  | inode _ => Inode
  | iputTest _ _ => Bool
  | filealloc => Option (Fin NFILE)
  | filedrop _ => Option File
  | file _ => File
  | pipealloc => Nat
  | ofile _ _ => Option (Fin NFILE)
  | cwd _ => Option (Fin NINODE)
  | allocproc => Option (Fin NPROC)
  | reap _ => Option (Fin NPROC)
  | _ => Unit

abbrev M := Prog Cmd Cmd.Ans

namespace Kernel

def modInode (s : Kernel) (ip : Fin NINODE) (f : Inode → Inode) : Kernel :=
  { s with itable := update s.itable ip (f (s.itable ip)) }

def modFile (s : Kernel) (i : Fin NFILE) (f : File → File) : Kernel :=
  { s with ftable := update s.ftable i (f (s.ftable i)) }

def modProc (s : Kernel) (p : Fin NPROC) (f : Proc → Proc) : Kernel :=
  { s with proc := update s.proc p (f (s.proc p)) }

/-- `iget`: the entry of an inode that is in the table, or a free entry made
    into one. -/
def iget (s : Kernel) (dev inum : Nat) : Outcome Panic (Fin NINODE × Kernel) :=
  match (List.finRange NINODE).find?
      (fun k => 0 < (s.itable k).ref ∧ (s.itable k).dev = dev ∧ (s.itable k).inum = inum) with
  | some k => .done (k, s.modInode k (fun i => { i with ref := i.ref + 1 }))
  | none =>
    match (List.finRange NINODE).find? (fun k => (s.itable k).ref = 0) with
    | some k => .done (k, s.modInode k (fun i =>
      { i with dev := dev, inum := inum, ref := 1, valid := false }))
    | none => .panic .igetNoInodes

/-- The first part of `ilock`: `acquiresleep`. -/
def acquire (s : Kernel) (p : Fin NPROC) (ip : Fin NINODE) : Outcome Panic (Unit × Kernel) :=
  if (s.itable ip).ref < 1 then .panic .ilock
  else if (s.itable ip).lock.isSome then .wait
  else .done ((), s.modInode ip (fun i => { i with lock := some p }))

/-- `iunlock`. -/
def release (s : Kernel) (p : Fin NPROC) (ip : Fin NINODE) : Outcome Panic (Unit × Kernel) :=
  if (s.itable ip).lock ≠ some p ∨ (s.itable ip).ref < 1 then .panic .iunlock
  else .done ((), s.modInode ip (fun i => { i with lock := none }))

/-- The first critical section of `iput`, with the `acquiresleep` in it. -/
def iputTest (s : Kernel) (p : Fin NPROC) (ip : Fin NINODE) : Outcome Panic (Bool × Kernel) :=
  if (s.itable ip).ref = 1 ∧ (s.itable ip).valid = true ∧ (s.itable ip).d.nlink = 0 then
    if (s.itable ip).lock.isSome then .wait
    else .done (true, s.modInode ip (fun i => { i with lock := some p }))
  else .done (false, s)

def filealloc (s : Kernel) : Option (Fin NFILE) × Kernel :=
  match (List.finRange NFILE).find? (fun f => (s.ftable f).ref = 0) with
  | some f => (some f, s.modFile f (fun x => { x with ref := 1 }))
  | none => (none, s)

def filedup (s : Kernel) (f : Fin NFILE) : Outcome Panic (Unit × Kernel) :=
  if (s.ftable f).ref < 1 then .panic .filedup
  else .done ((), s.modFile f (fun x => { x with ref := x.ref + 1 }))

/-- The critical section of `fileclose`. It hands out the file if this was the
    last reference. -/
def filedrop (s : Kernel) (f : Fin NFILE) : Outcome Panic (Option File × Kernel) :=
  if (s.ftable f).ref < 1 then .panic .fileclose
  else if 0 < (s.ftable f).ref - 1 then
    .done (none, s.modFile f (fun x => { x with ref := x.ref - 1 }))
  else .done (some (s.ftable f), s.modFile f (fun x => { x with ref := 0, type := .none }))

/-- `pipeclose`. The page goes back when neither end is open any more. -/
def pipeclose (s : Kernel) (pi : Nat) (wr : Bool) : Kernel :=
  { s with pipes := s.pipes.modify pi (fun x =>
      let x := if wr then { x with writeopen := false } else { x with readopen := false }
      if x.readopen = false ∧ x.writeopen = false then { x with freed := x.freed + 1 } else x) }

/-- The search of `allocproc` for an unused slot. -/
def allocproc (s : Kernel) : Option (Fin NPROC) × Kernel :=
  match (List.finRange NPROC).find? (fun p => (s.proc p).state = .unused) with
  | some p => (some p, s.modProc p (fun x => { x with state := .used }))
  | none => (none, s)

def freeproc (s : Kernel) (p : Fin NPROC) : Kernel :=
  s.modProc p (fun x => { x with state := .unused, parent := none })

/-- The end of `exit`: the children go to `initproc`. -/
def zombie (s : Kernel) (p : Fin NPROC) : Kernel :=
  { s with proc := fun q =>
      let x := if (s.proc q).parent = some p then { s.proc q with parent := some initproc }
        else s.proc q
      if q = p then { x with state := .zombie } else x }

/-- `wait`: give the slot of a child that has exited back. -/
def reap (s : Kernel) (p : Fin NPROC) : Option (Fin NPROC) × Kernel :=
  match (List.finRange NPROC).find?
      (fun q => (s.proc q).parent = some p ∧ (s.proc q).state = .zombie) with
  | some q => (some q, s.freeproc q)
  | none => (none, s)

end Kernel

/-- What a step does. -/
def perform : (c : Cmd) → Kernel → Outcome Panic (c.Ans × Kernel)
  | .panic e, _ => .panic e
  | .bread b, s => .done (s.blk b, s)
  | .bput b d, s => .done ((), { s with blk := update s.blk b d })
  | .logWrite b, s => do
    let r ← s.log.logWrite b
    return ((), { s with log := r.1 })
  | .beginOp, s => do
    let l ← s.log.beginOp
    return ((), { s with log := l })
  | .endOp, s => do
    let r ← s.log.endOp
    return ((), { s with log := if r.2 then r.1.commitDone else r.1 })
  | .iget dev inum, s => s.iget dev inum
  | .idup ip, s => .done ((), s.modInode ip (fun i => { i with ref := i.ref + 1 }))
  | .acquire p ip, s => s.acquire p ip
  | .release p ip, s => s.release p ip
  | .inode ip, s => .done (s.itable ip, s)
  | .setInode ip d, s => .done ((), s.modInode ip (fun i => { i with d := d }))
  | .setValid ip v, s => .done ((), s.modInode ip (fun i => { i with valid := v }))
  | .iputTest p ip, s => s.iputTest p ip
  | .iputUnlock ip, s => .done ((), s.modInode ip (fun i => { i with lock := none }))
  | .iputDrop ip, s => .done ((), s.modInode ip (fun i => { i with ref := i.ref - 1 }))
  | .filealloc, s => .done s.filealloc
  | .filedup f, s => s.filedup f
  | .filedrop f, s => s.filedrop f
  | .file f, s => .done (s.ftable f, s)
  | .openInode f ip dev rd wr, s => .done ((), s.modFile f (fun x =>
    match dev with
    | some major => { x with
        type := .device, major := major, ip := ip, readable := rd, writable := wr }
    | none => { x with type := .inode, off := 0, ip := ip, readable := rd, writable := wr }))
  | .openPipe f pi wr, s => .done ((), s.modFile f (fun x =>
    { x with type := .pipe, readable := !wr, writable := wr, pipe := pi }))
  | .setOff f off, s => .done ((), s.modFile f (fun x => { x with off := off }))
  | .pipealloc, s => .done (s.pipes.length, { s with
      pipes := s.pipes ++ [{ readopen := true, writeopen := true, freed := 0 }] })
  | .pipeclose pi wr, s => .done ((), s.pipeclose pi wr)
  | .ofile p fd, s => .done ((s.proc p).ofile fd, s)
  | .setOfile p fd f, s => .done ((), s.modProc p (fun x =>
    { x with ofile := update x.ofile fd f }))
  | .cwd p, s => .done ((s.proc p).cwd, s)
  | .setCwd p ip, s => .done ((), s.modProc p (fun x => { x with cwd := ip }))
  | .allocproc, s => .done s.allocproc
  | .freeproc p, s => .done ((), s.freeproc p)
  | .setParent p q, s => .done ((), s.modProc p (fun x => { x with parent := some q }))
  | .setRunnable p, s => .done ((), s.modProc p (fun x => { x with state := .runnable }))
  | .zombie p, s => .done ((), s.zombie p)
  | .reap p, s => .done (s.reap p)

def panic {α : Type} (e : Panic) : M α := .act (.panic e) (fun x => Empty.elim x)

def issue (c : Cmd) : M c.Ans := Prog.call c

-- The steps as programs.

def bread (b : Nat) : M Block := issue (.bread b)

def bput (b : Nat) (d : Block) : M Unit := issue (.bput b d)

def logWrite (b : Nat) : M Unit := issue (.logWrite b)

def beginOp : M Unit := issue .beginOp

def endOp : M Unit := issue .endOp

def iget (dev inum : Nat) : M (Fin NINODE) := issue (.iget dev inum)

def idup (ip : Fin NINODE) : M Unit := issue (.idup ip)

def getInode (ip : Fin NINODE) : M Inode := issue (.inode ip)

def setInode (ip : Fin NINODE) (d : Dinode) : M Unit := issue (.setInode ip d)

def setValid (ip : Fin NINODE) (v : Bool) : M Unit := issue (.setValid ip v)

def acquiresleep (p : Fin NPROC) (ip : Fin NINODE) : M Unit := issue (.acquire p ip)

def iunlock (p : Fin NPROC) (ip : Fin NINODE) : M Unit := issue (.release p ip)

def iputTest (p : Fin NPROC) (ip : Fin NINODE) : M Bool := issue (.iputTest p ip)

def iputUnlock (ip : Fin NINODE) : M Unit := issue (.iputUnlock ip)

def iputDrop (ip : Fin NINODE) : M Unit := issue (.iputDrop ip)

def filealloc : M (Option (Fin NFILE)) := issue .filealloc

def filedup (f : Fin NFILE) : M Unit := issue (.filedup f)

def filedrop (f : Fin NFILE) : M (Option File) := issue (.filedrop f)

def getFile (f : Fin NFILE) : M File := issue (.file f)

def openInode (f : Fin NFILE) (ip : Fin NINODE) (dev : Option (BitVec 16)) (rd wr : Bool) :
    M Unit :=
  issue (.openInode f ip dev rd wr)

def openPipe (f : Fin NFILE) (pi : Nat) (wr : Bool) : M Unit := issue (.openPipe f pi wr)

def setOff (f : Fin NFILE) (off : BitVec 32) : M Unit := issue (.setOff f off)

def newPipe : M Nat := issue .pipealloc

def pipeclose (pi : Nat) (wr : Bool) : M Unit := issue (.pipeclose pi wr)

def getOfile (p : Fin NPROC) (fd : Fin NOFILE) : M (Option (Fin NFILE)) := issue (.ofile p fd)

def setOfile (p : Fin NPROC) (fd : Fin NOFILE) (f : Option (Fin NFILE)) : M Unit :=
  issue (.setOfile p fd f)

def getCwd (p : Fin NPROC) : M (Option (Fin NINODE)) := issue (.cwd p)

def setCwd (p : Fin NPROC) (ip : Option (Fin NINODE)) : M Unit := issue (.setCwd p ip)

def allocproc : M (Option (Fin NPROC)) := issue .allocproc

def freeproc (p : Fin NPROC) : M Unit := issue (.freeproc p)

def setParent (p q : Fin NPROC) : M Unit := issue (.setParent p q)

def setRunnable (p : Fin NPROC) : M Unit := issue (.setRunnable p)

def zombie (p : Fin NPROC) : M Unit := issue (.zombie p)

def reap (p : Fin NPROC) : M (Option (Fin NPROC)) := issue (.reap p)

end Xv6
