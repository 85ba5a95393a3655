import Xv6.Fs.Name

/-!
# Open Files

`kernel/file.c`, with the parts of `kernel/pipe.c` that allocate and close a
pipe.

What a device driver or a pipe does with the bytes of a read or a write is not
part of this model. Such a transfer returns a number, which is given.

## Main definitions

* `fileclose`: Give a reference up, and what the file refers to with the last.
* `fileread`, `filewrite`, `filestat`: Reading and writing files.
* `pipealloc`: The two files of a new pipe.
-/

namespace Xv6

section Files

variable (sb : Superblock) (p : Fin NPROC)

def fileclose (f : Fin NFILE) : M Unit := do
  match ← filedrop f with
  | none => return ()
  | some ff =>
    match ff.type with
    | .pipe => pipeclose ff.pipe ff.writable
    | .inode | .device =>
      beginOp
      iput sb p ff.ip
      endOp
    | .none => return ()

/-- Whether a device number is in the table of drivers. -/
def inDevsw (major : BitVec 16) : Bool := 0 ≤ major.toInt ∧ major.toInt < NDEV

structure Stat where
  dev : Nat
  ino : Nat
  type : BitVec 16
  nlink : BitVec 16
  size : BitVec 32

def stati (i : Inode) : Stat :=
  { dev := i.dev, ino := i.inum, type := i.d.type, nlink := i.d.nlink, size := i.d.size }

/-- `filestat`: the return value and what was copied to the user. -/
def filestat (f : Fin NFILE) (dst : Dest) : M (Int × Option Stat) := do
  let x ← getFile f
  match x.type with
  | .inode | .device =>
    ilock sb p x.ip
    let i ← getInode x.ip
    iunlock p x.ip
    if dst.accepts 0 24 then return (0, some (stati i)) else return (-1, none)
  | _ => return (-1, none)

/-- `fileread`: the return value and what was copied to the user. -/
def fileread (f : Fin NFILE) (dst : Dest) (n : BitVec 32) (io : Int) : M (Int × List Byte) := do
  let x ← getFile f
  if x.readable = false then return (-1, [])
  else
    match x.type with
    | .pipe => return (io, [])
    | .device => if inDevsw x.major then return (io, []) else return (-1, [])
    | .inode =>
      ilock sb p x.ip
      let x ← getFile f
      let r ← readi sb x.ip dst x.off n
      if 0 < r.1 then setOff f (x.off + BitVec.ofInt 32 r.1)
      iunlock p x.ip
      return r
    | .none => panic .fileread

/-- The most that `filewrite` writes in one transaction. -/
def maxWrite : Nat := ((MAXOPBLOCKS - 1 - 1 - 2) / 2) * BSIZE

/-- The loop of `filewrite`, over at most `fuel` more transactions: the value
    of `i` at its end. -/
def filewriteFrom (f : Fin NFILE) (mem : UserMem) (addr : BitVec 64) (n : Nat) :
    Nat → Nat → M Nat
  | 0, i => return i
  | fuel + 1, i => do
    if i < n then
      let n1 := min (n - i) maxWrite
      beginOp
      let x ← getFile f
      ilock sb p x.ip
      let x ← getFile f
      let r ← writei sb x.ip (.user mem (addr + BitVec.ofNat 64 i)) x.off (BitVec.ofNat 32 n1)
      if 0 < r then setOff f (x.off + BitVec.ofInt 32 r)
      iunlock p x.ip
      endOp
      if r ≠ n1 then return i else filewriteFrom f mem addr n fuel (i + n1)
    else return i

def filewrite (f : Fin NFILE) (mem : UserMem) (addr : BitVec 64) (n : Int) (io : Int) :
    M Int := do
  let x ← getFile f
  if x.writable = false then return -1
  else
    match x.type with
    | .pipe => return io
    | .device => if inDevsw x.major then return io else return -1
    | .inode =>
      let i ← filewriteFrom sb p f mem addr n.toNat (n.toNat / maxWrite + 1) 0
      if (i : Int) = n then return n else return -1
    | .none => panic .filewrite

/-- `pipealloc`. The flag says whether there is a page for the pipe. -/
def pipealloc (page : Bool) : M (Option (Fin NFILE × Fin NFILE)) := do
  match ← filealloc with
  | none => return none
  | some f0 =>
    match ← filealloc with
    | none =>
      fileclose sb p f0
      return none
    | some f1 =>
      if page then
        let pi ← newPipe
        openPipe f0 pi false
        openPipe f1 pi true
        return some (f0, f1)
      else
        fileclose sb p f0
        fileclose sb p f1
        return none

end Files

end Xv6
