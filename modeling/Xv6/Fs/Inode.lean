import Xv6.Fs.State

/-!
# Blocks and Inodes

The block allocator, the inode table and the contents of inodes, from
`kernel/fs.c`.

Loops of the source run over a number of iterations known when they start, so
each is a recursion on that number.

Offsets and lengths are 32-bit in the tests that guard against overflow. Past
those tests nothing overflows, and the loops count in natural numbers.

## Main definitions

* `balloc`, `bfree`: The block allocator.
* `ialloc`, `iupdate`, `ilock`, `iput`: Inodes.
* `bmap`: The block of a file, allocated if need be.
* `itrunc`: Discard the contents.
* `readi`, `writei`: Read and write contents.
* `UserMem`, `Source`, `Dest`: Where the other side of a copy is.
-/

namespace Xv6

/-- User memory as a system call finds it: the bytes that are mapped. -/
abbrev UserMem := BitVec 64 → Option Byte

/-- The source of `either_copyin`: kernel memory, or user memory from an
    address on. -/
inductive Source where
  | kernel (bs : List Byte)
  | user (mem : UserMem) (addr : BitVec 64)

/-- The destination of `either_copyout`. -/
inductive Dest where
  | kernel
  | user (mem : UserMem) (addr : BitVec 64)

/-- `copyin`, byte by byte: what was copied before an unmapped byte, and
    whether all was copied. -/
def copyin (mem : UserMem) : Nat → BitVec 64 → List Byte × Bool
  | 0, _ => ([], true)
  | n + 1, a =>
    match mem a with
    | none => ([], false)
    | some c =>
      let r := copyin mem n (a + 1)
      (c :: r.1, r.2)

/-- `either_copyin` of `m` bytes, `tot` bytes into the source. -/
def Source.fetch : Source → Nat → Nat → List Byte × Bool
  | kernel bs, tot, m => ((bs.drop tot).take m, true)
  | user mem addr, tot, m => copyin mem m (addr + BitVec.ofNat 64 tot)

/-- Whether `either_copyout` of `m` bytes succeeds, `tot` bytes into the
    destination. -/
def Dest.accepts : Dest → Nat → Nat → Bool
  | kernel, _, _ => true
  | user mem addr, tot, m => (copyin mem m (addr + BitVec.ofNat 64 tot)).2

section Blocks

variable (sb : Superblock)

/-- `bzero`: zero a block. -/
def bzero (bno : Nat) : M Unit := do
  bput bno (fun _ => 0)
  logWrite bno

/-- The inner loop of `balloc`: the first clear bit among the next `n`. -/
def scanBits (d : Block) : Nat → Nat → Option Nat
  | 0, _ => none
  | n + 1, bi => if bitAt d bi = false then some bi else scanBits d n (bi + 1)

/-- The outer loop of `balloc`, over `n` more bitmap blocks. -/
def ballocFrom : Nat → Nat → M Nat
  | 0, _ => return 0
  | n + 1, b => do
    let d ← bread (sb.bblock b)
    match scanBits d (min BPB (sb.size - b)) 0 with
    | some bi =>
      bput (sb.bblock b) (setBit d bi)
      logWrite (sb.bblock b)
      bzero (b + bi)
      return b + bi
    | none => ballocFrom n (b + BPB)

/-- `balloc`: allocate a zeroed block; 0 if there is none. -/
def balloc : M Nat := ballocFrom sb ((sb.size + BPB - 1) / BPB) 0

def bfree (b : Nat) : M Unit := do
  let d ← bread (sb.bblock b)
  if bitAt d (b % BPB) = false then panic .freeingFreeBlock
  else
    bput (sb.bblock b) (clearBit d (b % BPB))
    logWrite (sb.bblock b)

/-- The loop of `ialloc`, over `n` more inodes. -/
def iallocFrom (dev : Nat) (type : BitVec 16) : Nat → Nat → M (Option (Fin NINODE))
  | 0, _ => return none
  | n + 1, inum => do
    let d ← bread (sb.iblock inum)
    if (dinodeAt d (inum % IPB)).type = 0 then
      bput (sb.iblock inum) (putDinode d (inum % IPB) { Dinode.zero with type := type })
      logWrite (sb.iblock inum)
      let ip ← iget dev inum
      return some ip
    else iallocFrom dev type n (inum + 1)

def ialloc (dev : Nat) (type : BitVec 16) : M (Option (Fin NINODE)) :=
  iallocFrom sb dev type (sb.ninodes - 1) 1

/-- `iupdate`: copy a modified in-memory inode to disk. -/
def iupdate (ip : Fin NINODE) : M Unit := do
  let i ← getInode ip
  let d ← bread (sb.iblock i.inum)
  bput (sb.iblock i.inum) (putDinode d (i.inum % IPB) i.d)
  logWrite (sb.iblock i.inum)

/-- `ilock`: lock the inode, and read it from disk if necessary. -/
def ilock (p : Fin NPROC) (ip : Fin NINODE) : M Unit := do
  acquiresleep p ip
  let i ← getInode ip
  if i.valid then return ()
  else
    let d ← bread (sb.iblock i.inum)
    setInode ip (dinodeAt d (i.inum % IPB))
    setValid ip true
    if (dinodeAt d (i.inum % IPB)).type = 0 then panic .ilockNoType else return ()

/-- The part of `bmap` that loads the address of the indirect block,
    allocating it if necessary. -/
def bmapIndirect (ip : Fin NINODE) : M Nat := do
  let i ← getInode ip
  if i.d.addr NDIRECT = 0 then
    let addr ← balloc sb
    if addr = 0 then return 0
    else
      setInode ip (i.d.setAddr NDIRECT addr)
      return addr
  else return i.d.addr NDIRECT

/-- `bmap`: the block of the `bn`th block of the file, allocated if there is
    none yet; 0 if the disk is full. -/
def bmap (ip : Fin NINODE) (bn : Nat) : M Nat := do
  let i ← getInode ip
  if bn < NDIRECT then
    if i.d.addr bn = 0 then
      let addr ← balloc sb
      if addr = 0 then return 0
      else
        setInode ip (i.d.setAddr bn addr)
        return addr
    else return i.d.addr bn
  else if bn - NDIRECT < NINDIRECT then
    let ind ← bmapIndirect sb ip
    if ind = 0 then return 0
    else
      let d ← bread ind
      if addrAt d (bn - NDIRECT) = 0 then
        let addr ← balloc sb
        if addr = 0 then return 0
        else
          bput ind (putAddr d (bn - NDIRECT) addr)
          logWrite ind
          return addr
      else return addrAt d (bn - NDIRECT)
  else panic .bmapOutOfRange

/-- The first loop of `itrunc`, over `n` more direct addresses. -/
def freeDirect (ip : Fin NINODE) : Nat → Nat → M Unit
  | 0, _ => return ()
  | n + 1, k => do
    let i ← getInode ip
    if i.d.addr k = 0 then freeDirect ip n (k + 1)
    else
      bfree sb (i.d.addr k)
      setInode ip (i.d.setAddr k 0)
      freeDirect ip n (k + 1)

/-- The second loop of `itrunc`, over `n` more addresses of the indirect block. -/
def freeIndirect (d : Block) : Nat → Nat → M Unit
  | 0, _ => return ()
  | n + 1, j => do
    if addrAt d j = 0 then freeIndirect d n (j + 1)
    else
      bfree sb (addrAt d j)
      freeIndirect d n (j + 1)

def itrunc (ip : Fin NINODE) : M Unit := do
  freeDirect sb ip NDIRECT 0
  let i ← getInode ip
  if i.d.addr NDIRECT = 0 then
    setInode ip { i.d with size := 0 }
    iupdate sb ip
  else
    let d ← bread (i.d.addr NDIRECT)
    freeIndirect sb d NINDIRECT 0
    bfree sb (i.d.addr NDIRECT)
    setInode ip { i.d.setAddr NDIRECT 0 with size := 0 }
    iupdate sb ip

/-- `iput`: drop a reference, and free the inode if it was the last one and
    there are no links. -/
def iput (p : Fin NPROC) (ip : Fin NINODE) : M Unit := do
  let last ← iputTest p ip
  if last then
    itrunc sb ip
    let i ← getInode ip
    setInode ip { i.d with type := 0 }
    iupdate sb ip
    setValid ip false
    iputUnlock ip
    iputDrop ip
  else iputDrop ip

def iunlockput (p : Fin NPROC) (ip : Fin NINODE) : M Unit := do
  iunlock p ip
  iput sb p ip

/-- The loop of `readi`, over at most `fuel` more blocks: the value of `tot`,
    and the bytes copied out so far. -/
def readLoop (ip : Fin NINODE) (dst : Dest) (n : Nat) :
    Nat → Nat → Nat → List Byte → M (Int × List Byte)
  | 0, tot, _, bs => return (tot, bs)
  | fuel + 1, tot, off, bs => do
    if tot < n then
      let addr ← bmap sb ip (off / BSIZE)
      if addr = 0 then return (tot, bs)
      else
        let d ← bread addr
        let m := min (n - tot) (BSIZE - off % BSIZE)
        if dst.accepts tot m then
          readLoop ip dst n fuel (tot + m) (off + m) (bs ++ Bytes.slice d (off % BSIZE) m)
        else return (-1, bs)
    else return (tot, bs)

/-- `readi`: read data, and the bytes read. -/
def readi (ip : Fin NINODE) (dst : Dest) (off n : BitVec 32) : M (Int × List Byte) := do
  let i ← getInode ip
  if i.d.size < off ∨ off + n < off then return (0, [])
  else
    let n := if i.d.size < off + n then i.d.size - off else n
    readLoop sb ip dst n.toNat n.toNat 0 off.toNat []

/-- The loop of `writei`: the values of `tot` and `off` at its end. A copy
    that fails has still changed the buffer. -/
def writeLoop (ip : Fin NINODE) (src : Source) (n : Nat) : Nat → Nat → Nat → M (Nat × Nat)
  | 0, tot, off => return (tot, off)
  | fuel + 1, tot, off => do
    if tot < n then
      let addr ← bmap sb ip (off / BSIZE)
      if addr = 0 then return (tot, off)
      else
        let d ← bread addr
        let m := min (n - tot) (BSIZE - off % BSIZE)
        let r := src.fetch tot m
        bput addr (Bytes.splice d (off % BSIZE) r.1)
        if r.2 then
          logWrite addr
          writeLoop ip src n fuel (tot + m) (off + m)
        else return (tot, off)
    else return (tot, off)

def writei (ip : Fin NINODE) (src : Source) (off n : BitVec 32) : M Int := do
  let i ← getInode ip
  if i.d.size < off ∨ off + n < off then return -1
  else if MAXFILE * BSIZE < (off + n).toNat then return -1
  else
    let r ← writeLoop sb ip src n.toNat n.toNat 0 off.toNat
    let i ← getInode ip
    if i.d.size.toNat < r.2 then setInode ip { i.d with size := BitVec.ofNat 32 r.2 }
    iupdate sb ip
    return r.1

end Blocks

end Xv6
