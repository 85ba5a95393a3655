import Xv6.Lib.Machine

/-!
# Parameters and Layout

The limits of `kernel/param.h`, the constants of `kernel/fs.h`, `kernel/stat.h` and
`kernel/fcntl.h`, the superblock that `mkfs` writes, and the assertions that can halt
the kernel.

The constants keep the macro names of the source. A panic is a constructor
rather than a string, so that a theorem can rule out one assertion without
comparing text.

## Main definitions

* `Superblock`, `mkfsSb`: The description of the layout.
* `Panic`: The assertions of the modelled functions.
-/

namespace Xv6

abbrev Byte := BitVec 8

instance : LawfulBEq Byte := inferInstance

-- Limits of `kernel/param.h`.
def NPROC : Nat := 64
def NCPU : Nat := 8
def NOFILE : Nat := 16
def NFILE : Nat := 100
def NINODE : Nat := 50
def NDEV : Nat := 10
def ROOTDEV : Nat := 1
def MAXOPBLOCKS : Nat := 10
def LOGSIZE : Nat := MAXOPBLOCKS * 3
def NBUF : Nat := MAXOPBLOCKS * 3
def FSSIZE : Nat := 2000
def MAXPATH : Nat := 128

theorem ninode_pos : 0 < NINODE := by decide

-- The capacity of a pipe, in `kernel/pipe.c`.
def PIPESIZE : Nat := 512

-- The layout of `kernel/fs.h`. An on-disk inode takes 64 bytes, a block
-- address four and a directory entry sixteen, fourteen of them the name.
def ROOTINO : Nat := 1
def BSIZE : Nat := 1024
def NDIRECT : Nat := 12
def NINDIRECT : Nat := BSIZE / 4
def MAXFILE : Nat := NDIRECT + NINDIRECT
def IPB : Nat := BSIZE / 64
def BPB : Nat := BSIZE * 8
def DIRSIZ : Nat := 14

-- The page size, in `kernel/riscv.h`.
def PGSIZE : Nat := 4096

instance : NeZero NPROC := ⟨by decide⟩

instance : NeZero NCPU := ⟨by decide⟩

instance : NeZero NBUF := ⟨by decide⟩

instance : NeZero PIPESIZE := ⟨by decide⟩

instance : NeZero BSIZE := ⟨by decide⟩

instance : NeZero PGSIZE := ⟨by decide⟩

-- Open modes of `kernel/fcntl.h`.
def O_RDONLY : BitVec 32 := 0x000
def O_WRONLY : BitVec 32 := 0x001
def O_RDWR : BitVec 32 := 0x002
def O_CREATE : BitVec 32 := 0x200
def O_TRUNC : BitVec 32 := 0x400

/-! ### The layout of the disk

Boot block, superblock, log, inode blocks, free bitmap and data blocks lie in this
order. The data area starts where the bitmap ends, at `nmeta`, which `mkfs` computes
but does not record. -/

/-- `struct superblock`. -/
structure Superblock where
  magic : Nat
  size : Nat
  nblocks : Nat
  ninodes : Nat
  nlog : Nat
  logstart : Nat
  inodestart : Nat
  bmapstart : Nat
  deriving DecidableEq, Repr

def FSMAGIC : Nat := 0x10203040

namespace Superblock

/-- Block containing inode `i`. -/
def iblock (sb : Superblock) (i : Nat) : Nat := i / IPB + sb.inodestart

/-- Block of the free map containing the bit for block `b`. -/
def bblock (sb : Superblock) (b : Nat) : Nat := b / BPB + sb.bmapstart

end Superblock

namespace Mkfs

def NINODES : Nat := 200
def nbitmap : Nat := FSSIZE / (BSIZE * 8) + 1
def ninodeblocks : Nat := NINODES / IPB + 1
def nlog : Nat := LOGSIZE
def nmeta : Nat := 2 + nlog + ninodeblocks + nbitmap
def nblocks : Nat := FSSIZE - nmeta

end Mkfs

/-- The superblock `mkfs` writes. -/
def mkfsSb : Superblock :=
  { magic := FSMAGIC, size := FSSIZE, nblocks := Mkfs.nblocks, ninodes := Mkfs.NINODES,
    nlog := Mkfs.nlog, logstart := 2, inodestart := 2 + Mkfs.nlog,
    bmapstart := 2 + Mkfs.nlog + Mkfs.ninodeblocks }

/-! ### Panics -/

/-- The assertions of the modelled functions. -/
inductive Panic where
  | tooBigTransaction
  | logWriteOutsideTrans
  | logCommitting
  | bget
  | bwrite
  | brelse
  | freeingFreeBlock
  | igetNoInodes
  | ilock
  | ilockNoType
  | iunlock
  | bmapOutOfRange
  | dirlookupNotDir
  | dirlookupRead
  | dirlinkRead
  | isdiremptyReadi
  | unlinkNlink
  | unlinkWritei
  | filedup
  | fileclose
  | fileread
  | filewrite
  | initExiting
  | kerneltrap
  | acquire
  | release
  | popOff
  | schedLock
  | schedLocks
  | schedRunning
  | zombieExit
  | kfree
  | walk
  | mappagesSize
  | mappagesRemap
  | uvmunmapAligned
  | uvmunmapWalk
  | uvmunmapNotMapped
  | uvmunmapNotLeaf
  | argraw
  | freeDesc1
  | freeDesc2
  | virtioDiskIntrStatus
  deriving DecidableEq, Repr

end Xv6
