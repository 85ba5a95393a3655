import Xv6.Fs.Name

/-!
# Building a File System

`mkfs/mkfs.c`: the program on the host that writes the initial image of the
disk.

The image is a file of sectors. A write past its end extends it, a read past
its end fails, and that is the only check there is on the number of blocks:
`mkfs` hands out inodes and blocks by counting up. Offsets into the file are
32-bit, so a sector number wraps around at `2 ^ 22`.

An input is a file on the host: its name on the command line and the pieces
in which `read` returns its contents. Each piece has at least a byte and at
most as many as were asked for; where the host puts the cuts is not known.

## Main definitions

* `Fault`: The ways in which `mkfs` stops early.
* `Disk`: The image and the two counters.
* `Disk.ialloc`, `Disk.iappend`, `Disk.balloc`: Inodes, their contents, the bitmap.
* `Input`: A file on the command line.
* `main`: The whole program.
-/

namespace Xv6.Mkfs

/-- The ways in which `mkfs` stops early. -/
inductive Fault where
  -- `die("read")` in `rsect`.
  | read
  -- `die(argv[i])`.
  | open (arg : List Byte)
  -- `assert(rootino == ROOTINO)`.
  | rootino
  -- `assert(index(shortname, '/') == 0)`.
  | slash
  -- `assert(fbn < MAXFILE)`.
  | maxfile
  -- `assert(used < BSIZE*8)`.
  | bitmap
  deriving DecidableEq, Repr

/-- The image, its length in sectors, and the first inode and the first block
    not handed out yet. -/
structure Disk where
  blk : Nat → Block
  len : Nat
  freeinode : Nat
  freeblock : Nat

/-- The sector at offset `sec * BSIZE`, computed in 32 bits. -/
def sector (sec : Nat) : Nat := sec * BSIZE % 2 ^ 32 / BSIZE

namespace Disk

def wsect (s : Disk) (sec : Nat) (buf : Block) : Disk :=
  { s with blk := Function.update s.blk (sector sec) buf, len := max s.len (sector sec + 1) }

def rsect (s : Disk) (sec : Nat) : Outcome Fault Block :=
  if sector sec < s.len then .done (s.blk (sector sec)) else .panic .read

def winode (s : Disk) (inum : Nat) (ip : Dinode) : Outcome Fault Disk := do
  let bn := mkfsSb.iblock inum
  let buf ← s.rsect bn
  return s.wsect bn (putDinode buf (inum % IPB) ip)

def rinode (s : Disk) (inum : Nat) : Outcome Fault Dinode := do
  let buf ← s.rsect (mkfsSb.iblock inum)
  return dinodeAt buf (inum % IPB)

def ialloc (s : Disk) (type : BitVec 16) : Outcome Fault (Nat × Disk) := do
  let inum := s.freeinode
  let s := { s with freeinode := inum + 1 }
  let s ← s.winode inum { Dinode.zero with type := type, nlink := 1 }
  return (inum, s)

/-- `balloc`: mark the first `used` blocks in the bitmap. -/
def balloc (s : Disk) (used : Nat) : Outcome Fault Disk :=
  if used < BSIZE * 8 then
    .done (s.wsect mkfsSb.bmapstart ((List.range used).foldl setBit (fun _ => 0)))
  else .panic .bitmap

/-- `freeblock++`, where address `n` of the inode is not set yet. -/
def grab (s : Disk) (din : Dinode) (n : Nat) : Dinode × Disk :=
  if din.addr n = 0 then
    (din.setAddr n s.freeblock, { s with freeblock := s.freeblock + 1 })
  else (din, s)

/-- The part of `iappend` that finds the block `x` for block `fbn` of the file. -/
def blockOf (s : Disk) (din : Dinode) (fbn : Nat) : Outcome Fault (Nat × Dinode × Disk) :=
  if fbn < NDIRECT then
    let r := s.grab din fbn
    .done (r.1.addr fbn, r.1, r.2)
  else do
    let r := s.grab din NDIRECT
    let din := r.1
    let s := r.2
    let indirect ← s.rsect (din.addr NDIRECT)
    if addrAt indirect (fbn - NDIRECT) = 0 then
      let indirect := putAddr indirect (fbn - NDIRECT) s.freeblock
      let s := { s with freeblock := s.freeblock + 1 }
      return (addrAt indirect (fbn - NDIRECT), din, s.wsect (din.addr NDIRECT) indirect)
    else return (addrAt indirect (fbn - NDIRECT), din, s)

/-- The loop of `iappend`, over at most `fuel` more blocks: the inode and the
    offset at its end. -/
def appendFrom : Nat → Disk → Dinode → Nat → List Byte → Outcome Fault (Disk × Dinode × Nat)
  | 0, s, din, off, _ => .done (s, din, off)
  | fuel + 1, s, din, off, p =>
    if p = [] then .done (s, din, off)
    else if MAXFILE ≤ off / BSIZE then .panic .maxfile
    else do
      let fbn := off / BSIZE
      let (x, din, s) ← s.blockOf din fbn
      let n1 := min p.length ((fbn + 1) * BSIZE - off)
      let buf ← s.rsect x
      let s := s.wsect x (Bytes.splice buf (off - fbn * BSIZE) (p.take n1))
      appendFrom fuel s din (off + n1) (p.drop n1)

def iappend (s : Disk) (inum : Nat) (p : List Byte) : Outcome Fault Disk := do
  let din ← s.rinode inum
  let (s, din, off) ← appendFrom p.length s din din.size.toNat p
  s.winode inum { din with size := BitVec.ofNat 32 off }

end Disk

/-- A file on the command line: `argv[i]`, and what `read` returns if `open`
    succeeds. -/
structure Input where
  arg : List Byte
  chunks : Option (List (List Byte))
  nul : 0 ∉ arg
  sizes : ∀ cs, chunks = some cs → ∀ c ∈ cs, 0 < c.length ∧ c.length ≤ BSIZE

/-- `"user/"`. -/
def userDir : List Byte := [117, 115, 101, 114, 47]

def underscore : Byte := 95

/-- `argv[i]` without `"user/"`. -/
def shortname (arg : List Byte) : List Byte :=
  if strncmp 5 arg userDir = 0 then arg.drop 5 else arg

/-- The short name without a leading underscore. -/
def skipUnderscore (name : List Byte) : List Byte :=
  if name.head? = some underscore then name.tail else name

/-- The name of the file in the root directory. -/
def Input.name (f : Input) : List Byte := skipUnderscore (shortname f.arg)

/-- The inode with the size that the root directory gets in the end. -/
def rounded (din : Dinode) : Dinode :=
  { din with size := BitVec.ofNat 32 ((din.size.toNat / BSIZE + 1) * BSIZE) }

namespace Disk

/-- The body of the loop over the command line. -/
def addFile (s : Disk) (f : Input) : Outcome Fault Disk :=
  if slash ∈ shortname f.arg then .panic .slash
  else
    match f.chunks with
    | none => .panic (.open f.arg)
    | some chunks => do
      let (inum, s) ← s.ialloc T_FILE
      let de : Dirent := { inum := BitVec.ofNat 16 inum, name := strncpy DIRSIZ f.name }
      let s ← s.iappend ROOTINO de.encode
      runs (fun s c => s.iappend inum c) chunks s

/-- `"fix size of root inode dir"`. -/
def fixRoot (s : Disk) : Outcome Fault Disk := do
  let din ← s.rinode ROOTINO
  s.winode ROOTINO (rounded din)

/-- The image before anything is in it: `FSSIZE` sectors of zeroes, then the
    superblock. -/
@[irreducible] def blank : Disk :=
  let s : Disk := { blk := fun _ _ => 0, len := 0, freeinode := 1, freeblock := nmeta }
  let s := (List.range FSSIZE).foldl (fun s i => s.wsect i (fun _ => 0)) s
  s.wsect 1 (putSb (fun _ => 0) mkfsSb)

/-- The root directory with its first two entries. -/
def mkroot (s : Disk) : Outcome Fault Disk := do
  let (rootino, s) ← s.ialloc T_DIR
  if rootino ≠ ROOTINO then .panic .rootino
  else
    let s ← s.iappend rootino
      { inum := BitVec.ofNat 16 rootino, name := strncpy DIRSIZ dot : Dirent }.encode
    s.iappend rootino
      { inum := BitVec.ofNat 16 rootino, name := strncpy DIRSIZ dotdot : Dirent }.encode

/-- The rest of `main`: the files, the size of the root directory, the bitmap. -/
def fill (s : Disk) (files : List Input) : Outcome Fault Disk := do
  let s ← runs addFile files s
  let s ← s.fixRoot
  s.balloc s.freeblock

end Disk

@[irreducible] def main (files : List Input) : Outcome Fault Disk := do
  let s ← Disk.blank.mkroot
  s.fill files

end Xv6.Mkfs
