import Xv6.Fs.Inode

/-!
# Directories and Paths

The directory layer and the path layer of `kernel/fs.c`.

A directory is a file of 16-byte entries; an entry with inode number 0 is
free. A path is a list of bytes without a zero byte. `skipelem` is the function
of the source on such lists: where the source moves a pointer into the path,
the rest of the list is returned.

## Main definitions

* `dirlookup`, `dirlink`: Find and add an entry.
* `skipelem`: Split off the first element of a path.
* `namex`, `namei`, `nameiparent`: The inode of a path.
-/

namespace Xv6

def slash : Byte := 47

/-- `"."` and `".."`. -/
def dot : List Byte := [46]
def dotdot : List Byte := [46, 46]

section Dirs

variable (sb : Superblock)

/-- The loop of `dirlookup`, over at most `fuel` more entries. -/
def dirlookupFrom (dp : Fin NINODE) (dev size : Nat) (name : List Byte) :
    Nat → Nat → M (Option (Fin NINODE × Nat))
  | 0, _ => return none
  | fuel + 1, off => do
    if off < size then
      let r ← readi sb dp .kernel (BitVec.ofNat 32 off) 16
      if r.1 ≠ 16 then panic .dirlookupRead
      else
        let de := Dirent.decode r.2
        if de.inum = 0 then dirlookupFrom dp dev size name fuel (off + 16)
        else if namecmp name de.name = 0 then
          let ip ← iget dev de.inum.toNat
          return some (ip, off)
        else dirlookupFrom dp dev size name fuel (off + 16)
    else return none

/-- `dirlookup`: the inode of an entry and the offset of the entry. -/
def dirlookup (dp : Fin NINODE) (name : List Byte) : M (Option (Fin NINODE × Nat)) := do
  let i ← getInode dp
  if i.d.type ≠ T_DIR then panic .dirlookupNotDir
  else dirlookupFrom sb dp i.dev i.d.size.toNat name (i.d.size.toNat / 16 + 1) 0

/-- The loop of `dirlink` that looks for an empty entry. -/
def freeSlotFrom (dp : Fin NINODE) (size : Nat) : Nat → Nat → M Nat
  | 0, off => return off
  | fuel + 1, off => do
    if off < size then
      let r ← readi sb dp .kernel (BitVec.ofNat 32 off) 16
      if r.1 ≠ 16 then panic .dirlinkRead
      else if (Dirent.decode r.2).inum = 0 then return off
      else freeSlotFrom dp size fuel (off + 16)
    else return off

/-- `dirlink`: add an entry; -1 if the name is present or the disk is full. -/
def dirlink (p : Fin NPROC) (dp : Fin NINODE) (name : List Byte) (inum : Nat) : M Int := do
  match ← dirlookup sb dp name with
  | some (ip, _) =>
    iput sb p ip
    return -1
  | none =>
    let i ← getInode dp
    let off ← freeSlotFrom sb dp i.d.size.toNat (i.d.size.toNat / 16 + 1) 0
    let de : Dirent := { inum := BitVec.ofNat 16 inum, name := strncpy DIRSIZ name }
    let r ← writei sb dp (.kernel de.encode) (BitVec.ofNat 32 off) 16
    if r ≠ 16 then return -1 else return 0

end Dirs

/-- `skipelem`: the first element of a path, cut to `DIRSIZ` bytes, and the
    path after it without leading slashes. -/
def skipelem (path : List Byte) : Option (List Byte × List Byte) :=
  let path := path.dropWhile (fun c => c = slash)
  if path = [] then none
  else some ((path.takeWhile (fun c => c ≠ slash)).take DIRSIZ,
    (path.dropWhile (fun c => c ≠ slash)).dropWhile (fun c => c = slash))

section Paths

variable (sb : Superblock) (p : Fin NPROC)

/-- The loop of `namex`. Each round takes an element off the path, so the
    length of the path bounds the number of rounds. The result is an inode and
    the element last split off. -/
def namexFrom (parent : Bool) :
    Nat → Fin NINODE → List Byte → List Byte → M (Option (Fin NINODE × List Byte))
  | 0, _, _, _ => return none
  | fuel + 1, ip, path, last => do
    match skipelem path with
    | none =>
      if parent then
        iput sb p ip
        return none
      else return some (ip, last)
    | some (name, rest) =>
      ilock sb p ip
      let i ← getInode ip
      if i.d.type ≠ T_DIR then
        iunlockput sb p ip
        return none
      else if parent ∧ rest = [] then
        -- Stop one level early.
        iunlock p ip
        return some (ip, name)
      else
        match ← dirlookup sb ip name with
        | none =>
          iunlockput sb p ip
          return none
        | some (next, _) =>
          iunlockput sb p ip
          namexFrom parent fuel next rest name

/-- `namex`: look up the inode for a path, or for its parent. Without a current
    directory `idup` would follow a null pointer. -/
def namex (parent : Bool) (path : List Byte) : M (Option (Fin NINODE × List Byte)) := do
  if path.head? = some slash then
    let ip ← iget ROOTDEV ROOTINO
    namexFrom sb p parent (path.length + 1) ip path []
  else
    match ← getCwd p with
    | none => panic .kerneltrap
    | some ip =>
      idup ip
      namexFrom sb p parent (path.length + 1) ip path []

def namei (path : List Byte) : M (Option (Fin NINODE)) := do
  let r ← namex sb p false path
  return r.map Prod.fst

/-- `nameiparent`: the parent, and the final element. -/
def nameiparent (path : List Byte) : M (Option (Fin NINODE × List Byte)) := namex sb p true path

end Paths

end Xv6
