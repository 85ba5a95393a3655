import Xv6.Fs.File

/-!
# System Calls

The system calls of `kernel/sysfile.c`.

A system call runs for a process and finds its user memory as it is. The
outcome of anything outside the file system is given with the call: whether a
page could be allocated, and what a device or a pipe transferred.

## Main definitions

* `argstr`, `argfd`, `fdalloc`: Arguments and descriptors.
* `create`: The common part of `open`, `mkdir` and `mknod`.
* `sysOpen`, …, `sysPipe`: The system calls.
-/

namespace Xv6

/-- `copyinstr`: a string of less than `max` bytes. -/
def copyinstr (mem : UserMem) : Nat → BitVec 64 → Option (List Byte)
  | 0, _ => none
  | max + 1, a =>
    match mem a with
    | none => none
    | some c => if c = 0 then some [] else (copyinstr mem max (a + 1)).map (fun cs => c :: cs)

/-- `argstr(n, path, MAXPATH)`, the argument being the address of the string. -/
def argstr (mem : UserMem) (a : BitVec 64) : Option (List Byte) := copyinstr mem MAXPATH a

section Calls

variable (sb : Superblock) (p : Fin NPROC)

/-- `argfd`: the descriptor and the file it stands for. -/
def argfd (fd : Int) : M (Option (Fin NOFILE × Fin NFILE)) :=
  if h : 0 ≤ fd ∧ fd.toNat < NOFILE then do
    let f ← getOfile p ⟨fd.toNat, h.2⟩
    return f.map (fun f => (⟨fd.toNat, h.2⟩, f))
  else return none

/-- The loop of `fdalloc` over the remaining descriptors. -/
def fdallocFrom (f : Fin NFILE) : List (Fin NOFILE) → M (Option (Fin NOFILE))
  | [] => return none
  | fd :: fds => do
    match ← getOfile p fd with
    | none =>
      setOfile p fd (some f)
      return some fd
    | some _ => fdallocFrom f fds

def fdalloc (f : Fin NFILE) : M (Option (Fin NOFILE)) := fdallocFrom p f (List.finRange NOFILE)

def sysDup (fd : Int) : M Int := do
  match ← argfd p fd with
  | none => return -1
  | some (_, f) =>
    match ← fdalloc p f with
    | none => return -1
    | some fd =>
      filedup f
      return fd.val

def sysRead (fd : Int) (mem : UserMem) (addr : BitVec 64) (n : BitVec 32) (io : Int) :
    M (Int × List Byte) := do
  match ← argfd p fd with
  | none => return (-1, [])
  | some (_, f) => fileread sb p f (.user mem addr) n io

def sysWrite (fd : Int) (mem : UserMem) (addr : BitVec 64) (n : BitVec 32) (io : Int) :
    M Int := do
  match ← argfd p fd with
  | none => return -1
  | some (_, f) => filewrite sb p f mem addr n.toInt io

def sysClose (fd : Int) : M Int := do
  match ← argfd p fd with
  | none => return -1
  | some (fd, f) =>
    setOfile p fd none
    fileclose sb p f
    return 0

def sysFstat (fd : Int) (mem : UserMem) (addr : BitVec 64) : M (Int × Option Stat) := do
  match ← argfd p fd with
  | none => return (-1, none)
  | some (_, f) => filestat sb p f (.user mem addr)

/-- The end of `sys_link` at `bad`: take the link back. -/
def linkBad (ip : Fin NINODE) : M Int := do
  ilock sb p ip
  let i ← getInode ip
  setInode ip { i.d with nlink := i.d.nlink - 1 }
  iupdate sb ip
  iunlockput sb p ip
  endOp
  return -1

def sysLink (mem : UserMem) (old new : BitVec 64) : M Int := do
  match argstr mem old, argstr mem new with
  | some old, some new =>
    beginOp
    match ← namei sb p old with
    | none =>
      endOp
      return -1
    | some ip =>
      ilock sb p ip
      let i ← getInode ip
      if i.d.type = T_DIR then
        iunlockput sb p ip
        endOp
        return -1
      else
        setInode ip { i.d with nlink := i.d.nlink + 1 }
        iupdate sb ip
        iunlock p ip
        match ← nameiparent sb p new with
        | none => linkBad sb p ip
        | some (dp, name) =>
          ilock sb p dp
          let d ← getInode dp
          if d.dev ≠ i.dev then
            iunlockput sb p dp
            linkBad sb p ip
          else
            let r ← dirlink sb p dp name i.inum
            if r < 0 then
              iunlockput sb p dp
              linkBad sb p ip
            else
              iunlockput sb p dp
              iput sb p ip
              endOp
              return 0
  | _, _ => return -1

/-- The loop of `isdirempty`. -/
def isdiremptyFrom (dp : Fin NINODE) (size : Nat) : Nat → Nat → M Bool
  | 0, _ => return true
  | fuel + 1, off => do
    if off < size then
      let r ← readi sb dp .kernel (BitVec.ofNat 32 off) 16
      if r.1 ≠ 16 then panic .isdiremptyReadi
      else if (Dirent.decode r.2).inum ≠ 0 then return false
      else isdiremptyFrom dp size fuel (off + 16)
    else return true

/-- `isdirempty`: whether the directory has no entries past the first two. -/
def isdirempty (dp : Fin NINODE) : M Bool := do
  let i ← getInode dp
  isdiremptyFrom sb dp i.d.size.toNat (i.d.size.toNat / 16 + 1) 32

/-- The end of `sys_unlink` at `bad`. -/
def unlinkBad (dp : Fin NINODE) : M Int := do
  iunlockput sb p dp
  endOp
  return -1

def sysUnlink (mem : UserMem) (path : BitVec 64) : M Int := do
  match argstr mem path with
  | none => return -1
  | some path =>
    beginOp
    match ← nameiparent sb p path with
    | none =>
      endOp
      return -1
    | some (dp, name) =>
      ilock sb p dp
      -- Cannot unlink "." or "..".
      if namecmp name dot = 0 ∨ namecmp name dotdot = 0 then unlinkBad sb p dp
      else
        match ← dirlookup sb dp name with
        | none => unlinkBad sb p dp
        | some (ip, off) =>
          ilock sb p ip
          let i ← getInode ip
          if i.d.nlink.toInt < 1 then panic .unlinkNlink
          else
            let empty ← if i.d.type = T_DIR then isdirempty sb ip else pure true
            if i.d.type = T_DIR ∧ empty = false then
              iunlockput sb p ip
              unlinkBad sb p dp
            else
              let r ← writei sb dp (.kernel Dirent.zero.encode) (BitVec.ofNat 32 off) 16
              if r ≠ 16 then panic .unlinkWritei
              else
                if i.d.type = T_DIR then
                  let d ← getInode dp
                  setInode dp { d.d with nlink := d.d.nlink - 1 }
                  iupdate sb dp
                iunlockput sb p dp
                let i ← getInode ip
                setInode ip { i.d with nlink := i.d.nlink - 1 }
                iupdate sb ip
                iunlockput sb p ip
                endOp
                return 0

/-- The end of `create` at `fail`: de-allocate the inode. -/
def createFail (dp ip : Fin NINODE) : M (Option (Fin NINODE)) := do
  let i ← getInode ip
  setInode ip { i.d with nlink := 0 }
  iupdate sb ip
  iunlockput sb p ip
  iunlockput sb p dp
  return none

/-- `create`: a new inode under a path, or for files an existing one. It is
    returned locked. -/
def create (path : List Byte) (type major minor : BitVec 16) : M (Option (Fin NINODE)) := do
  match ← nameiparent sb p path with
  | none => return none
  | some (dp, name) =>
    ilock sb p dp
    match ← dirlookup sb dp name with
    | some (ip, _) =>
      iunlockput sb p dp
      ilock sb p ip
      let i ← getInode ip
      if type = T_FILE ∧ (i.d.type = T_FILE ∨ i.d.type = T_DEVICE) then return some ip
      else
        iunlockput sb p ip
        return none
    | none =>
      let d ← getInode dp
      match ← ialloc sb d.dev type with
      | none =>
        iunlockput sb p dp
        return none
      | some ip =>
        ilock sb p ip
        let i ← getInode ip
        setInode ip { i.d with major := major, minor := minor, nlink := 1 }
        iupdate sb ip
        if type = T_DIR then
          -- No ip->nlink++ for ".": avoid cyclic ref count.
          let r ← dirlink sb p ip dot i.inum
          if r < 0 then createFail sb p dp ip
          else
            let r ← dirlink sb p ip dotdot d.inum
            if r < 0 then createFail sb p dp ip
            else
              let r ← dirlink sb p dp name i.inum
              if r < 0 then createFail sb p dp ip
              else
                -- Now that success is guaranteed, count "..".
                let d ← getInode dp
                setInode dp { d.d with nlink := d.d.nlink + 1 }
                iupdate sb dp
                iunlockput sb p dp
                return some ip
        else
          let r ← dirlink sb p dp name i.inum
          if r < 0 then createFail sb p dp ip
          else
            iunlockput sb p dp
            return some ip

/-- The part of `sys_open` after the inode is found and locked. -/
def openFound (ip : Fin NINODE) (omode : BitVec 32) : M Int := do
  let i ← getInode ip
  if i.d.type = T_DEVICE ∧ inDevsw i.d.major = false then
    iunlockput sb p ip
    endOp
    return -1
  else
    match ← filealloc with
    | none =>
      iunlockput sb p ip
      endOp
      return -1
    | some f =>
      match ← fdalloc p f with
      | none =>
        fileclose sb p f
        iunlockput sb p ip
        endOp
        return -1
      | some fd =>
        openInode f ip (if i.d.type = T_DEVICE then some i.d.major else none)
          (omode &&& O_WRONLY = 0) (omode &&& O_WRONLY ≠ 0 ∨ omode &&& O_RDWR ≠ 0)
        if omode &&& O_TRUNC ≠ 0 ∧ i.d.type = T_FILE then itrunc sb ip
        iunlock p ip
        endOp
        return fd.val

def sysOpen (mem : UserMem) (path : BitVec 64) (omode : BitVec 32) : M Int := do
  match argstr mem path with
  | none => return -1
  | some path =>
    beginOp
    if omode &&& O_CREATE ≠ 0 then
      match ← create sb p path T_FILE 0 0 with
      | none =>
        endOp
        return -1
      | some ip => openFound sb p ip omode
    else
      match ← namei sb p path with
      | none =>
        endOp
        return -1
      | some ip =>
        ilock sb p ip
        let i ← getInode ip
        if i.d.type = T_DIR ∧ omode ≠ O_RDONLY then
          iunlockput sb p ip
          endOp
          return -1
        else openFound sb p ip omode

/-- The common part of `sys_mkdir` and `sys_mknod`. -/
def sysMake (mem : UserMem) (path : BitVec 64) (type major minor : BitVec 16) : M Int := do
  beginOp
  match argstr mem path with
  | none =>
    endOp
    return -1
  | some path =>
    match ← create sb p path type major minor with
    | none =>
      endOp
      return -1
    | some ip =>
      iunlockput sb p ip
      endOp
      return 0

def sysMkdir (mem : UserMem) (path : BitVec 64) : M Int := sysMake sb p mem path T_DIR 0 0

/-- `sys_mknod`. The numbers are cut to the width of their fields. -/
def sysMknod (mem : UserMem) (path : BitVec 64) (major minor : BitVec 32) : M Int :=
  sysMake sb p mem path T_DEVICE (major.setWidth 16) (minor.setWidth 16)

def sysChdir (mem : UserMem) (path : BitVec 64) : M Int := do
  beginOp
  match argstr mem path with
  | none =>
    endOp
    return -1
  | some path =>
    match ← namei sb p path with
    | none =>
      endOp
      return -1
    | some ip =>
      ilock sb p ip
      let i ← getInode ip
      if i.d.type ≠ T_DIR then
        iunlockput sb p ip
        endOp
        return -1
      else
        iunlock p ip
        match ← getCwd p with
        | none => panic .kerneltrap
        | some old =>
          iput sb p old
          endOp
          setCwd p (some ip)
          return 0

/-- `sys_pipe`. The flags say whether there is a page for the pipe and whether
    the user's array takes the descriptors. -/
def sysPipe (page copied : Bool) : M Int := do
  match ← pipealloc sb p page with
  | none => return -1
  | some (rf, wf) =>
    match ← fdalloc p rf with
    | none =>
      fileclose sb p rf
      fileclose sb p wf
      return -1
    | some fd0 =>
      match ← fdalloc p wf with
      | none =>
        setOfile p fd0 none
        fileclose sb p rf
        fileclose sb p wf
        return -1
      | some fd1 =>
        if copied then return 0
        else
          setOfile p fd0 none
          setOfile p fd1 none
          fileclose sb p rf
          fileclose sb p wf
          return -1

end Calls

end Xv6
