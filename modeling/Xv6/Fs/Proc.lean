import Xv6.Fs.Sysfile

/-!
# Processes

`exec`, `fork`, `exit` and `wait` as far as they concern files, and all system
calls together.

## Main definitions

* `exec`: Replace the process image.
* `fork`, `exit`, `wait`: The life of a process.
* `Call`, `syscall`: The system calls and their programs.
* `bootKernel`: The tables when the first process starts.
-/

namespace Xv6

-- From `kernel/elf.h`.
def ELF_MAGIC : Nat := 0x464C457F
def ELF_PROG_LOAD : Nat := 1

/-- The number stored in bytes `o` to `o + k` of a structure. -/
def field (bs : List Byte) (o k : Nat) : Nat := Bytes.leVal ((bs.drop o).take k)

/-- What `exec` gets from the memory allocator: a page table, room for each
    program segment, and a stack that takes the arguments. -/
structure ExecMem where
  pagetable : Bool
  segment : Nat → Bool
  stack : Bool
  argc : Nat

section Procs

variable (sb : Superblock) (p : Fin NPROC)

/-- `loadseg`, over at most `fuel` more pages. -/
def loadsegFrom (ip : Fin NINODE) (offset : BitVec 32) (sz : Nat) : Nat → Nat → M Int
  | 0, _ => return 0
  | fuel + 1, i => do
    if i < sz then
      let n := min (sz - i) PGSIZE
      let r ← readi sb ip .kernel (offset + BitVec.ofNat 32 i) (BitVec.ofNat 32 n)
      if r.1 ≠ n then return -1 else loadsegFrom ip offset sz fuel (i + PGSIZE)
    else return 0

/-- The loop of `exec` over `n` more program headers; the result tells whether
    all segments were loaded. -/
def loadFrom (ip : Fin NINODE) (mem : ExecMem) : Nat → Nat → BitVec 32 → M Bool
  | 0, _, _ => return true
  | n + 1, i, off => do
    let r ← readi sb ip .kernel off 56
    if r.1 ≠ 56 then return false
    else if field r.2 0 4 ≠ ELF_PROG_LOAD then loadFrom ip mem n (i + 1) (off + 56)
    else
      let vaddr := BitVec.ofNat 64 (field r.2 16 8)
      let filesz := BitVec.ofNat 64 (field r.2 32 8)
      let memsz := BitVec.ofNat 64 (field r.2 40 8)
      if memsz < filesz then return false
      else if vaddr + memsz < vaddr then return false
      else if vaddr.toNat % PGSIZE ≠ 0 then return false
      else if mem.segment i = false then return false
      else
        let sz := field r.2 32 8 % 2 ^ 32
        let l ← loadsegFrom sb ip (BitVec.ofNat 32 (field r.2 8 8)) sz (sz / PGSIZE + 1) 0
        if l < 0 then return false else loadFrom ip mem n (i + 1) (off + 56)

/-- The end of `exec` at `bad` while the inode is held. -/
def execBad (ip : Fin NINODE) : M Int := do
  iunlockput sb p ip
  endOp
  return -1

def exec (path : List Byte) (mem : ExecMem) : M Int := do
  beginOp
  match ← namei sb p path with
  | none =>
    endOp
    return -1
  | some ip =>
    ilock sb p ip
    let r ← readi sb ip .kernel 0 64
    if r.1 ≠ 64 then execBad sb p ip
    else if field r.2 0 4 ≠ ELF_MAGIC then execBad sb p ip
    else if mem.pagetable = false then execBad sb p ip
    else
      let ok ← loadFrom sb ip mem (field r.2 56 2) 0 (BitVec.ofNat 32 (field r.2 32 8))
      if ok = false then execBad sb p ip
      else
        iunlockput sb p ip
        endOp
        if mem.stack then return mem.argc else return -1

/-- `sys_exec`. The arguments are fetched before anything is opened; the flag
    tells whether that succeeded. -/
def sysExec (mem : UserMem) (path : BitVec 64) (args : Bool) (emem : ExecMem) : M Int :=
  match argstr mem path with
  | none => return -1
  | some path => if args then exec sb p path emem else return -1

/-- The loop of `fork` that shares the open files, over the remaining
    descriptors. -/
def forkFiles (np : Fin NPROC) : List (Fin NOFILE) → M Unit
  | [] => return ()
  | fd :: fds => do
    match ← getOfile p fd with
    | none => forkFiles np fds
    | some f =>
      filedup f
      setOfile np fd (some f)
      forkFiles np fds

/-- `fork`. The flag says whether memory for the child could be allocated. -/
def fork (mem : Bool) : M Int := do
  match ← allocproc with
  | none => return -1
  | some np =>
    if mem = false then
      freeproc np
      return -1
    else
      forkFiles p np (List.finRange NOFILE)
      match ← getCwd p with
      | none => panic .kerneltrap
      | some ip =>
        idup ip
        setCwd np (some ip)
        setParent np p
        setRunnable np
        return np.val

/-- The loop of `exit` that closes the open files. -/
def exitFiles : List (Fin NOFILE) → M Unit
  | [] => return ()
  | fd :: fds => do
    match ← getOfile p fd with
    | none => exitFiles fds
    | some f =>
      fileclose sb p f
      setOfile p fd none
      exitFiles fds

def exit : M Int := do
  if p = initproc then panic .initExiting
  else
    exitFiles sb p (List.finRange NOFILE)
    match ← getCwd p with
    | none => panic .kerneltrap
    | some ip =>
      beginOp
      iput sb p ip
      endOp
      setCwd p none
      zombie p
      return 0

/-- `wait`, when a child has exited or there is none to wait for. -/
def wait : M Int := do
  match ← reap p with
  | none => return -1
  | some q => return q.val

end Procs

inductive Call where
  | openFile (mem : UserMem) (path : BitVec 64) (omode : BitVec 32)
  | close (fd : Int)
  | dup (fd : Int)
  | read (fd : Int) (mem : UserMem) (addr : BitVec 64) (n : BitVec 32) (io : Int)
  | write (fd : Int) (mem : UserMem) (addr : BitVec 64) (n : BitVec 32) (io : Int)
  | fstat (fd : Int) (mem : UserMem) (addr : BitVec 64)
  | link (mem : UserMem) (old new : BitVec 64)
  | unlink (mem : UserMem) (path : BitVec 64)
  | mkdir (mem : UserMem) (path : BitVec 64)
  | mknod (mem : UserMem) (path : BitVec 64) (major minor : BitVec 32)
  | chdir (mem : UserMem) (path : BitVec 64)
  | pipe (page copied : Bool)
  | exec (mem : UserMem) (path : BitVec 64) (args : Bool) (emem : ExecMem)
  | fork (mem : Bool)
  | exit
  | wait

def syscall (sb : Superblock) (p : Fin NPROC) : Call → M Int
  | .openFile mem path omode => sysOpen sb p mem path omode
  | .close fd => sysClose sb p fd
  | .dup fd => sysDup p fd
  | .read fd mem addr n io => do
    let r ← sysRead sb p fd mem addr n io
    return r.1
  | .write fd mem addr n io => sysWrite sb p fd mem addr n io
  | .fstat fd mem addr => do
    let r ← sysFstat sb p fd mem addr
    return r.1
  | .link mem old new => sysLink sb p mem old new
  | .unlink mem path => sysUnlink sb p mem path
  | .mkdir mem path => sysMkdir sb p mem path
  | .mknod mem path major minor => sysMknod sb p mem path major minor
  | .chdir mem path => sysChdir sb p mem path
  | .pipe page copied => sysPipe sb p page copied
  | .exec mem path args emem => sysExec sb p mem path args emem
  | .fork mem => fork p mem
  | .exit => exit sb p
  | .wait => wait p

/-- The tables when the first process starts: it has no open files, and its
    current directory is the root. -/
def bootKernel (sb : Superblock) (blk : Nat → Block) : Kernel where
  blk := blk
  log := Log.initlog sb
  itable := Function.update
    (fun _ => { dev := 0, inum := 0, ref := 0, lock := none, valid := false, d := .zero })
    ⟨0, ninode_pos⟩
    { dev := ROOTDEV, inum := ROOTINO, ref := 1, lock := none, valid := false, d := .zero }
  ftable := fun _ => { type := .none, ref := 0, readable := false, writable := false, pipe := 0
                       ip := ⟨0, ninode_pos⟩, off := 0, major := 0 }
  proc := Function.update
    (fun _ => { state := .unused, parent := none, ofile := fun _ => none, cwd := none })
    initproc
    { state := .runnable, parent := none, ofile := fun _ => none, cwd := some ⟨0, ninode_pos⟩ }
  pipes := []

end Xv6
