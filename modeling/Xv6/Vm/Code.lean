import Xv6.Vm.Model

/-!
# Virtual Memory

The functions of `kernel/vm.c`: walking and filling page tables, and copying between
the kernel and a process. With them are the functions of `kernel/exec.c` and
`kernel/syscall.c` that choose the permissions of a segment and fetch an argument.

An address of 0 stands for a null pointer. A loop over pages is a recursion with
as many steps as the loop can take before it returns or panics, and `hang` after
that.

## Main definitions

* `walk`, `walkaddr`: Find the entry of a page.
* `mappages`, `uvmunmap`: Set and clear entries.
* `uvmcreate`, `uvmalloc`, `uvmdealloc`: The memory of a process.
* `copyout`, `copyin`, `copyinstr`: Copies between kernel and process.
* `flags2perm`: The permissions of a segment.
* `fetchstr`, `argstr`: A string argument of a system call.
-/

namespace Xv6.Vm

-- The commands as programs.
def panic {α : Type} (e : Panic) : M α := .act (.panic e) nofun
def hang {α : Type} : M α := .act .hang nofun
def kalloc : M Nat := Prog.call Cmd.kalloc
def kfree (pa : Nat) : M Unit := Prog.call (Cmd.kfree pa)
def load (a : Nat) : M Nat := Prog.call (Cmd.load a)
def store (a x : Nat) : M Unit := Prog.call (Cmd.store a x)
def memset (pa : Nat) (b : Byte) : M Unit := Prog.call (Cmd.memset pa b)
def read (pa n : Nat) : M (List Byte) := Prog.call (Cmd.read pa n)
def write (pa : Nat) (bs : List Byte) : M Unit := Prog.call (Cmd.write pa bs)

/-- The loop of `walk` from a level on. -/
def walkFrom (va : Nat) (alloc : Bool) : Nat → Nat → M Nat
  | 0, pagetable => return pagetable + 8 * PX 0 va
  | level + 1, pagetable => do
    let pte ← load (pagetable + 8 * PX (level + 1) va)
    if pte &&& PTE_V ≠ 0 then walkFrom va alloc level (PTE2PA pte)
    else if alloc = false then return 0
    else
      let new ← kalloc
      if new = 0 then return 0
      else
        memset new 0
        store (pagetable + 8 * PX (level + 1) va) (PA2PTE new ||| PTE_V)
        walkFrom va alloc level new

/-- `walk`: the address of the entry for a virtual address. -/
def walk (pagetable va : Nat) (alloc : Bool) : M Nat :=
  if MAXVA ≤ va then panic .walk else walkFrom va alloc 2 pagetable

def walkaddr (pagetable va : Nat) : M Nat :=
  if MAXVA ≤ va then return 0
  else do
    let pte ← walk pagetable va false
    if pte = 0 then return 0
    else
      let x ← load pte
      if x &&& PTE_V = 0 then return 0
      else if x &&& PTE_U = 0 then return 0
      else return PTE2PA x

/-- The loop of `mappages`. -/
def mappagesFrom (pagetable last perm : Nat) : Nat → Nat → Nat → M Int
  | 0, _, _ => hang
  | fuel + 1, a, pa => do
    let pte ← walk pagetable a true
    if pte = 0 then return -1
    else
      let x ← load pte
      if x &&& PTE_V ≠ 0 then panic .mappagesRemap
      else
        store pte (PA2PTE pa ||| perm ||| PTE_V)
        if a = last then return 0
        else mappagesFrom pagetable last perm fuel (a + PGSIZE) (u64 (pa + PGSIZE))

def mappages (pagetable va size pa perm : Nat) : M Int :=
  if size = 0 then panic .mappagesSize
  else mappagesFrom pagetable (PGROUNDDOWN (u64 (va + size - 1))) perm MAXPAGES (PGROUNDDOWN va) pa

/-- The loop of `uvmunmap`. -/
def uvmunmapFrom (pagetable last : Nat) (doFree : Bool) : Nat → Nat → M Unit
  | 0, _ => hang
  | fuel + 1, a =>
    if a < last then do
      let pte ← walk pagetable a false
      if pte = 0 then panic .uvmunmapWalk
      else
        let x ← load pte
        if x &&& PTE_V = 0 then panic .uvmunmapNotMapped
        else if PTE_FLAGS x = PTE_V then panic .uvmunmapNotLeaf
        else
          if doFree then kfree (PTE2PA x)
          store pte 0
          uvmunmapFrom pagetable last doFree fuel (a + PGSIZE)
    else return ()

def uvmunmap (pagetable va npages : Nat) (doFree : Bool) : M Unit :=
  if va % PGSIZE ≠ 0 then panic .uvmunmapAligned
  else uvmunmapFrom pagetable (u64 (va + npages * PGSIZE)) doFree MAXPAGES va

def uvmcreate : M Nat := do
  let pagetable ← kalloc
  if pagetable = 0 then return 0
  else
    memset pagetable 0
    return pagetable

/-- `uvmdealloc`. The number of pages is an `int`. -/
def uvmdealloc (pagetable oldsz newsz : Nat) : M Nat :=
  if oldsz ≤ newsz then return oldsz
  else do
    if PGROUNDUP newsz < PGROUNDUP oldsz then
      uvmunmap pagetable (PGROUNDUP newsz)
        (sext32 ((PGROUNDUP oldsz - PGROUNDUP newsz) / PGSIZE)) true
    return newsz

/-- The loop of `uvmalloc`. -/
def uvmallocFrom (pagetable oldsz newsz xperm : Nat) : Nat → Nat → M Nat
  | 0, _ => hang
  | fuel + 1, a =>
    if a < newsz then do
      let mem ← kalloc
      if mem = 0 then
        let _ ← uvmdealloc pagetable a oldsz
        return 0
      else
        memset mem 0
        let r ← mappages pagetable a PGSIZE mem (PTE_R ||| PTE_U ||| xperm)
        if r ≠ 0 then
          kfree mem
          let _ ← uvmdealloc pagetable a oldsz
          return 0
        else uvmallocFrom pagetable oldsz newsz xperm fuel (a + PGSIZE)
    else return newsz

def uvmalloc (pagetable oldsz newsz xperm : Nat) : M Nat :=
  if newsz < oldsz then return oldsz
  else uvmallocFrom pagetable (PGROUNDUP oldsz) newsz xperm MAXPAGES (PGROUNDUP oldsz)

/-- The loop of `copyout`; every round copies a byte or more. -/
def copyoutFrom (pagetable : Nat) : Nat → Nat → List Byte → M Int
  | 0, _, _ => return 0
  | fuel + 1, dstva, src =>
    if src.length = 0 then return 0
    else do
      let pa0 ← walkaddr pagetable (PGROUNDDOWN dstva)
      if pa0 = 0 then return -1
      else
        let n := min (PGSIZE - (dstva - PGROUNDDOWN dstva)) src.length
        write (pa0 + (dstva - PGROUNDDOWN dstva)) (src.take n)
        copyoutFrom pagetable fuel (u64 (PGROUNDDOWN dstva + PGSIZE)) (src.drop n)

def copyout (pagetable dstva : Nat) (src : List Byte) : M Int :=
  copyoutFrom pagetable src.length dstva src

/-- The loop of `copyin`. The bytes are those stored at `dst`, whether or not the
    copy succeeds. -/
def copyinFrom (pagetable : Nat) : Nat → Nat → Nat → M (Int × List Byte)
  | 0, _, _ => return (0, [])
  | fuel + 1, srcva, len =>
    if len = 0 then return (0, [])
    else do
      let pa0 ← walkaddr pagetable (PGROUNDDOWN srcva)
      if pa0 = 0 then return (-1, [])
      else
        let n := min (PGSIZE - (srcva - PGROUNDDOWN srcva)) len
        let bs ← read (pa0 + (srcva - PGROUNDDOWN srcva)) n
        let r ← copyinFrom pagetable fuel (u64 (PGROUNDDOWN srcva + PGSIZE)) (len - n)
        return (r.1, bs ++ r.2)

def copyin (pagetable srcva len : Nat) : M (Int × List Byte) :=
  copyinFrom pagetable len srcva len

/-- The inner loop of `copyinstr`: up to `n` bytes from `p`, and whether the last
    one is the end of the string. -/
def copyinstrPage : Nat → Nat → M (Bool × List Byte)
  | 0, _ => return (false, [])
  | n + 1, p => do
    let bs ← read p 1
    if bs = [0] then return (true, [0])
    else
      let r ← copyinstrPage n (p + 1)
      return (r.1, bs ++ r.2)

/-- The loop of `copyinstr`. -/
def copyinstrFrom (pagetable : Nat) : Nat → Nat → Nat → M (Int × List Byte)
  | 0, _, _ => return (-1, [])
  | fuel + 1, srcva, max =>
    if max = 0 then return (-1, [])
    else do
      let pa0 ← walkaddr pagetable (PGROUNDDOWN srcva)
      if pa0 = 0 then return (-1, [])
      else
        let n := min (PGSIZE - (srcva - PGROUNDDOWN srcva)) max
        let r ← copyinstrPage n (pa0 + (srcva - PGROUNDDOWN srcva))
        if r.1 then return (0, r.2)
        else
          let r' ← copyinstrFrom pagetable fuel (u64 (PGROUNDDOWN srcva + PGSIZE)) (max - n)
          return (r'.1, r.2 ++ r'.2)

def copyinstr (pagetable srcva max : Nat) : M (Int × List Byte) :=
  copyinstrFrom pagetable max srcva max

def flags2perm (flags : Nat) : Nat :=
  let perm := if flags &&& 0x1 ≠ 0 then PTE_X else 0
  if flags &&& 0x2 ≠ 0 then perm ||| PTE_W else perm

def strlen (s : List Byte) : Nat := (s.takeWhile (· ≠ 0)).length

/-- `fetchstr`: the length of the string, and the bytes stored in the buffer. -/
def fetchstr (pagetable addr max : Nat) : M (Int × List Byte) := do
  let r ← copyinstr pagetable addr max
  if r.1 < 0 then return (-1, r.2) else return (strlen r.2, r.2)

/-- `argraw`, where `a` are the registers `a0` to `a5` of the trap frame. -/
def argraw (a : Fin 6 → Nat) (n : Nat) : M Nat :=
  if h : n < 6 then return a ⟨n, h⟩ else panic .argraw

def argaddr (a : Fin 6 → Nat) (n : Nat) : M Nat := argraw a n

def argstr (pagetable : Nat) (a : Fin 6 → Nat) (n max : Nat) : M (Int × List Byte) := do
  let addr ← argaddr a n
  fetchstr pagetable addr max

end Xv6.Vm
