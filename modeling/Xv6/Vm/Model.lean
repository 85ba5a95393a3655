import Xv6.Param
import Xv6.Lib.Bytes
import Xv6.Lib.Prog
import Mathlib.Logic.Function.Basic
import Mathlib.Data.Fintype.Defs
import Mathlib.Data.List.FinRange

/-!
# Physical Memory

Physical pages, the page allocator of `kernel/kalloc.c`, and page-table entries.

Memory is an array of pages of bytes, and everything the kernel keeps in a page is
kept in these bytes: the link of a free page to the next one, the entries of a page
table, and the memory of a process. Addresses and entries are 64-bit numbers;
arithmetic that can wrap around is followed by `u64`.

The commands are the steps that the programs of `Xv6.Vm.Code` are made of. A
critical section under one lock is one command.

## Main definitions

* `Layout`: Where the linker put the end of the kernel.
* `PA2PTE`, `PTE2PA`, `PX`: The arithmetic of page-table entries.
* `Cmd`, `perform`: The commands and what they do.
-/

namespace Xv6.Vm

open Function

/-- Arithmetic on `uint64`. -/
def u64 (x : Nat) : Nat := x % 2 ^ 64

/-- Arithmetic on `uint`. -/
def u32 (x : Nat) : Nat := x % 2 ^ 32

/-- An `int` as a `uint64`. -/
def sext32 (x : Nat) : Nat := if u32 x < 2 ^ 31 then u32 x else u32 x + (2 ^ 64 - 2 ^ 32)

-- The layout of `kernel/memlayout.h`.
def KERNBASE : Nat := 0x80000000
def PHYSTOP : Nat := KERNBASE + 128 * 1024 * 1024
def MAXVA : Nat := 2 ^ (9 + 9 + 9 + 12 - 1)

-- The flags of an entry.
def PTE_V : Nat := 2 ^ 0
def PTE_R : Nat := 2 ^ 1
def PTE_W : Nat := 2 ^ 2
def PTE_X : Nat := 2 ^ 3
def PTE_U : Nat := 2 ^ 4

def PGROUNDUP (sz : Nat) : Nat := u64 (sz + PGSIZE - 1) / PGSIZE * PGSIZE
def PGROUNDDOWN (a : Nat) : Nat := a / PGSIZE * PGSIZE

/-- Shift a physical address to its place in an entry. -/
def PA2PTE (pa : Nat) : Nat := (pa >>> 12) <<< 10
def PTE2PA (pte : Nat) : Nat := u64 ((pte >>> 10) <<< 12)
def PTE_FLAGS (pte : Nat) : Nat := pte &&& 0x3FF

/-- The nine bits of a virtual address that index the table at a level. -/
def PX (level va : Nat) : Nat := (va >>> (12 + 9 * level)) &&& 0x1FF

/-- No loop over the pages of an address space goes on for longer: past `MAXVA`
    there is an error or `walk` panics. -/
def MAXPAGES : Nat := MAXVA / PGSIZE + 1

/-- Where the linker put the first address after the kernel. -/
structure Layout where
  kend : Nat
  above : KERNBASE ≤ kend
  fits : kend ≤ PHYSTOP

/-- Physical memory, and the head of the free list of `kalloc.c`. -/
structure Kernel where
  mem : Nat → Buffer PGSIZE
  freelist : Nat

namespace Kernel

variable (s : Kernel)

/-- The byte at a physical address. -/
def byte (a : Nat) : Byte := Bytes.get (s.mem (a / PGSIZE)) (a % PGSIZE)

def setPage (pg : Nat) (b : Buffer PGSIZE) : Kernel := { s with mem := update s.mem pg b }

/-- `memmove` to a physical address. -/
def write (pa : Nat) (bs : List Byte) : Kernel :=
  { s with mem := fun pg i =>
      if pa ≤ pg * PGSIZE + i.val ∧ pg * PGSIZE + i.val < pa + bs.length then
        bs.getD (pg * PGSIZE + i.val - pa) 0
      else s.mem pg i }

/-- `kalloc`: take the first page of the free list, and fill it with junk. -/
def kalloc : Nat × Kernel :=
  let r := s.freelist
  if r = 0 then (0, s)
  else
    (r, { s with
      freelist := Bytes.readLe (s.mem (r / PGSIZE)) (r % PGSIZE) 8
      mem := update s.mem (r / PGSIZE) (fun _ => 5) })

/-- `kfree` after its check: fill the page with junk, and put it in front of the
    free list. -/
def kfree (pa : Nat) : Kernel :=
  { s with
    freelist := pa
    mem := update s.mem (pa / PGSIZE)
      (Bytes.writeLe (fun _ => 1) (pa % PGSIZE) 8 s.freelist) }

end Kernel

inductive Cmd where
  | panic (e : Panic)
  -- A loop that does not end.
  | hang
  | kalloc
  | kfree (pa : Nat)
  -- An 8-byte number in memory, and bytes of a page.
  | load (a : Nat)
  | store (a x : Nat)
  | memset (pa : Nat) (b : Byte)
  | read (pa n : Nat)
  | write (pa : Nat) (bs : List Byte)

def Cmd.Ans : Cmd → Type
  | panic _ => Empty
  | hang => Empty
  | kalloc => Nat
  | load _ => Nat
  | read _ _ => List Byte
  | _ => Unit

section Perform

variable (lay : Layout)

def perform : (c : Cmd) → Kernel → Outcome Panic (c.Ans × Kernel)
  | .panic e, _ => .panic e
  | .hang, _ => .wait
  | .kalloc, s => .done s.kalloc
  | .kfree pa, s =>
    if pa % PGSIZE ≠ 0 ∨ pa < lay.kend ∨ PHYSTOP ≤ pa then .panic .kfree
    else .done ((), s.kfree pa)
  | .load a, s => .done (Bytes.readLe (s.mem (a / PGSIZE)) (a % PGSIZE) 8, s)
  | .store a x, s =>
    .done ((), s.setPage (a / PGSIZE) (Bytes.writeLe (s.mem (a / PGSIZE)) (a % PGSIZE) 8 x))
  | .memset pa b, s => .done ((), s.setPage (pa / PGSIZE) (fun _ => b))
  | .read pa n, s => .done ((List.range n).map (fun i => s.byte (pa + i)), s)
  | .write pa bs, s => .done ((), s.write pa bs)

end Perform

abbrev M := Prog Cmd Cmd.Ans

end Xv6.Vm
