import Xv6.Lib.Machine
import Mathlib.Logic.Function.Basic

/-!
# The User Allocator

`malloc` and `free` of `user/umalloc.c`, and a program that uses them.

Free blocks form a ring in the order of their addresses, through a header `base` that
is not in the heap. A block starts with a header: a pointer to the next free block, and
the size of the block in units of a header. Memory is a pair of functions from the
address of a header to its fields. An address is a number of bytes, so that `p + n` of
the source is `p + 16 * n`, and sizes are kept modulo `2 ^ 32`.

What `sbrk` returns is given with the call of `malloc`: an address, or nothing if it
fails. An address has to be above all memory returned before. The units returned in
all are fewer than `2 ^ 32`, which is 64 GiB; the machine has 128 MiB. A request must
be such that its size in bytes fits into the `int` that `sbrk` takes.

A program may write to its blocks at any time, and what it writes there looks like
headers too. The loops have fuel, and running out of it is the only fault.

## Main definitions

* `Heap`: Memory, `freep`, and what `sbrk` has returned.
* `free`, `morecore`, `malloc`: The functions of the source.
* `System`: The heap and the blocks of the program.
* `step`: A call, or a write to a block.
-/

namespace Xv6.Umalloc

/-- A loop that does not end. -/
inductive Hang where
  | loop
  deriving DecidableEq

/-- `chunks` is what `sbrk` has returned, as addresses and units, and `brk` the end
    of it. -/
structure Heap where
  ptr : Nat → Nat
  size : Nat → Nat
  freep : Nat
  chunks : List (Nat × Nat)
  brk : Nat

namespace Heap

def setPtr (h : Heap) (p q : Nat) : Heap := { h with ptr := Function.update h.ptr p q }

def setSize (h : Heap) (p n : Nat) : Heap := { h with size := Function.update h.size p n }

/-- Both halves of the end of `free`: block `a` is put before block `x`, and they become
    one if they touch. -/
def join (h : Heap) (a x : Nat) : Heap :=
  if a + 16 * h.size a = x then
    (h.setSize a ((h.size a + h.size x) % 2 ^ 32)).setPtr a (h.ptr x)
  else h.setPtr a x

end Heap

/-- The loop of `free`. -/
def seek (h : Heap) (bp : Nat) : Nat → Nat → Outcome Hang Nat
  | 0, _ => .panic .loop
  | fuel + 1, p =>
    if bp > p ∧ bp < h.ptr p then .done p
    else if p ≥ h.ptr p ∧ (bp > p ∨ bp < h.ptr p) then .done p
    else seek h bp fuel (h.ptr p)

def free (fuel : Nat) (h : Heap) (ap : Nat) : Outcome Hang Heap := do
  let bp := ap - 16
  let p ← seek h bp fuel h.freep
  let h := h.join bp (h.ptr p)
  let h := h.join p bp
  return { h with freep := p }

/-- `nu` as `morecore` rounds it. -/
def coreUnits (nu : Nat) : Nat := if nu < 4096 then 4096 else nu

/-- `morecore`, when `sbrk` returns `a`. -/
def morecore (fuel : Nat) (h : Heap) (nu a : Nat) : Outcome Hang Heap :=
  let nu := coreUnits nu
  let h := { h with chunks := h.chunks ++ [(a, nu)], brk := a + 16 * nu }
  free fuel (h.setSize a nu) (a + 16)

def nunits (nbytes : Nat) : Nat := (nbytes + 16 - 1) / 16 + 1

/-- The block at `p` is taken, or its tail. -/
def Heap.take (h : Heap) (prevp p n : Nat) : Heap × Nat :=
  if h.size p = n then ({ h.setPtr prevp (h.ptr p) with freep := prevp }, p + 16)
  else
    let h := h.setSize p (h.size p - n)
    let p := p + 16 * h.size p
    ({ h.setSize p n with freep := prevp }, p + 16)

/-- The loop of `malloc`, with the replies of `sbrk`. -/
def search (n : Nat) : Nat → List (Option Nat) → Heap → Nat → Nat → Outcome Hang (Heap × Nat)
  | 0, _, _, _, _ => .panic .loop
  | fuel + 1, replies, h, prevp, p =>
    if n ≤ h.size p then .done (h.take prevp p n)
    else if p = h.freep then
      match replies with
      | some a :: replies => do
        let h ← morecore fuel h n a
        search n fuel replies h h.freep (h.ptr h.freep)
      | _ => .done (h, 0)
    else search n fuel replies h p (h.ptr p)

section Program

variable (base : Nat)

/-- The first call makes a ring of `base` alone. -/
def init (h : Heap) : Heap :=
  if h.freep = 0 then { (h.setPtr base base).setSize base 0 with freep := base } else h

def malloc (fuel : Nat) (h : Heap) (nbytes : Nat) (replies : List (Option Nat)) :
    Outcome Hang (Heap × Nat) :=
  let h := init base h
  search (nunits nbytes) fuel replies h h.freep (h.ptr h.freep)

/-- The live blocks of a program: the address of the header, and the bytes asked for. -/
structure System where
  heap : Heap
  live : List (Nat × Nat)

def boot (ptr size : Nat → Nat) (brk : Nat) : System :=
  { heap := { ptr := ptr, size := size, freep := 0, chunks := [], brk := brk }, live := [] }

inductive Event where
  | malloc (nbytes : Nat) (replies : List (Option Nat))
  | free (ap : Nat)
  | write (bp : Nat) (ptr size : Nat → Nat)

/-- Units returned by `sbrk` in all. -/
def total (chunks : List (Nat × Nat)) : Nat := (chunks.map Prod.snd).sum

/-- What `sbrk` may return to calls for `nu` units. -/
def Fresh (nu : Nat) : List (Option Nat) → Nat → Nat → Bool
  | [], _, _ => true
  | none :: replies, brk, sum => Fresh nu replies brk sum
  | some a :: replies, brk, sum =>
    decide (brk ≤ a) && decide (sum + nu < 2 ^ 32) && Fresh nu replies (a + 16 * nu) (sum + nu)

/-- A write to the block at `bp`. A header that shares a byte with what comes after the
    header of the block may be anything after it. -/
def Heap.write (h : Heap) (bp : Nat) (ptr size : Nat → Nat) : Heap :=
  { h with
    ptr := fun x => if bp < x ∧ x < bp + 16 * h.size bp then ptr x else h.ptr x
    size := fun x => if bp < x ∧ x < bp + 16 * h.size bp then size x else h.size x }

def step (fuel : Nat) (s : System) : Event → Outcome Hang System
  | .malloc nbytes replies =>
    if nbytes < 2 ^ 32 ∧ 16 * nunits nbytes < 2 ^ 31 ∧
        Fresh (coreUnits (nunits nbytes)) replies s.heap.brk (total s.heap.chunks) then do
      let r ← malloc base fuel s.heap nbytes replies
      return { heap := r.1, live := if r.2 = 0 then s.live else (r.2 - 16, nbytes) :: s.live }
    else .wait
  | .free ap =>
    if 16 ≤ ap ∧ ap - 16 ∈ s.live.map Prod.fst then do
      let h ← free fuel s.heap ap
      return { heap := h, live := s.live.eraseP (fun b => b.1 = ap - 16) }
    else .wait
  | .write bp ptr size =>
    if bp ∈ s.live.map Prod.fst then .done { s with heap := s.heap.write bp ptr size } else .wait

end Program

end Xv6.Umalloc
