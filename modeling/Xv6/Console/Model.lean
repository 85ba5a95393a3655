import Xv6.Lib.Ring
import Xv6.Param

/-!
# The Console

The input side of `kernel/console.c`: the interrupt handler that edits the line,
and the processes that read from the console.

`cons.buf` is a ring with three free-running counters. Bytes from `r` to `w` have
been committed and wait for a reader; bytes from `w` to `e` are the line that is
still being typed. `consoleintr` moves `e` both ways and `w` up to `e`, and
`consoleread` moves `r`.

An interrupt is one step, and so is an iteration of the loop of `consoleread`. The
source holds `cons.lock` from one iteration to the next unless it sleeps, so its
interleavings are among those of the model. The copy to the caller's memory always
succeeds. A call takes bytes one by one and may have to wait in the middle; what it
has got so far is part of its state, and what it returned is recorded when it
returns. The model also records who took which byte out of the ring.

## Main definitions

* `Cons`: The ring and its counters.
* `consoleintr`: The interrupt handler.
* `consoleread`: One iteration of the loop of a read.
* `System`, `Event`, `step`: The console and its readers.
-/

namespace Xv6.Console

def INPUT_BUF_SIZE : Nat := 128

instance : NeZero INPUT_BUF_SIZE := ⟨by decide⟩

/-- The control characters, `C(x)` in the source, and those it writes as escapes. -/
def ctrlP : Byte := 16
def ctrlU : Byte := 21
def ctrlH : Byte := 8
def ctrlD : Byte := 4
def delete : Byte := 0x7f
def newline : Byte := 10
def carriageReturn : Byte := 13

/-- `cons`, without its lock. -/
structure Cons where
  buf : Fin INPUT_BUF_SIZE → Byte
  r : BitVec 32
  w : BitVec 32
  e : BitVec 32

/-- `cons.buf[cons.e++ % INPUT_BUF_SIZE] = c`. -/
def Cons.put (s : Cons) (c : Byte) : Cons :=
  { s with buf := Function.update s.buf (Ring.slot INPUT_BUF_SIZE s.e) c, e := s.e + 1 }

/-- The loop of `^U`, which goes back to `w` at most. -/
def killLine : Nat → Cons → Cons
  | 0, s => s
  | fuel + 1, s =>
    if s.e ≠ s.w ∧ s.buf (Ring.slot INPUT_BUF_SIZE (s.e - 1)) ≠ newline then
      killLine fuel { s with e := s.e - 1 }
    else s

/-- `consoleintr` on the buffer; the flag tells whether the readers are woken up. -/
def consoleintr (s : Cons) (c : Byte) : Cons × Bool :=
  -- A `^P` prints the process table.
  if c = ctrlP then (s, false)
  else if c = ctrlU then (killLine (s.e - s.w).toNat s, false)
  else if c = ctrlH ∨ c = delete then (if s.e ≠ s.w then { s with e := s.e - 1 } else s, false)
  else if c ≠ 0 ∧ (s.e - s.r).toNat < INPUT_BUF_SIZE then
    let c := if c = carriageReturn then newline else c
    let s := s.put c
    if c = newline ∨ c = ctrlD ∨ (s.e - s.r).toNat = INPUT_BUF_SIZE then ({ s with w := s.e }, true)
    else (s, false)
  else (s, false)

theorem killLine_rw (fuel : Nat) (s : Cons) :
    (killLine fuel s).r = s.r ∧ (killLine fuel s).w = s.w := by
  induction fuel generalizing s with
  | zero => exact ⟨rfl, rfl⟩
  | succ fuel ih =>
    unfold killLine
    split
    · exact ih { s with e := s.e - 1 }
    · exact ⟨rfl, rfl⟩

/-- A character that does not end a line leaves what has been committed. -/
theorem consoleintr_rw {s : Cons} {c : Byte} (h : (consoleintr s c).2 = false) :
    (consoleintr s c).1.r = s.r ∧ (consoleintr s c).1.w = s.w := by
  unfold consoleintr at h ⊢
  by_cases hP : c = ctrlP
  · rw [if_pos hP]
    exact ⟨rfl, rfl⟩
  rw [if_neg hP] at h ⊢
  by_cases hU : c = ctrlU
  · rw [if_pos hU]
    exact killLine_rw _ s
  rw [if_neg hU] at h ⊢
  by_cases hH : c = ctrlH ∨ c = delete
  · rw [if_pos hH]
    by_cases he : s.e ≠ s.w
    · rw [if_pos he]
      exact ⟨rfl, rfl⟩
    · rw [if_neg he]
      exact ⟨rfl, rfl⟩
  rw [if_neg hH] at h ⊢
  by_cases hroom : c ≠ 0 ∧ (s.e - s.r).toNat < INPUT_BUF_SIZE
  · rw [if_pos hroom] at h ⊢
    dsimp only at h ⊢
    generalize (if c = carriageReturn then newline else c) = c' at h ⊢
    split at h
    · cases h
    · rename_i hend
      rw [if_neg hend]
      exact ⟨rfl, rfl⟩
  · rw [if_neg hroom]
    exact ⟨rfl, rfl⟩

/-- What a read has returned: the count it was asked for, the bytes it stored, the
    value, which is -1 if the process was killed while it waited, and how many bytes
    had been taken out of the ring by then. -/
structure Reply (T : Type) where
  who : T
  want : Int
  got : List Byte
  value : Int
  pos : Nat

/-- A read in progress: the count asked for, how many bytes are still to come, and
    the bytes stored so far. -/
structure Read where
  target : Int
  n : Int
  got : List Byte

structure System (T : Type) where
  cons : Cons
  reader : T → Option Read
  taken : List (T × Byte)
  replies : List (Reply T)

/-- A console with nothing in it. The counters are 0 at boot; other values stand
    for a console that has been in use, and long enough for them to wrap. -/
def boot (T : Type) (buf : Fin INPUT_BUF_SIZE → Byte) (k : BitVec 32) : System T :=
  { cons := { buf := buf, r := k, w := k, e := k }, reader := fun _ => none, taken := []
    replies := [] }

inductive Event (T : Type) where
  | intr (c : Byte)
  | read (t : T) (n : Int)
  | step (t : T) (killed : Bool)

variable {T : Type} [DecidableEq T]

namespace System

def setReader (s : System T) (t : T) (x : Option Read) : System T :=
  { s with reader := Function.update s.reader t x }

/-- The call returns. -/
def reply (s : System T) (t : T) (x : Read) (value : Int) : System T :=
  { s.setReader t none with replies := s.replies ++ [⟨t, x.target, x.got, value, s.taken.length⟩] }

/-- `cons.r++`. -/
def take (s : System T) (t : T) (c : Byte) : System T :=
  { s with cons := { s.cons with r := s.cons.r + 1 }, taken := s.taken ++ [(t, c)] }

end System

/-- One iteration of the loop of `consoleread`. A `^D` that ends a read which has
    got something is put back. -/
def consoleread (s : System T) (t : T) (x : Read) (killed : Bool) : Outcome Panic (System T) :=
  if 0 < x.n then
    if s.cons.r = s.cons.w then
      if killed then .done (s.reply t x (-1)) else .wait
    else
      let c := s.cons.buf (Ring.slot INPUT_BUF_SIZE s.cons.r)
      if c = ctrlD then
        if x.n < x.target then .done (s.reply t x (x.target - x.n))
        else .done ((s.take t c).reply t x (x.target - x.n))
      else
        let y := { x with n := x.n - 1, got := x.got ++ [c] }
        if c = newline then .done ((s.take t c).reply t y (y.target - y.n))
        else .done ((s.take t c).setReader t (some y))
  else .done (s.reply t x (x.target - x.n))

def step (s : System T) : Event T → Outcome Panic (System T)
  | .intr c => .done { s with cons := (consoleintr s.cons c).1 }
  | .read t n =>
    match s.reader t with
    | none => .done (s.setReader t (some { target := n, n := n, got := [] }))
    | some _ => .wait
  | .step t killed =>
    match s.reader t with
    | none => .wait
    | some x => consoleread s t x killed

end Xv6.Console
