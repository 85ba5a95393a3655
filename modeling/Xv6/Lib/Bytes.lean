import Mathlib.Data.List.Basic
import Mathlib.Data.List.GetD
import Mathlib.Algebra.Order.Group.Nat
import Mathlib.Tactic.Ring

/-!
# Byte Buffers

Fixed-size buffers of bytes, ranges of them, and little-endian numbers stored
in them.

A buffer of `n` bytes is a function on `Fin n`. Offsets are plain numbers, as
they are in the programs that use them, and an offset past the end reads as
zero. `slice` copies a range out and `splice` copies one in; a memory copy, a
store through a pointer and a field assignment are all a `splice`. The two
facts that matter about them are that a range reads back what was copied into
it, and that a disjoint range does not notice.

## Main definitions

* `Buffer`: A buffer of bytes.
* `slice`, `splice`: Copying a range out of a buffer and into it.
* `leBytes`, `leVal`: Little-endian coding.
* `readLe`, `writeLe`: A number stored in a buffer.
* `writeLes`: An array of numbers stored in a buffer.

## Theorems

* `readLe_writeLe`: A number reads back.
* `readLe_writeLe_of_disjoint`: A number elsewhere does not change.
* `readLe_writeLes`: An element of an array reads back.
-/

namespace Xv6

open List

/-- A buffer of `n` bytes. -/
abbrev Buffer (n : Nat) := Fin n → BitVec 8

namespace Bytes

variable {n : Nat}

/-- The byte at an offset, or zero past the end. -/
def get (b : Buffer n) (i : Nat) : BitVec 8 := if h : i < n then b ⟨i, h⟩ else 0

/-- The `k` bytes from offset `o`. -/
def slice (b : Buffer n) (o k : Nat) : List (BitVec 8) :=
  (List.range k).map (fun i => get b (o + i))

/-- Copy bytes to offset `o`. -/
def splice (b : Buffer n) (o : Nat) (bs : List (BitVec 8)) : Buffer n :=
  fun i => if o ≤ i.val ∧ i.val < o + bs.length then bs.getD (i.val - o) 0 else b i

@[simp] theorem length_slice (b : Buffer n) (o k : Nat) : (slice b o k).length = k := by
  simp only [slice, length_map, length_range]

/-- A byte after a copy: the copied one inside the range, the old one outside. -/
theorem get_splice (b : Buffer n) (o : Nat) (bs : List (BitVec 8)) {i : Nat} (hi : i < n) :
    get (splice b o bs) i =
      if o ≤ i ∧ i < o + bs.length then bs.getD (i - o) 0 else get b i := by
  simp only [get, hi, dif_pos, splice]

theorem get_splice_inside (b : Buffer n) (o : Nat) (bs : List (BitVec 8)) (i : Nat)
    (hi : i < bs.length) (hfit : o + bs.length ≤ n) :
    get (splice b o bs) (o + i) = bs.getD i 0 := by
  rw [get_splice b o bs (by omega), if_pos (by omega), Nat.add_sub_cancel_left]

theorem get_splice_outside (b : Buffer n) {o : Nat} {bs : List (BitVec 8)} {i : Nat}
    (hi : i < o ∨ o + bs.length ≤ i) : get (splice b o bs) i = get b i := by
  by_cases hn : i < n
  · rw [get_splice b o bs hn, if_neg (by omega)]
  · simp only [get, hn, dif_neg, not_false_eq_true]

/-- A part of a range copied in reads back as that part of the bytes. -/
theorem slice_splice_within (b : Buffer n) (o : Nat) (bs : List (BitVec 8)) (j k : Nat)
    (hjk : j + k ≤ bs.length) (hfit : o + bs.length ≤ n) :
    slice (splice b o bs) (o + j) k = (bs.drop j).take k := by
  refine ext_getElem ?_ (fun i hi hi' => ?_)
  · rw [length_slice, length_take, length_drop]
    omega
  · rw [length_slice] at hi
    simp only [slice, getElem_map, getElem_range, getElem_take,
      getElem_drop]
    rw [Nat.add_assoc, get_splice_inside b o bs (j + i) (by omega) hfit,
      getD_eq_getElem _ _ (by omega)]

theorem slice_splice (b : Buffer n) (o : Nat) (bs : List (BitVec 8))
    (hfit : o + bs.length ≤ n) : slice (splice b o bs) o bs.length = bs := by
  have h := slice_splice_within b o bs 0 bs.length (by omega) hfit
  simpa only [Nat.add_zero, drop_zero, take_length] using h

theorem slice_splice_of_disjoint (b : Buffer n) {o : Nat} {bs : List (BitVec 8)} {o' k : Nat}
    (h : o' + k ≤ o ∨ o + bs.length ≤ o') : slice (splice b o bs) o' k = slice b o' k := by
  refine map_congr_left (fun i hi => ?_)
  have hi' : i < k := mem_range.mp hi
  exact get_splice_outside b (by omega)

/-- The `k` bytes of a number, least significant first. -/
def leBytes : Nat → Nat → List (BitVec 8)
  | 0, _ => []
  | k + 1, x => BitVec.ofNat 8 x :: leBytes k (x / 256)

/-- The number stored in bytes, least significant first. -/
def leVal : List (BitVec 8) → Nat
  | [] => 0
  | b :: bs => b.toNat + 256 * leVal bs

@[simp] theorem length_leBytes (k x : Nat) : (leBytes k x).length = k := by
  induction k generalizing x with
  | zero => rfl
  | succ k ih => simp only [leBytes, length_cons, ih]

theorem leVal_leBytes (k x : Nat) : leVal (leBytes k x) = x % 256 ^ k := by
  induction k generalizing x with
  | zero => simp only [leBytes, leVal, pow_zero, Nat.mod_one]
  | succ k ih =>
    simp only [leBytes, leVal, ih, BitVec.toNat_ofNat]
    rw [show (256 : Nat) ^ (k + 1) = 256 * 256 ^ k by ring, Nat.mod_mul]

/-- The number in the `k` bytes at offset `o`. -/
def readLe (b : Buffer n) (o k : Nat) : Nat := leVal (slice b o k)

/-- Store a number in the `k` bytes at offset `o`. -/
def writeLe (b : Buffer n) (o k x : Nat) : Buffer n := splice b o (leBytes k x)

theorem readLe_writeLe (b : Buffer n) {o k : Nat} (x : Nat) (hfit : o + k ≤ n) :
    readLe (writeLe b o k x) o k = x % 256 ^ k := by
  have h := slice_splice b o (leBytes k x) (by rw [length_leBytes]; exact hfit)
  rw [length_leBytes] at h
  rw [readLe, writeLe, h, leVal_leBytes]

theorem readLe_splice_of_disjoint (b : Buffer n) {o : Nat} {bs : List (BitVec 8)} {o' k : Nat}
    (h : o' + k ≤ o ∨ o + bs.length ≤ o') : readLe (splice b o bs) o' k = readLe b o' k := by
  rw [readLe, slice_splice_of_disjoint b h, readLe]

theorem readLe_writeLe_of_disjoint (b : Buffer n) {o k o' k' : Nat} (x : Nat)
    (h : o' + k' ≤ o ∨ o + k ≤ o') : readLe (writeLe b o k x) o' k' = readLe b o' k' := by
  refine readLe_splice_of_disjoint b ?_
  rw [length_leBytes]
  exact h

/-- The bytes of an array of numbers of `k` bytes each. -/
def lesBytes (k : Nat) (xs : List Nat) : List (BitVec 8) := xs.flatMap (leBytes k)

/-- Store an array of numbers at offset `o`. -/
def writeLes (b : Buffer n) (o k : Nat) (xs : List Nat) : Buffer n := splice b o (lesBytes k xs)

@[simp] theorem length_lesBytes (k : Nat) (xs : List Nat) :
    (lesBytes k xs).length = k * xs.length := by
  induction xs with
  | nil => rfl
  | cons x xs ih =>
    simp only [lesBytes] at ih
    simp only [lesBytes, flatMap_cons, length_append, length_leBytes, ih,
      length_cons]
    ring

/-- Element `i` of an array takes the `k` bytes from `k * i`. -/
theorem take_drop_lesBytes (k : Nat) (xs : List Nat) (i : Nat) (hi : i < xs.length) :
    ((lesBytes k xs).drop (k * i)).take k = leBytes k xs[i] := by
  induction xs generalizing i with
  | nil => simp only [length_nil, Nat.not_lt_zero] at hi
  | cons x xs ih =>
    simp only [lesBytes, flatMap_cons] at ih ⊢
    cases i with
    | zero =>
      simp only [Nat.mul_zero, drop_zero, getElem_cons_zero]
      rw [take_append_of_le_length (by rw [length_leBytes]), take_of_length_le
        (by rw [length_leBytes])]
    | succ j =>
      simp only [getElem_cons_succ]
      rw [Nat.mul_succ, Nat.add_comm (k * j) k, drop_append, length_leBytes,
        drop_of_length_le (by rw [length_leBytes]; omega), nil_append,
        Nat.add_sub_cancel_left]
      exact ih j (by simpa only [length_cons, Nat.add_lt_add_iff_right] using hi)

theorem readLe_writeLes (b : Buffer n) (o k : Nat) (xs : List Nat) (i : Nat)
    (hi : i < xs.length) (hfit : o + k * xs.length ≤ n) :
    readLe (writeLes b o k xs) (o + k * i) k = xs[i] % 256 ^ k := by
  have hle : k * i + k ≤ k * xs.length := by
    rw [← Nat.mul_succ]
    exact Nat.mul_le_mul_left k hi
  rw [readLe, writeLes, slice_splice_within b o _ (k * i) k
    (by rw [length_lesBytes]; exact hle) (by rw [length_lesBytes]; exact hfit),
    take_drop_lesBytes k xs i hi, leVal_leBytes]

theorem readLe_writeLes_of_disjoint (b : Buffer n) {o k : Nat} {xs : List Nat} {o' k' : Nat}
    (h : o' + k' ≤ o ∨ o + k * xs.length ≤ o') :
    readLe (writeLes b o k xs) o' k' = readLe b o' k' := by
  refine readLe_splice_of_disjoint b ?_
  rw [length_lesBytes]
  exact h

end Bytes

end Xv6
