import Mathlib.Data.List.Basic
import Mathlib.Logic.Function.Basic
import Mathlib.Data.Nat.ModEq

/-!
# Ring Buffers with Free-Running Counters

An array of `N` slots used as a queue, addressed by two counters of `w` bits
that are only ever incremented.

Neither counter is reduced modulo `N`. They run on and wrap at `2 ^ w`, the
slot of a counter is its value modulo `N`, and the number of queued elements
is the difference of the counters modulo `2 ^ w`. This is sound for one
reason: `N` divides `2 ^ w`, so wrapping the counter and reducing it to a slot
commute, and a window of at most `N` consecutive counter values meets each
slot at most once. `slot_add_val` is the first half of that and
`slot_add_ne` the second.

## Main definitions

* `count`: The number of elements between two counters.
* `slot`: The array index of a counter.
* `contents`: The queued elements, oldest first.

## Theorems

* `contents_pop`: The element under the read counter is the head.
* `contents_dropLast`: Moving the write counter back drops the last element.
* `contents_append`: A queue is cut in two at any counter inside it.
-/

namespace Xv6.Ring

open Function

variable {α : Type} {w N : Nat} {r q : BitVec w}

/-- The number of elements between a read and a write counter. -/
def count (r q : BitVec w) : Nat := (q - r).toNat

/-- The array index of a counter. -/
def slot (N : Nat) [NeZero N] (c : BitVec w) : Fin N := Fin.ofNat N c.toNat

/-- The queued elements, oldest first. -/
def contents [NeZero N] (data : Fin N → α) (r q : BitVec w) : List α :=
  (List.range (count r q)).map (fun k => data (slot N (r + BitVec.ofNat w k)))

@[simp] theorem length_contents [NeZero N] (data : Fin N → α) (r q : BitVec w) :
    (contents data r q).length = count r q := by
  simp only [contents, List.length_map, List.length_range]

@[simp] theorem count_self (r : BitVec w) : count r r = 0 := by
  simp only [count, BitVec.sub_self, BitVec.toNat_zero]

theorem count_lt (r q : BitVec w) : count r q < 2 ^ w := (q - r).isLt

/-- The write counter is the read counter advanced by the count. -/
theorem add_count (r q : BitVec w) : r + BitVec.ofNat w (count r q) = q := by
  rw [count, BitVec.ofNat_toNat, BitVec.setWidth_eq, BitVec.add_comm, BitVec.sub_add_cancel]

/-- The counters are `n` apart exactly when the count is `n`. -/
theorem count_eq_iff (r q : BitVec w) {n : Nat} (hn : n < 2 ^ w) :
    count r q = n ↔ q = r + BitVec.ofNat w n := by
  constructor
  · intro h
    rw [← h, add_count]
  · intro h
    rw [h, count, BitVec.add_comm, BitVec.add_sub_cancel, BitVec.toNat_ofNat,
      Nat.mod_eq_of_lt hn]

theorem count_eq_zero_iff (r q : BitVec w) : count r q = 0 ↔ r = q := by
  rw [count_eq_iff r q (Nat.two_pow_pos w), BitVec.add_zero]
  exact eq_comm

theorem count_succ_right (h : count r q + 1 < 2 ^ w) :
    count r (q + 1) = count r q + 1 := by
  rw [count_eq_iff r (q + 1) h]
  have hq := add_count r q
  rw [← BitVec.ofNat_add_ofNat, ← BitVec.add_assoc, hq, BitVec.ofNat_eq_ofNat]

theorem count_succ_left (h : r ≠ q) : count r q = count (r + 1) q + 1 := by
  have hpos : count r q ≠ 0 := fun hc => h ((count_eq_zero_iff r q).mp hc)
  have hlt := count_lt r q
  have hstep : count (r + 1) q = count r q - 1 := by
    rw [count_eq_iff (r + 1) q (by omega)]
    have hone : (1 : BitVec w) + BitVec.ofNat w (count r q - 1) = BitVec.ofNat w (count r q) := by
      change BitVec.ofNat w 1 + _ = _
      rw [BitVec.ofNat_add_ofNat]
      congr 1
      omega
    rw [BitVec.add_assoc, hone, add_count]
  omega

theorem count_add (r m q : BitVec w) (h : count r m + count m q < 2 ^ w) :
    count r q = count r m + count m q := by
  rw [count_eq_iff r q h, ← BitVec.ofNat_add_ofNat, ← BitVec.add_assoc, add_count, add_count]

theorem count_pred_right (h : r ≠ q) : count r q = count r (q - 1) + 1 := by
  have hpos : count r q ≠ 0 := fun hc => h ((count_eq_zero_iff r q).mp hc)
  have hlt := count_lt r q
  have hstep : count r (q - 1) = count r q - 1 := by
    rw [count_eq_iff r (q - 1) (by omega)]
    have hone : BitVec.ofNat w (count r q - 1) + 1 = BitVec.ofNat w (count r q) := by
      change _ + BitVec.ofNat w 1 = _
      rw [BitVec.ofNat_add_ofNat]
      congr 1
      omega
    have hq := add_count r q
    rw [← hone, ← BitVec.add_assoc] at hq
    calc q - 1 = r + BitVec.ofNat w (count r q - 1) + 1 - 1 := by rw [hq]
      _ = r + BitVec.ofNat w (count r q - 1) := BitVec.add_sub_cancel _ _
  omega

variable [NeZero N]

/-- Wrapping at `2 ^ w` does not disturb the slot: the array size divides it. -/
theorem slot_add_val (hN : N ∣ 2 ^ w) (r : BitVec w) (k : Nat) :
    (slot N (r + BitVec.ofNat w k)).val = (r.toNat + k) % N := by
  simp only [slot, Fin.val_ofNat, BitVec.toNat_add, BitVec.toNat_ofNat, Nat.add_mod_mod]
  exact Nat.mod_mod_of_dvd _ hN

theorem slot_add_ne (hN : N ∣ 2 ^ w) (r : BitVec w) (j k : Nat) (hjk : j < k) (hk : k < j + N) :
    slot N (r + BitVec.ofNat w j) ≠ slot N (r + BitVec.ofNat w k) := by
  intro h
  have hval := congrArg Fin.val h
  rw [slot_add_val hN, slot_add_val hN] at hval
  -- Equal residues make the array size divide a difference below it.
  have hdvd : N ∣ (r.toNat + k) - (r.toNat + j) := (Nat.modEq_iff_dvd' (by omega)).mp hval
  have := Nat.le_of_dvd (by omega) hdvd
  omega

/-- The next slot can be written without changing the contents. -/
theorem contents_update (hN : N ∣ 2 ^ w) (data : Fin N → α) (r q : BitVec w) (x : α)
    (hroom : count r q < N) :
    contents (update data (slot N q) x) r q = contents data r q := by
  simp only [contents]
  refine List.map_congr_left (fun k hk => ?_)
  have hk' : k < count r q := List.mem_range.mp hk
  have hne := slot_add_ne hN r k (count r q) hk' (by omega)
  rw [add_count] at hne
  exact update_of_ne hne x data

theorem contents_succ (data : Fin N → α) (r q : BitVec w) (hlt : count r q + 1 < 2 ^ w) :
    contents data r (q + 1) = contents data r q ++ [data (slot N q)] := by
  simp only [contents]
  rw [count_succ_right hlt, List.range_succ, List.map_append, List.map_cons, List.map_nil,
    add_count]

/-- Writing the slot under the write counter and advancing it appends. -/
theorem contents_push (hN : N ∣ 2 ^ w) (data : Fin N → α) (r q : BitVec w) (x : α)
    (hroom : count r q < N) (hlt : count r q + 1 < 2 ^ w) :
    contents (update data (slot N q) x) r (q + 1) = contents data r q ++ [x] := by
  rw [contents_succ _ r q hlt, contents_update hN data r q x hroom, update_self]

/-- The element under the read counter is the head, and advancing the counter
    drops it. -/
theorem contents_pop (data : Fin N → α) (h : r ≠ q) :
    contents data r q = data (slot N r) :: contents data (r + 1) q := by
  simp only [contents]
  rw [count_succ_left h, List.range_succ_eq_map, List.map_cons, List.map_map]
  congr 1
  · rw [BitVec.add_zero]
  · refine List.map_congr_left (fun k _ => ?_)
    simp only [comp_apply, Nat.succ_eq_add_one]
    rw [← BitVec.ofNat_add_ofNat, BitVec.add_comm (BitVec.ofNat w k), ← BitVec.add_assoc]
    simp only [BitVec.ofNat_eq_ofNat]

/-- A queue is cut in two at any counter inside it. -/
theorem contents_append (data : Fin N → α) (r m q : BitVec w)
    (h : count r m + count m q < 2 ^ w) :
    contents data r q = contents data r m ++ contents data m q := by
  simp only [contents]
  rw [count_add r m q h, List.range_add, List.map_append, List.map_map]
  congr 1
  refine List.map_congr_left (fun k _ => ?_)
  rw [comp_apply, ← BitVec.ofNat_add_ofNat, ← BitVec.add_assoc, add_count]

/-- Moving the write counter back drops the last element. -/
theorem contents_dropLast (data : Fin N → α) (h : r ≠ q) :
    contents data r q = contents data r (q - 1) ++ [data (slot N (q - 1))] := by
  have hc := count_pred_right h
  have hlast := add_count r (q - 1)
  simp only [contents]
  rw [hc, List.range_succ, List.map_append, List.map_cons, List.map_nil, hlast]

@[simp] theorem contents_self (data : Fin N → α) (r : BitVec w) : contents data r r = [] := by
  simp only [contents, count_self, List.range_zero, List.map_nil]

end Xv6.Ring
