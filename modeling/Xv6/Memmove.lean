import Xv6.Param
import Mathlib.Logic.Function.Basic

/-!
# memmove

`memmove` of `kernel/string.c` and of `user/ulib.c`.

Both have a loop that copies upwards and one that copies downwards, and choose between them
by different tests. The kernel copies downwards only if the destination begins inside the
source, the user version whenever it does not begin below the source.

A loop is right as long as it overwrites no byte that it has yet to read. Upwards this is a
condition on a source byte and the destination bytes below its own, downwards on those above
(`copyUp_moved`, `copyDown_moved`). Ranges that do not wrap meet the condition of the loop
that is chosen.

## Main definitions

* `copyUp`, `copyDown`: The loops.
* `kernelMemmove`, `userMemmove`: The two functions.
* `Moved`: What a copy of bytes should do to the memory.

## Theorems

* `Moved.unique`: There is only one result.
* `memmove_overlap_safe`: Both functions move the bytes.
-/

namespace Xv6

open Function (update update_of_ne update_self)

open BitVec

namespace Memmove

abbrev Mem := BitVec 64 → Byte

/-- `while(n-- > 0) *d++ = *s++;` -/
def copyUp : Nat → BitVec 64 → BitVec 64 → Mem → Mem
  | 0, _, _, m => m
  | n + 1, d, s, m => copyUp n (d + 1) (s + 1) (update m d (m s))

/-- `while(n-- > 0) *--d = *--s;` -/
def copyDown : Nat → BitVec 64 → BitVec 64 → Mem → Mem
  | 0, _, _, m => m
  | n + 1, d, s, m => copyDown n (d - 1) (s - 1) (update m (d - 1) (m (s - 1)))

/-- `memmove` of the kernel. The number of bytes is unsigned. -/
def kernelMemmove (m : Mem) (dst src : BitVec 64) (n : BitVec 32) : Mem × BitVec 64 :=
  if n = 0 then (m, dst)
  else if src < dst ∧ src + n.setWidth 64 > dst then
    (copyDown n.toNat (dst + n.setWidth 64) (src + n.setWidth 64) m, dst)
  else (copyUp n.toNat dst src m, dst)

/-- `memmove` of the user library. The number of bytes is signed, and a negative one ends
    the loops at once. -/
def userMemmove (m : Mem) (vdst vsrc : BitVec 64) (n : BitVec 32) : Mem × BitVec 64 :=
  if vsrc > vdst then (copyUp n.toInt.toNat vdst vsrc m, vdst)
  else (copyDown n.toInt.toNat (vdst + n.signExtend 64) (vsrc + n.signExtend 64) m, vdst)

/-- The address of byte `i` of a range. -/
def addr (a : BitVec 64) (i : Nat) : BitVec 64 := a + BitVec.ofNat 64 i

/-- The bytes have been moved, and nothing else has changed. -/
structure Moved (m m' : Mem) (dst src : BitVec 64) (n : Nat) : Prop where
  moved : ∀ i < n, m' (addr dst i) = m (addr src i)
  kept : ∀ a, (∀ i < n, a ≠ addr dst i) → m' a = m a

variable {m m' m'' : Mem} {dst src : BitVec 64} {n : Nat}

theorem Moved.unique (h : Moved m m' dst src n) (h' : Moved m m'' dst src n) : m' = m'' := by
  funext a
  by_cases ha : ∃ i < n, a = addr dst i
  · rcases ha with ⟨i, hi, rfl⟩
    rw [h.moved i hi, h'.moved i hi]
  · have hout : ∀ i < n, a ≠ addr dst i := fun i hi he => ha ⟨i, hi, he⟩
    rw [h.kept a hout, h'.kept a hout]

theorem addr_zero (a : BitVec 64) : addr a 0 = a := BitVec.add_zero a

theorem addr_succ (a : BitVec 64) (i : Nat) : addr (a + 1) i = addr a (i + 1) := by
  unfold addr
  rw [BitVec.add_assoc, BitVec.ofNat_add, BitVec.add_comm 1]
  rfl

theorem addr_succ_sub (a : BitVec 64) (i : Nat) : addr a (i + 1) - 1 = addr a i := by
  unfold addr
  rw [BitVec.ofNat_add, ← BitVec.add_assoc]
  exact add_sub_cancel _ _

theorem addr_inj {a : BitVec 64} {i j : Nat} (hi : i < 2 ^ 64) (hj : j < 2 ^ 64)
    (h : addr a i = addr a j) : i = j := by
  have hij := congrArg BitVec.toNat ((BitVec.add_right_inj a).mp h)
  rwa [toNat_ofNat, toNat_ofNat, Nat.mod_eq_of_lt hi, Nat.mod_eq_of_lt hj] at hij

/-- Copying upwards, if no source byte is among the destination bytes below its own. -/
theorem copyUp_moved (hn : n ≤ 2 ^ 64) (h : ∀ i j, j < i → i < n → addr src i ≠ addr dst j) :
    Moved m (copyUp n dst src m) dst src n := by
  induction n generalizing dst src m with
  | zero => exact ⟨nofun, fun _ _ => rfl⟩
  | succ n ih =>
    -- The first byte is moved, and the loop goes on one byte further up.
    have hrest : Moved (update m dst (m src)) (copyUp (n + 1) dst src m) (dst + 1) (src + 1) n := by
      refine ih (by omega) (fun i j hj hi => ?_)
      rw [addr_succ, addr_succ]
      exact h (i + 1) (j + 1) (by omega) (by omega)
    refine ⟨fun i hi => ?_, fun a ha => ?_⟩
    · cases i with
      | zero =>
        rw [hrest.kept, addr_zero, addr_zero, update_self]
        intro j hj he
        rw [addr_succ] at he
        exact absurd (addr_inj (by omega) (by omega) he) (by omega)
      | succ i =>
        have hne := h (i + 1) 0 (by omega) hi
        rw [addr_zero] at hne
        rw [← addr_succ, hrest.moved i (by omega), addr_succ, update_of_ne hne]
    · have hdst := ha 0 (by omega)
      rw [addr_zero] at hdst
      rw [hrest.kept a (fun i hi => ?_), update_of_ne hdst]
      rw [addr_succ]
      exact ha (i + 1) (by omega)

/-- Copying downwards, if no source byte is among the destination bytes above its own. -/
theorem copyDown_moved (hn : n ≤ 2 ^ 64) (h : ∀ i j, i < j → j < n → addr src i ≠ addr dst j) :
    Moved m (copyDown n (addr dst n) (addr src n) m) dst src n := by
  induction n generalizing m with
  | zero => exact ⟨nofun, fun _ _ => rfl⟩
  | succ n ih =>
    -- The last byte is moved, and the others are left to the rest of the loop.
    have hrest := ih (m := update m (addr dst n) (m (addr src n))) (by omega)
      (fun i j hi hj => h i j hi (by omega))
    rw [copyDown, addr_succ_sub, addr_succ_sub]
    refine ⟨fun i hi => ?_, fun a ha => ?_⟩
    · by_cases hin : i = n
      · rw [hin, hrest.kept _ (fun j hj he => ?_), update_self]
        exact absurd (addr_inj (by omega) (by omega) he) (by omega)
      · rw [hrest.moved i (by omega), update_of_ne (h i n (by omega) (by omega))]
    · rw [hrest.kept a (fun i hi => ha i (by omega)), update_of_ne (ha n (by omega))]

theorem toNat_addr {a : BitVec 64} {i : Nat} (h : a.toNat + i < 2 ^ 64) :
    (addr a i).toNat = a.toNat + i := by
  have ha := a.isLt
  rw [addr, toNat_add, toNat_ofNat, Nat.mod_eq_of_lt (a := i) (by omega),
    Nat.mod_eq_of_lt h]

theorem addr_ne {i j : Nat} (hi : src.toNat + i < 2 ^ 64) (hj : dst.toNat + j < 2 ^ 64)
    (h : src.toNat + i ≠ dst.toNat + j) : addr src i ≠ addr dst j := by
  intro he
  have hnat := congrArg BitVec.toNat he
  rw [toNat_addr hi, toNat_addr hj] at hnat
  exact h hnat

theorem kernelMemmove_moved {n : BitVec 32} (hdst : dst.toNat + n.toNat ≤ 2 ^ 64)
    (hsrc : src.toNat + n.toNat ≤ 2 ^ 64) :
    Moved m (kernelMemmove m dst src n).1 dst src n.toNat := by
  have hn := n.isLt
  unfold kernelMemmove
  rw [← ofNat_toNat 64 n]
  by_cases h0 : n = 0
  · rw [if_pos h0, h0]
    exact ⟨nofun, fun _ _ => rfl⟩
  rw [if_neg h0]
  by_cases hlt : src < dst
  · -- The source ends below the end of the destination, so that its end does not wrap.
    have hnat : src.toNat < dst.toNat := hlt
    have hend : (addr src n.toNat > dst) ↔ dst.toNat < src.toNat + n.toNat := by
      rw [← toNat_addr (a := src) (i := n.toNat) (by omega)]
      exact Iff.rfl
    by_cases hin : addr src n.toNat > dst
    · rw [if_pos ⟨hlt, hin⟩]
      exact copyDown_moved (by omega) (fun i j hi hj => addr_ne (by omega) (by omega) (by omega))
    · rw [if_neg (fun hc => hin hc.2)]
      rw [hend] at hin
      exact copyUp_moved (by omega) (fun i j hj hi => addr_ne (by omega) (by omega) (by omega))
  · rw [if_neg (fun hc => hlt hc.1)]
    have hnat : ¬src.toNat < dst.toNat := hlt
    exact copyUp_moved (by omega) (fun i j hj hi => addr_ne (by omega) (by omega) (by omega))

theorem userMemmove_moved {n : BitVec 32} (hdst : dst.toNat + n.toNat ≤ 2 ^ 64)
    (hsrc : src.toNat + n.toNat ≤ 2 ^ 64) (hn : 0 ≤ n.toInt) :
    Moved m (userMemmove m dst src n).1 dst src n.toNat := by
  have hlt := n.isLt
  have hmsb : n.msb = false := (msb_eq_false_iff_two_mul_lt).mpr (by
    have := toInt_eq_toNat_cond n
    split at this <;> omega)
  have hcount : n.toInt.toNat = n.toNat := by
    rw [toInt_eq_toNat_of_msb hmsb]
    rfl
  have hwide : n.signExtend 64 = BitVec.ofNat 64 n.toNat :=
    (signExtend_eq_setWidth_of_msb_false hmsb).trans (ofNat_toNat 64 n).symm
  unfold userMemmove
  rw [hcount, hwide]
  by_cases hgt : src > dst
  · rw [if_pos hgt]
    have hnat : dst.toNat < src.toNat := hgt
    exact copyUp_moved (by omega) (fun i j hj hi => addr_ne (by omega) (by omega) (by omega))
  · rw [if_neg hgt]
    have hnat : ¬dst.toNat < src.toNat := hgt
    exact copyDown_moved (by omega) (fun i j hi hj => addr_ne (by omega) (by omega) (by omega))

/-- For ranges that do not wrap, however they overlap, both versions move the bytes and change
    nothing else; they return the destination and leave the same memory. -/
theorem memmove_overlap_safe (m : Mem) (dst src : BitVec 64) (n : BitVec 32)
    (hdst : dst.toNat + n.toNat ≤ 2 ^ 64) (hsrc : src.toNat + n.toNat ≤ 2 ^ 64) :
    Moved m (kernelMemmove m dst src n).1 dst src n.toNat ∧
      (kernelMemmove m dst src n).2 = dst ∧
      (0 ≤ n.toInt → Moved m (userMemmove m dst src n).1 dst src n.toNat ∧
        userMemmove m dst src n = kernelMemmove m dst src n) := by
  have hk := kernelMemmove_moved (m := m) hdst hsrc
  have hret : (kernelMemmove m dst src n).2 = dst := by
    unfold kernelMemmove
    split
    · rfl
    · split <;> rfl
  refine ⟨hk, hret, fun hn => ?_⟩
  have hu := userMemmove_moved (m := m) hdst hsrc hn
  refine ⟨hu, Prod.ext (hu.unique hk) ?_⟩
  rw [hret]
  unfold userMemmove
  split <;> rfl

/-- Five bytes are moved up by two. -/
theorem memmove_overlap_safe_upwards :
    (5 : BitVec 32).toInt = 5 ∧
      ∀ i < 5, (userMemmove (fun a => a.setWidth 8) 2 0 5).1 (addr 2 i) = BitVec.ofNat 8 i := by
  refine ⟨by decide, fun i hi => ?_⟩
  have h := memmove_overlap_safe (fun a => a.setWidth 8) 2 0 5 (by decide) (by decide)
  rw [(h.2.2 (by decide)).1.moved i hi]
  change (0#64 + BitVec.ofNat 64 i).setWidth 8 = _
  rw [BitVec.zero_add]
  exact setWidth_ofNat_of_le (by decide) i

end Memmove

end Xv6
