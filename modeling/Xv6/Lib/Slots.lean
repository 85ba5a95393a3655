import Mathlib.Data.Finset.Card
import Mathlib.Data.Finset.Range
import Mathlib.Logic.Function.Basic

/-!
# Tables with a Lowest Free Slot

A table of slots that are empty or hold something, where a new entry goes to the lowest
empty slot, as descriptors do.

## Main definitions

* `lowest`: The lowest empty slot below a limit.
* `insert`: A new entry.
* `used`, `opened`: The used slots below the limit, and how many they are.

## Theorems

* `insert_isSome_iff`: There is a slot as long as not all are used.
* `used_insert`, `used_remove`: How the used slots change.
-/

namespace Xv6

abbrev Slots (F : Type) := Nat → Option F

namespace Slots

open Function (update)

variable {F : Type}

def lowest (n : Nat) (t : Slots F) : Option Nat := (List.range n).find? (fun i => (t i).isNone)

def insert (n : Nat) (t : Slots F) (f : F) : Option (Nat × Slots F) :=
  (lowest n t).map (fun i => (i, update t i (some f)))

def remove (t : Slots F) (i : Nat) : Slots F := update t i none

def used (n : Nat) (t : Slots F) : Finset Nat :=
  (Finset.range n).filter (fun i => (t i).isSome = true)

def opened (n : Nat) (t : Slots F) : Nat := (used n t).card

theorem mem_used {n : Nat} {t : Slots F} {i : Nat} :
    i ∈ used n t ↔ i < n ∧ (t i).isSome = true := by
  rw [used, Finset.mem_filter, Finset.mem_range]

theorem insert_isSome_iff (n : Nat) (t : Slots F) (f : F) :
    (insert n t f).isSome = true ↔ opened n t < n := by
  have hcard := Finset.card_filter_add_card_filter_not (s := Finset.range n)
    (fun i => (t i).isSome = true)
  rw [Finset.card_range] at hcard
  rw [insert, Option.isSome_map, lowest, List.find?_isSome]
  constructor
  · rintro ⟨i, hi, hnone⟩
    have hpos : 0 < ((Finset.range n).filter (fun i => ¬ (t i).isSome = true)).card := by
      refine Finset.card_pos.mpr ⟨i, Finset.mem_filter.mpr ⟨?_, ?_⟩⟩
      · exact Finset.mem_range.mpr (List.mem_range.mp hi)
      · rw [Option.isNone_iff_eq_none.mp hnone]
        exact Bool.false_ne_true
    rw [opened, used]
    omega
  · intro h
    rw [opened, used] at h
    have hpos : 0 < ((Finset.range n).filter (fun i => ¬ (t i).isSome = true)).card := by omega
    rcases Finset.card_pos.mp hpos with ⟨i, hi⟩
    rcases Finset.mem_filter.mp hi with ⟨hlt, hnone⟩
    refine ⟨i, List.mem_range.mpr (Finset.mem_range.mp hlt), ?_⟩
    rw [Option.isNone_iff_eq_none, ← Option.not_isSome_iff_eq_none]
    exact hnone

theorem insert_eq_some {n : Nat} {t t' : Slots F} {f : F} {i : Nat}
    (h : insert n t f = some (i, t')) : i < n ∧ t i = none ∧ t' = update t i (some f) := by
  rcases Option.map_eq_some_iff.mp h with ⟨j, hj, heq⟩
  cases heq
  have hnone := List.find?_some hj
  exact ⟨List.mem_range.mp (List.mem_of_find?_eq_some hj),
    Option.isNone_iff_eq_none.mp hnone, rfl⟩

theorem used_insert {n : Nat} {t t' : Slots F} {f : F} {i : Nat}
    (h : insert n t f = some (i, t')) :
    i ∉ used n t ∧ used n t' = Insert.insert i (used n t) := by
  rcases insert_eq_some h with ⟨hi, hnone, rfl⟩
  constructor
  · rw [mem_used, hnone]
    exact fun h => Bool.false_ne_true h.2
  · ext j
    rw [Finset.mem_insert, mem_used, mem_used]
    by_cases hj : j = i
    · rw [hj, Function.update_self]
      exact iff_of_true ⟨hi, rfl⟩ (Or.inl rfl)
    · rw [Function.update_of_ne hj]
      exact (or_iff_right hj).symm

theorem used_remove (n : Nat) (t : Slots F) (i : Nat) :
    used n (remove t i) = (used n t).erase i := by
  ext j
  rw [Finset.mem_erase, mem_used, mem_used, remove]
  by_cases hj : j = i
  · rw [hj, Function.update_self]
    exact iff_of_false (fun h => Bool.false_ne_true h.2) (fun h => h.1 rfl)
  · rw [Function.update_of_ne hj]
    exact (and_iff_right hj).symm

end Slots

end Xv6
