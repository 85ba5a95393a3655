import Mathlib.Logic.Function.Basic
import Mathlib.Data.Option.Basic

/-!
# Radix Trees in Memory

Trees of tables in which every table has the same number `N` of entries, and an
entry may lead to a table one level deeper.

A key is looked up by its digits in base `N`, the highest one first. The table at
depth `d` that is reached with the first digits of a key is named by the number
`k` these digits form, and so is the entry at depth `d` that is reached with one
digit more. No two names stand for one table: this is what a change to one entry
needs to leave the rest of the tree alone.

## Main definitions

* `Radix.tab`, `Radix.ent`: Tables and entries by depth and digits.
* `Radix.Distinct`: No table is in two places.
* `Radix.set`: Memory with one entry changed.

## Theorems

* `Radix.tab_congr`, `Radix.ent_congr`: Only tables matter.
* `Radix.tab_set`, `Radix.ent_set`: An entry of the deepest tables changes.
* `Radix.tab_graft`, `Radix.ent_graft`: An entry comes to lead to a new table.
-/

namespace Xv6.Radix

open Function

variable {P E : Type} (N : Nat) (next : E → Option P) (mem : P → Nat → E) (r : P)

/-- The table at a depth that some digits lead to. -/
def tab : Nat → Nat → Option P
  | 0, k => if k = 0 then some r else none
  | d + 1, k => (tab d (k / N)).bind (fun p => next (mem p (k % N)))

/-- The entry at a depth that some digits lead to. -/
def ent (d k : Nat) : Option E := (tab N next mem r d (k / N)).map (fun p => mem p (k % N))

/-- Down to depth `D` no table is in two places. -/
def Distinct (D : Nat) : Prop := ∀ d d' k k' p, d ≤ D → d' ≤ D →
  tab N next mem r d k = some p → tab N next mem r d' k' = some p → d = d' ∧ k = k'

section

variable {N} {next} {mem} {r} {D d k : Nat} {p c : P} {x : E}

theorem tab_none (h : tab N next mem r d (k / N) = none) : tab N next mem r (d + 1) k = none := by
  rw [tab, h]
  rfl

/-- Tables are not affected by what is not in one of them. -/
theorem tab_congr {mem' : P → Nat → E}
    (h : ∀ d k p, d ≤ D → tab N next mem r d k = some p → mem' p = mem p) (hd : d ≤ D) (m : Nat) :
    tab N next mem' r d m = tab N next mem r d m := by
  induction d generalizing m with
  | zero => rfl
  | succ d ih =>
    rw [tab, tab, ih (by omega)]
    cases hq : tab N next mem r d (m / N) with
    | none => rfl
    | some q => rw [Option.bind_some, Option.bind_some, h d _ q (by omega) hq]

theorem ent_congr {mem' : P → Nat → E}
    (h : ∀ d k p, d ≤ D → tab N next mem r d k = some p → mem' p = mem p) (m : Nat) :
    ent N next mem' r D m = ent N next mem r D m := by
  rw [ent, ent, tab_congr h (Nat.le_refl D)]
  cases hq : tab N next mem r D (m / N) with
  | none => rfl
  | some q => rw [Option.map_some, Option.map_some, h D _ q (Nat.le_refl D) hq]

variable [DecidableEq P]

/-- Memory with entry `i` of table `p` changed. -/
def set (mem : P → Nat → E) (p : P) (i : Nat) (x : E) : P → Nat → E :=
  update mem p (update (mem p) i x)

theorem set_self (i : Nat) : set mem p i x p i = x := by
  rw [set, update_self, update_self]

theorem set_of_ne {q : P} {i j : Nat} (h : q ≠ p ∨ j ≠ i) : set mem p i x q j = mem q j := by
  unfold set
  by_cases hq : q = p
  · rw [hq, update_self, update_of_ne (h.resolve_left (not_not_intro hq))]
  · rw [update_of_ne hq]

theorem tab_set (hD : Distinct N next mem r D) (hp : tab N next mem r D (k / N) = some p)
    (hd : d ≤ D) (m : Nat) :
    tab N next (set mem p (k % N) x) r d m = tab N next mem r d m := by
  induction d generalizing m with
  | zero => rfl
  | succ d ih =>
    rw [tab, tab, ih (by omega)]
    cases hq : tab N next mem r d (m / N) with
    | none => rfl
    | some q =>
      have hne : q ≠ p := by
        intro he
        rw [he] at hq
        have := (hD d D _ _ p (by omega) (Nat.le_refl D) hq hp).1
        omega
      simp only [Option.bind_some, set_of_ne (Or.inl hne)]

theorem ent_set (hD : Distinct N next mem r D) (hp : tab N next mem r D (k / N) = some p)
    (m : Nat) : ent N next (set mem p (k % N) x) r D m =
      if m = k then some x else ent N next mem r D m := by
  rw [ent, ent, tab_set hD hp (Nat.le_refl D)]
  by_cases hm : m = k
  · rw [if_pos hm, hm, hp, Option.map_some, set_self]
  · rw [if_neg hm]
    cases hq : tab N next mem r D (m / N) with
    | none => rfl
    | some q =>
      have hother : q ≠ p ∨ m % N ≠ k % N := by
        by_contra hc
        simp only [not_or, not_not] at hc
        rw [hc.1] at hq
        have hdiv := (hD D D _ _ p (Nat.le_refl D) (Nat.le_refl D) hq hp).2
        exact hm (by rw [← Nat.div_add_mod m N, ← Nat.div_add_mod k N, hdiv, hc.2])
      rw [Option.map_some, Option.map_some, set_of_ne hother]

theorem distinct_set (hD : Distinct N next mem r D) (hp : tab N next mem r D (k / N) = some p) :
    Distinct N next (set mem p (k % N) x) r D := by
  intro d d' m m' q hd hd' h h'
  rw [tab_set hD hp hd] at h
  rw [tab_set hD hp hd'] at h'
  exact hD d d' m m' q hd hd' h h'

section Graft

variable {e₀ : E} (hD : Distinct N next mem r D) (hp : tab N next mem r d (k / N) = some p)
  (hd : d < D) (hold : next (mem p (k % N)) = none) (hx : next x = some c)
  (hfresh : ∀ d k, d ≤ D → tab N next mem r d k ≠ some c) (hzero : ∀ i, mem c i = e₀)
  (hnone : next e₀ = none)

include hD hp hd hold hx hfresh hzero hnone

theorem tab_graft (d' : Nat) (hd' : d' ≤ D) (m : Nat) :
    tab N next (set mem p (k % N) x) r d' m =
      if d' = d + 1 ∧ m = k then some c else tab N next mem r d' m := by
  have hpc : p ≠ c := fun he => hfresh d (k / N) (by omega) (by rw [hp, he])
  induction d' generalizing m with
  | zero => rw [if_neg (by omega)]; rfl
  | succ d' ih =>
    rw [tab, ih (by omega)]
    by_cases hnew : d' = d + 1 ∧ m / N = k
    · -- Below the new table: there was nothing, and there is nothing.
      have hup : tab N next mem r d' (m / N) = none := by
        rw [hnew.1, hnew.2, tab, hp]
        exact hold
      rw [if_pos hnew, if_neg (by omega), tab_none hup, Option.bind_some,
        set_of_ne (Or.inl hpc.symm), hzero, hnone]
    · rw [if_neg hnew]
      by_cases hm : d' + 1 = d + 1 ∧ m = k
      · have hdd : d' = d := by omega
        rw [if_pos hm, hm.2, hdd, hp, Option.bind_some, set_self, hx]
      · rw [if_neg hm, tab]
        cases hq : tab N next mem r d' (m / N) with
        | none => rfl
        | some q =>
          have hother : q ≠ p ∨ m % N ≠ k % N := by
            by_contra hc
            simp only [not_or, not_not] at hc
            rw [hc.1] at hq
            have hpos := hD d' d _ _ p (by omega) (by omega) hq hp
            refine hm ⟨by omega, ?_⟩
            rw [← Nat.div_add_mod m N, ← Nat.div_add_mod k N, hpos.2, hc.2]
          simp only [Option.bind_some, set_of_ne hother]

theorem distinct_graft : Distinct N next (set mem p (k % N) x) r D := by
  intro d₁ d₂ m₁ m₂ q h₁ h₂ hq₁ hq₂
  have htab := tab_graft hD hp hd hold hx hfresh hzero hnone
  rw [htab d₁ h₁] at hq₁
  rw [htab d₂ h₂] at hq₂
  split at hq₁
  · split at hq₂
    · omega
    · rw [← Option.some.inj hq₁] at hq₂
      exact absurd hq₂ (hfresh _ _ h₂)
  · split at hq₂
    · rw [← Option.some.inj hq₂] at hq₁
      exact absurd hq₁ (hfresh _ _ h₁)
    · exact hD d₁ d₂ m₁ m₂ q h₁ h₂ hq₁ hq₂

theorem ent_graft (m : Nat) : (ent N next (set mem p (k % N) x) r D m).getD e₀ =
    (ent N next mem r D m).getD e₀ := by
  have hpc : p ≠ c := fun he => hfresh d (k / N) (by omega) (by rw [hp, he])
  rw [ent, ent, tab_graft hD hp hd hold hx hfresh hzero hnone D (Nat.le_refl D)]
  by_cases hnew : D = d + 1 ∧ m / N = k
  · have hup : tab N next mem r D (m / N) = none := by
      rw [hnew.1, hnew.2, tab, hp]
      exact hold
    rw [if_pos hnew, hup, Option.map_some, set_of_ne (Or.inl hpc.symm), hzero]
    rfl
  · rw [if_neg hnew]
    cases hq : tab N next mem r D (m / N) with
    | none => rfl
    | some q =>
      have hne : q ≠ p := by
        intro he
        rw [he] at hq
        have := (hD D d _ _ p (Nat.le_refl D) (by omega) hq hp).1
        omega
      rw [Option.map_some, Option.map_some, set_of_ne (Or.inl hne)]

end Graft

end

end Xv6.Radix
