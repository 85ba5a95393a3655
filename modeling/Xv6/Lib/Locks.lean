import Mathlib.Logic.Function.Basic
import Mathlib.Data.List.Basic

/-!
# Spin Locks of CPUs

Locks that belong to CPUs, and the threads that use them.

A spin lock records the CPU that holds it. What a program needs to know is
which thread owns it, and the two are not the same: a CPU may switch to another
thread while it holds a lock, and then the lock goes to that thread. `Holds`
says that the locks of a CPU are those its current thread owns, that a thread
without a CPU owns none, and that the counter of nested locks is right.

## Main definitions

* `Holds`: The locks of the CPUs are those of the threads they run.

## Theorems

* `Holds.only`: A thread that owns one lock owns no other.
* `Holds.acquire`, `Holds.release`: The current thread takes or gives up a lock.
* `Holds.switch`: A CPU with one lock switches to another thread.
-/

namespace Xv6

open Function

/-- The locks of the CPUs are those of the threads they run. -/
structure Holds {L C T : Type} (lock : L → Option C) (noff : C → Nat) (cur : C → T)
    (owns : T → L → Prop) (depth : T → Nat) : Prop where
  lock : ∀ l c, lock l = some c ↔ owns (cur c) l
  inj : ∀ c c', cur c = cur c' → c = c'
  parked : ∀ t, (∀ c, cur c ≠ t) → depth t = 0
  noff : ∀ c, noff c = depth (cur c)
  count : ∀ t, ∃ ls : List L, ls.Nodup ∧ ls.length = depth t ∧ ∀ l, owns t l ↔ l ∈ ls

namespace Holds

variable {L C T : Type} {lock : L → Option C} {noff : C → Nat} {cur : C → T}
  {owns owns' : T → L → Prop} {depth depth' : T → Nat} {t t' : T} {l l' : L} {c : C}

variable (h : Holds lock noff cur owns depth)

include h

theorem congr (howns : ∀ t l, owns' t l ↔ owns t l)
    (hdepth : ∀ t, depth' t = depth t) : Holds lock noff cur owns' depth' := by
  refine ⟨fun l c => ?_, h.inj, fun t ht => ?_, fun c => ?_, fun t => ?_⟩
  · rw [howns]
    exact h.lock l c
  · rw [hdepth]
    exact h.parked t ht
  · rw [hdepth]
    exact h.noff c
  · rcases h.count t with ⟨ls, h₁, h₂, h₃⟩
    refine ⟨ls, h₁, by rw [hdepth, h₂], fun l => ?_⟩
    rw [howns]
    exact h₃ l

theorem depth_pos (ho : owns t l) : 1 ≤ depth t := by
  rcases h.count t with ⟨ls, _, hlen, hmem⟩
  have hl := (hmem l).mp ho
  rw [← hlen]
  exact List.length_pos_of_mem hl

theorem idle (ht : depth t = 0) (l : L) : ¬owns t l := by
  intro ho
  have := h.depth_pos ho
  omega

theorem owner (ho : owns t l) :
    ∃ c, cur c = t ∧ lock l = some c := by
  by_contra hc
  have hpos := h.depth_pos ho
  have hzero : depth t = 0 := by
    refine h.parked t (fun c hct => hc ⟨c, hct, ?_⟩)
    rw [h.lock, hct]
    exact ho
  omega

theorem excl (ho : owns t l) (ho' : owns t' l) : t = t' := by
  rcases h.owner ho with ⟨c, hc, hl⟩
  rcases h.owner ho' with ⟨c', hc', hl'⟩
  rw [hl, Option.some.injEq] at hl'
  rw [← hc, ← hc', hl']

theorem free_iff : lock l = none ↔ ∀ t, ¬owns t l := by
  constructor
  · intro hn t ho
    rcases h.owner ho with ⟨c, _, hl⟩
    rw [hn] at hl
    exact nomatch hl
  · intro hno
    cases hl : lock l with
    | none => rfl
    | some c => exact absurd ((h.lock l c).mp hl) (hno (cur c))

theorem only (hd : depth t = 1) (ho : owns t l) (ho' : owns t l') : l' = l := by
  rcases h.count t with ⟨ls, _, hlen, hmem⟩
  rw [hd, List.length_eq_one_iff] at hlen
  rcases hlen with ⟨a, ha⟩
  have hl := (hmem l).mp ho
  have hl' := (hmem l').mp ho'
  rw [ha, List.mem_singleton] at hl hl'
  rw [hl, hl']


/-- A CPU that holds one lock switches to a thread without a CPU, and the lock
    goes with it. -/
theorem switch {cur' : C → T} (ho : owns (cur c) l)
    (hone : depth (cur c) = 1) (hpark : ∀ c', cur c' ≠ t) (hcur : cur' c = t)
    (hcur' : ∀ c', c' ≠ c → cur' c' = cur c')
    (hold : (∀ l', ¬owns' (cur c) l') ∧ depth' (cur c) = 0)
    (hnew : (∀ l', owns' t l' ↔ l' = l) ∧ depth' t = 1)
    (hother : ∀ t', t' ≠ cur c → t' ≠ t → (∀ l', owns' t' l' ↔ owns t' l') ∧
      depth' t' = depth t') :
    Holds lock noff cur' owns' depth' := by
  -- The threads that run on the other CPUs are neither of the two.
  have hne : ∀ c', c' ≠ c → cur c' ≠ cur c ∧ cur c' ≠ t := fun c' hc' =>
    ⟨fun he => hc' (h.inj c' c he), hpark c'⟩
  refine ⟨fun l' c' => ?_, fun c₁ c₂ he => ?_, fun t' ht' => ?_, fun c' => ?_, fun t' => ?_⟩
  · by_cases hc : c' = c
    · rw [hc, hcur, hnew.1, h.lock]
      exact ⟨fun ho' => h.only hone ho ho', fun he => by rw [he]; exact ho⟩
    · rw [hcur' c' hc, (hother _ (hne c' hc).1 (hne c' hc).2).1]
      exact h.lock l' c'
  · by_cases h₁ : c₁ = c
    · by_cases h₂ : c₂ = c
      · rw [h₁, h₂]
      · rw [h₁, hcur, hcur' c₂ h₂] at he
        exact absurd he.symm (hpark c₂)
    · by_cases h₂ : c₂ = c
      · rw [h₂, hcur, hcur' c₁ h₁] at he
        exact absurd he (hpark c₁)
      · rw [hcur' c₁ h₁, hcur' c₂ h₂] at he
        exact h.inj c₁ c₂ he
  · by_cases ht : t' = cur c
    · rw [ht]
      exact hold.2
    · have htt : t' ≠ t := fun he => ht' c (by rw [hcur, he])
      rw [(hother t' ht htt).2]
      refine h.parked t' (fun c' hc' => ?_)
      by_cases hc : c' = c
      · exact ht (by rw [← hc', hc])
      · exact ht' c' (by rw [hcur' c' hc, hc'])
  · by_cases hc : c' = c
    · rw [hc, hcur, hnew.2, h.noff, hone]
    · rw [hcur' c' hc, (hother _ (hne c' hc).1 (hne c' hc).2).2]
      exact h.noff c'
  · by_cases ht : t' = cur c
    · refine ⟨[], List.nodup_nil, by rw [ht, hold.2]; rfl, fun l' => ?_⟩
      rw [ht]
      exact ⟨fun ho' => absurd ho' (hold.1 l'), nofun⟩
    · by_cases htt : t' = t
      · refine ⟨[l], List.nodup_cons.mpr ⟨List.not_mem_nil, List.nodup_nil⟩,
          by rw [htt, hnew.2]; rfl, fun l' => ?_⟩
        rw [htt, List.mem_singleton]
        exact hnew.1 l'
      · rcases h.count t' with ⟨ls, h₁, h₂, h₃⟩
        refine ⟨ls, h₁, by rw [(hother t' ht htt).2, h₂], fun l' => ?_⟩
        rw [(hother t' ht htt).1]
        exact h₃ l'

variable [DecidableEq L] [DecidableEq C]

theorem acquire (hl : lock l = none) (hself : ∀ l', owns' (cur c) l' ↔ l' = l ∨ owns (cur c) l')
    (hdepth : depth' (cur c) = depth (cur c) + 1)
    (hother : ∀ t, t ≠ cur c → (∀ l', owns' t l' ↔ owns t l') ∧ depth' t = depth t) :
    Holds (update lock l (some c)) (update noff c (noff c + 1)) cur
      owns' depth' := by
  have hfree := h.free_iff.mp hl
  refine ⟨fun l' c' => ?_, h.inj, fun t ht => ?_, fun c' => ?_, fun t => ?_⟩
  · by_cases hc : c' = c
    · rw [hc, hself]
      by_cases hl' : l' = l
      · rw [hl', update_self]
        exact ⟨fun _ => Or.inl rfl, fun _ => rfl⟩
      · rw [update_of_ne hl', h.lock]
        exact ⟨Or.inr, fun ho => ho.resolve_left hl'⟩
    · have hne : cur c' ≠ cur c := fun he => hc (h.inj c' c he)
      rw [(hother (cur c') hne).1]
      by_cases hl' : l' = l
      · rw [hl', update_self]
        refine ⟨fun he => absurd (Option.some.inj he).symm hc, fun ho => absurd ho (hfree _)⟩
      · rw [update_of_ne hl']
        exact h.lock l' c'
  · rw [(hother t (fun he => ht c he.symm)).2]
    exact h.parked t ht
  · by_cases hc : c' = c
    · rw [hc, update_self, hdepth, h.noff]
    · have hne : cur c' ≠ cur c := fun he => hc (h.inj c' c he)
      rw [update_of_ne hc, (hother (cur c') hne).2]
      exact h.noff c'
  · by_cases ht : t = cur c
    · rcases h.count t with ⟨ls, h₁, h₂, h₃⟩
      refine ⟨l :: ls, List.nodup_cons.mpr ⟨fun hm => hfree t ((h₃ l).mpr hm), h₁⟩, ?_,
        fun l' => ?_⟩
      · rw [List.length_cons, h₂, ht, hdepth]
      · rw [List.mem_cons, ← h₃, ht]
        exact hself l'
    · rcases h.count t with ⟨ls, h₁, h₂, h₃⟩
      refine ⟨ls, h₁, by rw [(hother t ht).2, h₂], fun l' => ?_⟩
      rw [(hother t ht).1]
      exact h₃ l'

theorem release (ho : owns (cur c) l) (hself : ∀ l', owns' (cur c) l' ↔ l' ≠ l ∧ owns (cur c) l')
    (hdepth : depth' (cur c) = depth (cur c) - 1)
    (hother : ∀ t, t ≠ cur c → (∀ l', owns' t l' ↔ owns t l') ∧ depth' t = depth t) :
    Holds (update lock l none) (update noff c (noff c - 1)) cur
      owns' depth' := by
  refine ⟨fun l' c' => ?_, h.inj, fun t ht => ?_, fun c' => ?_, fun t => ?_⟩
  · by_cases hc : c' = c
    · rw [hc, hself]
      by_cases hl' : l' = l
      · rw [hl', update_self]
        exact ⟨nofun,
          fun hc => absurd rfl hc.1⟩
      · rw [update_of_ne hl', h.lock]
        exact ⟨fun ho => ⟨hl', ho⟩, fun ho => ho.2⟩
    · have hne : cur c' ≠ cur c := fun he => hc (h.inj c' c he)
      rw [(hother (cur c') hne).1]
      by_cases hl' : l' = l
      · rw [hl', update_self]
        exact ⟨nofun,
          fun ho' => absurd (h.excl ho' ho) hne⟩
      · rw [update_of_ne hl']
        exact h.lock l' c'
  · rw [(hother t (fun he => ht c he.symm)).2]
    exact h.parked t ht
  · by_cases hc : c' = c
    · rw [hc, update_self, hdepth, h.noff]
    · have hne : cur c' ≠ cur c := fun he => hc (h.inj c' c he)
      rw [update_of_ne hc, (hother (cur c') hne).2]
      exact h.noff c'
  · by_cases ht : t = cur c
    · rcases h.count t with ⟨ls, h₁, h₂, h₃⟩
      have hmem : l ∈ ls := (h₃ l).mp (by rw [ht]; exact ho)
      refine ⟨ls.erase l, h₁.erase l, ?_, fun l' => ?_⟩
      · rw [List.length_erase_of_mem hmem, h₂, ht, hdepth]
      · rw [h₁.mem_erase_iff, ← h₃, ht]
        exact hself l'
    · rcases h.count t with ⟨ls, h₁, h₂, h₃⟩
      refine ⟨ls, h₁, by rw [(hother t ht).2, h₂], fun l' => ?_⟩
      rw [(hother t ht).1]
      exact h₃ l'

end Holds

end Xv6
