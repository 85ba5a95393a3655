import Mathlib.Logic.Function.Basic

/-!
# Exclusive Ownership

Places that may hold a resource each, and a set of resources in use, in exact
agreement: what a place holds is in use, no resource is held twice, and
nothing in use is lost.

An allocator with its free list and the structures that store what it hands
out are of this kind. The two moves are `acquire`, where an unused resource
goes to an empty place, and `release`, where some places are emptied and what
they held goes out of use.

## Main definitions

* `Owns`: The places and the resources in use agree.

## Theorems

* `Owns.acquire`: An unused resource goes to an empty place.
* `Owns.congr`: Only the resources in use and the contents of places matter.
-/

namespace Xv6

/-- The places `slot` hold exactly the resources that are `used`, each once. -/
structure Owns {α β : Type} (used : β → Prop) (slot : α → Option β) : Prop where
  used_of : ∀ a b, slot a = some b → used b
  inj : ∀ a a' b, slot a = some b → slot a' = some b → a = a'
  owner : ∀ b, used b → ∃ a, slot a = some b

namespace Owns

variable {α β : Type} {used used' : β → Prop} {slot slot' : α → Option β}

theorem congr (h : Owns used slot) (hused : ∀ b, used' b ↔ used b)
    (hslot : ∀ a, slot' a = slot a) : Owns used' slot' := by
  refine ⟨fun a b hab => ?_, fun a a' b hab hab' => ?_, fun b hb => ?_⟩
  · rw [hslot] at hab
    exact (hused b).mpr (h.used_of a b hab)
  · rw [hslot] at hab hab'
    exact h.inj a a' b hab hab'
  · rcases h.owner b ((hused b).mp hb) with ⟨a, ha⟩
    exact ⟨a, by rw [hslot, ha]⟩

theorem acquire (h : Owns used slot) (a : α) (b : β) (ha : slot a = none) (hb : ¬used b)
    (hused : ∀ c, used' c ↔ c = b ∨ used c) (hself : slot' a = some b)
    (hother : ∀ a', a' ≠ a → slot' a' = slot a') : Owns used' slot' := by
  refine ⟨fun x c hx => ?_, fun x y c hx hy => ?_, fun c hc => ?_⟩
  · by_cases hxa : x = a
    · rw [hxa, hself, Option.some.injEq] at hx
      exact (hused c).mpr (Or.inl hx.symm)
    · rw [hother x hxa] at hx
      exact (hused c).mpr (Or.inr (h.used_of x c hx))
  · by_cases hxa : x = a
    · by_cases hya : y = a
      · rw [hxa, hya]
      · -- Then another place would hold the resource that was not in use.
        rw [hxa, hself, Option.some.injEq] at hx
        rw [hother y hya, ← hx] at hy
        exact absurd (h.used_of y b hy) hb
    · by_cases hya : y = a
      · rw [hya, hself, Option.some.injEq] at hy
        rw [hother x hxa, ← hy] at hx
        exact absurd (h.used_of x b hx) hb
      · rw [hother x hxa] at hx
        rw [hother y hya] at hy
        exact h.inj x y c hx hy
  · rcases (hused c).mp hc with hcb | hc
    · exact ⟨a, by rw [hself, hcb]⟩
    · rcases h.owner c hc with ⟨x, hx⟩
      have hxa : x ≠ a := by
        intro hxa
        rw [hxa, ha] at hx
        exact nomatch hx
      exact ⟨x, by rw [hother x hxa, hx]⟩

end Owns

end Xv6
