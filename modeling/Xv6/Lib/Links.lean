import Mathlib.Data.List.Chain
import Mathlib.Data.List.Infix
import Mathlib.Data.List.Nodup
import Mathlib.Logic.Function.Basic

/-!
# Doubly Linked Rings

A ring of nodes with a head that is not a node, linked in both directions.

The head is `none` and the nodes are `some a`, so that one pair of functions
holds all pointers. `Ring L l` says that the nodes of `l`, in this order and with
the head before and after them, are linked to their neighbours both ways. It says
nothing about pointers of nodes that are not in the ring.

An assignment to a pointer breaks at most one link in each direction. The lemmas
about operations therefore cut the list at the nodes in question and show that
the parts are still linked inside, which `Linked.congr` reduces to the pointers
that were assigned.

## Main definitions

* `Links`: The pointers.
* `Linked`, `Ring`: Consecutive nodes point to each other.
* `unlink`, `pushFront`: A node is taken out, or put behind the head.
* `find`: The loop that follows pointers until a test succeeds or the head comes.

## Theorems

* `ring_unlink`, `ring_pushFront`: The ring after an operation.
* `find_next`, `find_prev`: The loops find what there is to be found.
-/

namespace Xv6

open Function List

/-- The pointers of nodes and of the head, which is `none`. -/
structure Links (α : Type) where
  next : Option α → Option α
  prev : Option α → Option α

namespace Links

variable {α : Type} {L : Links α} {l : List α}

/-- Each node of the list points to the one after it and back. -/
def Linked (L : Links α) (xs : List (Option α)) : Prop :=
  xs.IsChain (fun x y => L.next x = y ∧ L.prev y = x)

/-- The nodes of the ring, from the head on. -/
def Ring (L : Links α) (l : List α) : Prop := L.Linked (none :: (l.map some ++ [none]))

theorem Linked.congr {L L' : Links α} {xs : List (Option α)} (h : L.Linked xs)
    (hnext : ∀ x ∈ xs.dropLast, L'.next x = L.next x)
    (hprev : ∀ y ∈ xs.tail, L'.prev y = L.prev y) : L'.Linked xs := by
  induction xs with
  | nil => exact List.IsChain.nil
  | cons x xs ih =>
    cases xs with
    | nil => exact List.IsChain.singleton x
    | cons y ys =>
      rcases isChain_cons_cons.mp h with ⟨⟨h₁, h₂⟩, hrest⟩
      refine isChain_cons_cons.mpr ⟨⟨?_, ?_⟩, ih hrest (fun z hz => ?_) (fun z hz => ?_)⟩
      · rw [hnext x mem_cons_self]
        exact h₁
      · rw [hprev y mem_cons_self]
        exact h₂
      · exact hnext z (mem_cons_of_mem x hz)
      · exact hprev z (mem_cons_of_mem y hz)

/-- The head alone. -/
def empty : Links α where
  next := fun _ => none
  prev := fun _ => none

theorem ring_empty : (empty : Links α).Ring [] :=
  isChain_pair.mpr ⟨rfl, rfl⟩

/-- The nodes and the head are all different. -/
theorem nodup_nodes (hl : l.Nodup) : (l.map some ++ [none]).Nodup := by
  refine List.Nodup.append (hl.map (fun _ _ h => Option.some.inj h)) (nodup_singleton none) ?_
  intro x hx hx'
  rcases mem_map.mp hx with ⟨a, _, ha⟩
  rw [mem_singleton.mp hx'] at ha
  exact Option.some_ne_none a ha

theorem some_mem_nodes {a : α} : some a ∈ l.map some ++ [none] ↔ a ∈ l := by
  simp only [mem_append, mem_map, Option.some.injEq, exists_eq_right, mem_singleton,
    reduceCtorEq, or_false]

section Operations

variable [DecidableEq α]

def setNext (L : Links α) (x y : Option α) : Links α :=
  { L with next := update L.next x y }

def setPrev (L : Links α) (x y : Option α) : Links α :=
  { L with prev := update L.prev x y }

/-- A node is taken out: `b->next->prev = b->prev; b->prev->next = b->next`. -/
def unlink (L : Links α) (a : α) : Links α :=
  let L := L.setPrev (L.next (some a)) (L.prev (some a))
  L.setNext (L.prev (some a)) (L.next (some a))

/-- A node is put behind the head: `b->next = head.next; b->prev = &head;
    head.next->prev = b; head.next = b`. -/
def pushFront (L : Links α) (a : α) : Links α :=
  let L := L.setNext (some a) (L.next none)
  let L := L.setPrev (some a) none
  let L := L.setPrev (L.next none) (some a)
  L.setNext none (some a)

theorem pushFront_next (L : Links α) (a : α) (x : Option α) :
    (L.pushFront a).next x =
      if x = none then some a else if x = some a then L.next none else L.next x := by
  simp only [pushFront, setNext, setPrev, update_apply]

theorem pushFront_prev (L : Links α) (a : α) (x : Option α) :
    (L.pushFront a).prev x =
      if x = L.next none then some a else if x = some a then none else L.prev x := by
  simp only [pushFront, setNext, setPrev, update_apply, reduceCtorEq, if_false]

theorem unlink_prev (L : Links α) (a : α) (x : Option α) :
    (L.unlink a).prev x = if x = L.next (some a) then L.prev (some a) else L.prev x := by
  simp only [unlink, setNext, setPrev, update_apply]

theorem unlink_next {a : α} (x : Option α) (h : L.next (some a) ≠ some a) :
    (L.unlink a).next x = if x = L.prev (some a) then L.next (some a) else L.next x := by
  simp only [unlink, setNext, setPrev, update_apply, if_neg h.symm]

theorem ring_pushFront {a : α} (h : L.Ring l) (hl : l.Nodup)
    (ha : a ∉ l) : (L.pushFront a).Ring (a :: l) := by
  -- The list from the old first node on, which may be the head.
  obtain ⟨y, ys, hys⟩ : ∃ y ys, l.map some ++ [none] = y :: ys :=
    exists_cons_of_ne_nil (append_ne_nil_of_right_ne_nil _ (cons_ne_nil _ _))
  have hnd := nodup_nodes hl
  have hna : some a ∉ l.map some ++ [none] := fun hm => ha (some_mem_nodes.mp hm)
  have hinner : ∀ x ∈ (y :: ys).dropLast, x ≠ none := by
    intro x hx
    rw [← hys, dropLast_concat] at hx
    rcases mem_map.mp hx with ⟨b, _, hb⟩
    rw [← hb]
    exact Option.some_ne_none b
  unfold Ring at h ⊢
  rw [map_cons, cons_append, hys]
  rw [hys] at h hnd hna
  rcases isChain_cons_cons.mp h with ⟨⟨hfirst, _⟩, hrest⟩
  have hya : y ≠ some a := fun he => hna (he ▸ mem_cons_self)
  refine isChain_cons_cons.mpr ⟨⟨?_, ?_⟩, isChain_cons_cons.mpr ⟨⟨?_, ?_⟩, ?_⟩⟩
  · rw [pushFront_next, if_pos rfl]
  · rw [pushFront_prev, hfirst, if_neg hya.symm, if_pos rfl]
  · rw [pushFront_next, if_neg (Option.some_ne_none a), if_pos rfl]
    exact hfirst
  · rw [pushFront_prev, hfirst, if_pos rfl]
  · refine Linked.congr hrest (fun x hx => ?_) (fun x hx => ?_)
    · have hxa : x ≠ some a := fun he => hna (he ▸ mem_of_mem_dropLast hx)
      rw [pushFront_next, if_neg (hinner x hx), if_neg hxa]
    · have hxa : x ≠ some a := fun he => hna (he ▸ mem_cons_of_mem y hx)
      have hxy : x ≠ y := fun he => (nodup_cons.mp hnd).1 (he ▸ hx)
      rw [pushFront_prev, hfirst, if_neg hxy, if_neg hxa]

theorem ring_unlink {l₁ l₂ : List α} {a : α} (h : L.Ring (l₁ ++ a :: l₂))
    (hl : (l₁ ++ a :: l₂).Nodup) : (L.unlink a).Ring (l₁ ++ l₂) := by
  -- The node is between `x` and `y`, both of which may be the head.
  obtain ⟨y, ys, hys⟩ : ∃ y ys, l₂.map some ++ [none] = y :: ys :=
    exists_cons_of_ne_nil (append_ne_nil_of_right_ne_nil _ (cons_ne_nil _ _))
  obtain ⟨xs, x, hxs⟩ : ∃ xs x, none :: l₁.map some = xs ++ [x] :=
    ⟨_, _, (dropLast_append_getLast (cons_ne_nil _ _)).symm⟩
  have hl' := nodup_append.mp hl
  have hl₁ : (none :: l₁.map some).Nodup := by
    refine nodup_cons.mpr ⟨fun hm => ?_, hl'.1.map (fun _ _ h => Option.some.inj h)⟩
    rcases mem_map.mp hm with ⟨b, _, hb⟩
    exact Option.some_ne_none b hb
  have hl₂ := nodup_nodes (nodup_cons.mp hl'.2.1).2
  have hdisj : ∀ b ∈ l₁, b ∉ l₂ := fun b hb hb' =>
    hl'.2.2 b hb b (mem_cons_of_mem a hb') rfl
  have hay : y ≠ some a := by
    intro he
    have hm : some a ∈ l₂.map some ++ [none] := hys ▸ he ▸ mem_cons_self
    exact (nodup_cons.mp hl'.2.1).1 (some_mem_nodes.mp hm)
  have hxl : ∀ z ∈ l₂.map some, z ≠ x := by
    intro z hz he
    have hm : x ∈ none :: l₁.map some := hxs ▸ mem_append_right xs mem_cons_self
    rcases mem_map.mp hz with ⟨b, hb, hbz⟩
    rw [← he, ← hbz] at hm
    simp only [mem_cons, reduceCtorEq, mem_map, Option.some.injEq, exists_eq_right,
      false_or] at hm
    exact hdisj b hm hb
  have hyl : ∀ z ∈ l₁.map some, z ≠ y := by
    intro z hz he
    have hm : y ∈ l₂.map some ++ [none] := hys ▸ mem_cons_self
    rcases mem_map.mp hz with ⟨b, hb, hbz⟩
    rw [← he, ← hbz] at hm
    exact hdisj b hb (some_mem_nodes.mp hm)
  have hdrop : (y :: ys).dropLast = l₂.map some := by rw [← hys, dropLast_concat]
  have htail : (xs ++ [x]).tail = l₁.map some := by rw [← hxs, tail_cons]
  unfold Ring at h ⊢
  rw [map_append, append_assoc, ← cons_append, hys, hxs, append_assoc,
    singleton_append]
  rw [map_append, map_cons, append_assoc, cons_append, ← cons_append, hys,
    hxs, append_assoc, singleton_append] at h
  rw [hys] at hl₂
  rw [hxs] at hl₁
  rcases isChain_append_cons_cons.mp h with ⟨hleft, ⟨_, hprev⟩, hright⟩
  rcases isChain_cons_cons.mp hright with ⟨⟨hnext, _⟩, hright⟩
  have hself : L.next (some a) ≠ some a := by
    rw [hnext]
    exact hay
  refine isChain_append_cons_cons.mpr ⟨?_, ⟨?_, ?_⟩, ?_⟩
  · refine Linked.congr hleft (fun z hz => ?_) (fun z hz => ?_)
    · rw [dropLast_concat] at hz
      have hzx : z ≠ x := fun he =>
        (nodup_append.mp hl₁).2.2 z hz x mem_cons_self he
      rw [unlink_next z hself, hprev, if_neg hzx]
    · rw [htail] at hz
      rw [unlink_prev, hnext, if_neg (hyl z hz)]
  · rw [unlink_next x hself, if_pos hprev.symm]
    exact hnext
  · rw [unlink_prev, if_pos hnext.symm]
    exact hprev
  · refine Linked.congr hright (fun z hz => ?_) (fun z hz => ?_)
    · rw [hdrop] at hz
      rw [unlink_next z hself, hprev, if_neg (hxl z hz)]
    · have hzy : z ≠ y := fun he => (nodup_cons.mp hl₂).1 (he ▸ hz)
      rw [unlink_prev, hnext, if_neg hzy]

end Operations

/-! ### Loops -/

/-- The loop that follows pointers from `x` until the test succeeds or the head comes.
    There is no result if this takes more than `fuel` rounds. -/
def find (follow : Option α → Option α) (p : α → Bool) : Nat → Option α → Option (Option α)
  | 0, _ => none
  | _ + 1, none => some none
  | fuel + 1, some a => if p a then some (some a) else find follow p fuel (follow (some a))

/-- A loop over a list of nodes each of which leads to the next. -/
theorem find_eq (follow : Option α → Option α) (p : α → Bool) (l : List α) (fuel : Nat)
    (x : Option α) (hfuel : l.length < fuel)
    (h : (x :: (l.map some ++ [none])).IsChain (fun x y => follow x = y)) :
    find follow p fuel (follow x) = some (l.find? p) := by
  induction l generalizing x fuel with
  | nil =>
    obtain ⟨n, rfl⟩ : ∃ n, fuel = n + 1 := ⟨fuel - 1, by omega⟩
    rw [isChain_pair.mp h]
    rfl
  | cons a l ih =>
    obtain ⟨n, rfl⟩ : ∃ n, fuel = n + 1 := ⟨fuel - 1, by omega⟩
    rcases isChain_cons_cons.mp h with ⟨hx, hrest⟩
    rw [hx]
    unfold find
    by_cases hp : p a = true
    · rw [if_pos hp, find?_cons_of_pos hp]
    · rw [if_neg hp, find?_cons_of_neg hp]
      exact ih n (some a) (by simp only [length_cons] at hfuel; omega) hrest

theorem find_next (h : L.Ring l) (p : α → Bool) {fuel : Nat}
    (hfuel : l.length < fuel) : find L.next p fuel (L.next none) = some (l.find? p) :=
  find_eq L.next p l fuel none hfuel (h.imp (fun _ _ hxy => hxy.1))

theorem find_prev (h : L.Ring l) (p : α → Bool) {fuel : Nat}
    (hfuel : l.length < fuel) : find L.prev p fuel (L.prev none) = some (l.reverse.find? p) := by
  refine find_eq L.prev p l.reverse fuel none (by rw [length_reverse]; exact hfuel) ?_
  have hrev : none :: (l.reverse.map some ++ [none]) =
      (none :: (l.map some ++ [none])).reverse := by
    simp only [map_reverse, reverse_cons, reverse_append, reverse_nil,
      nil_append, cons_append]
  rw [hrev, isChain_reverse]
  exact h.imp (fun _ _ hxy => hxy.2)

end Links

end Xv6
