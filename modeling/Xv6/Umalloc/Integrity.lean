import Mathlib.Data.List.Perm.Basic
import Mathlib.Data.List.Nodup
import Mathlib.Data.Finset.Max
import Mathlib.Tactic.Linarith
import Xv6.Lib.Path
import Xv6.Lib.Prog
import Xv6.Umalloc.Model

/-!
# Integrity of the Heap

Blocks never overlap, nothing is lost, and neighbours are always joined.

The memory that `sbrk` has returned is a list of units. Every block covers some of
them, and `Ok` says that the units of all blocks, free and live, are the units of
memory in another order. From this it follows that blocks do not overlap, because no
unit of memory comes twice and two of them are a unit apart.

Free blocks are the nodes of a ring of pointers from `base`, in the order of their
addresses, with a gap between any two. `free` finds the node before its block since
that node is on the ring, and the loop stops nowhere else. `malloc` goes around the
ring once, and if it has to ask for more memory, goes around once more at most.

## Main definitions

* `units`, `cells`: The units of a block, and of all blocks of a list.
* `memory`: The units `sbrk` has returned.
* `Ok`: The heap is in order.

## Theorems

* `free_ok`: `free` keeps the heap in order, and ends.
* `heap_integrity`: What holds after any sequence of calls.
-/

namespace Xv6.Umalloc

open Function List

/-- The addresses of `n` units from `a` on. -/
def units (a n : Nat) : List Nat := (List.range n).map (fun i => a + 16 * i)

def cells (size : Nat → Nat) (as : List Nat) : List Nat := as.flatMap (fun a => units a (size a))

/-- The units that `sbrk` has returned. -/
def memory (chunks : List (Nat × Nat)) : List Nat := chunks.flatMap (fun c => units c.1 c.2)

section Units

variable {size : Nat → Nat} {as : List Nat}

theorem units_add (a m n : Nat) : units a (m + n) = units a m ++ units (a + 16 * m) n := by
  simp only [units, range_add, map_append, map_map]
  congr 1
  refine map_congr_left (fun i _ => ?_)
  simp only [comp_apply]
  omega

theorem mem_units (a n u : Nat) : u ∈ units a n ↔ ∃ i, i < n ∧ u = a + 16 * i := by
  simp only [units, mem_map, mem_range, eq_comm]

theorem length_units (a n : Nat) : (units a n).length = n := by
  rw [units, length_map, length_range]

theorem self_mem_units {a n : Nat} (h : 0 < n) : a ∈ units a n :=
  (mem_units a n a).mpr ⟨0, h, by omega⟩

/-- Units are a unit apart. -/
def Spread (l : List Nat) : Prop := l.Pairwise (fun u v => u + 16 ≤ v)

theorem spread_units (a n : Nat) : Spread (units a n) := by
  refine List.Pairwise.map _ (fun i j (h : i < j) => ?_) pairwise_lt_range
  omega

theorem Spread.nodup {l : List Nat} (h : Spread l) : l.Nodup :=
  h.imp (fun hle => by omega)

theorem Spread.apart {l : List Nat} (h : Spread l) {u v : Nat} (hu : u ∈ l) (hv : v ∈ l) :
    u = v ∨ u + 16 ≤ v ∨ v + 16 ≤ u := by
  have hsymm : Std.Symm (fun u v : Nat => u + 16 ≤ v ∨ v + 16 ≤ u) := ⟨fun _ _ => Or.symm⟩
  have hall := List.Pairwise.forall (R := fun u v : Nat => u + 16 ≤ v ∨ v + 16 ≤ u)
    (h.imp (fun hle => Or.inl hle)) hu hv
  by_cases he : u = v
  · exact Or.inl he
  · exact Or.inr (hall he)

theorem cells_cons (size : Nat → Nat) (a : Nat) (as : List Nat) :
    cells size (a :: as) = units a (size a) ++ cells size as := by
  rw [cells, flatMap_cons]
  rfl

theorem cells_append (size : Nat → Nat) (as bs : List Nat) :
    cells size (as ++ bs) = cells size as ++ cells size bs := by
  rw [cells, flatMap_append]
  rfl

theorem cells_congr {size size' : Nat → Nat} (h : ∀ a ∈ as, size' a = size a) :
    cells size' as = cells size as := by
  induction as with
  | nil => rfl
  | cons a as ih =>
    rw [cells_cons, cells_cons, h a mem_cons_self,
      ih (fun b hb => h b (mem_cons_of_mem a hb))]

theorem cells_perm {as bs : List Nat} (h : List.Perm as bs) :
    List.Perm (cells size as) (cells size bs) :=
  h.flatMap_right _

theorem units_sublist {a : Nat} (h : a ∈ as) :
    List.Sublist (units a (size a)) (cells size as) := by
  rcases append_of_mem h with ⟨l, r, rfl⟩
  rw [cells_append, cells_cons]
  exact (sublist_append_left _ _).trans (sublist_append_right _ _)

theorem mem_cells {u : Nat} :
    u ∈ cells size as ↔ ∃ a ∈ as, u ∈ units a (size a) :=
  mem_flatMap

theorem cells_two (size : Nat → Nat) {a b : Nat} (ha : a ∈ as) (hb : b ∈ as) (hab : a ≠ b) : ∃ rest,
      List.Perm (cells size as) (units a (size a) ++ (units b (size b) ++ rest)) := by
  have hb' : b ∈ as.erase a := (mem_erase_of_ne (Ne.symm hab)).mpr hb
  refine ⟨cells size ((as.erase a).erase b), ?_⟩
  rw [← cells_cons, ← cells_cons]
  exact cells_perm ((perm_cons_erase ha).trans ((perm_cons_erase hb').cons a))

theorem units_disjoint (h : (cells size as).Nodup) {a b u : Nat} (ha : a ∈ as) (hb : b ∈ as)
    (hab : a ≠ b) (hu : u ∈ units a (size a)) :
    u ∉ units b (size b) := by
  rcases cells_two size ha hb hab with ⟨rest, hp⟩
  rw [hp.nodup_iff, nodup_append] at h
  exact fun hu' => h.2.2 u hu u (mem_append_left rest hu') rfl

theorem nodup_of_cells (h : (cells size as).Nodup) (hpos : ∀ a ∈ as, 0 < size a) : as.Nodup := by
  induction as with
  | nil => exact nodup_nil
  | cons a as ih =>
    rw [cells_cons, nodup_append] at h
    refine nodup_cons.mpr ⟨fun ha => ?_, ih h.2.1 (fun b hb => hpos b
      (mem_cons_of_mem a hb))⟩
    have hself := self_mem_units (a := a) (hpos a mem_cons_self)
    exact h.2.2 a hself a (mem_cells.mpr ⟨a, ha, hself⟩) rfl

theorem size_add_le {a b : Nat} (ha : a ∈ as) (hb : b ∈ as)
    (hab : a ≠ b) : size a + size b ≤ (cells size as).length := by
  rcases cells_two size ha hb hab with ⟨rest, hp⟩
  rw [hp.length_eq, length_append, length_append, length_units, length_units]
  omega

theorem blocks_apart {as mem : List Nat} (hmem : Spread mem)
    (h : List.Perm (cells size as) mem) {a b : Nat} (ha : a ∈ as) (hb : b ∈ as) (hab : a < b)
    (hpos : 0 < size b) : a + 16 * size a ≤ b := by
  by_contra hlt
  -- The unit of `a` that `b` would be in.
  have hdiv : (b - a) / 16 < size a := by omega
  have hu : a + 16 * ((b - a) / 16) ∈ units a (size a) := (mem_units _ _ _).mpr ⟨_, hdiv, rfl⟩
  have hself := self_mem_units (a := b) hpos
  have hu' := h.mem_iff.mp (mem_cells.mpr ⟨a, ha, hu⟩)
  have hself' := h.mem_iff.mp (mem_cells.mpr ⟨b, hb, hself⟩)
  rcases hmem.apart hu' hself' with heq | hle | hle
  · rw [heq] at hu
    exact units_disjoint (h.nodup_iff.mpr hmem.nodup) ha hb (by omega) hu hself
  · omega
  · omega

end Units

/-- Blocks of a list follow each other with gaps. -/
def Gaps (size : Nat → Nat) (as : List Nat) : Prop :=
  as.Pairwise (fun a b => a + 16 * size a < b)

/-- The heap is in order: `as` are the free blocks and `ls` the live ones. -/
structure Ok (base : Nat) (h : Heap) (as ls : List Nat) : Prop where
  ring : Path h.ptr base as base
  freep : h.freep ∈ base :: as
  base_size : h.size base = 0
  gaps : Gaps h.size (base :: as)
  pos : ∀ a ∈ as ++ ls, 0 < h.size a
  cells : List.Perm (cells h.size (as ++ ls)) (memory h.chunks)
  spread : Spread (memory h.chunks)
  above : ∀ u ∈ memory h.chunks, base < u ∧ u + 16 ≤ h.brk
  base_lt : base < h.brk
  small : (memory h.chunks).length < 2 ^ 32

namespace Ok

variable {base : Nat} {h : Heap} {as ls : List Nat}

variable (H : Ok base h as ls)

include H

theorem mem_memory {a : Nat} (ha : a ∈ as ++ ls) : a ∈ memory h.chunks :=
  H.cells.mem_iff.mp (mem_cells.mpr ⟨a, ha, self_mem_units (H.pos a ha)⟩)

theorem base_lt_block {a : Nat} (ha : a ∈ as ++ ls) : base < a :=
  (H.above a (H.mem_memory ha)).1

theorem nodup_cells : (Umalloc.cells h.size (as ++ ls)).Nodup :=
  H.cells.nodup_iff.mpr H.spread.nodup

theorem nodup : (as ++ ls).Nodup := nodup_of_cells H.nodup_cells H.pos

theorem apart {a b : Nat} (ha : a ∈ as ++ ls) (hb : b ∈ as ++ ls)
    (hab : a < b) : a + 16 * h.size a ≤ b :=
  blocks_apart H.spread H.cells ha hb hab (H.pos b hb)

theorem size_add_lt {a b : Nat} (ha : a ∈ as ++ ls) (hb : b ∈ as ++ ls)
    (hab : a ≠ b) : h.size a + h.size b < 2 ^ 32 := by
  have hle : h.size a + h.size b ≤ (Umalloc.cells h.size (as ++ ls)).length :=
    size_add_le ha hb hab
  rw [H.cells.length_eq] at hle
  exact Nat.lt_of_le_of_lt hle H.small

theorem perm_live {ls' : List Nat} (hp : List.Perm ls ls') :
    Ok base h as ls' := by
  have hp' : List.Perm (as ++ ls) (as ++ ls') := hp.append_left as
  exact { H with
    pos := fun a ha => H.pos a (hp'.mem_iff.mpr ha)
    cells := (cells_perm hp').symm.trans H.cells }

theorem replace {h' : Heap} {as' ls' : List Nat} (hrest : h'.chunks = h.chunks ∧ h'.brk = h.brk)
    (ring : Path h'.ptr base as' base) (freep : h'.freep ∈ base :: as')
    (base_size : h'.size base = 0) (gaps : Gaps h'.size (base :: as'))
    (pos : ∀ a ∈ as' ++ ls', 0 < h'.size a)
    (cells : List.Perm (Umalloc.cells h'.size (as' ++ ls')) (memory h.chunks)) :
    Ok base h' as' ls' where
  ring := ring
  freep := freep
  base_size := base_size
  gaps := gaps
  pos := pos
  cells := hrest.1 ▸ cells
  spread := hrest.1 ▸ H.spread
  above := by
    rw [hrest.1, hrest.2]
    exact H.above
  base_lt := hrest.2 ▸ H.base_lt
  small := hrest.1 ▸ H.small

/-- The next node of the ring is the next larger one, or `base` after the largest. -/
theorem next_node {y : Nat} (hy : y ∈ base :: as) :
    (h.ptr y = base ∧ ∀ z ∈ base :: as, z ≤ y) ∨
      (y < h.ptr y ∧ h.ptr y ∈ base :: as ∧ ∀ z ∈ base :: as, z ≤ y ∨ h.ptr y ≤ z) := by
  rcases append_of_mem hy with ⟨u, v, hs⟩
  have hnext := (H.ring.after hs).next_eq
  have hgaps := H.gaps
  rw [Gaps, hs, pairwise_append, pairwise_cons] at hgaps
  rw [hs]
  cases v with
  | nil =>
    refine Or.inl ⟨hnext, fun z hz => ?_⟩
    rcases mem_append.mp hz with hz | hz
    · have hlt := hgaps.2.2 z hz y mem_cons_self
      omega
    · exact Nat.le_of_eq (mem_singleton.mp hz)
  | cons x v =>
    have hx : h.ptr y = x := hnext
    have hyx := hgaps.2.1.1 x mem_cons_self
    rw [hx]
    refine Or.inr ⟨by omega, ?_, fun z hz => ?_⟩
    · exact mem_append_right _ (mem_cons_of_mem _ mem_cons_self)
    · rcases mem_append.mp hz with hz | hz
      · have hlt := hgaps.2.2 z hz y mem_cons_self
        omega
      · rcases mem_cons.mp hz with rfl | hz
        · omega
        · rcases mem_cons.mp hz with rfl | hz
          · omega
          · have hlt := (pairwise_cons.mp hgaps.2.1.2).1 z hz
            omega

end Ok

section Free

variable {base : Nat} {h : Heap} {as ls : List Nat}

/-- Where the loop of `free` stops. -/
def Stop (h : Heap) (bp p : Nat) : Prop :=
  (bp > p ∧ bp < h.ptr p) ∨ (p ≥ h.ptr p ∧ (bp > p ∨ bp < h.ptr p))

theorem seek_of_stop {bp q : Nat} (fuel k p : Nat) (hk : k < fuel)
    (hstop : Stop h bp (h.ptr^[k] p)) (honly : ∀ j, Stop h bp (h.ptr^[j] p) → h.ptr^[j] p = q) :
    seek h bp fuel p = .done q := by
  induction fuel generalizing k p with
  | zero => omega
  | succ fuel ih =>
    unfold seek
    by_cases h₁ : bp > p ∧ bp < h.ptr p
    · rw [if_pos h₁]
      exact congrArg Outcome.done (honly 0 (Or.inl h₁))
    rw [if_neg h₁]
    by_cases h₂ : p ≥ h.ptr p ∧ (bp > p ∨ bp < h.ptr p)
    · rw [if_pos h₂]
      exact congrArg Outcome.done (honly 0 (Or.inr h₂))
    rw [if_neg h₂]
    cases k with
    | zero =>
      rcases hstop with hstop | hstop
      · exact absurd hstop h₁
      · exact absurd hstop h₂
    | succ k =>
      refine ih k (h.ptr p) (by omega) ?_ (fun j hj => ?_)
      · rw [← iterate_succ_apply]
        exact hstop
      · rw [← iterate_succ_apply] at hj ⊢
        exact honly (j + 1) hj

theorem exists_below {bp : Nat} {l : List Nat} (hl : ∃ x ∈ l, x < bp) :
    ∃ p ∈ l, p < bp ∧ ∀ z ∈ l, z < bp → z ≤ p := by
  rcases hl with ⟨x, hx, hlt⟩
  have hmem : ∀ z, z ∈ l.toFinset.filter (· < bp) ↔ z ∈ l ∧ z < bp := by
    intro z
    rw [Finset.mem_filter, mem_toFinset]
  rcases Finset.exists_max_image _ id ⟨x, (hmem x).mpr ⟨hx, hlt⟩⟩ with ⟨p, hp, hmax⟩
  rcases (hmem p).mp hp with ⟨hpl, hpb⟩
  exact ⟨p, hpl, hpb, fun z hz hz' => hmax z ((hmem z).mpr ⟨hz, hz'⟩)⟩

theorem Ok.seek_eq (H : Ok base h as ls) {bp p : Nat} (hbase : base < bp) (hbp : bp ∉ base :: as)
    (hp : p ∈ base :: as) (hlt : p < bp) (hmax : ∀ z ∈ base :: as, z < bp → z ≤ p) (fuel : Nat)
    (hfuel : 2 * as.length + 3 ≤ fuel) : seek h bp fuel h.freep = .done p := by
  have hnodes := H.ring.iterate_node H.freep
  rcases H.ring.reach H.freep hp with ⟨k, hk, hkp⟩
  refine seek_of_stop fuel (k + 1) h.freep (by omega) ?_ (fun j hj => ?_)
  · rw [hkp]
    rcases H.next_node hp with ⟨hnext, hall⟩ | ⟨hpn, hnext, hall⟩
    · refine Or.inr ⟨?_, Or.inl hlt⟩
      rw [hnext]
      exact hall base mem_cons_self
    · refine Or.inl ⟨hlt, ?_⟩
      have hne : h.ptr p ≠ bp := fun he => hbp (he ▸ hnext)
      by_contra hge
      have hle := hmax _ hnext (by omega)
      omega
  · have hy := hnodes j
    rcases H.next_node hy with ⟨hnext, hall⟩ | ⟨hyn, hnext, hall⟩
    · have hbp' : h.ptr^[j] h.freep < bp := by
        rcases hj with hj | hj
        · exact hj.1
        · rw [hnext] at hj
          omega
      exact Nat.le_antisymm (hmax _ hy hbp') (hall p hp)
    · have hbetween : h.ptr^[j] h.freep < bp ∧ bp < h.ptr (h.ptr^[j] h.freep) := by
        rcases hj with hj | hj
        · exact hj
        · omega
      have hle := hmax _ hy hbetween.1
      rcases hall p hp with hpy | hpy
      · omega
      · omega

theorem gaps_congr {size size' : Nat → Nat} {l : List Nat} (h : Gaps size l)
    (hs : ∀ a ∈ l, size' a = size a) : Gaps size' l := by
  refine List.Pairwise.imp_of_mem (fun ha hb hab => ?_) h
  rw [hs _ ha]
  exact hab

/-- What `join` does to block `a` when the blocks of `c` come after it. -/
structure Joined (base : Nat) (h h' : Heap) (a : Nat) (c c' : List Nat) : Prop where
  path : Path h'.ptr a c' base
  ptr : ∀ x, x ≠ a → h'.ptr x = h.ptr x
  size : ∀ x, x ≠ a → h'.size x = h.size x
  grows : h.size a ≤ h'.size a
  cells : List.Perm (cells h'.size (a :: c')) (cells h.size (a :: c))
  gaps : Gaps h'.size (a :: c')
  sub : ∀ x ∈ c', x ∈ c
  length : c'.length ≤ c.length
  head : ∀ y, c.head? = some y → h.size y ≤ h'.size a ∨ y ∈ c'
  rest : h'.chunks = h.chunks ∧ h'.brk = h.brk

/-- A block is put before a chain of blocks. -/
theorem join_spec {h : Heap} {a x : Nat} {c : List Nat} (ha : a ∉ c) (hbase : base ≤ a)
    (hpos : 0 < h.size a ∨ c ≠ []) (hc : Path (update h.ptr a x) a c base)
    (hgaps : Gaps h.size c) (hle : ∀ z ∈ c, a + 16 * h.size a ≤ z)
    (hsmall : ∀ z ∈ c, h.size a + h.size z < 2 ^ 32) : ∃ c', Joined base h (h.join a x) a c c' := by
  have hx : x = c.head?.getD base := by
    have hnext := hc.next_eq
    rwa [update_self] at hnext
  have hne : ∀ z ∈ c, z ≠ a := fun z hz he => ha (he ▸ hz)
  unfold Heap.join
  by_cases ht : a + 16 * h.size a = x
  · rw [if_pos ht]
    cases c with
    | nil =>
      -- What comes next is `base`, which is below every block.
      have hxb : x = base := hx
      have hpos' := hpos.resolve_right (fun hc => hc rfl)
      omega
    | cons y r =>
      have hxy : x = y := hx
      subst hxy
      have hxa := hne x mem_cons_self
      have hsum : (h.size a + h.size x) % 2 ^ 32 = h.size a + h.size x :=
        Nat.mod_eq_of_lt (hsmall x mem_cons_self)
      rw [hsum]
      rcases pairwise_cons.mp hgaps with ⟨hxr, hr⟩
      have hsame : ∀ z, z ≠ a →
          update h.size a (h.size a + h.size x) z = h.size z :=
        fun z hz => update_of_ne hz _ _
      have hr' : ∀ z ∈ r, z ≠ a := fun z hz => hne z (mem_cons_of_mem x hz)
      refine ⟨r, ?_, fun z hz => update_of_ne hz _ _, hsame, ?_, ?_, ?_,
        fun z hz => mem_cons_of_mem x hz, Nat.le_succ _, fun y hy => Or.inl ?_, rfl, rfl⟩
      · refine hc.2.restart ?_ (fun z hz => ?_)
        · simp only [Heap.setPtr, Heap.setSize, update_self, update_of_ne hxa]
        · simp only [Heap.setPtr, Heap.setSize, update_of_ne (hr' z hz)]
      · simp only [Heap.setPtr, Heap.setSize, update_self]
        omega
      · refine List.Perm.of_eq ?_
        simp only [Heap.setPtr, Heap.setSize]
        rw [cells_cons, cells_cons, cells_cons, update_self, units_add,
          cells_congr (fun z hz => hsame z (hr' z hz)), ht, append_assoc]
      · refine pairwise_cons.mpr ⟨fun z hz => ?_, gaps_congr hr (fun z hz =>
          hsame z (hr' z hz))⟩
        have hlt := hxr z hz
        simp only [Heap.setPtr, Heap.setSize, update_self]
        omega
      · rw [← Option.some.inj hy]
        simp only [Heap.setPtr, Heap.setSize, update_self]
        omega
  · rw [if_neg ht]
    refine ⟨c, hc, fun z hz => update_of_ne hz _ _, fun z _ => rfl, Nat.le_refl _,
      List.Perm.refl _, ?_, fun z hz => hz, Nat.le_refl _,
      fun y hy => Or.inr (mem_of_mem_head? hy), rfl, rfl⟩
    refine pairwise_cons.mpr ⟨fun z hz => ?_, hgaps⟩
    have hz' := hle z hz
    simp only [Heap.setPtr]
    cases c with
    | nil => exact nomatch hz
    | cons y r =>
      have hxy : x = y := hx
      rcases mem_cons.mp hz with rfl | hz
      · omega
      · have hy := hle y mem_cons_self
        have hlt := (pairwise_cons.mp hgaps).1 z hz
        omega

/-- Where a live block belongs in the ring: after `p`, which has `w` before it and `r`
    after it. -/
structure Slot (base : Nat) (as : List Nat) (bp p : Nat) (w r : List Nat) : Prop where
  split : base :: as = w ++ p :: r
  lt : p < bp
  above : ∀ z ∈ r, bp < z

section Insert

variable {bp p : Nat} {w r : List Nat}

theorem Ok.not_node (H : Ok base h as (bp :: ls)) : bp ∉ base :: as := by
  have hmem : bp ∈ as ++ bp :: ls := mem_append_right _ mem_cons_self
  have hbase := H.base_lt_block hmem
  have hnd := H.nodup
  rw [nodup_append] at hnd
  rw [mem_cons, not_or]
  exact ⟨by omega, fun hm => hnd.2.2 bp hm bp mem_cons_self rfl⟩

theorem Ok.slot (H : Ok base h as (bp :: ls)) (fuel : Nat) (hfuel : 2 * as.length + 3 ≤ fuel) :
    ∃ p w r, Slot base as bp p w r ∧ seek h bp fuel h.freep = .done p := by
  have hbase := H.base_lt_block (mem_append_right as mem_cons_self)
  rcases exists_below ⟨base, mem_cons_self, hbase⟩ with ⟨p, hp, hlt, hmax⟩
  have hseek := H.seek_eq hbase H.not_node hp hlt hmax fuel hfuel
  rcases append_of_mem hp with ⟨w, r, hs⟩
  refine ⟨p, w, r, ⟨hs, hlt, fun z hz => ?_⟩, hseek⟩
  have hgaps := H.gaps
  rw [Gaps, hs, pairwise_append, pairwise_cons] at hgaps
  have hpz := hgaps.2.1.1 z hz
  have hmem : z ∈ base :: as := hs ▸ mem_append_right _ (mem_cons_of_mem p hz)
  have hne : z ≠ bp := fun he => H.not_node (he ▸ hmem)
  by_contra hge
  have hle := hmax z hmem (by omega)
  omega

theorem Slot.mem_rest (S : Slot base as bp p w r) (hbase : base < bp) {z : Nat} (hz : z ∈ r) :
    z ∈ as := by
  have hmem : z ∈ base :: as := S.split ▸ mem_append_right _ (mem_cons_of_mem p hz)
  have hgt := S.above z hz
  exact (mem_cons.mp hmem).resolve_left (by omega)

theorem Slot.node (S : Slot base as bp p w r) : p = base ∨ p ∈ as :=
  mem_cons.mp (S.split ▸ mem_append_right _ mem_cons_self)

theorem Ok.join_rest (H : Ok base h as (bp :: ls)) (S : Slot base as bp p w r) :
    ∃ c, Joined base h (h.join bp (h.ptr p)) bp r c := by
  have hmem : bp ∈ as ++ bp :: ls := mem_append_right _ mem_cons_self
  have hbase := H.base_lt_block hmem
  have hgaps := H.gaps
  rw [Gaps, S.split, pairwise_append, pairwise_cons] at hgaps
  have hrest : ∀ z ∈ r, z ∈ as ++ bp :: ls :=
    fun z hz => mem_append_left _ (S.mem_rest hbase hz)
  refine join_spec (fun hm => ?_) (Nat.le_of_lt hbase) (Or.inl (H.pos bp hmem)) ?_
    hgaps.2.1.2 (fun z hz => H.apart hmem (hrest z hz) (S.above z hz))
    (fun z hz => H.size_add_lt hmem (hrest z hz) (Nat.ne_of_lt (S.above z hz)))
  · exact Nat.lt_irrefl bp (S.above bp hm)
  · refine (H.ring.after S.split).restart (update_self ..) (fun z hz => ?_)
    exact update_of_ne (Nat.ne_of_gt (S.above z hz)) _ _

theorem Ok.cells_slot (H : Ok base h as (bp :: ls)) (S : Slot base as bp p w r) :
    List.Perm (Umalloc.cells h.size (w ++ (p :: bp :: r) ++ ls)) (memory h.chunks) := by
  refine List.Perm.trans ?_ H.cells
  have hz : Umalloc.cells h.size (base :: as ++ bp :: ls) =
      Umalloc.cells h.size (as ++ bp :: ls) := by
    rw [cons_append, cells_cons, H.base_size]
    rfl
  rw [← hz, S.split]
  refine cells_perm ?_
  simp only [append_assoc, cons_append]
  refine List.Perm.append_left w (List.Perm.cons p ?_)
  rw [← cons_append]
  exact (@perm_middle _ bp r ls).symm

theorem Ok.join_node (H : Ok base h as (bp :: ls)) (S : Slot base as bp p w r) {c : List Nat}
    (J : Joined base h (h.join bp (h.ptr p)) bp r c) :
    ∃ c', Joined base (h.join bp (h.ptr p)) ((h.join bp (h.ptr p)).join p bp) p (bp :: c) c' := by
  have hmem : bp ∈ as ++ bp :: ls := mem_append_right _ mem_cons_self
  have hbase := H.base_lt_block hmem
  have hsize : (h.join bp (h.ptr p)).size p = h.size p := J.size p (Nat.ne_of_lt S.lt)
  have hblocks : ∀ z ∈ bp :: c, z ∈ as ++ bp :: ls ∧ p < z := by
    intro z hz
    rcases mem_cons.mp hz with rfl | hz
    · exact ⟨hmem, S.lt⟩
    · have hz' := J.sub z hz
      exact ⟨mem_append_left _ (S.mem_rest hbase hz'), S.lt.trans (S.above z hz')⟩
  -- The size of two blocks that are joined does not overflow.
  have hroom : h.size p + (Umalloc.cells h.size (bp :: r)).length < 2 ^ 32 := by
    have hle := (H.cells_slot S).length_eq
    rw [cells_append, cells_append, cells_cons _ p, length_append, length_append,
      length_append, length_units] at hle
    have hsmall := H.small
    omega
  refine join_spec
    (fun hm => Nat.lt_irrefl p (hblocks p hm).2) ?_ (Or.inr (cons_ne_nil _ _))
    ⟨update_self .., J.path.congr (fun z hz =>
      update_of_ne (Nat.ne_of_gt (hblocks z hz).2) _ _)⟩
    J.gaps (fun z hz => ?_) (fun z hz => ?_)
  · rcases S.node with rfl | hp
    · exact Nat.le_refl _
    · exact Nat.le_of_lt (H.base_lt_block (mem_append_left _ hp))
  · rw [hsize]
    rcases S.node with rfl | hp
    · rw [H.base_size]
      exact Nat.le_of_lt (hblocks z hz).2
    · exact H.apart (mem_append_left _ hp) (hblocks z hz).1 (hblocks z hz).2
  · have hsub := (@units_sublist (h.join bp (h.ptr p)).size _ z hz).length_le
    rw [length_units, J.cells.length_eq] at hsub
    rw [hsize]
    omega

/-- What is known of the heap after both. -/
structure Inserted (base : Nat) (h h' : Heap) (bp p : Nat) (r c' : List Nat) : Prop where
  path : Path h'.ptr p c' base
  same : ∀ z, z ≠ p → z ≠ bp → h'.ptr z = h.ptr z ∧ h'.size z = h.size z
  base_size : h'.size base = 0
  grows : h.size p ≤ h'.size p ∧ h.size bp ≤ h'.size bp
  found : h.size bp ≤ h'.size p ∨ bp ∈ c'
  cells : List.Perm (cells h'.size (p :: c')) (cells h.size (p :: bp :: r))
  gaps : Gaps h'.size (p :: c')
  sub : ∀ z ∈ c', z = bp ∨ z ∈ r
  length : c'.length ≤ r.length + 1
  rest : h'.chunks = h.chunks ∧ h'.brk = h.brk

theorem Inserted.le_size {h' : Heap} {c' : List Nat} (I : Inserted base h h' bp p r c') (z : Nat) :
    h.size z ≤ h'.size z := by
  by_cases hp : z = p
  · exact hp ▸ I.grows.1
  by_cases hb : z = bp
  · exact hb ▸ I.grows.2
  · exact (I.same z hp hb).2.ge

theorem Ok.inserted (H : Ok base h as (bp :: ls)) (S : Slot base as bp p w r) :
    ∃ c', Inserted base h ((h.join bp (h.ptr p)).join p bp) bp p r c' := by
  have hbase := H.base_lt_block (mem_append_right as mem_cons_self)
  rcases H.join_rest S with ⟨c, J⟩
  rcases H.join_node S J with ⟨c', J'⟩
  have hpbp : p ≠ bp := Nat.ne_of_lt S.lt
  have hsize := J.size p hpbp
  refine ⟨c', J'.path, fun z h₁ h₂ => ⟨(J'.ptr z h₁).trans (J.ptr z h₂),
    (J'.size z h₁).trans (J.size z h₂)⟩, ?_, ⟨?_, ?_⟩, ?_, J'.cells.trans ?_, J'.gaps,
    fun z hz => (mem_cons.mp (J'.sub z hz)).imp_right (J.sub z), ?_,
    J'.rest.1.trans J.rest.1, J'.rest.2.trans J.rest.2⟩
  · -- `base` has no units, so it touches nothing.
    by_cases hpb : p = base
    · have hno : ¬p + 16 * (h.join bp (h.ptr p)).size p = bp := by
        rw [hsize, hpb, H.base_size]
        omega
      rw [Heap.join, if_neg hno, ← hpb]
      exact hsize.trans (hpb ▸ H.base_size)
    · rw [J'.size base (Ne.symm hpb), J.size base (Nat.ne_of_lt hbase)]
      exact H.base_size
  · exact hsize ▸ J'.grows
  · rw [J'.size bp (Ne.symm hpbp)]
    exact J.grows
  · exact (J'.head bp rfl).imp_left (fun hle => J.grows.trans hle)
  · rw [cells_cons, cells_cons, hsize]
    exact List.Perm.append_left _ J.cells
  · have h₁ := J'.length
    have h₂ := J.length
    rw [length_cons] at h₁
    omega

theorem free_ok (H : Ok base h as (bp :: ls)) (fuel : Nat) (hfuel : 2 * as.length + 3 ≤ fuel) :
    ∃ h' as', free fuel h (bp + 16) = .done h' ∧ Ok base h' as' ls ∧
      (∀ b ∈ ls, h'.size b = h.size b) ∧ (h'.chunks = h.chunks ∧ h'.brk = h.brk) ∧
      as'.length ≤ as.length + 1 ∧ ∃ a ∈ as', h.size bp ≤ h'.size a := by
  have hmem : bp ∈ as ++ bp :: ls := mem_append_right _ mem_cons_self
  have hbase := H.base_lt_block hmem
  rcases H.slot fuel hfuel with ⟨p, w, r, S, hseek⟩
  rcases H.inserted S with ⟨c', I⟩
  generalize hh : (h.join bp (h.ptr p)).join p bp = h' at I
  have hgaps := H.gaps
  rw [Gaps, S.split, pairwise_append] at hgaps
  rcases hgaps with ⟨hgw, -, hcross⟩
  -- The nodes before `p` and the other live blocks are as they were.
  have hw : ∀ z ∈ w, h'.ptr z = h.ptr z ∧ h'.size z = h.size z := by
    intro z hz
    have hzp := hcross z hz p mem_cons_self
    have hlt := S.lt
    exact I.same z (by omega) (by omega)
  have hnd := H.nodup
  rw [nodup_append] at hnd
  have hls : ∀ b ∈ ls, h'.size b = h.size b := by
    intro b hb
    refine (I.same b (fun he => ?_) (fun he => (nodup_cons.mp hnd.2.1).1 (he ▸ hb))).2
    rcases S.node with hpb | hpas
    · have hgt := H.base_lt_block (mem_append_right as (mem_cons_of_mem bp hb))
      omega
    · exact hnd.2.2 b (he ▸ hpas) b (mem_cons_of_mem bp hb) rfl
  rcases H.ring.splice S.split (fun z hz => (hw z hz).1) I.path with ⟨as', hs', hring⟩
  have hgaps' : Gaps h'.size (base :: as') := by
    rw [Gaps, hs', pairwise_append]
    refine ⟨gaps_congr hgw (fun z hz => (hw z hz).2), I.gaps, fun z hz y hy => ?_⟩
    rw [(hw z hz).2]
    have hzp := hcross z hz p mem_cons_self
    rcases mem_cons.mp hy with rfl | hy
    · exact hzp
    · refine hzp.trans (S.lt.trans_le ?_)
      rcases I.sub y hy with rfl | hy
      · exact Nat.le_refl _
      · exact Nat.le_of_lt (S.above y hy)
  have hsub : ∀ a ∈ as', a ∈ as ++ bp :: ls := by
    intro a ha
    have hlt := (pairwise_cons.mp hgaps').1 a ha
    have hold : a = bp ∨ a ∈ base :: as := by
      have ha' : a ∈ w ++ p :: c' := hs' ▸ mem_cons_of_mem base ha
      rw [S.split, mem_append, mem_cons]
      rw [mem_append, mem_cons] at ha'
      have hc' := I.sub a
      tauto
    rcases hold with rfl | hold
    · exact hmem
    · exact mem_append_left _ ((mem_cons.mp hold).resolve_left (by omega))
  have hcells : List.Perm (Umalloc.cells h'.size (as' ++ ls)) (memory h.chunks) := by
    have hz : Umalloc.cells h'.size (base :: as' ++ ls) = Umalloc.cells h'.size (as' ++ ls) := by
      rw [cons_append, cells_cons, I.base_size]
      rfl
    rw [← hz, hs']
    refine List.Perm.trans ?_ (H.cells_slot S)
    rw [cells_append, cells_append, cells_append, cells_append,
      cells_congr (fun z hz => (hw z hz).2), cells_congr hls]
    exact List.Perm.append_right _ (List.Perm.append_left _ I.cells)
  have hfree : free fuel h (bp + 16) = .done { h' with freep := p } := by
    unfold free
    simp only [Nat.add_sub_cancel, hseek, Outcome.done_bind, Outcome.pure_eq, hh]
  have hnode : ∀ z ∈ p :: c', z ∈ base :: as' := fun z hz => hs' ▸ mem_append_right w hz
  refine ⟨_, as', hfree, ?_, hls, I.rest, ?_, ?_⟩
  · refine H.replace I.rest hring (hnode p mem_cons_self) I.base_size hgaps' (fun a ha => ?_) hcells
    refine (H.pos a ?_).trans_le (I.le_size a)
    rcases mem_append.mp ha with ha | ha
    · exact hsub a ha
    · exact mem_append_right as (mem_cons_of_mem bp ha)
  · have h₁ := congrArg length S.split
    have h₂ := congrArg length hs'
    have h₃ := I.length
    simp only [length_cons, length_append] at h₁ h₂
    omega
  · -- The block is a node now, or part of `p`.
    have hpos := H.pos bp hmem
    rcases I.found with hle | hc'
    · have hpb : p ≠ base := by
        intro he
        rw [he, I.base_size] at hle
        omega
      exact ⟨p, (mem_cons.mp (hnode p mem_cons_self)).resolve_left hpb, hle⟩
    · have hbp' := hnode bp (mem_cons_of_mem p hc')
      exact ⟨bp, (mem_cons.mp hbp').resolve_left (Nat.ne_of_gt hbase), I.grows.2⟩

end Insert

end Free

section Malloc

variable {base : Nat} {h : Heap} {as ls : List Nat}

theorem Ok.congr (H : Ok base h as ls) {h' : Heap}
    (hsame : ∀ z ∈ base :: (as ++ ls), h'.ptr z = h.ptr z ∧ h'.size z = h.size z)
    (hf : h'.freep = h.freep) (hc : h'.chunks = h.chunks) (hb : h'.brk = h.brk) :
    Ok base h' as ls := by
  have hnode : ∀ z ∈ base :: as, z ∈ base :: (as ++ ls) := by
    intro z hz
    exact (mem_cons.mp hz).elim (fun he => he ▸ mem_cons_self)
      (fun hz => mem_cons_of_mem base (mem_append_left ls hz))
  have hblock : ∀ z ∈ as ++ ls, h'.size z = h.size z :=
    fun z hz => (hsame z (mem_cons_of_mem base hz)).2
  refine H.replace ⟨hc, hb⟩ (H.ring.congr (fun z hz => (hsame z (hnode z hz)).1)) (hf ▸ H.freep)
    ((hsame base mem_cons_self).2.trans H.base_size)
    (gaps_congr H.gaps (fun z hz => (hsame z (hnode z hz)).2)) (fun a ha => ?_) ?_
  · rw [hblock a ha]
    exact H.pos a ha
  · rw [cells_congr hblock]
    exact H.cells

/-- What a call of `malloc` leaves of the heap: `b` is the new block. -/
structure Taken (base : Nat) (h h' : Heap) (as' ls : List Nat) (b n : Nat) : Prop where
  ok : Ok base h' as' (b :: ls)
  size : h'.size b = n
  live : ∀ l ∈ ls, h'.size l = h.size l

theorem take_whole {q p : Nat} (H : Ok base h as ls) (hq : q ∈ base :: as) (hp : p = h.ptr q)
    (hpos : 0 < h.size p) :
    ∃ as', Taken base h { h.setPtr q (h.ptr p) with freep := q } as' ls p (h.size p) ∧
      as'.length ≤ as.length := by
  have hpb : p ≠ base := by
    intro he
    rw [he, H.base_size] at hpos
    omega
  rcases append_of_mem hq with ⟨w, v, hs⟩
  have hafter := H.ring.after hs
  cases v with
  | nil => exact absurd (hp.trans hafter) hpb
  | cons x r =>
    have hpx : p = x := hp.trans hafter.1
    subst hpx
    have hgaps := H.gaps
    rw [Gaps, hs, pairwise_append, pairwise_cons] at hgaps
    have hne : ∀ z ∈ w ++ r, z ≠ q := by
      intro z hz
      rcases mem_append.mp hz with hz | hz
      · have hlt := hgaps.2.2 z hz q mem_cons_self
        omega
      · have hlt := hgaps.2.1.1 z (mem_cons_of_mem p hz)
        omega
    have hw : ∀ z ∈ w, update h.ptr q (h.ptr p) z = h.ptr z :=
      fun z hz => update_of_ne (hne z (mem_append_left _ hz)) _ _
    rcases H.ring.splice hs hw
      (hafter.2.restart (update_self ..) (fun z hz =>
        update_of_ne (hne z (mem_append_right _ hz)) _ _)) with ⟨as', hs', hring⟩
    have hsub : List.Sublist (base :: as') (base :: as) := by
      rw [hs, hs']
      exact (List.Sublist.refl w).append (List.Sublist.cons_cons q (sublist_cons_self p r))
    -- The block moves from the free blocks to the live ones.
    have hperm : List.Perm (as' ++ p :: ls) (as ++ ls) := by
      have hlist : List.Perm (base :: as' ++ p :: ls) (base :: as ++ ls) := by
        rw [hs, hs']
        simp only [append_assoc, cons_append]
        exact List.Perm.append_left w (List.Perm.cons q perm_middle)
      exact List.Perm.cons_inv hlist
    refine ⟨as', ⟨?_, rfl, fun l _ => rfl⟩, ?_⟩
    · refine H.replace ⟨rfl, rfl⟩ hring ?_ H.base_size (H.gaps.sublist hsub)
        (fun a ha => H.pos a (hperm.mem_iff.mp ha)) ((cells_perm hperm).trans H.cells)
      rw [hs']
      exact mem_append_right _ mem_cons_self
    · have hlen := hsub.length_le
      rw [length_cons, length_cons] at hlen
      omega

theorem take_tail {q p n : Nat} (H : Ok base h as ls) (hq : q ∈ base :: as) (hp : p = h.ptr q)
    (hn : 0 < n) (hlt : n < h.size p) :
    Taken base h
      { (h.setSize p (h.size p - n)).setSize (p + 16 * (h.size p - n)) n with freep := q }
      as ls (p + 16 * (h.size p - n)) n := by
  have hnode : h.ptr q ∈ base :: as := H.ring.iterate_node hq 1
  rw [← hp] at hnode
  have hpas : p ∈ as := by
    refine (mem_cons.mp hnode).resolve_left (fun he => ?_)
    rw [he, H.base_size] at hlt
    omega
  have hpall : p ∈ as ++ ls := mem_append_left _ hpas
  generalize hb : p + 16 * (h.size p - n) = b
  have hbp : b ≠ p := by omega
  have hbu : b ∈ units p (h.size p) := (mem_units _ _ _).mpr ⟨h.size p - n, by omega, hb.symm⟩
  -- The new block starts inside `p`, so no other block starts there.
  have hbnew : b ∉ as ++ ls := fun hm =>
    units_disjoint H.nodup_cells hpall hm (Ne.symm hbp) hbu (self_mem_units (H.pos b hm))
  have hbase := H.base_lt_block hpall
  have hother : ∀ z, z ≠ p → z ≠ b →
      update (update h.size p (h.size p - n)) b n z = h.size z := by
    intro z h₁ h₂
    rw [update_of_ne h₂, update_of_ne h₁]
  have hsize_p : update (update h.size p (h.size p - n)) b n p = h.size p - n := by
    rw [update_of_ne (Ne.symm hbp), update_self]
  have hsize_b : update (update h.size p (h.size p - n)) b n b = n := update_self ..
  simp only [Heap.setSize]
  generalize update (update h.size p (h.size p - n)) b n = size' at hother hsize_p hsize_b
  have hle : ∀ z ∈ as ++ ls, size' z ≤ h.size z := by
    intro z hz
    by_cases hzp : z = p
    · rw [hzp, hsize_p]
      omega
    · rw [hother z hzp (fun he => hbnew (he ▸ hz))]
  have hls : ∀ l ∈ ls, size' l = h.size l := by
    intro l hl
    have hnd := nodup_append.mp H.nodup
    exact hother l (fun he => hnd.2.2 p hpas l hl he.symm)
      (fun he => hbnew (he ▸ mem_append_right as hl))
  refine ⟨H.replace ⟨rfl, rfl⟩ H.ring hq ?_ ?_ (fun a ha => ?_) (List.Perm.trans ?_ H.cells),
    hsize_b, hls⟩
  · exact (hother base (by omega) (by omega)).trans H.base_size
  · refine List.Pairwise.imp_of_mem (fun {x y} hx _ hxy => ?_) H.gaps
    change x + 16 * size' x < y
    rcases mem_cons.mp hx with hxb | hx
    · rw [hxb, hother base (by omega) (by omega), ← hxb]
      exact hxy
    · have hxle := hle x (mem_append_left _ hx)
      omega
  · change 0 < size' a
    by_cases hab : a = b
    · rw [hab, hsize_b]
      exact hn
    by_cases hap : a = p
    · rw [hap, hsize_p]
      omega
    · rw [hother a hap hab]
      refine H.pos a ?_
      rcases mem_append.mp ha with ha | ha
      · exact mem_append_left _ ha
      · exact mem_append_right _ ((mem_cons.mp ha).resolve_left hab)
  · change List.Perm (Umalloc.cells size' (as ++ b :: ls)) _
    rcases append_of_mem hpas with ⟨l, r, rfl⟩
    have hnd := H.nodup
    have hmove : List.Perm (l ++ p :: r ++ ls) (p :: (l ++ r ++ ls)) := by
      simp only [append_assoc, cons_append]
      exact perm_middle
    rw [hmove.nodup_iff, nodup_cons] at hnd
    have hmove' : List.Perm (l ++ p :: r ++ b :: ls) (p :: b :: (l ++ r ++ ls)) := by
      refine List.Perm.trans perm_middle (List.Perm.trans (List.Perm.cons b hmove) ?_)
      exact List.Perm.swap p b _
    refine (cells_perm hmove').trans (List.Perm.trans ?_ (cells_perm hmove).symm)
    refine List.Perm.of_eq ?_
    have hsplit : units p (h.size p) = units p (h.size p - n) ++ units b n := by
      rw [← hb, ← units_add, Nat.sub_add_cancel (Nat.le_of_lt hlt)]
    have hrest : Umalloc.cells size' (l ++ r ++ ls) = Umalloc.cells h.size (l ++ r ++ ls) := by
      refine cells_congr (fun z hz => hother z (fun he => hnd.1 (he ▸ hz)) (fun he => ?_))
      refine hbnew (hmove.mem_iff.mpr (mem_cons_of_mem p ?_))
      rw [← he]
      exact hz
    rw [cells_cons, cells_cons, cells_cons, hsize_p, hsize_b, hsplit, hrest,
      append_assoc (units p (h.size p - n))]

/-- The block that was found is taken, or its tail. -/
theorem take_ok {q p n : Nat} (H : Ok base h as ls) (hq : q ∈ base :: as) (hp : p = h.ptr q)
    (hn : 0 < n) (hle : n ≤ h.size p) :
    ∃ h' as' b, h.take q p n = (h', b + 16) ∧ Taken base h h' as' ls b n ∧
      as'.length ≤ as.length := by
  unfold Heap.take
  by_cases he : h.size p = n
  · rw [if_pos he]
    rcases take_whole H hq hp (by omega) with ⟨as', hT, hlen⟩
    rw [he] at hT
    exact ⟨_, as', p, rfl, hT, hlen⟩
  · rw [if_neg he]
    have hT := take_tail H hq hp hn (by omega)
    refine ⟨_, as, p + 16 * (h.size p - n), ?_, hT, Nat.le_refl _⟩
    simp only [Heap.setSize, update_self]

theorem search_go {n q p : Nat} (fuel : Nat) (replies : List (Option Nat)) (h₁ : ¬n ≤ h.size p)
    (h₂ : p ≠ h.freep) :
    search n (fuel + 1) replies h q p = search n fuel replies h p (h.ptr p) := by
  rw [search.eq_def n (fuel + 1)]
  simp only [if_neg h₁, if_neg h₂]

/-- The loop of `malloc` goes on while there is nothing to stop it. -/
theorem search_skip (n fuel k : Nat) (replies : List (Option Nat)) (q p : Nat)
    (hno : ∀ i, i < k → ¬n ≤ h.size (h.ptr^[i] p) ∧ h.ptr^[i] p ≠ h.freep) (hp : p = h.ptr q) :
    search n (fuel + k) replies h q p =
      search n fuel replies h (h.ptr^[k] q) (h.ptr^[k] p) := by
  induction k generalizing q p with
  | zero => rfl
  | succ k ih =>
    have h0 : ¬n ≤ h.size p ∧ p ≠ h.freep := hno 0 (Nat.succ_pos k)
    rw [← Nat.add_assoc, search_go (fuel + k) replies h0.1 h0.2, ih p (h.ptr p) ?_ rfl,
      iterate_succ_apply, iterate_succ_apply, ← hp]
    intro i hi
    have hi' := hno (i + 1) (Nat.succ_lt_succ hi)
    rw [iterate_succ_apply] at hi'
    exact hi'

/-- One round of the loop: it comes to a block that is large enough, or back to `freep`
    when there is none. -/
theorem search_round (H : Ok base h as ls) (n fuel : Nat) (replies : List (Option Nat))
    (hfuel : 2 * as.length + 3 ≤ fuel) :
    ∃ q fuel', q ∈ base :: as ∧ fuel ≤ fuel' + 2 * as.length + 2 ∧
      search n fuel replies h h.freep (h.ptr h.freep) =
        search n (fuel' + 1) replies h q (h.ptr q) ∧
      (n ≤ h.size (h.ptr q) ∨ (h.ptr q = h.freep ∧ ∀ z ∈ base :: as, h.size z < n)) := by
  have hex : ∃ k, n ≤ h.size (h.ptr^[k + 1] h.freep) ∨ h.ptr^[k + 1] h.freep = h.freep := by
    rcases H.ring.reach H.freep H.freep with ⟨k, -, hk⟩
    exact ⟨k, Or.inr hk⟩
  -- The first place where the loop stops.
  have hfind := Nat.find_spec hex
  have hmin := fun i (hi : i < Nat.find hex) => Nat.find_min hex hi
  have hbound : Nat.find hex < 2 * as.length + 2 := by
    rcases H.ring.reach H.freep H.freep with ⟨k, hk, hkp⟩
    exact Nat.lt_of_le_of_lt (Nat.find_min' hex (Or.inr hkp)) hk
  generalize Nat.find hex = k at hfind hmin hbound
  refine ⟨h.ptr^[k] h.freep, fuel - k - 1, H.ring.iterate_node H.freep k, by omega, ?_, ?_⟩
  · have hskip := search_skip (h := h) n (fuel - k - 1 + 1) k replies h.freep (h.ptr h.freep)
      (fun i hi => ?_) rfl
    · rw [show fuel - k - 1 + 1 + k = fuel by omega] at hskip
      rw [hskip, ← iterate_succ_apply, iterate_succ_apply']
    · have hi' := hmin i hi
      rw [not_or, iterate_succ_apply] at hi'
      exact hi'
  · rw [← iterate_succ_apply' h.ptr k]
    by_cases hle : n ≤ h.size (h.ptr^[k + 1] h.freep)
    · exact Or.inl hle
    · refine Or.inr ⟨hfind.resolve_left hle, fun z hz => ?_⟩
      rcases H.ring.covers H.freep hz (hfind.resolve_left hle) with ⟨j, hj, hjz⟩
      rw [← hjz]
      rcases Nat.lt_or_eq_of_le hj with hj | rfl
      · exact Nat.lt_of_not_le (fun hle' => hmin j hj (Or.inl hle'))
      · exact Nat.lt_of_not_le hle

theorem memory_append (chunks : List (Nat × Nat)) (a n : Nat) :
    memory (chunks ++ [(a, n)]) = memory chunks ++ units a n := by
  rw [memory, flatMap_append, flatMap_singleton]
  rfl

theorem length_memory (chunks : List (Nat × Nat)) : (memory chunks).length = total chunks := by
  induction chunks with
  | nil => rfl
  | cons c chunks ih =>
    rw [memory, flatMap_cons, length_append, length_units]
    change c.2 + (memory chunks).length = total (c :: chunks)
    rw [ih]
    rfl

/-- What `sbrk` returns is a live block until `morecore` has freed it. -/
theorem Ok.grow (H : Ok base h as ls) {a nu : Nat} (hnu : 0 < nu) (ha : h.brk ≤ a)
    (hsum : total h.chunks + nu < 2 ^ 32) :
    Ok base (({ h with chunks := h.chunks ++ [(a, nu)], brk := a + 16 * nu } : Heap).setSize a nu)
      as (a :: ls) := by
  have hbrk := H.base_lt
  have hold : ∀ z ∈ as ++ ls, z ≠ a := by
    intro z hz
    have hz' := (H.above z (H.mem_memory hz)).2
    omega
  have hsame : ∀ z ∈ as ++ ls, update h.size a nu z = h.size z :=
    fun z hz => update_of_ne (hold z hz) _ _
  have hbase : update h.size a nu base = 0 := by
    rw [update_of_ne (by omega)]
    exact H.base_size
  refine { ring := H.ring, freep := H.freep, base_size := hbase, gaps := ?_
           pos := fun z hz => ?_, cells := ?_, spread := ?_, above := fun u hu => ?_
           base_lt := ?_, small := ?_ }
  · refine gaps_congr H.gaps (fun z hz => ?_)
    rcases mem_cons.mp hz with rfl | hz
    · exact hbase.trans H.base_size.symm
    · exact hsame z (mem_append_left _ hz)
  · change 0 < update h.size a nu z
    rcases mem_append.mp hz with hz | hz
    · rw [hsame z (mem_append_left _ hz)]
      exact H.pos z (mem_append_left _ hz)
    · rcases mem_cons.mp hz with rfl | hz
      · rw [update_self]
        exact hnu
      · rw [hsame z (mem_append_right _ hz)]
        exact H.pos z (mem_append_right _ hz)
  · change List.Perm (Umalloc.cells (update h.size a nu) (as ++ a :: ls))
      (memory (h.chunks ++ [(a, nu)]))
    rw [memory_append]
    refine (cells_perm perm_middle).trans ?_
    rw [cells_cons, update_self, cells_congr hsame]
    exact perm_append_comm.trans (List.Perm.append_right _ H.cells)
  · change Spread (memory (h.chunks ++ [(a, nu)]))
    rw [memory_append]
    refine pairwise_append.mpr ⟨H.spread, spread_units a nu, fun u hu v hv => ?_⟩
    have hu' := (H.above u hu).2
    rcases (mem_units _ _ _).mp hv with ⟨i, -, rfl⟩
    omega
  · change u ∈ memory (h.chunks ++ [(a, nu)]) at hu
    change base < u ∧ u + 16 ≤ a + 16 * nu
    rw [memory_append] at hu
    rcases mem_append.mp hu with hu | hu
    · have hu' := H.above u hu
      omega
    · rcases (mem_units _ _ _).mp hu with ⟨i, hi, rfl⟩
      omega
  · change base < a + 16 * nu
    omega
  · change (memory (h.chunks ++ [(a, nu)])).length < 2 ^ 32
    rw [length_memory, total, map_append, sum_append]
    exact hsum

theorem le_coreUnits (n : Nat) : n ≤ coreUnits n ∧ 0 < coreUnits n := by
  unfold coreUnits
  split <;> omega

theorem morecore_ok (H : Ok base h as ls) {a n : Nat} (ha : h.brk ≤ a)
    (hsum : total h.chunks + coreUnits n < 2 ^ 32) (fuel : Nat)
    (hfuel : 2 * as.length + 3 ≤ fuel) :
    ∃ h' as', morecore fuel h n a = .done h' ∧ Ok base h' as' ls ∧
      (∀ b ∈ ls, h'.size b = h.size b) ∧ as'.length ≤ as.length + 1 ∧
      ∃ z ∈ as', n ≤ h'.size z := by
  have hcore := le_coreUnits n
  rcases free_ok (H.grow hcore.2 ha hsum) fuel hfuel with
    ⟨h', as', hfree, hok, hlive, -, hlen, z, hz, hsize⟩
  refine ⟨h', as', hfree, hok, fun b hb => ?_, hlen, z, hz, ?_⟩
  · have hb' := (H.above b (H.mem_memory (mem_append_right as hb))).2
    rw [hlive b hb]
    exact update_of_ne (by omega) _ _
  · refine hcore.1.trans (Nat.le_trans (Nat.le_of_eq ?_) hsize)
    simp only [Heap.setSize, update_self]

/-- What `malloc` does: there is a new block of `n` units, or the heap has none for it. -/
def Served (base : Nat) (h : Heap) (as ls : List Nat) (n : Nat) (r : Heap × Nat) : Prop :=
  (r.2 = 0 ∧ Ok base r.1 as ls ∧ ∀ b ∈ ls, r.1.size b = h.size b) ∨
    ∃ as' b, r.2 = b + 16 ∧ Taken base h r.1 as' ls b n ∧ as'.length ≤ as.length + 1

theorem search_ok (H : Ok base h as ls) (n fuel : Nat) (hn : 0 < n) (replies : List (Option Nat))
    (hfresh : Fresh (coreUnits n) replies h.brk (total h.chunks) = true)
    (hfuel : 8 * as.length + 16 ≤ fuel) :
    ∃ r, search n fuel replies h h.freep (h.ptr h.freep) = .done r ∧ Served base h as ls n r := by
  rcases search_round H n fuel replies (by omega) with ⟨q, fuel', hq, hfuel', hround, hstop⟩
  rw [hround]
  by_cases hle : n ≤ h.size (h.ptr q)
  · rcases take_ok H hq rfl hn hle with ⟨h', as', b, htake, hT, hlen⟩
    refine ⟨(h', b + 16), ?_, Or.inr ⟨as', b, rfl, hT, by omega⟩⟩
    rw [search.eq_def]
    simp only [if_pos hle, htake]
  · rcases hstop.resolve_left hle with ⟨hfreep, -⟩
    have hnone : ∀ rs, (∀ a rs', rs ≠ some a :: rs') →
        search n (fuel' + 1) rs h q (h.ptr q) = .done (h, 0) := by
      intro rs hrs
      rw [search.eq_def]
      simp only [if_neg hle, if_pos hfreep]
    have hfail : Served base h as ls n (h, 0) := Or.inl ⟨rfl, H, fun _ _ => rfl⟩
    cases replies with
    | nil => exact ⟨_, hnone [] nofun, hfail⟩
    | cons reply replies =>
      cases reply with
      | none => exact ⟨_, hnone (none :: replies) nofun, hfail⟩
      | some a =>
        simp only [Fresh, Bool.and_eq_true, decide_eq_true_eq] at hfresh
        rcases morecore_ok H hfresh.1.1 hfresh.1.2 fuel' (by omega) with
          ⟨h₁, as₁, hmore, H₁, hlive₁, hlen₁, z, hz, hsize⟩
        -- The second round finds the new block, or one before it.
        rcases search_round H₁ n fuel' replies (by omega) with
          ⟨q₁, fuel₁, hq₁, -, hround₁, hstop₁⟩
        have hle₁ : n ≤ h₁.size (h₁.ptr q₁) := by
          refine hstop₁.resolve_right (fun hno => ?_)
          have hlt := hno.2 z (mem_cons_of_mem base hz)
          omega
        rcases take_ok H₁ hq₁ rfl hn hle₁ with ⟨h₂, as₂, b, htake, hT, hlen⟩
        refine ⟨(h₂, b + 16), ?_, Or.inr ⟨as₂, b, rfl, ⟨hT.ok, hT.size, fun l hl => ?_⟩,
          by omega⟩⟩
        · rw [search.eq_def]
          simp only [if_neg hle, if_pos hfreep, hmore, Outcome.done_bind]
          rw [hround₁, search.eq_def]
          simp only [if_pos hle₁, htake]
        · rw [hT.live l hl, hlive₁ l hl]

end Malloc

section Runs

variable {base : Nat}

/-- What holds of a program's heap after at most `k` calls. -/
def Inv (base k : Nat) (s : System) : Prop :=
  (s.heap.freep = 0 ∧ s.live = [] ∧ s.heap.chunks = [] ∧ base < s.heap.brk) ∨
    ∃ as, Ok base s.heap as (s.live.map Prod.fst) ∧ as.length ≤ k ∧
      ∀ b ∈ s.live, b.2 ≤ 16 * (s.heap.size b.1 - 1)

theorem Ok.boot {h : Heap} (hchunks : h.chunks = []) (hbrk : base < h.brk) :
    Ok base { (h.setPtr base base).setSize base 0 with freep := base } [] [] := by
  have hmem : memory h.chunks = [] := by rw [hchunks]; rfl
  exact {
    ring := update_self .., freep := mem_cons_self, base_size := update_self ..
    gaps := pairwise_singleton _ _, pos := nofun, cells := List.Perm.of_eq hmem.symm
    spread := hmem.symm ▸ List.Pairwise.nil, above := hmem.symm ▸ nofun, base_lt := hbrk
    small := hmem.symm ▸ Nat.two_pow_pos 32 }

theorem nunits_spec (nbytes : Nat) : 0 < nunits nbytes ∧ nbytes ≤ 16 * (nunits nbytes - 1) := by
  unfold nunits
  omega

theorem step_inv (hbase : 0 < base) {k fuel : Nat} {s : System} (hI : Inv base k s)
    (hfuel : 8 * k + 16 ≤ fuel) (e : Event) :
    Outcome.Meets (fun _ => False) (Inv base (k + 1)) (step base fuel s e) := by
  cases e with
  | malloc nbytes replies =>
    simp only [step]
    split
    · rename_i hguard
      rcases hguard with ⟨-, -, hfresh⟩
      rcases nunits_spec nbytes with ⟨hn, hlong⟩
      -- After `init` the heap is in order in both cases.
      have hinit : ∃ as, Ok base (init base s.heap) as (s.live.map Prod.fst) ∧ as.length ≤ k ∧
          (∀ b ∈ s.live, b.2 ≤ 16 * ((init base s.heap).size b.1 - 1)) ∧
          (init base s.heap).brk = s.heap.brk ∧
          (init base s.heap).chunks = s.heap.chunks := by
        unfold init
        rcases hI with ⟨hf, hl, hc, hb⟩ | ⟨as, H, hlen, hlive⟩
        · rw [if_pos hf, hl]
          exact ⟨[], Ok.boot hc hb, Nat.zero_le k, nofun, rfl, rfl⟩
        · have hne : s.heap.freep ≠ 0 := by
            intro he
            rcases mem_cons.mp H.freep with hb | hm
            · omega
            · have hlt := H.base_lt_block (mem_append_left _ hm)
              omega
          rw [if_neg hne]
          exact ⟨as, H, hlen, hlive, rfl, rfl⟩
      rcases hinit with ⟨as, H, hlen, hlive, hbrk, hchunks⟩
      rw [← hbrk, ← hchunks] at hfresh
      rcases search_ok H (nunits nbytes) fuel hn replies hfresh (by omega) with ⟨r, hr, hserved⟩
      have hmalloc : malloc base fuel s.heap nbytes replies = .done r := hr
      rw [hmalloc, Outcome.done_bind]
      right
      rcases hserved with ⟨hzero, hok, hsame⟩ | ⟨as', b, hb, hT, hlen'⟩
      · refine ⟨as, ?_, by omega, ?_⟩
        · simp only [if_pos hzero]
          exact hok
        · simp only [if_pos hzero]
          intro c hc
          rw [hsame c.1 (mem_map_of_mem hc)]
          exact hlive c hc
      · have hnz : r.2 ≠ 0 := by omega
        refine ⟨as', ?_, by omega, ?_⟩
        · rw [if_neg hnz, hb, Nat.add_sub_cancel]
          exact hT.ok
        · rw [if_neg hnz, hb, Nat.add_sub_cancel]
          intro c hc
          rcases mem_cons.mp hc with rfl | hc
          · simp only [hT.size]
            exact hlong
          · rw [hT.live c.1 (mem_map_of_mem hc)]
            exact hlive c hc
    · trivial
  | free ap =>
    simp only [step]
    split
    · rename_i hguard
      rcases hguard with ⟨hap, hmem⟩
      rcases hI with ⟨-, hl, -, -⟩ | ⟨as, H, hlen, hlive⟩
      · rw [hl] at hmem
        exact nomatch hmem
      · rcases mem_map.mp hmem with ⟨b, hb, hbap⟩
        rcases exists_of_eraseP (p := fun b : Nat × Nat => b.1 = ap - 16) hb
          (decide_eq_true hbap) with ⟨c, l₁, l₂, -, hc, hs, he⟩
        have hcap : c.1 = ap - 16 := of_decide_eq_true hc
        have hperm : List.Perm (s.live.map Prod.fst)
            (c.1 :: (l₁ ++ l₂).map Prod.fst) := by
          rw [hs, ← map_cons]
          exact perm_middle.map Prod.fst
        rcases free_ok (H.perm_live hperm) fuel (by omega) with
          ⟨h', as', hfree, hok, hsame, -, hlen', -⟩
        rw [hcap, Nat.sub_add_cancel hap] at hfree
        rw [hfree, Outcome.done_bind, he]
        refine Or.inr ⟨as', hok, by omega, fun d hd => ?_⟩
        have hd' : d ∈ s.live := by
          rw [hs]
          rcases mem_append.mp hd with hd | hd
          · exact mem_append_left _ hd
          · exact mem_append_right _ (mem_cons_of_mem c hd)
        rw [hsame d.1 (mem_map_of_mem hd)]
        exact hlive d hd'
    · trivial
  | write bp ptr size =>
    simp only [step]
    split
    · rename_i hmem
      rcases hI with ⟨-, hl, -, -⟩ | ⟨as, H, hlen, hlive⟩
      · rw [hl] at hmem
        exact nomatch hmem
      · have hbp : bp ∈ as ++ s.live.map Prod.fst := mem_append_right _ hmem
        -- No header of a block is inside another block.
        have hout : ∀ z ∈ base :: (as ++ s.live.map Prod.fst),
            ¬(bp < z ∧ z < bp + 16 * s.heap.size bp) := by
          intro z hz hin
          rcases mem_cons.mp hz with rfl | hz
          · have hlt := H.base_lt_block hbp
            omega
          · have hle := H.apart hbp hz hin.1
            omega
        have hsame : ∀ z ∈ base :: (as ++ s.live.map Prod.fst),
            (s.heap.write bp ptr size).ptr z = s.heap.ptr z ∧
              (s.heap.write bp ptr size).size z = s.heap.size z :=
          fun z hz => ⟨if_neg (hout z hz), if_neg (hout z hz)⟩
        refine Or.inr ⟨as, H.congr hsame rfl rfl rfl, by omega, fun b hb => ?_⟩
        have hb' : b.1 ∈ base :: (as ++ s.live.map Prod.fst) :=
          mem_cons_of_mem _ (mem_append_right _ (mem_map_of_mem hb))
        simp only [(hsame b.1 hb').2]
        exact hlive b hb
    · trivial

theorem run_inv (hbase : 0 < base) {es : List Event} {k fuel : Nat} {s : System}
    (hI : Inv base k s) (hfuel : 8 * (k + es.length) + 16 ≤ fuel) :
    Outcome.Meets (fun _ => False) (Inv base (k + es.length)) (runs (step base fuel) es s) := by
  induction es generalizing k s with
  | nil => exact hI
  | cons e es ih =>
    rw [length_cons] at hfuel ⊢
    rw [runs_cons, Outcome.meets_bind]
    refine Outcome.meets_mono (step_inv hbase hI (by omega) e) (fun s' hs' => ?_)
    rw [Nat.add_comm es.length, ← Nat.add_assoc]
    exact ih hs' (by omega)

/-- What holds after any sequence of calls. No loop runs on, as long as its fuel is in
    proportion to the number of calls. Once `malloc` has been called, the free blocks
    are a ring through `base` in the order of their addresses, with a gap between any
    two. The units of free and live blocks are the units that `sbrk` has returned, each
    once, blocks do not overlap, and a live block has the bytes it was asked for after
    its header. -/
theorem heap_integrity (base brk : Nat) (hbase : 0 < base) (hbrk : base < brk)
    (ptr size : Nat → Nat) (es : List Event) (fuel : Nat) (hfuel : 8 * es.length + 16 ≤ fuel) :
    (∀ p, runs (step base fuel) es (boot ptr size brk) ≠ .panic p) ∧
    ∀ s, runs (step base fuel) es (boot ptr size brk) = .done s →
      (s.heap.freep = 0 ∧ s.live = [] ∧ s.heap.chunks = []) ∨
      ∃ as, Path s.heap.ptr base as base ∧ s.heap.freep ∈ base :: as ∧
        (base :: as).Pairwise (fun a b => a < b) ∧
        as.Pairwise (fun a b => a + 16 * s.heap.size a < b) ∧
        List.Perm (cells s.heap.size (as ++ s.live.map Prod.fst)) (memory s.heap.chunks) ∧
        (memory s.heap.chunks).Nodup ∧
        (as ++ s.live.map Prod.fst).Pairwise (fun a b =>
          a + 16 * s.heap.size a ≤ b ∨ b + 16 * s.heap.size b ≤ a) ∧
        ∀ b ∈ s.live, b.2 ≤ 16 * (s.heap.size b.1 - 1) := by
  have hI : Inv base 0 (boot ptr size brk) := Or.inl ⟨rfl, rfl, rfl, hbrk⟩
  have hrun := run_inv hbase hI (show 8 * (0 + es.length) + 16 ≤ fuel by omega)
  refine ⟨fun p hp => ?_, fun s hs => ?_⟩
  · rw [hp] at hrun
    exact hrun
  rw [hs] at hrun
  rcases hrun with ⟨hf, hl, hc, -⟩ | ⟨as, H, -, hlive⟩
  · exact Or.inl ⟨hf, hl, hc⟩
  · refine Or.inr ⟨as, H.ring, H.freep, H.gaps.imp (fun hlt => by omega),
      (pairwise_cons.mp H.gaps).2, H.cells, H.spread.nodup, ?_, hlive⟩
    refine H.nodup.imp_of_mem (fun {a b} ha hb hab => ?_)
    rcases Nat.lt_or_gt_of_ne hab with hlt | hgt
    · exact Or.inl (H.apart ha hb hlt)
    · exact Or.inr (H.apart hb ha hgt)

/-- Three blocks from two pieces of memory, of which the middle one and then the last
    one are freed. -/
def calls : List Event :=
  [.malloc 40 [some 65536], .malloc 100 [], .write 131008 (fun _ => 7) (fun _ => 9),
    .malloc 70000 [some 131072], .free 130896, .malloc 8 [none], .free 131088]

theorem heap_integrity_calls : ∃ s,
    runs (step 4096 100) calls (boot (fun _ => 0) (fun _ => 0) 65536) = .done s ∧
      s.live.map Prod.fst = [130976, 131008] ∧
      (memory s.heap.chunks).Nodup ∧ s.heap.freep ≠ 0 := by
  rcases Outcome.exists_of_decide
    (fun s : System => s.live.map Prod.fst = [130976, 131008] ∧ s.heap.freep ≠ 0)
    (runs (step 4096 100) calls (boot (fun _ => 0) (fun _ => 0) 65536)) (by decide +kernel)
    with ⟨s, hs, hl, hf⟩
  rcases (heap_integrity 4096 65536 (by decide) (by decide) (fun _ => 0) (fun _ => 0) calls 100
    (by decide)).2 s hs with h | ⟨as, h⟩
  · exact absurd h.1 hf
  · exact ⟨s, hs, hl, h.2.2.2.2.2.1, hf⟩

end Runs

end Xv6.Umalloc
