import Xv6.Vm.Table
import Mathlib.Data.List.Perm.Basic
import Mathlib.Data.List.Nodup

/-!
# The Page Allocator

Who has the pages between the end of the kernel and `PHYSTOP`.

The free list is kept in the free pages, and so it depends on the callers: they may
write only to pages that `kalloc` returned and that they have not given back.
`pages_owned` says that this is all that is needed, in any order of the calls.

## Main definitions

* `kinit`: The list of all pages is made.
* `Pages`: The allocator, and the pages that its callers have.

## Theorems

* `Chain.kfree`: A page is put in front of the list.
* `pages_owned`: Every page is in the list or has one owner.
-/

namespace Xv6.Vm

open Function List Outcome

/-- The loop of `freerange`. -/
def freerangeFrom (paEnd : Nat) : Nat → Nat → M Unit
  | 0, _ => hang
  | fuel + 1, p =>
    if p + PGSIZE ≤ paEnd then do
      kfree p
      freerangeFrom paEnd fuel (p + PGSIZE)
    else return ()

def freerange (paStart paEnd : Nat) : M Unit :=
  freerangeFrom paEnd (paEnd / PGSIZE + 1) (PGROUNDUP paStart)

def kinit (lay : Layout) : M Unit := freerange lay.kend PHYSTOP

/-- What callers do with pages. -/
inductive PageEvent where
  | kalloc
  | kfree (pg : Nat)
  | write (pg : Nat) (b : Buffer PGSIZE)

/-- The allocator, and the pages that its callers have. -/
structure Pages where
  s : Kernel
  owned : List Nat

/-- A page is freed and written by a caller that has it. -/
def Pages.step (lay : Layout) (x : Pages) : PageEvent → Outcome Panic Pages
  | .kalloc =>
    .done ⟨x.s.kalloc.2, if x.s.kalloc.1 = 0 then x.owned else x.s.kalloc.1 / PGSIZE :: x.owned⟩
  | .kfree pg =>
    if pg ∈ x.owned then do
      let r ← perform lay (.kfree (pg * PGSIZE)) x.s
      return ⟨r.2, x.owned.erase pg⟩
    else .wait
  | .write pg b => if pg ∈ x.owned then .done ⟨x.s.setPage pg b, x.owned⟩ else .wait

/-- The pages between the kernel and `PHYSTOP`. -/
def pages (lay : Layout) : List Nat :=
  range' (PGROUNDUP lay.kend / PGSIZE) (PHYSTOP / PGSIZE - PGROUNDUP lay.kend / PGSIZE)

/-- A page changes only when its owner writes to it or frees it. -/
def Pages.Keeps (x : Pages) (e : PageEvent) (y : Pages) : Prop :=
  ∀ pg ∈ x.owned, e ≠ .kfree pg → (∀ b, e ≠ .write pg b) → y.s.mem pg = x.s.mem pg

/-- Every page is in the free list or has one owner. -/
def Pages.Ok (lay : Layout) (x : Pages) : Prop :=
  ∃ free, Chain x.s.mem x.s.freelist free ∧ (free ++ x.owned).Perm (pages lay)

section Allocator

variable {lay : Layout} {s : Kernel} {free : List Nat} {pg : Nat} {x : Pages}

theorem pgroundup_spec {a : Nat} (ha : a ≤ PHYSTOP) :
    a ≤ PGROUNDUP a ∧ PGROUNDUP a = PGROUNDUP a / PGSIZE * PGSIZE ∧ PGROUNDUP a ≤ PHYSTOP := by
  rw [show PHYSTOP = 557056 * 4096 from rfl] at ha ⊢
  rw [PGROUNDUP, u64, show PGSIZE = 4096 from rfl]
  omega

theorem mem_pages (h : pg ∈ pages lay) :
    lay.kend ≤ pg * PGSIZE ∧ pg * PGSIZE < PHYSTOP ∧ 0 < pg := by
  have hfirst := pgroundup_spec lay.fits
  have habove := lay.above
  rw [pages, mem_range'_1] at h
  rw [show PHYSTOP = 557056 * PGSIZE from rfl] at h hfirst ⊢
  rw [show KERNBASE = 2 ^ 31 from rfl] at habove
  rw [show PGSIZE = 4096 from rfl] at h hfirst ⊢
  omega

theorem Chain.kfree (h : Chain s.mem s.freelist free) (hpg : pg ∈ pages lay) (hnew : pg ∉ free) :
    perform lay (.kfree (pg * PGSIZE)) s = .done ((), s.kfree (pg * PGSIZE)) ∧
      Chain (s.kfree (pg * PGSIZE)).mem (pg * PGSIZE) (pg :: free) := by
  rcases mem_pages hpg with ⟨hend, htop, hpos⟩
  have hP : PGSIZE = 4096 := rfl
  have hlt : s.freelist < 256 ^ 8 := by
    cases free with
    | nil => exact h ▸ by decide
    | cons c cs =>
      rw [h.1, hP]
      have := h.2.2.1
      omega
  refine ⟨if_neg ?_, rfl, hpos, ?_, ?_⟩
  · rw [Nat.mul_mod_left]
    omega
  · rw [show PHYSTOP = 557056 * 4096 from rfl, hP] at htop
    omega
  · -- The page now holds the old head of the list, and no other page has changed.
    rw [Kernel.kfree, Nat.mul_div_cancel _ (by decide), Nat.mul_mod_left]
    simp only [update_self]
    rw [Bytes.readLe_writeLe _ _ (by decide), Nat.mod_eq_of_lt hlt]
    exact h.congr (fun c hc => update_of_ne (ne_of_mem_of_not_mem hc hnew) _ _)

/-- The loop of `freerange` frees the pages from `a` on. The induction is on the rounds. -/
theorem freerangeFrom_run (lay : Layout) (fuel a k : Nat) (s : Kernel) (free : List Nat)
    (hk : k < fuel) (ha : PGROUNDUP lay.kend / PGSIZE ≤ a) (hend : (a + k) * PGSIZE = PHYSTOP)
    (h : Chain s.mem s.freelist free) (hfree : ∀ c ∈ free, c < a) :
    ∃ s' free', Prog.run (perform lay) (freerangeFrom PHYSTOP fuel (a * PGSIZE)) s =
        .done ((), s') ∧ Chain s'.mem s'.freelist free' ∧ free'.Perm (free ++ range' a k) := by
  have hP : PGSIZE = 4096 := rfl
  induction fuel generalizing a k s free with
  | zero => exact absurd hk (Nat.not_lt_zero k)
  | succ fuel ih =>
    rw [freerangeFrom]
    cases k with
    | zero =>
      rw [if_neg (by rw [← hend, hP]; omega), range'_zero, append_nil]
      exact ⟨s, free, rfl, h, .rfl⟩
    | succ k =>
      have hpg : a ∈ pages lay := by
        rw [pages, mem_range'_1, ← hend, Nat.mul_div_cancel _ (by decide)]
        omega
      rcases h.kfree hpg (fun hc => Nat.lt_irrefl a (hfree a hc)) with ⟨hrun, hchain⟩
      rcases ih (a + 1) k (s.kfree (a * PGSIZE)) (a :: free) (by omega) (by omega)
        (by rw [← hend, hP]; omega) hchain (forall_mem_cons.mpr ⟨Nat.lt_succ_self a,
          fun c hc => Nat.lt_succ_of_lt (hfree c hc)⟩) with ⟨s', free', hrest, hch, hperm⟩
      refine ⟨s', free', ?_, hch, hperm.trans perm_middle.symm⟩
      rw [if_pos (by rw [← hend, hP]; omega), ← Nat.succ_mul]
      change (perform lay (.kfree (a * PGSIZE)) s >>= _) = _
      rw [hrun]
      exact hrest

/-- `kalloc` fails when every page has an owner, and else takes a page that has none. -/
theorem Pages.Ok.kalloc (h : x.Ok lay) :
    x.s.kalloc = (0, x.s) ∧ pages lay ⊆ x.owned ∨
      ∃ pg ∉ x.owned, 0 < pg ∧ x.s.kalloc.1 = pg * PGSIZE ∧
        Pages.Ok lay ⟨x.s.kalloc.2, pg :: x.owned⟩ ∧
        ∀ q, q ≠ pg → x.s.kalloc.2.mem q = x.s.mem q := by
  rcases h with ⟨free, hchain, hperm⟩
  have hdup := hperm.nodup_iff.mpr nodup_range'
  cases free with
  | nil => exact Or.inl ⟨if_pos hchain, hperm.symm.subset⟩
  | cons c free =>
    rcases hchain with ⟨hfl, hc, _, htail⟩
    rw [cons_append, nodup_cons] at hdup
    rw [kalloc_eq hfl hc]
    refine Or.inr ⟨c, fun h => hdup.1 (mem_append_right _ h), hc, rfl, ⟨free, ?_, ?_⟩,
      fun q hq => update_of_ne hq _ _⟩
    · exact htail.congr (fun d hd => update_of_ne
        (ne_of_mem_of_not_mem hd (fun h => hdup.1 (mem_append_left _ h))) _ _)
    · exact perm_middle.trans hperm

/-- A step keeps the pages apart, does not panic, and changes nobody else's page. -/
theorem Pages.Ok.step (h : x.Ok lay) (e : PageEvent) :
    Meets (fun _ => False) (fun y => y.Ok lay ∧ x.Keeps e y) (x.step lay e) := by
  have htake := h.kalloc
  rcases id h with ⟨free, hchain, hperm⟩
  -- What callers write to and free is not in the list.
  have hfree : ∀ pg ∈ x.owned, pg ∉ free := fun pg hpg hc =>
    disjoint_of_nodup_append (hperm.nodup_iff.mpr nodup_range') hc hpg
  cases e with
  | kalloc =>
    simp only [Pages.step]
    rcases htake with ⟨hnone, _⟩ | ⟨c, hnew, hc, hpa, hok, hsame⟩
    · rw [hnone, if_pos rfl]
      exact ⟨h, fun _ _ _ _ => rfl⟩
    · rw [hpa, if_neg (Nat.mul_ne_zero hc.ne' (by decide)), Nat.mul_div_cancel c (by decide)]
      exact ⟨hok, fun pg hpg _ _ => hsame pg (ne_of_mem_of_not_mem hpg hnew)⟩
  | kfree pg =>
    by_cases hpg : pg ∈ x.owned
    · rcases hchain.kfree (hperm.subset (mem_append_right _ hpg)) (hfree pg hpg) with ⟨hrun, hnew⟩
      rw [Pages.step, if_pos hpg, hrun]
      refine ⟨⟨pg :: free, hnew, ?_⟩, fun q _ hne _ => update_of_ne ?_ _ _⟩
      · exact (perm_middle.symm.trans ((perm_cons_erase hpg).symm.append_left free)).trans hperm
      · rw [Nat.mul_div_cancel _ (by decide)]
        exact fun he => hne (by rw [he])
    · rw [Pages.step, if_neg hpg]
      trivial
  | write pg b =>
    by_cases hpg : pg ∈ x.owned
    · rw [Pages.step, if_pos hpg]
      refine ⟨⟨free, hchain.congr (fun c hc => ?_), hperm⟩, fun q _ _ hne => ?_⟩
      · exact update_of_ne (ne_of_mem_of_not_mem hc (hfree pg hpg)) _ _
      · exact update_of_ne (fun he => hne b (by rw [he])) _ _
    · rw [Pages.step, if_neg hpg]
      trivial

/-- After `kinit`, in any order in which callers take, write and free pages: nobody panics,
    no page has two owners, `kalloc` fails only when all pages are taken, and nobody's page
    is changed by another. -/
theorem pages_owned (lay : Layout) (mem : Nat → Buffer PGSIZE) : ∃ s,
    Prog.run (perform lay) (kinit lay) ⟨mem, 0⟩ = .done ((), s) ∧ ∀ es,
      Meets (fun _ => False) (fun x => x.owned.Nodup ∧ x.owned ⊆ pages lay ∧
        (x.s.kalloc.1 = 0 ∧ pages lay ⊆ x.owned ∨
          ∃ pg ∈ pages lay, x.s.kalloc.1 = pg * PGSIZE ∧ pg ∉ x.owned) ∧
        ∀ e, Meets (fun _ => False) (x.Keeps e) (x.step lay e))
        (runs (Pages.step lay) es ⟨s, []⟩) := by
  rcases pgroundup_spec lay.fits with ⟨_, hround, htop⟩
  rcases freerangeFrom_run lay (PHYSTOP / PGSIZE + 1) _
    (PHYSTOP / PGSIZE - PGROUNDUP lay.kend / PGSIZE) ⟨mem, 0⟩ []
    (Nat.lt_succ_of_le (Nat.sub_le _ _)) (Nat.le_refl _)
    (by rw [Nat.add_sub_cancel' (Nat.div_le_div_right htop)]; rfl) rfl
    (fun _ hc => absurd hc not_mem_nil) with ⟨s, free, hrun, hchain, hperm⟩
  rw [← hround] at hrun
  have hok : Pages.Ok lay ⟨s, []⟩ := ⟨free, hchain, by rw [append_nil]; exact hperm⟩
  refine ⟨s, hrun, fun es => meets_mono (runs_meets (fun x e h => ?_) es _ hok) ?_⟩
  · exact meets_mono (h.step e) (fun y hy => hy.1)
  · intro x h
    have hsub : ∀ {y : Pages}, y.Ok lay → y.owned ⊆ pages lay := by
      rintro y ⟨free, _, hperm⟩ pg hpg
      exact hperm.subset (mem_append_right _ hpg)
    refine ⟨?_, hsub h, ?_, fun e => meets_mono (h.step e) (fun y hy => hy.2)⟩
    · rcases h with ⟨free, _, hperm⟩
      exact (hperm.nodup_iff.mpr nodup_range').of_append_right
    · rcases h.kalloc with ⟨hnone, hall⟩ | ⟨pg, hnew, _, hpa, hok', _⟩
      · exact Or.inl ⟨by rw [hnone], hall⟩
      · exact Or.inr ⟨pg, hsub hok' mem_cons_self, hpa, hnew⟩

end Allocator

end Xv6.Vm
