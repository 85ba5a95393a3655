import Xv6.Vm.Mapping

/-!
# Copies Between Kernel and Process

What `copyout` and `copyin` do to the memory of a process. That memory is a partial
function: a virtual address has a byte when its page is below `MAXVA` and its entry
has `PTE_V` and `PTE_U`.

A copy goes on page by page, from the given address to the end of its page first,
and then by whole pages to the last piece. It stops at the first byte that has no page.

## Main definitions

* `upage`, `ubyte`: The pages and the bytes of a process.
* `Space`, `Private`, `Own`: The page tables of a process.
* `Stops`: How far a copy goes, and what it returns.
* `Stored`, `Fetched`: What it writes, and what it reads.
* `Respects`: Read-only pages are safe from a copy.

## Theorems

* `uvmalloc_private`: The memory that `uvmalloc` makes is private.
* `copies_exact`: Copies transfer what they should, and return 0 when that was all.
* `respects_iff`, `copyout_overwrites_text`: `copyout` does not look at `PTE_W`.
-/

namespace Xv6.Vm

open List

/-- The physical page behind a virtual page that the user may access. -/
def upage (mem : Nat → Buffer PGSIZE) (root n : Nat) : Option Nat :=
  if n * PGSIZE < MAXVA ∧ leaf mem root n &&& PTE_V ≠ 0 ∧ leaf mem root n &&& PTE_U ≠ 0 then
    some (PTE2PA (leaf mem root n) / PGSIZE)
  else none

/-- The byte at a virtual address that the user may access. -/
def ubyte (mem : Nat → Buffer PGSIZE) (root a : Nat) : Option Byte :=
  (upage mem root (a / PGSIZE)).map (fun p => Bytes.get (mem p) (a % PGSIZE))

/-- A page table. Neither its tables nor its pages are at address 0, which is not
    memory. -/
structure Space (mem : Nat → Buffer PGSIZE) (root : Nat) : Prop where
  pos : ∀ d k p, d ≤ 2 → table mem root d k = some p → 0 < p
  phys : ∀ n p, upage mem root n = some p → 0 < p

/-- A page table whose pages are distinct, and none of them a table. -/
structure Private (mem : Nat → Buffer PGSIZE) (root : Nat) : Prop extends Tree mem root where
  phys : ∀ n p, upage mem root n = some p → 0 < p
  inj : ∀ m n p, upage mem root m = some p → upage mem root n = some p → m = n
  apart : ∀ n p, upage mem root n = some p → ∀ d k, d ≤ 2 → table mem root d k ≠ some p

theorem Private.space {mem : Nat → Buffer PGSIZE} {root : Nat} (h : Private mem root) :
    Space mem root :=
  ⟨h.pos, h.phys⟩

section Make

variable {lay : Layout} {s s' s₁ : Kernel} {root xperm oldsz newsz : Nat}

/-- The pages of a process next to the free list: none of them is free or a table. -/
structure Own (s : Kernel) (root : Nat) : Prop where
  tree : ∃ free, PageTable s.mem s.freelist root free
  inj : ∀ m n p, upage s.mem root m = some p → upage s.mem root n = some p → m = n
  spare : ∀ n p, upage s.mem root n = some p → 0 < p ∧ Spare s.mem s.freelist root p

theorem Own.priv (h : Own s root) : Private s.mem root := by
  rcases h.tree with ⟨free, ht⟩
  exact ⟨ht.toTree, fun n p hp => (h.spare n p hp).1, h.inj, fun n p hp => (h.spare n p hp).2.2⟩

/-- A free page is cleared and mapped. -/
theorem Own.map (h : Own s root) {c n perm : Nat} {free : List Nat}
    (ht : PageTable s.mem s.freelist root (c :: free)) (hperm : perm < 1024)
    (hm : Mapped ⟨Function.update s.mem c (fun _ => 0), Bytes.readLe (s.mem c) 0 8⟩ s' root n 1
      (c * PGSIZE) perm) : Own s' root := by
  have hP : PGSIZE = 4096 := rfl
  rcases ht.take (fun _ => 0) with ⟨_, hc0, hc1, _, _, hleaf⟩
  have hlt : c * PGSIZE < 2 ^ 64 := by
    rw [hP]
    omega
  have hnew : leaf s'.mem root n = newPte (c * PGSIZE) perm := by
    rw [hm.entries, if_pos (by omega), Nat.sub_self, Nat.zero_mul, Nat.add_zero, u64,
      Nat.mod_eq_of_lt hlt]
  -- A page is the new one or it was there, and those that were there are not free.
  have hpage : ∀ m p, upage s'.mem root m = some p →
      m = n ∧ p = c ∨ m ≠ n ∧ upage s.mem root m = some p := by
    intro m p hp
    by_cases hmn : m = n
    · rw [upage, Option.ite_none_right_eq_some, hmn, hnew, (newPte_spec hlt hperm).1, PGROUNDDOWN,
        Nat.mul_div_cancel _ (by decide), Nat.mul_div_cancel _ (by decide)] at hp
      exact Or.inl ⟨hmn, (Option.some.inj hp.2).symm⟩
    · have hsame : leaf s'.mem root m = leaf s.mem root m := by
        rw [hm.entries, if_neg (by omega)]
        exact hleaf m
      rw [upage, hsame] at hp
      exact Or.inr ⟨hmn, hp⟩
  have hold : ∀ m p, upage s.mem root m = some p → p ≠ c := by
    intro m p hp
    exact ne_of_not_mem_cons ((ht.spare_iff p).mp (h.spare m p hp).2).1
  refine ⟨hm.tree, fun m k p hmp hkp => ?_, fun m p hmp => ?_⟩
  · rcases hpage m p hmp with ⟨h₂, h₃⟩ | ⟨h₂, h₃⟩ <;>
      rcases hpage k p hkp with ⟨h₄, h₅⟩ | ⟨h₄, h₅⟩
    · rw [h₂, h₄]
    · exact absurd h₃ (hold k p h₅)
    · exact absurd h₅ (hold m p h₃)
    · exact h.inj m k p h₃ h₅
  · rcases hpage m p hmp with ⟨_, rfl⟩ | ⟨_, hp⟩
    · exact ⟨hc0, hm.spare p (ht.spare_take _ (Or.inl rfl))⟩
    · have hs := h.spare m p hp
      exact ⟨hs.1, hm.spare p (ht.spare_take _ (Or.inr hs.2))⟩

theorem uvmallocFrom_own (hperm : xperm < 1024) (fuel n : Nat) (h : Own s root)
    (hrun : Prog.run (perform lay) (uvmallocFrom (root * PGSIZE) oldsz newsz xperm fuel
      (n * PGSIZE)) s = .done (newsz, s')) : Own s' root := by
  have hP : PGSIZE = 4096 := rfl
  have hflags : PTE_R ||| PTE_U ||| xperm < 1024 := Nat.or_lt_two_pow (n := 10) (by decide) hperm
  induction fuel generalizing n s with
  | zero => cases hrun
  | succ fuel ih =>
    rw [uvmallocFrom] at hrun
    by_cases hlt : n * PGSIZE < newsz
    · -- What has failed returns 0.
      have hzero : ∀ {α : Type} (x : M α) (t : Kernel),
          Prog.run (perform lay) (x >>= fun _ => (pure 0 : M Nat)) t ≠ .done (newsz, s') := by
        intro α x t hx
        rw [Prog.run_bind, Outcome.bind_eq_done] at hx
        rcases hx with ⟨a, _, ha⟩
        have h0 : 0 = newsz := congrArg Prod.fst (Outcome.done.inj ha)
        omega
      rw [if_pos hlt] at hrun
      rcases h.tree with ⟨free, ht⟩
      cases free with
      | nil =>
        rw [run_cleared_nil ht.chain] at hrun
        exact absurd hrun (hzero _ s)
      | cons c free =>
        rcases ht.take (fun _ => 0) with ⟨_, _, hc1, h₁, _, _⟩
        have hends := @mappages_ends lay ⟨Function.update s.mem c (fun _ => 0),
          Bytes.readLe (s.mem c) 0 8⟩ root free h₁ (n * PGSIZE) PGSIZE (c * PGSIZE)
          (PTE_R ||| PTE_U ||| xperm) (by rw [hP]; omega) hflags
        rw [run_cleared_cons ht.chain, Prog.run_bind, Outcome.bind_eq_done] at hrun
        rcases hrun with ⟨⟨q, s₂⟩, hmap, hrun⟩
        rw [hmap] at hends
        -- One page is mapped, and the loop goes on; or `mappages` fails, and so does `uvmalloc`.
        rcases hends with ⟨rfl, hle, hm⟩ | ⟨rfl, _⟩
        · have hone : u64 (n * PGSIZE + PGSIZE - 1) / PGSIZE = n := by
            unfold u64 at hle ⊢
            rw [hP] at hle ⊢
            omega
          rw [Nat.mul_div_cancel n (by decide), hone, Nat.add_sub_cancel_left] at hm
          rw [if_neg (not_not_intro rfl), ← Nat.succ_mul] at hrun
          exact ih (n + 1) (h.map ht hflags hm) hrun
        · rw [if_pos (show (-1 : Int) ≠ 0 by decide), Prog.run_bind, Outcome.bind_eq_done] at hrun
          rcases hrun with ⟨a, _, ha⟩
          exact absurd ha (hzero _ a.2)
    · rw [if_neg hlt] at hrun
      have hs : s = s' := congrArg Prod.snd (Outcome.done.inj hrun)
      rw [← hs]
      exact h

theorem Own.uvmalloc (h : Own s root) (hperm : xperm < 1024)
    (hrun : Prog.run (perform lay) (uvmalloc (root * PGSIZE) oldsz newsz xperm) s =
      .done (newsz, s')) : Own s' root := by
  rw [Vm.uvmalloc] at hrun
  by_cases hlt : newsz < oldsz
  · rw [if_pos hlt] at hrun
    have hs : s = s' := congrArg Prod.snd (Outcome.done.inj hrun)
    rw [← hs]
    exact h
  · rw [if_neg hlt] at hrun
    exact uvmallocFrom_own hperm MAXPAGES _ h hrun

/-- A page of zeros is a root without tables below it. -/
theorem table_blank {mem : Nat → Buffer PGSIZE} {c : Nat} (hmem : mem c = fun _ => 0) (d k : Nat) :
    table mem c d k = if d = 0 ∧ k = 0 then some c else none := by
  induction d generalizing k with
  | zero => simp only [table, Radix.tab, true_and]
  | succ d ih =>
    have hup := ih (k / 512)
    unfold table at hup ⊢
    rw [Radix.tab, hup, if_neg (c := d + 1 = 0 ∧ k = 0) (by omega)]
    by_cases hd : d = 0 ∧ k / 512 = 0
    · rw [if_pos hd, Option.bind_some, word_blank hmem]
      rfl
    · rw [if_neg hd]
      rfl

theorem upage_blank {mem : Nat → Buffer PGSIZE} {c : Nat} (hmem : mem c = fun _ => 0) (n : Nat) :
    upage mem c n = none := by
  have hleaf := leaf_of_none (n := n) ((table_blank hmem 2 (n / 512)).trans (if_neg (by omega)))
  rw [upage, hleaf, if_neg (fun hp => hp.2.1 (by decide))]

theorem Own.blank {mem : Nat → Buffer PGSIZE} {fl c : Nat} {free : List Nat}
    (hmem : mem c = fun _ => 0) (hc0 : 0 < c) (hchain : Chain mem fl free)
    (hdup : (c :: free).Nodup) : Own ⟨mem, fl⟩ c := by
  have hc := nodup_cons.mp hdup
  have htab : ∀ d k p, table mem c d k = some p → d = 0 ∧ k = 0 ∧ c = p := by
    intro d k p hp
    rw [table_blank hmem, Option.ite_none_right_eq_some, Option.some.injEq, and_assoc] at hp
    exact hp
  refine ⟨⟨free, ⟨⟨fun d d' k k' p _ _ hp hp' => ?_, fun d k p _ hp => ?_⟩, hchain, hc.2,
    fun c' hc' d k _ hp => ?_⟩⟩, fun m n p hm => ?_, fun n p hp => ?_⟩
  · have h₁ := htab d k p hp
    have h₂ := htab d' k' p hp'
    omega
  · exact (htab d k p hp).2.2 ▸ hc0
  · rw [← (htab d k c' hp).2.2] at hc'
    exact hc.1 hc'
  · cases (upage_blank hmem m).symm.trans hm
  · cases (upage_blank hmem n).symm.trans hp

theorem uvmcreate_own {free : List Nat} {pt : Nat} (hchain : Chain s.mem s.freelist free)
    (hdup : free.Nodup) (hpt : pt ≠ 0)
    (hrun : Prog.run (perform lay) uvmcreate s = .done (pt, s')) :
    ∃ root, pt = root * PGSIZE ∧ Own s' root := by
  rw [uvmcreate] at hrun
  cases free with
  | nil =>
    rw [run_cleared_nil hchain] at hrun
    exact absurd (congrArg Prod.fst (Outcome.done.inj hrun)).symm hpt
  | cons c free =>
    rw [run_cleared_cons hchain] at hrun
    have hs := Prod.mk.inj (Outcome.done.inj hrun)
    refine ⟨c, hs.1.symm, ?_⟩
    rw [← hs.2]
    refine Own.blank (Function.update_self c _ s.mem) hchain.2.1
      (hchain.2.2.2.congr (fun c' hc' => ?_)) hdup
    exact Function.update_of_ne (ne_of_mem_of_not_mem hc' (nodup_cons.mp hdup).1) _ _

/-- A page table that `uvmcreate` has made and `uvmalloc` has filled is private. -/
theorem uvmalloc_private {free : List Nat} {pt : Nat} (hchain : Chain s.mem s.freelist free)
    (hdup : free.Nodup) (hpt : pt ≠ 0) (hperm : xperm < 1024)
    (hcreate : Prog.run (perform lay) uvmcreate s = .done (pt, s₁))
    (halloc : Prog.run (perform lay) (uvmalloc pt 0 newsz xperm) s₁ = .done (newsz, s')) :
    ∃ root, pt = root * PGSIZE ∧ Private s'.mem root := by
  rcases uvmcreate_own hchain hdup hpt hcreate with ⟨root, rfl, h⟩
  exact ⟨root, rfl, (h.uvmalloc hperm halloc).priv⟩

end Make

section Pieces

variable {u : Nat → Option Nat} {va va' len n k : Nat} {r : Int}

/-- The first piece of a copy of `len` bytes at `va`: `n` bytes of one page, after
    which the copy is done or goes on at the page `va'`. -/
structure Piece (va len n va' : Nat) : Prop where
  pos : 0 < n
  le : n ≤ len
  page : va % PGSIZE + n ≤ PGSIZE
  next : n = len ∨ va' = va + n ∧ va' % PGSIZE = 0

/-- How a copy of `len` bytes at `va` ends: after all of them, or after `k` of them
    at a byte without a page, which is the first byte or the first of a page. -/
structure Stops (u : Nat → Option Nat) (va len k : Nat) (r : Int) : Prop where
  reached : ∀ j < k, u ((va + j) / PGSIZE) ≠ none
  ends : r = 0 ∧ k = len ∨
    r = -1 ∧ k < len ∧ u ((va + k) / PGSIZE) = none ∧ (k = 0 ∨ (va + k) % PGSIZE = 0)

theorem sub_PGROUNDDOWN (a : Nat) : a - PGROUNDDOWN a = a % PGSIZE := by
  rw [PGROUNDDOWN, Nat.mod_eq_sub_div_mul]

theorem piece_spec {mem : Nat → Buffer PGSIZE} {root p : Nat}
    (hp : upage mem root (va / PGSIZE) = some p) (hlen : len ≠ 0) :
    Piece va len (min (PGSIZE - va % PGSIZE) len) (u64 (PGROUNDDOWN va + PGSIZE)) := by
  have hP : PGSIZE = 4096 := rfl
  have hM : MAXVA = 274877906944 := by decide
  -- The address does not wrap, as the page is below `MAXVA`.
  have hva : va / PGSIZE * PGSIZE < MAXVA := by
    by_contra hc
    rw [upage, if_neg (fun h => hc h.1)] at hp
    exact absurd hp (by nofun)
  rw [PGROUNDDOWN, u64]
  rw [hM] at hva
  constructor <;> rw [hP] at * <;> omega

theorem Piece.div_eq (c : Piece va len n va') {j : Nat} (hj : j < n) :
    (va + j) / PGSIZE = va / PGSIZE ∧ (va + j) % PGSIZE = va % PGSIZE + j := by
  have hP : PGSIZE = 4096 := rfl
  have hpage := c.page
  rw [hP] at hpage ⊢
  omega

theorem Stops.le (h : Stops u va len k r) : k ≤ len := by
  rcases h.ends with ⟨_, hk⟩ | ⟨_, hk, _⟩ <;> omega

theorem Stops.cons (c : Piece va len n va') (hu : u (va / PGSIZE) ≠ none)
    (h : Stops u va' (len - n) k r) : Stops u va len (n + k) r := by
  have hle := c.le
  have hk := h.le
  refine ⟨fun j hj => ?_, ?_⟩
  · by_cases hn : j < n
    · rw [(c.div_eq hn).1]
      exact hu
    · rcases c.next with hlen | ⟨hva, _⟩
      · omega
      · have hr := h.reached (j - n) (by omega)
        rwa [hva, Nat.add_assoc, Nat.add_sub_cancel' (Nat.not_lt.mp hn)] at hr
  · rcases h.ends with ⟨hr, hall⟩ | ⟨hr, hlt, hnone, hfirst⟩
    · exact Or.inl ⟨hr, by omega⟩
    · rcases c.next with hlen | ⟨hva, hmod⟩
      · omega
      · rw [hva, Nat.add_assoc] at hnone hfirst
        refine Or.inr ⟨hr, by omega, hnone, Or.inr ?_⟩
        rcases hfirst with h0 | hmod'
        · rwa [h0, Nat.add_zero, ← hva]
        · exact hmod'

theorem Stops.nil : Stops u va 0 0 0 :=
  ⟨nofun, Or.inl ⟨rfl, rfl⟩⟩

theorem Stops.first (hlen : len ≠ 0) (hu : u (va / PGSIZE) = none) : Stops u va len 0 (-1) :=
  ⟨nofun,
    Or.inr ⟨rfl, Nat.pos_of_ne_zero hlen, hu, Or.inl rfl⟩⟩

/-- The copy is complete when every byte has a page. -/
theorem Stops.zero_iff (h : Stops u va len k r) :
    r = 0 ↔ ∀ j < len, u ((va + j) / PGSIZE) ≠ none := by
  rcases h.ends with ⟨hr, hk⟩ | ⟨hr, hk, hnone, _⟩
  · exact ⟨fun _ j hj => h.reached j (hk ▸ hj), fun _ => hr⟩
  · exact ⟨fun hr' => absurd (hr'.symm.trans hr) (by decide),
      fun hall => absurd hnone (hall k hk)⟩

end Pieces

section Walkaddr

variable {lay : Layout} {s : Kernel} {root : Nat}

theorem walkaddr_run (h : Space s.mem root) (a : Nat) :
    Prog.run (perform lay) (walkaddr (root * PGSIZE) (PGROUNDDOWN a)) s =
      .done ((upage s.mem root (a / PGSIZE)).elim 0 (· * PGSIZE), s) := by
  have hdiv : PGROUNDDOWN a / PGSIZE = a / PGSIZE := Nat.mul_div_cancel _ (by decide)
  unfold walkaddr upage
  by_cases hva : MAXVA ≤ PGROUNDDOWN a
  · rw [if_pos hva, if_neg (fun hc => Nat.not_lt.mpr hva hc.1)]
    rfl
  rw [if_neg hva, Prog.run_bind, walk_false (Nat.not_le.mp hva), Outcome.done_bind, hdiv]
  cases ht : table s.mem root 2 (a / PGSIZE / 512) with
  | none =>
    rw [leaf_of_none ht, if_neg (c := _ ∧ _) (fun hc => hc.2.1 (by decide))]
    rfl
  | some p =>
    rw [if_neg (entryAddr_some (h.pos 2 _ p (by decide) ht)), Prog.run_bind, entryAddr,
      run_load (Nat.mod_lt _ (by decide)), Outcome.done_bind, leaf_of_table ht]
    by_cases hV : word s.mem p (a / PGSIZE % 512) &&& PTE_V = 0
    · rw [if_pos hV, if_neg (fun hc => hc.2.1 hV)]
      rfl
    by_cases hU : word s.mem p (a / PGSIZE % 512) &&& PTE_U = 0
    · rw [if_neg hV, if_pos hU, if_neg (fun hc => hc.2.2 hU)]
      rfl
    · rw [if_neg hV, if_neg hU, if_pos ⟨Nat.not_le.mp hva, hV, hU⟩, Option.elim,
        pte2pa_div]
      rfl

/-- A round of a copy: `f` is what follows the call of `walkaddr`. -/
theorem walkaddr_bind {α : Type} (h : Space s.mem root) (a : Nat) (f : Nat → M α) :
    Prog.run (perform lay) (walkaddr (root * PGSIZE) (PGROUNDDOWN a) >>= f) s =
      Prog.run (perform lay) (f ((upage s.mem root (a / PGSIZE)).elim 0 (· * PGSIZE))) s := by
  rw [Prog.run_bind, walkaddr_run h]
  rfl

theorem Space.page_ne_zero (h : Space s.mem root) {n p : Nat} (hp : upage s.mem root n = some p) :
    p * PGSIZE ≠ 0 :=
  Nat.mul_ne_zero (Nat.ne_of_gt (h.phys n p hp)) (by decide)

end Walkaddr

section Stored

variable {s s₁ s' : Kernel} {root va va' p n len : Nat} {bs cs : List Byte}

/-- From `s` to `s'`, the bytes `bs` are stored at virtual address `va`, and nothing
    else changes. -/
structure Stored (s s' : Kernel) (root va : Nat) (bs : List Byte) : Prop where
  priv : Private s'.mem root
  leaves : leaf s'.mem root = leaf s.mem root
  bytes : ∀ a, ubyte s'.mem root a =
    if va ≤ a ∧ a < va + bs.length then bs[a - va]? else ubyte s.mem root a
  others : ∀ pg, (∀ n, upage s.mem root n ≠ some pg) → s'.mem pg = s.mem pg
  freelist : s'.freelist = s.freelist

theorem Stored.pages (h : Stored s s' root va bs) : upage s'.mem root = upage s.mem root := by
  funext n
  rw [upage, upage, h.leaves]

theorem Stored.nil (h : Private s.mem root) : Stored s s root va [] :=
  ⟨h, rfl, fun a => by rw [if_neg (by rw [length_nil]; omega)], fun _ _ => rfl, rfl⟩

theorem Stored.append (h : Stored s s₁ root va bs) (h' : Stored s₁ s' root va' cs)
    (hva : cs = [] ∨ va' = va + bs.length) : Stored s s' root va (bs ++ cs) where
  priv := h'.priv
  leaves := h'.leaves.trans h.leaves
  bytes := by
    intro a
    rw [h'.bytes, h.bytes, length_append]
    rcases hva with hnil | hva
    · rw [hnil, append_nil, length_nil, Nat.add_zero, Nat.add_zero, if_neg (by omega)]
    · rw [hva]
      by_cases hin : va + bs.length ≤ a ∧ a < va + bs.length + cs.length
      · rw [if_pos hin, if_pos (by omega), getElem?_append_right (by omega), Nat.sub_sub]
      · rw [if_neg hin]
        by_cases hfst : va ≤ a ∧ a < va + bs.length
        · rw [if_pos hfst, if_pos (by omega), getElem?_append_left (by omega)]
        · rw [if_neg hfst, if_neg (by omega)]
  others := by
    intro pg hpg
    have hpg' : ∀ n, upage s₁.mem root n ≠ some pg := by
      rw [h.pages]
      exact hpg
    rw [h'.others pg hpg', h.others pg hpg]
  freelist := h'.freelist.trans h.freelist

theorem addr_in_iff (p pg : Nat) {o i k : Nat} (ho : o + k ≤ PGSIZE) (hi : i < PGSIZE) :
    p * PGSIZE + o ≤ pg * PGSIZE + i ∧ pg * PGSIZE + i < p * PGSIZE + o + k ↔
      pg = p ∧ o ≤ i ∧ i < o + k := by
  have hP : PGSIZE = 4096 := rfl
  rw [hP] at ho hi ⊢
  omega

theorem get_write (p o : Nat) (ho : o + bs.length ≤ PGSIZE) (pg i : Nat) (hi : i < PGSIZE) :
    Bytes.get ((s.write (p * PGSIZE + o) bs).mem pg) i =
      if pg = p ∧ o ≤ i ∧ i < o + bs.length then bs.getD (i - o) 0 else Bytes.get (s.mem pg) i := by
  rw [Bytes.get, dif_pos hi, Bytes.get, dif_pos hi]
  change (if p * PGSIZE + o ≤ pg * PGSIZE + i ∧ pg * PGSIZE + i < p * PGSIZE + o + bs.length then
    bs.getD (pg * PGSIZE + i - (p * PGSIZE + o)) 0 else s.mem pg ⟨i, hi⟩) = _
  by_cases hin : pg = p ∧ o ≤ i ∧ i < o + bs.length
  · rw [if_pos hin, if_pos ((addr_in_iff p pg ho hi).mpr hin), hin.1, Nat.add_sub_add_left]
  · rw [if_neg hin, if_neg (fun hc => hin ((addr_in_iff p pg ho hi).mp hc))]

theorem write_mem_of_ne (ho : va % PGSIZE + bs.length ≤ PGSIZE) {pg : Nat} (hpg : pg ≠ p) :
    (s.write (p * PGSIZE + va % PGSIZE) bs).mem pg = s.mem pg := by
  funext i
  have h := get_write (s := s) p (va % PGSIZE) ho pg i.val i.isLt
  rw [Bytes.get, dif_pos i.isLt, Bytes.get, dif_pos i.isLt, if_neg (fun hc => hpg hc.1)] at h
  exact h

theorem range_in_iff {k a : Nat} (ho : va % PGSIZE + k ≤ PGSIZE) :
    va ≤ a ∧ a < va + k ↔ a / PGSIZE = va / PGSIZE ∧ va % PGSIZE ≤ a % PGSIZE ∧
      a % PGSIZE < va % PGSIZE + k := by
  have hP : PGSIZE = 4096 := rfl
  rw [hP] at ho ⊢
  omega

theorem Stored.write (h : Private s.mem root) (hp : upage s.mem root (va / PGSIZE) = some p)
    (ho : va % PGSIZE + bs.length ≤ PGSIZE) :
    Stored s (s.write (p * PGSIZE + va % PGSIZE) bs) root va bs := by
  have hframe : ∀ pg, pg ≠ p → (s.write (p * PGSIZE + va % PGSIZE) bs).mem pg = s.mem pg :=
    fun pg hpg => write_mem_of_ne ho hpg
  have hget := get_write (s := s) p _ ho p
  have hfree : (s.write (p * PGSIZE + va % PGSIZE) bs).freelist = s.freelist := rfl
  generalize s.write (p * PGSIZE + va % PGSIZE) bs = s' at hframe hget hfree
  -- The page is not a table, so the tables stay as they are.
  rcases h.toTree.congr s'.mem (fun d k q hd hq =>
    hframe q (fun hqp => h.apart _ p hp d k hd (hqp ▸ hq))) with ⟨htree, htab, hleaf⟩
  have hpages : upage s'.mem root = upage s.mem root := by
    funext n
    rw [upage, upage, hleaf]
  have hpriv : Private s'.mem root := by
    refine ⟨htree, ?_, ?_, fun n q hq d k hd => ?_⟩
    · rw [hpages]
      exact h.phys
    · rw [hpages]
      exact h.inj
    · rw [htab d k hd]
      rw [hpages] at hq
      exact h.apart n q hq d k hd
  refine ⟨hpriv, funext hleaf, fun a => ?_, fun pg hpg => hframe pg (fun hc => hpg _ (hc ▸ hp)),
    hfree⟩
  have hmod : a % PGSIZE < PGSIZE := Nat.mod_lt _ (by decide)
  rw [ubyte, ubyte, hpages]
  by_cases hdiv : a / PGSIZE = va / PGSIZE
  · rw [hdiv, hp, Option.map_some, Option.map_some, hget _ hmod]
    by_cases hin : va ≤ a ∧ a < va + bs.length
    · have hoff : a % PGSIZE - va % PGSIZE = a - va := by
        rw [Nat.mod_eq_sub_div_mul, Nat.mod_eq_sub_div_mul, hdiv,
          Nat.sub_sub_sub_cancel_right (Nat.div_mul_le_self va PGSIZE)]
      rw [if_pos hin, if_pos ⟨rfl, ((range_in_iff ho).mp hin).2⟩, hoff,
        getD_eq_getElem _ _ (by omega), getElem?_eq_getElem]
    · rw [if_neg hin, if_neg (fun hc => hin ((range_in_iff ho).mpr ⟨hdiv, hc.2⟩))]
  · -- Another virtual page is another physical page.
    rw [if_neg (fun hc => hdiv ((range_in_iff ho).mp hc).1)]
    cases hq : upage s.mem root (a / PGSIZE) with
    | none => rfl
    | some q =>
      have hne : q ≠ p := fun hc => hdiv (h.inj _ _ p (hc ▸ hq) hp)
      rw [Option.map_some, Option.map_some, hframe q hne]

end Stored

section Copyout

variable {root : Nat}

/-- The loop of `copyout` stores the bytes up to the first that has no page. The
    induction is on the rounds. -/
theorem copyoutFrom_run (lay : Layout) (fuel : Nat) (s : Kernel) (h : Private s.mem root) (va : Nat)
    (src : List Byte) (hfuel : src.length ≤ fuel) :
    ∃ r s' k, Prog.run (perform lay) (copyoutFrom (root * PGSIZE) fuel va src) s = .done (r, s') ∧
      Stops (upage s.mem root) va src.length k r ∧ Stored s s' root va (src.take k) := by
  induction fuel generalizing s va src with
  | zero =>
    have hnil : src = [] := length_eq_zero_iff.mp (Nat.le_zero.mp hfuel)
    rw [hnil]
    exact ⟨0, s, 0, rfl, Stops.nil, Stored.nil h⟩
  | succ fuel ih =>
    by_cases hlen : src.length = 0
    · rw [length_eq_zero_iff.mp hlen]
      exact ⟨0, s, 0, rfl, Stops.nil, Stored.nil h⟩
    rw [copyoutFrom, if_neg hlen, walkaddr_bind h.space, sub_PGROUNDDOWN]
    cases hp : upage s.mem root (va / PGSIZE) with
    | none => exact ⟨-1, s, 0, rfl, Stops.first hlen hp, Stored.nil h⟩
    | some p =>
      have c := piece_spec hp hlen
      have htake : (src.take (min (PGSIZE - va % PGSIZE) src.length)).length =
          min (PGSIZE - va % PGSIZE) src.length := length_take_of_le c.le
      have hst : Stored s (s.write (p * PGSIZE + va % PGSIZE)
          (src.take (min (PGSIZE - va % PGSIZE) src.length))) root va _ :=
        Stored.write h hp (by rw [htake]; exact c.page)
      rcases ih _ hst.priv (u64 (PGROUNDDOWN va + PGSIZE))
        (src.drop (min (PGSIZE - va % PGSIZE) src.length))
        (by rw [length_drop]; have := c.pos; omega) with ⟨r, s', k, hrun, hstop, hst'⟩
      refine ⟨r, s', min (PGSIZE - va % PGSIZE) src.length + k, ?_, ?_, ?_⟩
      · rw [Option.elim_some, if_neg (h.space.page_ne_zero hp)]
        exact hrun
      · rw [hst.pages, length_drop] at hstop
        exact hstop.cons c (by rw [hp]; nofun)
      · rw [take_add]
        refine hst.append hst' ?_
        rcases c.next with hall | ⟨hnext, _⟩
        · left
          rw [hall, drop_length, take_nil]
        · right
          rw [htake, hnext]

end Copyout

section Copyin

variable {f : Nat → Option Byte} {s : Kernel} {root va va' p n len : Nat}
  {bs cs : List Byte}

/-- The bytes are those at an address. -/
def Fetched (f : Nat → Option Byte) (va : Nat) (bs : List Byte) : Prop :=
  ∀ j < bs.length, bs[j]? = f (va + j)

theorem Fetched.nil : Fetched f va [] := nofun

theorem Fetched.append (h : Fetched f va bs) (h' : Fetched f va' cs)
    (hva : cs = [] ∨ va' = va + bs.length) : Fetched f va (bs ++ cs) := by
  intro j hj
  rw [length_append] at hj
  by_cases hlt : j < bs.length
  · rw [getElem?_append_left hlt]
    exact h j hlt
  · rcases hva with rfl | rfl
    · exact absurd hj hlt
    · rw [getElem?_append_right (Nat.not_lt.mp hlt), h' _ (by omega)]
      congr 1
      omega

theorem Piece.byte_eq (c : Piece va len n va') (hp : upage s.mem root (va / PGSIZE) = some p)
    {j : Nat} (hj : j < n) :
    ubyte s.mem root (va + j) = some (s.byte (p * PGSIZE + va % PGSIZE + j)) := by
  have hP : PGSIZE = 4096 := rfl
  have hpage := c.page
  rw [ubyte, (c.div_eq hj).1, (c.div_eq hj).2, hp, Option.map_some, Kernel.byte]
  congr 3 <;> (rw [hP] at *; omega)

theorem Piece.fetched (c : Piece va len n va') (hp : upage s.mem root (va / PGSIZE) = some p) :
    Fetched (ubyte s.mem root) va
      ((range n).map (fun i => s.byte (p * PGSIZE + va % PGSIZE + i))) := by
  intro j hj
  rw [length_map, length_range] at hj
  rw [c.byte_eq hp hj, getElem?_map, getElem?_range hj, Option.map_some]

theorem copyinFrom_run (lay : Layout) (h : Space s.mem root) (fuel va len : Nat)
    (hfuel : len ≤ fuel) :
    ∃ r bs, Prog.run (perform lay) (copyinFrom (root * PGSIZE) fuel va len) s =
        .done ((r, bs), s) ∧
      Stops (upage s.mem root) va len bs.length r ∧ Fetched (ubyte s.mem root) va bs := by
  induction fuel generalizing va len with
  | zero =>
    rw [Nat.le_zero.mp hfuel]
    exact ⟨0, [], rfl, Stops.nil, Fetched.nil⟩
  | succ fuel ih =>
    by_cases hlen : len = 0
    · rw [hlen]
      exact ⟨0, [], rfl, Stops.nil, Fetched.nil⟩
    rw [copyinFrom, if_neg hlen, walkaddr_bind h, sub_PGROUNDDOWN]
    cases hp : upage s.mem root (va / PGSIZE) with
    | none => exact ⟨-1, [], rfl, Stops.first hlen hp, Fetched.nil⟩
    | some p =>
      have c := piece_spec hp hlen
      rcases ih (u64 (PGROUNDDOWN va + PGSIZE)) (len - min (PGSIZE - va % PGSIZE) len)
        (by have := c.pos; omega) with ⟨r, bs, hrun, hstop, hbs⟩
      have hlength : ((range (min (PGSIZE - va % PGSIZE) len)).map
          (fun i => s.byte (p * PGSIZE + va % PGSIZE + i))).length =
          min (PGSIZE - va % PGSIZE) len := by
        rw [length_map, length_range]
      refine ⟨r, (range (min (PGSIZE - va % PGSIZE) len)).map
        (fun i => s.byte (p * PGSIZE + va % PGSIZE + i)) ++ bs, ?_, ?_, ?_⟩
      · rw [Option.elim_some, if_neg (h.page_ne_zero hp)]
        change Prog.run (perform lay) (copyinFrom _ fuel _ _ >>= _) s = _
        rw [Prog.run_bind, hrun]
        rfl
      · rw [length_append, hlength]
        exact hstop.cons c (by rw [hp]; nofun)
      · refine (c.fetched hp).append hbs ?_
        rcases c.next with hall | ⟨hnext, _⟩
        · left
          have hle := hstop.le
          exact length_eq_zero_iff.mp (by omega)
        · right
          rw [hlength, hnext]

end Copyin

/-- `copyout` and `copyin` transfer the bytes that they should, up to the first that
    has no page, and return 0 when that was all of them. What was copied out is read
    back by `copyin`. -/
theorem copies_exact (lay : Layout) {s : Kernel} {root : Nat} (h : Private s.mem root) (va : Nat) :
    (∀ src : List Byte, ∃ r s' k,
      Prog.run (perform lay) (copyout (root * PGSIZE) va src) s = .done (r, s') ∧
      (r = 0 ↔ ∀ j < src.length, upage s.mem root ((va + j) / PGSIZE) ≠ none) ∧
      Stops (upage s.mem root) va src.length k r ∧ Stored s s' root va (src.take k) ∧
      (r = 0 → Prog.run (perform lay) (copyin (root * PGSIZE) va src.length) s' =
        .done ((0, src), s'))) ∧
    ∀ len : Nat, ∃ r bs,
      Prog.run (perform lay) (copyin (root * PGSIZE) va len) s = .done ((r, bs), s) ∧
      (r = 0 ↔ ∀ j < len, upage s.mem root ((va + j) / PGSIZE) ≠ none) ∧
      Stops (upage s.mem root) va len bs.length r ∧ Fetched (ubyte s.mem root) va bs := by
  refine ⟨fun src => ?_, fun len => ?_⟩
  · rcases copyoutFrom_run lay src.length s h va src (Nat.le_refl _) with
      ⟨r, s', k, hrun, hstop, hst⟩
    refine ⟨r, s', k, hrun, hstop.zero_iff, hstop, hst, fun hr => ?_⟩
    rcases copyinFrom_run lay hst.priv.space src.length va src.length (Nat.le_refl _) with
      ⟨r', bs, hrun', hstop', hbs⟩
    -- Every byte has a page, so both copies are complete.
    rw [hst.pages] at hstop'
    have hr' : r' = 0 := hstop'.zero_iff.mpr (hstop.zero_iff.mp hr)
    have hall : ∀ {k r}, Stops (upage s.mem root) va src.length k r → r = 0 → k = src.length := by
      intro k r hs hr
      rcases hs.ends with ⟨_, hk⟩ | ⟨hneg, _⟩
      · exact hk
      · exact nomatch (hr.symm.trans hneg)
    have hsrc : bs = src := by
      refine ext_getElem? (fun j => ?_)
      have hlen : bs.length = src.length := hall hstop' hr'
      by_cases hj : j < bs.length
      · rw [hbs j hj, hst.bytes, hall hstop hr, take_length, if_pos (by omega),
          Nat.add_sub_cancel_left]
      · rw [getElem?_eq_none (by omega), getElem?_eq_none (by omega)]
    rw [hr', hsrc] at hrun'
    exact hrun'
  · rcases copyinFrom_run lay h.space len va len (Nat.le_refl _) with
      ⟨r, bs, hrun, hstop, hbs⟩
    exact ⟨r, bs, hrun, hstop.zero_iff, hstop, hbs⟩

/-- A memory of five free pages. -/
def freePages : Kernel where
  mem := fun pg i => if i.val = 1 ∧ 1 ≤ pg ∧ pg < 5 then BitVec.ofNat 8 (16 * (pg + 1)) else 0
  freelist := 1 * PGSIZE

theorem freePages_chain : Chain freePages.mem freePages.freelist [1, 2, 3, 4, 5] := by
  have hlast : Bytes.readLe (freePages.mem 5) 0 8 = 0 := by decide +kernel
  refine ⟨rfl, by decide, by decide, ?_, by decide, by decide, ?_, by decide, by decide, ?_,
    by decide, by decide, ?_, by decide, by decide, hlast⟩ <;> decide +kernel

/-- Two pages that are not writable, and the bytes 1, 2 and 0 across the end of the first. -/
def Text (s : Kernel) : Prop :=
  (∀ n < 2, upage s.mem 1 n ≠ none ∧ leaf s.mem 1 n &&& PTE_W = 0) ∧ upage s.mem 1 2 = none ∧
    ubyte s.mem 1 4094 = some 1 ∧ ubyte s.mem 1 4095 = some 2 ∧ ubyte s.mem 1 4096 = some 0 ∧
    ubyte s.mem 1 8191 = some 0

instance (s : Kernel) : Decidable (Text s) := inferInstanceAs (Decidable (_ ∧ _))

/-- A process gets two pages of text, with the flags R and X as `exec` maps them, and the
    kernel copies two bytes to the end of the first one. -/
theorem exists_text : ∃ s : Kernel, Private s.mem 1 ∧ Text s := by
  rcases Outcome.exists_of_check (fun x : Nat × Kernel => decide (x.1 = 1 * PGSIZE) &&
    (Prog.run (perform smallKernel) (uvmalloc (1 * PGSIZE) 0 (2 * PGSIZE) (flags2perm 0x5))
      x.2).check (fun y : Nat × Kernel => decide (y.1 = 2 * PGSIZE) &&
    (Prog.run (perform smallKernel) (copyout (1 * PGSIZE) 4094 [1, 2]) y.2).check
      (fun z : Int × Kernel => decide (Text z.2))))
    (Prog.run (perform smallKernel) uvmcreate freePages) (by decide +kernel)
    with ⟨⟨pt, s₁⟩, hcreate, h₁⟩
  rw [Bool.and_eq_true, decide_eq_true_eq] at h₁
  rcases Outcome.exists_of_check _ _ h₁.2 with ⟨⟨sz, s₂⟩, halloc, h₂⟩
  rw [Bool.and_eq_true, decide_eq_true_eq] at h₂
  rcases Outcome.exists_of_check _ _ h₂.2 with ⟨⟨r, s₃⟩, hcopy, h₃⟩
  obtain rfl : pt = 1 * PGSIZE := h₁.1
  obtain rfl : sz = 2 * PGSIZE := h₂.1
  rcases uvmalloc_private freePages_chain (by decide) (by decide) (by decide) hcreate halloc with
    ⟨root, hroot, hpriv⟩
  obtain rfl : 1 = root := Nat.eq_of_mul_eq_mul_right (by decide) hroot
  rcases copyoutFrom_run smallKernel 2 s₂ hpriv 4094 [1, 2] (Nat.le_refl 2) with
    ⟨r', s', k, hrun, _, hst⟩
  have hs := Prod.mk.inj (Outcome.done.inj (hrun.symm.trans hcopy))
  rw [hs.2] at hst
  exact ⟨s₃, hst.priv, of_decide_eq_true h₃⟩

/-- Three bytes are copied across the end of a page, and read back. -/
theorem copies_exact_text : ∃ s s',
    Prog.run (perform smallKernel) (copyout (1 * PGSIZE) 4094 [1, 2, 3]) s = .done (0, s') ∧
    Prog.run (perform smallKernel) (copyin (1 * PGSIZE) 4094 3) s' =
      .done ((0, [1, 2, 3]), s') := by
  rcases exists_text with ⟨s, hpriv, hpages, _⟩
  rcases (copies_exact smallKernel hpriv 4094).1 [1, 2, 3] with ⟨r, s', k, hrun, hzero, _, _, hback⟩
  have hr : r = 0 := hzero.mpr (fun j hj => by
    have hP : PGSIZE = 4096 := rfl
    rw [length_cons, length_cons, length_cons, length_nil] at hj
    exact (hpages _ (by rw [hP]; omega)).1)
  exact ⟨s, s', by rw [hrun, hr], hback hr⟩

section ReadOnly

variable {s : Kernel} {root va : Nat} {src : List Byte}

/-- The user may access the byte, and its entry lacks `PTE_W`. -/
def ReadOnly (mem : Nat → Buffer PGSIZE) (root a : Nat) : Prop :=
  upage mem root (a / PGSIZE) ≠ none ∧ leaf mem root (a / PGSIZE) &&& PTE_W = 0

/-- `copyout` leaves read-only pages alone, and fails when it is given one. -/
def Respects (lay : Layout) (s : Kernel) (root va : Nat) (src : List Byte) : Prop :=
  ∃ r s', Prog.run (perform lay) (copyout (root * PGSIZE) va src) s = .done (r, s') ∧
    (∀ a, ReadOnly s.mem root a → ubyte s'.mem root a = ubyte s.mem root a) ∧
    ((∃ j < src.length, ReadOnly s.mem root (va + j)) → r = -1)

/-- A read-only byte in the range is safe only when the copy fails elsewhere, and
    when it fails before that byte or would store what is there already. -/
theorem respects_iff (lay : Layout) (h : Private s.mem root) :
    Respects lay s root va src ↔
      ∀ j < src.length, ReadOnly s.mem root (va + j) →
        (∃ i < src.length, upage s.mem root ((va + i) / PGSIZE) = none) ∧
        ((∀ i ≤ j, upage s.mem root ((va + i) / PGSIZE) ≠ none) →
          src[j]? = ubyte s.mem root (va + j)) := by
  rcases copyoutFrom_run lay src.length s h va src (Nat.le_refl _) with
    ⟨r, s', k, hrun, hstop, hst⟩
  have hbyte : ∀ j < k, ubyte s'.mem root (va + j) = src[j]? := by
    intro j hj
    have hle := hstop.le
    rw [hst.bytes, if_pos (by rw [length_take]; omega), Nat.add_sub_cancel_left,
      getElem?_take_of_lt hj]
  constructor
  · rintro ⟨r₁, s₁, hrun₁, hkeep, hfail⟩ j hj hro
    have heq := Outcome.done.inj (hrun₁.symm.trans hrun)
    rw [Prod.mk.injEq] at heq
    rw [heq.1] at hfail
    rw [heq.2] at hkeep
    rcases hstop.ends with ⟨hr, _⟩ | ⟨_, hlt, hnone, _⟩
    · exact nomatch (hr.symm.trans (hfail ⟨j, hj, hro⟩))
    · refine ⟨⟨k, hlt, hnone⟩, fun hall => ?_⟩
      -- All bytes up to this one have pages, so the copy got past it.
      have hjk : j < k := by
        by_contra hc
        exact hall k (Nat.not_lt.mp hc) hnone
      rw [← hbyte j hjk, hkeep _ hro]
  · intro hcond
    refine ⟨r, s', hrun, fun a hro => ?_, ?_⟩
    · by_cases hin : va ≤ a ∧ a < va + k
      · have ha : va + (a - va) = a := Nat.add_sub_cancel' hin.1
        have hle := hstop.le
        have hsame := (hcond (a - va) (by omega) (ha.symm ▸ hro)).2
          (fun i hi => hstop.reached i (by omega))
        have hnew := hbyte (a - va) (by omega)
        rw [ha] at hsame hnew
        rw [hnew, hsame]
      · rw [hst.bytes, if_neg (by rw [length_take]; omega)]
    · rintro ⟨j, hj, hro⟩
      rcases (hcond j hj hro).1 with ⟨i, hi, hnone⟩
      rcases hstop.ends with ⟨hr, _⟩ | ⟨hr, _⟩
      · exact absurd hnone (hstop.zero_iff.mp hr i hi)
      · exact hr

/-- At the end of the text, where a zero is written over a zero and the byte after it has no
    page, the copy fails and nothing changes. At its start a copy goes through. -/
theorem respects_iff_text : ∃ s : Kernel, Private s.mem 1 ∧ ReadOnly s.mem 1 8191 ∧
    Respects smallKernel s 1 8191 [0, 1] ∧ ¬Respects smallKernel s 1 0 [1] := by
  have hP : PGSIZE = 4096 := rfl
  rcases exists_text with ⟨s, hpriv, hpages, hend, _, _, _, hbyte⟩
  refine ⟨s, hpriv, hpages 1 (by decide), (respects_iff smallKernel hpriv).mpr ?_, fun hres => ?_⟩
  · intro j hj hro
    have hzero : j = 0 := by
      by_contra hne
      rw [length_cons, length_cons, length_nil] at hj
      rw [show 8191 + j = 2 * 4096 by omega] at hro
      exact hro.1 hend
    rw [hzero]
    exact ⟨⟨1, by decide, hend⟩, fun _ => hbyte.symm⟩
  · rcases ((respects_iff smallKernel hpriv).mp hres 0 (by decide) (hpages 0 (by decide))).1 with
      ⟨i, hi, hnone⟩
    rw [length_singleton] at hi
    rw [show 0 + i = 0 by omega] at hnone
    exact (hpages 0 (by decide)).1 hnone

/-- `exec` maps a segment with the flags R and X, as that of a program's text is, and
    `copyout` to it succeeds: the first byte of the text was 0 and is 1 after that. -/
theorem copyout_overwrites_text :
    (Prog.run (perform smallKernel) (do
      let pagetable ← uvmcreate
      let sz ← uvmalloc pagetable 0 PGSIZE (flags2perm 0x5)
      let pte ← lookup pagetable 0
      let old ← copyin pagetable 0 1
      let r ← copyout pagetable 0 [1]
      let new ← copyin pagetable 0 1
      return (sz, PTE_FLAGS pte, old, r, new)) freePages).check (fun x => x.1 =
        (PGSIZE, PTE_V ||| PTE_R ||| PTE_X ||| PTE_U, (0, [0]), 0, (0, [1]))) = true := by
  decide +kernel

end ReadOnly

end Xv6.Vm
