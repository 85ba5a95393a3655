import Xv6.Vm.Table

/-!
# Mapping and Unmapping

`mappages` and `uvmunmap` as changes to a finite map from virtual pages to entries.

The map is `leaf`, which is what `walk` without allocation leads to. A run of
`mappages` that does not panic sets the entries of the first pages of its range:
of all of them if it succeeds, and of those before the one for which a table could
not be allocated if it fails. Addresses are 64-bit numbers, and a range whose end
wraps around starts at its first page and has no end that a loop could reach, so
that pages behind it are mapped until the memory is used up.

The panics say what is wrong with a page of the range, and so a range in which
every page is as the function expects it is mapped or unmapped.

## Main definitions

* `lookup`: The entry of a page, as the kernel finds it.
* `newPte`: The entry that `mappages` stores.
* `Mapped`: Some pages got entries, and nothing else changed.
* `Unfit`: A page that `uvmunmap` does not accept.
* `FiniteMap`: What the functions do to the map.

## Theorems

* `page_table_map`: The page table is a finite map.
* `mappages_wraps`: A range that wraps around is mapped behind its end.
-/

namespace Xv6.Vm

open Function

/-- The entry that `walk` without allocation leads to, or 0. -/
def lookup (pagetable va : Nat) : M Nat := do
  let pte ← walk pagetable va false
  if pte = 0 then return 0 else load pte

/-- The entry that `mappages` stores for a physical address. -/
def newPte (pa perm : Nat) : Nat := PA2PTE pa ||| perm ||| PTE_V

/-- The `j` virtual pages from `n` on, which had no valid entries, are mapped to
    physical memory from `pa` on. A page that was in use for something else still is. -/
structure Mapped (s s' : Kernel) (root n j pa perm : Nat) : Prop where
  tree : ∃ free, PageTable s'.mem s'.freelist root free
  entries : ∀ m, leaf s'.mem root m =
    if n ≤ m ∧ m < n + j then newPte (u64 (pa + (m - n) * PGSIZE)) perm else leaf s.mem root m
  unmapped : ∀ m, n ≤ m → m < n + j → leaf s.mem root m &&& PTE_V = 0
  spare : ∀ p, Spare s.mem s.freelist root p → Spare s'.mem s'.freelist root p

section Entries

variable {pa perm : Nat}

theorem pa2pte_lt (hpa : pa < 2 ^ 64) : PA2PTE pa < 2 ^ 62 := by
  rw [PA2PTE, Nat.shiftRight_eq_div_pow, Nat.shiftLeft_eq]
  omega

theorem newPte_lt (hpa : pa < 2 ^ 64) (hperm : perm < 1024) : newPte pa perm < 2 ^ 64 := by
  have h₁ : PA2PTE pa < 2 ^ 64 := Nat.lt_trans (pa2pte_lt hpa) (by decide)
  have h₂ : perm < 2 ^ 64 := Nat.lt_trans hperm (by decide)
  exact Nat.or_lt_two_pow (Nat.or_lt_two_pow h₁ h₂) (by decide)

theorem newPte_spec (hpa : pa < 2 ^ 64) (hperm : perm < 1024) :
    PTE2PA (newPte pa perm) = PGROUNDDOWN pa ∧ PTE_FLAGS (newPte pa perm) = perm ||| PTE_V := by
  have hP : PGSIZE = 4096 := rfl
  have hflags : perm ||| PTE_V < 1024 :=
    Nat.or_lt_two_pow (n := 10) hperm (by decide)
  have hpte : PA2PTE pa = PA2PTE (pa / PGSIZE * PGSIZE) := by
    have hdiv : pa / PGSIZE * PGSIZE / 2 ^ 12 = pa / 2 ^ 12 := by
      rw [hP]
      omega
    rw [PA2PTE, PA2PTE, Nat.shiftRight_eq_div_pow, Nat.shiftRight_eq_div_pow, hdiv]
  rw [newPte, Nat.or_assoc, hpte, pte_or _ _ hflags]
  refine ⟨pte2pa_add _ _ ?_ hflags, pte_flags_add _ _ hflags⟩
  rw [hP]
  omega

end Entries

section Lookup

variable {lay : Layout} {s : Kernel} {root n va : Nat} {p : Nat}

theorem leaf_of_table {mem : Nat → Buffer PGSIZE} (h : table mem root 2 (n / 512) = some p) :
    leaf mem root n = word mem p (n % 512) := by
  unfold table at h
  rw [leaf, Radix.ent, h]
  rfl

theorem leaf_of_none {mem : Nat → Buffer PGSIZE} (h : table mem root 2 (n / 512) = none) :
    leaf mem root n = 0 := by
  unfold table at h
  rw [leaf, Radix.ent, h]
  rfl

theorem entryAddr_some (h : 0 < p) : entryAddr (some p) n ≠ 0 := by
  have hP : PGSIZE = 4096 := rfl
  rw [entryAddr, hP]
  omega

theorem lookup_eq (h : Tree s.mem root) (hva : va < MAXVA) :
    Prog.run (perform lay) (lookup (root * PGSIZE) va) s =
      .done (leaf s.mem root (va / PGSIZE), s) := by
  rw [lookup, Prog.run_bind, walk_false hva, Outcome.done_bind]
  cases ht : table s.mem root 2 (va / PGSIZE / 512) with
  | none =>
    rw [leaf_of_none ht]
    rfl
  | some p =>
    rw [if_neg (entryAddr_some (h.pos 2 _ p (Nat.le_refl 2) ht)), leaf_of_table ht]
    exact run_load (Nat.mod_lt _ (by decide))

end Lookup

section Map

variable {lay : Layout} {s s' s'' : Kernel} {root n j pa perm last : Nat} {free : List Nat}

theorem Mapped.refl {mem' : Nat → Buffer PGSIZE} {fl' : Nat} (h : PageTable mem' fl' root free)
    (hleaf : ∀ m, leaf mem' root m = leaf s.mem root m)
    (hspare : ∀ p, Spare s.mem s.freelist root p → Spare mem' fl' root p) :
    Mapped s ⟨mem', fl'⟩ root n 0 pa perm :=
  ⟨⟨free, h⟩, fun m => by rw [if_neg (by omega), hleaf], fun m h₁ h₂ => by omega, hspare⟩

theorem Mapped.cons {mem' : Nat → Buffer PGSIZE} {fl' : Nat}
    (hleaf : leaf mem' root = update (leaf s.mem root) n (newPte pa perm))
    (hpa : pa < 2 ^ 64) (hun : leaf s.mem root n &&& PTE_V = 0)
    (hspare : ∀ p, Spare s.mem s.freelist root p → Spare mem' fl' root p)
    (h : Mapped ⟨mem', fl'⟩ s'' root (n + 1) j (u64 (pa + PGSIZE))
      perm) : Mapped s s'' root n (j + 1) pa perm := by
  have hP : PGSIZE = 4096 := rfl
  refine ⟨h.tree, fun m => ?_, fun m h₁ h₂ => ?_, fun p hp => h.spare p (hspare p hp)⟩
  · rw [h.entries, hleaf]
    by_cases hm : m = n
    · rw [if_neg (by omega), if_pos (by omega), hm, update_self, Nat.sub_self,
        Nat.zero_mul, Nat.add_zero, u64, Nat.mod_eq_of_lt hpa]
    · rw [update_of_ne hm]
      by_cases hin : n + 1 ≤ m ∧ m < n + 1 + j
      · have hu : u64 (u64 (pa + PGSIZE) + (m - (n + 1)) * PGSIZE) =
            u64 (pa + (m - n) * PGSIZE) := by
          unfold u64
          rw [hP]
          omega
        rw [if_pos hin, if_pos (by omega), hu]
      · rw [if_neg hin, if_neg (by omega)]
  · by_cases hm : m = n
    · rw [hm]
      exact hun
    · have hold := h.unmapped m (by omega) (by omega)
      simp only [hleaf] at hold
      rwa [update_of_ne hm] at hold

/-- How `mappages` ends from page `n` on. -/
def MapEnds (s : Kernel) (root n last size pa perm : Nat) :
    Outcome Panic (Int × Kernel) → Prop
  | .done (r, s') => r = 0 ∧ n ≤ last ∧ Mapped s s' root n (last + 1 - n) pa perm ∨
      r = -1 ∧ PageTable s'.mem s'.freelist root [] ∧
        ∃ j, (n ≤ last → n + j ≤ last) ∧ Mapped s s' root n j pa perm
  | .panic .mappagesSize => size = 0
  | .panic .mappagesRemap => ∃ m, n ≤ m ∧ (n ≤ last → m ≤ last) ∧ leaf s.mem root m &&& PTE_V ≠ 0
  | .panic .walk => n ≤ last → MAXVA ≤ last * PGSIZE
  | .panic _ => False
  | .wait => False

theorem MapEnds.cons {x : Outcome Panic (Int × Kernel)} {pa' size : Nat} (hn : n ≠ last)
    (hleaf : ∀ m, m ≠ n → leaf s'.mem root m = leaf s.mem root m)
    (hm : ∀ j s'', Mapped s' s'' root (n + 1) j pa' perm → Mapped s s'' root n (j + 1) pa perm)
    (h : MapEnds s' root (n + 1) last size pa' perm x) : MapEnds s root n last size pa perm x := by
  cases x with
  | panic e =>
    cases e with
    | mappagesRemap =>
      rcases h with ⟨m, hm₁, hm₂, hv⟩
      rw [hleaf m (by omega)] at hv
      exact ⟨m, by omega, fun hle => hm₂ (by omega), hv⟩
    | walk => exact fun hle => h (by omega)
    | _ => exact h
  | wait => exact h
  | done r =>
    rcases r with ⟨r, s''⟩
    rcases h with ⟨hr, hle, hmap⟩ | ⟨hr, hout, j, hj, hmap⟩
    · have hlen : last + 1 - n = last + 1 - (n + 1) + 1 := by omega
      refine Or.inl ⟨hr, by omega, ?_⟩
      rw [hlen]
      exact hm _ s'' hmap
    · exact Or.inr ⟨hr, hout, j + 1, fun hle => by have := hj (by omega); omega, hm j s'' hmap⟩

theorem mappagesFrom_run (hperm : perm < 1024) {fuel size : Nat} (h0 : 0 < fuel)
    (hfuel : MAXVA / PGSIZE < n + fuel) (hpa : pa < 2 ^ 64)
    (h : PageTable s.mem s.freelist root free) :
    MapEnds s root n last size pa perm (Prog.run (perform lay)
      (mappagesFrom (root * PGSIZE) (last * PGSIZE) perm fuel (n * PGSIZE) pa) s) := by
  have hP : PGSIZE = 4096 := rfl
  have hM : MAXVA = 274877906944 := by decide
  -- The induction is on the pages left below `MAXVA`, where `walk` panics.
  induction fuel generalizing n pa s free with
  | zero => omega
  | succ fuel ih =>
    rw [mappagesFrom, Prog.run_bind]
    by_cases hva : n * PGSIZE < MAXVA
    · rcases walk_true lay hva h with ⟨o, mem', fl', free', hrun, h', hleaf, hsp, ho⟩
      rw [Nat.mul_div_cancel n (by decide)] at hrun ho
      rw [hrun, Outcome.done_bind]
      -- There is no page for a table, or the entry has an address.
      rcases ho with ⟨rfl, rfl⟩ | ⟨hne, ho⟩
      · rw [if_pos (show entryAddr none n = 0 from rfl)]
        exact Or.inr ⟨rfl, h', 0, fun hle => hle, Mapped.refl h' hleaf hsp⟩
      · obtain ⟨p, rfl⟩ := Option.ne_none_iff_exists'.mp hne
        have hmod : n % 512 < 512 := Nat.mod_lt n (by decide)
        rw [if_neg (entryAddr_some (h'.pos 2 _ p (Nat.le_refl 2) ho.symm)), Prog.run_bind,
          entryAddr, run_load hmod, Outcome.done_bind]
        have hword : word mem' p (n % 512) = leaf s.mem root n := by
          rw [← leaf_of_table ho.symm, hleaf]
        simp only [hword]
        by_cases hv : leaf s.mem root n &&& PTE_V ≠ 0
        · rw [if_pos hv]
          exact ⟨n, Nat.le_refl n, id, hv⟩
        · rw [if_neg hv, Prog.run_bind, run_store hmod, Outcome.done_bind]
          rcases h'.setLeaf ho.symm (newPte_lt hpa hperm) rfl with ⟨h₂, hleaf₂, hsp₂⟩
          have hsame : leaf mem' root = leaf s.mem root := funext hleaf
          rw [hsame] at hleaf₂
          have hun : leaf s.mem root n &&& PTE_V = 0 := Classical.not_not.mp hv
          -- One entry more, in front of those that the rest of the loop stores.
          have hstep : ∀ j s'', Mapped ⟨_, fl'⟩ s'' root (n + 1) j
              (u64 (pa + PGSIZE)) perm → Mapped s s'' root n (j + 1) pa perm :=
            fun j s'' hj => Mapped.cons hleaf₂ hpa hun (fun p hp => hsp₂ p (hsp p hp)) hj
          by_cases hlast : n * PGSIZE = last * PGSIZE
          · have hn : n = last := by rw [hP] at hlast; omega
            rw [if_pos hlast]
            refine Or.inl ⟨rfl, by omega, ?_⟩
            rw [hn, Nat.add_sub_cancel_left, ← hn]
            exact hstep 0 _ (Mapped.refl h₂ (fun _ => rfl) (fun _ => id))
          · have hn : n ≠ last := fun he => hlast (by rw [he])
            rw [if_neg hlast, ← Nat.succ_mul]
            have hbelow : n < MAXVA / PGSIZE := by
              rw [hM, hP] at *
              omega
            exact MapEnds.cons hn (fun m hm => by simp only [hleaf₂, update_of_ne hm]) hstep
              (ih (n := n + 1) (by omega) (by omega) (Nat.mod_lt _ (by decide)) h₂)
    · rw [walk, if_pos (Nat.not_lt.mp hva)]
      exact fun hle => Nat.le_trans (Nat.not_lt.mp hva) (Nat.mul_le_mul_right PGSIZE hle)

end Map

/-- The virtual pages from `n` on below address `last`, which had entries of their
    own, are unmapped. -/
structure Unmapped (s s' : Kernel) (root n last : Nat) : Prop where
  tree : Tree s'.mem root
  entries : ∀ m, leaf s'.mem root m =
    if n ≤ m ∧ m * PGSIZE < last then 0 else leaf s.mem root m
  mapped : ∀ m, n ≤ m → m * PGSIZE < last →
    leaf s.mem root m &&& PTE_V ≠ 0 ∧ PTE_FLAGS (leaf s.mem root m) ≠ PTE_V

/-- What is wrong with a page when `uvmunmap` panics: it is not mapped, or not as a
    page of a process, or what it is mapped to is no page of the allocator. -/
def Unfit (lay : Layout) (s : Kernel) (root m : Nat) (doFree : Bool) : Panic → Prop
  | .walk => MAXVA ≤ m * PGSIZE
  | .uvmunmapWalk => leaf s.mem root m &&& PTE_V = 0
  | .uvmunmapNotMapped => leaf s.mem root m &&& PTE_V = 0
  | .uvmunmapNotLeaf => PTE_FLAGS (leaf s.mem root m) = PTE_V
  | .kfree => doFree = true ∧
      (PTE2PA (leaf s.mem root m) < lay.kend ∨ PHYSTOP ≤ PTE2PA (leaf s.mem root m))
  | _ => False

/-- How `uvmunmap` ends from page `n` on. -/
def UnmapEnds (lay : Layout) (s : Kernel) (root n last : Nat) (doFree : Bool) :
    Outcome Panic (Unit × Kernel) → Prop
  | .done (_, s') => Unmapped s s' root n last
  | .panic e => ∃ m, n ≤ m ∧ m * PGSIZE < last ∧ Unfit lay s root m doFree e
  | .wait => False

/-- The pages behind the entries from `n` on below `last` are not tables. -/
def Apart (mem : Nat → Buffer PGSIZE) (root n last : Nat) : Prop :=
  ∀ m, n ≤ m → m * PGSIZE < last → leaf mem root m &&& PTE_V ≠ 0 →
    ∀ d k, d ≤ 2 → table mem root d k ≠ some (PTE2PA (leaf mem root m) / PGSIZE)

section Unmap

variable {lay : Layout} {s s'' : Kernel} {mem' : Nat → Buffer PGSIZE} {fl' root n last p : Nat}

theorem Unmapped.cons (hleaf : leaf mem' root = update (leaf s.mem root) n 0)
    (hn : n * PGSIZE < last) (hv : leaf s.mem root n &&& PTE_V ≠ 0)
    (hl : PTE_FLAGS (leaf s.mem root n) ≠ PTE_V)
    (h : Unmapped ⟨mem', fl'⟩ s'' root (n + 1) last) :
    Unmapped s s'' root n last := by
  refine ⟨h.tree, fun m => ?_, fun m h₁ h₂ => ?_⟩
  · rw [h.entries, hleaf]
    by_cases hm : m = n
    · rw [if_neg (by omega), hm, if_pos ⟨Nat.le_refl n, hn⟩, update_self]
    · rw [update_of_ne hm]
      by_cases hin : n + 1 ≤ m ∧ m * PGSIZE < last
      · rw [if_pos hin, if_pos ⟨by omega, hin.2⟩]
      · rw [if_neg hin, if_neg (by omega)]
  · by_cases hm : m = n
    · rw [hm]
      exact ⟨hv, hl⟩
    · have hold := h.mapped m (by omega) h₂
      simp only [hleaf] at hold
      rwa [update_of_ne hm] at hold

/-- A page is freed, if it has to be, and an empty entry stored. -/
theorem unmap_step (lay : Layout) (h : Tree s.mem root) (hp : table s.mem root 2 (n / 512) = some p)
    {doFree : Bool} (rest : M Unit) (hapart : doFree = true → ∀ d k, d ≤ 2 →
      table s.mem root d k ≠ some (PTE2PA (leaf s.mem root n) / PGSIZE)) :
    (Unfit lay s root n doFree .kfree ∧ Prog.run (perform lay)
        (do if doFree then kfree (PTE2PA (leaf s.mem root n))
            store (p * PGSIZE + 8 * (n % 512)) 0
            rest) s = .panic .kfree) ∨
      ∃ mem' fl', Prog.run (perform lay)
          (do if doFree then kfree (PTE2PA (leaf s.mem root n))
              store (p * PGSIZE + 8 * (n % 512)) 0
              rest) s = Prog.run (perform lay) rest ⟨mem', fl'⟩ ∧
        Tree mem' root ∧ (∀ d k, d ≤ 2 → table mem' root d k = table s.mem root d k) ∧
        leaf mem' root = update (leaf s.mem root) n 0 := by
  have hmod : n % 512 < 512 := Nat.mod_lt n (by decide)
  cases doFree with
  | false =>
    refine Or.inr ⟨_, s.freelist, ?_, h.setLeaf hp (by decide) rfl⟩
    rw [if_neg Bool.false_ne_true, Prog.run_bind, run_store hmod]
    rfl
  | true =>
    have hkfree : Prog.run (perform lay) (kfree (PTE2PA (leaf s.mem root n))) s =
        perform lay (.kfree (PTE2PA (leaf s.mem root n))) s :=
      Prog.run_call (perform lay) (.kfree _) s
    change _ = (if _ then Outcome.panic Panic.kfree else .done ((), s.kfree _)) at hkfree
    rw [if_pos rfl, Prog.run_bind, hkfree]
    split
    · rename_i hbad
      refine Or.inl ⟨⟨rfl, hbad.resolve_left (fun hne => hne ?_)⟩, rfl⟩
      unfold PTE2PA u64
      rw [Nat.shiftLeft_eq, show PGSIZE = 4096 from rfl]
      omega
    · -- The page that is freed is none of the tables.
      rcases h.congr (s.kfree (PTE2PA (leaf s.mem root n))).mem (fun d k q hd hq => by
        refine update_of_ne (fun he => ?_) _ _
        rw [he] at hq
        exact hapart rfl d k hd hq) with ⟨h₁, htab₁, hleaf₁⟩
      rcases h₁.setLeaf (n := n) (x := 0) (by rw [htab₁ 2 _ (Nat.le_refl 2)]; exact hp)
        (by decide) rfl with ⟨h₂, htab₂, hleaf₂⟩
      refine Or.inr ⟨_, (s.kfree (PTE2PA (leaf s.mem root n))).freelist, ?_, h₂,
        fun d k hd => (htab₂ d k hd).trans (htab₁ d k hd), ?_⟩
      · rw [Outcome.done_bind, Prog.run_bind, run_store hmod]
        rfl
      · rw [hleaf₂, funext hleaf₁]

theorem UnmapEnds.cons {doFree : Bool} {x : Outcome Panic (Unit × Kernel)}
    (h : UnmapEnds lay ⟨mem', fl'⟩ root (n + 1) last doFree x)
    (hleaf : leaf mem' root = update (leaf s.mem root) n 0) (hn : n * PGSIZE < last)
    (hv : leaf s.mem root n &&& PTE_V ≠ 0) (hl : PTE_FLAGS (leaf s.mem root n) ≠ PTE_V) :
    UnmapEnds lay s root n last doFree x := by
  cases x with
  | panic e =>
    rcases h with ⟨m, hm, hlast, hbad⟩
    refine ⟨m, by omega, hlast, ?_⟩
    have hsame : leaf mem' root m = leaf s.mem root m := by
      rw [hleaf, update_of_ne (by omega)]
    cases e <;> simp only [Unfit, hsame] at hbad ⊢ <;> exact hbad
  | wait => exact h
  | done r => exact Unmapped.cons hleaf hn hv hl h

theorem uvmunmapFrom_run (lay : Layout) (doFree : Bool) (fuel : Nat) (h0 : 0 < fuel)
    (hfuel : MAXVA / PGSIZE < n + fuel) (h : Tree s.mem root)
    (hapart : doFree = true → Apart s.mem root n last) :
    UnmapEnds lay s root n last doFree (Prog.run (perform lay)
      (uvmunmapFrom (root * PGSIZE) last doFree fuel (n * PGSIZE)) s) := by
  have hP : PGSIZE = 4096 := rfl
  have hM : MAXVA = 274877906944 := by decide
  -- As for `mappages`, `walk` panics before the loop runs out of steps.
  induction fuel generalizing n s with
  | zero => omega
  | succ fuel ih =>
    rw [uvmunmapFrom]
    by_cases hlast : n * PGSIZE < last
    · rw [if_pos hlast, Prog.run_bind]
      by_cases hva : n * PGSIZE < MAXVA
      · rw [walk_false hva, Outcome.done_bind, Nat.mul_div_cancel n (by decide)]
        -- The three checks of the source, and then the page is freed.
        cases ht : table s.mem root 2 (n / 512) with
        | none =>
          refine ⟨n, Nat.le_refl n, hlast, ?_⟩
          change leaf s.mem root n &&& PTE_V = 0
          rw [leaf_of_none ht, Nat.zero_and]
        | some p =>
          have hmod : n % 512 < 512 := Nat.mod_lt n (by decide)
          rw [if_neg (entryAddr_some (h.pos 2 _ p (Nat.le_refl 2) ht)), Prog.run_bind,
            entryAddr, run_load hmod, Outcome.done_bind, ← leaf_of_table ht]
          simp only
          by_cases hv : leaf s.mem root n &&& PTE_V = 0
          · rw [if_pos hv]
            exact ⟨n, Nat.le_refl n, hlast, hv⟩
          · rw [if_neg hv]
            by_cases hl : PTE_FLAGS (leaf s.mem root n) = PTE_V
            · rw [if_pos hl]
              exact ⟨n, Nat.le_refl n, hlast, hl⟩
            · have hfree := fun hd => hapart hd n (Nat.le_refl n) hlast hv
              rw [if_neg hl, ← Nat.succ_mul]
              rcases unmap_step lay h ht _ hfree with
                ⟨hbad, hrun⟩ | ⟨mem', fl', hrun, h', htab, hleaf⟩
              · rw [hrun]
                exact ⟨n, Nat.le_refl n, hlast, hbad⟩
              · have hbelow : n < MAXVA / PGSIZE := by
                  rw [hM, hP] at *
                  omega
                have hend := ih (s := ⟨mem', fl'⟩) (n := n + 1)
                  (by omega) (by omega) h' (fun hd m hm hml hmv d k hdk => by
                    have hne : m ≠ n := by omega
                    simp only [htab d k hdk, hleaf, update_of_ne hne] at hmv ⊢
                    exact hapart hd m (by omega) hml hmv d k hdk)
                rw [hrun]
                exact hend.cons hleaf hlast hv hl
      · rw [walk, if_pos (Nat.not_lt.mp hva)]
        exact ⟨n, Nat.le_refl n, hlast, Nat.not_lt.mp hva⟩
    · rw [if_neg hlast]
      have hout : ∀ m, n ≤ m → ¬m * PGSIZE < last := fun m hm hlt =>
        hlast (Nat.lt_of_le_of_lt (Nat.mul_le_mul_right PGSIZE hm) hlt)
      change Unmapped s s root n last
      exact ⟨h, fun m => (if_neg (fun hc => hout m hc.1 hc.2)).symm,
        fun m h₁ h₂ => absurd h₂ (hout m h₁)⟩

end Unmap

section FiniteMap

variable {lay : Layout} {s : Kernel} {root : Nat} {free : List Nat}

/-- How `walk` with allocation ends: no entry of a page has changed. -/
def WalkEnds (s : Kernel) (root va : Nat) : Outcome Panic (Nat × Kernel) → Prop
  | .done (_, s') => va < MAXVA ∧ (∃ free, PageTable s'.mem s'.freelist root free) ∧
      ∀ m, leaf s'.mem root m = leaf s.mem root m
  | .panic e => MAXVA ≤ va ∧ e = .walk
  | .wait => False

/-- A page table is a finite map from virtual pages to entries: `lookup` reads it,
    `mappages` extends it by a range of pages, `uvmunmap` removes a range of pages,
    and `walk` leaves it alone. -/
structure FiniteMap (lay : Layout) (s : Kernel) (root : Nat) : Prop where
  lookup : ∀ (t : Kernel) (va : Nat), Tree t.mem root → va < MAXVA →
    Prog.run (perform lay) (lookup (root * PGSIZE) va) t =
      .done (leaf t.mem root (va / PGSIZE), t)
  walk : ∀ va, WalkEnds s root va (Prog.run (perform lay) (walk (root * PGSIZE) va true) s)
  mappages : ∀ va size pa perm, pa < 2 ^ 64 → perm < 1024 →
    MapEnds s root (va / PGSIZE) (u64 (va + size - 1) / PGSIZE) size pa perm
      (Prog.run (perform lay) (mappages (root * PGSIZE) va size pa perm) s)
  yields : ∀ pa perm i, pa < 2 ^ 64 → perm < 1024 →
    PTE2PA (newPte (u64 (pa + i * PGSIZE)) perm) = u64 (PGROUNDDOWN pa + i * PGSIZE) ∧
      PTE_FLAGS (newPte (u64 (pa + i * PGSIZE)) perm) = perm ||| PTE_V
  uvmunmap : ∀ va npages doFree, va % PGSIZE = 0 → va + npages * PGSIZE < 2 ^ 64 →
    (doFree = true → Apart s.mem root (va / PGSIZE) (va + npages * PGSIZE)) →
    UnmapEnds lay s root (va / PGSIZE) (va + npages * PGSIZE) doFree
      (Prog.run (perform lay) (uvmunmap (root * PGSIZE) va npages doFree) s)

theorem walk_ends (h : PageTable s.mem s.freelist root free) (va : Nat) :
    WalkEnds s root va (Prog.run (perform lay) (walk (root * PGSIZE) va true) s) := by
  by_cases hva : va < MAXVA
  · rcases walk_true lay hva h with ⟨o, mem', fl', free', hrun, h', hleaf, -, -⟩
    rw [hrun]
    exact ⟨hva, ⟨free', h'⟩, hleaf⟩
  · rw [walk, if_pos (Nat.not_lt.mp hva)]
    exact ⟨Nat.not_lt.mp hva, rfl⟩

theorem mappages_ends (h : PageTable s.mem s.freelist root free) (va size pa perm : Nat)
    (hpa : pa < 2 ^ 64) (hperm : perm < 1024) :
    MapEnds s root (va / PGSIZE) (u64 (va + size - 1) / PGSIZE) size pa perm
      (Prog.run (perform lay) (mappages (root * PGSIZE) va size pa perm) s) := by
  rw [mappages]
  by_cases hsize : size = 0
  · rw [if_pos hsize]
    exact hsize
  · rw [if_neg hsize]
    exact mappagesFrom_run hperm (by decide) (Nat.lt_add_left _ (by decide)) hpa h

theorem pgrounddown_add (pa i : Nat) :
    PGROUNDDOWN (u64 (pa + i * PGSIZE)) = u64 (PGROUNDDOWN pa + i * PGSIZE) := by
  have hP : PGSIZE = 4096 := rfl
  unfold PGROUNDDOWN u64
  rw [hP]
  omega

theorem uvmunmap_ends (h : Tree s.mem root) (va npages : Nat) (doFree : Bool)
    (hva : va % PGSIZE = 0) (hend : va + npages * PGSIZE < 2 ^ 64)
    (hapart : doFree = true → Apart s.mem root (va / PGSIZE) (va + npages * PGSIZE)) :
    UnmapEnds lay s root (va / PGSIZE) (va + npages * PGSIZE) doFree
      (Prog.run (perform lay) (uvmunmap (root * PGSIZE) va npages doFree) s) := by
  have hn : va / PGSIZE * PGSIZE = va := Nat.div_mul_cancel (Nat.dvd_of_mod_eq_zero hva)
  have hrun := uvmunmapFrom_run lay doFree MAXPAGES (by decide)
    (Nat.lt_add_left (va / PGSIZE) (by decide)) h hapart
  rw [hn] at hrun
  rw [uvmunmap, u64, Nat.mod_eq_of_lt hend, if_neg (Classical.not_not.mpr hva)]
  exact hrun

/-- The page table is a finite map. -/
theorem page_table_map (lay : Layout) (h : PageTable s.mem s.freelist root free) :
    FiniteMap lay s root where
  lookup := fun _ _ ht hva => lookup_eq ht hva
  walk := walk_ends h
  mappages := mappages_ends h
  yields := fun pa perm i _ hperm => by
    rw [← pgrounddown_add]
    exact newPte_spec (Nat.mod_lt _ (by decide)) hperm
  uvmunmap := uvmunmap_ends h.toTree

end FiniteMap

/-- A memory in which page 1 is a root, pages 2 and 3 are the tables below it for
    virtual page 0, which is page 4, and page 5 is free. -/
def oneMapped : Kernel where
  mem := fun pg i =>
    if 1 ≤ pg ∧ pg ≤ 3 ∧ i.val = 0 then (if pg = 3 then 3 else 1)
    else if 1 ≤ pg ∧ pg ≤ 3 ∧ i.val = 1 then BitVec.ofNat 8 (4 * (pg + 1)) else 0
  freelist := 5 * PGSIZE

theorem oneMapped_word (pg : Nat) {i : Nat} (hi : i ≠ 0) : word oneMapped.mem pg i = 0 :=
  word_zero (fun j => by
    unfold Bytes.get
    split
    · change (if _ then _ else _) = (0 : BitVec 8)
      rw [if_neg (by simp only; omega), if_neg (by simp only; omega)]
    · rfl)

theorem oneMapped_table (d k : Nat) (hd : d ≤ 2) :
    table oneMapped.mem 1 d k = if k = 0 then some (d + 1) else none := by
  induction d generalizing k with
  | zero => rfl
  | succ d ih =>
    have hup := ih (k / 512) (by omega)
    unfold table at hup ⊢
    rw [Radix.tab, hup]
    by_cases hk : k = 0
    · have hcase : d = 0 ∨ d = 1 := by omega
      rw [hk]
      rcases hcase with rfl | rfl <;> decide +kernel
    · rw [if_neg hk]
      by_cases hdiv : k / 512 = 0
      · rw [if_pos hdiv, Option.bind_some, oneMapped_word _ (by omega)]
        rfl
      · rw [if_neg hdiv]
        rfl

theorem oneMapped_pageTable : PageTable oneMapped.mem oneMapped.freelist 1 [5] where
  distinct := by
    intro d d' k k' p hd hd' hp hp'
    have hp := (oneMapped_table d k hd).symm.trans hp
    have hp' := (oneMapped_table d' k' hd').symm.trans hp'
    simp only [Option.ite_none_right_eq_some, Option.some.injEq] at hp hp'
    omega
  pos := by
    intro d k p hd hp
    rw [oneMapped_table d k hd] at hp
    simp only [Option.ite_none_right_eq_some, Option.some.injEq] at hp
    omega
  chain := by
    have hnil : Bytes.readLe (oneMapped.mem 5) 0 8 = 0 := by decide +kernel
    exact ⟨rfl, by decide, by decide, hnil⟩
  nodup := by decide
  apart := by
    intro c hc d k hd hp
    rw [oneMapped_table d k hd] at hp
    simp only [Option.ite_none_right_eq_some, Option.some.injEq] at hp
    simp only [List.mem_singleton] at hc
    omega

/-- A kernel of 64 pages. -/
def smallKernel : Layout where
  kend := KERNBASE + 64 * PGSIZE
  above := by decide
  fits := by decide

/-- Two pages are mapped behind the one there is, and that one is unmapped. -/
theorem page_table_map_oneMapped : FiniteMap smallKernel oneMapped 1 ∧
    (Prog.run (perform smallKernel) (mappages (1 * PGSIZE) PGSIZE (2 * PGSIZE) KERNBASE PTE_R)
      oneMapped).check (fun r => decide (r.1 = 0 ∧ leaf r.2.mem 1 1 = newPte KERNBASE PTE_R ∧
        leaf r.2.mem 1 2 = newPte (KERNBASE + PGSIZE) PTE_R)) = true ∧
    (Prog.run (perform smallKernel) (uvmunmap (1 * PGSIZE) 0 1 false) oneMapped).check
      (fun r => decide (leaf oneMapped.mem 1 0 ≠ 0 ∧ leaf r.2.mem 1 0 = 0)) = true :=
  ⟨page_table_map smallKernel oneMapped_pageTable, by decide +kernel, by decide +kernel⟩

/-- The same memory without a free page. -/
def noneFree : Kernel := { oneMapped with freelist := 0 }

theorem noneFree_pageTable : PageTable noneFree.mem noneFree.freelist 1 [] where
  toTree := oneMapped_pageTable.toTree
  chain := rfl
  nodup := List.nodup_nil
  apart := fun _ hc => absurd hc List.not_mem_nil

/-- `mappages` is given the pages from 511 on, and a size for which the last page is 0.
    It fails when it needs a table for page 512, and has mapped page 511. -/
theorem mappages_wraps : PageTable noneFree.mem noneFree.freelist 1 [] ∧
    u64 (511 * PGSIZE + (2 ^ 64 - 510 * PGSIZE) - 1) / PGSIZE = 0 ∧
    leaf noneFree.mem 1 511 = 0 ∧
    (Prog.run (perform smallKernel)
      (mappages (1 * PGSIZE) (511 * PGSIZE) (2 ^ 64 - 510 * PGSIZE) KERNBASE PTE_R) noneFree).check
      (fun r => decide (r.1 = -1 ∧ leaf r.2.mem 1 511 = newPte KERNBASE PTE_R)) = true :=
  ⟨noneFree_pageTable, by decide, by decide +kernel, by decide +kernel⟩

end Xv6.Vm
