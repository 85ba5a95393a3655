import Xv6.Vm.Code
import Xv6.Lib.Radix

/-!
# Page Tables

A page table as a radix tree in physical memory, and what `walk` finds in it.

A table is a page of 512 entries, and a virtual page number has three digits in
base 512. The tree is read off the memory: an entry leads to a table if its valid
bit is set, whatever other flags it has. `leaf` is the entry that a virtual page
has in the last table, and 0 if there is no such table.

## Main definitions

* `word`, `nextTable`: Entries in memory, and the tables they lead to.
* `table`, `leaf`: The tables of a page table, and the entries of its pages.
* `Tree`: No page holds two tables.
* `PageTable`: The free list is apart from the tables, too.
-/

namespace Xv6.Vm

open Function

/-! ### Entries

The source packs a page number and flags into one number by shifts and masks. This is
`page * 1024 + flags`, and the digits of a page number are its digits in base 512. -/

theorem px_eq (L va : Nat) : PX L va = va / PGSIZE / 512 ^ L % 512 := by
  have hpow : 2 ^ (12 + 9 * L) = PGSIZE * 512 ^ L := by
    rw [Nat.pow_add, Nat.pow_mul]
    rfl
  rw [PX, Nat.shiftRight_eq_div_pow, hpow, ← Nat.div_div_eq_div_mul]
  exact Nat.and_two_pow_sub_one_eq_mod _ 9

theorem pa2pte_mul (pg : Nat) : PA2PTE (pg * PGSIZE) = pg * 1024 := by
  have hdiv : pg * PGSIZE / 2 ^ 12 = pg := Nat.mul_div_cancel pg (by decide)
  rw [PA2PTE, Nat.shiftRight_eq_div_pow, hdiv, Nat.shiftLeft_eq]

theorem pte_or (pg f : Nat) (hf : f < 1024) : PA2PTE (pg * PGSIZE) ||| f = pg * 1024 + f := by
  have h := Nat.two_pow_add_eq_or_of_lt (i := 10) hf pg
  rw [pa2pte_mul, Nat.mul_comm pg 1024]
  exact h.symm

theorem pte2pa_add (pg f : Nat) (hpg : pg < 2 ^ 52) (hf : f < 1024) :
    PTE2PA (pg * 1024 + f) = pg * PGSIZE := by
  have hdiv : (pg * 1024 + f) / 2 ^ 10 = pg := by omega
  rw [PTE2PA, Nat.shiftRight_eq_div_pow, hdiv, Nat.shiftLeft_eq, u64]
  have hP : PGSIZE = 2 ^ 12 := rfl
  rw [hP]
  omega

theorem and_low (pg f m : Nat) (hf : f < 1024) (hm : m < 1024) :
    (pg * 1024 + f) &&& m = f &&& m := by
  refine Nat.eq_of_testBit_eq (fun i => ?_)
  rw [Nat.testBit_and, Nat.testBit_and, Nat.mul_comm pg 1024]
  by_cases hi : i < 10
  · have hbit := Nat.testBit_two_pow_mul_add pg (b := f) (i := 10) hf i
    rw [if_pos hi] at hbit
    rw [show (1024 : Nat) = 2 ^ 10 from rfl, hbit]
  · have hmi : m.testBit i = false := by
      have hpow : 2 ^ 10 ≤ 2 ^ i := Nat.pow_le_pow_right (by decide) (Nat.le_of_not_lt hi)
      exact Nat.testBit_lt_two_pow (Nat.lt_of_lt_of_le hm hpow)
    rw [hmi, Bool.and_false, Bool.and_false]

theorem pte_flags_add (pg f : Nat) (hf : f < 1024) : PTE_FLAGS (pg * 1024 + f) = f := by
  rw [PTE_FLAGS, and_low pg f 0x3FF hf (by decide), Nat.and_two_pow_sub_one_eq_mod f 10]
  exact Nat.mod_eq_of_lt hf

/-! ### Tables -/

/-- Entry `i` of the table in a page. -/
def word (mem : Nat → Buffer PGSIZE) (pg i : Nat) : Nat := Bytes.readLe (mem pg) (8 * i) 8

/-- The page of the table that an entry leads to. -/
def nextTable (x : Nat) : Option Nat := if x &&& PTE_V ≠ 0 then some (PTE2PA x / PGSIZE) else none

/-- The table at a depth below the root, for the first digits of a page number. -/
def table (mem : Nat → Buffer PGSIZE) (root d k : Nat) : Option Nat :=
  Radix.tab 512 nextTable (word mem) root d k

/-- The entry of virtual page `n`. -/
def leaf (mem : Nat → Buffer PGSIZE) (root n : Nat) : Nat :=
  (Radix.ent 512 nextTable (word mem) root 2 n).getD 0

/-- The free list: every page holds the address of the next one. -/
def Chain (mem : Nat → Buffer PGSIZE) : Nat → List Nat → Prop
  | a, [] => a = 0
  | a, c :: cs => a = c * PGSIZE ∧ 0 < c ∧ c < 2 ^ 52 ∧ Chain mem (Bytes.readLe (mem c) 0 8) cs

/-- A page table in memory: no page holds two tables. -/
structure Tree (mem : Nat → Buffer PGSIZE) (root : Nat) : Prop where
  distinct : Radix.Distinct 512 nextTable (word mem) root 2
  pos : ∀ d k p, d ≤ 2 → table mem root d k = some p → 0 < p

/-- A page table in memory, next to a free list. -/
structure PageTable (mem : Nat → Buffer PGSIZE) (freelist root : Nat) (free : List Nat) : Prop
    extends Tree mem root where
  chain : Chain mem freelist free
  nodup : free.Nodup
  apart : ∀ c ∈ free, ∀ d k, d ≤ 2 → table mem root d k ≠ some c

/-- A page that is neither free nor a table. -/
def Spare (mem : Nat → Buffer PGSIZE) (freelist root p : Nat) : Prop :=
  (∀ free, Chain mem freelist free → p ∉ free) ∧ ∀ d k, d ≤ 2 → table mem root d k ≠ some p

section Memory

variable {mem : Nat → Buffer PGSIZE} {pg i x : Nat}

theorem word_writeLe (hi : i < 512) (hx : x < 2 ^ 64) :
    word (update mem pg (Bytes.writeLe (mem pg) (8 * i) 8 x)) =
      Radix.set (word mem) pg i x := by
  have hP : PGSIZE = 4096 := rfl
  funext q j
  unfold word Radix.set
  by_cases hq : q = pg
  · rw [hq, update_self, update_self]
    by_cases hj : j = i
    · rw [hj, update_self, Bytes.readLe_writeLe _ _ (by omega)]
      exact Nat.mod_eq_of_lt hx
    · rw [update_of_ne hj, Bytes.readLe_writeLe_of_disjoint _ _ (by omega)]
  · rw [update_of_ne hq, update_of_ne hq]

theorem word_zero (h : ∀ j, Bytes.get (mem pg) (8 * i + j) = 0) : word mem pg i = 0 := by
  have hbytes : Bytes.slice (mem pg) (8 * i) 8 = List.replicate 8 0 := by
    rw [Bytes.slice, funext h]
    rfl
  rw [word, Bytes.readLe, hbytes]
  rfl

theorem word_blank (h : mem pg = fun _ => 0) (i : Nat) : word mem pg i = 0 :=
  word_zero (fun j => by
    rw [h]
    unfold Bytes.get
    split <;> rfl)

theorem Chain.congr {mem' : Nat → Buffer PGSIZE} {a : Nat} {cs : List Nat} (h : Chain mem a cs)
    (hm : ∀ c ∈ cs, mem' c = mem c) : Chain mem' a cs := by
  induction cs generalizing a with
  | nil => exact h
  | cons c cs ih =>
    rcases h with ⟨ha, h0, h1, hc⟩
    refine ⟨ha, h0, h1, ?_⟩
    rw [hm c List.mem_cons_self]
    exact ih hc (fun c' hc' => hm c' (List.mem_cons_of_mem c hc'))

theorem Chain.unique {a : Nat} {cs cs' : List Nat} (h : Chain mem a cs) (h' : Chain mem a cs') :
    cs = cs' := by
  have hP : PGSIZE = 4096 := rfl
  induction cs generalizing a cs' with
  | nil =>
    cases cs' with
    | nil => rfl
    | cons c' cs' =>
      have ha : a = 0 := h
      rcases h' with ⟨ha', h0, _⟩
      rw [hP] at ha'
      omega
  | cons c cs ih =>
    rcases h with ⟨ha, h0, _, hc⟩
    rw [hP] at ha
    cases cs' with
    | nil =>
      have ha' : a = 0 := h'
      omega
    | cons c' cs' =>
      rcases h' with ⟨ha', _, _, hc'⟩
      rw [hP] at ha'
      obtain rfl : c = c' := by omega
      rw [ih hc hc']

theorem PageTable.spare_iff {fl root : Nat} {free : List Nat} (h : PageTable mem fl root free)
    (p : Nat) : Spare mem fl root p ↔ p ∉ free ∧ ∀ d k, d ≤ 2 → table mem root d k ≠ some p :=
  and_congr_left' ⟨fun hp => hp free h.chain, fun hp _ hc => h.chain.unique hc ▸ hp⟩

end Memory

section Changes

variable {mem mem' : Nat → Buffer PGSIZE} {fl root : Nat} {free : List Nat} {d k p c x : Nat}

theorem Tree.congr (h : Tree mem root) (mem' : Nat → Buffer PGSIZE)
    (htab : ∀ d k p, d ≤ 2 → table mem root d k = some p → mem' p = mem p) :
    Tree mem' root ∧ (∀ d k, d ≤ 2 → table mem' root d k = table mem root d k) ∧
      ∀ n, leaf mem' root n = leaf mem root n := by
  have hword : ∀ d k p, d ≤ 2 → Radix.tab 512 nextTable (word mem) root d k = some p →
      word mem' p = word mem p := by
    intro d k p hd hp
    funext i
    rw [word, word, htab d k p hd hp]
  have htab' : ∀ d k, d ≤ 2 → table mem' root d k = table mem root d k :=
    fun d k hd => Radix.tab_congr hword hd k
  refine ⟨⟨fun d d' k k' p hd hd' hk hk' => ?_, fun d k p hd hp => ?_⟩, htab',
    fun n => congrArg (Option.getD · 0) (Radix.ent_congr hword n)⟩
  · exact h.distinct d d' k k' p hd hd' ((htab' d k hd).symm.trans hk)
      ((htab' d' k' hd').symm.trans hk')
  · exact h.pos d k p hd ((htab' d k hd).symm.trans hp)

theorem PageTable.take (h : PageTable mem fl root (c :: free)) (b : Buffer PGSIZE) :
    fl = c * PGSIZE ∧ 0 < c ∧ c < 2 ^ 52 ∧
      PageTable (update mem c b) (Bytes.readLe (mem c) 0 8) root free ∧
      (∀ d k, d ≤ 2 → table (update mem c b) root d k = table mem root d k) ∧
      ∀ n, leaf (update mem c b) root n = leaf mem root n := by
  rcases h.chain with ⟨hfl, h0, h1, hchain⟩
  have htree := h.toTree.congr (update mem c b) (fun d k p hd hp => by
    refine update_of_ne (fun he => ?_) _ _
    rw [he] at hp
    exact h.apart c List.mem_cons_self d k hd hp)
  have hdup := List.nodup_cons.mp h.nodup
  refine ⟨hfl, h0, h1, ⟨htree.1, hchain.congr (fun c' hc' => ?_), hdup.2, fun c' hc' d k hd => ?_⟩,
    htree.2⟩
  · refine update_of_ne (fun he => ?_) _ _
    rw [he] at hc'
    exact hdup.1 hc'
  · rw [htree.2.1 d k hd]
    exact h.apart c' (List.mem_cons_of_mem c hc') d k hd

/-- The page that is taken is spare from then on, like those that were. -/
theorem PageTable.spare_take (h : PageTable mem fl root (c :: free)) (b : Buffer PGSIZE)
    (hp : p = c ∨ Spare mem fl root p) :
    Spare (update mem c b) (Bytes.readLe (mem c) 0 8) root p := by
  rcases h.take b with ⟨_, _, _, h₁, htab, _⟩
  have hsplit : p ∉ free ∧ ∀ d k, d ≤ 2 → table mem root d k ≠ some p := by
    rcases hp with rfl | hp
    · exact ⟨(List.nodup_cons.mp h.nodup).1, h.apart p List.mem_cons_self⟩
    · rw [h.spare_iff] at hp
      exact ⟨List.not_mem_of_not_mem_cons hp.1, hp.2⟩
  refine (h₁.spare_iff p).mpr ⟨hsplit.1, fun d k hd => ?_⟩
  rw [htab d k hd]
  exact hsplit.2 d k hd

theorem Tree.setLeaf (h : Tree mem root) {n : Nat} (hp : table mem root 2 (n / 512) = some p)
    (hx : x < 2 ^ 64)
    (hmem : mem' = update mem p (Bytes.writeLe (mem p) (8 * (n % 512)) 8 x)) :
    Tree mem' root ∧ (∀ d k, d ≤ 2 → table mem' root d k = table mem root d k) ∧
      leaf mem' root = update (leaf mem root) n x := by
  have hword : word mem' = Radix.set (word mem) p (n % 512) x := by
    rw [hmem]
    exact word_writeLe (Nat.mod_lt n (by decide)) hx
  have htab : ∀ d k, d ≤ 2 → table mem' root d k = table mem root d k := by
    intro d k hd
    unfold table
    rw [hword]
    exact Radix.tab_set h.distinct hp hd k
  refine ⟨⟨?_, fun d k q hd hq => ?_⟩, htab, ?_⟩
  · rw [hword]
    exact Radix.distinct_set h.distinct hp
  · rw [htab d k hd] at hq
    exact h.pos d k q hd hq
  · funext m
    rw [leaf, hword, Radix.ent_set h.distinct hp, update_apply]
    split
    · rfl
    · rfl

theorem PageTable.setLeaf (h : PageTable mem fl root free) {n : Nat}
    (hp : table mem root 2 (n / 512) = some p) (hx : x < 2 ^ 64)
    (hmem : mem' = update mem p (Bytes.writeLe (mem p) (8 * (n % 512)) 8 x)) :
    PageTable mem' fl root free ∧ leaf mem' root = update (leaf mem root) n x ∧
      ∀ q, Spare mem fl root q → Spare mem' fl root q := by
  rcases h.toTree.setLeaf hp hx hmem with ⟨htree, htab, hleaf⟩
  have hnew : PageTable mem' fl root free := by
    refine ⟨htree, h.chain.congr (fun c hc => ?_), h.nodup, fun c hc d k hd => ?_⟩
    · rw [hmem]
      refine update_of_ne (fun he => ?_) _ _
      exact h.apart c hc 2 (n / 512) (Nat.le_refl 2) (by rw [hp, he])
    · rw [htab d k hd]
      exact h.apart c hc d k hd
  refine ⟨hnew, hleaf, fun q hq => ?_⟩
  rw [h.spare_iff] at hq
  refine (hnew.spare_iff q).mpr ⟨hq.1, fun d k hd => ?_⟩
  rw [htab d k hd]
  exact hq.2 d k hd

/-- A page of zeros is entered as a new table. -/
theorem PageTable.graft (h : PageTable mem fl root free) (hd : d < 2)
    (hp : table mem root d (k / 512) = some p) (hold : nextTable (word mem p (k % 512)) = none)
    (hc0 : 0 < c) (hc : c ∉ free) (hfresh : ∀ d k, d ≤ 2 → table mem root d k ≠ some c)
    (hzero : mem c = fun _ => 0) (hx : x < 2 ^ 64) (hnext : nextTable x = some c)
    (hmem : mem' = update mem p (Bytes.writeLe (mem p) (8 * (k % 512)) 8 x)) :
    PageTable mem' fl root free ∧ table mem' root (d + 1) k = some c ∧
      (∀ n, leaf mem' root n = leaf mem root n) ∧
      ∀ q, q ≠ c → Spare mem fl root q → Spare mem' fl root q := by
  have hword : word mem' = Radix.set (word mem) p (k % 512) x := by
    rw [hmem]
    exact word_writeLe (Nat.mod_lt k (by decide)) hx
  have hz := word_blank hzero
  have hn : nextTable 0 = none := by decide
  have htab : ∀ d' m, d' ≤ 2 → table mem' root d' m =
      if d' = d + 1 ∧ m = k then some c else table mem root d' m := by
    intro d' m hd'
    unfold table
    rw [hword]
    exact Radix.tab_graft h.distinct hp hd hold hnext hfresh hz hn d' hd' m
  have hnew : PageTable mem' fl root free := by
    refine ⟨⟨?_, fun d' m q hd' hq => ?_⟩, h.chain.congr (fun c' hc' => ?_), h.nodup,
      fun c' hc' d' m hd' => ?_⟩
    · rw [hword]
      exact Radix.distinct_graft h.distinct hp hd hold hnext hfresh hz hn
    · rw [htab d' m hd'] at hq
      split at hq
      · rw [← Option.some.inj hq]
        exact hc0
      · exact h.pos d' m q hd' hq
    · rw [hmem]
      refine update_of_ne (fun he => ?_) _ _
      exact h.apart c' hc' d (k / 512) (Nat.le_of_lt hd) (by rw [hp, he])
    · rw [htab d' m hd']
      split
      · intro he
        rw [Option.some.inj he] at hc
        exact hc hc'
      · exact h.apart c' hc' d' m hd'
  refine ⟨hnew, ?_, fun n => ?_, fun q hq hs => ?_⟩
  · rw [htab (d + 1) k (by omega), if_pos ⟨rfl, rfl⟩]
  · rw [leaf, leaf, hword]
    exact Radix.ent_graft h.distinct hp hd hold hnext hfresh hz hn n
  · rw [h.spare_iff] at hs
    refine (hnew.spare_iff q).mpr ⟨hs.1, fun d' m hd' he => ?_⟩
    rw [htab d' m hd'] at he
    split at he
    · exact hq (Option.some.inj he).symm
    · exact hs.2 d' m hd' he

end Changes

section Walk

variable {lay : Layout} {s : Kernel} {root pg i x va : Nat} {free : List Nat}

theorem entry_addr (pg : Nat) (hi : i < 512) :
    (pg * PGSIZE + 8 * i) / PGSIZE = pg ∧ (pg * PGSIZE + 8 * i) % PGSIZE = 8 * i := by
  have hP : PGSIZE = 4096 := rfl
  rw [hP]
  omega

theorem run_load (hi : i < 512) :
    Prog.run (perform lay) (load (pg * PGSIZE + 8 * i)) s = .done (word s.mem pg i, s) := by
  refine (Prog.run_call (perform lay) (.load _) s).trans ?_
  change Outcome.done (Bytes.readLe (s.mem (_ / PGSIZE)) (_ % PGSIZE) 8, s) = _
  rw [(entry_addr pg hi).1, (entry_addr pg hi).2]
  rfl

theorem run_store (hi : i < 512) :
    Prog.run (perform lay) (store (pg * PGSIZE + 8 * i) x) s =
      .done ((), s.setPage pg (Bytes.writeLe (s.mem pg) (8 * i) 8 x)) := by
  refine (Prog.run_call (perform lay) (.store _ x) s).trans ?_
  change Outcome.done ((), s.setPage (_ / PGSIZE)
    (Bytes.writeLe (s.mem (_ / PGSIZE)) (_ % PGSIZE) 8 x)) = _
  rw [(entry_addr pg hi).1, (entry_addr pg hi).2]

theorem pte2pa_div (x : Nat) : PTE2PA x / PGSIZE * PGSIZE = PTE2PA x := by
  have hP : PGSIZE = 4096 := rfl
  rw [PTE2PA, Nat.shiftLeft_eq, u64, hP]
  omega

theorem kalloc_eq {c : Nat} (hfl : s.freelist = c * PGSIZE) (hc : 0 < c) :
    s.kalloc = (c * PGSIZE, { s with
      freelist := Bytes.readLe (s.mem c) 0 8, mem := update s.mem c (fun _ => 5) }) := by
  have hP : PGSIZE = 4096 := rfl
  have hdiv : c * PGSIZE / PGSIZE = c := Nat.mul_div_cancel c (by decide)
  rw [Kernel.kalloc, if_neg (by rw [hfl, hP]; omega), hfl, hdiv, Nat.mul_mod_left]

theorem run_memset (c : Nat) (b : Byte) :
    Prog.run (perform lay) (memset (c * PGSIZE) b) s = .done ((), s.setPage c (fun _ => b)) := by
  refine (Prog.run_call (perform lay) (.memset _ b) s).trans ?_
  change Outcome.done ((), s.setPage (c * PGSIZE / PGSIZE) _) = _
  rw [Nat.mul_div_cancel c (by decide)]

/-- Getting a cleared page fails if there is none. -/
theorem run_cleared_nil {α : Type} {fail : M α} {rest : Nat → M α}
    (hchain : Chain s.mem s.freelist []) :
    Prog.run (perform lay) (kalloc >>= fun pa =>
      if pa = 0 then fail else memset pa 0 >>= fun _ => rest pa) s =
      Prog.run (perform lay) fail s := by
  have halloc : Prog.run (perform lay) kalloc s = .done s.kalloc := rfl
  rw [Prog.run_bind, halloc, Outcome.done_bind, Kernel.kalloc,
    if_pos (show s.freelist = 0 from hchain), if_pos rfl]

theorem run_cleared_cons {α : Type} {fail : M α} {rest : Nat → M α} {c : Nat}
    (hchain : Chain s.mem s.freelist (c :: free)) :
    Prog.run (perform lay) (kalloc >>= fun pa =>
      if pa = 0 then fail else memset pa 0 >>= fun _ => rest pa) s =
      Prog.run (perform lay) (rest (c * PGSIZE))
        ⟨update s.mem c (fun _ => 0), Bytes.readLe (s.mem c) 0 8⟩ := by
  have halloc : Prog.run (perform lay) kalloc s = .done s.kalloc := rfl
  have hpos : c * PGSIZE ≠ 0 := Nat.mul_ne_zero (Nat.ne_of_gt hchain.2.1) (by decide)
  rw [Prog.run_bind, halloc, Outcome.done_bind, kalloc_eq hchain.1 hchain.2.1, if_neg hpos,
    Prog.run_bind, run_memset, Outcome.done_bind, Kernel.setPage, update_idem]

theorem table_next {mem : Nat → Buffer PGSIZE} {d k : Nat}
    (h : table mem root d (k / 512) = some pg) :
    table mem root (d + 1) k = nextTable (word mem pg (k % 512)) := by
  unfold table at h ⊢
  rw [Radix.tab, h]
  rfl

theorem div_level (n L : Nat) : n / 512 ^ (L + 1 + 1) = n / 512 ^ (L + 1) / 512 := by
  rw [Nat.div_div_eq_div_mul, ← pow_succ]

/-- The address of an entry that is found. -/
def entryAddr (o : Option Nat) (n : Nat) : Nat :=
  match o with
  | none => 0
  | some p => p * PGSIZE + 8 * (n % 512)

theorem walkFrom_false (L d : Nat) (hL : d + L = 2)
    (h : table s.mem root d (va / PGSIZE / 512 ^ (L + 1)) = some pg) :
    Prog.run (perform lay) (walkFrom va false L (pg * PGSIZE)) s =
      .done (entryAddr (table s.mem root 2 (va / PGSIZE / 512)) (va / PGSIZE), s) := by
  induction L generalizing d pg with
  | zero =>
    have hd : d = 2 := by omega
    rw [hd, pow_one] at h
    rw [h, walkFrom, px_eq, pow_zero, Nat.div_one]
    rfl
  | succ L ih =>
    rw [div_level] at h
    have hnext := table_next h
    rw [walkFrom, px_eq, Prog.run_bind, run_load (Nat.mod_lt _ (by decide)), Outcome.done_bind]
    unfold nextTable at hnext
    by_cases hv : word s.mem pg (va / PGSIZE / 512 ^ (L + 1) % 512) &&& PTE_V ≠ 0
    · rw [if_pos hv] at hnext
      rw [if_pos hv, ← pte2pa_div]
      exact ih (d + 1) (by omega) hnext
    · rw [if_neg hv] at hnext
      rw [if_neg hv, if_pos rfl]
      have hnone : table s.mem root 2 (va / PGSIZE / 512) = none := by
        have hL' : L = 0 ∨ L = 1 := by omega
        rcases hL' with rfl | rfl
        · have hd : d + 1 = 2 := by omega
          rwa [hd, zero_add, pow_one] at hnext
        · have hd : d + 1 = 1 := by omega
          rw [hd, div_level, zero_add, pow_one] at hnext
          exact Radix.tab_none hnext
      rw [hnone]
      rfl

theorem table_root (mem : Nat → Buffer PGSIZE) (root : Nat) (hva : va < MAXVA) :
    table mem root 0 (va / PGSIZE / 512 ^ (2 + 1)) = some root := by
  have hP : PGSIZE = 4096 := rfl
  have hM : MAXVA = 274877906944 := by decide
  have hzero : va / PGSIZE / 512 ^ (2 + 1) = 0 := by
    rw [hP]
    omega
  rw [hzero]
  rfl

theorem walk_false (hva : va < MAXVA) :
    Prog.run (perform lay) (walk (root * PGSIZE) va false) s =
      .done (entryAddr (table s.mem root 2 (va / PGSIZE / 512)) (va / PGSIZE), s) := by
  rw [walk, if_neg (Nat.not_le.mpr hva)]
  exact walkFrom_false 2 0 rfl (table_root s.mem root hva)

/-- When it may allocate, it changes no entry of a page, and fails only if there
    is no free page. -/
theorem walkFrom_true (L d : Nat) (hL : d + L = 2)
    (h : PageTable s.mem s.freelist root free)
    (hpg : table s.mem root d (va / PGSIZE / 512 ^ (L + 1)) = some pg) :
    ∃ o mem' fl' free', Prog.run (perform lay) (walkFrom va true L (pg * PGSIZE)) s =
        .done (entryAddr o (va / PGSIZE), ⟨mem', fl'⟩) ∧
      PageTable mem' fl' root free' ∧ (∀ n, leaf mem' root n = leaf s.mem root n) ∧
      (∀ p, Spare s.mem s.freelist root p → Spare mem' fl' root p) ∧
      (o = none ∧ free' = [] ∨ o ≠ none ∧ o = table mem' root 2 (va / PGSIZE / 512)) := by
  induction L generalizing d pg s free with
  | zero =>
    have hd : d = 2 := by omega
    rw [hd, pow_one] at hpg
    refine ⟨some pg, s.mem, s.freelist, free, ?_, h, fun _ => rfl, fun _ => id,
      Or.inr ⟨nofun, hpg.symm⟩⟩
    rw [walkFrom, px_eq, pow_zero, Nat.div_one]
    rfl
  | succ L ih =>
    have hmod : va / PGSIZE / 512 ^ (L + 1) % 512 < 512 := Nat.mod_lt _ (by decide)
    rw [div_level] at hpg
    have hnext := table_next hpg
    rw [walkFrom, px_eq, Prog.run_bind, run_load hmod, Outcome.done_bind]
    by_cases hv : word s.mem pg (va / PGSIZE / 512 ^ (L + 1) % 512) &&& PTE_V ≠ 0
    · rw [nextTable, if_pos hv] at hnext
      rw [if_pos hv, ← pte2pa_div]
      exact ih (d + 1) (by omega) h hnext
    · have hold : nextTable (word s.mem pg (va / PGSIZE / 512 ^ (L + 1) % 512)) = none :=
        if_neg hv
      rw [if_neg hv, if_neg (by decide)]
      cases free with
      | nil =>
        refine ⟨none, s.mem, s.freelist, [], ?_, h, fun _ => rfl, fun _ => id,
          Or.inl ⟨rfl, rfl⟩⟩
        rw [run_cleared_nil h.chain]
        rfl
      | cons c free =>
        rcases h.take (fun _ => 0) with ⟨hfl, hc0, hc1, h₁, htab₁, hleaf₁⟩
        have hapart := h.apart c List.mem_cons_self
        have hpc : pg ≠ c := fun he => hapart d _ (by omega) (he ▸ hpg)
        have hpg₁ : update s.mem c (fun _ => 0) pg = s.mem pg :=
          update_of_ne hpc _ _
        -- The new table is filled with zeros and entered.
        rw [run_cleared_cons h.chain, Prog.run_bind, pte_or c PTE_V (by decide), run_store hmod,
          Outcome.done_bind]
        simp only [hpg₁]
        have hg := h₁.graft (d := d) (x := c * 1024 + PTE_V) (by omega)
          (by rw [htab₁ d _ (by omega)]; exact hpg)
          (by rw [word, hpg₁]; exact hold) hc0 (List.nodup_cons.mp h.nodup).1
          (fun d k hd => by rw [htab₁ d k hd]; exact hapart d k hd)
          (update_self _ _ _) (by unfold PTE_V; omega) ?_ rfl
        · rw [hpg₁] at hg
          rcases ih (d + 1) (by omega) (s := { s with
              mem := _, freelist := Bytes.readLe (s.mem c) 0 8 }) hg.1 hg.2.1 with
            ⟨o, mem', fl', free', hrun, h', hleaf, hspare, ho⟩
          refine ⟨o, mem', fl', free', hrun, h',
            fun n => (hleaf n).trans ((hg.2.2.1 n).trans (hleaf₁ n)), fun p hp => ?_, ho⟩
          have hpc : p ≠ c := List.ne_of_not_mem_cons ((h.spare_iff p).mp hp).1
          exact hspare p (hg.2.2.2 p hpc (h.spare_take _ (Or.inr hp)))
        · have hlow : (c * 1024 + PTE_V) &&& PTE_V ≠ 0 := by
            rw [and_low c PTE_V PTE_V (by decide) (by decide)]
            decide
          rw [nextTable, if_pos hlow, pte2pa_add c PTE_V hc1 (by decide),
            Nat.mul_div_cancel c (by decide)]

theorem walk_true (lay : Layout) (hva : va < MAXVA) (h : PageTable s.mem s.freelist root free) :
    ∃ o mem' fl' free', Prog.run (perform lay) (walk (root * PGSIZE) va true) s =
        .done (entryAddr o (va / PGSIZE), ⟨mem', fl'⟩) ∧
      PageTable mem' fl' root free' ∧ (∀ n, leaf mem' root n = leaf s.mem root n) ∧
      (∀ p, Spare s.mem s.freelist root p → Spare mem' fl' root p) ∧
      (o = none ∧ free' = [] ∨ o ≠ none ∧ o = table mem' root 2 (va / PGSIZE / 512)) := by
  rw [walk, if_neg (Nat.not_le.mpr hva)]
  exact walkFrom_true 2 0 rfl h (table_root s.mem root hva)

end Walk

end Xv6.Vm
