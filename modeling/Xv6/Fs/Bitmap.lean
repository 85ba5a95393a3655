import Xv6.Fs.Proc
import Xv6.Fs.Read

/-!
# The Block Bitmap

`balloc` and `bfree` as an allocator: which block they take or give back, and
what becomes of the bitmap.

Nothing is assumed about the layout of the disk here. A bit is found by the
arithmetic of `BBLOCK`, and the two loops of `balloc` are one search for the
first bit that is clear. The one thing to watch is that `balloc` zeroes the
block it has found: if that is a block of the bitmap itself, the marks in it
are lost. `mkfs` marks the bitmap as used, so that this does not happen.

## Main definitions

* `marked`: A block is marked used.
* `FirstFree`: The smallest block that is not.
* `Takes`, `Gives`: One mark was set and the block zeroed, or one was cleared.

## Theorems

* `bfree_run`: The run of `bfree`.
* `balloc_bitmap`: `balloc` takes the first free block, and `bfree` gives it
  back.
-/

namespace Xv6

open Function

/-- Block `b` is marked used. -/
def marked (sb : Superblock) (blk : Nat → Block) (b : Nat) : Bool :=
  bitAt (blk (sb.bblock b)) (b % BPB)

/-- `c` is the smallest block that is not marked used. -/
structure FirstFree (sb : Superblock) (blk : Nat → Block) (c : Nat) : Prop where
  lt : c < sb.size
  free : marked sb blk c = false
  below : ∀ b, b < c → marked sb blk b = true

/-- Block `c` was marked used and zeroed, and nothing else was done. -/
structure Takes (sb : Superblock) (s s' : Kernel) (c : Nat) : Prop where
  frame : s' = { s with blk := s'.blk, log := (s.log.note (sb.bblock c)).note c }
  marks : ∀ b, b < sb.size → marked sb s'.blk b = if b = c then true else marked sb s.blk b
  bitmap : s'.blk (sb.bblock c) = setBit (s.blk (sb.bblock c)) (c % BPB)
  zeroed : s'.blk c = fun _ => 0
  others : ∀ x, x ≠ c → x ≠ sb.bblock c → s'.blk x = s.blk x

/-- The mark of block `b` was cleared, and nothing else was done. -/
structure Gives (sb : Superblock) (s s' : Kernel) (b : Nat) : Prop where
  frame : s' = { s with blk := s'.blk, log := s.log.note (sb.bblock b) }
  marks : ∀ x, x < sb.size → marked sb s'.blk x = if x = b then false else marked sb s.blk x
  bitmap : s'.blk (sb.bblock b) = clearBit (s.blk (sb.bblock b)) (b % BPB)
  others : ∀ x, x ≠ sb.bblock b → s'.blk x = s.blk x

section Marks

variable (sb : Superblock) (blk : Nat → Block)

theorem marked_add (b bi : Nat) (hb : b % BPB = 0) (hbi : bi < BPB) :
    sb.bblock (b + bi) = sb.bblock b ∧ (b + bi) % BPB = bi := by
  obtain ⟨q, rfl⟩ := Nat.dvd_of_mod_eq_zero hb
  have hpos : 0 < BPB := by decide
  refine ⟨?_, by rw [Nat.mul_add_mod, Nat.mod_eq_of_lt hbi]⟩
  unfold Superblock.bblock
  rw [Nat.mul_add_div hpos, Nat.div_eq_of_lt hbi, Nat.mul_div_cancel_left q hpos, Nat.add_zero]

theorem marked_update {b : Nat} {d : Block} {v : Bool}
    (hd : ∀ bj, bitAt d bj = if bj = b % BPB then v else bitAt (blk (sb.bblock b)) bj) (x : Nat) :
    marked sb (update blk (sb.bblock b) d) x = if x = b then v else marked sb blk x := by
  unfold marked
  by_cases hblock : sb.bblock x = sb.bblock b
  · have hiff : x % BPB = b % BPB ↔ x = b := by
      refine ⟨fun hmod => ?_, fun hxb => by rw [hxb]⟩
      have h₁ := Nat.div_add_mod x BPB
      have h₂ := Nat.div_add_mod b BPB
      have h₃ : x / BPB = b / BPB := Nat.add_right_cancel hblock
      rw [h₃, hmod] at h₁
      omega
    rw [hblock, update_self, hd]
    by_cases hx : x = b
    · rw [if_pos (hiff.mpr hx), if_pos hx]
    · rw [if_neg (fun hc => hx (hiff.mp hc)), if_neg hx]
  · rw [update_of_ne hblock, if_neg (fun hx => hblock (by rw [hx]))]

theorem marked_update_of_ne {c : Nat} (d : Block) {x : Nat} (hc : c ≠ sb.bblock x) :
    marked sb (update blk c d) x = marked sb blk x := by
  unfold marked
  rw [update_of_ne hc.symm]

end Marks

section Scan

variable (d : Block)

theorem scanBits_eq_none (n bi : Nat) (h : ∀ k, bi ≤ k → k < bi + n → bitAt d k = true) :
    scanBits d n bi = none := by
  induction n generalizing bi with
  | zero => rfl
  | succ n ih =>
    have hbit := h bi (Nat.le_refl _) (by omega)
    unfold scanBits
    rw [if_neg (by rw [hbit]; exact Bool.true_eq_false_eq_False)]
    exact ih (bi + 1) (fun k h₁ h₂ => h k (by omega) (by omega))

theorem scanBits_eq_some (n bi k : Nat) (h₁ : bi ≤ k) (h₂ : k < bi + n)
    (hfree : bitAt d k = false) (hbelow : ∀ j, bi ≤ j → j < k → bitAt d j = true) :
    scanBits d n bi = some k := by
  induction n generalizing bi with
  | zero => omega
  | succ n ih =>
    unfold scanBits
    by_cases hk : bi = k
    · rw [hk, if_pos hfree]
    · have hbit := hbelow bi (Nat.le_refl _) (by omega)
      rw [if_neg (by rw [hbit]; exact Bool.true_eq_false_eq_False)]
      exact ih (bi + 1) (by omega) (by omega) (fun j h₃ h₄ => hbelow j (by omega) h₄)

end Scan

section Runs

variable {sb : Superblock} {s : Kernel}

/-- What `balloc` does once it has found block `c`. -/
def ballocTake (sb : Superblock) (d : Block) (c : Nat) : M Nat := do
  bput (sb.bblock c) (setBit d (c % BPB))
  logWrite (sb.bblock c)
  bzero c
  return c

section Search

-- The search only reads, so what holds of runs holds of anything that a
-- program has which reading a block leaves alone.
variable {β : Type} (F : M Nat → β) (hF : ∀ b f, F (bread b >>= f) = F (f (s.blk b)))

include hF

theorem ballocFrom_none (n b : Nat) (hb : b % BPB = 0)
    (h : ∀ c, b ≤ c → c < b + n * BPB → c < sb.size → marked sb s.blk c = true) :
    F (ballocFrom sb n b) = F (pure 0) := by
  induction n generalizing b with
  | zero => rfl
  | succ n ih =>
    have hscan : scanBits (s.blk (sb.bblock b)) (min BPB (sb.size - b)) 0 = none := by
      refine scanBits_eq_none _ _ _ (fun k _ hk => ?_)
      rcases marked_add sb b k hb (by omega) with ⟨hblock, hmod⟩
      have hm := h (b + k) (by omega) (by rw [Nat.succ_mul]; omega) (by omega)
      rw [marked, hblock, hmod] at hm
      exact hm
    unfold ballocFrom
    rw [hF, hscan]
    refine ih (b + BPB) (by rw [Nat.add_mod_right, hb]) (fun c h₁ h₂ => h c (by omega) ?_)
    rw [Nat.succ_mul]
    omega

theorem ballocFrom_first (c n b : Nat) (hb : b % BPB = 0) (hbc : b ≤ c) (hcn : c < b + n * BPB)
    (hc : FirstFree sb s.blk c) :
    F (ballocFrom sb n b) = F (ballocTake sb (s.blk (sb.bblock c)) c) := by
  induction n generalizing b with
  | zero => omega
  | succ n ih =>
    have hlt := hc.lt
    rw [Nat.succ_mul] at hcn
    unfold ballocFrom
    rw [hF]
    by_cases hin : c < b + BPB
    · rcases marked_add sb b (c - b) hb (by omega) with ⟨hblock, hmod⟩
      rw [Nat.add_sub_cancel' hbc] at hblock hmod
      have hscan : scanBits (s.blk (sb.bblock b)) (min BPB (sb.size - b)) 0 =
          some (c - b) := by
        refine scanBits_eq_some _ _ _ _ (Nat.zero_le _) (by omega) ?_ (fun j _ hj => ?_)
        · have hf := hc.free
          rw [marked, hblock, hmod] at hf
          exact hf
        · rcases marked_add sb b j hb (by omega) with ⟨hblock', hmod'⟩
          have hm := hc.below (b + j) (by omega)
          rw [marked, hblock', hmod'] at hm
          exact hm
      rw [hscan]
      simp only [Nat.add_sub_cancel' hbc, ballocTake, hblock, hmod]
    · have hscan : scanBits (s.blk (sb.bblock b)) (min BPB (sb.size - b)) 0 = none := by
        refine scanBits_eq_none _ _ _ (fun k _ hk => ?_)
        rcases marked_add sb b k hb (by omega) with ⟨hblock, hmod⟩
        have hm := hc.below (b + k) (by omega)
        rw [marked, hblock, hmod] at hm
        exact hm
      rw [hscan]
      exact ih (b + BPB) (by rw [Nat.add_mod_right, hb]) (by omega) (by omega)

end Search

/-- The bitmap blocks that `balloc` looks at cover the disk. -/
theorem lt_bitmapBits {b : Nat} (hb : b < sb.size) : b < 0 + (sb.size + BPB - 1) / BPB * BPB := by
  have hpos : 0 < BPB := by decide
  have hdiv := Nat.div_add_mod (sb.size + BPB - 1) BPB
  have hmod := Nat.mod_lt (sb.size + BPB - 1) hpos
  rw [Nat.mul_comm] at hdiv
  omega

section Search

variable {β : Type} (F : M Nat → β) (hF : ∀ b f, F (bread b >>= f) = F (f (s.blk b)))

include hF

theorem balloc_none (h : ∀ b, b < sb.size → marked sb s.blk b = true) :
    F (balloc sb) = F (pure 0) :=
  ballocFrom_none F hF _ 0 (Nat.zero_mod _) (fun c _ _ hc => h c hc)

theorem balloc_first {c : Nat} (hc : FirstFree sb s.blk c) :
    F (balloc sb) = F (ballocTake sb (s.blk (sb.bblock c)) c) :=
  ballocFrom_first F hF c _ 0 (Nat.zero_mod _) (Nat.zero_le _) (lt_bitmapBits hc.lt) hc

end Search

theorem balloc_run_none (h : ∀ b, b < sb.size → marked sb s.blk b = true) :
    Prog.run perform (balloc sb) s = .done (0, s) :=
  balloc_none (fun x => Prog.run perform x s) run_bread h

theorem balloc_run {c : Nat} (hc : FirstFree sb s.blk c) :
    Prog.run perform (balloc sb) s =
      Prog.run perform (ballocTake sb (s.blk (sb.bblock c)) c) s :=
  balloc_first (fun x => Prog.run perform x s) run_bread hc

theorem run_logWrite {α : Type} (b : Nat) (h : s.log.Room 1) (f : Unit → M α) :
    Prog.run perform (logWrite b >>= f) s =
      Prog.run perform (f ()) { s with log := s.log.note b } := by
  change ((s.log.logWrite b >>= _) >>= _) = _
  rw [Log.logWrite_of_room h]
  rfl

theorem ballocTake_run (c : Nat) (hroom : s.log.Room 2) :
    Prog.run perform (ballocTake sb (s.blk (sb.bblock c)) c) s = .done (c, { s with
      blk := update (update s.blk (sb.bblock c)
        (setBit (s.blk (sb.bblock c)) (c % BPB))) c (fun _ => 0)
      log := (s.log.note (sb.bblock c)).note c }) := by
  unfold ballocTake bzero
  rw [run_bput, run_logWrite]
  · change Prog.run perform (bput c (fun _ => 0) >>= fun _ => logWrite c >>= fun _ => pure c) _ = _
    rw [run_bput, run_logWrite]
    · rfl
    · exact hroom.note _
  · exact hroom.mono (by omega)

theorem bfree_run {b : Nat} (hb : marked sb s.blk b = true) (hroom : s.log.Room 1) :
    Prog.run perform (bfree sb b) s = .done ((), { s with
      blk := update s.blk (sb.bblock b) (clearBit (s.blk (sb.bblock b)) (b % BPB))
      log := s.log.note (sb.bblock b) }) := by
  have hbit : bitAt (s.blk (sb.bblock b)) (b % BPB) = true := hb
  unfold bfree
  rw [run_bread, hbit, if_neg (by simp only [Bool.true_eq_false, not_false_eq_true]), run_bput]
  change Prog.run perform (logWrite (sb.bblock b) >>= pure) _ = _
  rw [run_logWrite]
  · rfl
  · exact hroom

/-- Taking the first free block, when it is no block of the bitmap. -/
theorem balloc_takes {c : Nat} (hc : FirstFree sb s.blk c) (hroom : s.log.Room 2)
    (hown : ∀ b, b < sb.size → c ≠ sb.bblock b) :
    ∃ s', Prog.run perform (balloc sb) s = .done (c, s') ∧ Takes sb s s' c := by
  refine ⟨_, (balloc_run hc).trans (ballocTake_run c hroom), rfl, fun b hb => ?_, ?_, ?_,
    fun x hx hx' => ?_⟩
  · rw [marked_update_of_ne _ _ _ (hown b hb)]
    exact marked_update sb s.blk
      (fun bj => bitAt_setBit _ _ bj (Nat.mod_lt _ (by decide))) b
  · exact (update_of_ne (hown c hc.lt).symm _ _).trans (update_self _ _ _)
  · exact update_self _ _ _
  · exact (update_of_ne hx _ _).trans (update_of_ne hx' _ _)

theorem bfree_gives {b : Nat} (hb : marked sb s.blk b = true) (hroom : s.log.Room 1) :
    ∃ s', Prog.run perform (bfree sb b) s = .done ((), s') ∧ Gives sb s s' b := by
  refine ⟨_, bfree_run hb hroom, rfl, fun x _ => ?_, ?_, fun x hx => ?_⟩
  · exact marked_update sb s.blk
      (fun bj => bitAt_clearBit _ _ bj (Nat.mod_lt _ (by decide))) x
  · exact update_self _ _ _
  · exact update_of_ne hx _ _

theorem exists_firstFree {blk : Nat → Block} (h : ¬∀ b, b < sb.size → marked sb blk b = true) :
    ∃ c, FirstFree sb blk c := by
  have hex : ∃ b, b < sb.size ∧ marked sb blk b = false := by
    by_contra hno
    refine h (fun b hb => Bool.eq_true_of_not_eq_false (fun hf => hno ⟨b, hb, hf⟩))
  refine ⟨Nat.find hex, (Nat.find_spec hex).1, (Nat.find_spec hex).2, fun b hb => ?_⟩
  have hmin := Nat.find_min hex hb
  have hlt := Nat.lt_trans hb (Nat.find_spec hex).1
  exact Bool.eq_true_of_not_eq_false (fun hf => hmin ⟨hlt, hf⟩)

/-- Blocks with the same bits are the same. -/
theorem eq_of_bitAt {d d' : Block} (h : ∀ bj, bitAt d bj = bitAt d' bj) : d = d' := by
  funext i
  have hget : ∀ x : Block, Bytes.get x i.val = x i := fun x => dif_pos i.isLt
  rw [← hget d, ← hget d']
  refine BitVec.eq_of_getLsbD_eq (fun j hj => ?_)
  have hbit := h (8 * i.val + j)
  rw [bitAt_eq_getLsbD, bitAt_eq_getLsbD, show (8 * i.val + j) / 8 = i.val by omega,
    show (8 * i.val + j) % 8 = j by omega] at hbit
  exact hbit

theorem clearBit_setBit {d : Block} {bi : Nat} (hbi : bi < BPB) (hd : bitAt d bi = false) :
    clearBit (setBit d bi) bi = d := by
  refine eq_of_bitAt (fun bj => ?_)
  rw [bitAt_clearBit _ _ _ hbi, bitAt_setBit _ _ _ hbi]
  by_cases hj : bj = bi
  · rw [if_pos hj, hj, hd]
  · rw [if_neg hj, if_neg hj]

end Runs

/-- `balloc` returns 0 and changes nothing if and only if all blocks are
    marked used. Otherwise it takes the smallest block that is not, provided
    that this is not a block of the bitmap. `bfree` clears the mark of the block
    it is given, and so undoes what `balloc` did to the bitmap. -/
theorem balloc_bitmap (sb : Superblock) (hsize : sb.size < 2 ^ 31) (s : Kernel)
    (hroom : s.log.Room 2)
    (hown : ∀ c, FirstFree sb s.blk c → ∀ b, b < sb.size → c ≠ sb.bblock b) :
    (Prog.run perform (balloc sb) s = .done (0, s) ↔
      ∀ b, b < sb.size → marked sb s.blk b = true) ∧
    ((¬∀ b, b < sb.size → marked sb s.blk b = true) →
      ∃ c s', FirstFree sb s.blk c ∧ (BitVec.ofNat 32 c).toInt = c ∧
        Prog.run perform (balloc sb) s = .done (c, s') ∧ Takes sb s s' c ∧
        ∀ t, t.blk = s'.blk → t.log.Room 1 →
          ∃ t', Prog.run perform (bfree sb c) t = .done ((), t') ∧
            ∀ b, b < sb.size → t'.blk (sb.bblock b) = s.blk (sb.bblock b)) ∧
    ∀ b, marked sb s.blk b = true →
      ∃ s', Prog.run perform (bfree sb b) s = .done ((), s') ∧ Gives sb s s' b := by
  have htake := fun c hc => balloc_takes hc hroom (hown c hc)
  refine ⟨⟨fun hrun => ?_, balloc_run_none⟩, fun hsome => ?_,
    fun b hb => bfree_gives hb (hroom.mono (by omega))⟩
  · -- If a block were free, `balloc` would have marked it.
    by_contra hsome
    rcases exists_firstFree hsome with ⟨c, hc⟩
    rcases htake c hc with ⟨s', hrun', ht⟩
    rw [hrun] at hrun'
    have hs : s = s' := congrArg Prod.snd (Outcome.done.inj hrun')
    have hm := ht.marks c hc.lt
    rw [← hs, hc.free, if_pos rfl] at hm
    exact Bool.false_ne_true hm
  · rcases exists_firstFree hsome with ⟨c, hc⟩
    rcases htake c hc with ⟨s', hrun, ht⟩
    have hint : (BitVec.ofNat 32 c).toInt = c := by
      have hlt := hc.lt
      have hnat : (BitVec.ofNat 32 c).toNat = c := by
        rw [BitVec.toNat_ofNat, Nat.mod_eq_of_lt (by omega)]
      rw [BitVec.toInt_eq_toNat_of_lt (by omega), hnat]
    refine ⟨c, s', hc, hint, hrun, ht, fun t hblk ht' => ?_⟩
    have hm := ht.marks c hc.lt
    rw [if_pos rfl, ← hblk] at hm
    rcases bfree_gives hm ht' with ⟨t', hrun', hg⟩
    refine ⟨t', hrun', fun b hb => ?_⟩
    by_cases hbc : sb.bblock b = sb.bblock c
    · rw [hbc, hg.bitmap, hblk, ht.bitmap]
      exact clearBit_setBit (Nat.mod_lt _ (by decide)) hc.free
    · rw [hg.others _ hbc, hblk, ht.others _ (hown c hc b hb).symm hbc]

/-- The kernel in a transaction on a disk where the first 40 blocks are marked
    used, and of the next 8 those in `x`. The bitmap is block 45. -/
def lowMarks (x : Byte) : Kernel :=
  { bootKernel mkfsSb (fun b i =>
      if b = 45 then if i.val < 5 then 0xff else if i.val = 5 then x else 0 else 0) with
    log := { Log.initlog mkfsSb with outstanding := 1 } }

/-- With the blocks up to the bitmap marked, `balloc` takes the one after it. -/
theorem balloc_bitmap_lowMarks :
    ∃ c s', FirstFree mkfsSb (lowMarks 0x3f).blk c ∧
      Prog.run perform (balloc mkfsSb) (lowMarks 0x3f) = .done (c, s') ∧
      Takes mkfsSb (lowMarks 0x3f) s' c := by
  have hroom : (lowMarks 0x3f).log.Room 2 := ⟨by decide, by decide, by decide⟩
  have hown : ∀ c, FirstFree mkfsSb (lowMarks 0x3f).blk c →
      ∀ b, b < mkfsSb.size → c ≠ mkfsSb.bblock b := by
    intro c hc b hb heq
    have hb' : b < 2000 := hb
    have hself : mkfsSb.bblock b = 45 := by
      change b / 8192 + 45 = 45
      omega
    have hfree := hc.free
    rw [heq, hself] at hfree
    exact absurd hfree (by decide +kernel)
  have hnot : ¬∀ b, b < mkfsSb.size → marked mkfsSb (lowMarks 0x3f).blk b = true := fun h =>
    absurd (h 46 (by decide)) (by decide +kernel)
  rcases (balloc_bitmap mkfsSb (by decide) (lowMarks 0x3f) hroom hown).2.1 hnot with
    ⟨c, s', hc, _, hrun, ht, _⟩
  exact ⟨c, s', hc, hrun, ht⟩

/-- A disk of `2 ^ 31 + 1` blocks, the last of which is the only free one. -/
def farFree : Kernel :=
  { lowMarks 0 with blk := fun b i =>
      if b = 2 ^ 31 / BPB + 45 ∧ i.val = 0 then 0xfe else 0xff }

theorem farFree_firstFree : FirstFree { mkfsSb with size := 2 ^ 31 + 1 } farFree.blk (2 ^ 31) := by
  refine ⟨Nat.lt_succ_self _, by decide +kernel, fun b hb => ?_⟩
  -- The bit of a lower block is in a block of the bitmap that is all ones.
  have hne : b / BPB + 45 ≠ 2 ^ 31 / BPB + 45 := by
    rw [show BPB = 8192 from rfl]
    omega
  have hlt : b % BPB / 8 < BSIZE := by
    rw [show BPB = 8192 from rfl, show BSIZE = 1024 from rfl]
    omega
  change bitAt (farFree.blk (b / BPB + 45)) (b % BPB) = true
  rw [bitAt_eq_getLsbD, Bytes.get, dif_pos hlt]
  change (if b / BPB + 45 = 2 ^ 31 / BPB + 45 ∧ _ then (0xfe : Byte) else 0xff).getLsbD _ = true
  rw [if_neg (fun hc => hne hc.1)]
  have hmod : b % BPB % 8 < 8 := Nat.mod_lt _ (by decide)
  generalize b % BPB % 8 = j at hmod
  revert j
  decide

/-- With the bitmap itself not marked, `balloc` takes the bitmap, and the marks
    of the blocks before it are gone. If the first free block is `2 ^ 31`, its number
    is negative as an `int`. Outside a transaction a block that is found is no use. -/
theorem balloc_limits :
    (∃ s', Prog.run perform (balloc mkfsSb) (lowMarks 0x1f) = .done (45, s') ∧
      marked mkfsSb (lowMarks 0x1f).blk 45 = false ∧
      marked mkfsSb (lowMarks 0x1f).blk 0 = true ∧ marked mkfsSb s'.blk 0 = false) ∧
    (∃ s', Prog.run perform (balloc { mkfsSb with size := 2 ^ 31 + 1 }) farFree =
      .done (2 ^ 31, s') ∧ (BitVec.ofNat 32 (2 ^ 31)).toInt < 0) ∧
    Prog.run perform (balloc mkfsSb) { lowMarks 0x3f with log := Log.initlog mkfsSb } =
      .panic .logWriteOutsideTrans := by
  refine ⟨?_, ?_, by rfl⟩
  · rcases Outcome.exists_of_decide (fun r : Nat × Kernel => r.1 = 45 ∧
      marked mkfsSb r.2.blk 0 = false) (Prog.run perform (balloc mkfsSb) (lowMarks 0x1f))
      (by decide +kernel) with ⟨⟨c, s'⟩, hrun, hc, hm⟩
    refine ⟨s', ?_, by decide +kernel, by decide +kernel, hm⟩
    rw [hrun]
    exact congrArg (fun x => Outcome.done (x, s')) hc
  · have hroom : farFree.log.Room 2 := ⟨by decide, by decide, by decide⟩
    have hown : ∀ b, b < 2 ^ 31 + 1 → 2 ^ 31 ≠ b / 8192 + 45 := by
      intro b hb
      omega
    rcases balloc_takes farFree_firstFree hroom hown with ⟨s', hrun, _⟩
    exact ⟨s', hrun, by decide⟩

end Xv6
