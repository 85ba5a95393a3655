import Xv6.Fs.Codec
import Xv6.Lib.Owner

/-!
# The Volume

What the blocks of a disk mean: the free bits, the inodes, and the data
blocks.

`vol` reads a disk as these three tables. The areas of the disk do not
overlap, so writing one entry of one table changes nothing in the others, and
reading the disk back after such a write gives the table with that entry
changed. From here on blocks are not looked at byte by byte any more.

## Main definitions

* `Superblock.Ok`: The areas lie in order and within the disk.
* `Vol`: Free bits, inodes and data blocks.
* `vol`: The volume on a disk.
-/

namespace Xv6

open Function

namespace Superblock

/-- The first data block. -/
def datastart (sb : Superblock) : Nat := sb.bmapstart + sb.size / BPB + 1

theorem datastart_pos (sb : Superblock) : 0 < sb.datastart := Nat.succ_pos _

/-- The inode area ends before the bitmap, the bitmap before the data, and
    numbers fit their fields. -/
structure Ok (sb : Superblock) : Prop where
  inodes : ∀ i, i < sb.ninodes → sb.iblock i < sb.bmapstart
  data : sb.datastart ≤ sb.size
  size_lt : sb.size < 2 ^ 31
  ninodes_le : sb.ninodes ≤ 2 ^ 16
  root : ROOTINO < sb.ninodes

end Superblock

theorem mkfsSb_ok : mkfsSb.Ok := by
  refine ⟨fun i hi => ?_, by decide, by decide, by decide, by decide⟩
  have hi' : i < 200 := hi
  change i / 16 + 32 < 45
  omega

/-- Free bits, inodes and data blocks. -/
structure Vol where
  bit : Nat → Bool
  dino : Nat → Dinode
  data : Nat → Block

section

variable (sb : Superblock)

/-- Block `b` is in the data area. -/
def InData (b : Nat) : Prop := sb.datastart ≤ b ∧ b < sb.size

instance (b : Nat) : Decidable (InData sb b) := inferInstanceAs (Decidable (_ ∧ _))

def vol (blk : Nat → Block) : Vol :=
  { bit := fun b => if b < sb.size then bitAt (blk (sb.bblock b)) (b % BPB) else false
    dino := fun i => if i < sb.ninodes then dinodeAt (blk (sb.iblock i)) (i % IPB) else .zero
    data := fun b => if InData sb b then blk b else fun _ => 0 }

end

section Writes

variable {sb : Superblock} (hok : sb.Ok) (blk : Nat → Block)

theorem bblock_lt_datastart {b : Nat} (hb : b < sb.size) : sb.bblock b < sb.datastart := by
  have hdiv : b / BPB ≤ sb.size / BPB := Nat.div_le_div_right (Nat.le_of_lt hb)
  unfold Superblock.bblock Superblock.datastart
  omega

include hok

theorem bblock_ne_iblock (b i : Nat) (hi : i < sb.ninodes) : sb.bblock b ≠ sb.iblock i := by
  have h₁ := hok.inodes i hi
  have h₂ : sb.bmapstart ≤ sb.bblock b := Nat.le_add_left _ _
  omega

theorem iblock_lt_datastart {i : Nat} (hi : i < sb.ninodes) : sb.iblock i < sb.datastart := by
  have h := hok.inodes i hi
  have hle : sb.bmapstart ≤ sb.datastart := Nat.le_succ_of_le (Nat.le_add_right _ _)
  omega

theorem vol_bit {b : Nat} (hb : b < sb.size) {d : Block} {v : Bool}
    (hd : ∀ bj, bitAt d bj = if bj = b % BPB then v else bitAt (blk (sb.bblock b)) bj) :
    vol sb (update blk (sb.bblock b) d) =
      { vol sb blk with bit := update (vol sb blk).bit b v } := by
  have hdino : (vol sb (update blk (sb.bblock b) d)).dino = (vol sb blk).dino := by
    funext i
    change (if _ then _ else _) = if _ then _ else _
    by_cases hi : i < sb.ninodes
    · rw [if_pos hi, if_pos hi, update_of_ne (bblock_ne_iblock hok b i hi).symm]
    · rw [if_neg hi, if_neg hi]
  have hdata : (vol sb (update blk (sb.bblock b) d)).data = (vol sb blk).data := by
    funext c
    change (if _ then _ else _) = if _ then _ else _
    by_cases hc : InData sb c
    · have hlt := bblock_lt_datastart hb
      have hge := hc.1
      rw [if_pos hc, if_pos hc, update_of_ne (by omega)]
    · rw [if_neg hc, if_neg hc]
  have hbit : (vol sb (update blk (sb.bblock b) d)).bit =
      update (vol sb blk).bit b v := by
    funext c
    by_cases hcb : c = b
    · rw [hcb, update_self]
      change (if _ then _ else _) = _
      rw [if_pos hb, update_self, hd, if_pos rfl]
    · rw [update_of_ne hcb]
      change (if _ then _ else _) = if _ then _ else _
      by_cases hc : c < sb.size
      · rw [if_pos hc, if_pos hc]
        by_cases hblk : sb.bblock c = sb.bblock b
        · -- Same bitmap block, so another bit of it.
          have hmod : c % BPB ≠ b % BPB := by
            intro hmod
            unfold Superblock.bblock at hblk
            have h₁ := Nat.div_add_mod c BPB
            have h₂ := Nat.div_add_mod b BPB
            have h₃ : c / BPB = b / BPB := by omega
            rw [h₃, hmod] at h₁
            omega
          rw [hblk, update_self, hd, if_neg hmod]
        · rw [update_of_ne hblk]
      · rw [if_neg hc, if_neg hc]
  unfold vol at hdino hdata hbit ⊢
  simp only at hdino hdata hbit ⊢
  rw [hdino, hdata, hbit]

theorem vol_setBit (b : Nat) (hb : b < sb.size) :
    vol sb (update blk (sb.bblock b) (setBit (blk (sb.bblock b)) (b % BPB))) =
      { vol sb blk with bit := update (vol sb blk).bit b true } :=
  vol_bit hok blk hb
    (fun bj => bitAt_setBit _ (b % BPB) bj (Nat.mod_lt _ (by decide)))

theorem vol_putDinode {i : Nat} (hi : i < sb.ninodes) (d : Dinode) :
    vol sb (update blk (sb.iblock i) (putDinode (blk (sb.iblock i)) (i % IPB) d)) =
      { vol sb blk with dino := update (vol sb blk).dino i d } := by
  generalize hx : putDinode (blk (sb.iblock i)) (i % IPB) d = x
  have hbit : (vol sb (update blk (sb.iblock i) x)).bit = (vol sb blk).bit := by
    funext c
    change (if _ then _ else _) = if _ then _ else _
    rw [update_of_ne (bblock_ne_iblock hok c i hi)]
  have hdata : (vol sb (update blk (sb.iblock i) x)).data = (vol sb blk).data := by
    funext c
    change (if _ then _ else _) = if _ then _ else _
    by_cases hc : InData sb c
    · have hlt := iblock_lt_datastart hok hi
      have hge := hc.1
      rw [if_pos hc, if_pos hc, update_of_ne (by omega)]
    · rw [if_neg hc, if_neg hc]
  have hdino : (vol sb (update blk (sb.iblock i) x)).dino =
      update (vol sb blk).dino i d := by
    funext j
    by_cases hji : j = i
    · rw [hji, update_self]
      change (if _ then _ else _) = _
      rw [if_pos hi, update_self, ← hx]
      exact dinodeAt_putDinode_self _ _ (Nat.mod_lt _ (by decide))
    · rw [update_of_ne hji]
      change (if _ then _ else _) = if _ then _ else _
      by_cases hj : j < sb.ninodes
      · rw [if_pos hj, if_pos hj]
        by_cases hblk : sb.iblock j = sb.iblock i
        · -- Same inode block, so another inode of it.
          have hmod : j % IPB ≠ i % IPB := by
            intro hmod
            unfold Superblock.iblock at hblk
            have h₁ := Nat.div_add_mod j IPB
            have h₂ := Nat.div_add_mod i IPB
            have h₃ : j / IPB = i / IPB := by omega
            rw [h₃, hmod] at h₁
            omega
          rw [hblk, update_self, ← hx, dinodeAt_putDinode_of_ne _ _ hmod]
        · rw [update_of_ne hblk]
      · rw [if_neg hj, if_neg hj]
  unfold vol at hdino hdata hbit ⊢
  simp only at hdino hdata hbit ⊢
  rw [hdino, hdata, hbit]

theorem vol_data (b : Nat) (hb : InData sb b) (x : Block) :
    vol sb (update blk b x) =
      { vol sb blk with data := update (vol sb blk).data b x } := by
  have hge := hb.1
  have hbit : (vol sb (update blk b x)).bit = (vol sb blk).bit := by
    funext c
    change (if _ then _ else _) = if _ then _ else _
    by_cases hc : c < sb.size
    · have hlt := bblock_lt_datastart hc
      rw [if_pos hc, if_pos hc, update_of_ne (by omega)]
    · rw [if_neg hc, if_neg hc]
  have hdino : (vol sb (update blk b x)).dino = (vol sb blk).dino := by
    funext i
    change (if _ then _ else _) = if _ then _ else _
    by_cases hi : i < sb.ninodes
    · have hlt := iblock_lt_datastart hok hi
      rw [if_pos hi, if_pos hi, update_of_ne (by omega)]
    · rw [if_neg hi, if_neg hi]
  have hdata : (vol sb (update blk b x)).data =
      update (vol sb blk).data b x := by
    funext c
    by_cases hcb : c = b
    · rw [hcb, update_self]
      change (if _ then _ else _) = _
      rw [if_pos hb, update_self]
    · rw [update_of_ne hcb]
      change (if _ then _ else _) = if _ then _ else _
      rw [update_of_ne hcb]
  unfold vol at hdino hdata hbit ⊢
  simp only at hdino hdata hbit ⊢
  rw [hdino, hdata, hbit]

end Writes

end Xv6
