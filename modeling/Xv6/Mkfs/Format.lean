import Xv6.Mkfs.Image

/-!
# Which Images Are Well Formed

When the image that `mkfs` writes is one the kernel can work with.

`WellFormed` reads the image itself, block by block: inode numbers are below
the bound in the superblock, block numbers lie in the data area and are stored
once, the bitmap marks what is stored, and no file has a hole.

Two things can go wrong although `mkfs` exits successfully. Inodes are counted
up without a look at the bound, so with enough files one is handed out that the
kernel does not know. And the root directory always gets a block more than its
entries fill, which is the block in progress unless the entries end exactly at
the end of a block; then the size covers a block that is not there.

## Main definitions

* `Disk.dinode`, `Disk.Allocated`: The inodes of the image.
* `WellFormed`: The image is in order.
* `fullBlock`: Inputs whose entries end with a block.

## Theorems

* `wellFormed_iff`: Which inputs give an image in order.
* `fullBlock_hole`: Inputs that do not.
-/

namespace Xv6.Mkfs

namespace Disk

/-- Inode `i` of the image. -/
def dinode (s : Disk) (i : Nat) : Dinode := dinodeAt (s.blk (mkfsSb.iblock i)) (i % IPB)

/-- An inode of the inode blocks that is in use. -/
def Allocated (s : Disk) (i : Nat) : Prop :=
  i < ninodeblocks * IPB ∧ (s.dinode i).type ≠ 0

/-- The block number in place `n` of inode `i`. -/
def ptr (s : Disk) (i n : Nat) : Nat := ptrOf s.blk (s.dinode i) n

end Disk

/-- The image is in order. -/
structure WellFormed (s : Disk) : Prop where
  inodes : ∀ i, 0 < i ∧ i < s.freeinode ∨ s.Allocated i → i < mkfsSb.ninodes
  range : ∀ i n, s.Allocated i → s.ptr i n ≠ 0 → nmeta ≤ s.ptr i n ∧ s.ptr i n < mkfsSb.size
  once : ∀ i n j m, s.Allocated i → s.Allocated j → s.ptr i n ≠ 0 → s.ptr i n = s.ptr j m →
    i = j ∧ n = m
  bitmap : ∀ b, b < BPB → (bitAt (s.blk mkfsSb.bmapstart) b = true ↔
    b < nmeta ∨ ∃ i n, s.Allocated i ∧ s.ptr i n ≠ 0 ∧ s.ptr i n = b)
  holes : ∀ i bn, s.Allocated i → bn * BSIZE < (s.dinode i).size.toNat → s.ptr i (posOf bn) ≠ 0

namespace Image

variable {s : Disk} {files : List Input}

theorem dinode_eq {i : Nat} (hi : i < ninodeblocks * IPB) :
    (Xv6.vol area s.blk).dino i = s.dinode i := if_pos hi

variable (h : Image s files)

include h

theorem allocOk : AllocOk area (Xv6.vol area s.blk) := by
  rcases h.built with ⟨s₁, h₁, hvol, -, -⟩
  rw [hvol]
  exact (allocOk_setDino h₁.ok.map.toAllocOk ROOTINO (rounded (s₁.vol.dino ROOTINO)) (by decide)
    (fun m => rfl)).1

theorem ptr_eq {i : Nat} (hi : s.Allocated i) (n : Nat) :
    ptrOf (Xv6.vol area s.blk).data ((Xv6.vol area s.blk).dino i) n = s.ptr i n := by
  have hd := @dinode_eq s i hi.1
  rw [hd]
  refine (ptrOf_congr _ _ _ _ (fun _ _ => rfl) (fun h12 => ?_) n).symm
  have hu := ptr_used h.allocOk i NDIRECT (by rw [hd]; exact hi.2)
  rw [hd, ptrOf_direct _ _ _ (Nat.lt_succ_self _)] at hu
  exact (if_pos (hu h12).1).symm

theorem slot_eq {i : Nat} (hi : s.Allocated i) {n : Nat}
    (hn : s.ptr i n ≠ 0) : slot (Xv6.vol area s.blk) (i, n) = some (s.ptr i n) := by
  refine (slotOf_eq_some _ _ _ _).mpr ⟨?_, h.ptr_eq hi n, hn⟩
  rw [dinode_eq hi.1]
  exact hi.2

theorem of_slot {i n b : Nat} (hb : slot (Xv6.vol area s.blk) (i, n) = some b) :
    s.Allocated i ∧ s.ptr i n ≠ 0 ∧ s.ptr i n = b := by
  rcases (slotOf_eq_some _ _ _ _).mp hb with ⟨ht, hp, hb0⟩
  have hi : i < ninodeblocks * IPB := h.allocOk.range i ht
  have hd := @dinode_eq s i hi
  have hal : s.Allocated i := ⟨hi, by rw [← hd]; exact ht⟩
  have hpe := h.ptr_eq hal n
  rw [hp] at hpe
  rw [← hpe]
  exact ⟨hal, hb0, rfl⟩

/-- The root directory has as many places in use as its entries need, and the
    size that the kernel sees is rounded up. -/
theorem root (hn : files.length + 2 ≤ NINODES) :
    s.Allocated ROOTINO ∧
      (s.dinode ROOTINO).size.toNat = (16 * (files.length + 2) / BSIZE + 1) * BSIZE ∧
      ∀ bn, bn < MAXFILE → (s.ptr ROOTINO (posOf bn) ≠ 0 ↔ bn * BSIZE < 16 * (files.length + 2))
    := by
  rcases h.built with ⟨s₁, h₁, hvol, -, -⟩
  rcases node_isSome h₁.root with ⟨ht, -, -, -, -, hdata⟩
  have hlen : (entries files).length = files.length + 2 := by
    rw [entries, List.length_append, length_entriesFrom]
    exact Nat.add_comm 2 _
  have hsize : (s₁.vol.dino ROOTINO).size.toNat = 16 * (files.length + 2) := by
    rw [← length_contents s₁.vol.data, ← hdata, length_dirNode h₁.names, hlen]
  have hd : s.dinode ROOTINO = rounded (s₁.vol.dino ROOTINO) := by
    rw [← @dinode_eq s ROOTINO (by decide), hvol]
    exact Appending.self _ _ _
  have hal : s.Allocated ROOTINO := ⟨by decide, by rw [hd]; exact ht⟩
  refine ⟨hal, ?_, fun bn hbn => ?_⟩
  · have hn' : files.length + 2 ≤ 200 := hn
    rw [hd]
    change (BitVec.ofNat 32 _).toNat = _
    rw [hsize, BitVec.toNat_ofNat]
    unfold BSIZE
    omega
  · have hfull := h₁.ok.full ROOTINO ht (posOf bn) (posOf_lt hbn)
    simp only [startOf_posOf, hsize] at hfull
    rw [← h.ptr_eq hal, hvol, Appending.self]
    exact hfull

theorem root_holes_iff (hn : files.length + 2 ≤ NINODES) :
    (∀ bn, bn * BSIZE < (s.dinode ROOTINO).size.toNat → s.ptr ROOTINO (posOf bn) ≠ 0) ↔
      (files.length + 2) % 64 ≠ 0 := by
  have hn' : files.length + 2 ≤ 200 := hn
  rcases h.root hn with ⟨-, hsize, hptr⟩
  rw [hsize]
  constructor
  · intro hall hmod
    -- The block right behind the entries is within the size.
    have hbn : 16 * (files.length + 2) / BSIZE < MAXFILE := by
      change _ / 1024 < 268
      omega
    have hlast := (hptr _ hbn).mp (hall (16 * (files.length + 2) / BSIZE) (by
      unfold BSIZE
      omega))
    unfold BSIZE at hlast
    omega
  · intro hmod bn hbn
    refine (hptr bn ?_).mpr ?_
    · change bn < 268
      unfold BSIZE at hbn
      omega
    · unfold BSIZE at hbn ⊢
      omega

theorem holes {i : Nat} (hi : s.Allocated i) (hne : i ≠ ROOTINO) (bn : Nat)
    (hbn : bn * BSIZE < (s.dinode i).size.toNat) : s.ptr i (posOf bn) ≠ 0 := by
  have hp := h.ptr_eq hi (posOf bn)
  have hd := @dinode_eq s i hi.1
  rcases h.built with ⟨s₁, h₁, hvol, -, -⟩
  have hdi : (Xv6.vol area s.blk).dino i = s₁.vol.dino i := by
    rw [hvol]
    exact Function.update_of_ne hne _ _
  rw [← hp, hdi, hvol]
  rw [hdi] at hd
  exact h₁.ok.map.holes i (by rw [hd]; exact hi.2) bn (by rw [hd]; exact hbn)

theorem inodes {i : Nat} (hi : s.Allocated i) : i < files.length + 2 := by
  have hd := @dinode_eq s i hi.1
  rcases h.built with ⟨s₁, h₁, hvol, -, -⟩
  by_cases hr : i = ROOTINO
  · rw [hr]
    exact Nat.lt_add_left _ (by decide)
  · by_contra hlt
    have hnone := h₁.rest i (Or.inr (by rw [List.length_map]; omega))
    have hdi : (Xv6.vol area s.blk).dino i = s₁.vol.dino i := by
      rw [hvol]
      exact Function.update_of_ne hr _ _
    rw [hdi] at hd
    exact hi.2 (by rw [← hd]; exact (node_eq_none_iff _ _).mp hnone)

end Image

/-- The image that `mkfs` leaves behind is in order if the inodes suffice and
    the entries of the root directory do not end with a block, and only then. -/
theorem wellFormed_iff (files : List Input) (s : Disk) (h : main files = .done s) :
    WellFormed s ↔ files.length + 2 ≤ NINODES ∧ (files.length + 2) % 64 ≠ 0 := by
  have hino := main_freeinode h
  by_cases hn : files.length + 2 ≤ NINODES
  · have hI := ((main_ends hn).of_done h).2
    rw [and_iff_right hn, ← hI.root_holes_iff hn]
    refine ⟨fun hW bn hbn => hW.holes _ bn (hI.root hn).1 hbn, fun hroot => ?_⟩
    have hA := hI.allocOk
    have hbit : ∀ b, (Xv6.vol area s.blk).bit b = decide (b < s.freeblock) := by
      intro b
      rcases hI.built with ⟨s₁, -, hvol, -, hfb⟩
      rw [hvol, hfb]
      rfl
    refine ⟨fun i hi => ?_, fun i n hi hp => ?_, fun i n j m hi hj hp heq => ?_, fun b _ => ?_,
      fun i bn hi hbn => ?_⟩
    · have hlt : i < files.length + 2 := by
        rcases hi with hi | hi
        · rw [← hino]
          exact hi.2
        · exact hI.inodes hi
      exact Nat.lt_of_lt_of_le hlt hn
    · exact (hA.own.used_of _ _ (hI.slot_eq hi hp)).1
    · have h₁ := hI.slot_eq hi hp
      have h₂ := hI.slot_eq hj (n := m) (by rw [← heq]; exact hp)
      rw [← heq] at h₂
      have hij := hA.own.inj _ _ _ h₁ h₂
      exact ⟨congrArg Prod.fst hij, congrArg Prod.snd hij⟩
    · rw [hI.bits, ← hbit]
      constructor
      · intro hb
        by_cases hlow : b < nmeta
        · exact Or.inl hlow
        · have hsize : b < area.size := by
            by_contra hge
            have hz : (Xv6.vol area s.blk).bit b = false := if_neg hge
            rw [hz] at hb
            exact Bool.false_ne_true hb
          rcases hA.own.owner b ⟨⟨Nat.le_of_not_lt hlow, hsize⟩, hb⟩ with ⟨⟨i, n⟩, hx⟩
          exact Or.inr ⟨i, n, hI.of_slot hx⟩
      · rintro (hb | ⟨i, n, hi, hp, rfl⟩)
        · exact hA.reserved b hb
        · exact (hA.own.used_of _ _ (hI.slot_eq hi hp)).2
    · by_cases hr : i = ROOTINO
      · rw [hr] at hbn ⊢
        exact hroot bn hbn
      · exact hI.holes hi hr bn hbn
  · refine ⟨fun hW => ?_, fun hc => absurd hc.1 hn⟩
    -- The first inode number past the bound has been handed out.
    have hlt : NINODES < s.freeinode := by
      rw [hino]
      exact Nat.lt_of_not_le hn
    exact absurd (hW.inodes NINODES (Or.inl ⟨by decide, hlt⟩)) (Nat.lt_irrefl _)

/-- A file `a` of 31 blocks. -/
def bigFile : List Input :=
  [{ arg := [97]
     chunks := some (List.replicate 31 (List.replicate BSIZE 1))
     nul := by decide
     sizes := fun cs hcs c hc => by
       rw [← Option.some.inj hcs] at hc
       rw [List.eq_of_mem_replicate hc, List.length_replicate]
       decide }]

theorem bigFile_length (f : Input) (hf : f ∈ bigFile) : f.data.length = 31 * BSIZE := by
  rw [List.mem_singleton.mp hf]
  simp only [Input.data, Option.getD_some, List.length_flatten, List.map_replicate,
    List.length_replicate]
  rfl

theorem bigFile_fits : Fits bigFile := by
  refine ⟨fun f hf => ⟨?_, ?_, by rw [bigFile_length f hf]; decide⟩, ?_⟩
  · rw [List.mem_singleton.mp hf]
    decide
  · rw [List.mem_singleton.mp hf]
    rfl
  · simp only [costs, bigFile, List.map_cons, List.map_nil, List.sum_cons, List.sum_nil,
      bigFile_length _ (List.mem_singleton_self _)]
    decide

/-- The file has an indirect block, and the image is in order. -/
theorem wellFormed_iff_bigFile : ∃ s, main bigFile = .done s ∧ WellFormed s := by
  rcases (main_ends (by decide)).result bigFile_fits with ⟨s, hs, -⟩
  exact ⟨s, hs, (wellFormed_iff bigFile s hs).mpr ⟨by decide, by decide⟩⟩

/-- Empty files `a0`, `a1` and so on, as many as fill a block of the root
    directory with its first two entries. -/
def fullBlock : List Input :=
  (List.finRange 62).map (fun k =>
    { arg := [97, BitVec.ofNat 8 (48 + k.val)]
      chunks := some []
      nul := by revert k; decide
      sizes := fun cs hcs c hc => by
        rw [← Option.some.inj hcs] at hc
        exact nomatch hc })

/-- `mkfs` takes these files, and the root directory of the image has a second
    block that is not there. -/
theorem fullBlock_hole : ∃ s, main fullBlock = .done s ∧
    (s.dinode ROOTINO).size.toNat = 2 * BSIZE ∧ s.ptr ROOTINO (posOf 1) = 0 ∧ ¬WellFormed s := by
  have hlen : fullBlock.length = 62 := by rw [fullBlock, List.length_map, List.length_finRange]
  have hn : fullBlock.length + 2 ≤ NINODES := by
    rw [hlen]
    decide
  have hname : ∀ k : Fin 62, slash ∉ shortname [97, BitVec.ofNat 8 (48 + k.val)] := by decide
  have hfits : Fits fullBlock := by
    refine ⟨fun f hf => ?_, ?_⟩
    · rcases List.mem_map.mp hf with ⟨k, -, rfl⟩
      exact ⟨hname k, rfl, Nat.zero_le _⟩
    · rw [hlen]
      decide +kernel
  rcases (main_ends hn).result hfits with ⟨s, hs, hI⟩
  rcases hI.root hn with ⟨hal, hsize, hptr⟩
  rw [hlen] at hsize hptr
  have hhole : s.ptr ROOTINO (posOf 1) = 0 :=
    Classical.not_not.mp (fun hc => absurd ((hptr 1 (by decide)).mp hc) (by decide))
  refine ⟨s, hs, hsize, hhole, fun hW => hW.holes ROOTINO 1 hal ?_ hhole⟩
  rw [hsize]
  decide

end Xv6.Mkfs
