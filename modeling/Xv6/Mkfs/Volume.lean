import Xv6.Fs.Lookup
import Xv6.Fs.Partial
import Xv6.Mkfs.Mount

/-!
# The Image as a Volume

An image that `mkfs` has written is a volume that the kernel can work on: what
`mkfs` keeps in its counters is what the kernel expects to find in the bitmap,
and every file has the blocks that its size calls for.

## Main definitions

* `inodeKernel`: The kernel with an inode read in, in a transaction.

## Theorems

* `Image.mapOk`: The volume of an image is in order.
* `Image.open`: The kernel can work on an inode of it.
-/

namespace Xv6.Mkfs

open Function

namespace Image

variable {s : Disk} {files : List Input}

theorem dino_eq (h : Image s files) (hn : files.length + 2 ≤ NINODES) (i : Nat) :
    ((vol mkfsSb s.blk).dino i).type ≠ 0 ↔ s.Allocated i := by
  have hlt : NINODES < ninodeblocks * IPB := by decide
  by_cases hi : i < NINODES
  · have hd : (vol mkfsSb s.blk).dino i = s.dinode i := if_pos hi
    rw [hd]
    exact ⟨fun ht => ⟨Nat.lt_trans hi hlt, ht⟩, fun ha => ha.2⟩
  · have hd : (vol mkfsSb s.blk).dino i = .zero := if_neg hi
    rw [hd]
    refine ⟨fun ht => absurd rfl ht, fun ha => ?_⟩
    have := h.inodes ha
    omega

theorem dino_of (h : Image s files) (hn : files.length + 2 ≤ NINODES) {i : Nat}
    (hi : s.Allocated i) : (vol mkfsSb s.blk).dino i = s.dinode i :=
  if_pos (Nat.lt_of_lt_of_le (h.inodes hi) hn)

theorem slot_vol (h : Image s files) (hn : files.length + 2 ≤ NINODES) (x : Nat × Nat) :
    slot (vol mkfsSb s.blk) x = slot (vol area s.blk) x := by
  rcases x with ⟨i, n⟩
  by_cases hi : s.Allocated i
  · have hd := h.dino_of hn hi
    have hd' := @dinode_eq s i hi.1
    unfold slot
    rw [hd, hd']
    rfl
  · have h₁ : ((vol mkfsSb s.blk).dino i).type = 0 :=
      Classical.not_not.mp (fun hc => hi ((h.dino_eq hn i).mp hc))
    have h₂ : ((vol area s.blk).dino i).type = 0 := by
      by_cases hlt : i < ninodeblocks * IPB
      · rw [@dinode_eq s i hlt]
        exact Classical.not_not.mp (fun hc => hi ⟨hlt, hc⟩)
      · have hz : (vol area s.blk).dino i = .zero := if_neg hlt
        rw [hz]
        rfl
    exact (slotOf_eq_none (Or.inl h₁)).trans (slotOf_eq_none (Or.inl h₂)).symm

/-- The volume of an image is in order, if the entries of the root directory do
    not end with a block. -/
theorem mapOk (h : Image s files) (hn : files.length + 2 ≤ NINODES)
    (hmod : (files.length + 2) % 64 ≠ 0) : MapOk mkfsSb (vol mkfsSb s.blk) := by
  have hA := h.allocOk
  have hroot := (h.root_holes_iff hn).mpr hmod
  refine ⟨⟨hA.own.congr (fun b => Iff.rfl) (h.slot_vol hn), hA.reserved, fun i hi => ?_⟩,
    fun i hi bn hbn => ?_, fun i hi => ?_⟩
  · exact Nat.lt_of_lt_of_le (h.inodes ((h.dino_eq hn i).mp hi)) hn
  · have hal := (h.dino_eq hn i).mp hi
    have hp := h.ptr_eq hal (posOf bn)
    rw [@dinode_eq s i hal.1] at hp
    rw [h.dino_of hn hal] at hbn ⊢
    have hne : s.ptr i (posOf bn) ≠ 0 := by
      by_cases hr : i = ROOTINO
      · rw [hr] at hbn ⊢
        exact hroot bn hbn
      · exact h.holes hal hr bn hbn
    rw [← hp] at hne
    exact hne
  · have hal := (h.dino_eq hn i).mp hi
    rw [h.dino_of hn hal]
    by_cases hr : i = ROOTINO
    · rw [hr, (h.root hn).2.1]
      have hn' : files.length + 2 ≤ 200 := hn
      change _ ≤ 268 * 1024
      unfold BSIZE
      omega
    · rcases h.built with ⟨s₁, h₁, hvol, -, -⟩
      have hdi : (vol area s.blk).dino i = s₁.vol.dino i := by
        rw [hvol]
        exact update_of_ne hr _ _
      rw [@dinode_eq s i hal.1] at hdi
      rw [hdi]
      refine h₁.ok.map.maxSize i ?_
      rw [← hdi]
      exact hal.2

end Image

/-- The kernel with inode `i` read in, in a transaction. -/
def inodeKernel (i : Nat) (blk : Nat → Block) : Kernel :=
  { (bootKernel mkfsSb blk).modInode ⟨0, ninode_pos⟩ (fun x =>
      { x with inum := i, valid := true, d := (vol mkfsSb blk).dino i }) with
    log := { Log.initlog mkfsSb with outstanding := 1 } }

/-- An inode of an image can be worked on. -/
theorem Image.open {s : Disk} {files : List Input} (h : Image s files)
    (hn : files.length + 2 ≤ NINODES) (hmod : (files.length + 2) % 64 ≠ 0) {i : Nat}
    (hi : s.Allocated i) : MapOk mkfsSb (pend mkfsSb (inodeKernel i s.blk) ⟨0, by decide⟩) ∧
      ((inodeKernel i s.blk).itable ⟨0, by decide⟩).d = s.dinode i := by
  have hd : ((inodeKernel i s.blk).itable ⟨0, by decide⟩).d = (vol mkfsSb s.blk).dino i := rfl
  have hinum : ((inodeKernel i s.blk).itable ⟨0, by decide⟩).inum = i := rfl
  have hb : (inodeKernel i s.blk).blk = s.blk := rfl
  refine ⟨?_, hd.trans (h.dino_of hn hi)⟩
  unfold pend
  rw [hd, hinum, hb, update_eq_self]
  exact h.mapOk hn hmod

/-- The root directory of an empty image is a file that can be written. -/
theorem exists_root : ∃ s, main [] = .done s ∧
    MapOk mkfsSb (pend mkfsSb (inodeKernel ROOTINO s.blk) ⟨0, by decide⟩) ∧
    ((inodeKernel ROOTINO s.blk).itable ⟨0, by decide⟩).d.type ≠ 0 := by
  have hn : ([] : List Input).length + 2 ≤ NINODES := by decide
  rcases (main_ends hn).result ⟨nofun, by decide⟩
    with ⟨s, hs, hI⟩
  have hal := (hI.root hn).1
  rcases hI.open hn (by decide) hal with ⟨hM, hd⟩
  exact ⟨s, hs, hM, by rw [hd]; exact hal.2⟩

theorem exists_bigFile : ∃ s, main bigFile = .done s ∧
    MapOk mkfsSb (pend mkfsSb (inodeKernel 2 s.blk) ⟨0, by decide⟩) ∧
    ((inodeKernel 2 s.blk).itable ⟨0, by decide⟩).d.type ≠ 0 ∧
    ((inodeKernel 2 s.blk).itable ⟨0, by decide⟩).d.size.toNat = 31 * BSIZE := by
  have hn : bigFile.length + 2 ≤ NINODES := by decide
  rcases (main_ends hn).result bigFile_fits with ⟨s, hs, hI⟩
  rcases hI.file (k := 0) rfl with ⟨htype, hcont, _⟩
  have hal : s.Allocated 2 := ⟨by decide, by rw [htype]; decide⟩
  rcases hI.open hn (by decide) hal with ⟨hM, hd⟩
  refine ⟨s, hs, hM, by rw [hd, htype]; decide, ?_⟩
  rw [hd, ← bigFile_length _ (List.mem_singleton_self _), ← hcont, length_contents]

/-- There is room for one operation in the log. -/
theorem room_inodeKernel (i : Nat) (blk : Nat → Block) :
    (inodeKernel i blk).log.Room MAXOPBLOCKS := by
  have hroom : ({ Log.initlog mkfsSb with outstanding := 1 } : Log).Room MAXOPBLOCKS :=
    ⟨by decide, by decide, by decide⟩
  exact hroom

theorem not_badRange_root (blk : Nat → Block) {n : BitVec 32} (hn : n.toNat ≤ 1024) :
    ¬BadRange (inodeKernel ROOTINO blk) ⟨0, by decide⟩ 0 n := by
  have hmax : MAXFILE * BSIZE = 274432 := by decide
  rintro (hc | hc | hc)
  · exact nomatch hc
  · change 4294967296 ≤ 0 + n.toNat at hc
    omega
  · change _ < 0 + n.toNat at hc
    omega

/-- Two bytes are written where a block of the file ends, and two are read. -/
theorem file_bytes_bigFile : ∃ s s' bs, main bigFile = .done s ∧
    Prog.run perform (writei mkfsSb ⟨0, by decide⟩ (.kernel [7, 8]) 1023 2)
      (inodeKernel 2 s.blk) = .done (2, s') ∧
    Replaced mkfsSb (inodeKernel 2 s.blk) s' ⟨0, by decide⟩ [7, 8] 1023 2 ∧
    Prog.run perform (readi mkfsSb ⟨0, by decide⟩ .kernel 1023 2) (inodeKernel 2 s.blk) =
      .done ((2, bs), inodeKernel 2 s.blk) := by
  rcases exists_bigFile with ⟨s, hs, hM, ht, hsize⟩
  have hspec := file_bytes mkfsSb mkfsSb_ok (inodeKernel 2 s.blk) ⟨0, by decide⟩ (Nat.le_refl 1)
    hM ht 1023 2
  have hsize' : ((inodeKernel 2 s.blk).itable ⟨0, by decide⟩).d.size.toNat = 31744 := hsize
  have hgood : ¬BadRange (inodeKernel 2 s.blk) ⟨0, by decide⟩ 1023 2 := by
    rintro (hc | hc | hc)
    · rw [hsize'] at hc
      exact absurd hc (by decide)
    · exact absurd hc (by decide)
    · exact absurd hc (by decide)
  rcases hspec.2 .kernel trivial with ⟨bs, hbs, hread⟩
  have hlen : bs.length = 2 := by
    rw [hbs, List.length_take, List.length_drop, length_contents, hsize']
    rfl
  have hw := hspec.1 (.kernel [7, 8]) [7, 8] rfl rfl
  rcases hw.2.1 hgood with hbig | ⟨tot, s', hdone, hR⟩
  · exact absurd hbig (hw.2.2 (Or.inl ⟨by decide, room_inodeKernel 2 s.blk⟩))
  · have htot := hR.all ht (by rw [hsize']; decide)
    rw [htot] at hdone hR
    rw [hlen] at hread
    exact ⟨s, s', bs, hs, hdone, hR, hread⟩

/-- A range of 31 blocks is not refused, and it takes more blocks than there are in the
    log. When the sum of offset and length wraps around, `readi` returns nothing. -/
theorem file_bytes_limits : ∃ s, main bigFile = .done s ∧
    MapOk mkfsSb (pend mkfsSb (inodeKernel 2 s.blk) ⟨0, by decide⟩) ∧
    ((inodeKernel 2 s.blk).itable ⟨0, by decide⟩).d.size.toNat = 31 * BSIZE ∧
    ¬BadRange (inodeKernel 2 s.blk) ⟨0, by decide⟩ 0 31744 ∧
    (∀ bs, Prog.run perform (writei mkfsSb ⟨0, by decide⟩ (.kernel bs) 0 31744)
      (inodeKernel 2 s.blk) = .panic .tooBigTransaction) ∧
    Prog.run perform (readi mkfsSb ⟨0, by decide⟩ .kernel 1 0xffffffff) (inodeKernel 2 s.blk) =
      .done ((0, []), inodeKernel 2 s.blk) := by
  rcases exists_bigFile with ⟨s, hs, hM, ht, hsize⟩
  refine ⟨s, hs, hM, hsize, ?_, fun bs => ?_, ?_⟩
  · rintro (hc | hc | hc)
    · exact absurd hc (Nat.not_lt_zero _)
    · exact absurd hc (by decide)
    · exact absurd hc (by decide)
  · exact writei_too_big mkfsSb_ok (Nat.le_refl 1) hM ht (Nat.zero_le _) (by rw [hsize]; decide)
      (by decide)
  · refine readi_slice hM ht (?_ : ([] : List Byte) = _)
    have hwrap : ((1 : BitVec 32) + 0xffffffff).toNat = 0 := by decide
    rw [hwrap, Nat.zero_min, Nat.zero_sub, List.take_zero]

/-- Two bytes are written there from the end of a page, of which one can be
    read. -/
theorem writei_partial_root : ∃ s, main [] = .done s ∧ ∃ (tot : Nat) (s' : Kernel),
    Prog.run perform (writei mkfsSb ⟨0, by decide⟩ (.user lowPage 0xfff) 0 2)
      (inodeKernel ROOTINO s.blk) = .done ((tot : Int), s') ∧ tot < 2 ∧
    (NoBlock mkfsSb s' ⟨0, by decide⟩ (0 + tot) ∧
        Unharmed (writei mkfsSb ⟨0, by decide⟩ (.user lowPage 0xfff) 0 2)
          (inodeKernel ROOTINO s.blk) s' ⟨0, by decide⟩ 0 tot ∨
      tot = cutStart 0 1 ∧ ptr mkfsSb s' ⟨0, by decide⟩ (posOf ((0 + tot) / BSIZE)) ≠ 0 ∧
        (Unharmed (writei mkfsSb ⟨0, by decide⟩ (.user lowPage 0xfff) 0 2)
          (inodeKernel ROOTINO s.blk) s' ⟨0, by decide⟩ 0 tot ↔
          ∀ i (h : i < [(7 : Byte)].length), cutStart 0 1 ≤ i →
            0 + i < ((inodeKernel ROOTINO s.blk).itable ⟨0, by decide⟩).d.size.toNat →
            [(7 : Byte)][i] = byteAt (inodeKernel ROOTINO s.blk).blk
              ((inodeKernel ROOTINO s.blk).itable ⟨0, by decide⟩).d (0 + i))) := by
  rcases exists_root with ⟨s, hs, hM, ht⟩
  have hcut : Cut lowPage 0xfff [7] := by
    refine ⟨fun i hi => ?_, by decide⟩
    cases i with
    | zero => rfl
    | succ i => exact absurd hi (by simp)
  rcases writei_partial mkfsSb mkfsSb_ok (inodeKernel ROOTINO s.blk) ⟨0, by decide⟩
    (Nat.le_refl 1) hM ht lowPage 0xfff [7] hcut 0 2 (by decide) with hbad | hbig | hdone
  · exact absurd hbad.1 (not_badRange_root s.blk (by decide))
  · refine absurd hbig (writei_not_big (by decide) _ ?_)
    refine (room_inodeKernel ROOTINO s.blk).mono ?_
    have := budget_le (inodeKernel ROOTINO s.blk) ⟨0, by decide⟩ 0 2
    have : blocksOf 0 2 = 1 := by decide
    have : MAXOPBLOCKS = 10 := rfl
    change budget _ _ 0 2 + 3 ≤ _
    omega
  · exact ⟨s, hs, hdone⟩

/-- The kernel that starts on an image while the size of the root directory is
    not rounded up yet. -/
def startKernel (s : Disk) : Kernel :=
  bootKernel area (update s.blk mkfsSb.bmapstart
    ((List.range s.freeblock).foldl setBit (fun _ => 0)))

/-- Only the root directory is in memory, as the current one of the first process. -/
def startWorld (s : Disk) : World where
  files := node s.vol
  mem := update (fun _ => none) ⟨0, ninode_pos⟩ (some ⟨ROOTINO, 1, none, false⟩)
  ops := 0
  ftable := (startKernel s).ftable
  proc := (startKernel s).proc
  pipes := []

namespace Holds

variable {s : Disk} {es : List Dirent} {fs : List (List Byte)} {i : Nat} {f : Node}

variable (h : Holds s es fs)

include h

theorem vol_startKernel : Xv6.vol area (startKernel s).blk = s.vol := by
  have hhigh := h.ok.high
  change Xv6.vol area (update s.blk _ _) = _
  rw [vol_bitmap, Disk.vol, Vol.mk.injEq]
  refine ⟨?_, rfl, rfl⟩
  funext b
  by_cases hb : b < FSSIZE
  · rw [if_pos hb, bitAt_foldl_setBit _ _ (Nat.le_trans hhigh (by decide))]
  · rw [if_neg hb, decide_eq_false (by omega)]

theorem node_cases (hf : node s.vol i = some f) :
    i = ROOTINO ∧ f = dirNode es ∨ ∃ bs, f = fileNode bs := by
  by_cases hi : i = ROOTINO
  · rw [hi, h.root] at hf
    exact Or.inl ⟨hi, (Option.some.inj hf).symm⟩
  · by_cases hr : i = 0 ∨ fs.length + 2 ≤ i
    · rw [h.rest i hr] at hf
      exact nomatch hf
    · obtain ⟨k, rfl⟩ : ∃ k, i = k + 2 := ⟨i - 2, by unfold ROOTINO at hi; omega⟩
      have hk : k < fs.length := by omega
      rw [h.file k fs[k] (List.getElem?_eq_getElem hk)] at hf
      exact Or.inr ⟨fs[k], (Option.some.inj hf).symm⟩

theorem entry_root {j : Nat} (hj : j < es.length) :
    (dirNode es).entry j = es[j] := by
  unfold Node.entry
  rw [slice_dirNode h.names (List.getElem?_eq_getElem hj)]
  exact Dirent.decode_encode (h.names _ (List.getElem_mem hj))

theorem entries_root : (dirNode es).entries = es.length := by
  unfold Node.entries
  rw [length_dirNode h.names, Nat.mul_div_cancel_left _ (by decide)]

theorem rep (hes : ∀ e ∈ es, e.inum.toNat < area.ninodes) :
    Rep area (startKernel s) (startWorld s) := by
  have hvol := h.vol_startKernel
  have hnone : ∀ k, k ≠ ⟨0, by decide⟩ → (startWorld s).mem k = none := by
    intro k hk
    simp only [startWorld, update_of_ne hk]
  refine ⟨?_, by rw [hvol]; rfl, rfl, rfl, rfl, rfl, rfl, fun k => ?_, fun k l e e' hk hl _ => ?_,
    fun i hd => ?_⟩
  · rw [hvol]
    refine ⟨h.ok.map, fun i f hf ht => ?_⟩
    rcases h.node_cases hf with ⟨-, rfl⟩ | ⟨bs, rfl⟩
    · refine ⟨by rw [length_dirNode h.names]; exact Nat.dvd_mul_right _ _, fun j hj => ?_⟩
      rw [h.entries_root] at hj
      rw [h.entry_root hj]
      exact hes _ (List.getElem_mem hj)
    · exact absurd ht (show ¬T_FILE = T_DIR by decide)
  · by_cases hk : k = ⟨0, by decide⟩
    · rw [hk]
      exact ⟨rfl, Nat.one_pos, rfl, rfl, by decide, rfl, rfl, (by intros; contradiction)⟩
    · rw [hnone k hk]
      simp only [startKernel, bootKernel, update_of_ne hk]
      exact ⟨rfl, rfl⟩
  · have honly : ∀ m (x : Ent), (startWorld s).mem m = some x → m = ⟨0, by decide⟩ := by
      intro m x hm
      by_contra hne
      cases (hnone m hne).symm.trans hm
    rw [honly k e hk, honly l e' hl]
  · rcases hd with ⟨f, hf, hnl⟩
    have hone : f.nlink = 1 := by
      rcases h.node_cases hf with ⟨-, rfl⟩ | ⟨bs, rfl⟩ <;> rfl
    exact absurd (hone.symm.trans hnl) (by decide)

theorem linked
    (hes : ∀ e ∈ es, ∃ g, node s.vol e.inum.toNat = some g) : World.Linked (node s.vol) := by
  intro i f m hf ht hm _
  rcases h.node_cases hf with ⟨-, rfl⟩ | ⟨bs, rfl⟩
  · rw [h.entries_root] at hm
    rw [h.entry_root hm]
    exact hes _ (List.getElem_mem hm)
  · exact absurd ht (show ¬T_FILE = T_DIR by decide)

end Holds

/-- The root directory with one file. -/
theorem exists_oneFile : ∃ s bs, Holds s (entries oneFile) [bs] ∧
    World.Linked (startWorld s).files ∧ Rep area (startKernel s) (startWorld s) := by
  have hfine : ∀ f ∈ oneFile, slash ∉ shortname f.arg ∧ f.chunks.isSome ∧
      f.data.length ≤ MAXFILE * BSIZE := by decide
  rcases (main_ends (by decide)).result ⟨hfine, by decide⟩ with ⟨s, -, hI⟩
  rcases hI.built with ⟨s₁, h, -⟩
  refine ⟨s₁, _, h, h.linked (fun e he => ?_), h.rep (by decide)⟩
  have hinum : e.inum.toNat = ROOTINO ∨ e.inum.toNat = 2 := by
    revert e
    decide
  rcases hinum with hi | hi
  · exact ⟨_, by rw [hi]; exact h.root⟩
  · exact ⟨_, by rw [hi]; exact h.file 0 _ rfl⟩

/-- The first process looks up `/a`. -/
theorem path_resolution_oneFile : ∃ s bs, Holds s (entries oneFile) [bs] ∧
    Resolved area (startKernel s) id (fun s' k => (s'.itable k).inum)
      (resolve (node (Xv6.vol area (startKernel s).blk)) ROOTINO [[97]])
      (Prog.run perform (namei area initproc [slash, 97]) (startKernel s)) := by
  rcases exists_oneFile with ⟨s, bs, h, hlinked, hr⟩
  exact ⟨s, bs, h, (path_resolution hr hlinked ⟨_, h.root⟩
    ⟨⟨0, by decide⟩, ⟨ROOTINO, 1, none, false⟩, _, rfl, rfl, h.root⟩ [slash, 97]).1⟩

/-- In `/a/b` the last component has a part before it that leads to an inode, but
    there is no parent since `/a` is not a directory. -/
theorem nameiparent_of_file : ∃ s bs s', Holds s (entries oneFile) [bs] ∧
    components [slash, 97, slash, 98] = [[97], [98]] ∧
    resolve (node (Xv6.vol area (startKernel s).blk)) ROOTINO [[97]] = some 2 ∧
    Prog.run perform (nameiparent area initproc [slash, 97, slash, 98]) (startKernel s) =
      .done (none, s') := by
  rcases exists_oneFile with ⟨s, bs, h, hlinked, hr⟩
  have hcomp : components [slash, 97, slash, 98] = [[97], [98]] := by decide
  have hfile : node s.vol 2 = some (fileNode bs) := h.file 0 bs rfl
  have hres : resolve (node s.vol) ROOTINO [[97]] = some 2 := by
    have hlook : child (fun _ => some (dirNode (entries oneFile))) ROOTINO [97] = some 2 := by
      decide
    rw [resolve_cons]
    unfold child at hlook ⊢
    rw [h.root, hlook]
    rfl
  have hnone : resolveParent (node s.vol) ROOTINO [[97], [98]] = none := by
    have hnot : ¬∃ f ∈ node s.vol 2, f.type = T_DIR := by
      rintro ⟨f, hf, ht⟩
      rw [hfile] at hf
      rw [← Option.some.inj hf] at ht
      exact absurd ht (show ¬T_FILE = T_DIR by decide)
    simp only [resolveParent, List.getLast?_cons_cons, List.getLast?_singleton,
      List.dropLast_cons_cons, List.dropLast_singleton, hres, hnot, if_false]
  have hspec := namex_resolved (p := initproc) hr hlinked ⟨_, h.root⟩
    ⟨⟨0, by decide⟩, ⟨ROOTINO, 1, none, false⟩, _, rfl, rfl, h.root⟩ true [slash, 97, slash, 98]
  rw [follow_true, h.vol_startKernel, hcomp] at hspec
  have hempty : ∀ k, k ≠ ⟨0, by decide⟩ → ((startKernel s).itable k).ref = 0 := by
    intro k hk
    simp only [startKernel, bootKernel, update_of_ne hk]
  cases hrun : Prog.run perform (namex area initproc true [slash, 97, slash, 98])
      (startKernel s) with
  | done r =>
    rw [hrun] at hspec
    rcases r with ⟨r, s'⟩
    have hr0 : r = none := Option.map_eq_none_iff.mp (hspec.2.trans hnone)
    exact ⟨s, bs, s', h, hcomp, by rw [h.vol_startKernel]; exact hres, by rw [← hr0]; exact hrun⟩
  | panic e =>
    rw [hrun] at hspec
    exact absurd ⟨⟨1, by decide⟩, ⟨2, by decide⟩, by decide, hempty _ (by decide),
      hempty _ (by decide)⟩ hspec.2
  | wait =>
    rw [hrun] at hspec
    rcases hspec with ⟨k, hk⟩
    refine absurd ?_ hk
    by_cases hk0 : k = ⟨0, by decide⟩
    · rw [hk0]
      rfl
    · simp only [startKernel, bootKernel, update_of_ne hk0]

end Xv6.Mkfs
