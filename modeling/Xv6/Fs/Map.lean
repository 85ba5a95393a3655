import Xv6.Fs.Read
import Xv6.Fs.Rules

/-!
# The Blocks of a File

`bmap`: how a file gets blocks.

While the kernel works on an inode, the copy in memory is ahead of the one on
disk: `bmap` stores new addresses in memory only, and `iupdate` writes them
back later. The volume that counts in the meantime is `pend`, the one with the
copy in memory put in place of the one on disk. It is in order between any two
calls of `bmap`.

## Main definitions

* `pend`: The volume with the inode in memory written back.
* `Edit`: The changes that working on one inode may make to the kernel.
* `Grow`: The file got blocks, and nothing else changed.
* `DiskFull`: There is no free block.
-/

namespace Xv6

open Function

section Defs

variable (sb : Superblock) (s : Kernel) (k : Fin NINODE)

/-- The volume with inode `k` of the table written back. -/
def pend : Vol :=
  { vol sb s.blk with
    dino := update (vol sb s.blk).dino (s.itable k).inum (s.itable k).d }

/-- What place `n` of inode `k` holds. -/
def ptr (n : Nat) : Nat := ptrOf (vol sb s.blk).data (s.itable k).d n

def byte (o : Nat) : Byte := byteAt (vol sb s.blk).data (s.itable k).d o

end Defs

/-- Working on inode `k` changes blocks, the log and the copy of the inode. -/
structure Edit (s s' : Kernel) (k : Fin NINODE) : Prop where
  eq : s' = { s with
    blk := s'.blk
    log := s'.log
    itable := update s.itable k { s.itable k with d := (s'.itable k).d } }
  log : LogSame s.log s'.log

section Edits

variable {sb : Superblock} {s s' s'' : Kernel} {k : Fin NINODE} {V : Vol}

theorem Edit.refl (s : Kernel) (k : Fin NINODE) : Edit s s k := by
  refine ⟨?_, LogSame.refl _⟩
  rw [update_eq_self]

theorem Edit.inode (h : Edit s s' k) :
    s'.itable k = { s.itable k with d := (s'.itable k).d } := by
  have hk := congrFun (congrArg Kernel.itable h.eq) k
  simp only [update_self] at hk
  exact hk

theorem Edit.inum (h : Edit s s' k) : (s'.itable k).inum = (s.itable k).inum := by
  rw [h.inode]

theorem Edit.trans (h : Edit s s' k) (h' : Edit s' s'' k) : Edit s s'' k := by
  refine ⟨?_, h.log.trans h'.log⟩
  have hk := h.inode
  have heq := h'.eq
  rw [hk, h.eq] at heq
  simp only [update_idem] at heq
  exact heq

theorem Edit.ofUpd (h : Upd sb s s' V) (k : Fin NINODE) : Edit s s' k := by
  have hi : s'.itable = s.itable := h.itable
  refine ⟨?_, h.log⟩
  rw [hi, update_eq_self]
  exact h.eq

theorem Edit.ofSet (s : Kernel) (k : Fin NINODE) (d : Dinode) :
    Edit s (s.modInode k (fun i => { i with d := d })) k := by
  refine ⟨?_, LogSame.refl _⟩
  simp only [Kernel.modInode, update_self]

theorem pend_dino_self (sb : Superblock) (s : Kernel) (k : Fin NINODE) :
    (pend sb s k).dino (s.itable k).inum = (s.itable k).d := update_self _ _ _

theorem pend_upd (h : Upd sb s s' V) (hd : V.dino = (vol sb s.blk).dino) (k : Fin NINODE) :
    pend sb s' k = { pend sb s k with bit := V.bit, data := V.data } := by
  have hi : s'.itable = s.itable := h.itable
  unfold pend
  rw [h.vol, hi, hd]

theorem pend_set (sb : Superblock) (s : Kernel) (k : Fin NINODE) (d : Dinode) :
    pend sb (s.modInode k (fun i => { i with d := d })) k =
      { pend sb s k with
        dino := update (pend sb s k).dino (s.itable k).inum d } := by
  unfold pend Kernel.modInode
  simp only [update_self, update_idem]

end Edits

/-- The file of inode `k` got blocks, and nothing else changed. -/
structure Grow (sb : Superblock) (s s' : Kernel) (k : Fin NINODE) : Prop where
  edit : Edit s s' k
  map : MapOk sb (pend sb s' k)
  dino : (vol sb s'.blk).dino = (vol sb s.blk).dino
  fields : (s.itable k).d.SameFields (s'.itable k).d
  nodes : ∀ j, node (pend sb s' k) j = node (pend sb s k) j
  ptrs : ∀ n, ptr sb s k n ≠ 0 → ptr sb s' k n = ptr sb s k n
  bytes : ∀ o, byte sb s' k o = byte sb s k o

/-- There is no free block. -/
def DiskFull (sb : Superblock) (s : Kernel) : Prop :=
  ∀ c, c < sb.size → (vol sb s.blk).bit c = true

section Bmap

variable {sb : Superblock} {s s' s'' : Kernel} {k : Fin NINODE} {E : Panic → Prop}

theorem Grow.refl (hM : MapOk sb (pend sb s k)) : Grow sb s s k :=
  ⟨Edit.refl s k, hM, rfl, Dinode.SameFields.refl _, fun _ => rfl, fun _ _ => rfl, fun _ => rfl⟩

theorem Grow.trans (h : Grow sb s s' k) (h' : Grow sb s' s'' k) : Grow sb s s'' k := by
  refine ⟨h.edit.trans h'.edit, h'.map, h'.dino.trans h.dino, h.fields.trans h'.fields,
    fun j => (h'.nodes j).trans (h.nodes j), fun n hn => ?_,
    fun o => (h'.bytes o).trans (h.bytes o)⟩
  have hs := h.ptrs n hn
  rw [h'.ptrs n (by rw [hs]; exact hn), hs]

theorem indirect_inData (hA : AllocOk sb (pend sb s k)) (ht : (s.itable k).d.type ≠ 0)
    (h12 : (s.itable k).d.addr NDIRECT ≠ 0) :
    InData sb ((s.itable k).d.addr NDIRECT) ∧
      (vol sb s.blk).data ((s.itable k).d.addr NDIRECT) = s.blk ((s.itable k).d.addr NDIRECT) := by
  have hself := pend_dino_self sb s k
  have hp : ptrOf (pend sb s k).data ((pend sb s k).dino (s.itable k).inum) NDIRECT =
      (s.itable k).d.addr NDIRECT := by
    rw [hself, ptrOf_direct _ _ _ (Nat.lt_succ_self _)]
  have hin := (ptr_used hA (s.itable k).inum NDIRECT (by rw [hself]; exact ht)
    (by rw [hp]; exact h12)).1
  rw [hp] at hin
  exact ⟨hin, if_pos hin⟩

theorem grow_storeAddr (hok : sb.Ok) (hM : MapOk sb (pend sb s k))
    (ht : (s.itable k).d.type ≠ 0) {n b : Nat} (hn : n < NDIRECT + 1)
    (hempty : (s.itable k).d.addr n = 0) (hb : InData sb b)
    (hfree : (vol sb s.blk).bit b = false)
    (hU : Upd sb s s' { vol sb s.blk with
      bit := update (vol sb s.blk).bit b true
      data := update (vol sb s.blk).data b (fun _ => 0) }) :
    Grow sb s (s'.modInode k (fun i => { i with d := (s.itable k).d.setAddr n b })) k ∧
      ptr sb (s'.modInode k (fun i => { i with d := (s.itable k).d.setAddr n b })) k n = b := by
  have hitable : s'.itable = s.itable := hU.itable
  have hself := pend_dino_self sb s k
  generalize hs'' : s'.modInode k (fun i => { i with d := (s.itable k).d.setAddr n b }) = s''
  have hd : (s''.itable k).d = (s.itable k).d.setAddr n b := by
    rw [← hs'']
    simp only [Kernel.modInode, update_self]
  have hinum : (s''.itable k).inum = (s.itable k).inum := by
    rw [← hs'', ← hitable]
    simp only [Kernel.modInode, update_self]
  have hpend : pend sb s'' k = { bit := update (pend sb s k).bit b true
                                 dino := update (pend sb s k).dino (s.itable k).inum
                                   ((s.itable k).d.setAddr n b)
                                 data := update (pend sb s k).data b (fun _ => 0) } := by
    rw [← hs'', pend_set, pend_upd hU rfl, hitable]
    rfl
  have hself' : (pend sb s'' k).dino (s.itable k).inum = (s''.itable k).d := by
    rw [← hinum]
    exact pend_dino_self sb s'' k
  rcases @mapOk_storeAddr sb _ (pend sb s'' k) hok hM (s.itable k).inum n b
    (by rw [hself]; exact ht) hn hb hfree (by rw [hself]; exact hempty)
    (by rw [hpend, hself]) with ⟨hM', hptr, hptrs, hnodes, hbytes⟩
  rw [hself'] at hptr hptrs hbytes
  rw [hself] at hptrs hbytes
  refine ⟨⟨?_, hM', ?_, ?_, hnodes, fun m hm => hptrs m (fun hmn => hm ?_), hbytes⟩, hptr⟩
  · rw [← hs'']
    exact (Edit.ofUpd hU k).trans (Edit.ofSet s' k _)
  · rw [← hs'']
    change (vol sb s'.blk).dino = _
    rw [hU.vol]
  · rw [hd]
    exact Dinode.SameFields.setAddr _ _ _
  · rw [hmn, ptr, ptrOf_direct _ _ _ hn, hempty]

theorem grow_storeIndirect (hok : sb.Ok) (hM : MapOk sb (pend sb s k))
    (ht : (s.itable k).d.type ≠ 0) {j b : Nat} (hj : j < NINDIRECT)
    (h12 : (s.itable k).d.addr NDIRECT ≠ 0)
    (hempty : addrAt ((vol sb s.blk).data ((s.itable k).d.addr NDIRECT)) j = 0)
    (hb : InData sb b) (hfree : (vol sb s.blk).bit b = false)
    (hU : Upd sb s s' { vol sb s.blk with
      bit := update (vol sb s.blk).bit b true
      data := update (update (vol sb s.blk).data b (fun _ => 0))
        ((s.itable k).d.addr NDIRECT)
        (putAddr ((vol sb s.blk).data ((s.itable k).d.addr NDIRECT)) j b) }) :
    Grow sb s s' k ∧ ptr sb s' k (NDIRECT + 1 + j) = b := by
  have hitable : s'.itable = s.itable := hU.itable
  have hself := pend_dino_self sb s k
  have hself' : (pend sb s' k).dino (s.itable k).inum = (s'.itable k).d := by
    rw [← hitable]
    exact pend_dino_self sb s' k
  rcases @mapOk_storeIndirect sb _ (pend sb s' k) hok hM (s.itable k).inum j b
    (by rw [hself]; exact ht) hj hb hfree
    (by rw [hself]; exact h12) (by rw [hself]; exact hempty)
    (by rw [pend_upd hU rfl, hself]; rfl) with ⟨hM', hptr, hptrs, hnodes, hbytes⟩
  rw [hself'] at hptr hptrs hbytes
  rw [hself] at hptrs hbytes
  refine ⟨⟨Edit.ofUpd hU k, hM', by rw [hU.vol], ?_, hnodes,
    fun m hm => hptrs m (fun hmn => hm ?_), hbytes⟩, hptr⟩
  · rw [hitable]
    exact Dinode.SameFields.refl _
  · rw [hmn, ptr, ptrOf_indirect _ hj h12, hempty]

/-- A block that is there is found, and nothing changes. -/
theorem bmap_hit (hA : AllocOk sb (pend sb s k)) (ht : (s.itable k).d.type ≠ 0) {bn : Nat}
    (hbn : bn < MAXFILE) (hp : ptr sb s k (posOf bn) ≠ 0) {Q : Nat → Kernel → Prop}
    (h : Q (ptr sb s k (posOf bn)) s) : wpk E (bmap sb k bn) Q s := by
  -- The indirect block is a data block, so the volume has it as the disk does.
  have hraw : ptrOf s.blk (s.itable k).d (posOf bn) = ptr sb s k (posOf bn) :=
    ptrOf_congr _ _ _ _ (fun _ _ => rfl) (fun h12 => (indirect_inData hA ht h12).2.symm) _
  rw [← hraw] at hp h
  exact wp_of_run (bmap_run hbn hp) h

/-- The address of the indirect block, which is allocated if need be. -/
theorem bmapIndirect_wp (hok : sb.Ok) (hE : E .tooBigTransaction) (hop : 1 ≤ s.log.outstanding)
    (hM : MapOk sb (pend sb s k)) (ht : (s.itable k).d.type ≠ 0) {Q : Nat → Kernel → Prop}
    (hfull : DiskFull sb s → (s.itable k).d.addr NDIRECT = 0 → Q 0 s)
    (h : ∀ s', Grow sb s s' k → (s'.itable k).d.addr NDIRECT ≠ 0 →
      Q ((s'.itable k).d.addr NDIRECT) s') :
    wpk E (bmapIndirect sb k) Q s := by
  unfold bmapIndirect
  rw [wp_bind, wp_getInode]
  by_cases h12 : (s.itable k).d.addr NDIRECT = 0
  · rw [if_pos h12, wp_bind]
    refine balloc_wp hok hE hop hM.reserved (fun hall => ?_) (fun b s' hb hfree hU => ?_)
    · rw [if_pos rfl, wp_pure]
      exact hfull hall h12
    · have hb0 := (inData_lt hok hb).1
      rw [if_neg hb0, wp_bind, wp_setInode, wp_pure]
      rcases grow_storeAddr hok hM ht (Nat.lt_succ_self _) h12 hb hfree hU with
        ⟨hgrow, hptr⟩
      rw [ptr, ptrOf_direct _ _ _ (Nat.lt_succ_self _)] at hptr
      have hQ := h _ hgrow (by rw [hptr]; exact hb0)
      rw [hptr] at hQ
      exact hQ
  · rw [if_neg h12, wp_pure]
    exact h s (Grow.refl hM) h12

/-- `bmap` lets the file grow, and returns the block if it succeeds. -/
theorem bmap_wp (hok : sb.Ok) (hE : E .tooBigTransaction) (hop : 1 ≤ s.log.outstanding)
    (hM : MapOk sb (pend sb s k)) (ht : (s.itable k).d.type ≠ 0) (bn : Nat)
    (hbn : bn < MAXFILE) (Q : Nat → Kernel → Prop)
    (hfull : ∀ s', Grow sb s s' k → DiskFull sb s' → ptr sb s' k (posOf bn) = 0 → Q 0 s')
    (h : ∀ s', Grow sb s s' k → ptr sb s' k (posOf bn) ≠ 0 → Q (ptr sb s' k (posOf bn)) s') :
    wpk E (bmap sb k bn) Q s := by
  by_cases hp : ptr sb s k (posOf bn) = 0
  · unfold bmap
    rw [wp_bind, wp_getInode]
    by_cases hdir : bn < NDIRECT
    · have hn : bn < NDIRECT + 1 := Nat.lt_succ_of_lt hdir
      have hpos : posOf bn = bn := if_pos hdir
      have hmiss := hp
      rw [hpos] at hp h
      rw [ptr, ptrOf_direct _ _ _ hn] at hp
      rw [if_pos hdir, if_pos hp, wp_bind]
      refine balloc_wp hok hE hop hM.reserved (fun hall => ?_) (fun b s' hb hfree hU => ?_)
      · rw [if_pos rfl, wp_pure]
        exact hfull s (Grow.refl hM) hall hmiss
      · have hb0 := (inData_lt hok hb).1
        rw [if_neg hb0, wp_bind, wp_setInode, wp_pure]
        rcases grow_storeAddr hok hM ht hn hp hb hfree hU with ⟨hgrow, hptr⟩
        have hQ := h _ hgrow (by rw [hptr]; exact hb0)
        rw [hptr] at hQ
        exact hQ
    · have hj : bn - NDIRECT < NINDIRECT := by
        unfold MAXFILE at hbn
        omega
      rw [if_neg hdir, if_pos hj, wp_bind]
      refine bmapIndirect_wp hok hE hop hM ht (fun hall _ => ?_) (fun s₁ hg h12 => ?_)
      · rw [if_pos rfl, wp_pure]
        exact hfull s (Grow.refl hM) hall hp
      · have ht₁ : (s₁.itable k).d.type ≠ 0 := by
          rw [hg.fields.type]
          exact ht
        have hop₁ : 1 ≤ s₁.log.outstanding := by
          rw [hg.edit.log.outstanding]
          exact hop
        rcases indirect_inData hg.map.toAllocOk ht₁ h12 with ⟨hin, hblk⟩
        have hptr₁ : ptr sb s₁ k (posOf bn) =
            addrAt (s₁.blk ((s₁.itable k).d.addr NDIRECT)) (bn - NDIRECT) := by
          rw [posOf_indirect hdir, ptr, ptrOf_indirect _ hj h12, hblk]
        rw [if_neg h12, wp_bind, wp_bread]
        by_cases ha : addrAt (s₁.blk ((s₁.itable k).d.addr NDIRECT)) (bn - NDIRECT) = 0
        · rw [if_pos ha, wp_bind]
          refine balloc_wp hok hE hop₁ hg.map.reserved (fun hall => ?_)
            (fun b s₂ hb hfree hU => ?_)
          · rw [if_pos rfl, wp_pure]
            exact hfull s₁ hg hall (by rw [hptr₁]; exact ha)
          · have hb0 := (inData_lt hok hb).1
            rw [if_neg hb0]
            refine wp_write hok hE (by rw [hU.log.outstanding]; exact hop₁) hin
              (fun s₃ hU' => ?_)
            rw [hU.vol, ← hblk] at hU'
            rw [wp_pure]
            rcases grow_storeIndirect hok hg.map ht₁ hj h12
              (by rw [hblk]; exact ha) hb hfree (hU.trans hU') with ⟨hgrow, hptr⟩
            rw [← posOf_indirect hdir] at hptr
            have hQ := h _ (hg.trans hgrow) (by rw [hptr]; exact hb0)
            rw [hptr] at hQ
            exact hQ
        · rw [if_neg ha, wp_pure, ← hptr₁]
          exact h s₁ hg (by rw [hptr₁]; exact ha)
  · exact bmap_hit hM.toAllocOk ht hbn hp (h s (Grow.refl hM) hp)

end Bmap

/-- Inode `k` was changed and written back; the volume is in order and other
    files are as before. -/
structure Wrote (sb : Superblock) (s s' : Kernel) (k : Fin NINODE) : Prop where
  edit : Edit s s' k
  sync : (vol sb s'.blk).dino (s.itable k).inum = (s'.itable k).d
  map : MapOk sb (vol sb s'.blk)
  dino : ∀ j, j ≠ (s.itable k).inum → (vol sb s'.blk).dino j = (vol sb s.blk).dino j
  others : ∀ j, j ≠ (s.itable k).inum → node (vol sb s'.blk) j = node (pend sb s k) j

section Update

variable {sb : Superblock} {s s' s'' : Kernel} {k : Fin NINODE} {E : Panic → Prop}

theorem setUpdate_wp (hok : sb.Ok) (hE : E .tooBigTransaction) (hop : 1 ≤ s.log.outstanding)
    (d : Dinode)
    (hi : (s.itable k).inum < sb.ninodes) (Q : Unit → Kernel → Prop)
    (h : ∀ s', Edit s s' k → (s'.itable k).d = d →
      vol sb s'.blk = { vol sb s.blk with
        dino := update (vol sb s.blk).dino (s.itable k).inum d } → Q () s') :
    wpk E (iupdate sb k) Q (s.modInode k (fun i => { i with d := d })) := by
  have hd : (s.modInode k (fun i => { i with d := d })).itable k = { s.itable k with d := d } := by
    simp only [Kernel.modInode, update_self]
  refine @iupdate_wp sb E (s.modInode k _) hok hE hop k (by rw [hd]; exact hi) Q
    (fun s' hU => h s' ?_ ?_ ?_)
  · exact (Edit.ofSet s k d).trans (Edit.ofUpd hU k)
  · rw [hU.itable, hd]
  · rw [hU.vol, hd]
    rfl

end Update

end Xv6
