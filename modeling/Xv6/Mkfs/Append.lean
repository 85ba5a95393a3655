import Xv6.Fs.Change
import Xv6.Mkfs.Model

/-!
# Appending to a File of the Image

What `iappend` does to the volume that `mkfs` is building.

The bitmap is written last. Until then the volume is the one in which exactly
the blocks handed out are in use, and the laws about changes to a volume apply
as they do for the kernel. In contrast to the kernel, `mkfs` gives a file its
blocks strictly in the order of their places, so the places in use are known
from the size alone, and so is their number. The end of the image is the one
limit: a block past it cannot be read.
-/

namespace Xv6.Mkfs

open Function Outcome

/-- The layout, with every inode that the inode blocks have room for. -/
def area : Superblock := { mkfsSb with ninodes := ninodeblocks * IPB }

theorem area_ok : area.Ok := by
  refine ⟨fun i hi => ?_, by decide, by decide, by decide, by decide⟩
  have hi' : i < 208 := hi
  change i / 16 + 32 < 45
  omega

theorem inData_area {b : Nat} : InData area b ↔ nmeta ≤ b ∧ b < FSSIZE := Iff.rfl

/-- The size from which on place `n` is in use. -/
def startOf (n : Nat) : Nat := if n ≤ NDIRECT then n * BSIZE else (n - 1) * BSIZE

/-- The places in use are those in `P`. -/
def Filled (data : Nat → Block) (d : Dinode) (P : Nat → Prop) : Prop :=
  ∀ n, n < NPTR → (ptrOf data d n ≠ 0 ↔ P n)

/-- The number of blocks of a file, the indirect block included. -/
def cost (size : Nat) : Nat :=
  if (size + BSIZE - 1) / BSIZE ≤ NDIRECT then (size + BSIZE - 1) / BSIZE
  else (size + BSIZE - 1) / BSIZE + 1

section Arithmetic

variable {off n : Nat}

theorem startOf_posOf (bn : Nat) : startOf (posOf bn) = bn * BSIZE := by
  unfold startOf posOf NDIRECT
  by_cases h : bn < 12
  · rw [if_pos h, if_pos (by omega)]
  · rw [if_neg h, if_neg (by omega), Nat.add_sub_cancel]

theorem cost_within (h : off % BSIZE ≠ 0) : cost (off + 1) = cost off := by
  unfold cost BSIZE NDIRECT at *
  have hdiv : (off + 1 + 1024 - 1) / 1024 = (off + 1024 - 1) / 1024 := by omega
  rw [hdiv]

/-- The first byte of a block takes one, and the indirect block if it is the
    first one there. -/
theorem cost_next (h : off % BSIZE = 0) :
    cost (off + 1) = cost off + if off / BSIZE = NDIRECT then 2 else 1 := by
  unfold cost BSIZE NDIRECT at *
  have hdiv : (off + 1 + 1024 - 1) / 1024 = off / 1024 + 1 := by omega
  have hdiv' : (off + 1024 - 1) / 1024 = off / 1024 := by omega
  rw [hdiv, hdiv']
  split <;> split <;> split <;> omega

/-- The other bytes of a block come with the first. -/
theorem cost_block (h0 : 0 < n) (h : off % BSIZE + n ≤ BSIZE) :
    cost (off + n) = cost (off + 1) := by
  unfold cost BSIZE at *
  have hdiv : (off + n + 1024 - 1) / 1024 = (off + 1 + 1024 - 1) / 1024 := by omega
  rw [hdiv]

theorem cost_mono {off' : Nat} (h : off ≤ off') : cost off ≤ cost off' := by
  unfold cost BSIZE NDIRECT
  have hle : (off + 1024 - 1) / 1024 ≤ (off' + 1024 - 1) / 1024 :=
    Nat.div_le_div_right (by omega)
  split <;> split <;> omega

theorem startOf_within (h : off % BSIZE ≠ 0) (m : Nat) :
    startOf m < off + 1 ↔ startOf m < off := by
  unfold startOf BSIZE at *
  split <;> omega

/-- With the first byte of a block its place comes in use, and that of the
    indirect block if it is the first one there. -/
theorem startOf_next (h : off % BSIZE = 0) (m : Nat) :
    startOf m < off + 1 ↔ startOf m < off ∨ m = posOf (off / BSIZE) ∨
      m = NDIRECT ∧ off / BSIZE = NDIRECT := by
  unfold startOf posOf BSIZE NDIRECT at *
  split <;> split <;> omega

theorem startOf_block (h0 : 0 < n) (h : off % BSIZE + n ≤ BSIZE) (m : Nat) :
    startOf m < off + n ↔ startOf m < off + 1 := by
  unfold startOf BSIZE at *
  split <;> omega

end Arithmetic

theorem Filled.congr {data : Nat → Block} {d : Dinode} {P P' : Nat → Prop}
    (h : Filled data d P) (hP : ∀ n, P' n ↔ P n) : Filled data d P' :=
  fun n hn => (h n hn).trans (hP n).symm

namespace Disk

/-- The volume so far: a block is in use if it was handed out. -/
def vol (s : Disk) : Vol := { Xv6.vol area s.blk with bit := fun b => decide (b < s.freeblock) }

def pend (s : Disk) (inum : Nat) (din : Dinode) : Vol :=
  { s.vol with dino := update s.vol.dino inum din }

/-- The image has its length and its superblock, and the blocks not handed out
    are zero. -/
structure Ready (s : Disk) : Prop where
  len : s.len = FSSIZE
  super : s.blk 1 = putSb (fun _ => 0) mkfsSb
  low : nmeta ≤ s.freeblock
  high : s.freeblock ≤ FSSIZE
  fresh : ∀ b, s.freeblock ≤ b → s.blk b = fun _ => 0

/-- Between two calls the volume is in order, and files have the blocks that
    their sizes call for and no others. -/
structure Ok (s : Disk) : Prop extends Ready s where
  map : MapOk area s.vol
  full : ∀ i, (s.vol.dino i).type ≠ 0 →
    Filled s.vol.data (s.vol.dino i) (fun n => startOf n < (s.vol.dino i).size.toNat)

end Disk

section Sectors

variable {s : Disk} {b : Nat}

theorem sector_eq (h : b ≤ FSSIZE) : sector b = b := by
  have hb : b ≤ 2000 := h
  unfold sector BSIZE
  omega

theorem rsect_done (hlen : s.len = FSSIZE) (h : b < FSSIZE) :
    s.rsect b = .done (s.blk b) := by
  rw [Disk.rsect, sector_eq (Nat.le_of_lt h), hlen, if_pos h]

theorem rsect_end (hlen : s.len = FSSIZE) : s.rsect FSSIZE = .panic .read := by
  rw [Disk.rsect, sector_eq (Nat.le_refl _), hlen, if_neg (Nat.lt_irrefl _)]

theorem wsect_eq (hlen : s.len = FSSIZE) (h : b < FSSIZE) (x : Block) :
    s.wsect b x = { s with blk := update s.blk b x } := by
  unfold Disk.wsect
  rw [sector_eq (Nat.le_of_lt h), hlen, Nat.max_eq_left h]

theorem Disk.Ready.next (hR : s.Ready) (hroom : s.freeblock < FSSIZE) :
    Disk.Ready { s with freeblock := s.freeblock + 1 } :=
  ⟨hR.len, hR.super, Nat.le_succ_of_le hR.low, hroom,
    fun c hc => hR.fresh c (Nat.le_of_succ_le hc)⟩

theorem Disk.Ready.setBlk (hR : s.Ready) (h1 : 1 < b) (hb : b < s.freeblock) (x : Block) :
    Disk.Ready { s with blk := update s.blk b x } :=
  ⟨hR.len, (update_of_ne (Nat.ne_of_lt h1) _ _).trans hR.super, hR.low, hR.high, fun c hc =>
    (update_of_ne (Nat.ne_of_gt (Nat.lt_of_lt_of_le hb hc)) _ _).trans (hR.fresh c hc)⟩

theorem Disk.vol_setBlk (h : InData area b) (x : Block) :
    Disk.vol { s with blk := update s.blk b x } =
      { s.vol with data := update s.vol.data b x } :=
  congrArg (fun V : Vol => { V with bit := fun b => decide (b < s.freeblock) })
    (Xv6.vol_data area_ok s.blk _ h _)

theorem iblock_lt {inum : Nat} (h : inum < area.ninodes) : mkfsSb.iblock inum < nmeta := by
  have h' : inum < 208 := h
  change inum / 16 + 32 < 46
  omega

theorem rinode_done (hlen : s.len = FSSIZE) {inum : Nat} (h : inum < area.ninodes) :
    s.rinode inum = .done (s.vol.dino inum) := by
  have hlt : mkfsSb.iblock inum < FSSIZE := Nat.lt_trans (iblock_lt h) (by decide)
  have hd : s.vol.dino inum = dinodeAt (s.blk (mkfsSb.iblock inum)) (inum % IPB) := if_pos h
  rw [Disk.rinode, rsect_done hlen hlt, Outcome.done_bind, hd]
  rfl

theorem winode_done (hR : s.Ready) {inum : Nat} (h : inum < area.ninodes) (d : Dinode) :
    ∃ s', s.winode inum d = .done s' ∧ s'.Ready ∧ s'.vol = s.pend inum d ∧
      s'.freeblock = s.freeblock ∧ s'.freeinode = s.freeinode := by
  have hmeta := iblock_lt h
  have hlt : mkfsSb.iblock inum < FSSIZE := Nat.lt_trans hmeta (by decide)
  have hlow := hR.low
  have hge : 32 ≤ mkfsSb.iblock inum := Nat.le_add_left _ _
  refine ⟨{ s with
      blk := update s.blk (mkfsSb.iblock inum)
        (putDinode (s.blk (mkfsSb.iblock inum)) (inum % IPB) d) }, ?_,
    hR.setBlk (by omega) (by omega) _, ?_, rfl, rfl⟩
  · rw [Disk.winode, rsect_done hR.len hlt, Outcome.done_bind, wsect_eq hR.len hlt]
    rfl
  · exact congrArg (fun V : Vol => { V with bit := fun b => decide (b < s.freeblock) })
      (vol_putDinode area_ok s.blk h d)

end Sectors

/-- The loop of `iappend` on inode `inum`, started in `s₀`. The places in `P`
    are in use and take up `N` blocks, and the file holds `bytes` so far. -/
structure Appending (s₀ s : Disk) (inum : Nat) (din : Dinode) (P : Nat → Prop) (N : Nat)
    (bytes : List Byte) : Prop extends s.Ready where
  map : MapOk area (s.pend inum din)
  dino : s.vol.dino = s₀.vol.dino
  fields : (s₀.vol.dino inum).SameFields din
  others : ∀ j, j ≠ inum → (∀ n, slot (s.pend inum din) (j, n) = slot s₀.vol (j, n)) ∧
    node (s.pend inum din) j = node s₀.vol j
  places : Filled s.vol.data din P
  byte : ∀ o, o < bytes.length → byteAt s.vol.data din o = bytes.getD o 0
  count : s.freeblock + cost (s₀.vol.dino inum).size.toNat = s₀.freeblock + N
  inodes : s.freeinode = s₀.freeinode

namespace Appending

variable {s₀ s : Disk} {inum : Nat} {din : Dinode} {P : Nat → Prop} {N : Nat}
  {bytes : List Byte}

theorem self (s : Disk) (inum : Nat) (din : Dinode) : (s.pend inum din).dino inum = din :=
  update_self _ _ _

variable (h : Appending s₀ s inum din P N bytes)

include h

theorem congr {P' : Nat → Prop} {N' : Nat}
    (hP : ∀ n, P' n ↔ P n) (hN : N' = N) : Appending s₀ s inum din P' N' bytes := by
  rw [hN]
  exact { h with places := h.places.congr hP }

theorem data_fresh :
    update s.vol.data s.freeblock (fun _ => 0) = s.vol.data := by
  refine update_eq_self_iff.mpr ?_
  change _ = if InData area s.freeblock then s.blk s.freeblock else _
  rw [h.fresh _ (Nat.le_refl _), ite_self]

omit h in
theorem bit_next (s : Disk) : update s.vol.bit s.freeblock true =
    fun b => decide (b < s.freeblock + 1) := by
  funext b
  by_cases hb : b = s.freeblock
  · rw [hb, update_self, decide_eq_true (Nat.lt_succ_self _)]
  · rw [update_of_ne hb]
    exact decide_eq_decide.mpr (by omega)

omit h in
theorem bit_free (s : Disk) : s.vol.bit s.freeblock = false :=
  decide_eq_false (Nat.lt_irrefl _)

theorem inData_next (hroom : s.freeblock < FSSIZE) :
    InData area s.freeblock := inData_area.mpr ⟨h.low, hroom⟩

theorem unused {n : Nat} (hn : n < NPTR) (hP : ¬P n) :
    ptrOf s.vol.data din n = 0 :=
  Classical.not_not.mp (fun hc => hP ((h.places n hn).mp hc))

theorem grab (ht : din.type ≠ 0) {n : Nat} (hn : n < NDIRECT + 1) (hP : ¬P n)
    (hroom : s.freeblock < FSSIZE) :
    s.grab din n = (din.setAddr n s.freeblock, { s with freeblock := s.freeblock + 1 }) ∧
      (din.setAddr n s.freeblock).addr n = s.freeblock ∧
      Appending s₀ { s with freeblock := s.freeblock + 1 } inum (din.setAddr n s.freeblock)
        (fun m => P m ∨ m = n) (N + 1) bytes := by
  have hdata := h.data_fresh
  have hin := h.inData_next hroom
  have hlt := (inData_lt area_ok hin).2
  have hempty : din.addr n = 0 :=
    (ptrOf_direct _ _ n hn).symm.trans (h.unused (Nat.lt_of_lt_of_le hn (by decide)) hP)
  have hpend : Disk.pend { s with freeblock := s.freeblock + 1 } inum
      (din.setAddr n s.freeblock) =
      { bit := update (s.pend inum din).bit s.freeblock true
        dino := update (s.pend inum din).dino inum
          (((s.pend inum din).dino inum).setAddr n s.freeblock)
        data := update (s.pend inum din).data s.freeblock (fun _ => 0) } := by
    change _ = ({ bit := update s.vol.bit s.freeblock true
                  dino := update (update s.vol.dino inum din) inum _
                  data := update s.vol.data s.freeblock (fun _ => 0) } : Vol)
    rw [hdata, bit_next, update_idem, self]
    rfl
  rcases mapOk_storeAddr area_ok h.map inum n s.freeblock (by rw [self]; exact ht) hn hin
    (bit_free s) (by rw [self]; exact hempty) hpend with ⟨hM, hself, hsame, -, hbytes⟩
  rw [self] at hself
  simp only [self] at hsame hbytes
  refine ⟨by rw [Disk.grab, if_pos hempty], ?_, ?_⟩
  · rw [Dinode.addr_setAddr _ _ hn hlt, if_pos rfl]
  refine ⟨h.toReady.next hroom, hM, h.dino, h.fields.trans (Dinode.SameFields.setAddr _ _ _),
    fun j hj => ?_, fun m hm => ?_, fun o ho => (hbytes o).trans (h.byte o ho), ?_, h.inodes⟩
  · -- Only addresses of this inode have changed.
    have hframe := frame_inode (s.pend inum din)
      (Disk.pend { s with freeblock := s.freeblock + 1 } inum (din.setAddr n s.freeblock)) j
      ((update_of_ne hj _ _).trans (update_of_ne hj _ _).symm)
      (fun _ _ _ => rfl)
    exact ⟨fun m => (hframe.1 m).trans ((h.others j hj).1 m),
      hframe.2.trans (h.others j hj).2⟩
  · by_cases hmn : m = n
    · rw [hmn]
      refine ⟨fun _ => Or.inr rfl, fun _ => ?_⟩
      exact hself.trans_ne (inData_lt area_ok hin).1
    · refine Iff.trans (Iff.of_eq (congrArg (· ≠ 0) (hsame m hmn))) ((h.places m hm).trans ?_)
      exact ⟨Or.inl, fun hc => hc.resolve_right hmn⟩
  · have hc := h.count
    change s.freeblock + 1 + _ = _
    omega

theorem used (ht : din.type ≠ 0) {n x : Nat}
    (hx : ptrOf s.vol.data din n = x) (hx0 : x ≠ 0) : InData area x ∧ x < s.freeblock := by
  subst hx
  have hu := ptr_used h.map.toAllocOk inum n (by rw [self]; exact ht) (by rw [self]; exact hx0)
  rw [self] at hu
  exact ⟨hu.1, of_decide_eq_true hu.2⟩

omit h in
theorem vol_data {b : Nat} (hb : InData area b) : s.vol.data b = s.blk b := if_pos hb

theorem others_of (ht : din.type ≠ 0) {s' : Disk} {n b : Nat} (hb : ptrOf s.vol.data din n = b)
    (hb0 : b ≠ 0) (hdata : ∀ c, c ≠ b → s'.vol.data c = s.vol.data c)
    (hdino : s'.vol.dino = s.vol.dino) (j : Nat) (hj : j ≠ inum) :
    (∀ m, slot (s'.pend inum din) (j, m) = slot s₀.vol (j, m)) ∧
      node (s'.pend inum din) j = node s₀.vol j := by
  have hown : slot (s.pend inum din) (inum, n) = some b := by
    refine (slotOf_eq_some _ _ _ _).mpr ?_
    rw [self]
    exact ⟨ht, hb, hb0⟩
  have hframe := @frame_of area (s.pend inum din) (s'.pend inum din) h.map.toAllocOk inum
    (fun c => c = b) (fun c hc => Or.inr ⟨n, by rw [hc]; exact hown⟩) hdata
    (fun i _ => by rw [Disk.pend, Disk.pend, hdino]) j hj
  exact ⟨fun m => (hframe.1 m).trans ((h.others j hj).1 m), hframe.2.trans (h.others j hj).2⟩

/-- The next block is entered into the indirect block. -/
theorem grabIndirect (ht : din.type ≠ 0) {j : Nat} (hj : j < NINDIRECT) (h12 : din.addr NDIRECT ≠ 0)
    (hP : ¬P (NDIRECT + 1 + j)) (hroom : s.freeblock < FSSIZE) :
    Appending s₀ { s with
      blk := update s.blk (din.addr NDIRECT)
        (putAddr (s.blk (din.addr NDIRECT)) j s.freeblock)
      freeblock := s.freeblock + 1 } inum din (fun m => P m ∨ m = NDIRECT + 1 + j) (N + 1)
      bytes := by
  have hdata := h.data_fresh
  have hin := h.inData_next hroom
  have hnp : NDIRECT + 1 + j < NPTR := by
    unfold NPTR
    omega
  have hind := ptrOf_direct s.vol.data din NDIRECT (Nat.lt_succ_self _)
  rcases h.used ht hind h12 with ⟨hin12, hlt12⟩
  have hempty : addrAt (s.vol.data (din.addr NDIRECT)) j = 0 :=
    (ptrOf_indirect _ hj h12).symm.trans (h.unused hnp hP)
  have hR := (h.toReady.next hroom).setBlk (Nat.lt_of_lt_of_le (by decide) hin12.1)
    (Nat.lt_succ_of_lt hlt12) (putAddr (s.blk (din.addr NDIRECT)) j s.freeblock)
  generalize hs' : ({ s with
    blk := update s.blk (din.addr NDIRECT)
      (putAddr (s.blk (din.addr NDIRECT)) j s.freeblock)
    freeblock := s.freeblock + 1 } : Disk) = s' at hR
  have hvol : s'.vol = { s.vol with
      bit := update s.vol.bit s.freeblock true
      data := update (update s.vol.data s.freeblock (fun _ => 0))
        (din.addr NDIRECT) (putAddr (s.vol.data (din.addr NDIRECT)) j s.freeblock) } := by
    rw [hdata, bit_next, vol_data hin12, ← hs']
    exact @Disk.vol_setBlk { s with freeblock := s.freeblock + 1 } _ hin12 _
  have hpend : s'.pend inum din =
      { bit := update (s.pend inum din).bit s.freeblock true
        dino := (s.pend inum din).dino
        data := update (update (s.pend inum din).data s.freeblock (fun _ => 0))
          (((s.pend inum din).dino inum).addr NDIRECT)
          (putAddr ((s.pend inum din).data (((s.pend inum din).dino inum).addr NDIRECT)) j
            s.freeblock) } := by
    rw [self, Disk.pend, hvol]
    rfl
  rcases mapOk_storeIndirect area_ok h.map inum j s.freeblock (by rw [self]; exact ht) hj hin
    (bit_free s) (by rw [self]; exact h12) (by rw [self]; exact hempty) hpend
    with ⟨hM, hself, hsame, -, hbytes⟩
  simp only [self] at hself hsame hbytes
  have hpdata : (s'.pend inum din).data = s'.vol.data := rfl
  rw [hpdata] at hself hsame hbytes
  have hne : ∀ b, b ≠ din.addr NDIRECT → s'.vol.data b = s.vol.data b := by
    intro b hb
    rw [hvol, hdata]
    exact update_of_ne hb _ _
  refine ⟨hR, hM, ?_, h.fields, fun j' hj' => ?_,
    fun m hm => ?_, fun o ho => (hbytes o).trans (h.byte o ho), ?_, ?_⟩
  · rw [hvol]
    exact h.dino
  · exact h.others_of ht hind h12 hne (by rw [hvol]) j' hj'
  · by_cases hmn : m = NDIRECT + 1 + j
    · rw [hmn]
      refine ⟨fun _ => Or.inr rfl, fun _ => ?_⟩
      exact hself.trans_ne (inData_lt area_ok hin).1
    · rw [hsame m hmn]
      exact (h.places m hm).trans ⟨Or.inl, fun hc => hc.resolve_right hmn⟩
  · have hc := h.count
    rw [← hs']
    change s.freeblock + 1 + _ = _
    omega
  · rw [← hs']
    exact h.inodes

theorem write (ht : din.type ≠ 0) {x : Nat}
    (hx : ptrOf s.vol.data din (posOf (bytes.length / BSIZE)) = x) (hx0 : x ≠ 0) (xs : List Byte)
    (hfit : bytes.length % BSIZE + xs.length ≤ BSIZE) :
    Appending s₀ { s with
      blk := update s.blk x
        (Bytes.splice (s.blk x) (bytes.length % BSIZE) xs) } inum din P N (bytes ++ xs) := by
  rcases h.used ht hx hx0 with ⟨hin, hltx⟩
  have hR := h.toReady.setBlk (Nat.lt_of_lt_of_le (by decide) hin.1) hltx
    (Bytes.splice (s.blk x) (bytes.length % BSIZE) xs)
  generalize hs' : ({ s with
    blk := update s.blk x
      (Bytes.splice (s.blk x) (bytes.length % BSIZE) xs) } : Disk) = s' at hR
  have hvol : s'.vol = { s.vol with
      data := update s.vol.data x
        (Bytes.splice (s.blk x) (bytes.length % BSIZE) xs) } := by
    rw [← hs']
    exact Disk.vol_setBlk hin _
  have hpend : s'.pend inum din = { s.pend inum din with
      data := update (s.pend inum din).data
        (ptrOf (s.pend inum din).data ((s.pend inum din).dino inum)
          (posOf (bytes.length / BSIZE)))
        (Bytes.splice (s.blk x) (bytes.length % BSIZE) xs) } := by
    rw [self, show ptrOf (s.pend inum din).data din (posOf (bytes.length / BSIZE)) = x from hx,
      Disk.pend, hvol]
    rfl
  rcases mapOk_write h.map inum (bytes.length / BSIZE) _ (by rw [self]; exact ht)
    (by rw [self]; exact hx.trans_ne hx0) hpend with ⟨hM, -, hptrs, hbytes⟩
  simp only [self] at hptrs hbytes
  have hne : ∀ b, b ≠ x → s'.vol.data b = s.vol.data b := by
    intro b hb
    rw [hvol]
    exact update_of_ne hb _ _
  refine ⟨hR, hM, ?_, h.fields, fun j hj => ?_, fun m hm => ?_, fun o ho => ?_, ?_, ?_⟩
  · rw [hvol]
    exact h.dino
  · exact h.others_of ht hx hx0 hne (by rw [hvol]) j hj
  · exact Iff.trans (Iff.of_eq (congrArg (· ≠ 0) (hptrs m))) (h.places m hm)
  · refine (hbytes o).trans ?_
    rw [List.length_append] at ho
    by_cases hdiv : o / BSIZE = bytes.length / BSIZE
    · rw [if_pos hdiv, Bytes.get_splice _ _ _ (Nat.mod_lt _ (by decide))]
      by_cases hlow : o < bytes.length
      · have hmod : ¬bytes.length % BSIZE ≤ o % BSIZE := by
          unfold BSIZE at hdiv ⊢
          omega
        have hold := h.byte o hlow
        rw [byteAt, hdiv, hx, if_neg hx0, vol_data hin] at hold
        rw [if_neg (fun hc => hmod hc.1), hold, List.getD_append _ _ _ _ hlow]
      · have hmod : bytes.length % BSIZE ≤ o % BSIZE ∧
            o % BSIZE - bytes.length % BSIZE = o - bytes.length := by
          unfold BSIZE at hdiv ⊢
          omega
        rw [if_pos ⟨hmod.1, by omega⟩, hmod.2, List.getD_append_right _ _ _ _ (by omega)]
    · have hlow : o < bytes.length := by
        unfold BSIZE at hdiv hfit
        omega
      rw [if_neg hdiv, List.getD_append _ _ _ _ hlow]
      exact h.byte o hlow
  · rw [← hs']
    exact h.count
  · rw [← hs']
    exact h.inodes

theorem type_ne (ht : (s₀.vol.dino inum).type ≠ 0) :
    din.type ≠ 0 := by
  rw [h.fields.type]
  exact ht

end Appending

section Blocks

variable {s₀ s : Disk} {inum bn : Nat} {din : Dinode} {P : Nat → Prop} {N : Nat}
  {bytes : List Byte} {α : Type} {R : Prop} {Q : α → Prop}
  {g : Nat × Dinode × Disk → Block → Outcome Fault α}

/-- What is to be done once the file has the block for its next byte. -/
def Goes (s₀ : Disk) (inum : Nat) (bytes : List Byte) (R : Prop) (Q : α → Prop)
    (g : Nat × Dinode × Disk → Block → Outcome Fault α) : Prop :=
  ∀ x din s, Appending s₀ s inum din (fun n => startOf n < bytes.length + 1)
      (cost (bytes.length + 1)) bytes →
    ptrOf s.vol.data din (posOf (bytes.length / BSIZE)) = x → x ≠ 0 → x < FSSIZE →
    Outcome.Ends R Q (g (x, din, s) (s.blk x))

theorem Goes.read (hg : Goes s₀ inum bytes R Q g) (ht : (s₀.vol.dino inum).type ≠ 0)
    (hbn : bytes.length / BSIZE = bn) (hmax : bn < MAXFILE)
    (h : Appending s₀ s inum din (fun n => startOf n < bytes.length + 1)
      (cost (bytes.length + 1)) bytes) {x : Nat} (hx : ptrOf s.vol.data din (posOf bn) = x) :
    Outcome.Ends R Q (s.rsect x >>= g (x, din, s)) := by
  subst hbn
  have hstart : startOf (posOf (bytes.length / BSIZE)) < bytes.length + 1 := by
    rw [startOf_posOf]
    exact Nat.lt_succ_of_le (Nat.div_mul_le_self _ _)
  have hx0 := hx.symm.trans_ne ((h.places _ (posOf_lt hmax)).mpr hstart)
  have hlt := (inData_area.mp (h.used (h.type_ne ht) hx hx0).1).2
  rw [rsect_done h.len hlt, done_bind]
  exact hg x din s h hx hx0 hlt

theorem grab_full {n : Nat} (hn : n < NDIRECT + 1) (hlen : s.len = FSSIZE)
    (hend : s.freeblock = FSSIZE) (hz : din.addr n = 0) :
    (s.grab din n).2.rsect ((s.grab din n).1.addr n) = .panic .read := by
  rw [Disk.grab, if_pos hz]
  change Disk.rsect { s with freeblock := s.freeblock + 1 } ((din.setAddr n s.freeblock).addr n) = _
  rw [Dinode.addr_setAddr _ _ hn (by rw [hend]; decide), if_pos rfl, hend]
  exact rsect_end hlen

/-- A place past the direct ones, once there is an indirect block. -/
theorem entry_ends (hg : Goes s₀ inum bytes R Q g) (ht : (s₀.vol.dino inum).type ≠ 0) {j : Nat}
    (hbn : bytes.length / BSIZE = NDIRECT + j) (hj : j < NINDIRECT)
    (h : Appending s₀ s inum din P N bytes) (h12 : P NDIRECT)
    (hP : ∀ m, startOf m < bytes.length + 1 ↔ P m ∨ m = NDIRECT + 1 + j)
    (hN : P (NDIRECT + 1 + j) → cost (bytes.length + 1) = N)
    (hN' : ¬P (NDIRECT + 1 + j) → cost (bytes.length + 1) = N + 1) :
    Outcome.Ends (s.freeblock + cost (bytes.length + 1) ≤ FSSIZE + N ∧ R) Q
      ((s.rsect (din.addr NDIRECT) >>= fun indirect =>
          if addrAt indirect j = 0 then
            pure (addrAt (putAddr indirect j s.freeblock) j, din,
              Disk.wsect { s with freeblock := s.freeblock + 1 } (din.addr NDIRECT)
                (putAddr indirect j s.freeblock))
          else pure (addrAt indirect j, din, s)) >>=
        fun r => r.2.2.rsect r.1 >>= g r) := by
  have htd := h.type_ne ht
  have hmax : NDIRECT + j < MAXFILE := Nat.add_lt_add_left hj _
  have hpos : posOf (NDIRECT + j) = NDIRECT + 1 + j := by
    rw [posOf, if_neg (by omega)]
    omega
  have hnp := posOf_lt hmax
  rw [hpos] at hnp
  have hind := ptrOf_direct s.vol.data din NDIRECT (Nat.lt_succ_self _)
  have h120 : din.addr NDIRECT ≠ 0 := hind.symm.trans_ne ((h.places NDIRECT (by decide)).mpr h12)
  have hin := (h.used htd hind h120).1
  have hptr : ptrOf s.vol.data din (NDIRECT + 1 + j) =
      addrAt (s.blk (din.addr NDIRECT)) j := by
    rw [ptrOf_indirect _ hj h120, Appending.vol_data hin]
  have hhigh := h.high
  rw [rsect_done h.len (inData_area.mp hin).2, done_bind]
  by_cases hhere : P (NDIRECT + 1 + j)
  · have hne := hptr.symm.trans_ne ((h.places _ hnp).mpr hhere)
    have hcost := hN hhere
    rw [if_neg hne, pure_eq, done_bind]
    refine (hg.read ht hbn hmax (h.congr (fun m => (hP m).trans ?_) hcost) (hpos ▸ hptr)).congr
      (and_iff_right (by omega))
    exact or_iff_left_of_imp (fun hm => hm ▸ hhere)
  · have hz := hptr.symm.trans (h.unused hnp hhere)
    have hcost := hN' hhere
    have hback : addrAt (putAddr (s.blk (din.addr NDIRECT)) j s.freeblock) j = s.freeblock := by
      have hlt : s.freeblock < 2 ^ 32 := Nat.lt_of_le_of_lt hhigh (by decide)
      rw [addrAt_putAddr _ _ _ _ hj hlt, if_pos rfl]
    have heq := @wsect_eq { s with freeblock := s.freeblock + 1 } _ h.len (inData_area.mp hin).2
      (putAddr (s.blk (din.addr NDIRECT)) j s.freeblock)
    rw [if_pos hz, pure_eq, done_bind, hback, heq]
    by_cases hroom : s.freeblock < FSSIZE
    · have h' := h.grabIndirect htd hj h120 hhere hroom
      refine (hg.read ht hbn hmax (h'.congr hP hcost) ?_).congr (and_iff_right (by omega))
      rw [hpos, ptrOf_indirect _ hj h120, Appending.vol_data hin]
      simp only [update_self]
      exact hback
    · -- The entry is made, but there is no such block to be read.
      have hend : s.freeblock = FSSIZE := by omega
      have hread := @rsect_end { s with
        blk := update s.blk (din.addr NDIRECT)
          (putAddr (s.blk (din.addr NDIRECT)) j s.freeblock)
        freeblock := s.freeblock + 1 } h.len
      rw [hend] at hread ⊢
      rw [hread, panic_bind]
      rintro ⟨hc, -⟩
      omega

/-- A file gets the block for its next byte, if there is one left. -/
theorem blockOf_ends (hg : Goes s₀ inum bytes R Q g) (ht : (s₀.vol.dino inum).type ≠ 0)
    (hbn : bytes.length / BSIZE = bn) (hmax : bn < MAXFILE)
    (h : Appending s₀ s inum din (fun n => startOf n < bytes.length) (cost bytes.length) bytes) :
    Outcome.Ends (s.freeblock + cost (bytes.length + 1) ≤ FSSIZE + cost bytes.length ∧ R) Q
      (s.blockOf din bn >>= fun r => r.2.2.rsect r.1 >>= g r) := by
  have htd := h.type_ne ht
  have hhigh := h.high
  have hstart := startOf_posOf bn
  have hdivmod := Nat.div_add_mod' bytes.length BSIZE
  rw [hbn] at hdivmod
  unfold Disk.blockOf
  by_cases hdir : bn < NDIRECT
  · have hpos : posOf bn = bn := if_pos hdir
    have hlt : bn < NDIRECT + 1 := Nat.lt_succ_of_lt hdir
    have hnp := posOf_lt hmax
    rw [hpos] at hstart hnp
    rw [if_pos hdir, done_bind]
    by_cases hmod : bytes.length % BSIZE = 0
    · have hnot : ¬startOf bn < bytes.length := by omega
      have hcost := cost_next hmod
      rw [if_neg (by omega)] at hcost
      by_cases hroom : s.freeblock < FSSIZE
      · rcases h.grab htd hlt hnot hroom with ⟨heq, hself, h'⟩
        rw [heq]
        refine (hg.read ht hbn hmax (h'.congr (fun m => ?_) hcost) ?_).congr
          (and_iff_right (by omega))
        · have hnext := startOf_next hmod m
          rw [hbn, hpos] at hnext
          omega
        · rw [hpos]
          exact ptrOf_direct _ _ _ hlt
      · have hz := (ptrOf_direct _ _ _ hlt).symm.trans (h.unused hnp hnot)
        simp only [grab_full hlt h.len (by omega) hz, panic_bind]
        rintro ⟨hc, -⟩
        omega
    · have hin : ptrOf s.vol.data din bn ≠ 0 := (h.places _ hnp).mpr (by omega)
      have hcost := cost_within hmod
      rw [ptrOf_direct _ _ _ hlt] at hin
      rw [Disk.grab, if_neg hin]
      refine (hg.read ht hbn hmax (h.congr (startOf_within hmod) hcost) ?_).congr
        (and_iff_right (by omega))
      rw [hpos]
      exact ptrOf_direct _ _ _ hlt
  · obtain ⟨j, rfl⟩ : ∃ j, bn = NDIRECT + j := ⟨bn - NDIRECT, by omega⟩
    have hj : j < NINDIRECT := Nat.lt_of_add_lt_add_left hmax
    have hpos : posOf (NDIRECT + j) = NDIRECT + 1 + j := by
      rw [posOf, if_neg hdir]
      omega
    have h12 : startOf NDIRECT = NDIRECT * BSIZE := rfl
    have hmul := Nat.add_mul NDIRECT j BSIZE
    rw [hpos] at hstart
    rw [if_neg hdir, Nat.add_sub_cancel_left]
    have hind := ptrOf_direct s.vol.data din NDIRECT (Nat.lt_succ_self _)
    by_cases hfirst : bytes.length = NDIRECT * BSIZE
    · -- The first block past the direct ones: the indirect block comes with it.
      have hdiv : bytes.length / BSIZE = NDIRECT := by rw [hfirst]; rfl
      have hmod : bytes.length % BSIZE = 0 := by rw [hfirst]; rfl
      have hcost := cost_next hmod
      rw [if_pos hdiv] at hcost
      have hnot : ¬startOf NDIRECT < bytes.length := by omega
      by_cases hroom : s.freeblock < FSSIZE
      · rcases h.grab htd (Nat.lt_succ_self _) hnot hroom with ⟨heq, hself, h'⟩
        have hend := entry_ends hg ht hbn hj h' (Or.inr rfl) (fun m => ?_) (fun hc => ?_)
          (fun _ => hcost)
        · rw [heq]
          refine hend.congr (and_congr_left' ?_)
          change _ ↔ s.freeblock + 1 + _ ≤ _
          omega
        · have hnext := startOf_next hmod m
          rw [hbn, hpos] at hnext
          omega
        · omega
      · have hz := hind.symm.trans (h.unused (by decide) hnot)
        simp only [grab_full (Nat.lt_succ_self _) h.len (by omega) hz, panic_bind]
        rintro ⟨hc, -⟩
        omega
    · have hhere : startOf NDIRECT < bytes.length := by omega
      have hne := hind.symm.trans_ne ((h.places _ (by decide)).mpr hhere)
      have hgrab : s.grab din NDIRECT = (din, s) := if_neg hne
      rw [hgrab]
      have hj0 : bytes.length % BSIZE = 0 → j ≠ 0 := by
        rintro hmod rfl
        omega
      refine entry_ends hg ht hbn hj h hhere (fun m => ?_) (fun hc => ?_) (fun hc => ?_)
      · by_cases hmod : bytes.length % BSIZE = 0
        · have hnext := startOf_next hmod m
          have hj' := hj0 hmod
          rw [hbn, hpos] at hnext
          omega
        · rw [startOf_within hmod]
          refine (or_iff_left_of_imp (fun hm => ?_)).symm
          rw [hm]
          omega
      · exact cost_within (by omega)
      · have hmod : bytes.length % BSIZE = 0 := by omega
        have hj' := hj0 hmod
        rw [cost_next hmod, if_neg (by omega)]

end Blocks

theorem appendFrom_succ {s : Disk} {din : Dinode} {off fuel : Nat} {p : List Byte}
    (hp : p ≠ []) (hmax : ¬MAXFILE ≤ off / BSIZE) :
    Disk.appendFrom (fuel + 1) s din off p =
      (s.blockOf din (off / BSIZE) >>= fun r => r.2.2.rsect r.1 >>= fun buf =>
        Disk.appendFrom fuel (r.2.2.wsect r.1 (Bytes.splice buf (off - off / BSIZE * BSIZE)
            (p.take (min p.length ((off / BSIZE + 1) * BSIZE - off)))))
          r.2.1 (off + min p.length ((off / BSIZE + 1) * BSIZE - off))
          (p.drop (min p.length ((off / BSIZE + 1) * BSIZE - off)))) := by
  rw [Disk.appendFrom, if_neg hp, if_neg hmax]

section Loop

variable {s₀ s : Disk} {inum : Nat} {din : Dinode} {bytes : List Byte}

/-- The file has room for some more bytes, and the image for their blocks. -/
def Room (free size more : Nat) : Prop :=
  size + more ≤ MAXFILE * BSIZE ∧ free + cost (size + more) ≤ FSSIZE + cost size

/-- The loop is at the end of the bytes. -/
def Appended (s₀ : Disk) (inum : Nat) (bytes : List Byte) (r : Disk × Dinode × Nat) : Prop :=
  r.2.2 = bytes.length ∧
    Appending s₀ r.1 inum r.2.1 (fun n => startOf n < bytes.length) (cost bytes.length) bytes

theorem Appending.nothing (hle : bytes.length ≤ MAXFILE * BSIZE)
    (h : Appending s₀ s inum din (fun n => startOf n < bytes.length) (cost bytes.length) bytes) :
    Outcome.Ends (ε := Fault) (Room s.freeblock bytes.length 0) (Appended s₀ inum (bytes ++ []))
      (.done (s, din, bytes.length)) := by
  have hhigh := h.high
  rw [List.append_nil]
  exact ⟨⟨hle, Nat.add_le_add_right hhigh _⟩, rfl, h⟩

/-- The loop of `iappend`. It gets to the end if the file does not become too
    long and there are blocks for it. -/
theorem appendFrom_ends (ht : (s₀.vol.dino inum).type ≠ 0) (p : List Byte) (fuel : Nat)
    (hfuel : p.length ≤ fuel) (hle : bytes.length ≤ MAXFILE * BSIZE)
    (h : Appending s₀ s inum din (fun n => startOf n < bytes.length) (cost bytes.length) bytes) :
    Outcome.Ends (Room s.freeblock bytes.length p.length) (Appended s₀ inum (bytes ++ p))
      (Disk.appendFrom fuel s din bytes.length p) := by
  induction fuel generalizing s din bytes p with
  | zero =>
    rw [List.eq_nil_of_length_eq_zero (Nat.le_zero.mp hfuel)]
    exact h.nothing hle
  | succ fuel ih =>
    by_cases hp : p = []
    · rw [hp, Disk.appendFrom, if_pos rfl]
      exact h.nothing hle
    have hpos : 0 < p.length := List.length_pos_iff.mpr hp
    by_cases hmax : MAXFILE ≤ bytes.length / BSIZE
    · rw [Disk.appendFrom, if_neg hp, if_pos hmax]
      rintro ⟨hc, -⟩
      have hmul := Nat.mul_le_mul_right BSIZE hmax
      have hdiv := Nat.div_mul_le_self bytes.length BSIZE
      omega
    · have hlt : bytes.length / BSIZE < MAXFILE := Nat.lt_of_not_le hmax
      rw [appendFrom_succ hp hmax]
      generalize hn : min p.length ((bytes.length / BSIZE + 1) * BSIZE - bytes.length) = n
      have hmod : bytes.length - bytes.length / BSIZE * BSIZE = bytes.length % BSIZE := by
        unfold BSIZE
        omega
      have hn0 : 0 < n ∧ n ≤ p.length ∧ bytes.length % BSIZE + n ≤ BSIZE := by
        unfold BSIZE at hn ⊢
        omega
      have htake : (p.take n).length = n := List.length_take_of_le hn0.2.1
      have hlen : (bytes ++ p.take n).length = bytes.length + n := by
        rw [List.length_append, htake]
      have hsum : bytes.length + n + (p.drop n).length = bytes.length + p.length := by
        rw [List.length_drop]
        omega
      have hle' : bytes.length + n ≤ MAXFILE * BSIZE := by
        have hdiv : (bytes.length / BSIZE + 1) * BSIZE ≤ MAXFILE * BSIZE :=
          Nat.mul_le_mul_right _ hlt
        omega
      have hgo : Goes s₀ inum bytes (Room s.freeblock bytes.length p.length)
          (Appended s₀ inum (bytes ++ p)) (fun r buf => Disk.appendFrom fuel (r.2.2.wsect r.1
            (Bytes.splice buf (bytes.length - bytes.length / BSIZE * BSIZE) (p.take n)))
            r.2.1 (bytes.length + n) (p.drop n)) := by
        intro x din' s' h' hx hx0 hxlt
        have hw := h'.write (h'.type_ne ht) hx hx0 (p.take n) (by rw [htake]; exact hn0.2.2)
        have hcost : cost (bytes.length + n) = cost (bytes.length + 1) :=
          cost_block hn0.1 hn0.2.2
        have hw' := hw.congr (startOf_block hn0.1 hn0.2.2) hcost
        rw [← hlen] at hw'
        have hend := ih (p.drop n) (by rw [List.length_drop]; omega) (by rw [hlen]; exact hle')
          hw'
        rw [List.append_assoc, List.take_append_drop, hlen] at hend
        simp only [wsect_eq h'.len hxlt, hmod]
        refine hend.congr ?_
        -- Both sides count from the start of the loop.
        have h₁ := h.count
        have h₂ := hw'.count
        rw [hlen] at h₂
        unfold Room
        rw [hsum]
        exact and_congr_right' (by omega)
      refine (blockOf_ends hgo ht rfl hlt h).congr ?_
      have hmono : cost (bytes.length + 1) ≤ cost (bytes.length + p.length) :=
        cost_mono (by omega)
      refine ⟨fun hc => ⟨?_, hc⟩, fun hc => hc.2⟩
      have hc2 := hc.2
      omega

end Loop

theorem ptr_ne_of_slot {V V' : Vol} {i n : Nat} (ht : (V.dino i).type ≠ 0)
    (hd : V'.dino i = V.dino i) (h : slot V' (i, n) = slot V (i, n)) :
    ptrOf V'.data (V'.dino i) n ≠ 0 ↔ ptrOf V.data (V.dino i) n ≠ 0 := by
  unfold slot slotOf at h
  simp only [hd] at h ⊢
  by_cases h₁ : ptrOf V'.data (V.dino i) n = 0
  · by_cases h₂ : ptrOf V.data (V.dino i) n = 0
    · rw [h₁, h₂]
    · rw [if_pos (Or.inr h₁), if_neg (fun hc => hc.elim ht h₂)] at h
      exact nomatch h
  · by_cases h₂ : ptrOf V.data (V.dino i) n = 0
    · rw [if_neg (fun hc => hc.elim ht h₁), if_pos (Or.inr h₂)] at h
      exact nomatch h
    · exact ⟨fun _ => h₂, fun _ => h₁⟩

theorem iappend_ends {s : Disk} {inum : Nat} {f : Node} (h : s.Ok)
    (hf : node s.vol inum = some f) (p : List Byte) :
    Outcome.Ends (Room s.freeblock f.data.length p.length)
      (fun s' => s'.Ok ∧ node s'.vol inum = some { f with data := f.data ++ p } ∧
        (∀ j, j ≠ inum → node s'.vol j = node s.vol j) ∧
        s'.freeblock + cost f.data.length = s.freeblock + cost (f.data.length + p.length) ∧
        s'.freeinode = s.freeinode)
      (s.iappend inum p) := by
  rcases node_isSome hf with ⟨ht, hty, hmaj, hmin, hnl, hdata⟩
  have hsize : f.data.length = (s.vol.dino inum).size.toNat := by
    rw [hdata, length_contents]
  have hinum := h.map.range inum ht
  have hmax := h.map.maxSize inum ht
  rw [← hsize] at hmax
  -- The loop starts with what the file holds.
  have hstart : Appending s s inum (s.vol.dino inum) (fun n => startOf n < f.data.length)
      (cost f.data.length) f.data := by
    have hpend : s.pend inum (s.vol.dino inum) = s.vol := by
      rw [Disk.pend, update_eq_self]
    refine ⟨h.toReady, by rw [hpend]; exact h.map, rfl, Dinode.SameFields.refl _,
      fun j _ => by rw [hpend]; exact ⟨fun _ => rfl, rfl⟩, by rw [hsize]; exact h.full inum ht,
      fun o ho => ?_, by rw [hsize], rfl⟩
    rw [List.getD_eq_getElem _ _ ho]
    simp only [hdata, contents, List.getElem_map, List.getElem_range]
  unfold Disk.iappend
  rw [rinode_done h.len hinum, Outcome.done_bind, ← hsize]
  refine (appendFrom_ends ht p p.length (Nat.le_refl _) hmax hstart).andThen ?_
  rintro hroom ⟨s₁, din, off⟩ ⟨rfl, hA⟩
  have hA : Appending s s₁ inum din (fun n => startOf n < (f.data ++ p).length)
    (cost (f.data ++ p).length) (f.data ++ p) := hA
  have hlen : (f.data ++ p).length = f.data.length + p.length := List.length_append
  generalize hd : ({ din with size := BitVec.ofNat 32 (f.data ++ p).length } : Dinode) = d
  have hdsize : d.size.toNat = (f.data ++ p).length := by
    have hbig : (f.data ++ p).length < 2 ^ 32 := by
      rw [hlen]
      exact Nat.lt_of_le_of_lt hroom.1 (by decide)
    rw [← hd]
    exact (BitVec.toNat_ofNat _ _).trans (Nat.mod_eq_of_lt hbig)
  have hptr : ∀ n, ptrOf s₁.vol.data d n = ptrOf s₁.vol.data din n := by
    intro n
    rw [← hd]
    rfl
  have htype : d.type = din.type := by rw [← hd]
  have htd := hA.type_ne ht
  have hself := Appending.self s₁ inum din
  rcases winode_done hA.toReady hinum d with ⟨s', heq, hready, hvol, hfree, hino⟩
  have hvol' : s'.vol = { s₁.pend inum din with
      dino := update (s₁.pend inum din).dino inum d } := by
    rw [hvol, Disk.pend, Disk.pend, update_idem]
  have hslots : ∀ m, slotOf (s₁.pend inum din).data d m =
      slotOf (s₁.pend inum din).data ((s₁.pend inum din).dino inum) m := by
    intro m
    rw [hself, slotOf, slotOf, htype]
    exact congrArg (fun x => if din.type = 0 ∨ x = 0 then none else some x) (hptr m)
  have hholes : d.type ≠ 0 → ∀ bn, bn * BSIZE < d.size.toNat →
      ptrOf (s₁.pend inum din).data d (posOf bn) ≠ 0 := by
    intro _ bn hbn
    rw [hdsize] at hbn
    have hlt : bn < MAXFILE := by
      have hroom' := hroom.1
      rw [← hlen] at hroom'
      exact Nat.lt_of_mul_lt_mul_right (Nat.lt_of_lt_of_le hbn hroom')
    refine (hptr _).trans_ne ((hA.places _ (posOf_lt hlt)).mpr ?_)
    rw [startOf_posOf]
    exact hbn
  rcases mapOk_setDino hA.map inum d hinum hslots hholes (fun _ => by
    rw [hdsize, hlen]
    exact hroom.1) with ⟨hM, hnodes⟩
  have hdi : s'.vol.dino inum = d := by
    rw [hvol]
    exact Appending.self s₁ inum d
  refine ⟨s', by rw [← heq, ← hd], ⟨hready, by rw [hvol']; exact hM, fun i hi => ?_⟩, ?_,
    fun j hj => ?_, ?_, ?_⟩
  · by_cases hii : i = inum
    · rw [hii, hdi, hvol, hdsize]
      exact fun n hn => (Iff.of_eq (congrArg (· ≠ 0) (hptr n))).trans (hA.places n hn)
    · have hpi : (s₁.pend inum din).dino i = s.vol.dino i :=
        (update_of_ne hii _ _).trans (congrFun hA.dino i)
      have hdi' : s'.vol.dino i = s.vol.dino i := by
        rw [hvol]
        exact (update_of_ne hii _ _).trans (congrFun hA.dino i)
      rw [hdi'] at hi ⊢
      intro n hn
      have hslot := ptr_ne_of_slot hi hpi ((hA.others i hii).1 n)
      rw [hpi] at hslot
      rw [hvol]
      exact hslot.trans (h.full i hi n hn)
  · -- The bytes the loop has left behind are those of the file now.
    have hbytes : contents s'.vol.data d = f.data ++ p := by
      refine List.ext_getElem (by rw [length_contents, hdsize]) (fun o ho ho' => ?_)
      have hb := hA.byte o ho'
      rw [List.getD_eq_getElem _ _ ho'] at hb
      simp only [contents, List.getElem_map, List.getElem_range, hvol]
      rw [← hb, ← hd]
      rfl
    have hfields := hA.fields
    rw [node, nodeOf, hdi, hbytes, htype, if_neg htd, ← hd, hfields.type, hfields.major,
      hfields.minor, hfields.nlink, ← hty, ← hmaj, ← hmin, ← hnl]
  · rw [hvol', hnodes j hj]
    exact (hA.others j hj).2
  · have hc := hA.count
    rw [← hsize, hlen] at hc
    rw [hfree]
    omega
  · rw [hino]
    exact hA.inodes

end Xv6.Mkfs
