import Mathlib.Tactic.FinCases
import Xv6.Param
import Xv6.Log.Bio

/-!
# On-Disk Structures

How inodes, directory entries, block addresses and free bits are stored in
blocks, as `kernel/fs.h` lays them out.

Fixed-width fields are bit vectors of their width. With that every structure
that can be built reads back from the bytes it is written to, and the laws
below carry no bounds on field values.

Names are lists of bytes. A name as the kernel holds it ends at the first
zero byte or after `DIRSIZ` bytes, and `strncmp` and `strncpy` are the
functions of `kernel/string.c` on such lists.

## Main definitions

* `Dinode`: The on-disk inode.
* `dinodeAt`, `putDinode`: Inode `k` of an inode block.
* `Dirent`: A directory entry, with `decode` and `encode`.
* `bitAt`, `setBit`, `clearBit`: Bit `bi` of a bitmap block.
* `addrAt`, `putAddr`: Entry `j` of an indirect block.
* `readsb`, `putSb`: The superblock.
* `strncmp`, `namecmp`, `strncpy`: Names.
-/

namespace Xv6

open Bytes BitVec List

-- File types of `kernel/stat.h`.
def T_DIR : BitVec 16 := 1
def T_FILE : BitVec 16 := 2
def T_DEVICE : BitVec 16 := 3

structure Dinode where
  type : BitVec 16
  major : BitVec 16
  minor : BitVec 16
  nlink : BitVec 16
  size : BitVec 32
  addrs : Fin (NDIRECT + 1) → BitVec 32

namespace Dinode

/-- `memset(dip, 0, sizeof(*dip))`. -/
def zero : Dinode :=
  { type := 0, major := 0, minor := 0, nlink := 0, size := 0, addrs := fun _ => 0 }

/-- `addrs[n]`. -/
def addr (d : Dinode) (n : Nat) : Nat :=
  if h : n < NDIRECT + 1 then (d.addrs ⟨n, h⟩).toNat else 0

/-- The assignment `addrs[n] = a`. -/
def setAddr (d : Dinode) (n a : Nat) : Dinode :=
  { d with addrs := fun i => if i.val = n then BitVec.ofNat 32 a else d.addrs i }

/-- Two inodes that differ in addresses only. -/
structure SameFields (d d' : Dinode) : Prop where
  type : d'.type = d.type
  major : d'.major = d.major
  minor : d'.minor = d.minor
  nlink : d'.nlink = d.nlink
  size : d'.size = d.size

theorem SameFields.refl (d : Dinode) : SameFields d d := ⟨rfl, rfl, rfl, rfl, rfl⟩

theorem SameFields.trans {d d' d'' : Dinode} (h : SameFields d d') (h' : SameFields d' d'') :
    SameFields d d'' :=
  ⟨h'.type.trans h.type, h'.major.trans h.major, h'.minor.trans h.minor, h'.nlink.trans h.nlink,
    h'.size.trans h.size⟩

theorem SameFields.setAddr (d : Dinode) (n a : Nat) : SameFields d (d.setAddr n a) :=
  ⟨rfl, rfl, rfl, rfl, rfl⟩

theorem addr_setAddr (d : Dinode) {n a : Nat} (m : Nat) (hn : n < NDIRECT + 1) (ha : a < 2 ^ 32) :
    (d.setAddr n a).addr m = if m = n then a else d.addr m := by
  unfold addr setAddr
  by_cases hm : m = n
  · rw [if_pos hm, dif_pos (by omega)]
    simp only [if_pos hm, toNat_ofNat, Nat.mod_eq_of_lt ha]
  · simp only [if_neg hm]

theorem addr_zero (n : Nat) : zero.addr n = 0 := by
  unfold addr zero
  split <;> rfl

end Dinode

/-- Inode `k` of an inode block. -/
def dinodeAt (b : Block) (k : Nat) : Dinode :=
  { type := BitVec.ofNat 16 (Bytes.readLe b (64 * k) 2)
    major := BitVec.ofNat 16 (Bytes.readLe b (64 * k + 2) 2)
    minor := BitVec.ofNat 16 (Bytes.readLe b (64 * k + 4) 2)
    nlink := BitVec.ofNat 16 (Bytes.readLe b (64 * k + 6) 2)
    size := BitVec.ofNat 32 (Bytes.readLe b (64 * k + 8) 4)
    addrs := fun i => BitVec.ofNat 32 (Bytes.readLe b (64 * k + 12 + 4 * i.val) 4) }

/-- Store inode `k` of an inode block. -/
def putDinode (b : Block) (k : Nat) (d : Dinode) : Block :=
  let b := Bytes.writeLe b (64 * k) 2 d.type.toNat
  let b := Bytes.writeLe b (64 * k + 2) 2 d.major.toNat
  let b := Bytes.writeLe b (64 * k + 4) 2 d.minor.toNat
  let b := Bytes.writeLe b (64 * k + 6) 2 d.nlink.toNat
  let b := Bytes.writeLe b (64 * k + 8) 4 d.size.toNat
  Bytes.writeLes b (64 * k + 12) 4 (List.ofFn (fun i => (d.addrs i).toNat))

theorem readLe_putDinode_outside (b : Block) {k : Nat} (d : Dinode) {o w : Nat}
    (h : o + w ≤ 64 * k ∨ 64 * k + 64 ≤ o) :
    readLe (putDinode b k d) o w = readLe b o w := by
  have hlen : (ofFn (fun i => (d.addrs i).toNat)).length = 13 := length_ofFn
  unfold putDinode
  rw [readLe_writeLes_of_disjoint _ (by rw [hlen]; omega)]
  iterate 5 rw [readLe_writeLe_of_disjoint _ _ (by omega)]

theorem dinodeAt_putDinode_self (b : Block) {k : Nat} (d : Dinode) (hk : k < IPB) :
    dinodeAt (putDinode b k d) k = d := by
  have hk' : k < 16 := hk
  have hlen : (ofFn (fun i => (d.addrs i).toNat)).length = 13 := length_ofFn
  have h16 : ∀ x : BitVec 16, BitVec.ofNat 16 (x.toNat % 256 ^ 2) = x := by
    intro x
    rw [Nat.mod_eq_of_lt (show x.toNat < 256 ^ 2 from x.isLt), ofNat_toNat,
      setWidth_eq]
  have h32 : ∀ x : BitVec 32, BitVec.ofNat 32 (x.toNat % 256 ^ 4) = x := by
    intro x
    rw [Nat.mod_eq_of_lt (show x.toNat < 256 ^ 4 from x.isLt), ofNat_toNat,
      setWidth_eq]
  have hfit : 64 * k + 64 ≤ BSIZE := by
    change 64 * k + 64 ≤ 1024
    omega
  cases d with
  | mk type major minor nlink size addrs =>
    simp only [dinodeAt, Dinode.mk.injEq]
    -- Each field is the last one written at its offset.
    refine ⟨?_, ?_, ?_, ?_, ?_, ?_⟩
    iterate 5
      · unfold putDinode
        rw [readLe_writeLes_of_disjoint _ (by omega)]
        repeat rw [readLe_writeLe_of_disjoint _ _ (by omega)]
        rw [readLe_writeLe _ _ (by omega)]
        first | exact h16 _ | exact h32 _
    · funext i
      have hi : i.val < 13 := i.isLt
      unfold putDinode
      rw [readLe_writeLes _ _ _ _ i.val (by rw [hlen]; exact hi)
        (by rw [hlen]; omega), List.getElem_ofFn, h32]

theorem dinodeAt_putDinode_of_ne (b : Block) {k : Nat} (d : Dinode) {j : Nat} (h : j ≠ k) :
    dinodeAt (putDinode b k d) j = dinodeAt b j := by
  unfold dinodeAt
  rw [readLe_putDinode_outside b d (by omega), readLe_putDinode_outside b d (by omega),
    readLe_putDinode_outside b d (by omega), readLe_putDinode_outside b d (by omega),
    readLe_putDinode_outside b d (by omega)]
  congr 1
  funext i
  have hi : i.val < 13 := i.isLt
  rw [readLe_putDinode_outside b d (by omega)]

/-- Bit `bi` of a bitmap block: `data[bi/8] & (1 << bi%8)`. -/
def bitAt (b : Block) (bi : Nat) : Bool :=
  Bytes.get b (bi / 8) &&& ((1 : Byte) <<< (bi % 8)) ≠ 0

/-- `data[bi/8] |= 1 << bi%8`. -/
def setBit (b : Block) (bi : Nat) : Block :=
  Bytes.splice b (bi / 8) [Bytes.get b (bi / 8) ||| ((1 : Byte) <<< (bi % 8))]

/-- `data[bi/8] &= ~(1 << bi%8)`. -/
def clearBit (b : Block) (bi : Nat) : Block :=
  Bytes.splice b (bi / 8) [Bytes.get b (bi / 8) &&& ~~~((1 : Byte) <<< (bi % 8))]

theorem bitAt_eq_getLsbD (b : Block) (bi : Nat) :
    bitAt b bi = (get b (bi / 8)).getLsbD (bi % 8) := by
  have hlt : bi % 8 < 8 := Nat.mod_lt _ (by omega)
  have htwo : (1 : Byte) <<< (bi % 8) = twoPow 8 (bi % 8) := rfl
  unfold bitAt
  rw [htwo, and_twoPow]
  cases hx : (get b (bi / 8)).getLsbD (bi % 8) with
  | false =>
    rw [if_neg Bool.false_ne_true]
    rfl
  | true =>
    have hne : twoPow 8 (bi % 8) ≠ 0#8 := by
      intro h
      have := congrArg (fun v => getLsbD v (bi % 8)) h
      simp only [getLsbD_twoPow, hlt, decide_true, Bool.and_self,
        getLsbD_zero, Bool.true_eq_false] at this
    simp only [if_true, ne_eq, decide_eq_true_eq]
    exact hne

theorem get_splice_byte (b : Block) {o : Nat} (x : Byte) (i : Nat) (ho : o < BSIZE) :
    get (splice b o [x]) i = if i = o then x else get b i := by
  by_cases hi : i = o
  · rw [if_pos hi, hi]
    have h := get_splice_inside b o [x] 0 (Nat.zero_lt_succ 0)
      (by simp only [length_singleton]; omega)
    rw [Nat.add_zero] at h
    rw [h]
    rfl
  · rw [if_neg hi, get_splice_outside]
    simp only [length_singleton]
    omega

theorem bitAt_setBit (b : Block) (bi bj : Nat) (hi : bi < BPB) :
    bitAt (setBit b bi) bj = if bj = bi then true else bitAt b bj := by
  have hi' : bi < 8192 := hi
  rw [bitAt_eq_getLsbD, bitAt_eq_getLsbD, setBit,
    get_splice_byte _ _ _ (show bi / 8 < 1024 by omega)]
  by_cases hbyte : bj / 8 = bi / 8
  · have htwo : (1 : Byte) <<< (bi % 8) = twoPow 8 (bi % 8) := rfl
    rw [if_pos hbyte, getLsbD_or, htwo, getLsbD_twoPow, hbyte]
    by_cases hb : bj = bi
    · rw [hb, if_pos rfl]
      simp only [show bi % 8 < 8 by omega, decide_true, Bool.and_self, Bool.or_true]
    · rw [if_neg hb]
      simp only [show ¬bi % 8 = bj % 8 by omega, decide_false, Bool.and_false, Bool.or_false]
  · rw [if_neg hbyte, if_neg (fun hb => hbyte (by rw [hb]))]

theorem bitAt_clearBit (b : Block) (bi bj : Nat) (hi : bi < BPB) :
    bitAt (clearBit b bi) bj = if bj = bi then false else bitAt b bj := by
  have hi' : bi < 8192 := hi
  rw [bitAt_eq_getLsbD, bitAt_eq_getLsbD, clearBit,
    get_splice_byte _ _ _ (show bi / 8 < 1024 by omega)]
  by_cases hbyte : bj / 8 = bi / 8
  · have htwo : (1 : Byte) <<< (bi % 8) = twoPow 8 (bi % 8) := rfl
    rw [if_pos hbyte, getLsbD_and, getLsbD_not, htwo, getLsbD_twoPow, hbyte]
    by_cases hb : bj = bi
    · rw [hb, if_pos rfl]
      simp only [show bi % 8 < 8 by omega, decide_true, Bool.and_self, Bool.not_true,
        Bool.and_false]
    · rw [if_neg hb]
      simp only [show ¬bi % 8 = bj % 8 by omega, show bj % 8 < 8 by omega, decide_false,
        decide_true, Bool.and_false, Bool.not_false, Bool.and_true]
  · rw [if_neg hbyte, if_neg (fun hb => hbyte (by rw [hb]))]

/-- Entry `j` of an indirect block: `((uint*)bp->data)[j]`. -/
def addrAt (b : Block) (j : Nat) : Nat := Bytes.readLe b (4 * j) 4

/-- The assignment `((uint*)bp->data)[j] = a`. -/
def putAddr (b : Block) (j a : Nat) : Block := Bytes.writeLe b (4 * j) 4 a

theorem addrAt_putAddr (b : Block) (j a i : Nat) (hj : j < NINDIRECT) (ha : a < 2 ^ 32) :
    addrAt (putAddr b j a) i = if i = j then a else addrAt b i := by
  have hj' : j < 256 := hj
  unfold addrAt putAddr
  by_cases hi : i = j
  · have hfit : 4 * j + 4 ≤ BSIZE := show 4 * j + 4 ≤ 1024 by omega
    rw [if_pos hi, hi, readLe_writeLe _ _ hfit]
    exact Nat.mod_eq_of_lt ha
  · rw [if_neg hi, readLe_writeLe_of_disjoint _ _ (by omega)]

theorem leVal_replicate_zero (k : Nat) : leVal (replicate k 0) = 0 := by
  induction k with
  | zero => rfl
  | succ k ih =>
    rw [List.replicate_succ, leVal, ih]
    rfl

theorem addrAt_zero (j : Nat) : addrAt (fun _ => 0) j = 0 := by
  have h : slice (fun _ => 0 : Block) (4 * j) 4 = List.replicate 4 0 := by
    refine ext_getElem ?_ (fun i hi hi' => ?_)
    · rw [length_slice, length_replicate]
    · rw [Bytes.length_slice] at hi
      simp only [Bytes.slice, List.getElem_map, List.getElem_replicate, Bytes.get,
        dite_eq_ite, ite_self]
  rw [addrAt, readLe, h, leVal_replicate_zero]

/-- `readsb`, on the block it reads. -/
def readsb (b : Block) : Superblock :=
  { magic := Bytes.readLe b 0 4
    size := Bytes.readLe b 4 4
    nblocks := Bytes.readLe b 8 4
    ninodes := Bytes.readLe b 12 4
    nlog := Bytes.readLe b 16 4
    logstart := Bytes.readLe b 20 4
    inodestart := Bytes.readLe b 24 4
    bmapstart := Bytes.readLe b 28 4 }

/-- `memmove(buf, &sb, sizeof(sb))`. -/
def putSb (b : Block) (sb : Superblock) : Block :=
  Bytes.writeLes b 0 4 [sb.magic, sb.size, sb.nblocks, sb.ninodes, sb.nlog, sb.logstart,
    sb.inodestart, sb.bmapstart]

theorem readLe_putSb (b : Block) {sb : Superblock} {i x : Nat}
    (hx : [sb.magic, sb.size, sb.nblocks, sb.ninodes, sb.nlog, sb.logstart, sb.inodestart,
      sb.bmapstart][i]? = some x) (hlt : x < 256 ^ 4) :
    readLe (putSb b sb) (4 * i) 4 = x := by
  rcases List.getElem?_eq_some_iff.mp hx with ⟨hi, hget⟩
  have h := readLe_writeLes b 0 4 _ i hi (by
    simp only [length_cons, length_nil]
    decide)
  rw [Nat.zero_add, hget, Nat.mod_eq_of_lt hlt] at h
  exact h

theorem readsb_putSb (b : Block) {sb : Superblock}
    (h : ∀ x ∈ [sb.magic, sb.size, sb.nblocks, sb.ninodes, sb.nlog, sb.logstart, sb.inodestart,
      sb.bmapstart], x < 256 ^ 4) :
    readsb (putSb b sb) = sb := by
  have hword : ∀ i x, [sb.magic, sb.size, sb.nblocks, sb.ninodes, sb.nlog, sb.logstart,
      sb.inodestart, sb.bmapstart][i]? = some x → readLe (putSb b sb) (4 * i) 4 = x :=
    fun i x hx => readLe_putSb b hx (h x (mem_of_getElem? hx))
  unfold readsb
  cases sb with
  | mk magic size nblocks ninodes nlog logstart inodestart bmapstart =>
    rw [Superblock.mk.injEq]
    exact ⟨hword 0 _ rfl, hword 1 _ rfl, hword 2 _ rfl, hword 3 _ rfl, hword 4 _ rfl,
      hword 5 _ rfl, hword 6 _ rfl, hword 7 _ rfl⟩

/-- `struct dirent`. The name takes up `DIRSIZ` bytes. -/
structure Dirent where
  inum : BitVec 16
  name : List Byte
  deriving DecidableEq, Repr

namespace Dirent

def decode (bs : List Byte) : Dirent :=
  { inum := BitVec.ofNat 16 (Bytes.leVal (bs.take 2)), name := (bs.drop 2).take DIRSIZ }

def encode (de : Dirent) : List Byte := Bytes.leBytes 2 de.inum.toNat ++ de.name

theorem decode_encode {de : Dirent} (h : de.name.length = DIRSIZ) : decode (encode de) = de := by
  have hlen : (leBytes 2 de.inum.toNat).length = 2 := length_leBytes _ _
  unfold decode encode
  rw [take_left' hlen, drop_left' hlen, ← h, take_length, leVal_leBytes,
    Nat.mod_eq_of_lt (show de.inum.toNat < 256 ^ 2 from de.inum.isLt), ofNat_toNat,
    setWidth_eq]

theorem length_encode {de : Dirent} (h : de.name.length = DIRSIZ) :
    (encode de).length = 16 := by
  rw [encode, length_append, length_leBytes, h]
  rfl

/-- `memset(&de, 0, sizeof(de))`. -/
def zero : Dirent := { inum := 0, name := List.replicate DIRSIZ 0 }

end Dirent

/-- `strncmp`, on strings that end with a zero byte or with the list. -/
def strncmp : Nat → List Byte → List Byte → Int
  | 0, _, _ => 0
  | n + 1, p, q =>
    if p.headD 0 ≠ 0 ∧ p.headD 0 = q.headD 0 then strncmp n p.tail q.tail
    else (p.headD 0).toNat - (q.headD 0).toNat

def namecmp (s t : List Byte) : Int := strncmp DIRSIZ s t

/-- The string in a buffer: the bytes before the first zero byte. -/
def cstr : List Byte → List Byte
  | [] => []
  | c :: cs => if c = 0 then [] else c :: cstr cs

/-- `strncpy` into a buffer of `n` bytes: copied up to the terminator, padded
    with zero bytes. -/
def strncpy : Nat → List Byte → List Byte
  | 0, _ => []
  | n + 1, t =>
    if t.headD 0 = 0 then List.replicate (n + 1) 0 else t.headD 0 :: strncpy n t.tail

theorem length_strncpy (n : Nat) (t : List Byte) : (strncpy n t).length = n := by
  induction n generalizing t with
  | zero => rfl
  | succ n ih =>
    unfold strncpy
    split
    · rw [length_replicate]
    · rw [length_cons, ih]

theorem cstr_take_succ (n : Nat) (p : List Byte) :
    cstr (p.take (n + 1)) = if p.headD 0 = 0 then [] else p.headD 0 :: cstr (p.tail.take n) := by
  cases p with
  | nil | cons c p => rfl

/-- Strings compare equal if they agree up to the terminator or the limit. -/
theorem strncmp_eq_zero_iff (n : Nat) (p q : List Byte) :
    strncmp n p q = 0 ↔ cstr (p.take n) = cstr (q.take n) := by
  induction n generalizing p q with
  | zero => simp only [strncmp, take_zero]
  | succ n ih =>
    rw [cstr_take_succ, cstr_take_succ, strncmp]
    by_cases hab : p.headD 0 = q.headD 0
    · by_cases hb : q.headD 0 = 0
      · simp only [hab, hb, ne_eq, not_true_eq_false, false_and, if_false, if_true, sub_self]
      · rw [if_pos ⟨by rw [hab]; exact hb, hab⟩, hab, if_neg hb, if_neg hb, ih]
        simp only [cons.injEq, true_and]
    · have hne : ((p.headD 0).toNat : Int) - (q.headD 0).toNat ≠ 0 := by
        intro h
        exact hab (eq_of_toNat_eq (by omega))
      rw [if_neg (fun h => hab h.2)]
      refine ⟨fun h => absurd h hne, fun h => absurd ?_ hab⟩
      -- The strings differ in their first byte, or one of them ends here.
      by_cases hp : p.headD 0 = 0
      · by_cases hq : q.headD 0 = 0
        · rw [hp, hq]
        · simp only [hp, hq, if_true, if_false, reduceCtorEq] at h
      · by_cases hq : q.headD 0 = 0
        · simp only [hp, hq, if_true, if_false, reduceCtorEq] at h
        · simp only [hp, hq, if_false, cons.injEq] at h
          exact h.1

theorem namecmp_eq_zero_iff (s t : List Byte) :
    namecmp s t = 0 ↔ cstr (s.take DIRSIZ) = cstr (t.take DIRSIZ) :=
  strncmp_eq_zero_iff DIRSIZ s t

end Xv6
