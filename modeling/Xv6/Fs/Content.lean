import Xv6.Fs.Volume

/-!
# Files and the Blocks They Own

How inodes map files to blocks, and what a volume has to satisfy for the file
system to work on it.

An inode has 269 places for block numbers: twelve direct ones, the address of
the indirect block, and the 256 entries of that block. `ptrOf` numbers them in
this order, so that the indirect block is a place like any other, and `posOf`
gives the place of a data block. The blocks in use and the places that hold a
block number are then an instance of `Owns`.

`Node` is a file as the system calls present it: its metadata and its bytes,
whatever blocks they are in. A change on behalf of one inode touches only
blocks that inode owns or that nobody owns, and leaves the other nodes alone.

## Main definitions

* `ptrOf`, `posOf`: The places of an inode.
* `slot`: What every place of the volume holds.
* `Node`, `node`: A file, and the file of an inode.
* `AllocOk`: Block ownership.
* `MapOk`: Ownership, no holes, sizes in bounds.
* `FsOk`: The same, and directories in order.
-/

namespace Xv6

/-- The number of places for block numbers in an inode. -/
def NPTR : Nat := NDIRECT + 1 + NINDIRECT

/-- The block number in place `n` of an inode; 0 if there is none. -/
def ptrOf (data : Nat → Block) (d : Dinode) (n : Nat) : Nat :=
  if n < NDIRECT + 1 then d.addr n
  else if n < NPTR ∧ d.addr NDIRECT ≠ 0 then addrAt (data (d.addr NDIRECT)) (n - (NDIRECT + 1))
  else 0

/-- The place of data block `bn`. -/
def posOf (bn : Nat) : Nat := if bn < NDIRECT then bn else bn + 1

/-- Byte `o` of a file. -/
def byteAt (data : Nat → Block) (d : Dinode) (o : Nat) : Byte :=
  if ptrOf data d (posOf (o / BSIZE)) = 0 then 0
  else Bytes.get (data (ptrOf data d (posOf (o / BSIZE)))) (o % BSIZE)

/-- The bytes of a file. -/
def contents (data : Nat → Block) (d : Dinode) : List Byte :=
  (List.range d.size.toNat).map (byteAt data d)

/-- A file, whatever blocks it is stored in. -/
structure Node where
  type : BitVec 16
  major : BitVec 16
  minor : BitVec 16
  nlink : BitVec 16
  data : List Byte
  deriving DecidableEq

/-- Entry `k` of a directory. -/
def Node.entry (f : Node) (k : Nat) : Dirent := Dirent.decode ((f.data.drop (16 * k)).take 16)

/-- The number of entries of a directory, free ones included. -/
def Node.entries (f : Node) : Nat := f.data.length / 16

def nodeOf (data : Nat → Block) (d : Dinode) : Option Node :=
  if d.type = 0 then none
  else some { type := d.type, major := d.major, minor := d.minor, nlink := d.nlink,
              data := contents data d }

/-- The file of inode `i`, if it is allocated. -/
def node (V : Vol) (i : Nat) : Option Node := nodeOf V.data (V.dino i)

/-- The block in a place of a dinode. -/
def slotOf (data : Nat → Block) (d : Dinode) (n : Nat) : Option Nat :=
  if d.type = 0 ∨ ptrOf data d n = 0 then none else some (ptrOf data d n)

/-- The block in a place of the volume. -/
def slot (V : Vol) (x : Nat × Nat) : Option Nat := slotOf V.data (V.dino x.1) x.2

/-- A directory whose entries are complete and name inodes that exist. -/
def DirOk (sb : Superblock) (f : Node) : Prop :=
  16 ∣ f.data.length ∧ ∀ k, k < f.entries → (f.entry k).inum.toNat < sb.ninodes

/-- Block ownership: every block number an allocated inode stores is that of a
    data block marked used, no number is stored twice, and every data block
    marked used is stored somewhere. Blocks outside the data area are marked
    used as well. -/
structure AllocOk (sb : Superblock) (V : Vol) : Prop where
  own : Owns (fun b => InData sb b ∧ V.bit b = true) (slot V)
  reserved : ∀ b, b < sb.datastart → V.bit b = true
  range : ∀ i, (V.dino i).type ≠ 0 → i < sb.ninodes

/-- Block ownership, and every file has all the blocks its size calls for. -/
structure MapOk (sb : Superblock) (V : Vol) : Prop extends AllocOk sb V where
  holes : ∀ i, (V.dino i).type ≠ 0 → ∀ bn, bn * BSIZE < (V.dino i).size.toNat →
    ptrOf V.data (V.dino i) (posOf bn) ≠ 0
  maxSize : ∀ i, (V.dino i).type ≠ 0 → (V.dino i).size.toNat ≤ MAXFILE * BSIZE

/-- A volume the file system can work on: directories are in order, too. -/
structure FsOk (sb : Superblock) (V : Vol) : Prop extends MapOk sb V where
  dirs : ∀ i f, node V i = some f → f.type = T_DIR → DirOk sb f

theorem posOf_ne_indirect (bn : Nat) : posOf bn ≠ NDIRECT := by
  unfold posOf
  split <;> omega

theorem posOf_lt {bn : Nat} (h : bn < MAXFILE) : posOf bn < NPTR := by
  have h' : bn < 268 := h
  change (if bn < 12 then bn else bn + 1) < 269
  split <;> omega

theorem posOf_inj {a b : Nat} (h : posOf a = posOf b) : a = b := by
  unfold posOf at h
  split at h <;> split at h <;> omega

theorem ptrOf_direct (data : Nat → Block) (d : Dinode) (n : Nat) (h : n < NDIRECT + 1) :
    ptrOf data d n = d.addr n := if_pos h

theorem ptrOf_indirect (data : Nat → Block) {d : Dinode} {j : Nat} (hj : j < NINDIRECT)
    (h : d.addr NDIRECT ≠ 0) :
    ptrOf data d (NDIRECT + 1 + j) = addrAt (data (d.addr NDIRECT)) j := by
  have hn : ¬NDIRECT + 1 + j < NDIRECT + 1 := by omega
  have hlt : NDIRECT + 1 + j < NPTR := by
    unfold NPTR
    omega
  rw [ptrOf, if_neg hn, if_pos ⟨hlt, h⟩, Nat.add_sub_cancel_left]

/-- Places depend on the addresses in the inode and on the indirect block. -/
theorem ptrOf_congr (data data' : Nat → Block) (d d' : Dinode)
    (haddr : ∀ n, n < NDIRECT + 1 → d'.addr n = d.addr n)
    (hdata : d.addr NDIRECT ≠ 0 → data' (d.addr NDIRECT) = data (d.addr NDIRECT)) (n : Nat) :
    ptrOf data' d' n = ptrOf data d n := by
  have h12 : d'.addr NDIRECT = d.addr NDIRECT := haddr NDIRECT (Nat.lt_succ_self _)
  unfold ptrOf
  by_cases hn : n < NDIRECT + 1
  · rw [if_pos hn, if_pos hn, haddr n hn]
  · rw [if_neg hn, if_neg hn, h12]
    by_cases hc : n < NPTR ∧ d.addr NDIRECT ≠ 0
    · rw [if_pos hc, if_pos hc, hdata hc.2]
    · rw [if_neg hc, if_neg hc]

/-- The bytes of a file depend on its places and on the blocks in them. -/
theorem contents_congr {data data' : Nat → Block} {d d' : Dinode} (hsize : d'.size = d.size)
    (hptr : ∀ bn, bn * BSIZE < d.size.toNat →
      ptrOf data' d' (posOf bn) = ptrOf data d (posOf bn))
    (hdata : ∀ bn, bn * BSIZE < d.size.toNat → ptrOf data d (posOf bn) ≠ 0 →
      data' (ptrOf data d (posOf bn)) = data (ptrOf data d (posOf bn))) :
    contents data' d' = contents data d := by
  unfold contents
  rw [hsize]
  refine List.map_congr_left (fun o ho => ?_)
  have ho' : o / BSIZE * BSIZE < d.size.toNat :=
    Nat.lt_of_le_of_lt (Nat.div_mul_le_self o BSIZE) (List.mem_range.mp ho)
  unfold byteAt
  rw [hptr _ ho']
  by_cases hz : ptrOf data d (posOf (o / BSIZE)) = 0
  · rw [if_pos hz, if_pos hz]
  · rw [if_neg hz, if_neg hz, hdata _ ho' hz]

theorem length_contents (data : Nat → Block) (d : Dinode) :
    (contents data d).length = d.size.toNat := by
  rw [contents, List.length_map, List.length_range]

theorem slotOf_eq_some (data : Nat → Block) (d : Dinode) (n b : Nat) :
    slotOf data d n = some b ↔ d.type ≠ 0 ∧ ptrOf data d n = b ∧ b ≠ 0 := by
  unfold slotOf
  by_cases h : d.type = 0 ∨ ptrOf data d n = 0
  · rw [if_pos h]
    constructor
    · intro hc
      exact nomatch hc
    · rintro ⟨ht, hp, hb⟩
      rcases h with h | h
      · exact absurd h ht
      · exact absurd (hp.symm.trans h) hb
  · rw [if_neg h, Option.some.injEq]
    constructor
    · intro hp
      exact ⟨fun ht => h (Or.inl ht), hp, fun hb => h (Or.inr (hp.trans hb))⟩
    · exact fun hc => hc.2.1

theorem slotOf_of_ptr {data : Nat → Block} {d : Dinode} {n : Nat} (ht : d.type ≠ 0)
    (hp : ptrOf data d n ≠ 0) : slotOf data d n = some (ptrOf data d n) :=
  (slotOf_eq_some data d n _).mpr ⟨ht, rfl, hp⟩

theorem slotOf_eq_none {data : Nat → Block} {d : Dinode} {n : Nat}
    (h : d.type = 0 ∨ ptrOf data d n = 0) : slotOf data d n = none := if_pos h

theorem node_isSome {V : Vol} {i : Nat} {f : Node} (h : node V i = some f) :
    (V.dino i).type ≠ 0 ∧ f.type = (V.dino i).type ∧ f.major = (V.dino i).major ∧
      f.minor = (V.dino i).minor ∧ f.nlink = (V.dino i).nlink ∧
      f.data = contents V.data (V.dino i) := by
  unfold node nodeOf at h
  by_cases ht : (V.dino i).type = 0
  · rw [if_pos ht] at h
    exact nomatch h
  · rw [if_neg ht, Option.some.injEq] at h
    rw [← h]
    exact ⟨ht, rfl, rfl, rfl, rfl, rfl⟩

theorem node_eq_none_iff (V : Vol) (i : Nat) : node V i = none ↔ (V.dino i).type = 0 := by
  unfold node nodeOf
  by_cases ht : (V.dino i).type = 0
  · simp only [ht, if_true]
  · simp only [ht, if_false, reduceCtorEq]

/-- Blocks that an inode does not own may change without its noticing. -/
theorem frame_inode (V V' : Vol) (j : Nat) (hdino : V'.dino j = V.dino j)
    (hdata : ∀ n b, slot V (j, n) = some b → V'.data b = V.data b) :
    (∀ n, slot V' (j, n) = slot V (j, n)) ∧ node V' j = node V j := by
  unfold slot node at *
  simp only [hdino] at *
  by_cases ht : (V.dino j).type = 0
  · refine ⟨fun n => ?_, ?_⟩
    · rw [slotOf_eq_none (Or.inl ht), slotOf_eq_none (Or.inl ht)]
    · rw [nodeOf, nodeOf, if_pos ht, if_pos ht]
  · have hptr : ∀ n, ptrOf V'.data (V.dino j) n = ptrOf V.data (V.dino j) n := by
      refine ptrOf_congr V.data V'.data _ _ (fun _ _ => rfl) (fun h12 => ?_)
      refine hdata NDIRECT _ ((slotOf_eq_some _ _ _ _).mpr ⟨ht, ?_, h12⟩)
      exact ptrOf_direct _ _ _ (Nat.lt_succ_self _)
    refine ⟨fun n => ?_, ?_⟩
    · rw [slotOf, slotOf, hptr]
    · rw [nodeOf, nodeOf, if_neg ht, if_neg ht]
      rw [contents_congr rfl (fun bn _ => hptr _)
        (fun bn _ hz => hdata _ _ (slotOf_of_ptr ht hz))]

section Changes

variable {sb : Superblock} {V V' : Vol}

/-- A change on behalf of inode `i`, to blocks it owns or that are unused,
    leaves the other nodes alone. -/
theorem frame_of (hA : AllocOk sb V) (i : Nat) (S : Nat → Prop)
    (hS : ∀ b, S b → ¬(InData sb b ∧ V.bit b = true) ∨ ∃ n, slot V (i, n) = some b)
    (hdata : ∀ b, ¬S b → V'.data b = V.data b) (hdino : ∀ j, j ≠ i → V'.dino j = V.dino j)
    (j : Nat) (hj : j ≠ i) :
    (∀ n, slot V' (j, n) = slot V (j, n)) ∧ node V' j = node V j := by
  refine frame_inode V V' j (hdino j hj) (fun n b hb => hdata b (fun hSb => ?_))
  rcases hS b hSb with hu | ⟨m, hm⟩
  · exact hu (hA.own.used_of _ _ hb)
  · exact hj (congrArg Prod.fst (hA.own.inj _ _ _ hb hm))

end Changes

end Xv6
