import Xv6.Fs.Content
import Xv6.Fs.Name

/-!
# Reading Files

What the kernel reads from a disk it does not change.

A run of `readi` over blocks that are there goes through `bmap` and `bread`
only, so the kernel is afterwards what it was before. What comes out depends on
the blocks and the inode, whatever else is on the disk: the disk need not be in
order, and the file may have holes elsewhere.
-/

namespace Xv6

open Function Prog

/-- The blocks for the bytes from `off` to `off + n` are there. -/
def There (data : Nat → Block) (d : Dinode) (off n : Nat) : Prop :=
  ∀ o, off ≤ o → o < off + n → o / BSIZE < MAXFILE ∧ ptrOf data d (posOf (o / BSIZE)) ≠ 0

theorem slice_contents (data : Nat → Block) (d : Dinode) (o m : Nat)
    (hsize : o + m ≤ d.size.toNat) (hm : o % BSIZE + m ≤ BSIZE)
    (hp : ptrOf data d (posOf (o / BSIZE)) ≠ 0) :
    Bytes.slice (data (ptrOf data d (posOf (o / BSIZE)))) (o % BSIZE) m =
      ((contents data d).drop o).take m := by
  refine List.ext_getElem ?_ (fun i hi hi' => ?_)
  · rw [Bytes.length_slice, List.length_take, List.length_drop, length_contents]
    omega
  · rw [Bytes.length_slice] at hi
    have hdiv : (o + i) / BSIZE = o / BSIZE := by
      unfold BSIZE at hm ⊢
      omega
    have hmod : (o + i) % BSIZE = o % BSIZE + i := by
      unfold BSIZE at hm ⊢
      omega
    simp only [Bytes.slice, contents, List.getElem_map, List.getElem_range, List.getElem_take,
      List.getElem_drop]
    rw [byteAt, hdiv, if_neg hp, hmod]

theorem posOf_indirect {bn : Nat} (h : ¬bn < NDIRECT) :
    posOf bn = NDIRECT + 1 + (bn - NDIRECT) := by
  rw [posOf, if_neg h]
  omega

section Steps

variable {s : Kernel} {k : Fin NINODE} {α : Type}

theorem run_getInode (f : Inode → M α) :
    run perform (getInode k >>= f) s = run perform (f (s.itable k)) s := rfl

theorem run_bread (b : Nat) (f : Block → M α) :
    run perform (bread b >>= f) s = run perform (f (s.blk b)) s := rfl

theorem run_bput (b : Nat) (d : Block) (f : Unit → M α) :
    run perform (bput b d >>= f) s =
      run perform (f ()) { s with blk := update s.blk b d } := rfl

theorem run_setInode (d : Dinode) (f : Unit → M α) :
    run perform (setInode k d >>= f) s =
      run perform (f ()) (s.modInode k (fun i => { i with d := d })) := rfl

theorem run_setValid (v : Bool) (f : Unit → M α) :
    run perform (setValid k v >>= f) s =
      run perform (f ()) (s.modInode k (fun i => { i with valid := v })) := rfl

end Steps

section Contents

variable {sb : Superblock} {s : Kernel} {k : Fin NINODE}

theorem bmap_run {bn : Nat} (hbn : bn < MAXFILE)
    (hp : ptrOf s.blk (s.itable k).d (posOf bn) ≠ 0) :
    run perform (bmap sb k bn) s =
      .done (ptrOf s.blk (s.itable k).d (posOf bn), s) := by
  unfold bmap
  rw [run_getInode]
  by_cases hdir : bn < NDIRECT
  · have hptr : ptrOf s.blk (s.itable k).d (posOf bn) = (s.itable k).d.addr bn := by
      rw [posOf, if_pos hdir, ptrOf_direct _ _ _ (Nat.lt_succ_of_lt hdir)]
    rw [hptr] at hp ⊢
    rw [if_pos hdir, if_neg hp]
    rfl
  · have hj : bn - NDIRECT < NINDIRECT := by
      unfold MAXFILE at hbn
      omega
    have hpos := posOf_indirect hdir
    have h12 : (s.itable k).d.addr NDIRECT ≠ 0 := by
      intro h0
      refine hp ?_
      rw [hpos, ptrOf, if_neg (by omega), if_neg (fun hc => hc.2 h0)]
    have hptr : ptrOf s.blk (s.itable k).d (posOf bn) =
        addrAt (s.blk ((s.itable k).d.addr NDIRECT)) (bn - NDIRECT) := by
      rw [hpos, ptrOf_indirect _ hj h12]
    have hind : run perform (bmapIndirect sb k) s =
        .done ((s.itable k).d.addr NDIRECT, s) := by
      unfold bmapIndirect
      rw [run_getInode, if_neg h12]
      rfl
    rw [hptr] at hp ⊢
    rw [if_neg hdir, if_pos hj, run_bind, hind, Outcome.done_bind, if_neg h12, run_bread,
      if_neg hp]
    rfl

theorem readLoop_run (off n : Nat) (hn : off + n ≤ (s.itable k).d.size.toNat)
    (hthere : There s.blk (s.itable k).d off n) (fuel tot : Nat) (hfuel : n ≤ tot + fuel)
    (htot : tot ≤ n) :
    run perform (readLoop sb k .kernel n fuel tot (off + tot)
        (((contents s.blk (s.itable k).d).drop off).take tot)) s =
      .done ((n, ((contents s.blk (s.itable k).d).drop off).take n), s) := by
  induction fuel generalizing tot with
  | zero =>
    rw [show tot = n by omega]
    rfl
  | succ fuel ih =>
    unfold readLoop
    by_cases hlt : tot < n
    · rcases hthere (off + tot) (by omega) (by omega) with ⟨hbn, hp⟩
      rw [if_pos hlt, run_bind, bmap_run hbn hp, Outcome.done_bind, if_neg hp]
      generalize hm : min (n - tot) (BSIZE - (off + tot) % BSIZE) = m
      have hmod : (off + tot) % BSIZE < BSIZE := Nat.mod_lt _ (by decide)
      have hslice := slice_contents s.blk (s.itable k).d (off + tot) m (by omega) (by omega) hp
      rw [← List.drop_drop] at hslice
      have hnext := ih (tot + m) (by omega) (by omega)
      rw [List.take_add, ← hslice, ← Nat.add_assoc] at hnext
      exact hnext
    · rw [if_neg hlt, show tot = n by omega]
      rfl

theorem toNat_add_of_not_lt {off n : BitVec 32} (h : ¬off + n < off) :
    (off + n).toNat = off.toNat + n.toNat := by
  have hc : ¬(off + n).toNat < off.toNat := h
  have h₁ := off.isLt
  have h₂ := n.isLt
  rw [BitVec.toNat_add] at hc ⊢
  omega

/-- How many of `n` bytes there are up to the end of the file. -/
theorem toNat_clip {size off n : BitVec 32} (hle : off.toNat ≤ size.toNat)
    (hsum : (off + n).toNat = off.toNat + n.toNat) :
    (if size < off + n then size - off else n).toNat = min n.toNat (size.toNat - off.toNat) := by
  by_cases hc : size < off + n
  · have hc' : size.toNat < (off + n).toNat := hc
    rw [if_pos hc, BitVec.toNat_sub_of_le hle]
    omega
  · have hc' : ¬size.toNat < (off + n).toNat := hc
    rw [if_neg hc]
    omega

/-- `readi` of a range that is there, as far as the file goes. -/
theorem readi_run (off n : BitVec 32) (hov : off.toNat + n.toNat < 2 ^ 32)
    (hthere : There s.blk (s.itable k).d off.toNat
      (min n.toNat ((s.itable k).d.size.toNat - off.toNat))) :
    run perform (readi sb k .kernel off n) s =
      .done (((((contents s.blk (s.itable k).d).drop off.toNat).take n.toNat).length,
        ((contents s.blk (s.itable k).d).drop off.toNat).take n.toNat), s) := by
  have hlen := length_contents s.blk (s.itable k).d
  have hsum : (off + n).toNat = off.toNat + n.toNat := by
    rw [BitVec.toNat_add, Nat.mod_eq_of_lt hov]
  have hwrap : ¬off + n < off := by
    intro hc
    have hc' : (off + n).toNat < off.toNat := hc
    omega
  unfold readi
  rw [run_getInode]
  by_cases hout : (s.itable k).d.size < off
  · have hlt : (s.itable k).d.size.toNat < off.toNat := hout
    rw [if_pos (Or.inl hout), List.drop_of_length_le (by omega), List.take_nil]
    rfl
  · have hle : off.toNat ≤ (s.itable k).d.size.toNat := Nat.le_of_not_lt hout
    rw [if_neg (fun hc => hc.elim hout hwrap)]
    generalize hn' : (if (s.itable k).d.size < off + n then (s.itable k).d.size - off else n) = n'
    have hval : n'.toNat = min n.toNat ((s.itable k).d.size.toNat - off.toNat) :=
      hn' ▸ toNat_clip hle hsum
    have hloop := @readLoop_run sb s k off.toNat n'.toNat (by omega) (by rw [hval]; exact hthere)
      n'.toNat 0 (by omega) (Nat.zero_le _)
    have hfull : ((contents s.blk (s.itable k).d).drop off.toNat).take n'.toNat =
        ((contents s.blk (s.itable k).d).drop off.toNat).take n.toNat := by
      rw [List.take_eq_take_iff, List.length_drop, hlen]
      omega
    have hlen' : (((contents s.blk (s.itable k).d).drop off.toNat).take n.toNat).length =
        n'.toNat := by
      rw [List.length_take, List.length_drop, hlen]
      omega
    rw [hfull] at hloop
    rw [hlen']
    exact hloop

theorem dirlookupFrom_run (ent : Nat → Dirent) (dev size : Nat) (name : List Byte) (m : Nat)
    (hname : ∀ j, j ≤ m → (ent j).name.length = DIRSIZ)
    (hread : ∀ j, j ≤ m → run perform (readi sb k .kernel (BitVec.ofNat 32 (16 * j)) 16) s =
      .done ((16, (ent j).encode), s))
    (hlow : ∀ j, j < m → namecmp name (ent j).name ≠ 0)
    (hinum : (ent m).inum ≠ 0) (hmatch : namecmp name (ent m).name = 0) (hsize : 16 * m < size)
    (fuel j : Nat) (hj : j ≤ m) (hfuel : m < j + fuel) :
    run perform (dirlookupFrom sb k dev size name fuel (16 * j)) s =
      run perform (iget dev (ent m).inum.toNat >>= fun ip => pure (some (ip, 16 * m))) s := by
  induction fuel generalizing j with
  | zero => omega
  | succ fuel ih =>
    have hdec := (ent j).decode_encode (hname j hj)
    unfold dirlookupFrom
    rw [if_pos (by omega), run_bind, hread j hj, Outcome.done_bind]
    simp only [ne_eq, not_true_eq_false, if_false, hdec]
    by_cases hjm : j = m
    · rw [hjm, if_neg hinum, if_pos hmatch]
    · -- This entry is free or has another name.
      have hnext := ih (j + 1) (by omega) (by omega)
      rw [Nat.mul_succ] at hnext
      by_cases hz : (ent j).inum = 0
      · rw [if_pos hz]
        exact hnext
      · rw [if_neg hz, if_neg (hlow j (by omega))]
        exact hnext

end Contents

section Table

variable {sb : Superblock} {s : Kernel} {k l : Fin NINODE} {p : Fin NPROC}

theorem itable_modInode_self (f : Inode → Inode) :
    (s.modInode k f).itable k = f (s.itable k) := update_self _ _ _

theorem itable_modInode_of_ne (f : Inode → Inode) (h : l ≠ k) :
    (s.modInode k f).itable l = s.itable l := update_of_ne h _ _

theorem modInode_modInode (f g : Inode → Inode) :
    (s.modInode k f).modInode k g = s.modInode k (fun i => g (f i)) := by
  unfold Kernel.modInode
  simp only [update_self, update_idem]

/-- Entry `k` of the table is for inode `i` and not locked, and what it holds of the
    inode is on the disk. -/
structure Caches (sb : Superblock) (s : Kernel) (k : Fin NINODE) (i : Nat) : Prop where
  ref : 1 ≤ (s.itable k).ref
  dev : (s.itable k).dev = ROOTDEV
  inum : (s.itable k).inum = i
  lock : (s.itable k).lock = none
  sync : (s.itable k).valid = true →
    (s.itable k).d = dinodeAt (s.blk (sb.iblock i)) (i % IPB)

theorem Caches.congr {s' : Kernel} {i : Nat} (h : Caches sb s k i) (hblk : s'.blk = s.blk)
    (hk : s'.itable k = s.itable k) : Caches sb s' k i := by
  cases h with
  | mk ref dev inum lock sync =>
    rw [← hk] at ref dev inum lock sync
    rw [← hblk] at sync
    exact ⟨ref, dev, inum, lock, sync⟩

/-- No inode is locked, and every entry in use is good. -/
def Idle (sb : Superblock) (s : Kernel) : Prop :=
  ∀ k, (s.itable k).lock = none ∧ (1 ≤ (s.itable k).ref → Caches sb s k (s.itable k).inum)

/-- An entry of the table for an inode: its own, or a free one. -/
theorem iget_run (inum : Nat)
    (hold : ∀ j, 1 ≤ (s.itable j).ref → (s.itable j).inum = inum → Caches sb s j inum)
    (hnew : ∀ j, (s.itable j).ref = 0 → (s.itable j).lock = none)
    (hfree : ∃ j, (s.itable j).ref = 0) :
    ∃ j f, run perform (iget ROOTDEV inum) s = .done (j, s.modInode j f) ∧
      Caches sb (s.modInode j f) j inum ∧
      ((s.itable j).ref = 0 ∨ (s.itable j).inum = inum) := by
  have hrun : run perform (iget ROOTDEV inum) s = s.iget ROOTDEV inum :=
    run_call perform (.iget ROOTDEV inum) s
  rw [hrun]
  unfold Kernel.iget
  cases hfind : (List.finRange NINODE).find? (fun j => 0 < (s.itable j).ref ∧
      (s.itable j).dev = ROOTDEV ∧ (s.itable j).inum = inum) with
  | some j =>
    have hj := List.find?_some hfind
    rw [decide_eq_true_eq] at hj
    have hc := hold j hj.1 hj.2.2
    refine ⟨j, _, rfl, ?_, Or.inr hj.2.2⟩
    refine ⟨?_, ?_, ?_, ?_, ?_⟩
    · rw [itable_modInode_self]
      exact Int.le_add_one hc.ref
    · rw [itable_modInode_self]
      exact hc.dev
    · rw [itable_modInode_self]
      exact hc.inum
    · rw [itable_modInode_self]
      exact hc.lock
    · rw [itable_modInode_self]
      exact hc.sync
  | none =>
    rcases hfree with ⟨j₀, hj₀⟩
    cases hfree' : (List.finRange NINODE).find? (fun j => (s.itable j).ref = 0) with
    | none =>
      have hno := List.find?_eq_none.mp hfree' j₀ (List.mem_finRange j₀)
      rw [decide_eq_true_eq] at hno
      exact absurd hj₀ hno
    | some j =>
      have hj := List.find?_some hfree'
      rw [decide_eq_true_eq] at hj
      refine ⟨j, _, rfl, ?_, Or.inl hj⟩
      refine ⟨?_, ?_, ?_, ?_, ?_⟩
      · rw [itable_modInode_self]
      · rw [itable_modInode_self]
      · rw [itable_modInode_self]
      · rw [itable_modInode_self]
        exact hnew j hj
      · rw [itable_modInode_self]
        exact nofun

/-- `ilock` reads the inode, unless it has been read already. -/
theorem ilock_run {inum : Nat} (h : Caches sb s k inum) {d : Dinode}
    (hd : dinodeAt (s.blk (sb.iblock inum)) (inum % IPB) = d) (ht : d.type ≠ 0) :
    run perform (ilock sb p k) s = .done ((), s.modInode k (fun i =>
      { i with lock := some p, d := d, valid := true })) := by
  have hacq : run perform (acquiresleep p k) s =
      .done ((), s.modInode k (fun i => { i with lock := some p })) := by
    refine (run_call perform (.acquire p k) s).trans ?_
    change s.acquire p k = _
    unfold Kernel.acquire
    rw [if_neg (Int.not_lt.mpr h.ref), h.lock]
    rfl
  unfold ilock
  rw [run_bind, hacq, Outcome.done_bind, run_getInode, itable_modInode_self]
  cases hval : (s.itable k).valid with
  | true =>
    simp only [if_true]
    have hsame : (fun i : Inode => { i with lock := some p }) (s.itable k) =
        { s.itable k with lock := some p, d := d, valid := true } := by
      have hsync := h.sync hval
      rw [hd] at hsync
      rw [← hsync, ← hval]
    exact congrArg (fun i => Outcome.done ((),
      { s with itable := update s.itable k i })) hsame
  | false =>
    simp only [Bool.false_eq_true, if_false]
    have hd' : dinodeAt ((s.modInode k (fun i => { i with lock := some p })).blk
        (sb.iblock (s.itable k).inum)) ((s.itable k).inum % IPB) = d := by
      rw [h.inum]
      exact hd
    rw [run_bread, hd', run_setInode, run_setValid, if_neg ht, modInode_modInode,
      modInode_modInode]
    rfl

theorem iunlockput_run (hlock : (s.itable k).lock = some p) (href : 1 ≤ (s.itable k).ref)
    (hlink : (s.itable k).d.nlink ≠ 0) :
    run perform (iunlockput sb p k) s = .done ((), s.modInode k (fun i =>
      { i with lock := none, ref := i.ref - 1 })) := by
  have hrel : run perform (iunlock p k) s =
      .done ((), s.modInode k (fun i => { i with lock := none })) := by
    refine (run_call perform (.release p k) s).trans ?_
    change s.release p k = _
    unfold Kernel.release
    rw [if_neg (fun hc => hc.elim (fun hc => hc hlock)
      (fun hc => absurd href (Int.not_le.mpr hc)))]
  have htest : run perform (iputTest p k) (s.modInode k (fun i => { i with lock := none })) =
      .done (false, s.modInode k (fun i => { i with lock := none })) := by
    refine (run_call perform (.iputTest p k) _).trans ?_
    change Kernel.iputTest _ p k = _
    unfold Kernel.iputTest
    rw [itable_modInode_self, if_neg (fun hc => hlink hc.2.2)]
  unfold iunlockput iput
  rw [run_bind, hrel, Outcome.done_bind, run_bind, htest, Outcome.done_bind]
  exact congrArg (fun t => Outcome.done ((), t))
    (modInode_modInode (fun i => { i with lock := none }) (fun i => { i with ref := i.ref - 1 }))

end Table

end Xv6
