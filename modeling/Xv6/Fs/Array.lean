import Xv6.Fs.Logged

/-!
# Files as Arrays of Bytes

What `readi` and `writei` do to the contents of a file: the contents are an
array of bytes, of which `readi` returns a part and `writei` replaces one.

The memory on the other side of the copy can be the kernel's or a user's. As
long as all of the user's memory is mapped there is no difference, and a call
with one is the same program as a call with the other.

A write can end before its time in two ways. There is no block left for the
next part of the file; then `writei` says how much it wrote. Or the blocks
written do not fit the log, and `log_write` panics. The room that `begin_op`
reserves for an operation is enough for the chunks that `filewrite` cuts a write
into.

## Main definitions

* `Source.Readable`, `Dest.Writable`: The other side of the copy is accessible.
* `BadRange`: The ranges that `writei` refuses.
* `Replaced`: A part of the contents was replaced.

## Theorems

* `writei_readable`, `readi_writable`: User memory that is mapped is like kernel
  memory.
* `writei_too_big`: A range that no log can take.
* `file_bytes`: `writei` and `readi` on the contents.
-/

namespace Xv6

variable {bs : List Byte}

open Function

/-- The source can be read, and its bytes are `bs`. -/
def Source.Readable (bs : List Byte) : Source → Prop
  | kernel xs => xs = bs
  | user mem addr => ∀ i (h : i < bs.length), mem (addr + BitVec.ofNat 64 i) = some bs[i]

/-- The destination can take `n` bytes. -/
def Dest.Writable (n : Nat) : Dest → Prop
  | kernel => True
  | user mem addr => ∀ i, i < n → ∃ c, mem (addr + BitVec.ofNat 64 i) = some c

section Memory

variable {mem : UserMem} {addr : BitVec 64}

theorem addr_succ (a : BitVec 64) (i : Nat) :
    a + 1 + BitVec.ofNat 64 i = a + BitVec.ofNat 64 (i + 1) := by
  rw [BitVec.add_assoc]
  congr 1
  rw [Nat.add_comm i 1, BitVec.ofNat_add]
  rfl

theorem addr_add (a : BitVec 64) (i j : Nat) :
    a + BitVec.ofNat 64 i + BitVec.ofNat 64 j = a + BitVec.ofNat 64 (i + j) := by
  rw [BitVec.add_assoc, BitVec.ofNat_add]

theorem copyin_mapped (bs : List Byte) (a : BitVec 64)
    (h : ∀ i (hi : i < bs.length), mem (a + BitVec.ofNat 64 i) = some bs[i]) :
    copyin mem bs.length a = (bs, true) := by
  induction bs generalizing a with
  | nil => rfl
  | cons b bs ih =>
    have hfirst := h 0 (Nat.zero_lt_succ _)
    rw [show a + BitVec.ofNat 64 0 = a from BitVec.add_zero a] at hfirst
    have hrest := ih (a + 1) (fun i hi => by
      rw [addr_succ]
      exact h (i + 1) (Nat.succ_lt_succ hi))
    simp only [List.length_cons, copyin, hfirst, List.getElem_cons_zero, hrest]

theorem fetch_readable {src : Source} (h : src.Readable bs) (tot m : Nat)
    (hm : tot + m ≤ bs.length) : src.fetch tot m = ((bs.drop tot).take m, true) := by
  cases src with
  | kernel xs =>
    have hx : xs = bs := h
    rw [hx]
    rfl
  | user mem addr =>
    have hlen : ((bs.drop tot).take m).length = m := by
      rw [List.length_take, List.length_drop]
      omega
    have hcopy := @copyin_mapped mem ((bs.drop tot).take m)
      (addr + BitVec.ofNat 64 tot) (fun i hi => ?_)
    · rw [hlen] at hcopy
      exact hcopy
    · rw [addr_add, List.getElem_take, List.getElem_drop]
      exact h (tot + i) (by omega)

theorem accepts_writable {dst : Dest} {n : Nat} (h : dst.Writable n) (tot m : Nat)
    (hm : tot + m ≤ n) : dst.accepts tot m = true := by
  cases dst with
  | kernel => rfl
  | user mem addr =>
    -- The bytes that are there now play the part of the source.
    have hread : (Source.user mem addr).Readable
        ((List.range n).map (fun i => (mem (addr + BitVec.ofNat 64 i)).getD 0)) := by
      intro i hi
      rw [List.length_map, List.length_range] at hi
      rcases h i hi with ⟨c, hc⟩
      simp only [List.getElem_map, List.getElem_range, hc, Option.getD_some]
    have hfetch := fetch_readable hread tot m (by
      rw [List.length_map, List.length_range]
      exact hm)
    exact congrArg Prod.snd hfetch

end Memory

section Programs

variable (sb : Superblock) (k : Fin NINODE)

theorem writeLoop_readable {src : Source} (h : src.Readable bs) (n : Nat) (hn : n ≤ bs.length)
    (fuel tot off : Nat) :
    writeLoop sb k src n fuel tot off = writeLoop sb k (.kernel bs) n fuel tot off := by
  induction fuel generalizing tot off with
  | zero => rfl
  | succ fuel ih =>
    unfold writeLoop
    by_cases hlt : tot < n
    · have hfetch := fetch_readable h tot (min (n - tot) (BSIZE - off % BSIZE)) (by omega)
      have hkernel : (Source.kernel bs).fetch tot (min (n - tot) (BSIZE - off % BSIZE)) =
          ((bs.drop tot).take (min (n - tot) (BSIZE - off % BSIZE)), true) := rfl
      simp only [hfetch, hkernel, ih]
    · rw [if_neg hlt, if_neg hlt]

/-- A write from user memory that is mapped is a write from kernel memory. -/
theorem writei_readable {src : Source} (h : src.Readable bs) (off n : BitVec 32)
    (hn : n.toNat ≤ bs.length) :
    writei sb k src off n = writei sb k (.kernel bs) off n := by
  unfold writei
  simp only [writeLoop_readable sb k h n.toNat hn]

theorem readLoop_writable {dst : Dest} {n : Nat} (h : dst.Writable n) (m : Nat) (hm : m ≤ n)
    (fuel tot off : Nat) (bs : List Byte) :
    readLoop sb k dst m fuel tot off bs = readLoop sb k .kernel m fuel tot off bs := by
  induction fuel generalizing tot off bs with
  | zero => rfl
  | succ fuel ih =>
    unfold readLoop
    by_cases hlt : tot < m
    · have hacc := accepts_writable h tot (min (m - tot) (BSIZE - off % BSIZE)) (by omega)
      have hkernel : Dest.kernel.accepts tot (min (m - tot) (BSIZE - off % BSIZE)) = true := rfl
      simp only [hacc, hkernel, ih]
    · rw [if_neg hlt, if_neg hlt]

/-- A read into user memory that is mapped is a read into kernel memory. -/
theorem readi_writable {dst : Dest} (off n : BitVec 32) (h : dst.Writable n.toNat)
    (s : Kernel) :
    Prog.run perform (readi sb k dst off n) s = Prog.run perform (readi sb k .kernel off n) s := by
  unfold readi
  rw [run_getInode, run_getInode]
  by_cases hout : (s.itable k).d.size < off ∨ off + n < off
  · rw [if_pos hout, if_pos hout]
  · have hle : off.toNat ≤ (s.itable k).d.size.toNat :=
      Nat.le_of_not_lt (fun hc => hout (Or.inl hc))
    have hov := toNat_add_of_not_lt (fun hc => hout (Or.inr hc))
    rw [if_neg hout, if_neg hout]
    refine congrArg (fun x => Prog.run perform x s) (readLoop_writable sb k h _ ?_ _ _ _ _)
    rw [toNat_clip hle hov]
    exact Nat.min_le_left _ _

end Programs

/-- The ranges that `writei` refuses. -/
def BadRange (s : Kernel) (k : Fin NINODE) (off n : BitVec 32) : Prop :=
  (s.itable k).d.size.toNat < off.toNat ∨ 2 ^ 32 ≤ off.toNat + n.toNat ∨
    MAXFILE * BSIZE < off.toNat + n.toNat

/-- The first `tot` bytes of `bs` were put into the file from offset `off` on.
    They are all of them, or what comes before the first block that could not
    be allocated. -/
structure Replaced (sb : Superblock) (s s' : Kernel) (k : Fin NINODE) (bs : List Byte)
    (off tot : Nat) : Prop where
  stops : tot = bs.length ∨ tot < bs.length ∧ (tot = 0 ∨ (off + tot) % BSIZE = 0) ∧
    NoBlock sb s' k (off + tot)
  contents : contents (vol sb s'.blk).data (s'.itable k).d =
    (contents (vol sb s.blk).data (s.itable k).d).take off ++ bs.take tot ++
      (contents (vol sb s.blk).data (s.itable k).d).drop (off + tot)
  size : (s'.itable k).d.size.toNat = max (s.itable k).d.size.toNat (off + tot)
  type : (s'.itable k).d.type = (s.itable k).d.type
  nlink : (s'.itable k).d.nlink = (s.itable k).d.nlink
  synced : (vol sb s'.blk).dino (s.itable k).inum = (s'.itable k).d
  map : MapOk sb (vol sb s'.blk)
  others : ∀ j, j ≠ (s.itable k).inum → node (vol sb s'.blk) j = node (vol sb s.blk) j
  entries : ∀ l, l ≠ k → s'.itable l = s.itable l

/-- Writing over bytes of the file does not stop early. -/
theorem Replaced.all {sb : Superblock} {s s' : Kernel} {k : Fin NINODE} {off tot : Nat}
    (h : Replaced sb s s' k bs off tot) (ht : (s.itable k).d.type ≠ 0)
    (hin : off + bs.length ≤ (s.itable k).d.size.toNat) : tot = bs.length := by
  rcases h.stops with heq | ⟨hlt, _, _, hmiss⟩
  · exact heq
  · have hp := h.map.holes (s.itable k).inum (by rw [h.synced, h.type]; exact ht)
      ((off + tot) / BSIZE) (by
        rw [h.synced, h.size]
        have := Nat.div_mul_le_self (off + tot) BSIZE
        omega)
    rw [h.synced] at hp
    exact absurd hmiss hp

section Calls

variable {sb : Superblock} {s : Kernel} {k : Fin NINODE} {off n : BitVec 32}

theorem node_pend {j : Nat} (hj : j ≠ (s.itable k).inum) :
    node (pend sb s k) j = node (vol sb s.blk) j := by
  unfold node pend
  simp only
  rw [update_of_ne hj]

theorem Edit.entries {s' : Kernel} (h : Edit s s' k) (l : Fin NINODE) (hl : l ≠ k) :
    s'.itable l = s.itable l := by
  rw [h.eq]
  exact update_of_ne hl _ _

theorem wpk_result {α : Type} {x : M α} {E : Panic → Prop} {Q : α → Kernel → Prop}
    (h : wpk E x Q s) {a : α} {t : Kernel} (hrun : Prog.run perform x s = .done (a, t)) :
    Q a t := by
  unfold wpk at h
  exact Prog.wp_imp h hrun

/-- A program that panics within `E` only and does not wait, for panics that it
    does not run into. -/
theorem run_of_wpk {α : Type} {x : M α} {E : Panic → Prop} {Q : α → Kernel → Prop}
    (h : wpk E x Q s) (hw : Prog.run perform x s ≠ .wait)
    (he : ∀ e, E e → Prog.run perform x s ≠ .panic e) :
    ∃ a t, Prog.run perform x s = .done (a, t) ∧ Q a t := by
  cases hrun : Prog.run perform x s with
  | done r => exact ⟨r.1, r.2, rfl, wpk_result h hrun⟩
  | panic e =>
    unfold wpk at h
    exact absurd hrun (he e (Prog.wp_panic h hrun))
  | wait => exact absurd hrun hw

theorem badRange_iff (off n : BitVec 32) :
    (((s.itable k).d.size < off ∨ off + n < off) ∨ MAXFILE * BSIZE < (off + n).toNat) ↔
      BadRange s k off n := by
  have h₁ := off.isLt
  have h₂ := n.isLt
  have hmax : MAXFILE * BSIZE = 274432 := by decide
  change (((s.itable k).d.size.toNat < off.toNat ∨ (off + n).toNat < off.toNat) ∨ _) ↔ _
  unfold BadRange
  rw [BitVec.toNat_add]
  omega

theorem writei_bad (src : Source) (h : BadRange s k off n) :
    Prog.run perform (writei sb k src off n) s = .done (-1, s) := by
  unfold writei
  rw [run_getInode]
  rcases badRange_iff off n |>.mpr h with hout | hbig
  · rw [if_pos hout]
    rfl
  · by_cases hout : (s.itable k).d.size < off ∨ off + n < off
    · rw [if_pos hout]
      rfl
    · rw [if_neg hout, if_pos hbig]
      rfl

theorem iupdate_run {α : Type} (a : α) (hroom : s.log.Room 1) :
    ∃ t, Prog.run perform (iupdate sb k >>= fun _ => pure a) s = .done (a, t) := by
  have hrun : Prog.run perform (iupdate sb k) s = .done ((), { s with
      blk := update s.blk (sb.iblock (s.itable k).inum)
        (putDinode (s.blk (sb.iblock (s.itable k).inum)) ((s.itable k).inum % IPB)
          (s.itable k).d)
      log := s.log.note (sb.iblock (s.itable k).inum) }) := by
    unfold iupdate
    rw [run_getInode, run_bread, run_bput]
    change Prog.run perform (logWrite _ >>= pure) _ = _
    rw [run_logWrite]
    · rfl
    · exact hroom
  rw [Prog.run_bind, hrun]
  exact ⟨_, rfl⟩

/-- With room for what a write can cost, the log does not fill up. -/
theorem writei_not_big (hsize : sb.size < 2 ^ 32) (src : Source)
    (hroom : s.log.Room (budget s k off.toNat n.toNat + 3)) :
    Prog.run perform (writei sb k src off n) s ≠ .panic .tooBigTransaction := by
  have hdone : ∀ r : Int × Kernel, (Outcome.done r : Outcome Panic _) ≠ .panic .tooBigTransaction :=
    nofun
  unfold writei
  rw [run_getInode]
  by_cases hout : (s.itable k).d.size < off ∨ off + n < off
  · rw [if_pos hout]
    exact hdone _
  · rw [if_neg hout]
    by_cases hbig : MAXFILE * BSIZE < (off + n).toNat
    · rw [if_pos hbig]
      exact hdone _
    · rw [if_neg hbig]
      -- The loop leaves room for the inode.
      rcases @writeLoop_bound sb k hsize src n.toNat n.toNat ∅ s 0 off.toNat with ⟨D, J, hb⟩
      have hloop := run_of_room (uses_writeLoop plain_blockSteps sb k src n.toNat n.toNat 0
        off.toNat) (D ∪ J) s (by have := hb.sub; rwa [Finset.empty_union] at this)
        (hroom.mono (by
          have h₁ := hb.one
          have h₂ := hb.card
          have h₃ := Finset.card_union_le D J
          have h₄ := Finset.card_le_card (Finset.sdiff_subset (s := D ∪ J)
            (t := s.log.lh.toFinset))
          rw [Nat.sub_zero] at h₂
          omega))
      rw [Prog.run_bind]
      cases hrun : Prog.run perform (writeLoop sb k src n.toNat n.toNat 0 off.toNat) s with
      | wait => exact absurd hrun hloop.1
      | panic e =>
        intro h
        have he : e = .tooBigTransaction := Outcome.panic.inj h
        rw [he] at hrun
        exact hloop.2.1 hrun
      | done r =>
        have hone := hloop.2.2 r.1 r.2 hrun
        rw [Outcome.done_bind, run_getInode]
        by_cases hgrow : (r.2.itable k).d.size.toNat < r.1.2
        · rw [if_pos hgrow, run_setInode]
          rcases @iupdate_run sb (r.2.modInode k (fun i => { i with
            d := { (r.2.itable k).d with size := BitVec.ofNat 32 r.1.2 } })) k _
            (r.1.1 : Int) hone with ⟨t, ht⟩
          rw [ht]
          exact hdone _
        · rw [if_neg hgrow]
          rcases @iupdate_run sb r.2 k _ (r.1.1 : Int) hone with ⟨t, ht⟩
          rw [ht]
          exact hdone _

/-- A part of the file is being written over. What is done of it is in the log. -/
structure Over (sb : Superblock) (s : Kernel) (k : Fin NINODE) (off n tot : Nat) : Prop where
  map : MapOk sb (pend sb s k)
  type : (s.itable k).d.type ≠ 0
  inside : off + n ≤ (s.itable k).d.size.toNat
  op : 1 ≤ s.log.outstanding
  fits : s.log.lh.length ≤ LOGSIZE
  logged : ∀ o, off ≤ o → o < off + tot → ptr sb s k (posOf (o / BSIZE)) ∈ s.log.lh

theorem writeLoop_over (hok : sb.Ok) {E : Panic → Prop} (hE : E .tooBigTransaction) {off n : Nat}
    {Q : Nat × Nat → Kernel → Prop} (hQ : ∀ r t, Over sb t k off n n → Q r t) (fuel tot : Nat)
    (hfuel : n ≤ tot + fuel) (htot : tot ≤ n) (h : Over sb s k off n tot) :
    wpk E (writeLoop sb k (.kernel bs) n fuel tot (off + tot)) Q s := by
  induction fuel generalizing tot s with
  | zero =>
    have hend : tot = n := by omega
    unfold writeLoop
    rw [wp_pure]
    rw [hend] at h
    exact hQ _ s h
  | succ fuel ih =>
    unfold writeLoop
    by_cases hlt : tot < n
    · have hinside := h.inside
      rcases ptr_below h.map h.type (off + tot) (by omega) with ⟨hbn, hp, hin⟩
      rw [if_pos hlt, wp_bind]
      refine bmap_hit h.map.toAllocOk h.type hbn hp ?_
      rw [if_neg hp, wp_bind, wp_bread]
      generalize hm : min (n - tot) (BSIZE - (off + tot) % BSIZE) = m
      simp only [wp_bind, wp_bput]
      rw [if_pos (show ((Source.kernel bs).fetch tot m).2 = true from rfl), wp_bind]
      refine wp_logWrite hE _ _ (by exact h.op) (fun l hl hmem => ?_)
      rcases @put_block sb s { s with blk := update s.blk _ _, log := l } k hok h.map h.type _ hp
        hin _ rfl hl with ⟨_, _, hM, _, hptr, _⟩
      have hmod : (off + tot) % BSIZE < BSIZE := Nat.mod_lt _ (by decide)
      rw [Nat.add_assoc]
      refine ih (tot + m) (by omega) (by omega) ⟨hM, h.type, hinside,
        by rw [hl.outstanding]; exact h.op, hl.fits h.fits, fun o h₁ h₂ => ?_⟩
      rw [hptr]
      by_cases ho : o < off + tot
      · exact hl.keeps (h.logged o h₁ ho)
      · have hdiv : o / BSIZE = (off + tot) / BSIZE := by
          unfold BSIZE at hm hmod ⊢
          omega
        rw [hdiv]
        exact hmem
    · rw [if_neg hlt, wp_pure]
      rw [show tot = n by omega] at h
      exact hQ _ s h

/-- No log holds more than `LOGSIZE` blocks of a file. -/
theorem Over.blocks_le {off n : Nat} (h : Over sb s k off n n) : blocksOf off n ≤ LOGSIZE := by
  have hinside := h.inside
  have hself := pend_dino_self sb s k
  by_contra hc
  have hmany : off / BSIZE + LOGSIZE ≤ (off + n - 1) / BSIZE ∧ 0 < n := by
    unfold blocksOf at hc
    by_cases hn : n = 0
    · rw [if_pos hn] at hc
      omega
    · rw [if_neg hn] at hc
      unfold BSIZE at hc ⊢
      omega
  have hthere : ∀ j, j ≤ LOGSIZE →
      ∃ o, off ≤ o ∧ o < off + n ∧ o / BSIZE = off / BSIZE + j := by
    intro j hj
    refine ⟨max off ((off / BSIZE + j) * BSIZE), ?_⟩
    unfold BSIZE at hmany ⊢
    omega
  -- The blocks of the range are different ones, and all are logged.
  have hnodup : ((List.range (LOGSIZE + 1)).map
      (fun j => ptr sb s k (posOf (off / BSIZE + j)))).Nodup := by
    refine List.Nodup.map_on (fun i hi j _ hij => ?_) List.nodup_range
    rcases hthere i (Nat.le_of_lt_succ (List.mem_range.mp hi)) with ⟨o, _, ho, hdiv⟩
    have hp := (ptr_below h.map h.type o (by omega)).2.1
    rw [hdiv] at hp
    have hinj := @ptr_inj sb _ h.map.toAllocOk (s.itable k).inum (posOf (off / BSIZE + i))
      (posOf (off / BSIZE + j)) (by rw [hself]; exact h.type)
    rw [hself] at hinj
    have := posOf_inj (hinj hp hij)
    omega
  have hlogged : ∀ b ∈ (List.range (LOGSIZE + 1)).map
      (fun j => ptr sb s k (posOf (off / BSIZE + j))), b ∈ s.log.lh := by
    intro b hb
    rcases List.mem_map.mp hb with ⟨j, hj, rfl⟩
    rcases hthere j (Nat.le_of_lt_succ (List.mem_range.mp hj)) with ⟨o, h₁, h₂, hdiv⟩
    have hmem := h.logged o h₁ h₂
    rw [hdiv] at hmem
    exact hmem
  have hle := (List.subperm_of_subset hnodup hlogged).length_le
  have hfits := h.fits
  rw [List.length_map, List.length_range] at hle
  omega

/-- A range of a file that takes more blocks than the log has cannot be written. -/
theorem writei_too_big (hok : sb.Ok) (hop : 1 ≤ s.log.outstanding) (hM : MapOk sb (pend sb s k))
    (ht : (s.itable k).d.type ≠ 0) (hlog : s.log.lh.length ≤ LOGSIZE)
    (hin : off.toNat + n.toNat ≤ (s.itable k).d.size.toNat)
    (hbig : LOGSIZE < blocksOf off.toNat n.toNat) :
    Prog.run perform (writei sb k (.kernel bs) off n) s = .panic .tooBigTransaction := by
  have hwp : wpk (fun e => e = .tooBigTransaction) (writei sb k (.kernel bs) off n)
      (fun _ _ => False) s := by
    have hgood : ¬BadRange s k off n := by
      have hmax := hM.maxSize (s.itable k).inum (by rw [pend_dino_self]; exact ht)
      have hlt := (s.itable k).d.size.isLt
      rw [pend_dino_self] at hmax
      unfold BadRange
      omega
    rw [← badRange_iff, not_or] at hgood
    unfold writei
    rw [wp_bind, wp_getInode, if_neg hgood.1, if_neg hgood.2, wp_bind]
    refine writeLoop_over (E := fun e => e = .tooBigTransaction) hok rfl (fun r t hover => ?_)
      n.toNat 0 (Nat.le_add_left _ _) (Nat.zero_le _)
      ⟨hM, ht, hin, hop, hlog, fun o h₁ h₂ => absurd h₁ (by omega)⟩
    exact absurd hover.blocks_le (Nat.not_le.mpr hbig)
  cases hrun : Prog.run perform (writei sb k (.kernel bs) off n) s with
  | done r => exact (wpk_result hwp hrun).elim
  | panic e =>
    unfold wpk at hwp
    rw [Prog.wp_panic hwp hrun]
  | wait => exact absurd hrun (writei_not_wait sb k _ off n s)

theorem writei_replaces (hok : sb.Ok) (hop : 1 ≤ s.log.outstanding) (hM : MapOk sb (pend sb s k))
    (ht : (s.itable k).d.type ≠ 0) (hlen : bs.length = n.toNat) (hgood : ¬BadRange s k off n) :
    wpk (fun e => e = .tooBigTransaction) (writei sb k (.kernel bs) off n)
      (fun r s' => ∃ tot : Nat, r = tot ∧ Replaced sb s s' k bs off.toNat tot) s := by
  refine writei_wp (E := fun e => e = .tooBigTransaction) hok rfl hop hM ht _ off n
    (fun xs hxs => ?_) _ (fun hbad => ?_) (fun s' tot htot hstop _ hnone hle hW => ?_)
  · rw [← Source.kernel.inj hxs, hlen]
  · refine absurd ?_ hgood
    rcases hbad with hbad | hbad
    · exact Or.inl hbad
    · exact Or.inr (Or.inr hbad)
  · refine ⟨tot, rfl, ?_, hW.contents (by rw [hlen]; exact htot) hle, hW.size, hW.type,
      hW.nlink, hW.sync, hW.map, fun j hj => (hW.others j hj).trans (node_pend hj),
      hW.edit.entries⟩
    rw [hlen]
    rcases Nat.eq_or_lt_of_le htot with heq | hlt
    · exact Or.inl heq
    · refine Or.inr ⟨hlt, ?_, hnone bs rfl hlt⟩
      rcases hstop with h0 | hn | hend
      · exact Or.inl h0
      · omega
      · exact Or.inr hend

theorem noHoles_of_mapOk (hM : MapOk sb (pend sb s k)) (ht : (s.itable k).d.type ≠ 0) :
    NoHoles s k := by
  intro bn hbn
  have hself := pend_dino_self sb s k
  have hp := hM.holes (s.itable k).inum (by rw [hself]; exact ht) bn (by rw [hself]; exact hbn)
  rw [hself] at hp
  have hraw : ptrOf s.blk (s.itable k).d (posOf bn) = ptr sb s k (posOf bn) :=
    ptrOf_congr _ _ _ _ (fun _ _ => rfl)
      (fun h12 => (indirect_inData hM.toAllocOk ht h12).2.symm) _
  rw [hraw]
  exact hp

theorem readi_slice (hM : MapOk sb (pend sb s k)) (ht : (s.itable k).d.type ≠ 0)
    (hbs : bs = ((contents (vol sb s.blk).data (s.itable k).d).drop off.toNat).take
      (min (off + n).toNat (s.itable k).d.size.toNat - off.toNat)) :
    Prog.run perform (readi sb k .kernel off n) s = .done ((bs.length, bs), s) := by
  have h₁ := off.isLt
  have h₂ := n.isLt
  by_cases hov : off.toNat + n.toNat < 2 ^ 32
  · have hsum : (off + n).toNat = off.toNat + n.toNat := by
      rw [BitVec.toNat_add, Nat.mod_eq_of_lt hov]
    have hrun := run_of_wpk (readi_wp (E := fun _ => False) hM ht .kernel off n
      (fun r t => t = s ∧ r.1 = r.2.length ∧
        r.2 = ((contents (vol sb s.blk).data (s.itable k).d).drop off.toNat).take n.toNat)
      (fun r xs _ _ h => ⟨rfl, h rfl hov⟩))
      (readi_not_wait sb k .kernel off n s)
      (fun e he => he.elim)
    rcases hrun with ⟨⟨r, xs⟩, t, hrun, ht', hr, hxs⟩
    have hsame : bs = xs := by
      refine hbs.trans (Eq.trans ?_ hxs.symm)
      rw [hsum, List.take_eq_take_iff, List.length_drop, length_contents]
      omega
    rw [hrun, ht', hsame]
    exact congrArg (fun x : Int => Outcome.done ((x, xs), s)) hr
  · -- The sum wraps around, so it is below the offset.
    have hsum : (off + n).toNat < off.toNat := by
      rw [BitVec.toNat_add]
      omega
    have hwrap : off + n < off := hsum
    rw [show min (off + n).toNat (s.itable k).d.size.toNat - off.toNat = 0 by omega,
      List.take_zero] at hbs
    rw [hbs]
    unfold readi
    rw [run_getInode, if_pos (Or.inr hwrap)]
    rfl

end Calls

/-- The contents of a file as an array of bytes. `writei` refuses a range and
    changes nothing, or it replaces the range, up to the first block that could
    not be allocated, unless the log is full; and for a chunk of `filewrite` in
    an operation of its own it never is. `readi` returns the part of the range
    that lies in the file. -/
theorem file_bytes (sb : Superblock) (hok : sb.Ok) (s : Kernel) (k : Fin NINODE)
    (hop : 1 ≤ s.log.outstanding) (hM : MapOk sb (pend sb s k)) (ht : (s.itable k).d.type ≠ 0)
    (off n : BitVec 32) :
    (∀ src bs, bs.length = n.toNat → Source.Readable bs src →
      (Prog.run perform (writei sb k src off n) s = .done (-1, s) ↔ BadRange s k off n) ∧
      (¬BadRange s k off n →
        Prog.run perform (writei sb k src off n) s = .panic .tooBigTransaction ∨
        ∃ (tot : Nat) (s' : Kernel), Prog.run perform (writei sb k src off n) s =
          .done ((tot : Int), s') ∧ Replaced sb s s' k bs off.toNat tot) ∧
      (n.toNat ≤ maxWrite ∧ s.log.Room MAXOPBLOCKS ∨
          s.log.Room (2 * blocksOf off.toNat n.toNat + 3) →
        Prog.run perform (writei sb k src off n) s ≠ .panic .tooBigTransaction)) ∧
    ∀ dst, Dest.Writable n.toNat dst → ∃ bs,
      bs = ((contents (vol sb s.blk).data (s.itable k).d).drop off.toNat).take
        (min (off + n).toNat (s.itable k).d.size.toNat - off.toNat) ∧
      Prog.run perform (readi sb k dst off n) s = .done ((bs.length, bs), s) := by
  have hsize : sb.size < 2 ^ 32 := Nat.lt_trans hok.size_lt (by decide)
  refine ⟨fun src bs hlen hread => ?_, fun dst hdst => ⟨_, rfl, ?_⟩⟩
  · have hgood : ¬BadRange s k off n →
        Prog.run perform (writei sb k src off n) s = .panic .tooBigTransaction ∨
        ∃ (tot : Nat) (s' : Kernel), Prog.run perform (writei sb k src off n) s =
          .done ((tot : Int), s') ∧ Replaced sb s s' k bs off.toNat tot := by
      intro hgood
      by_cases hbig : Prog.run perform (writei sb k src off n) s = .panic .tooBigTransaction
      · exact Or.inl hbig
      · right
        rw [writei_readable sb k hread off n (by omega)] at hbig ⊢
        rcases run_of_wpk (writei_replaces hok hop hM ht hlen hgood)
          (writei_not_wait sb k _ off n s)
          (fun e he => by rw [he]; exact hbig) with ⟨_, s', hrun, tot, rfl, hR⟩
        exact ⟨tot, s', hrun, hR⟩
    refine ⟨⟨fun hrun => ?_, writei_bad src⟩, hgood, fun hroom => ?_⟩
    · -- A range that is not refused gives a count, or a panic.
      by_contra hbad
      rcases hgood hbad with hpanic | ⟨tot, s', hdone, _⟩
      · rw [hrun] at hpanic
        cases hpanic
      · rw [hrun] at hdone
        have htot : (-1 : Int) = tot := congrArg Prod.fst (Outcome.done.inj hdone)
        omega
    · by_cases hbad : BadRange s k off n
      · rw [writei_bad src hbad]
        exact nofun
      · refine writei_not_big hsize src ?_
        -- The blocks that the call may log are bounded in either case.
        rcases hroom with ⟨hn, hroom⟩ | hroom
        · have hoff : off.toNat ≤ (s.itable k).d.size.toNat :=
            Nat.le_of_not_lt (fun hc => hbad (Or.inl hc))
          have hcost := budget_chunk (noHoles_of_mapOk hM ht) off.toNat n.toNat hn hoff
          exact hroom.mono (by
            have : MAXOPBLOCKS = 10 := rfl
            omega)
        · exact hroom.mono (by
            have := budget_le s k off.toNat n.toNat
            omega)
  · rw [readi_writable sb k off n hdst s]
    exact readi_slice hM ht rfl

end Xv6
