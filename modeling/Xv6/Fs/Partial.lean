import Xv6.Fs.Array

/-!
# Writes That Fail

What `writei` leaves behind when the memory of the user ends before the write
does.

The copy goes straight into the buffer of the block, and a copy that fails has
already put there what it could read. The block is then not logged. So the
buffer holds bytes that the caller was not told of, and the next reader sees
them, until the buffer is used for another block: then they are gone again. A
block that was logged, on the other hand, stays in the cache until it is on
disk. What a block can hold when it is read later is therefore one of two
things, what the buffer holds now and what it held when it was last logged.

Up to the block in which the memory ends, the loop of `writei` is the loop of a
shorter write that succeeds.

## Main definitions

* `Copies`, `stable`: What the blocks hold if they are read from disk again.
* `Paired`: Programs that log every block they change at once.
* `tear`: The iteration of the loop in which the memory ends.
* `Unharmed`: The bytes that were not reported written are what they were.

## Theorems

* `writeLoop_tear`: The loop of a write that fails.
* `writei_partial`: When a write that fails harms no bytes.
-/

namespace Xv6

open Function Prog

/-- The blocks in the cache, and what they hold if they are read from disk
    again. -/
structure Copies where
  cache : Nat → Block
  stable : Nat → Block

/-- Blocks are changed in the cache. A block that is logged will reach the disk
    as it is. -/
def Cmd.track (v : Copies) : Cmd → Copies
  | bput b d => { v with cache := update v.cache b d }
  | logWrite b => { v with stable := update v.stable b (v.cache b) }
  | _ => v

/-- What the blocks hold after a run, if they are read from disk again. -/
def stable {α : Type} (x : M α) (s : Kernel) : Nat → Block :=
  ((Prog.issued perform x s).foldl Cmd.track ⟨s.blk, s.blk⟩).stable

/-- Programs that log every block they change at once. -/
inductive Paired : {α : Type} → M α → Prop where
  | ret {α : Type} (a : α) : Paired (.ret a)
  | step {α : Type} (c : Cmd) (k : c.Ans → M α) (hc : c.Plain) (hput : ∀ b d, c ≠ .bput b d)
      (hk : ∀ r, Paired (k r)) : Paired (.act c k)
  | put {α : Type} (b : Nat) (d : Block) (k : Unit → M α) (hk : ∀ r, Paired (k r)) :
      Paired (.act (.bput b d) (fun _ => .act (.logWrite b) k))

section Pairs

variable {α β : Type}

theorem Paired.bind {x : M α} {f : α → M β} (hx : Paired x) (hf : ∀ a, Paired (f a)) :
    Paired (x >>= f) := by
  induction hx with
  | ret a => exact hf a
  | step c k hc hput _ ih => exact .step c _ hc hput ih
  | put b d k _ ih => exact .put b d _ ih

theorem paired_call {c : Cmd} (hc : c.Plain) (hput : ∀ b d, c ≠ .bput b d) :
    Paired (issue c) :=
  .step c _ hc hput (fun r => .ret r)

theorem paired_panic {e : Panic} (he : e ≠ .tooBigTransaction) : Paired (panic e : M α) :=
  .step (.panic e) _ he (nofun) (fun r => r.elim)

theorem layered_paired : Layered Paired where
  ret := .ret
  bind := Paired.bind
  bread _ := paired_call trivial nofun
  store b d := .put b d _ (fun r => .ret r)
  getInode _ := paired_call trivial nofun
  setInode _ _ := paired_call trivial nofun
  freeing := paired_panic nofun
  range := paired_panic nofun

theorem logWrite_act_inv {b : Nat} {k : Unit → M α} {s t : Kernel} {a : α}
    (h : run perform (.act (.logWrite b) k) s = .done (a, t)) :
    ∃ l, issued perform (.act (.logWrite b) k) s =
        .logWrite b :: issued perform (k ()) { s with log := l } ∧
      run perform (k ()) { s with log := l } = .done (a, t) := by
  rcases run_bind_inv (x := logWrite b) (f := k) h with ⟨_, t', h₁, h₂⟩
  have ht := logWrite_done h₁
  have hstep := (run_call perform (.logWrite b) s).symm.trans h₁
  rw [ht] at hstep h₂
  exact ⟨_, issued_act_done perform (.logWrite b) k s hstep, h₂⟩

/-- Such a program leaves the blocks in the cache as they will reach the disk. -/
theorem Paired.track {x : M α} (hx : Paired x) (s : Kernel) {a : α} {t : Kernel}
    (h : run perform x s = .done (a, t)) :
    (issued perform x s).foldl Cmd.track ⟨s.blk, s.blk⟩ = ⟨t.blk, t.blk⟩ := by
  -- Logging a block that the disk will get anyway changes nothing.
  have hlog : ∀ (blk : Nat → Block) (b : Nat),
      Cmd.track ⟨blk, blk⟩ (.logWrite b) = ⟨blk, blk⟩ := by
    intro blk b
    simp only [Cmd.track, update_eq_self]
  induction hx generalizing s with
  | ret a =>
    cases h
    rfl
  | step c k hc hput _ ih =>
    cases c with
    | panic e => cases h
    | bread b => exact ih (s.blk b) s h
    | bput b d => exact absurd rfl (hput b d)
    | inode ip => exact ih (s.itable ip) s h
    | setInode ip d => exact ih () (s.modInode ip (fun i => { i with d := d })) h
    | logWrite b =>
      rcases logWrite_act_inv h with ⟨l, h₁, h₂⟩
      rw [h₁, List.foldl_cons, hlog]
      exact ih () _ h₂
    | _ => exact hc.elim
  | put b d k _ ih =>
    rcases @logWrite_act_inv _ b k { s with blk := update s.blk b d } t a h
      with ⟨l, h₁, h₂⟩
    change List.foldl _ _ (.bput b d :: issued perform (.act (.logWrite b) k)
      { s with blk := update s.blk b d }) = _
    rw [h₁, List.foldl_cons, List.foldl_cons]
    simp only [Cmd.track, update_self]
    exact ih () _ h₂

theorem paired_writeLoop (sb : Superblock) (k : Fin NINODE) (bs : List Byte)
    (n fuel tot off : Nat) : Paired (writeLoop sb k (.kernel bs) n fuel tot off) := by
  have hX := layered_paired
  induction fuel generalizing tot off with
  | zero => exact .ret _
  | succ fuel ih =>
    refine Layered.ite _ ?_ (.ret _)
    refine (hX.bmap sb k _).bind (fun a => Layered.ite _ (.ret _) ?_)
    refine (hX.bread a).bind (fun d => .put _ _ _ (fun _ => ?_))
    exact ih _ _

end Pairs

/-- The memory from `addr` on holds `bs`, and then ends. -/
def Cut (mem : UserMem) (addr : BitVec 64) (bs : List Byte) : Prop :=
  (Source.user mem addr).Readable bs ∧ mem (addr + BitVec.ofNat 64 bs.length) = none

/-- How much is written before the block in which the memory ends, if it ends
    after `r` bytes. -/
def cutStart (off r : Nat) : Nat := (off + r) / BSIZE * BSIZE - off

/-- The iteration of the loop of `writei` in which the memory ends, `xs` being
    what is left of it. -/
def tear (sb : Superblock) (ip : Fin NINODE) (xs : List Byte) (tot off : Nat) : M (Nat × Nat) := do
  let addr ← bmap sb ip (off / BSIZE)
  if addr = 0 then return (tot, off)
  else
    let d ← bread addr
    bput addr (Bytes.splice d (off % BSIZE) xs)
    return (tot, off)

section Cuts

variable {mem : UserMem} {addr : BitVec 64} {bs : List Byte}

theorem copyin_cut (h : Cut mem addr bs) (m : Nat) (hm : bs.length < m) :
    copyin mem m addr = (bs, false) := by
  induction bs generalizing addr m with
  | nil =>
    rcases Nat.exists_eq_succ_of_ne_zero (Nat.ne_of_gt hm) with ⟨m, rfl⟩
    have hend : mem addr = none := by
      have := h.2
      rwa [show addr + BitVec.ofNat 64 ([] : List Byte).length = addr from
        BitVec.add_zero addr] at this
    simp only [copyin, hend]
  | cons b bs ih =>
    rcases Nat.exists_eq_succ_of_ne_zero (Nat.ne_of_gt (Nat.lt_of_le_of_lt (Nat.zero_le _) hm))
      with ⟨m, rfl⟩
    have hfirst := h.1 0 (Nat.zero_lt_succ _)
    rw [show addr + BitVec.ofNat 64 0 = addr from BitVec.add_zero addr] at hfirst
    have hrest := @ih (addr + 1) ⟨fun i hi => ?_, ?_⟩ m (Nat.lt_of_succ_lt_succ hm)
    · simp only [copyin, hfirst, List.getElem_cons_zero, hrest]
    · rw [addr_succ]
      exact h.1 (i + 1) (Nat.succ_lt_succ hi)
    · rw [addr_succ]
      exact h.2

theorem fetch_cut (h : Cut mem addr bs) (tot m : Nat) (htot : tot ≤ bs.length)
    (hm : bs.length < tot + m) :
    (Source.user mem addr).fetch tot m = (bs.drop tot, false) := by
  refine @copyin_cut mem (addr + BitVec.ofNat 64 tot) (bs.drop tot) ⟨fun i hi => ?_, ?_⟩ m ?_
  · rw [List.length_drop] at hi
    rw [addr_add, List.getElem_drop]
    exact h.1 (tot + i) (by omega)
  · rw [addr_add, List.length_drop, show tot + (bs.length - tot) = bs.length by omega]
    exact h.2
  · rw [List.length_drop]
    omega

theorem cutStart_le (off r : Nat) : cutStart off r ≤ r := by
  unfold cutStart
  have := Nat.div_mul_le_self (off + r) BSIZE
  omega

/-- The write gets to a block boundary, or it does not get out of the first
    block; and the memory ends in the block that comes then. -/
theorem cutStart_block (off r : Nat) :
    (cutStart off r = 0 ∨ (off + cutStart off r) % BSIZE = 0) ∧
      (off + cutStart off r) % BSIZE + (r - cutStart off r) < BSIZE := by
  unfold cutStart BSIZE
  omega

/-- The loop of a write that fails is the loop of the part of it that succeeds,
    and one iteration more. -/
theorem writeLoop_tear (sb : Superblock) (k : Fin NINODE) (h : Cut mem addr bs) (n off : Nat)
    (hn : bs.length < n) (fuel tot : Nat) (hfuel : n ≤ tot + fuel)
    (htot : tot ≤ cutStart off bs.length) :
    writeLoop sb k (.user mem addr) n fuel tot (off + tot) =
      writeLoop sb k (.kernel bs) (cutStart off bs.length) fuel tot (off + tot) >>= fun r =>
        if r.1 < cutStart off bs.length then pure r
        else tear sb k (bs.drop (cutStart off bs.length)) (cutStart off bs.length)
          (off + cutStart off bs.length) := by
  have hle := cutStart_le off bs.length
  rcases cutStart_block off bs.length with ⟨hstart, hblock⟩
  generalize hq : cutStart off bs.length = q at htot hle hstart hblock ⊢
  induction fuel generalizing tot with
  | zero => omega
  | succ fuel ih =>
    unfold writeLoop
    rw [if_pos (by omega : tot < n)]
    by_cases hlt : tot < q
    · -- A block before the one in which the memory ends.
      have hmod : (off + tot) % BSIZE < BSIZE := Nat.mod_lt _ (by decide)
      have hm : min (n - tot) (BSIZE - (off + tot) % BSIZE) =
          min (q - tot) (BSIZE - (off + tot) % BSIZE) := by
        unfold BSIZE at hstart ⊢
        omega
      have hread := fetch_readable h.1 tot (min (q - tot) (BSIZE - (off + tot) % BSIZE))
        (by omega)
      have hkernel : (Source.kernel bs).fetch tot (min (q - tot) (BSIZE - (off + tot) % BSIZE)) =
          ((bs.drop tot).take (min (q - tot) (BSIZE - (off + tot) % BSIZE)), true) := rfl
      rw [if_pos hlt, hm, bind_assoc]
      simp only [hread, hkernel, if_true]
      refine congrArg (bmap sb k ((off + tot) / BSIZE) >>= ·) (funext fun a => ?_)
      by_cases ha : a = 0
      · rw [if_pos ha, if_pos ha]
        change _ = if tot < q then _ else _
        rw [if_pos hlt]
      · rw [if_neg ha, if_neg ha, bind_assoc]
        refine congrArg (bread a >>= ·) (funext fun d => ?_)
        rw [Nat.add_assoc, ih _ (by omega) (by omega)]
        simp only [bind_assoc]
    · -- The block in which the memory ends.
      have htot' : tot = q := by omega
      have hread := fetch_cut h q (min (n - q) (BSIZE - (off + q) % BSIZE)) hle (by omega)
      rw [htot', if_neg (Nat.lt_irrefl q)]
      simp only [hread, Bool.false_eq_true, if_false]
      change _ = if q < q then _ else _
      rw [if_neg (Nat.lt_irrefl q)]
      rfl

end Cuts

section Bytes

variable {sb : Superblock} {s s₀ s' : Kernel} {k : Fin NINODE}

theorem byteAt_blk (hA : AllocOk sb (pend sb s k)) (ht : (s.itable k).d.type ≠ 0) (o : Nat) :
    byteAt s.blk (s.itable k).d o = byte sb s k o := by
  have hptr : ∀ n, ptrOf s.blk (s.itable k).d n = ptr sb s k n :=
    ptrOf_congr _ _ _ _ (fun _ _ => rfl) (fun h12 => (indirect_inData hA ht h12).2.symm)
  unfold byte byteAt
  rw [hptr]
  change (if ptr sb s k _ = 0 then _ else _) = if ptr sb s k _ = 0 then _ else _
  by_cases hp : ptr sb s k (posOf (o / BSIZE)) = 0
  · rw [if_pos hp, if_pos hp]
  · have hself := pend_dino_self sb s k
    have hin := (ptr_used hA (s.itable k).inum (posOf (o / BSIZE)) (by rw [hself]; exact ht)
      (by rw [hself]; exact hp)).1
    rw [hself] at hin
    rw [if_neg hp, if_neg hp]
    exact congrArg (fun d => Bytes.get d _) (if_pos hin).symm

theorem Writing.forget {bs : List Byte} {off tot : Nat}
    (hW : Writing sb s₀ s k (.kernel bs) off tot) (mem : UserMem) (addr : BitVec 64) (tot' : Nat)
    (h : tot' ≤ tot) :
    Writing sb s₀ s k (.user mem addr) off tot' :=
  { hW with
    filled := fun o h₁ h₂ => hW.filled o h₁ (by omega)
    bytes := nofun }

end Bytes

section Track

variable {sb : Superblock} {s t : Kernel} {k : Fin NINODE} {α β : Type}

theorem stable_bind {x : M α} (hx : Paired x) (f : α → M β) {a : α}
    (h : run perform x s = .done (a, t)) : stable (x >>= f) s = stable (f a) t := by
  unfold stable
  rw [issued_bind_done perform x f s h, List.foldl_append, hx.track s h]

theorem stable_paired {x : M α} (hx : Paired x) {a : α}
    (h : run perform x s = .done (a, t)) : stable x s = t.blk := by
  unfold stable
  rw [hx.track s h]

theorem iupdate_track (st : Nat → Block) {a b : α}
    (h : run perform (iupdate sb k >>= fun _ => pure a) s = .done (b, t)) :
    ∃ d, t.blk = update s.blk (sb.iblock (s.itable k).inum) d ∧
      (issued perform (iupdate sb k >>= fun _ => pure a) s).foldl Cmd.track ⟨s.blk, st⟩ =
        ⟨t.blk, update st (sb.iblock (s.itable k).inum) d⟩ := by
  generalize hd : putDinode (s.blk (sb.iblock (s.itable k).inum)) ((s.itable k).inum % IPB)
    (s.itable k).d = d
  have hprog : run perform (.act (.logWrite (sb.iblock (s.itable k).inum)) (fun _ => .ret a))
      { s with blk := update s.blk (sb.iblock (s.itable k).inum) d } = .done (b, t) := by
    rw [← hd]
    exact h
  rcases logWrite_act_inv hprog with ⟨l, h₁, h₂⟩
  cases h₂
  refine ⟨d, rfl, ?_⟩
  change List.foldl _ _ (.inode k :: .bread (sb.iblock (s.itable k).inum) ::
    .bput (sb.iblock (s.itable k).inum) _ ::
      issued perform (.act (.logWrite (sb.iblock (s.itable k).inum)) (fun _ => .ret a)) _) = _
  rw [hd, h₁]
  simp only [List.foldl_cons, Cmd.track, update_self]
  rfl

theorem finish_track (st : Nat → Block) {r : Nat × Nat} {b : Int}
    (h : run perform (finish sb k r) s = .done (b, t)) :
    ∃ d, t.blk = update s.blk (sb.iblock (s.itable k).inum) d ∧
      (issued perform (finish sb k r) s).foldl Cmd.track ⟨s.blk, st⟩ =
        ⟨t.blk, update st (sb.iblock (s.itable k).inum) d⟩ := by
  have hget : run perform (getInode k) s = .done (s.itable k, s) := rfl
  by_cases hc : (s.itable k).d.size.toNat < r.2
  · have hset : ((s.modInode k (fun i => { i with
        d := { (s.itable k).d with size := BitVec.ofNat 32 r.2 } })).itable k).inum =
          (s.itable k).inum := by
      simp only [Kernel.modInode, update_self]
    unfold finish at h ⊢
    rw [run_getInode, if_pos hc, run_setInode] at h
    have := iupdate_track st h
    rw [hset] at this
    rw [issued_bind_done perform (getInode k) _ s hget, if_pos hc]
    exact this
  · unfold finish at h ⊢
    rw [run_getInode, if_neg hc] at h
    have := iupdate_track st h
    rw [issued_bind_done perform (getInode k) _ s hget, if_neg hc]
    exact this

end Track

/-- The bytes of the file outside of the `tot` bytes from offset `off` on are
    what they were, whichever copy of a block is read. `x` is the call, which
    leads from `s` to `s'`. -/
def Unharmed (x : M Int) (s s' : Kernel) (k : Fin NINODE) (off tot : Nat) : Prop :=
  (s.itable k).d.size.toNat ≤ (s'.itable k).d.size.toNat ∧
    ∀ view : Nat → Block, (∀ b, view b = s'.blk b ∨ view b = stable x s b) →
      ∀ o, o < (s.itable k).d.size.toNat → (o < off ∨ off + tot ≤ o) →
        byteAt view (s'.itable k).d o = byteAt s.blk (s.itable k).d o

section Harm

variable {sb : Superblock} {s s' s₁ : Kernel} {k : Fin NINODE} {x : M Int} {src : Source}
  {bs : List Byte} {off tot : Nat}

theorem Wrote.pend (h : Wrote sb s s' k) : Xv6.pend sb s' k = vol sb s'.blk := by
  unfold Xv6.pend
  rw [h.edit.inum, ← h.sync, update_eq_self]

/-- If nothing can be lost, the cache decides. -/
theorem unharmed_of_stable (hM : MapOk sb (pend sb s k)) (ht : (s.itable k).d.type ≠ 0)
    (hwr : Written sb s s' k src off tot) (hst : stable x s = s'.blk)
    (hbytes : ∀ o, (o < off ∨ off + tot ≤ o) → byte sb s' k o = byte sb s k o) :
    Unharmed x s s' k off tot := by
  refine ⟨by rw [hwr.size]; omega, fun view hview o _ hout => ?_⟩
  have hsame : view = s'.blk := by
    funext b
    rcases hview b with h | h
    · exact h
    · rw [h, hst]
  have hA : AllocOk sb (pend sb s' k) := by
    rw [hwr.toWrote.pend]
    exact hwr.map.toAllocOk
  rw [hsame, byteAt_blk hA (by rw [hwr.type]; exact ht), byteAt_blk hM.toAllocOk ht]
  exact hbytes o hout

/-- The last block that was touched holds bytes that were not reported written,
    and holds them in the cache only. -/
theorem unharmed_iff (hok : sb.Ok) (hM : MapOk sb (pend sb s k)) (ht : (s.itable k).d.type ≠ 0)
    (hwr : Written sb s s' k src off tot) (hW : Writing sb s s₁ k (.kernel bs) off tot)
    (htot : tot ≤ bs.length) (hblock : (off + tot) % BSIZE + (bs.length - tot) < BSIZE)
    (hp : ptr sb s' k (posOf ((off + tot) / BSIZE)) ≠ 0)
    (hp₁ : ptr sb s₁ k (posOf ((off + tot) / BSIZE)) = ptr sb s' k (posOf ((off + tot) / BSIZE)))
    (hbytes : ∀ o, byte sb s' k o =
      if off ≤ o ∧ o < off + bs.length then bs.getD (o - off) 0 else byte sb s k o)
    (hst : stable x s = update s'.blk (ptr sb s' k (posOf ((off + tot) / BSIZE)))
      (s₁.blk (ptr sb s' k (posOf ((off + tot) / BSIZE))))) :
    Unharmed x s s' k off tot ↔ ∀ i (h : i < bs.length), tot ≤ i →
      off + i < (s.itable k).d.size.toNat → bs[i] = byteAt s.blk (s.itable k).d (off + i) := by
  have ht' : (s'.itable k).d.type ≠ 0 := by
    rw [hwr.type]
    exact ht
  have ht₁ : (s₁.itable k).d.type ≠ 0 := by
    rw [hW.fields.type]
    exact ht
  have hM' : MapOk sb (pend sb s' k) := by
    rw [hwr.toWrote.pend]
    exact hwr.map
  have hself := pend_dino_self sb s' k
  have hin : InData sb (ptr sb s' k (posOf ((off + tot) / BSIZE))) := by
    have := (ptr_used hM'.toAllocOk (s'.itable k).inum (posOf ((off + tot) / BSIZE))
      (by rw [hself]; exact ht') (by rw [hself]; exact hp)).1
    rw [hself] at this
    exact this
  have hnow : ∀ o, byteAt s'.blk (s'.itable k).d o = byte sb s' k o :=
    byteAt_blk hM'.toAllocOk ht'
  have hold : ∀ o, byteAt s.blk (s.itable k).d o = byte sb s k o := byteAt_blk hM.toAllocOk ht
  constructor
  · intro h i hi hle hlt
    have hview := h.2 s'.blk (fun b => Or.inl rfl) (off + i) hlt (Or.inr (by omega))
    rw [hnow, hbytes, if_pos (by omega), Nat.add_sub_cancel_left,
      List.getD_eq_getElem _ _ hi] at hview
    exact hview
  · intro h
    refine ⟨by rw [hwr.size]; omega, fun view hview o ho hout => ?_⟩
    rw [hold]
    -- All blocks but one have one copy.
    by_cases hone : view (ptr sb s' k (posOf ((off + tot) / BSIZE))) =
        s'.blk (ptr sb s' k (posOf ((off + tot) / BSIZE)))
    · have hsame : view = s'.blk := by
        funext b
        rcases hview b with hb | hb
        · exact hb
        · by_cases hc : b = ptr sb s' k (posOf ((off + tot) / BSIZE))
          · rw [hc]
            exact hone
          · rw [hb, hst, update_of_ne hc]
      rw [hsame, hnow, hbytes]
      by_cases hr : off ≤ o ∧ o < off + bs.length
      · have hi := h (o - off) (by omega) (by omega) (by omega)
        rw [show off + (o - off) = o by omega, hold] at hi
        rw [if_pos hr, List.getD_eq_getElem _ _ (by omega), hi]
      · rw [if_neg hr]
    · -- The block is read from disk again, where it is as it was before.
      have hsame : view = stable x s := by
        funext b
        rcases hview b with hb | hb
        · by_cases hc : b = ptr sb s' k (posOf ((off + tot) / BSIZE))
          · rw [hc] at hb
            exact absurd hb hone
          · rw [hb, hst, update_of_ne hc]
        · exact hb
      rcases @put_block sb s' { s' with blk := stable x s } k hok hM' ht' _ hp hin
        (s₁.blk (ptr sb s' k (posOf ((off + tot) / BSIZE)))) (by rw [hst]) (LogSame.refl _)
        with ⟨-, -, hM'', -, -, hbyte⟩
      have hre := @byteAt_blk sb { s' with blk := stable x s } k hM''.toAllocOk ht' o
      rw [hsame]
      refine hre.trans ?_
      rw [hbyte]
      by_cases hdiv : o / BSIZE = (off + tot) / BSIZE
      · have hp₁' : ptr sb s₁ k (posOf (o / BSIZE)) =
            ptr sb s' k (posOf ((off + tot) / BSIZE)) := by
          rw [hdiv]
          exact hp₁
        have hthen := @byte_of_ptr sb s₁ k o (by rw [hp₁']; exact hp) (by rw [hp₁']; exact hin)
        rw [hp₁'] at hthen
        rw [if_pos hdiv, ← hthen, hW.bytes bs rfl, if_neg (by omega)]
      · have hr : ¬(off ≤ o ∧ o < off + bs.length) := by
          unfold BSIZE at hdiv hblock
          omega
        rw [if_neg hdiv, hbytes, if_neg hr]

theorem finish_stopped (hok : sb.Ok) (hop : 1 ≤ s.log.outstanding) (hM : MapOk sb (pend sb s k))
    (ht : (s.itable k).d.type ≠ 0) (hoff : off ≤ (s.itable k).d.size.toNat)
    (hmax : off + tot ≤ MAXFILE * BSIZE) (hW : Writing sb s s₁ k (.kernel bs) off tot)
    (hno : NoBlock sb s₁ k (off + tot)) {a : Int}
    (hrun : run perform (finish sb k (tot, off + tot)) s₁ = .done (a, s'))
    (hst : stable x s = stable (finish sb k (tot, off + tot)) s₁) :
    a = tot ∧ NoBlock sb s' k (off + tot) ∧ Unharmed x s s' k off tot := by
  have hop₁ : 1 ≤ s₁.log.outstanding := by
    rw [hW.edit.log.outstanding]
    exact hop
  have ht₁ : (s₁.itable k).d.type ≠ 0 := by
    rw [hW.fields.type]
    exact ht
  have hlast := stable_paired (layered_paired.finish sb k _) hrun
  refine wpk_result (finish_wp (E := fun _ => True) hok trivial hop₁ ht₁ hoff hmax hW
    (fun a s' => stable x s = s'.blk → a = tot ∧ NoBlock sb s' k (off + tot) ∧
      Unharmed x s s' k off tot)
    (fun s' hwr hnone _ hbyte hst' => ⟨rfl, hnone _ hno, ?_⟩)) hrun (hst.trans hlast)
  refine unharmed_of_stable hM ht hwr hst' (fun o hout => ?_)
  rw [hbyte, hW.bytes bs rfl, if_neg (by omega)]

/-- What is left to do after a copy that failed. -/
theorem finish_torn (hok : sb.Ok) (hop : 1 ≤ s.log.outstanding) (hM : MapOk sb (pend sb s k))
    (ht : (s.itable k).d.type ≠ 0) (hoff : off ≤ (s.itable k).d.size.toNat)
    (hmax : off + tot ≤ MAXFILE * BSIZE) (hW : Writing sb s s₁ k (.kernel bs) off tot)
    (htot : tot ≤ bs.length) (hblock : (off + tot) % BSIZE + (bs.length - tot) < BSIZE)
    (hp : ptr sb s₁ k (posOf ((off + tot) / BSIZE)) ≠ 0) {a : Int} {s₂ : Kernel}
    (hs₂ : s₂ = { s₁ with
      blk := update s₁.blk (ptr sb s₁ k (posOf ((off + tot) / BSIZE)))
        (Bytes.splice (s₁.blk (ptr sb s₁ k (posOf ((off + tot) / BSIZE)))) ((off + tot) % BSIZE)
          (bs.drop tot)) })
    (hrun : run perform (finish sb k (tot, off + tot)) s₂ = .done (a, s'))
    (hst : stable x s = ((issued perform (finish sb k (tot, off + tot)) s₂).foldl Cmd.track
      ⟨s₂.blk, s₁.blk⟩).stable) :
    a = tot ∧ ptr sb s' k (posOf ((off + tot) / BSIZE)) ≠ 0 ∧
      (Unharmed x s s' k off tot ↔ ∀ i (h : i < bs.length), tot ≤ i →
        off + i < (s.itable k).d.size.toNat →
        bs[i] = byteAt s.blk (s.itable k).d (off + i)) := by
  have ht₁ : (s₁.itable k).d.type ≠ 0 := by
    rw [hW.fields.type]
    exact ht
  have hself := pend_dino_self sb s₁ k
  have hin : InData sb (ptr sb s₁ k (posOf ((off + tot) / BSIZE))) := by
    have := (ptr_used hW.map.toAllocOk (s₁.itable k).inum (posOf ((off + tot) / BSIZE))
      (by rw [hself]; exact ht₁) (by rw [hself]; exact hp)).1
    rw [hself] at this
    exact this
  -- As far as the blocks go, everything up to the end of the memory was written.
  have hW₂ : Writing sb s s₂ k (.kernel bs) off bs.length := by
    have := hW.block hok ht₁ (bs.length - tot) (bs.drop tot) hp hin (by omega)
      (fun bs' hbs => ?_) s₁.log (LogSame.refl _)
    · rw [show tot + (bs.length - tot) = bs.length by omega] at this
      rw [hs₂]
      exact this
    · rw [← Source.kernel.inj hbs]
      refine ⟨(List.take_of_length_le ?_).symm, by omega⟩
      rw [List.length_drop]
  have hptr₂ : ptr sb s₂ k (posOf ((off + tot) / BSIZE)) =
      ptr sb s₁ k (posOf ((off + tot) / BSIZE)) := by
    refine (@put_block sb s₁ s₂ k hok hW.map ht₁ _ hp hin _ (by rw [hs₂]) ?_).2.2.2.2.1 _
    rw [hs₂]
    exact LogSame.refl _
  have hop₂ : 1 ≤ s₂.log.outstanding := by
    rw [hW₂.edit.log.outstanding]
    exact hop
  have ht₂ : (s₂.itable k).d.type ≠ 0 := by
    rw [hW₂.fields.type]
    exact ht
  rcases finish_track s₁.blk hrun with ⟨d, hblk, htrack⟩
  rw [htrack] at hst
  -- The inode is in another block.
  have hne : ptr sb s₁ k (posOf ((off + tot) / BSIZE)) ≠ sb.iblock (s₂.itable k).inum := by
    have hself₂ := pend_dino_self sb s₂ k
    have hi := hW₂.map.range _ (by rw [hself₂]; exact ht₂)
    have h₁ := iblock_lt_datastart hok hi
    have h₂ := hin.1
    omega
  have hst' : stable x s = update s'.blk (ptr sb s₁ k (posOf ((off + tot) / BSIZE)))
      (s₁.blk (ptr sb s₁ k (posOf ((off + tot) / BSIZE)))) := by
    have hblk₂ : s₂.blk = update s₁.blk (ptr sb s₁ k (posOf ((off + tot) / BSIZE)))
        (Bytes.splice (s₁.blk (ptr sb s₁ k (posOf ((off + tot) / BSIZE)))) ((off + tot) % BSIZE)
          (bs.drop tot)) := by rw [hs₂]
    rw [hst, hblk, hblk₂]
    change update s₁.blk _ d = _
    rw [update_comm hne, update_idem, update_comm hne.symm,
      update_eq_self]
  refine wpk_result (finish_wp (E := fun _ => True) hok trivial hop₂ ht₂ hoff hmax
    (hW₂.forget (fun _ => none) 0 tot htot)
    (fun a s' => stable x s = update s'.blk (ptr sb s₁ k (posOf ((off + tot) / BSIZE)))
        (s₁.blk (ptr sb s₁ k (posOf ((off + tot) / BSIZE)))) →
      a = tot ∧ ptr sb s' k (posOf ((off + tot) / BSIZE)) ≠ 0 ∧ (Unharmed x s s' k off tot ↔ _))
    (fun s' hwr _ hptr hbyte hst' => ?_)) hrun hst'
  have hp' := (hptr (posOf ((off + tot) / BSIZE))).trans hptr₂
  refine ⟨rfl, by rw [hp']; exact hp, unharmed_iff hok hM ht hwr hW htot hblock
    (by rw [hp']; exact hp) hp'.symm (fun o => ?_) (by rw [hp']; exact hst')⟩
  rw [hbyte, hW₂.bytes bs rfl]

/-- A write that fails, as a sequence. -/
theorem writei_tear {mem : UserMem} {addr : BitVec 64} (hcut : Cut mem addr bs)
    (off n : BitVec 32) (hn : bs.length < n.toNat) (hgood : ¬BadRange s k off n) :
    ∃ x : M Int,
      x = (writeLoop sb k (.kernel bs) (cutStart off.toNat bs.length) n.toNat 0 off.toNat >>=
        fun r => (if r.1 < cutStart off.toNat bs.length then pure r
          else tear sb k (bs.drop (cutStart off.toNat bs.length)) (cutStart off.toNat bs.length)
            (off.toNat + cutStart off.toNat bs.length)) >>= finish sb k) ∧
      run perform (writei sb k (.user mem addr) off n) s = run perform x s ∧
      stable (writei sb k (.user mem addr) off n) s = stable x s := by
  have hloop := writeLoop_tear sb k hcut n.toNat off.toNat hn n.toNat 0 (by omega) (Nat.zero_le _)
  rw [Nat.add_zero] at hloop
  have hboth := fun h => hgood ((badRange_iff off n).mp h)
  have hout : ¬((s.itable k).d.size < off ∨ off + n < off) := fun h => hboth (Or.inl h)
  have hbig : ¬MAXFILE * BSIZE < (off + n).toNat := fun h => hboth (Or.inr h)
  have hget : run perform (getInode k) s = .done (s.itable k, s) := rfl
  rw [← bind_assoc, ← hloop]
  refine ⟨_, rfl, ?_, ?_⟩
  · unfold writei
    rw [run_getInode, if_neg hout, if_neg hbig]
    rfl
  · unfold stable writei
    rw [issued_bind_done perform (getInode k) _ s hget, if_neg hout, if_neg hbig]
    rfl

end Harm

/-- A write from user memory that ends in the middle. It is refused, the log is
    full, there is no block for the part that comes next, or it stops in front
    of the block in which the memory ends. In the last case the bytes that it
    did not report are unharmed exactly if the bytes before the end of the
    memory are the same as those already there. -/
theorem writei_partial (sb : Superblock) (hok : sb.Ok) (s : Kernel) (k : Fin NINODE)
    (hop : 1 ≤ s.log.outstanding) (hM : MapOk sb (pend sb s k)) (ht : (s.itable k).d.type ≠ 0)
    (mem : UserMem) (addr : BitVec 64) (bs : List Byte) (hcut : Cut mem addr bs)
    (off n : BitVec 32) (hn : bs.length < n.toNat) :
    BadRange s k off n ∧
      Prog.run perform (writei sb k (.user mem addr) off n) s = .done (-1, s) ∨
    Prog.run perform (writei sb k (.user mem addr) off n) s = .panic .tooBigTransaction ∨
    ∃ (tot : Nat) (s' : Kernel),
      Prog.run perform (writei sb k (.user mem addr) off n) s = .done ((tot : Int), s') ∧
      tot < n.toNat ∧
      (NoBlock sb s' k (off.toNat + tot) ∧
          Unharmed (writei sb k (.user mem addr) off n) s s' k off.toNat tot ∨
        tot = cutStart off.toNat bs.length ∧
          ptr sb s' k (posOf ((off.toNat + tot) / BSIZE)) ≠ 0 ∧
          (Unharmed (writei sb k (.user mem addr) off n) s s' k off.toNat tot ↔
            ∀ i (h : i < bs.length), cutStart off.toNat bs.length ≤ i →
              off.toNat + i < (s.itable k).d.size.toNat →
              bs[i] = byteAt s.blk (s.itable k).d (off.toNat + i))) := by
  by_cases hbad : BadRange s k off n
  · exact Or.inl ⟨hbad, writei_bad _ hbad⟩
  right
  by_cases hbig : run perform (writei sb k (.user mem addr) off n) s =
      .panic .tooBigTransaction
  · exact Or.inl hbig
  right
  rcases run_of_wpk (writei_wp (E := fun e => e = .tooBigTransaction) hok rfl hop hM ht
    (.user mem addr) off n (nofun) (fun _ _ => True) (fun _ => trivial)
    (fun _ _ _ _ _ _ _ _ => trivial))
    (writei_not_wait sb k _ off n s)
    (fun e he => by rw [he]; exact hbig) with ⟨a, s', hrun, -⟩
  have hle := cutStart_le off.toNat bs.length
  have hblock := (cutStart_block off.toNat bs.length).2
  have hoff : off.toNat ≤ (s.itable k).d.size.toNat :=
    Nat.le_of_not_lt (fun hc => hbad (Or.inl hc))
  have hmax : off.toNat + n.toNat ≤ MAXFILE * BSIZE :=
    Nat.le_of_not_lt (fun hc => hbad (Or.inr (Or.inr hc)))
  rcases @writei_tear sb s k bs mem addr hcut off n hn hbad with ⟨x, hx, hsame, hst⟩
  generalize writei sb k (.user mem addr) off n = y at hrun hsame hst ⊢
  rw [hrun, hx] at hsame
  rw [hx] at hst
  generalize hq : cutStart off.toNat bs.length = q at hle hblock hsame hst ⊢
  rcases run_bind_inv hsame.symm with ⟨r, s₁, hloop, hrest⟩
  rw [stable_bind (paired_writeLoop sb k bs q n.toNat 0 off.toNat) _ hloop] at hst
  -- The part of the loop that succeeds.
  have hL : ∃ tot, r = (tot, off.toNat + tot) ∧ tot ≤ q ∧
      (tot < q → NoBlock sb s₁ k (off.toNat + tot)) ∧
      Writing sb s s₁ k (.kernel bs) off.toNat tot := by
    refine wpk_result (@writeLoop_wp sb s s k (fun _ => True) (.kernel bs) off.toNat 0 hok trivial q
      (by omega) (fun xs hxs => by rw [← Source.kernel.inj hxs]; exact hle)
      (fun r s₁ => ∃ tot, r = (tot, off.toNat + tot) ∧ tot ≤ q ∧
        (tot < q → NoBlock sb s₁ k (off.toNat + tot)) ∧
        Writing sb s s₁ k (.kernel bs) off.toNat tot) n.toNat (by omega) (Nat.zero_le _)
      (Or.inl rfl) hop ht (Writing.start hM _ _) (fun s₁ tot htot _ _ hnone hW =>
        ⟨tot, rfl, htot, hnone bs rfl, hW⟩)) hloop
  rcases hL with ⟨tot, rfl, htot, hnone, hW⟩
  rcases Nat.eq_or_lt_of_le htot with heq | hlt
  · -- The block in which the memory ends.
    rw [heq] at hW hrest hst
    rw [if_neg (Nat.lt_irrefl q)] at hrest hst
    unfold tear at hrest hst
    rw [bind_assoc] at hrest hst
    rcases run_bind_inv hrest with ⟨b, s₂, hbmap, hrest⟩
    rw [stable_bind (layered_paired.bmap sb k _) _ hbmap] at hst
    have ht₁ : (s₁.itable k).d.type ≠ 0 := by
      rw [hW.fields.type]
      exact ht
    have hop₁ : 1 ≤ s₁.log.outstanding := by
      rw [hW.edit.log.outstanding]
      exact hop
    have hbn : (off.toNat + q) / BSIZE < MAXFILE :=
      Nat.div_lt_of_lt_mul (by rw [Nat.mul_comm]; omega)
    have hB : Grow sb s₁ s₂ k ∧ (b = 0 ∧ NoBlock sb s₂ k (off.toNat + q) ∨
        b ≠ 0 ∧ b = ptr sb s₂ k (posOf ((off.toNat + q) / BSIZE))) :=
      wpk_result (bmap_wp (E := fun _ => True) hok trivial hop₁ hW.map ht₁ _ hbn
        (fun b s₂ => Grow sb s₁ s₂ k ∧ (b = 0 ∧ NoBlock sb s₂ k (off.toNat + q) ∨
          b ≠ 0 ∧ b = ptr sb s₂ k (posOf ((off.toNat + q) / BSIZE))))
        (fun s₂ hg hall hmiss => ⟨hg, Or.inl ⟨rfl, hall, hmiss⟩⟩)
        (fun s₂ hg hp => ⟨hg, Or.inr ⟨hp, rfl⟩⟩)) hbmap
    rcases hB with ⟨hg, ⟨hb, hno⟩ | ⟨hb, hptr⟩⟩
    · rw [if_pos hb] at hrest hst
      rcases finish_stopped hok hop hM ht hoff (by omega) (hW.grow hg) hno hrest hst
        with ⟨ha, hno', hun⟩
      rw [ha] at hrun
      exact ⟨q, s', hrun, by omega, Or.inl ⟨hno', hun⟩⟩
    · rw [if_neg hb] at hrest hst
      rw [hptr] at hb hrest hst
      rcases finish_torn hok hop hM ht hoff (by omega) (hW.grow hg) hle hblock hb rfl hrest hst
        with ⟨ha, hp', hiff⟩
      rw [ha] at hrun
      exact ⟨q, s', hrun, by omega, Or.inr ⟨rfl, hp', hiff⟩⟩
  · rw [if_pos hlt] at hrest hst
    rcases finish_stopped hok hop hM ht hoff (by omega) hW (hnone hlt) hrest hst
      with ⟨ha, hno', hun⟩
    rw [ha] at hrun
    exact ⟨tot, s', hrun, by omega, Or.inl ⟨hno', hun⟩⟩

/-- The kernel in a transaction, with a file of two zero bytes, in block 46, as
    entry 0 of its table. -/
def twoBytes : Kernel :=
  { (bootKernel mkfsSb (fun _ _ => 0)).modInode ⟨0, ninode_pos⟩ (fun i =>
      { i with d := { Dinode.zero with type := T_FILE, size := 2 }.setAddr 0 46 }) with
    log := { Log.initlog mkfsSb with outstanding := 1 } }

/-- One page of user memory. -/
def lowPage : UserMem := fun a => if a < 0x1000 then some 7 else none

/-- Two bytes are written from the last byte of a page on. `writei` reports that
    nothing was written, but the first byte of the file is the one copied, until
    the block is read from disk again. -/
theorem writei_tears : ∃ s', Prog.run perform
      (writei mkfsSb ⟨0, by decide⟩ (.user lowPage 0xfff) 0 2) twoBytes = .done (0, s') ∧
    byteAt twoBytes.blk (twoBytes.itable ⟨0, by decide⟩).d 0 = 0 ∧
    byteAt s'.blk (s'.itable ⟨0, by decide⟩).d 0 = 7 ∧
    byteAt (stable (writei mkfsSb ⟨0, by decide⟩ (.user lowPage 0xfff) 0 2) twoBytes)
      (s'.itable ⟨0, by decide⟩).d 0 = 0 ∧
    ¬Unharmed (writei mkfsSb ⟨0, by decide⟩ (.user lowPage 0xfff) 0 2) twoBytes s'
      ⟨0, by decide⟩ 0 0 := by
  have hold : byteAt twoBytes.blk (twoBytes.itable ⟨0, by decide⟩).d 0 = 0 := by decide +kernel
  rcases Outcome.exists_of_decide (fun r : Int × Kernel => r.1 = 0 ∧
      byteAt r.2.blk (r.2.itable ⟨0, by decide⟩).d 0 = 7 ∧
      byteAt (stable (writei mkfsSb ⟨0, by decide⟩ (.user lowPage 0xfff) 0 2) twoBytes)
        (r.2.itable ⟨0, by decide⟩).d 0 = 0)
    (run perform (writei mkfsSb ⟨0, by decide⟩ (.user lowPage 0xfff) 0 2) twoBytes)
    (by decide +kernel) with ⟨⟨a, s'⟩, hrun, ha, hnow, hdisk⟩
  change a = 0 at ha
  rw [ha] at hrun
  refine ⟨s', hrun, hold, hnow, hdisk, fun h => ?_⟩
  have hbyte := h.2 s'.blk (fun b => Or.inl rfl) 0 (by decide) (Or.inr (Nat.le_refl 0))
  rw [hold] at hbyte
  change byteAt s'.blk (s'.itable ⟨0, by decide⟩).d 0 = 7 at hnow
  rw [hnow] at hbyte
  exact nomatch hbyte

end Xv6
