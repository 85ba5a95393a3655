import Xv6.Fs.Map
import Xv6.Fs.Uses

/-!
# Reading and Writing Files

`readi` and `writei`.

Reading a file that has no holes only finds blocks, so it changes nothing and
needs no transaction. Writing goes through the file block by block; it can stop
early when there is no block left or when the source ends, and then the part
before that has been written. `Writing` is the invariant of that loop, and
`writei_wp` the summary of the whole function.
-/

namespace Xv6

open Function List

section Read

variable {sb : Superblock} {s : Kernel} {k : Fin NINODE} {E : Panic → Prop}

theorem ptr_below (hM : MapOk sb (pend sb s k)) (ht : (s.itable k).d.type ≠ 0) (o : Nat)
    (ho : o < (s.itable k).d.size.toNat) :
    o / BSIZE < MAXFILE ∧ ptr sb s k (posOf (o / BSIZE)) ≠ 0 ∧
      InData sb (ptr sb s k (posOf (o / BSIZE))) := by
  have hself := pend_dino_self sb s k
  have hmax := hM.maxSize (s.itable k).inum (by rw [hself]; exact ht)
  have hp := hM.holes (s.itable k).inum (by rw [hself]; exact ht) (o / BSIZE)
    (by rw [hself]; exact Nat.lt_of_le_of_lt (Nat.div_mul_le_self o BSIZE) ho)
  have hin := (ptr_used hM.toAllocOk _ _ (by rw [hself]; exact ht) hp).1
  rw [hself] at hmax hp hin
  exact ⟨Nat.div_lt_of_lt_mul (by rw [Nat.mul_comm]; omega), hp, hin⟩

theorem readLoop_wp (hM : MapOk sb (pend sb s k)) (ht : (s.itable k).d.type ≠ 0) (dst : Dest)
    (n off : Nat) (hn : off + n ≤ (s.itable k).d.size.toNat) (Q : Int × List Byte → Kernel → Prop)
    (fuel tot : Nat) (hfuel : n ≤ tot + fuel) (htot : tot ≤ n)
    (h : ∀ (r : Int) bs, -1 ≤ r → r ≤ n → (dst = .kernel → r = n ∧
      bs = ((contents (vol sb s.blk).data (s.itable k).d).drop off).take n) → Q (r, bs) s) :
    wpk E (readLoop sb k dst n fuel tot (off + tot)
      (((contents (vol sb s.blk).data (s.itable k).d).drop off).take tot)) Q s := by
  induction fuel generalizing tot with
  | zero =>
    unfold readLoop
    rw [wp_pure, show tot = n by omega]
    exact h n _ (by omega) (by omega) (fun _ => ⟨rfl, rfl⟩)
  | succ fuel ih =>
    unfold readLoop
    by_cases hlt : tot < n
    · rcases ptr_below hM ht (off + tot) (by omega) with ⟨hbn, hp, hin⟩
      rw [if_pos hlt, wp_bind]
      refine bmap_hit hM.toAllocOk ht hbn hp ?_
      rw [if_neg hp, wp_bind, wp_bread]
      generalize hm : min (n - tot) (BSIZE - (off + tot) % BSIZE) = m
      have hmod : (off + tot) % BSIZE < BSIZE := Nat.mod_lt _ (by decide)
      by_cases hacc : dst.accepts tot m = true
      · have hslice := slice_contents (vol sb s.blk).data (s.itable k).d (off + tot) m
          (by omega) (by omega) hp
        have hblk : (vol sb s.blk).data (ptr sb s k (posOf ((off + tot) / BSIZE))) =
            s.blk (ptr sb s k (posOf ((off + tot) / BSIZE))) := if_pos hin
        rw [show ptrOf (vol sb s.blk).data (s.itable k).d (posOf ((off + tot) / BSIZE)) =
          ptr sb s k (posOf ((off + tot) / BSIZE)) from rfl, hblk, ← drop_drop] at hslice
        rw [if_pos hacc, hslice, ← take_add, Nat.add_assoc]
        exact ih (tot + m) (by omega) (by omega)
      · rw [if_neg hacc, wp_pure]
        refine h (-1) _ (by omega) (by omega) (fun hdst => absurd ?_ hacc)
        rw [hdst]
        rfl
    · rw [if_neg hlt, wp_pure, show tot = n by omega]
      exact h n _ (by omega) (by omega) (fun _ => ⟨rfl, rfl⟩)

/-- `readi` changes nothing. What it copies to kernel memory are the bytes of
    the file in the range asked for, as far as the file goes. -/
theorem readi_wp (hM : MapOk sb (pend sb s k)) (ht : (s.itable k).d.type ≠ 0) (dst : Dest)
    (off n : BitVec 32) (Q : Int × List Byte → Kernel → Prop)
    (h : ∀ (r : Int) bs, -1 ≤ r → r ≤ n.toNat →
      (dst = .kernel → off.toNat + n.toNat < 2 ^ 32 → r = bs.length ∧
        bs = ((contents (vol sb s.blk).data (s.itable k).d).drop off.toNat).take n.toNat) →
      Q (r, bs) s) :
    wpk E (readi sb k dst off n) Q s := by
  have hlen := length_contents (vol sb s.blk).data (s.itable k).d
  unfold readi
  rw [wp_bind, wp_getInode]
  by_cases hout : (s.itable k).d.size < off ∨ off + n < off
  · rw [if_pos hout, wp_pure]
    refine h 0 [] (by omega) (by omega) (fun _ hov => ⟨rfl, ?_⟩)
    rcases hout with hout | hout
    · have hlt : (s.itable k).d.size.toNat < off.toNat := hout
      rw [drop_of_length_le (by omega), take_nil]
    · have hlt : (off + n).toNat < off.toNat := hout
      rw [BitVec.toNat_add, Nat.mod_eq_of_lt hov] at hlt
      omega
  · rw [if_neg hout]
    have hle : off.toNat ≤ (s.itable k).d.size.toNat := by
      have := fun hc => hout (Or.inl hc)
      exact Nat.le_of_not_lt this
    have hov := toNat_add_of_not_lt (fun hc => hout (Or.inr hc))
    generalize hn' : (if (s.itable k).d.size < off + n then (s.itable k).d.size - off else n) = n'
    have hval : n'.toNat = min n.toNat ((s.itable k).d.size.toNat - off.toNat) :=
      hn' ▸ toNat_clip hle hov
    have hloop := @readLoop_wp sb s k E hM ht dst n'.toNat off.toNat (by omega) Q n'.toNat 0
      (by omega) (by omega) (fun r bs h₁ h₂ hk => h r bs h₁ (by omega) (fun hdst _ => ?_))
    · exact hloop
    · rcases hk hdst with ⟨hr, hbs⟩
      have hfull : ((contents (vol sb s.blk).data (s.itable k).d).drop off.toNat).take n'.toNat =
          ((contents (vol sb s.blk).data (s.itable k).d).drop off.toNat).take n.toNat := by
        rw [take_eq_take_iff, length_drop, hlen]
        omega
      refine ⟨?_, hbs.trans hfull⟩
      rw [hr, hbs, length_take, length_drop, hlen]
      omega

end Read

/-- The loop of `writei` has written `tot` bytes from offset `off` on. What it
    has written is only known where the source is kernel memory: a copy from
    user memory can fail half way through a block. -/
structure Writing (sb : Superblock) (s₀ s : Kernel) (k : Fin NINODE) (src : Source)
    (off tot : Nat) : Prop where
  edit : Edit s₀ s k
  map : MapOk sb (pend sb s k)
  dino : (vol sb s.blk).dino = (vol sb s₀.blk).dino
  fields : (s₀.itable k).d.SameFields (s.itable k).d
  others : ∀ j, j ≠ (s₀.itable k).inum → node (pend sb s k) j = node (pend sb s₀ k) j
  filled : ∀ o, off ≤ o → o < off + tot → ptr sb s k (posOf (o / BSIZE)) ≠ 0
  bytes : ∀ bs, src = .kernel bs → ∀ o, byte sb s k o =
    if off ≤ o ∧ o < off + tot then bs.getD (o - off) 0 else byte sb s₀ k o

section Write

variable {sb : Superblock} {s₀ s s' : Kernel} {k : Fin NINODE} {E : Panic → Prop}
  {src : Source} {off tot : Nat}

theorem Writing.start (hM : MapOk sb (pend sb s k)) (src : Source) (off : Nat) :
    Writing sb s s k src off 0 := by
  refine ⟨Edit.refl s k, hM, rfl, Dinode.SameFields.refl _, fun _ _ => rfl, fun o h₁ h₂ => ?_,
    fun bs _ o => ?_⟩
  · omega
  · rw [if_neg (by omega)]

theorem Writing.grow (hW : Writing sb s₀ s k src off tot) (hg : Grow sb s s' k) :
    Writing sb s₀ s' k src off tot := by
  refine ⟨hW.edit.trans hg.edit, hg.map, hg.dino.trans hW.dino, hW.fields.trans hg.fields,
    fun j hj => (hg.nodes j).trans (hW.others j hj), fun o h₁ h₂ => ?_, fun bs hbs o => ?_⟩
  · have hp := hW.filled o h₁ h₂
    rw [hg.ptrs _ hp]
    exact hp
  · rw [hg.bytes, hW.bytes bs hbs]

theorem byte_of_ptr (o : Nat) (hp : ptr sb s k (posOf (o / BSIZE)) ≠ 0)
    (hin : InData sb (ptr sb s k (posOf (o / BSIZE)))) :
    byte sb s k o = Bytes.get (s.blk (ptr sb s k (posOf (o / BSIZE)))) (o % BSIZE) := by
  have hdata : (vol sb s.blk).data (ptr sb s k (posOf (o / BSIZE))) =
      s.blk (ptr sb s k (posOf (o / BSIZE))) := if_pos hin
  unfold byte byteAt
  rw [← hdata]
  exact if_neg hp

theorem put_block (hok : sb.Ok) (hM : MapOk sb (pend sb s k)) (ht : (s.itable k).d.type ≠ 0)
    (bn : Nat) (hp : ptr sb s k (posOf bn) ≠ 0) (hin : InData sb (ptr sb s k (posOf bn)))
    (x : Block) (hs : s' = { s with
      blk := update s.blk (ptr sb s k (posOf bn)) x, log := s'.log })
    (hl : LogSame s.log s'.log) :
    Edit s s' k ∧ (vol sb s'.blk).dino = (vol sb s.blk).dino ∧ MapOk sb (pend sb s' k) ∧
      (∀ j, j ≠ (s.itable k).inum → node (pend sb s' k) j = node (pend sb s k) j) ∧
      (∀ n, ptr sb s' k n = ptr sb s k n) ∧
      ∀ o, byte sb s' k o =
        if o / BSIZE = bn then Bytes.get x (o % BSIZE) else byte sb s k o := by
  have hself := pend_dino_self sb s k
  have hblk : s'.blk = update s.blk (ptr sb s k (posOf bn)) x := by rw [hs]
  have hU : Upd sb s s' { vol sb s.blk with
      data := update (vol sb s.blk).data (ptr sb s k (posOf bn)) x } := by
    refine ⟨?_, hl, ?_⟩
    · rw [hblk]
      exact hs
    · rw [hblk]
      exact vol_data hok s.blk _ hin _
  have hpend := pend_upd hU rfl k
  rcases @mapOk_write sb _ (pend sb s' k) hM (s.itable k).inum bn x (by rw [hself]; exact ht)
    (by rw [hself]; exact hp) (by rw [hpend, hself]; rfl) with ⟨hM', hothers, hptrs, hbytes⟩
  rw [hself] at hptrs hbytes
  refine ⟨Edit.ofUpd hU k, by rw [hU.vol], hM', hothers, fun n => ?_, fun o => ?_⟩
  · unfold ptr
    rw [hU.itable]
    exact hptrs n
  · unfold byte
    rw [hU.itable]
    exact hbytes o

/-- One block is written, `xs` being what has been copied into it. -/
theorem Writing.block (hok : sb.Ok) (hW : Writing sb s₀ s k src off tot)
    (ht : (s.itable k).d.type ≠ 0) (m : Nat) (xs : List Byte)
    (hp : ptr sb s k (posOf ((off + tot) / BSIZE)) ≠ 0)
    (hin : InData sb (ptr sb s k (posOf ((off + tot) / BSIZE))))
    (hm : (off + tot) % BSIZE + m ≤ BSIZE)
    (hxs : ∀ bs, src = .kernel bs → xs = (bs.drop tot).take m ∧ tot + m ≤ bs.length)
    (l : Log) (hl : LogSame s.log l) :
    Writing sb s₀ { s with
      blk := update s.blk (ptr sb s k (posOf ((off + tot) / BSIZE)))
        (Bytes.splice (s.blk (ptr sb s k (posOf ((off + tot) / BSIZE)))) ((off + tot) % BSIZE) xs)
      log := l } k src off (tot + m) := by
  rcases @put_block sb s { s with
      blk := update s.blk (ptr sb s k (posOf ((off + tot) / BSIZE)))
        (Bytes.splice (s.blk (ptr sb s k (posOf ((off + tot) / BSIZE)))) ((off + tot) % BSIZE) xs)
      log := l } k hok hW.map ht _ hp hin _ rfl hl
    with ⟨hedit, hdino, hM', hothers, hptr, hbyte⟩
  refine ⟨hW.edit.trans hedit, hM', hdino.trans hW.dino, hW.fields, fun j hj => ?_,
    fun o h₁ h₂ => ?_, fun bs hbs o => ?_⟩
  · rw [← hW.others j hj]
    exact hothers j (by rw [hW.edit.inum]; exact hj)
  · rw [hptr]
    by_cases ho : o < off + tot
    · exact hW.filled o h₁ ho
    · have hdiv : o / BSIZE = (off + tot) / BSIZE := by
        unfold BSIZE at hm ⊢
        omega
      rw [hdiv]
      exact hp
  · rcases hxs bs hbs with ⟨rfl, hlen⟩
    have hlen' : ((bs.drop tot).take m).length = m := by
      rw [length_take, length_drop]
      omega
    rw [hbyte]
    by_cases hdiv : o / BSIZE = (off + tot) / BSIZE
    · rw [if_pos hdiv, Bytes.get_splice _ _ _ (Nat.mod_lt _ (by decide)), hlen']
      by_cases hr : (off + tot) % BSIZE ≤ o % BSIZE ∧ o % BSIZE < (off + tot) % BSIZE + m
      · have ho : off + tot ≤ o ∧ o < off + tot + m ∧
            o % BSIZE - (off + tot) % BSIZE = o - (off + tot) := by
          unfold BSIZE at hdiv hr ⊢
          omega
        rw [if_pos hr, if_pos (by omega), ho.2.2, getD_eq_getElem _ _ (by omega),
          getD_eq_getElem _ _ (by omega)]
        simp only [getElem_take, getElem_drop]
        congr 1
        omega
      · have ho : ¬(off + tot ≤ o ∧ o < off + tot + m) := by
          unfold BSIZE at hdiv hr
          omega
        have hold := byte_of_ptr o (by rw [hdiv]; exact hp) (by rw [hdiv]; exact hin)
        rw [hdiv] at hold
        rw [if_neg hr, ← hold, hW.bytes bs hbs]
        by_cases hin' : off ≤ o ∧ o < off + tot
        · rw [if_pos hin', if_pos (by omega)]
        · rw [if_neg hin', if_neg (by omega)]
    · have ho : ¬(off + tot ≤ o ∧ o < off + tot + m) := by
        unfold BSIZE at hdiv hm
        omega
      rw [if_neg hdiv, hW.bytes bs hbs]
      by_cases hin' : off ≤ o ∧ o < off + tot
      · rw [if_pos hin', if_pos (by omega)]
      · rw [if_neg hin', if_neg (by omega)]

/-- There is no block for offset `o` of the file, and none to be had. -/
def NoBlock (sb : Superblock) (s : Kernel) (k : Fin NINODE) (o : Nat) : Prop :=
  DiskFull sb s ∧ ptr sb s k (posOf (o / BSIZE)) = 0

/-- The loop of `writei`. It stops at the end, before the first byte or between
    two blocks, if there is no block left; and writing over bytes of the file
    does not stop early. -/
theorem writeLoop_wp (hok : sb.Ok) (hE : E .tooBigTransaction) (n : Nat)
    (hmax : off + n ≤ MAXFILE * BSIZE) (hsrc : ∀ bs, src = .kernel bs → n ≤ bs.length)
    (Q : Nat × Nat → Kernel → Prop) (fuel : Nat) (hfuel : n ≤ tot + fuel) (htot : tot ≤ n)
    (hstop : tot = 0 ∨ tot = n ∨ (off + tot) % BSIZE = 0) (hop : 1 ≤ s.log.outstanding)
    (ht : (s.itable k).d.type ≠ 0) (hW : Writing sb s₀ s k src off tot)
    (h : ∀ s' tot', tot' ≤ n → (tot' = 0 ∨ tot' = n ∨ (off + tot') % BSIZE = 0) →
      (∀ bs, src = .kernel bs → tot' < n → (s₀.itable k).d.size.toNat ≤ off + tot') →
      (∀ bs, src = .kernel bs → tot' < n → NoBlock sb s' k (off + tot')) →
      Writing sb s₀ s' k src off tot' → Q (tot', off + tot') s') :
    wpk E (writeLoop sb k src n fuel tot (off + tot)) Q s := by
  induction fuel generalizing tot s with
  | zero =>
    unfold writeLoop
    rw [wp_pure]
    exact h s tot htot hstop (fun _ _ hlt => by omega) (fun _ _ hlt => by omega) hW
  | succ fuel ih =>
    unfold writeLoop
    by_cases hlt : tot < n
    · have hbn : (off + tot) / BSIZE < MAXFILE :=
        Nat.div_lt_of_lt_mul (by rw [Nat.mul_comm]; omega)
      rw [if_pos hlt, wp_bind]
      -- What happens once the block is there.
      have hthere : ∀ s₁, Grow sb s s₁ k → ptr sb s₁ k (posOf ((off + tot) / BSIZE)) ≠ 0 →
          wpk E (if ptr sb s₁ k (posOf ((off + tot) / BSIZE)) = 0 then
              return (tot, off + tot)
            else do
              let d ← bread (ptr sb s₁ k (posOf ((off + tot) / BSIZE)))
              let m := min (n - tot) (BSIZE - (off + tot) % BSIZE)
              let r := src.fetch tot m
              bput (ptr sb s₁ k (posOf ((off + tot) / BSIZE)))
                (Bytes.splice d ((off + tot) % BSIZE) r.1)
              if r.2 then
                logWrite (ptr sb s₁ k (posOf ((off + tot) / BSIZE)))
                writeLoop sb k src n fuel (tot + m) (off + tot + m)
              else return (tot, off + tot)) Q s₁ := by
        intro s₁ hg hp
        have hW₁ := hW.grow hg
        have ht₁ : (s₁.itable k).d.type ≠ 0 := by
          rw [hg.fields.type]
          exact ht
        have hself := pend_dino_self sb s₁ k
        have hin : InData sb (ptr sb s₁ k (posOf ((off + tot) / BSIZE))) := by
          have hu := (ptr_used hg.map.toAllocOk (s₁.itable k).inum
            (posOf ((off + tot) / BSIZE)) (by rw [hself]; exact ht₁)
            (by rw [hself]; exact hp)).1
          rw [hself] at hu
          exact hu
        have hmod : (off + tot) % BSIZE < BSIZE := Nat.mod_lt _ (by decide)
        rw [if_neg hp, wp_bind, wp_bread]
        generalize hm : min (n - tot) (BSIZE - (off + tot) % BSIZE) = m
        simp only [wp_bind, wp_bput]
        by_cases hr : (src.fetch tot m).2 = true
        · rw [if_pos hr, wp_bind]
          refine wp_logWrite hE _ _ (by
            change 1 ≤ s₁.log.outstanding
            rw [hg.edit.log.outstanding]
            exact hop) (fun l hl _ => ?_)
          have hW₂ := hW₁.block hok ht₁ m (src.fetch tot m).1 hp hin (by omega)
            (fun bs hbs => ?_) l hl
          · rw [Nat.add_assoc]
            refine ih (by omega) (by omega) ?_ ?_ ht₁ hW₂
            · by_cases hend : tot + m = n
              · exact Or.inr (Or.inl hend)
              · refine Or.inr (Or.inr ?_)
                rw [show off + (tot + m) = off + tot + m by omega,
                  show m = BSIZE - (off + tot) % BSIZE by omega]
                unfold BSIZE
                omega
            · change 1 ≤ l.outstanding
              rw [hl.outstanding]
              change 1 ≤ s₁.log.outstanding
              rw [hg.edit.log.outstanding]
              exact hop
          · have hlen := hsrc bs hbs
            rw [hbs]
            exact ⟨rfl, by omega⟩
        · -- The copy failed, so the source is user memory.
          have huser : ∀ bs, src ≠ .kernel bs := by
            intro bs hbs
            rw [hbs] at hr
            exact hr rfl
          rw [if_neg hr, wp_pure]
          have hW₂ := hW₁.block hok ht₁ 0 (src.fetch tot m).1 hp hin (by omega)
            (fun bs hbs => absurd hbs (huser bs)) s₁.log (LogSame.refl _)
          exact h _ tot htot hstop (fun bs hbs => absurd hbs (huser bs))
            (fun bs hbs => absurd hbs (huser bs)) hW₂
      by_cases hp : ptr sb s k (posOf ((off + tot) / BSIZE)) = 0
      · refine bmap_wp hok hE hop hW.map ht _ hbn _ (fun s₁ hg hall hmiss => ?_) hthere
        rw [if_pos rfl, wp_pure]
        refine h s₁ tot htot hstop (fun _ _ _ => ?_) (fun _ _ _ => ⟨hall, hmiss⟩) (hW.grow hg)
        -- The block was missing, so it lies past the end of the file.
        refine Nat.le_of_not_lt (fun hc => ?_)
        rw [← hW.fields.size] at hc
        exact (ptr_below hW.map ht _ hc).2.1 hp
      · exact bmap_hit hW.map.toAllocOk ht hbn hp (hthere s (Grow.refl hW.map) hp)
    · rw [if_neg hlt, wp_pure]
      exact h s tot htot hstop (fun _ _ hlt' => absurd hlt' hlt)
        (fun _ _ hlt' => absurd hlt' hlt) hW

/-- What `writei` has done to inode `k` when it returns `tot`. -/
structure Written (sb : Superblock) (s s' : Kernel) (k : Fin NINODE) (src : Source)
    (off tot : Nat) : Prop extends Wrote sb s s' k where
  type : (s'.itable k).d.type = (s.itable k).d.type
  major : (s'.itable k).d.major = (s.itable k).d.major
  minor : (s'.itable k).d.minor = (s.itable k).d.minor
  nlink : (s'.itable k).d.nlink = (s.itable k).d.nlink
  size : (s'.itable k).d.size.toNat = max (s.itable k).d.size.toNat (off + tot)
  bytes : ∀ bs, src = .kernel bs → ∀ o, byte sb s' k o =
    if off ≤ o ∧ o < off + tot then bs.getD (o - off) 0 else byte sb s k o

/-- The end of `writei`: the size grows to what has been written, and the inode
    is written back. -/
theorem writeiEnd_wp (hok : sb.Ok) (hE : E .tooBigTransaction) (hop : 1 ≤ s.log.outstanding)
    (ht : (s.itable k).d.type ≠ 0) (hoff : off ≤ (s₀.itable k).d.size.toNat)
    (hmax : off + tot ≤ MAXFILE * BSIZE) (hW : Writing sb s₀ s k src off tot) (d : Dinode)
    (hd : (s.itable k).d.SameFields { d with size := (s.itable k).d.size })
    (haddr : d.addrs = (s.itable k).d.addrs)
    (hsize : d.size.toNat = max (s.itable k).d.size.toNat (off + tot))
    (Q : Unit → Kernel → Prop)
    (h : ∀ s', Written sb s₀ s' k src off tot → (∀ o, NoBlock sb s k o → NoBlock sb s' k o) →
      (∀ m, ptr sb s' k m = ptr sb s k m) → (∀ o, byte sb s' k o = byte sb s k o) → Q () s') :
    wpk E (iupdate sb k) Q (s.modInode k (fun i => { i with d := d })) := by
  have hinum := hW.edit.inum
  have hself := pend_dino_self sb s k
  have hi : (s.itable k).inum < sb.ninodes := hW.map.range _ (by rw [hself]; exact ht)
  have hptr : ∀ m, ptrOf (pend sb s k).data d m = ptr sb s k m := by
    refine ptrOf_congr _ _ _ _ (fun m _ => ?_) (fun _ => rfl)
    unfold Dinode.addr
    rw [haddr]
  refine setUpdate_wp hok hE hop d hi Q (fun s' he hd' hvol => ?_)
  have hV : vol sb s'.blk = { pend sb s k with
      dino := update (pend sb s k).dino (s.itable k).inum d } := by
    rw [hvol]
    unfold pend
    simp only [update_idem]
  have hptr' : ∀ m, ptr sb s' k m = ptr sb s k m := by
    intro m
    rw [ptr, hd', hV]
    exact hptr m
  have hno : ∀ o, NoBlock sb s k o → NoBlock sb s' k o := by
    rintro o ⟨hall, hmiss⟩
    refine ⟨fun c hc => ?_, (hptr' _).trans hmiss⟩
    rw [hvol]
    exact hall c hc
  have hbyte : ∀ o, byte sb s' k o = byte sb s k o := by
    intro o
    unfold byte byteAt
    rw [hd', hV]
    have := hptr (posOf (o / BSIZE))
    rw [this]
    rfl
  have hmap := mapOk_setDino hW.map (s.itable k).inum d hi (fun m => ?_) (fun _ bn hbn => ?_)
    (fun _ => ?_)
  · rw [← hV] at hmap
    refine h s' ⟨⟨hW.edit.trans he, ?_, hmap.1, fun j hj => ?_, fun j hj => ?_⟩, ?_, ?_, ?_, ?_, ?_,
      fun bs hbs o => ?_⟩ hno hptr' hbyte
    · rw [hV, ← hinum, hd']
      exact update_self _ _ _
    · rw [hvol, ← hW.dino]
      exact update_of_ne (by rw [hinum]; exact hj) _ _
    · rw [← hW.others j hj]
      exact hmap.2 j (by rw [hinum]; exact hj)
    · rw [hd', hd.type, hW.fields.type]
    · rw [hd', hd.major, hW.fields.major]
    · rw [hd', hd.minor, hW.fields.minor]
    · rw [hd', hd.nlink, hW.fields.nlink]
    · rw [hd', hsize, hW.fields.size]
    · rw [hbyte o, hW.bytes bs hbs o]
  · rw [hself, slotOf, slotOf, hd.type, hptr m]
    rfl
  · rw [hptr]
    by_cases hold : bn * BSIZE < (s.itable k).d.size.toNat
    · have := hW.map.holes (s.itable k).inum (by rw [hself]; exact ht) bn
        (by rw [hself]; exact hold)
      rw [hself] at this
      exact this
    · -- Past the old size: the block has been written.
      rw [hW.fields.size] at hsize hold
      have := hW.filled (bn * BSIZE) (by omega) (by omega)
      rwa [Nat.mul_div_cancel bn (by decide)] at this
  · have := hW.map.maxSize (s.itable k).inum (by rw [hself]; exact ht)
    rw [hself] at this
    omega

theorem finish_wp (hok : sb.Ok) (hE : E .tooBigTransaction) (hop : 1 ≤ s.log.outstanding)
    (ht : (s.itable k).d.type ≠ 0) (hoff : off ≤ (s₀.itable k).d.size.toNat)
    (hmax : off + tot ≤ MAXFILE * BSIZE) (hW : Writing sb s₀ s k src off tot)
    (Q : Int → Kernel → Prop)
    (h : ∀ s', Written sb s₀ s' k src off tot → (∀ o, NoBlock sb s k o → NoBlock sb s' k o) →
      (∀ m, ptr sb s' k m = ptr sb s k m) → (∀ o, byte sb s' k o = byte sb s k o) → Q tot s') :
    wpk E (finish sb k (tot, off + tot)) Q s := by
  have hfit : off + tot < 2 ^ 32 := by
    have : MAXFILE * BSIZE = 274432 := by decide
    omega
  unfold finish
  rw [wp_bind, wp_getInode]
  by_cases hgrow : (s.itable k).d.size.toNat < off + tot
  · rw [if_pos hgrow, wp_bind, wp_setInode, wp_bind]
    refine writeiEnd_wp hok hE hop ht hoff hmax hW
      { (s.itable k).d with size := BitVec.ofNat 32 (off + tot) } ⟨rfl, rfl, rfl, rfl, rfl⟩ rfl ?_ _
      (fun s' hwr hno hptr hbyte => ?_)
    · change (BitVec.ofNat 32 (off + tot)).toNat = _
      rw [BitVec.toNat_ofNat, Nat.mod_eq_of_lt hfit]
      omega
    · rw [wp_pure]
      exact h s' hwr hno hptr hbyte
  · rw [if_neg hgrow, wp_bind]
    have hself : s = s.modInode k (fun i => { i with d := (s.itable k).d }) := by
      simp only [Kernel.modInode, update_eq_self]
    rw [hself]
    refine writeiEnd_wp hok hE hop ht hoff hmax hW (s.itable k).d (Dinode.SameFields.refl _) rfl
      (by omega) _ (fun s' hwr hno hptr hbyte => ?_)
    rw [wp_pure]
    exact h s' hwr hno hptr hbyte

/-- `writei` replaces a part of the file, or extends it, and returns how much
    it wrote. -/
theorem writei_wp (hok : sb.Ok) (hE : E .tooBigTransaction) (hop : 1 ≤ s.log.outstanding)
    (hM : MapOk sb (pend sb s k)) (ht : (s.itable k).d.type ≠ 0) (src : Source)
    (off n : BitVec 32) (hsrc : ∀ bs, src = .kernel bs → n.toNat ≤ bs.length)
    (Q : Int → Kernel → Prop)
    (hbad : (s.itable k).d.size.toNat < off.toNat ∨ MAXFILE * BSIZE < off.toNat + n.toNat →
      Q (-1) s)
    (h : ∀ s' tot, tot ≤ n.toNat →
      (tot = 0 ∨ tot = n.toNat ∨ (off.toNat + tot) % BSIZE = 0) →
      (∀ bs, src = .kernel bs → tot < n.toNat → (s.itable k).d.size.toNat ≤ off.toNat + tot) →
      (∀ bs, src = .kernel bs → tot < n.toNat → NoBlock sb s' k (off.toNat + tot)) →
      off.toNat ≤ (s.itable k).d.size.toNat →
      Written sb s s' k src off.toNat tot → Q tot s') :
    wpk E (writei sb k src off n) Q s := by
  unfold writei
  rw [wp_bind, wp_getInode]
  by_cases hout : (s.itable k).d.size < off ∨ off + n < off
  · rw [if_pos hout, wp_pure]
    refine hbad ?_
    rcases hout with hout | hout
    · exact Or.inl hout
    · have hlt : (off + n).toNat < off.toNat := hout
      have h₁ := off.isLt
      have h₂ := n.isLt
      rw [BitVec.toNat_add] at hlt
      right
      change 274432 < _
      omega
  · rw [if_neg hout]
    have hle : off.toNat ≤ (s.itable k).d.size.toNat :=
      Nat.le_of_not_lt (fun hc => hout (Or.inl hc))
    have hov := toNat_add_of_not_lt (fun hc => hout (Or.inr hc))
    rw [hov]
    by_cases hbig : MAXFILE * BSIZE < off.toNat + n.toNat
    · rw [if_pos hbig, wp_pure]
      exact hbad (Or.inr hbig)
    · rw [if_neg hbig, wp_bind]
      refine @writeLoop_wp sb s s k E src off.toNat 0 hok hE n.toNat (by omega) hsrc _ n.toNat
        (by omega) (by omega) (Or.inl rfl) hop ht (Writing.start hM src off.toNat)
        (fun s₁ tot htot hstop hfull hnone hW => ?_)
      have ht₁ : (s₁.itable k).d.type ≠ 0 := by
        rw [hW.fields.type]
        exact ht
      have hop₁ : 1 ≤ s₁.log.outstanding := by
        rw [hW.edit.log.outstanding]
        exact hop
      exact finish_wp hok hE hop₁ ht₁ hle (by omega) hW _ (fun s' hwr hno _ _ =>
        h s' tot htot hstop hfull (fun bs hbs hlt => hno _ (hnone bs hbs hlt)) hle hwr)

end Write

theorem Written.contents {sb : Superblock} {s s' : Kernel} {k : Fin NINODE} {bs : List Byte}
    {off tot : Nat} (hW : Written sb s s' k (.kernel bs) off tot) (htot : tot ≤ bs.length)
    (hoff : off ≤ (s.itable k).d.size.toNat) :
    Xv6.contents (vol sb s'.blk).data (s'.itable k).d =
      (Xv6.contents (vol sb s.blk).data (s.itable k).d).take off ++ bs.take tot ++
        (Xv6.contents (vol sb s.blk).data (s.itable k).d).drop (off + tot) := by
  have hlen := length_contents (vol sb s.blk).data (s.itable k).d
  refine ext_getElem ?_ (fun o ho ho' => ?_)
  · simp only [length_contents, hW.size, length_append, length_take, length_drop]
    omega
  · have hnew : (Xv6.contents (vol sb s'.blk).data (s'.itable k).d)[o] = byte sb s' k o := by
      simp only [Xv6.contents, getElem_map, getElem_range]
      rfl
    have hold : ∀ (x : Nat) (hx : x < (Xv6.contents (vol sb s.blk).data (s.itable k).d).length),
        (Xv6.contents (vol sb s.blk).data (s.itable k).d)[x] = byte sb s k x := by
      intro x hx
      simp only [Xv6.contents, getElem_map, getElem_range]
      rfl
    rw [hnew, hW.bytes bs rfl]
    by_cases h₁ : o < off
    · rw [if_neg (by omega), getElem_append_left (by
          rw [length_append, length_take]
          omega), getElem_append_left (by rw [length_take]; omega), getElem_take,
        hold]
    · by_cases h₂ : o < off + tot
      · rw [if_pos (by omega), getElem_append_left (by
            simp only [length_append, length_take]
            omega), getElem_append_right (by rw [length_take]; omega),
          getElem_take, getD_eq_getElem _ _ (by omega)]
        congr 1
        rw [length_take]
        omega
      · rw [if_neg (by omega), getElem_append_right (by
            simp only [length_append, length_take]
            omega), getElem_drop, hold]
        congr 1
        simp only [length_append, length_take]
        omega

end Xv6
