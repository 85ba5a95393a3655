import Mathlib.Data.List.Count
import Xv6.Log.Cache
import Xv6.Log.Machine

/-!
# The Cache Under the Log

Coherence of the buffer cache, with the references counted from the state.

A process refers to a buffer if it holds its lock or waits for it. `held`
counts these, and `CacheInv` is coherence at that count together with what is
known of a buffer in use. The lemmas follow the calls the log makes: each step
of a commit is a few `bread`, one `bwrite` and as many `brelse`, and in the
end the locks are what they were.
-/

namespace Xv6.Wal

open Function Bcache

variable {P : Type}

/-- The references processes hold to a buffer: its lock, and the waiters. -/
def held (bc : Bcache P) (waiting : List (P × Fin NBUF)) (i : Fin NBUF) : Nat :=
  (if (bc.buf i).lock.isSome then 1 else 0) + waiting.countP (fun w => w.2 = i)

/-- Blocks have the contents `L`, the blocks `D` are dirty, and a buffer that
    a process refers to belongs to the file system's device and is filled in
    once it is locked. -/
structure CacheInv (disk : Disk) (bc : Bcache P) (waiting : List (P × Fin NBUF)) (L : Disk)
    (D : List Nat) : Prop where
  coh : Bcache.Coherent disk bc L D (held bc waiting)
  uint : ∀ i, (bc.buf i).blockno < 2 ^ 32
  locked : ∀ i, (bc.buf i).lock.isSome = true → (bc.buf i).dev = ROOTDEV ∧
    (bc.buf i).valid = true
  await : ∀ w ∈ waiting, (bc.buf w.2).dev = ROOTDEV

variable {disk : Disk} {bc bc' : Bcache P} {waiting : List (P × Fin NBUF)} {L : Disk} {D : List Nat}
  {p : P} {i : Fin NBUF} {b : Nat}

theorem held_pos_of_lock (h : (bc.buf i).lock.isSome = true) : 1 ≤ held bc waiting i := by
  rw [held, if_pos h]
  omega

theorem held_pos_of_mem {w : P × Fin NBUF} (h : w ∈ waiting) : 1 ≤ held bc waiting w.2 := by
  have : 0 < waiting.countP (fun v => v.2 = w.2) :=
    List.countP_pos_iff.mpr ⟨w, h, by simp only [decide_true]⟩
  rw [held]
  omega

theorem held_lock (hnone : (bc.buf i).lock = none) (hsome : (bc'.buf i).lock.isSome = true)
    (hother : ∀ j, j ≠ i → (bc'.buf j).lock = (bc.buf j).lock) :
    held bc' waiting = bump (held bc waiting) i := by
  funext j
  by_cases hj : j = i
  · rw [hj, bump_self, held, held, if_pos hsome, hnone]
    simp only [Option.isSome_none, Bool.false_eq_true, if_false]
    omega
  · rw [bump_of_ne hj, held, held, hother j hj]

theorem held_unlock (hsome : (bc.buf i).lock.isSome = true) (hnone : (bc'.buf i).lock = none)
    (hother : ∀ j, j ≠ i → (bc'.buf j).lock = (bc.buf j).lock) :
    held bc' waiting = drop (held bc waiting) i := by
  rw [held_lock hnone hsome (fun j hj => (hother j hj).symm)]
  funext j
  by_cases hj : j = i
  · rw [hj, drop_self, bump_self, Nat.add_sub_cancel]
  · rw [drop_of_ne hj, bump_of_ne hj]

/-- What a buffer is about, but for its contents and its references. -/
def frame (x : Buf P) : Nat × Nat × Bool × Option P := (x.dev, x.blockno, x.valid, x.lock)

theorem CacheInv.keep {disk' L' : Disk} {D' : List Nat} (h : CacheInv disk bc waiting L D)
    (hcoh : Bcache.Coherent disk' bc' L' D' (held bc waiting))
    (hkept : ∀ j, frame (bc'.buf j) = frame (bc.buf j)) : CacheInv disk' bc' waiting L' D' := by
  simp only [frame, Prod.mk.injEq] at hkept
  have hheld : held bc' waiting = held bc waiting := by
    funext j
    rw [held, held, (hkept j).2.2.2]
  refine ⟨hheld ▸ hcoh, fun j => ?_, fun j hj => ?_, fun w hw => ?_⟩
  · rw [(hkept j).2.1]
    exact h.uint j
  · rw [(hkept j).2.2.2] at hj
    rw [(hkept j).1, (hkept j).2.2.1]
    exact h.locked j hj
  · rw [(hkept w.2).1]
    exact h.await w hw

/-- Process `p` has locked the buffer of block `b`, which shows `d`. -/
def Locked (bc : Bcache P) (p : P) (i : Fin NBUF) (b : Nat) (d : Block) : Prop :=
  (bc.buf i).lock = some p ∧ (bc.buf i).dev = ROOTDEV ∧ (bc.buf i).blockno = b ∧
    (bc.buf i).data = d

theorem Locked.isSome {d : Block} (h : Locked bc p i b d) : (bc.buf i).lock.isSome = true := by
  rw [h.1, Option.isSome_some]

/-- `bread` locks the buffer of the block, which nobody held. What is locked stays so. -/
theorem cacheInv_bread (h : CacheInv disk bc waiting L D) (hb : b < 2 ^ 32)
    (hr : bc.bread disk p ROOTDEV b = .done (bc', i)) :
    CacheInv disk bc' waiting L D ∧ Locked bc' p i b (L b) ∧ (bc.buf i).lock = none ∧
      ∀ {q : P} {j c x}, Locked bc q j c x → Locked bc' q j c x := by
  rcases bread_spec h.coh hr with
    ⟨hcoh, hdev, hblk, hval, hdat, hnone, hlock, hother, hnum⟩
  have hheld : held bc' waiting = bump (held bc waiting) i :=
    held_lock hnone (by rw [hlock, Option.isSome_some]) (fun j hj => (hother j hj).1)
  -- Whatever a process refers to is in use, so `bread` keeps it.
  have hkeep : ∀ j, j ≠ i → 1 ≤ held bc waiting j → Bcache.Same (bc.buf j) (bc'.buf j) := by
    intro j hj hh
    have := h.coh.refs j
    exact (hother j hj).2 (by omega)
  refine ⟨⟨hheld ▸ hcoh, fun j => ?_, fun j hj => ?_, fun w hw => ?_⟩, ⟨hlock, hdev, hblk, hdat⟩,
    hnone, fun {q j c x} hl => ?_⟩
  · rcases hnum j with hj | hj
    · rw [hj]
      exact h.uint j
    · rw [hj]
      exact hb
  · by_cases hji : j = i
    · rw [hji]
      exact ⟨hdev, hval⟩
    · have hl : (bc.buf j).lock.isSome = true := by rw [← (hother j hji).1]; exact hj
      rcases hkeep j hji (held_pos_of_lock hl) with ⟨hd, _, hv, _⟩
      rw [hd, hv]
      exact h.locked j hl
  · by_cases hwi : w.2 = i
    · rw [hwi]
      exact hdev
    · rw [(hkeep w.2 hwi (held_pos_of_mem hw)).1]
      exact h.await w hw
  · have hji : j ≠ i := by
      rintro rfl
      rw [hl.1] at hnone
      exact nomatch hnone
    rcases hkeep j hji (held_pos_of_lock hl.isSome) with ⟨hd, hbl, _, hx⟩
    exact ⟨(hother j hji).1.trans hl.1, hd.trans hl.2.1, hbl.trans hl.2.2.1, hx.trans hl.2.2.2⟩

theorem cacheInv_unpin (h : CacheInv disk bc waiting L (b :: D)) (hb : b ∉ D)
    (hdev : (bc.buf i).dev = ROOTDEV) (hblk : (bc.buf i).blockno = b)
    (hdisk : disk b = L b) : CacheInv disk (bc.bunpin i) waiting L D :=
  h.keep (unpin_spec h.coh hb hdev hblk hdisk) (proj_modify frame fun _ => rfl)

/-- The cache at boot: no buffer belongs to the device. -/
theorem cacheInv_binit (disk : Disk) : CacheInv disk (binit P) [] disk [] := by
  refine ⟨⟨fun i hv => ?_, fun i j hi => ?_, fun _ _ => rfl, fun b hb => ?_, fun i => ?_,
    fun i => ?_⟩, fun i => ?_, fun i hi => ?_, fun w hw => ?_⟩
  · exact nomatch hv
  · exact nomatch (show (0 : Nat) = ROOTDEV from hi)
  · exact nomatch hb
  · exact Nat.le_refl 0
  · exact List.mem_reverse.mpr (List.mem_finRange i)
  · change 0 < 2 ^ 32
    omega
  · exact nomatch hi
  · exact nomatch hw

theorem cacheInv_get (h : CacheInv disk bc waiting L D) (p : P) (hb : b < 2 ^ 32)
    (hg : bc.bget ROOTDEV b = .done (bc', i)) : CacheInv disk bc' ((p, i) :: waiting) L D := by
  rcases bget_spec h.coh hg with ⟨hcoh, hdev, _, hlock, hkeep, hnum⟩
  have hheld : held bc' ((p, i) :: waiting) = bump (held bc waiting) i := by
    funext j
    by_cases hj : j = i
    · rw [hj, bump_self, held, held, hlock,
        List.countP_cons_of_pos (by simp only [decide_true])]
      omega
    · rw [bump_of_ne hj, held, held, hlock, List.countP_cons_of_neg]
      simp only [decide_eq_true_eq]
      exact fun hij => hj hij.symm
  -- Whatever a process refers to is in use, so `bget` keeps it.
  have hkept : ∀ j, 1 ≤ held bc waiting j → Bcache.Same (bc.buf j) (bc'.buf j) := by
    intro j hj
    have := h.coh.refs j
    exact hkeep j (by omega)
  refine ⟨hheld ▸ hcoh, fun j => ?_, fun j hj => ?_, fun w hw => ?_⟩
  · rcases hnum j with hj | hj
    · rw [hj]
      exact h.uint j
    · rw [hj]
      exact hb
  · rw [hlock] at hj
    rcases hkept j (held_pos_of_lock hj) with ⟨hd, _, hv, _⟩
    rw [hd, hv]
    exact h.locked j hj
  · rcases List.mem_cons.mp hw with rfl | hw
    · exact hdev
    · rw [(hkept w.2 (held_pos_of_mem hw)).1]
      exact h.await w hw

theorem cacheInv_log (h : CacheInv disk bc waiting L D) (d : Block)
    (hl : (bc.buf i).lock.isSome = true) (hD : (bc.buf i).blockno ∈ D) :
    CacheInv disk (bc.setData i d) waiting (update L (bc.buf i).blockno d) D :=
  h.keep (modify_spec h.coh (h.locked i hl).1 d hD) (proj_modify frame fun _ => rfl)

/-- Modifying a locked buffer and pinning it makes its block dirty. -/
theorem cacheInv_log_pin (h : CacheInv disk bc waiting L D) (d : Block)
    (hl : (bc.buf i).lock.isSome = true) :
    CacheInv disk ((bc.setData i d).bpin i) waiting (update L (bc.buf i).blockno d)
      (D ++ [(bc.buf i).blockno]) := by
  refine h.keep (pin_spec h.coh (h.locked i hl).1 d (h.locked i hl).2) (fun j => ?_)
  rw [bpin, proj_modify frame, setData, proj_modify frame]
  · exact fun _ => rfl
  · exact fun _ => rfl

theorem decodeHead_encodeHead (d : Block) {lh : List Nat} (hlen : lh.length ≤ LOGSIZE)
    (huint : ∀ b ∈ lh, b < 2 ^ 32) : decodeHead (encodeHead d lh) = lh := by
  simp only [LOGSIZE, MAXOPBLOCKS] at hlen
  have hn : headN (encodeHead d lh) = lh.length := by
    rw [headN, encodeHead, Bytes.readLe_writeLes_of_disjoint _ (Or.inl (by omega)),
      Bytes.readLe_writeLe _ _ (by simp only [BSIZE]; omega),
      Nat.mod_eq_of_lt (by omega), BitVec.toInt_eq_toNat_of_lt]
    · rw [BitVec.toNat_ofNat, Int.toNat_natCast, Nat.mod_eq_of_lt (by omega)]
    · rw [BitVec.toNat_ofNat, Nat.mod_eq_of_lt (by omega)]
      omega
  refine List.ext_getElem ?_ (fun i hi hi' => ?_)
  · rw [decodeHead, List.length_map, List.length_range, hn]
  · simp only [decodeHead, List.getElem_map, List.getElem_range]
    rw [encodeHead, Bytes.readLe_writeLes _ _ _ _ _ hi' (by simp only [BSIZE]; omega)]
    exact Nat.mod_eq_of_lt (huint _ (List.getElem_mem hi'))

/-- Clearing the header leaves nothing to replay, whatever entries remain. -/
theorem decodeHead_clear (d : Block) : decodeHead (encodeHead d []) = [] :=
  decodeHead_encodeHead d (Nat.zero_le _) (nofun)

variable [DecidableEq P]

theorem cacheInv_bwrite {disk' : Disk} {x d : Block} (h : CacheInv disk bc waiting L D)
    (hl : Locked bc p i b x) (hw : (bc.setData i d).bwrite disk p i = .done disk') :
    disk' = update disk b d ∧ CacheInv disk' (bc.setData i d) waiting (update L b d) D := by
  rw [bwrite, setData, modify_self, if_pos hl.1, Outcome.done.injEq] at hw
  have hcoh := write_spec h.coh hl.2.1 d
  rw [hl.2.2.1] at hcoh hw
  rw [← hw]
  exact ⟨rfl, h.keep hcoh (proj_modify frame fun _ => rfl)⟩

theorem cacheInv_lock (h : CacheInv disk bc waiting L D) (hw : (p, i) ∈ waiting)
    (ha : bc.acquiresleep p i = .done bc') :
    CacheInv disk (bc'.fill disk i) (waiting.erase (p, i)) L D := by
  rcases acquiresleep_spec h.coh ha with ⟨hcoh, hnone, hsome, hother, hsame⟩
  have hdev : (bc'.buf i).dev = ROOTDEV := by
    rw [(hsame i).1]
    exact h.await _ hw
  rcases fill_spec hcoh hdev with ⟨hcoh', hval, _, hdev', hblk', hlock', hother'⟩
  have hheld : held (bc'.fill disk i) (waiting.erase (p, i)) = held bc waiting := by
    funext j
    have herase := List.countP_erase (fun w : P × Fin NBUF => w.2 = j) waiting (p, i)
    rw [held, held, hlock', herase]
    by_cases hj : j = i
    · have hpos : 0 < waiting.countP (fun v => v.2 = i) :=
        List.countP_pos_iff.mpr ⟨(p, i), hw, by simp only [decide_true]⟩
      simp only [hj, hsome, hnone, hw, Option.isSome_some, Option.isSome_none, decide_true,
        and_self, if_true, Bool.false_eq_true, if_false]
      omega
    · have hij : ¬i = j := fun hij => hj hij.symm
      simp only [hother j hj, hij, decide_false, Bool.false_eq_true, and_false, if_false,
        Nat.sub_zero]
  refine ⟨by rw [hheld]; exact hcoh', fun j => ?_, fun j hj => ?_, fun w hw' => ?_⟩
  · rw [hblk', (hsame j).2.1]
    exact h.uint j
  · by_cases hji : j = i
    · rw [hji]
      exact ⟨hdev', hval⟩
    · rw [hother' j hji, hother j hji] at hj ⊢
      exact h.locked j hj
  · by_cases hwi : w.2 = i
    · rw [hwi]
      exact hdev'
    · rw [hother' _ hwi, hother _ hwi]
      exact h.await w (List.mem_of_mem_erase hw')

theorem cacheInv_brelse (h : CacheInv disk bc waiting L D) (hr : bc.brelse p i = .done bc') :
    CacheInv disk bc' waiting L D := by
  have hl : (bc.buf i).lock.isSome = true := by
    unfold brelse at hr
    by_cases hl : (bc.buf i).lock = some p
    · rw [hl, Option.isSome_some]
    · simp only [if_neg hl, reduceCtorEq] at hr
  rcases brelse_spec h.coh (held_pos_of_lock hl) hr with ⟨hcoh, hnone, hother, hsame⟩
  have hheld : held bc' waiting = drop (held bc waiting) i :=
    held_unlock hl hnone (fun j hj => by rw [hother j hj])
  refine ⟨hheld ▸ hcoh, fun j => ?_, fun j hj => ?_, fun w hw => ?_⟩
  · rw [(hsame j).2.1]
    exact h.uint j
  · by_cases hji : j = i
    · rw [hji, hnone] at hj
      exact nomatch hj
    · rw [hother j hji] at hj ⊢
      exact h.locked j hj
  · rw [(hsame w.2).1]
    exact h.await w hw

variable {m m' : Machine P} {tail : Nat}

/-- A step of `write_log` copies the current contents of one block into the
    log, on the disk as well, and leaves everything else as it was. -/
theorem writeLog_spec (h : CacheInv m.disk m.bc m.waiting L D)
    (hto : m.log.start + tail + 1 < 2 ^ 32) (hfrom : m.log.lh.getD tail 0 < 2 ^ 32)
    (hs : writeLog m p tail = .done m') :
    ∃ bc', m' = { m with
        disk := update m.disk (m.log.start + tail + 1) (L (m.log.lh.getD tail 0))
        bc := bc' } ∧
      CacheInv m'.disk bc' m.waiting
        (update L (m.log.start + tail + 1) (L (m.log.lh.getD tail 0))) D := by
  simp only [writeLog, Outcome.bind_eq_done, Outcome.pure_eq, Outcome.done.injEq] at hs
  rcases hs with ⟨⟨bc₁, i⟩, hr₁, ⟨bc₂, j⟩, hr₂, disk, hw, bc₃, hb₁, bc₄, hb₂, rfl⟩
  rcases cacheInv_bread h hto hr₁ with ⟨h₁, hi, -, -⟩
  rcases cacheInv_bread h₁ hfrom hr₂ with ⟨h₂, hj, -, hstay⟩
  simp only [hj.2.2.2] at hw hb₁
  rcases cacheInv_bwrite h₂ (hstay hi) hw with ⟨rfl, h₃⟩
  exact ⟨bc₄, rfl, cacheInv_brelse (cacheInv_brelse h₃ hb₁) hb₂⟩

/-- A step of `install_trans` copies one block of the log home. In a commit
    the block then stops being dirty; in recovery nothing was dirty. -/
theorem installTrans_spec (D' : List Nat) (recovering : Bool)
    (h : CacheInv m.disk m.bc m.waiting L D)
    (hfrom : m.log.start + tail + 1 < 2 ^ 32) (hto : m.log.lh.getD tail 0 < 2 ^ 32)
    (hD : D = if recovering then D' else m.log.lh.getD tail 0 :: D')
    (hnew : m.log.lh.getD tail 0 ∉ D')
    (hs : installTrans m p recovering tail = .done m') :
    ∃ bc', m' = { m with
        disk := update m.disk (m.log.lh.getD tail 0) (L (m.log.start + tail + 1))
        bc := bc' } ∧
      CacheInv m'.disk bc' m.waiting
        (update L (m.log.lh.getD tail 0) (L (m.log.start + tail + 1))) D' := by
  simp only [installTrans, Outcome.bind_eq_done, Outcome.pure_eq, Outcome.done.injEq] at hs
  rcases hs with ⟨⟨bc₁, i⟩, hr₁, ⟨bc₂, j⟩, hr₂, disk, hw, bc₃, hb₁, bc₄, hb₂, rfl⟩
  rcases cacheInv_bread h hfrom hr₁ with ⟨h₁, hi, -, -⟩
  rcases cacheInv_bread h₁ hto hr₂ with ⟨h₂, hj, -, hstay⟩
  simp only [(hstay hi).2.2.2] at hw hb₁
  rcases cacheInv_bwrite h₂ hj hw with ⟨rfl, h₃⟩
  -- Unpinning leaves the block clean, the disk having caught up with it.
  have h₄ : CacheInv (update m.disk (m.log.lh.getD tail 0) (L (m.log.start + tail + 1)))
      (if recovering then bc₂.setData j (L (m.log.start + tail + 1))
        else (bc₂.setData j (L (m.log.start + tail + 1))).bunpin j) m.waiting
      (update L (m.log.lh.getD tail 0) (L (m.log.start + tail + 1))) D' := by
    cases recovering with
    | true =>
      rw [if_pos rfl] at hD ⊢
      exact hD ▸ h₃
    | false =>
      rw [if_neg Bool.false_ne_true] at hD ⊢
      exact cacheInv_unpin (hD ▸ h₃) hnew
        (by rw [setData, modify_self]; exact hj.2.1)
        (by rw [setData, modify_self]; exact hj.2.2.1)
        (by rw [update_self, update_self])
  exact ⟨bc₄, rfl, cacheInv_brelse (cacheInv_brelse h₄ hb₁) hb₂⟩

theorem writeHead_spec (h : CacheInv m.disk m.bc m.waiting L D) (hstart : m.log.start < 2 ^ 32)
    (hs : writeHead m p = .done m') :
    ∃ bc', m' = { m with
        disk := update m.disk m.log.start (encodeHead (L m.log.start) m.log.lh)
        bc := bc' } ∧
      CacheInv m'.disk bc' m.waiting
        (update L m.log.start (encodeHead (L m.log.start) m.log.lh)) D := by
  simp only [writeHead, Outcome.bind_eq_done, Outcome.pure_eq, Outcome.done.injEq] at hs
  rcases hs with ⟨⟨bc₁, i⟩, hr₁, disk, hw, bc₂, hb, rfl⟩
  rcases cacheInv_bread h hstart hr₁ with ⟨h₁, hi, -, -⟩
  simp only [hi.2.2.2] at hw hb
  rcases cacheInv_bwrite h₁ hi hw with ⟨rfl, h₂⟩
  exact ⟨bc₂, rfl, cacheInv_brelse h₂ hb⟩

theorem readHead_spec (h : CacheInv m.disk m.bc m.waiting L D) (hstart : m.log.start < 2 ^ 32)
    (hs : readHead m p = .done m') :
    ∃ bc', m' = { m with
        bc := bc', log := { m.log with lh := decodeHead (L m.log.start) } } ∧
      CacheInv m.disk bc' m.waiting L D := by
  simp only [readHead, Outcome.bind_eq_done, Outcome.pure_eq, Outcome.done.injEq] at hs
  rcases hs with ⟨⟨bc₁, i⟩, hr₁, bc₂, hb, rfl⟩
  rcases cacheInv_bread h hstart hr₁ with ⟨h₁, hi, -, -⟩
  exact ⟨bc₂, by rw [hi.2.2.2], cacheInv_brelse h₁ hb⟩

end Xv6.Wal
