import Xv6.Bio.Shape

/-!
# Coherence of the Buffer Cache

The buffer cache cannot be told from an array of blocks.

The current contents of a block are what was written to it most recently. They
are in its buffer if there is one that is valid and not just being changed, and
they are on the disk unless the buffer is pinned. `Fresh` says this of a state.

The disk does not know of devices, and it computes the number of a sector with 32
bits. So this is about runs on one device, and on blocks whose sectors have
numbers of their own; `shared_sectors_read` shows the difference.

## Main definitions

* `Honest`: What was read is what was written most recently.
* `Fresh`: The invariant.

## Theorems

* `Fresh.next`: What a step preserves.
* `cache_coherent`: What holds in every run.
* `bread_panics_iff`: When there is no buffer left.
-/

namespace Xv6.Bio

open Function

/-! ### The contents -/

section Fresh

variable {P : Type} [DecidableEq P] [Fintype P] {x y : System P} {p : P} {d : Nat} {start : Disk}

/-- Blocks below this have sectors of their own. -/
def MAXBLOCK : Nat := 2 ^ 31

theorem sector_inj {a b : Nat} (ha : a < MAXBLOCK) (hb : b < MAXBLOCK) (h : sector a = sector b) :
    a = b := by
  unfold MAXBLOCK at ha hb
  unfold sector at h
  rw [show BSIZE / 512 = 2 by decide] at h
  omega

/-- Every block that was read had the contents that were written most recently. -/
def Honest (start : Disk) : List (Obs P) → Prop
  | [] => True
  | .read _ dev b d :: tr => d = last start tr dev b ∧ Honest start tr
  | .write _ _ _ _ :: tr => Honest start tr

omit [DecidableEq P] [Fintype P] in
theorem Honest.read {tr newer older : List (Obs P)} {dev b : Nat} {blk : Block}
    (h : Honest start tr) (htr : tr = newer ++ .read p dev b blk :: older) :
    blk = last start older dev b := by
  induction newer generalizing tr with
  | nil =>
    rw [htr] at h
    exact h.1
  | cons o newer ih =>
    rw [htr] at h
    cases o with
    | read q dev' b' blk' => exact ih h.2 rfl
    | write q dev' b' blk' =>
      have h' : Honest start (newer ++ .read p dev b blk :: older) := h
      exact ih h' rfl

omit [DecidableEq P] [Fintype P] in
theorem last_write (tr : List (Obs P)) (b : Nat) (blk : Block) :
    last start (.write p d b blk :: tr) d = update (last start tr d) b blk := by
  funext b'
  by_cases hb : b' = b
  · rw [hb, update_self]
    exact if_pos ⟨rfl, rfl⟩
  · rw [update_of_ne hb]
    exact if_neg (fun h => hb h.2.symm)

/-- Where the current contents of the blocks of device `d` are, for a disk that was
    `start` in the beginning. -/
structure Fresh (d : Nat) (start : Disk) (x : System P) : Prop where
  dev : ∀ i, (x.cache.buf i).dev = 0 ∨
    ((x.cache.buf i).dev = d ∧ (x.cache.buf i).blockno < MAXBLOCK)
  used : ∀ i, 0 < (x.cache.buf i).refcnt → (x.cache.buf i).dev = d
  data : ∀ i, (x.cache.buf i).dev = d → (x.cache.buf i).valid = true → x.changed i = false →
    (x.cache.buf i).data = last start x.trace d (x.cache.buf i).blockno
  disk : ∀ b, b < MAXBLOCK → x.disk (sector b) = last start x.trace d b ∨
    ∃ i, (x.cache.buf i).dev = d ∧ (x.cache.buf i).blockno = b ∧
      (x.cache.buf i).valid = true ∧ 0 < x.pins i
  saved : ∀ i, x.saved i = true →
    x.disk (sector (x.cache.buf i).blockno) = (x.cache.buf i).data ∧ x.changed i = false
  held : ∀ p i, (x.cache.buf i).lock = some p → x.pc p ≠ .reading i → x.pc p ≠ .validating i →
    (x.cache.buf i).valid = true
  filled : ∀ p i, x.pc p = .validating i →
    (x.cache.buf i).data = last start x.trace d (x.cache.buf i).blockno
  still : ∀ p i, x.pc p = .reading i ∨ x.pc p = .validating i →
    x.changed i = false ∧ x.saved i = false
  honest : Honest start x.trace

omit [DecidableEq P] [Fintype P] in
theorem fresh_boot {d : Nat} (start : Disk) (hd : 1 ≤ d) : Fresh d start (boot P start) := by
  refine ⟨fun i => Or.inl rfl, fun i h => ?_, fun i h => ?_, fun b _ => Or.inl rfl, fun i h => ?_,
    fun p i h => ?_, fun p i h => ?_, fun p i _ => ⟨rfl, rfl⟩, trivial⟩
  · exact absurd h (Nat.lt_irrefl 0)
  · have hz : (0 : Nat) = d := h
    omega
  · exact nomatch h
  · exact absurd h (by change ¬none = some p; simp only [reduceCtorEq, not_false_eq_true])
  · exact absurd h (by change ¬Pc.idle = _; simp only [reduceCtorEq, not_false_eq_true])

/-- What a step of process `p` may do to the contents of buffer `i`, when it does not
    write to a block. -/
structure Mild (d : Nat) (start : Disk) (x y : System P) (p : P) (c : Pc) (i : Fin NBUF)
    (b : Buf P) : Prop where
  disk : y.disk = x.disk
  recent : last start y.trace d = last start x.trace d
  honest : Honest start y.trace
  dev : b.dev = 0 ∨ (b.dev = d ∧ b.blockno < MAXBLOCK)
  used : 0 < b.refcnt → b.dev = d
  data : b.dev = d → b.valid = true → y.changed i = false →
    b.data = last start x.trace d b.blockno
  -- A block of which only the buffer is up to date stays there, or is on the disk.
  pin : 0 < x.pins i → (x.cache.buf i).dev = d → (x.cache.buf i).valid = true →
    (b.dev = d ∧ b.blockno = (x.cache.buf i).blockno ∧ b.valid = true ∧ 0 < y.pins i) ∨
      x.disk (sector (x.cache.buf i).blockno) = last start x.trace d (x.cache.buf i).blockno
  saved : y.saved i = true → x.disk (sector b.blockno) = b.data ∧ y.changed i = false
  held : ∀ q, b.lock = some q → y.pc q ≠ .reading i → y.pc q ≠ .validating i → b.valid = true
  filled : ∀ q, y.pc q = .validating i → b.data = last start x.trace d b.blockno
  still : ∀ q, y.pc q = .reading i ∨ y.pc q = .validating i →
    y.changed i = false ∧ y.saved i = false
  -- The process was not at another buffer before, and is not after.
  before : ∀ j, j ≠ i → x.pc p ≠ .reading j ∧ x.pc p ≠ .validating j
  after : ∀ j, j ≠ i → c ≠ .reading j ∧ c ≠ .validating j

omit [Fintype P] in
theorem Fresh.mild (h : Fresh d start x) {c : Pc} {i : Fin NBUF} {b : Buf P}
    (ht : Touches x y p c i b) (hm : Mild d start x y p c i b) : Fresh d start y := by
  -- A process at another buffer was there before.
  have hpc : ∀ q j, j ≠ i → (y.pc q = .reading j ∨ y.pc q = .validating j) → y.pc q = x.pc q := by
    intro q j hj hq
    by_cases hqp : q = p
    · rw [hqp, ht.pc, update_self] at hq
      rcases hq with hq | hq
      · exact absurd hq (hm.after j hj).1
      · exact absurd hq (hm.after j hj).2
    · rw [ht.pc, update_of_ne hqp]
  refine ⟨fun j => ?_, fun j hj => ?_, fun j hd hv hc => ?_, fun n hn => ?_, fun j hj => ?_,
    fun q j hl hr hv => ?_, fun q j hq => ?_, fun q j hq => ?_, hm.honest⟩
  · by_cases hj : j = i
    · rw [hj, ht.self]
      exact hm.dev
    · rw [ht.other hj]
      exact h.dev j
  · by_cases hji : j = i
    · rw [hji, ht.self] at hj ⊢
      exact hm.used hj
    · rw [ht.other hji] at hj ⊢
      exact h.used j hj
  · rw [hm.recent]
    by_cases hj : j = i
    · rw [hj, ht.self] at hd hv ⊢
      rw [hj] at hc
      exact hm.data hd hv hc
    · rw [ht.other hj] at hd hv ⊢
      rw [(ht.flags j hj).1] at hc
      exact h.data j hd hv hc
  · rw [hm.recent, hm.disk]
    rcases h.disk n hn with hdisk | ⟨j, hd, hb, hv, hpin⟩
    · exact Or.inl hdisk
    · by_cases hj : j = i
      · rw [hj] at hd hb hv hpin
        rcases hm.pin hpin hd hv with ⟨h₁, h₂, h₃, h₄⟩ | hdisk
        · refine Or.inr ⟨i, ?_⟩
          rw [ht.self]
          exact ⟨h₁, h₂.trans hb, h₃, h₄⟩
        · rw [hb] at hdisk
          exact Or.inl hdisk
      · refine Or.inr ⟨j, ?_⟩
        rw [ht.other hj, ht.pins j hj]
        exact ⟨hd, hb, hv, hpin⟩
  · rw [hm.disk]
    by_cases hji : j = i
    · rw [hji] at hj ⊢
      rw [ht.self]
      exact hm.saved hj
    · rw [(ht.flags j hji).2] at hj
      rw [ht.other hji, (ht.flags j hji).1]
      exact h.saved j hj
  · by_cases hj : j = i
    · rw [hj, ht.self] at hl ⊢
      rw [hj] at hr hv
      exact hm.held q hl hr hv
    · rw [ht.other hj] at hl ⊢
      by_cases hqp : q = p
      · rw [hqp] at hl
        exact h.held p j hl (hm.before j hj).1 (hm.before j hj).2
      · rw [ht.pc, update_of_ne hqp] at hr hv
        exact h.held q j hl hr hv
  · rw [hm.recent]
    by_cases hj : j = i
    · rw [hj] at hq ⊢
      rw [ht.self]
      exact hm.filled q hq
    · have hx := hpc q j hj (Or.inr hq)
      rw [hx] at hq
      rw [ht.other hj]
      exact h.filled q j hq
  · by_cases hj : j = i
    · rw [hj] at hq ⊢
      exact hm.still q hq
    · rw [hpc q j hj hq] at hq
      rw [(ht.flags j hj).1, (ht.flags j hj).2]
      exact h.still q j hq

omit [DecidableEq P] in
theorem Shape.alone (hx : Shape x) {i : Fin NBUF} (hpc : x.pc p = .idle)
    (hl : (x.cache.buf i).lock = some p) (q : P) :
    x.pc q ≠ .reading i ∧ x.pc q ≠ .validating i := by
  have hne : x.pc q = .reading i ∨ x.pc q = .validating i → False := by
    intro hq
    have hlq := hx.busy q i hq
    rw [hl, Option.some.injEq] at hlq
    rw [← hlq, hpc] at hq
    exact Pc.not_at Pc.idle_ne hq
  exact ⟨fun h => hne (Or.inl h), fun h => hne (Or.inr h)⟩

omit [DecidableEq P] in
theorem Shape.blockno_ne (hx : Shape x) (hd : 1 ≤ d) {i j : Fin NBUF} (hij : j ≠ i)
    (hi : (x.cache.buf i).dev = d) (hj : (x.cache.buf j).dev = d) :
    (x.cache.buf j).blockno ≠ (x.cache.buf i).blockno :=
  fun h => hij (hx.uniq j i (by rw [hj]; exact hd) (by rw [hi, hj]) h)

omit [DecidableEq P] [Fintype P] in
theorem Fresh.blockno_lt (h : Fresh d start x) (hd : 1 ≤ d) {i : Fin NBUF}
    (hi : (x.cache.buf i).dev = d) : (x.cache.buf i).blockno < MAXBLOCK := by
  rcases h.dev i with hz | hlt
  · omega
  · exact hlt.2

theorem Fresh.write (h : Fresh d start x) (hx : Shape x) (hd : 1 ≤ d) {i : Fin NBUF} {b : Buf P}
    (ht : Touches x y p .idle i b) (hpc : x.pc p = .idle) (hl : (x.cache.buf i).lock = some p)
    (hb : b.dev = (x.cache.buf i).dev ∧ b.blockno = (x.cache.buf i).blockno ∧
      b.valid = (x.cache.buf i).valid ∧ b.data = (x.cache.buf i).data)
    (hchanged : y.changed i = false)
    (htrace : y.trace = .write p (x.cache.buf i).dev (x.cache.buf i).blockno
      (x.cache.buf i).data :: x.trace)
    (hdisk : (y.disk = x.disk ∧ 0 < y.pins i ∧ y.saved i = x.saved i) ∨
      y.disk = update x.disk (sector (x.cache.buf i).blockno) (x.cache.buf i).data) :
    Fresh d start y := by
  have hdev := h.used i (hx.refcnt_pos_of_lock hl)
  have hlt := h.blockno_lt hd hdev
  have hvalid := h.held p i hl (hx.alone hpc hl p).1 (hx.alone hpc hl p).2
  have hpcs : y.pc = x.pc := ht.pc.trans (pc_idle hpc).symm
  have hrecent : last start y.trace d = update (last start x.trace d)
      (x.cache.buf i).blockno (x.cache.buf i).data := by
    rw [htrace, hdev, last_write]
  -- Only the block of buffer `i` is written.
  have hother : ∀ j, j ≠ i → (x.cache.buf j).dev = d →
      last start y.trace d (x.cache.buf j).blockno =
        last start x.trace d (x.cache.buf j).blockno := by
    intro j hj hjd
    rw [hrecent, update_of_ne (hx.blockno_ne hd hj hdev hjd)]
  have hsector : ∀ n, n < MAXBLOCK → n ≠ (x.cache.buf i).blockno →
      y.disk (sector n) = x.disk (sector n) := by
    intro n hn hne
    rcases hdisk with hdisk | hdisk
    · rw [hdisk.1]
    · rw [hdisk, update_of_ne (fun he => hne (sector_inj hn hlt he))]
  refine ⟨fun j => ?_, fun j hj => ?_, fun j hjd hv hc => ?_, fun n hn => ?_, fun j hj => ?_,
    fun q j hlj hr hv => ?_, fun q j hq => ?_, fun q j hq => ?_, ?_⟩
  · by_cases hj : j = i
    · rw [hj, ht.self, hb.1, hb.2.1]
      exact h.dev i
    · rw [ht.other hj]
      exact h.dev j
  · by_cases hji : j = i
    · rw [hji, ht.self, hb.1]
      exact hdev
    · rw [ht.other hji] at hj ⊢
      exact h.used j hj
  · by_cases hj : j = i
    · rw [hj, ht.self, hb.2.1, hb.2.2.2, hrecent, update_self]
    · rw [ht.other hj] at hjd hv ⊢
      rw [(ht.flags j hj).1] at hc
      rw [hother j hj hjd]
      exact h.data j hjd hv hc
  · by_cases hne : n = (x.cache.buf i).blockno
    · rcases hdisk with ⟨_, hpin, _⟩ | hdisk
      · refine Or.inr ⟨i, ?_⟩
        rw [ht.self, hb.1, hb.2.1, hb.2.2.1]
        exact ⟨hdev, hne.symm, hvalid, hpin⟩
      · rw [hne, hdisk, hrecent, update_self, update_self]
        exact Or.inl rfl
    · rw [hsector n hn hne, hrecent, update_of_ne hne]
      rcases h.disk n hn with hn' | ⟨j, hjd, hjb, hjv, hpin⟩
      · exact Or.inl hn'
      · have hj : j ≠ i := fun he => hne (by rw [← hjb, he])
        refine Or.inr ⟨j, ?_⟩
        rw [ht.other hj, ht.pins j hj]
        exact ⟨hjd, hjb, hjv, hpin⟩
  · by_cases hji : j = i
    · rw [hji] at hj ⊢
      rw [ht.self, hb.2.1, hb.2.2.2]
      rcases hdisk with ⟨hsame, _, hsaved⟩ | hdisk
      · rw [hsaved] at hj
        rw [hsame]
        exact ⟨(h.saved i hj).1, hchanged⟩
      · rw [hdisk, update_self]
        exact ⟨rfl, hchanged⟩
    · rw [(ht.flags j hji).2] at hj
      -- A buffer that has been saved is locked, and so it is of the device.
      have hlj : (x.cache.buf j).lock ≠ none := fun hn =>
        Bool.false_ne_true ((hx.quiet j hn).2.symm.trans hj)
      rcases Option.ne_none_iff_exists'.mp hlj with ⟨q, hq⟩
      have hjd := h.used j (hx.refcnt_pos_of_lock hq)
      rw [ht.other hji, (ht.flags j hji).1,
        hsector _ (h.blockno_lt hd hjd) (hx.blockno_ne hd hji hdev hjd)]
      exact h.saved j hj
  · rw [hpcs] at hr hv
    by_cases hj : j = i
    · rw [hj, ht.self, hb.2.2.1]
      exact hvalid
    · rw [ht.other hj] at hlj ⊢
      exact h.held q j hlj hr hv
  · rw [hpcs] at hq
    have hj : j ≠ i := fun he => (hx.alone hpc hl q).2 (he ▸ hq)
    have hjd := h.used j (hx.refcnt_pos_of_lock (hx.busy q j (Or.inr hq)))
    rw [ht.other hj, hother j hj hjd]
    exact h.filled q j hq
  · rw [hpcs] at hq
    have hj : j ≠ i := by
      intro he
      rw [he] at hq
      rcases hq with hq | hq
      · exact (hx.alone hpc hl q).1 hq
      · exact (hx.alone hpc hl q).2 hq
    rw [(ht.flags j hj).1, (ht.flags j hj).2]
    exact h.still q j hq
  · rw [htrace]
    exact h.honest

omit [Fintype P] in
theorem Mild.of_same (h : Fresh d start x) {c : Pc} {i : Fin NBUF} {b : Buf P}
    (ht : Touches x y p c i b)
    (hb : b.dev = (x.cache.buf i).dev ∧ b.blockno = (x.cache.buf i).blockno ∧
      b.valid = (x.cache.buf i).valid ∧ b.data = (x.cache.buf i).data)
    (hdisk : y.disk = x.disk) (hrecent : last start y.trace d = last start x.trace d)
    (hhonest : Honest start y.trace) (hpins : y.pins i = x.pins i)
    (hchanged : y.changed i = x.changed i) (hsaved : y.saved i = true → x.saved i = true)
    (hused : 0 < b.refcnt → (x.cache.buf i).dev = d)
    (hheld : ∀ q, b.lock = some q → y.pc q ≠ .reading i → y.pc q ≠ .validating i →
      (x.cache.buf i).valid = true)
    (hreading : c = .reading i → x.changed i = false ∧ x.saved i = false)
    (hvalidating : ∀ j, c ≠ .validating j)
    (hbefore : ∀ j, j ≠ i → x.pc p ≠ .reading j ∧ x.pc p ≠ .validating j)
    (hafter : ∀ j, j ≠ i → c ≠ .reading j) : Mild d start x y p c i b := by
  have hnot : x.saved i = false → y.saved i = false := fun hf =>
    Bool.eq_false_iff.mpr (fun ht => Bool.false_ne_true (hf.symm.trans (hsaved ht)))
  rcases hb with ⟨hdev, hblockno, hvalid, hdata⟩
  refine ⟨hdisk, hrecent, hhonest, ?_, ?_, ?_, ?_, ?_, ?_, fun q hq => ?_, fun q hq => ?_, hbefore,
    fun j hj => ⟨hafter j hj, hvalidating j⟩⟩
  · rw [hdev, hblockno]
    exact h.dev i
  · rw [hdev]
    exact hused
  · rw [hdev, hblockno, hvalid, hdata, hchanged]
    exact h.data i
  · rw [hdev, hblockno, hvalid, hpins]
    exact fun hpin hd hv => Or.inl ⟨hd, rfl, hv, hpin⟩
  · rw [hblockno, hdata, hchanged]
    exact fun hs => h.saved i (hsaved hs)
  · rw [hvalid]
    exact hheld
  · rw [hblockno, hdata]
    by_cases hqp : q = p
    · rw [hqp, ht.pc, update_self] at hq
      exact absurd hq (hvalidating i)
    · rw [ht.pc, update_of_ne hqp] at hq
      exact h.filled q i hq
  · rw [hchanged]
    by_cases hqp : q = p
    · rw [hqp, ht.pc, update_self] at hq
      rcases hq with hq | hq
      · exact ⟨(hreading hq).1, hnot (hreading hq).2⟩
      · exact absurd hq (hvalidating i)
    · rw [ht.pc, update_of_ne hqp] at hq
      exact ⟨(h.still q i hq).1, hnot (h.still q i hq).2⟩

/-- All calls of `bread` are for one device, and for blocks with sectors of their own. -/
def OneDevice (d : Nat) : Event P → Prop
  | .bread _ dev b => dev = d ∧ b < MAXBLOCK
  | _ => True

theorem Pc.at_other {c : Pc} {i : Fin NBUF} (hc : c = .reading i ∨ c = .validating i)
    (j : Fin NBUF) (hj : j ≠ i) : c ≠ .reading j ∧ c ≠ .validating j := by
  rcases hc with hc | hc
  · rw [hc]
    exact ⟨fun he => hj (Pc.reading.inj he).symm, nofun⟩
  · rw [hc]
    exact ⟨nofun, fun he => hj (Pc.validating.inj he).symm⟩

omit [Fintype P] in
theorem Fresh.held_other (h : Fresh d start x) {c : Pc} {i : Fin NBUF} {b : Buf P}
    (ht : Touches x y p c i b) (hp : x.pc p ≠ .reading i ∧ x.pc p ≠ .validating i) (q : P)
    (hl : (x.cache.buf i).lock = some q) (hr : y.pc q ≠ .reading i)
    (hv : y.pc q ≠ .validating i) : (x.cache.buf i).valid = true := by
  by_cases hqp : q = p
  · rw [hqp] at hl
    exact h.held p i hl hp.1 hp.2
  · rw [ht.pc, update_of_ne hqp] at hr hv
    exact h.held q i hl hr hv

theorem Fresh.found (h : Fresh d start x) (hx : Shape x) (i : Fin NBUF) (hpc : x.pc p = .idle)
    (hdev : (x.cache.buf i).dev = d) :
    Fresh d start ({ x with
      cache := x.cache.modify i (fun x => { x with refcnt := x.refcnt + 1 }) }.setPc
        p (.locking i)) := by
  have ht := touches_bread hx
    (x.cache.modify i (fun x => { x with refcnt := x.refcnt + 1 })) i
    { x.cache.buf i with refcnt := (x.cache.buf i).refcnt + 1 } hpc rfl rfl rfl
  refine h.mild ht (Mild.of_same h ht ⟨rfl, rfl, rfl, rfl⟩ rfl rfl h.honest rfl rfl id
    (fun _ => hdev) (h.held_other ht (hpc ▸ Pc.idle_ne i)) nofun
    (nofun) (fun j _ => hpc ▸ Pc.idle_ne j) (nofun))

theorem Fresh.recycled (h : Fresh d start x) (hx : Shape x) (i : Fin NBUF) (n : Nat)
    (hpc : x.pc p = .idle) (hn : n < MAXBLOCK) (hfree : (x.cache.buf i).refcnt = 0) :
    Fresh d start ({ x with
      cache := x.cache.modify i (fun x =>
        { x with dev := d, blockno := n, valid := false, refcnt := 1 }) }.setPc
        p (.locking i)) := by
  rcases hx.free hfree with ⟨hlock, _, hpins⟩
  have ht := touches_bread hx
    (x.cache.modify i (fun x => { x with dev := d, blockno := n, valid := false, refcnt := 1 })) i
    { x.cache.buf i with dev := d, blockno := n, valid := false, refcnt := 1 } hpc rfl rfl
    (by rw [hfree])
  -- Nobody is at a buffer that is not locked.
  have hnobody : ∀ q, ¬((update x.pc p (.locking i)) q = .reading i ∨
      (update x.pc p (.locking i)) q = .validating i) := by
    intro q hq
    by_cases hqp : q = p
    · rw [hqp, update_self] at hq
      exact Pc.not_at (Pc.locking_ne i) hq
    · rw [update_of_ne hqp] at hq
      exact Option.some_ne_none q ((hx.busy q i hq).symm.trans hlock)
  refine h.mild ht ⟨rfl, rfl, h.honest, Or.inr ⟨rfl, hn⟩, fun _ => rfl, fun _ hv => ?_,
    fun hpin => ?_, fun hs => ?_, fun q hq => ?_, fun q hq => absurd (Or.inr hq) (hnobody q),
    fun q hq => absurd hq (hnobody q), fun j _ => hpc ▸ Pc.idle_ne j, fun j _ => Pc.locking_ne i j⟩
  · exact nomatch hv
  · omega
  · exact nomatch ((hx.quiet i hlock).2.symm.trans hs)
  · exact absurd (hlock.symm.trans hq).symm (Option.some_ne_none q)

omit [Fintype P] in
theorem Fresh.locks (h : Fresh d start x) (i : Fin NBUF) (hpc : x.pc p = .locking i)
    (hl : (x.cache.buf i).lock = none) (hquiet : x.changed i = false ∧ x.saved i = false) :
    Fresh d start ({ x with
      cache := x.cache.modify i (fun b => { b with lock := some p }) }.setPc p (.reading i)) := by
  have ht := touches_locks hpc hl
  refine h.mild ht (Mild.of_same h ht ⟨rfl, rfl, rfl, rfl⟩ rfl rfl h.honest rfl rfl id
    (h.used i) (fun q hq hr _ => ?_) (fun _ => hquiet) (nofun)
    (fun j _ => hpc ▸ Pc.locking_ne i j) (fun j hj hc => hj (Pc.reading.inj hc).symm))
  rw [← Option.some.inj hq, ht.pc, update_self] at hr
  exact absurd rfl hr

theorem Fresh.hit (h : Fresh d start x) (hx : Shape x) (i : Fin NBUF) (hpc : x.pc p = .reading i)
    (hv : (x.cache.buf i).valid = true) : Fresh d start (x.returned p i) := by
  have ht := touches_hit hx hpc
  have hdev := h.used i (hx.refcnt_pos_of_lock (hx.busy p i (Or.inl hpc)))
  refine h.mild ht (Mild.of_same h ht ⟨rfl, rfl, rfl, rfl⟩ rfl rfl ⟨?_, h.honest⟩ rfl rfl id
    (h.used i) (fun _ _ _ _ => hv) nofun (nofun)
    (Pc.at_other (Or.inl hpc)) (nofun))
  rw [hdev]
  exact h.data i hdev hv (h.still p i (Or.inl hpc)).1

/-- A block is read from the disk: nobody has a newer copy of it. -/
theorem Fresh.miss (h : Fresh d start x) (hx : Shape x) (hd : 1 ≤ d) (i : Fin NBUF)
    (hpc : x.pc p = .reading i) (hv : (x.cache.buf i).valid = false) :
    Fresh d start ({ x with
      cache := x.cache.modify i (fun b => { b with data := x.disk (sector b.blockno) }) }.setPc
      p (.validating i)) := by
  have ht := touches_miss hx hpc
  have hl := hx.busy p i (Or.inl hpc)
  have hdev := h.used i (hx.refcnt_pos_of_lock hl)
  have hinv : (x.cache.buf i).valid ≠ true := by
    rw [hv]
    exact Bool.false_ne_true
  have hstill := h.still p i (Or.inl hpc)
  refine h.mild ht ⟨rfl, rfl, h.honest, h.dev i, h.used i, fun _ hv' => absurd hv' hinv,
    fun _ _ hv' => absurd hv' hinv, fun hs => ?_, fun q hq _ hval => ?_, fun q _ => ?_,
    fun q _ => hstill, Pc.at_other (Or.inl hpc), fun j hj => Pc.at_other (Or.inr rfl) j hj⟩
  · exact nomatch (hstill.2.symm.trans hs)
  · have hqp : p = q := Option.some.inj (hl.symm.trans hq)
    rw [← hqp, ht.pc, update_self] at hval
    exact absurd rfl hval
  · rcases h.disk _ (h.blockno_lt hd hdev) with hdisk | ⟨j, hjd, hjb, hjv, _⟩
    · exact hdisk
    · -- A buffer with a newer copy would be this one.
      have hji : j = i := hx.uniq j i (by rw [hjd]; exact hd) (by rw [hjd, hdev]) hjb
      rw [hji] at hjv
      exact absurd hjv hinv

theorem Fresh.fill (h : Fresh d start x) (hx : Shape x) (i : Fin NBUF)
    (hpc : x.pc p = .validating i) :
    Fresh d start (System.returned
      { x with cache := x.cache.modify i (fun b => { b with valid := true }) } p i) := by
  have ht := touches_filled hx hpc
  have hdev := h.used i (hx.refcnt_pos_of_lock (hx.busy p i (Or.inr hpc)))
  have hstill := h.still p i (Or.inr hpc)
  have hpc' : ∀ q, (update x.pc p .idle) q = .validating i → x.pc q = .validating i := by
    intro q hq
    by_cases hqp : q = p
    · rw [hqp]
      exact hpc
    · rw [update_of_ne hqp] at hq
      exact hq
  refine h.mild ht ⟨rfl, rfl, ⟨?_, h.honest⟩, h.dev i, h.used i, fun _ _ _ => h.filled p i hpc,
    fun hpin hd' _ => Or.inl ⟨hd', rfl, rfl, hpin⟩, fun hs => ?_, fun _ _ _ _ => rfl,
    fun q hq => h.filled q i (hpc' q hq), fun _ _ => hstill, Pc.at_other (Or.inr hpc),
    fun j _ => Pc.idle_ne j⟩
  · simp only [modify_self]
    rw [hdev]
    exact h.filled p i hpc
  · exact nomatch (hstill.2.symm.trans hs)

theorem Fresh.dropped (h : Fresh d start x) (hx : Shape x) (i : Fin NBUF)
    (hpc : x.pc p = .dropping i) :
    Fresh d start ({ x with cache := x.cache.dropRef i }.setPc p .idle) := by
  have ht := touches_dropped hx hpc
  refine h.mild ht (Mild.of_same h ht ⟨rfl, rfl, rfl, rfl⟩ rfl rfl h.honest rfl rfl id
    (fun hpos => h.used i ?_) (h.held_other ht (hpc ▸ Pc.dropping_ne i i)) nofun
    (nofun) (fun j _ => hpc ▸ Pc.dropping_ne i j) (nofun))
  have hpos' : 0 < (x.cache.buf i).refcnt - 1 := hpos
  omega

theorem Fresh.modified (h : Fresh d start x) (hx : Shape x) (i : Fin NBUF) (blk : Block)
    (hpc : x.pc p = .idle) (hl : (x.cache.buf i).lock = some p) :
    Fresh d start { x with
      cache := x.cache.modify i (fun b => { b with data := blk })
      changed := update x.changed i true
      saved := update x.saved i false } := by
  have halone := hx.alone hpc hl
  refine h.mild (touches_modified blk hpc hl) ⟨rfl, rfl, h.honest, h.dev i, h.used i,
    fun _ _ hc => ?_, fun hpin hd' hv => Or.inl ⟨hd', rfl, hv, hpin⟩, fun hs => ?_,
    fun q _ _ _ => h.held p i hl (halone p).1 (halone p).2, fun q hq => absurd hq (halone q).2,
    fun q hq => ?_, fun j _ => hpc ▸ Pc.idle_ne j, fun j _ => Pc.idle_ne j⟩
  · exact nomatch ((update_self i true x.changed).symm.trans hc)
  · exact nomatch ((update_self i false x.saved).symm.trans hs)
  · rcases hq with hq | hq
    · exact absurd hq (halone q).1
    · exact absurd hq (halone q).2

theorem Fresh.unpinned (h : Fresh d start x) (hx : Shape x) (i : Fin NBUF) (hpc : x.pc p = .idle)
    (hl : (x.cache.buf i).lock = some p) (hsaved : x.saved i = true) (hpin : 0 < x.pins i) :
    Fresh d start { x with
      cache := x.cache.bunpin i
      pins := update x.pins i (x.pins i - 1) } := by
  have halone := hx.alone hpc hl
  have hdev := h.used i (hx.refcnt_pos hpin)
  refine h.mild (touches_unpinned hx hpc hl hpin) ⟨rfl, rfl, h.honest, h.dev i,
    fun _ => hdev, h.data i, fun _ _ hv => Or.inr ?_, h.saved i,
    fun q hq _ _ => h.held p i hl (halone p).1 (halone p).2, fun q hq => absurd hq (halone q).2,
    fun q => h.still q i, fun j _ => hpc ▸ Pc.idle_ne j, fun j _ => Pc.idle_ne j⟩
  -- The block has been written to the disk since it was last changed.
  rcases h.saved i hsaved with ⟨hdisk, hchanged⟩
  rw [hdisk]
  exact h.data i hdev hv hchanged

omit [Fintype P] in
theorem Fresh.released (h : Fresh d start x) (i : Fin NBUF) (hpc : x.pc p = .idle)
    (hl : (x.cache.buf i).lock = some p) (hwritten : x.changed i = false) :
    Fresh d start ({ x with
      cache := x.cache.modify i (fun b => { b with lock := none })
      saved := update x.saved i false }.setPc p (.dropping i)) := by
  have ht := touches_released hpc hl hwritten
  refine h.mild ht (Mild.of_same h ht ⟨rfl, rfl, rfl, rfl⟩ rfl rfl h.honest rfl rfl (fun hs => ?_)
    (h.used i) (fun q hq _ _ => absurd hq (Option.some_ne_none q).symm) nofun
    (nofun) (fun j _ => hpc ▸ Pc.idle_ne j) (nofun))
  have hs' : update x.saved i false i = true := hs
  rw [update_self] at hs'
  exact nomatch hs'

/-- What every step preserves on one device. -/
theorem Fresh.next (h : Fresh d start x) (hx : Shape x) (hd : 1 ≤ d) {e : Event P}
    (hone : OneDevice d e) (hn : Next x e y) : Fresh d start y := by
  cases hn with
  | found p dev b i hpc hdev hb => exact h.found hx i hpc (hdev.trans hone.1)
  | recycled p dev b i hpc hnone hfree =>
    rw [hone.1]
    exact h.recycled hx i b hpc hone.2 hfree
  | locks p i hpc hl => exact h.locks i hpc hl (hx.quiet i hl)
  | hit p i hpc hv => exact h.hit hx i hpc hv
  | miss p i hpc hv => exact h.miss hx hd i hpc hv
  | filled p i hpc => exact h.fill hx i hpc
  | dropped p i hpc => exact h.dropped hx i hpc
  | modified p i blk hpc hl => exact h.modified hx i blk hpc hl
  | written p i hpc hl =>
    exact h.write hx hd (touches_written hpc hl) hpc hl ⟨rfl, rfl, rfl, rfl⟩
      (update_self i _ _) rfl (Or.inr rfl)
  | pinned p i hpc hl =>
    refine h.write hx hd (touches_pinned hpc hl) hpc hl ⟨rfl, rfl, rfl, rfl⟩
      (update_self i _ _) ?_ (Or.inl ⟨rfl, ?_, rfl⟩)
    · simp only [System.wrote, Cache.bpin, modify_self]
    · simp only [System.wrote, update_self]
      exact Nat.succ_pos _
  | absorbed p i hpc hl hpin =>
    exact h.write hx hd (touches_absorbed hpc hl) hpc hl ⟨rfl, rfl, rfl, rfl⟩
      (update_self i _ _) rfl (Or.inl ⟨rfl, hpin, rfl⟩)
  | unpinned p i hpc hl hsaved hpin => exact h.unpinned hx i hpc hl hsaved hpin
  | released p i hpc hl hwritten => exact h.released i hpc hl hwritten

end Fresh

/-! ### Every run -/

section Runs

variable {P : Type} [DecidableEq P] [Fintype P]

theorem runs_shape {start : Disk} {es : List (Event P)} {x : System P}
    (h : runs step es (boot P start) = .done x) : Shape x :=
  runs_invariant step Shape (fun _ _ _ hx hy => hx.next (step_next hx hy)) es _ x
    (shape_boot start) h

theorem runs_fresh {d : Nat} (hd : 1 ≤ d) {start : Disk} {es : List (Event P)} {x : System P}
    (hone : ∀ e ∈ es, OneDevice d e) (h : runs step es (boot P start) = .done x) :
    Fresh d start x := by
  refine (runs_invariant_of step (fun x => Shape x ∧ Fresh d start x) (fun _ e => OneDevice d e)
    (fun x e y hx he hy => ?_) es _ x ⟨shape_boot start, fresh_boot start hd⟩
    (fun es₁ e es₂ u hes _ => hone e ?_) h).2
  · have hn := step_next hx.1 hy
    exact ⟨hx.1.next hn, hx.2.next hx.1 hd he hn⟩
  · rw [hes]
    exact List.mem_append_right es₁ List.mem_cons_self

/-- In every run: no block is cached twice, the links form a ring in which every
    buffer is once, and a count is the number of references and pins, so that a
    buffer that is held, waited for or pinned stays with its block. If the calls are
    for one device and for blocks whose sectors have 32-bit numbers, what `bread`
    returns is what was written most recently. -/
theorem cache_coherent (start : Disk) (es : List (Event P)) (x : System P)
    (h : runs step es (boot P start) = .done x) :
    (∀ i j, 1 ≤ (x.cache.buf i).dev → (x.cache.buf i).dev = (x.cache.buf j).dev →
      (x.cache.buf i).blockno = (x.cache.buf j).blockno → i = j) ∧
    (∃ l, x.cache.links.Ring l ∧ l.Nodup ∧ ∀ i, i ∈ l) ∧
    (∀ i, (x.cache.buf i).refcnt = ∑ p, x.refs p i + x.pins i) ∧
    (∀ e y i, step x e = .done y → (∃ p, 0 < x.refs p i) ∨ 0 < x.pins i →
      (y.cache.buf i).dev = (x.cache.buf i).dev ∧
        (y.cache.buf i).blockno = (x.cache.buf i).blockno) ∧
    ∀ d, 1 ≤ d → (∀ e ∈ es, OneDevice d e) →
      ∀ newer older p dev b blk, x.trace = newer ++ .read p dev b blk :: older →
        blk = last start older dev b := by
  have hx := runs_shape h
  have hcount : ∀ i, (x.cache.buf i).refcnt = ∑ p, x.refs p i + x.pins i := by
    intro i
    rw [System.sum_refs]
    exact hx.count i
  refine ⟨hx.uniq, hx.ring, hcount, fun e y i hy hi => ?_,
    fun d hd hone newer older p dev b blk ht => ?_⟩
  · refine hx.same_block (step_next hx hy) ?_
    rw [hcount]
    rcases hi with ⟨p, hp⟩ | hi
    · have hle := Finset.single_le_sum (f := fun q => x.refs q i) (fun q _ => Nat.zero_le _)
        (Finset.mem_univ p)
      exact Nat.lt_of_lt_of_le hp (hle.trans (Nat.le_add_right _ _))
    · omega
  · exact (runs_fresh hd hone h).honest.read ht

/-- A call of `bread` that goes to the disk. -/
def readIn (p : P) (dev b : Nat) : List (Event P) :=
  .bread p dev b :: List.replicate 3 (.step p)

/-- A block is read into buffer `i` and written. -/
def writeOver (p : P) (dev b : Nat) (i : Fin NBUF) (d : Block) : List (Event P) :=
  readIn p dev b ++ [.modify p i d, .bwrite p i, .brelse p i, .step p]

/-- The only process of these runs. -/
def lone : Fin 1 := Fin.last 0

theorem read_of_decide (es : List (Event (Fin 1))) (dev b : Nat)
    (t : System (Fin 1) → Block → List (Obs (Fin 1)) → Prop)
    [∀ x blk older, Decidable (t x blk older)]
    (h : (runs step es (boot (Fin 1) (fun _ _ => 0))).check (fun x =>
      match x.trace with
      | .read _ dev' b' blk :: older => dev' = dev ∧ b' = b ∧ t x blk older
      | _ => false) = true) :
    ∃ x blk older, runs step es (boot (Fin 1) (fun _ _ => 0)) = .done x ∧
      x.trace = .read 0 dev b blk :: older ∧ t x blk older := by
  rcases Outcome.exists_of_check _ _ h with ⟨x, hx, hp⟩
  cases htr : x.trace with
  | nil =>
    rw [htr] at hp
    exact nomatch hp
  | cons o older =>
    rw [htr] at hp
    cases o with
    | read q dev' b' blk =>
      rcases of_decide_eq_true hp with ⟨rfl, rfl, ht⟩
      exact ⟨x, blk, older, hx, by rw [htr, Subsingleton.elim q 0], ht⟩
    | write q dev' b' blk => exact nomatch hp

/-- One block of one device is written, and read again. -/
def oneDevice : List (Event (Fin 1)) :=
  writeOver lone 1 5 0 (fun _ => 7) ++ [.bread lone 1 5, .step lone, .step lone]

theorem cache_coherent_oneDevice : ∃ x blk older,
    runs step oneDevice (boot (Fin 1) (fun _ _ => 0)) = .done x ∧
    x.trace = .read 0 1 5 blk :: older ∧ blk = last (fun _ _ => 0) older 1 5 := by
  rcases read_of_decide oneDevice 1 5 (fun _ _ _ => True) (by decide +kernel)
    with ⟨x, blk, older, hx, htr, -⟩
  refine ⟨x, blk, older, hx, htr, ?_⟩
  refine (cache_coherent _ oneDevice x hx).2.2.2.2 1 (Nat.le_refl 1) (fun e he => ?_) [] older 0 1 5
    blk htr
  cases e with
  | bread p dev b =>
    simp only [oneDevice, writeOver, readIn, List.replicate, List.cons_append, List.nil_append,
      List.mem_cons, Event.bread.injEq, reduceCtorEq, false_or, or_false, List.not_mem_nil] at he
    rcases he with ⟨_, rfl, rfl⟩ | ⟨_, rfl, rfl⟩
    · exact ⟨rfl, by decide⟩
    · exact ⟨rfl, by decide⟩
  | _ => trivial

/-- In every run `bread` panics exactly when every buffer is held, waited for or pinned
    and none has the block. With fewer than `NBUF` references and pins it gets a buffer. -/
theorem bread_panics_iff (start : Disk) (es : List (Event P)) (x : System P)
    (h : runs step es (boot P start) = .done x) (p : P) (hp : x.pc p = .idle) (dev b : Nat) :
    (step x (.bread p dev b) = .panic .bget ↔ ∀ i, 0 < ∑ q, x.refs q i + x.pins i ∧
      ¬((x.cache.buf i).dev = dev ∧ (x.cache.buf i).blockno = b)) ∧
    (∑ i, (∑ q, x.refs q i + x.pins i) < NBUF → ∃ y, step x (.bread p dev b) = .done y) := by
  have hx := runs_shape h
  rcases hx.ring with ⟨l, hring, hl, hall⟩
  have hcount : ∀ i, ∑ q, x.refs q i + x.pins i = (x.cache.buf i).refcnt := by
    intro i
    rw [System.sum_refs, hx.count i]
  have hlists : x.cache.Lists ⟨x.cache.buf, l⟩ := ⟨rfl, hring, hl⟩
  simp only [hcount, step, if_pos hp, bget_eq hlists]
  -- The block is in the cache, or a buffer has no references, or neither.
  rcases Bcache.bget_cases ⟨x.cache.buf, l⟩ hall dev b with
    ⟨k, hk, hget⟩ | ⟨hnone, ⟨k, hk, hget⟩ | ⟨hpos, hget⟩⟩ <;> rw [hget]
  · exact ⟨⟨fun hc => (by cases hc), fun hbusy => absurd hk (hbusy k).2⟩, fun _ => ⟨_, rfl⟩⟩
  · exact ⟨⟨fun hc => (by cases hc), fun hbusy => absurd hk (hbusy k).1.ne'⟩, fun _ => ⟨_, rfl⟩⟩
  · refine ⟨⟨fun _ i => ⟨hpos i, hnone i⟩, fun _ => rfl⟩, fun hlt => ?_⟩
    have hsum := Finset.card_nsmul_le_sum Finset.univ _ 1 (fun i _ => hpos i)
    rw [Finset.card_univ, Fintype.card_fin, nsmul_one] at hsum
    exact absurd hlt (Nat.not_lt.mpr hsum)

/-- Blocks 0 to 29 are read, and none is given back. -/
def allHeld : List (Event (Fin 1)) := (List.range NBUF).flatMap (readIn lone 1)

theorem bread_panics_iff_allHeld : ∃ x,
    runs step allHeld (boot (Fin 1) (fun _ _ => 0)) = .done x ∧
    step x (.bread lone 1 NBUF) = .panic .bget ∧ step x (.bread lone 1 7) ≠ .panic .bget := by
  rcases Outcome.exists_of_decide (fun x : System (Fin 1) => x.pc lone = .idle ∧
    (∀ i, 0 < ∑ q, x.refs q i + x.pins i ∧
      ¬((x.cache.buf i).dev = 1 ∧ (x.cache.buf i).blockno = NBUF)) ∧
    ∃ i, (x.cache.buf i).dev = 1 ∧ (x.cache.buf i).blockno = 7)
    (runs step allHeld (boot (Fin 1) (fun _ _ => 0))) (by decide +kernel)
    with ⟨x, hx, hpc, hbusy, i, hi⟩
  have hiff := bread_panics_iff _ allHeld x hx lone hpc 1
  exact ⟨x, hx, (hiff NBUF).1.mpr hbusy, fun hp => ((hiff 7).1.mp hp i).2 hi⟩

/-! ### Blocks with one place on the disk -/

/-- The first process reads block 6 of device 2, and writes blocks 5 and 6 of device 1.
    Then it reads the blocks of device 2. -/
def twoDevices : List (Event (Fin 1)) :=
  readIn lone 2 6 ++ [.brelse lone 0, .step lone] ++ writeOver lone 1 5 1 (fun _ => 7) ++
    writeOver lone 1 6 2 (fun _ => 7) ++ readIn lone 2 5

/-- A block is written, and the one that is `MAXBLOCK` further is read. -/
def farBlock : List (Event (Fin 1)) :=
  writeOver lone 1 5 0 (fun _ => 7) ++ readIn lone 1 (MAXBLOCK + 5)

/-- The block of device 2 that was never written has the contents that were written to
    device 1, and the one that was in the cache does not have what is on the disk. A block
    of one device has the contents that were written to another. -/
theorem shared_sectors_read :
    (∃ x blk older, runs step twoDevices (boot (Fin 1) (fun _ _ => 0)) = .done x ∧
      x.trace = .read 0 2 5 blk :: older ∧ blk ≠ last (fun _ _ => 0) older 2 5) ∧
    (∃ x blk older, runs step (twoDevices ++ [.bread 0 2 6, .step 0, .step 0])
      (boot (Fin 1) (fun _ _ => 0)) = .done x ∧
      x.trace = .read 0 2 6 blk :: older ∧ blk ≠ x.disk (sector 6)) ∧
    ∃ x blk older, runs step farBlock (boot (Fin 1) (fun _ _ => 0)) = .done x ∧
      x.trace = .read 0 1 (MAXBLOCK + 5) blk :: older ∧
      blk ≠ last (fun _ _ => 0) older 1 (MAXBLOCK + 5) := by
  refine ⟨?_, ?_, ?_⟩
  · rcases read_of_decide twoDevices 2 5 (fun _ blk older =>
      blk 0 ≠ last (fun _ _ => 0) older 2 5 0) (by decide +kernel)
      with ⟨x, blk, older, hx, htr, hne⟩
    exact ⟨x, blk, older, hx, htr, fun he => hne (by rw [← he])⟩
  · rcases read_of_decide (twoDevices ++ [.bread 0 2 6, .step 0, .step 0]) 2 6
      (fun x blk _ => blk 0 ≠ x.disk (sector 6) 0) (by decide +kernel)
      with ⟨x, blk, older, hx, htr, hne⟩
    exact ⟨x, blk, older, hx, htr, fun he => hne (by rw [← he])⟩
  · rcases read_of_decide farBlock 1 (MAXBLOCK + 5) (fun _ blk older =>
      blk 0 ≠ last (fun _ _ => 0) older 1 (MAXBLOCK + 5) 0) (by decide +kernel)
      with ⟨x, blk, older, hx, htr, hne⟩
    exact ⟨x, blk, older, hx, htr, fun he => hne (by rw [← he])⟩

end Runs

end Xv6.Bio
