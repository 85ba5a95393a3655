import Xv6.Bio.Model
import Xv6.Lib.Pool
import Xv6.Log.Cache

/-!
# The Buffer Cache as a Data Structure

What holds of the buffers, their links and their counts in every run.

The links stand for the list of buffers that the model of the log has, and `bget`
and `brelse` do the same on both. `Shape` says that they form a ring of all buffers,
that no block of a device is cached twice, and that every count is the number of
references and pins.

Every step changes one buffer and one process. `Touches` says what it takes for
such a step to keep the invariant.

## Main definitions

* `Cache.Lists`: The links stand for a list.
* `Shape`: The invariant.
* `Touches`: What a step does to one buffer.
* `Next`: The steps, with what the code has tested.

## Theorems

* `bget_eq`, `brelse_lists`: The links and the list.
* `step_next`: Every step is one of `Next`.
* `Shape.next`: What a step preserves.
-/

namespace Xv6.Bio

open Function Outcome List

variable {i : Fin NBUF}

/-! ### The linked list -/

section Linked

variable {P : Type}

theorem modify_self (c : Cache P) (i : Fin NBUF) (f : Buf P → Buf P) :
    (c.modify i f).buf i = f (c.buf i) := update_self i _ _

theorem length_all {l : List (Fin NBUF)} (hl : l.Nodup) : l.length < NBUF + 1 := by
  have := hl.length_le_card
  rw [Fintype.card_fin] at this
  omega

/-- The links have the buffers of `bc` in the order of its list. -/
structure Cache.Lists (c : Cache P) (bc : Bcache P) : Prop where
  buf : c.buf = bc.buf
  ring : c.links.Ring bc.lru
  nodup : bc.lru.Nodup

theorem Cache.Lists.modify {c : Cache P} {bc : Bcache P} (h : c.Lists bc) (i : Fin NBUF)
    (f : Buf P → Buf P) : (c.modify i f).Lists (bc.modify i f) := by
  refine ⟨?_, h.ring, h.nodup⟩
  unfold Cache.modify Bcache.modify
  rw [h.buf]

/-- `bget` on the links is `bget` on the list. -/
theorem bget_eq {c : Cache P} {bc : Bcache P} (h : c.Lists bc) (dev b : Nat) :
    c.bget dev b = bc.bget dev b >>= fun r => .done ({ c with buf := r.1.buf }, r.2) := by
  unfold Cache.bget Bcache.bget
  rw [Links.find_next h.ring _ (length_all h.nodup), Links.find_prev h.ring _ (length_all h.nodup)]
  simp only [Cache.modify, h.buf]
  cases bc.lru.find? (fun i => decide ((bc.buf i).dev = dev ∧ (bc.buf i).blockno = b)) with
  | some i => rfl
  | none =>
    cases bc.lru.reverse.find? (fun i => decide ((bc.buf i).refcnt = 0)) with
    | some i | none => rfl

/-- A buffer goes to the front when its last reference is given back. -/
theorem dropRef_ring {c : Cache P} {l : List (Fin NBUF)} (h : c.links.Ring l) (hl : l.Nodup)
    (hi : i ∈ l) : (c.dropRef i).links.Ring
      (if (c.buf i).refcnt - 1 = 0 then i :: l.erase i else l) := by
  unfold Cache.dropRef
  simp only [modify_self]
  by_cases hz : (c.buf i).refcnt - 1 = 0
  · rw [if_pos hz, if_pos hz]
    rcases append_of_mem hi with ⟨l₁, l₂, rfl⟩
    have hmem : i ∉ l₁ := fun hm =>
      (nodup_append.mp hl).2.2 i hm i mem_cons_self rfl
    rw [erase_append_right _ hmem, erase_cons_head]
    have hl' := (nodup_middle.mp hl)
    exact Links.ring_pushFront (Links.ring_unlink h hl) (nodup_cons.mp hl').2
      (nodup_cons.mp hl').1
  · rw [if_neg hz, if_neg hz]
    exact h

theorem dropRef_buf (c : Cache P) (i : Fin NBUF) :
    (c.dropRef i).buf = (c.modify i (fun x => { x with refcnt := x.refcnt - 1 })).buf := by
  unfold Cache.dropRef
  dsimp only
  by_cases hz : ((c.modify i (fun x => { x with refcnt := x.refcnt - 1 })).buf i).refcnt = 0
  · rw [if_pos hz]
  · rw [if_neg hz]

/-- `brelse` is the unlocking and then `dropRef`. -/
theorem brelse_lists [DecidableEq P] {c : Cache P} {bc : Bcache P} (h : c.Lists bc) (p : P)
    (hi : i ∈ bc.lru) (hl : (bc.buf i).lock = some p) :
    ∃ bc', bc.brelse p i = .done bc' ∧
      ((c.modify i (fun x => { x with lock := none })).dropRef i).Lists bc' := by
  rcases c with ⟨buf, links⟩
  obtain rfl := h.buf
  have hm := h.modify i (fun x => { x with lock := none })
  have hring := dropRef_ring hm.ring hm.nodup hi
  have hbuf := dropRef_buf (Cache.modify ⟨bc.buf, links⟩ i (fun x => { x with lock := none })) i
  simp only [Cache.modify, update_self, update_idem] at hring hbuf
  unfold Bcache.brelse
  rw [if_pos hl]
  by_cases hz : (bc.buf i).refcnt - 1 = 0
  · rw [if_pos hz] at hring ⊢
    exact ⟨_, rfl, hbuf, hring, nodup_cons.mpr ⟨h.nodup.not_mem_erase, h.nodup.erase i⟩⟩
  · rw [if_neg hz] at hring ⊢
    exact ⟨_, rfl, hbuf, hring, h.nodup⟩

theorem ring_foldl_pushFront (l k : List (Fin NBUF)) (L : Links (Fin NBUF)) (h : L.Ring k)
    (hn : (l.reverse ++ k).Nodup) : (l.foldl Links.pushFront L).Ring (l.reverse ++ k) := by
  induction l generalizing k L with
  | nil => exact h
  | cons i l ih =>
    rw [reverse_cons, append_assoc, singleton_append] at hn ⊢
    have hk := nodup_cons.mp (nodup_append.mp hn).2.1
    exact ih (i :: k) _ (Links.ring_pushFront h hk.2 hk.1) hn

theorem binit_lists : (Cache.binit P).Lists (Bcache.binit P) := by
  have h := ring_foldl_pushFront (finRange NBUF) [] .empty Links.ring_empty
    (by rw [append_nil, nodup_reverse]; exact nodup_finRange NBUF)
  rw [append_nil] at h
  exact ⟨rfl, h, nodup_reverse.mpr (nodup_finRange NBUF)⟩

end Linked

/-! ### References -/

section References

variable {P : Type} [DecidableEq P] [Fintype P]

/-- The reference of a process that waits for a buffer, or is giving it back. -/
def Pc.ref (pc : Pc) (i : Fin NBUF) : Nat := if pc = .locking i ∨ pc = .dropping i then 1 else 0

theorem Pc.ref_locking (i j : Fin NBUF) : (Pc.locking i).ref j = if i = j then 1 else 0 := by
  simp only [ref, locking.injEq, reduceCtorEq, or_false]

theorem Pc.ref_dropping (i j : Fin NBUF) : (Pc.dropping i).ref j = if i = j then 1 else 0 := by
  simp only [ref, dropping.injEq, reduceCtorEq, false_or]

/-- The reference of the process that has locked a buffer. -/
def locked (b : Buf P) : Nat := if b.lock = none then 0 else 1

omit [DecidableEq P] [Fintype P] in
theorem locked_none {b : Buf P} (h : b.lock = none) : locked b = 0 := if_pos h

omit [DecidableEq P] [Fintype P] in
theorem locked_some {b : Buf P} {p : P} (h : b.lock = some p) : locked b = 1 :=
  if_neg (by rw [h]; exact Option.some_ne_none p)

omit [DecidableEq P] [Fintype P] in
theorem locked_congr {b b' : Buf P} (h : b'.lock = b.lock) : locked b' = locked b := by
  unfold locked
  rw [h]

namespace System

/-- The processes that wait for a buffer, or are giving it back. -/
def waiting (x : System P) (i : Fin NBUF) : Nat := ∑ p, (x.pc p).ref i

theorem sum_refs (x : System P) (i : Fin NBUF) :
    ∑ p, x.refs p i = locked (x.cache.buf i) + x.waiting i := by
  unfold refs
  rw [Finset.sum_add_distrib]
  refine congrArg₂ (· + ·) ?_ rfl
  unfold locked
  cases hl : (x.cache.buf i).lock with
  | none => simp only [reduceCtorEq, if_false, Finset.sum_const_zero, if_true]
  | some q =>
    simp only [Option.some.injEq, reduceCtorEq, if_false]
    rw [Finset.sum_ite_eq, if_pos (Finset.mem_univ q)]

theorem waiting_update {x y : System P} {p : P} {pc : Pc} (h : y.pc = update x.pc p pc)
    (i : Fin NBUF) : y.waiting i + (x.pc p).ref i = x.waiting i + pc.ref i := by
  unfold waiting
  rw [h]
  exact sum_update (fun _ (c : Pc) => c.ref i) x.pc p pc

omit [DecidableEq P] in
theorem ref_le_waiting (x : System P) (p : P) (i : Fin NBUF) : (x.pc p).ref i ≤ x.waiting i :=
  Finset.single_le_sum (f := fun q => (x.pc q).ref i) (fun _ _ => Nat.zero_le _)
    (Finset.mem_univ p)

end System

end References

/-! ### The data structure -/

section Shape

variable {P : Type} [DecidableEq P] [Fintype P] {x y : System P} {p : P}

/-- The links form a ring of all buffers, no block is cached twice, and the counts
    are right. -/
structure Shape (x : System P) : Prop where
  ring : ∃ l, x.cache.links.Ring l ∧ l.Nodup ∧ ∀ i, i ∈ l
  uniq : ∀ i j, 1 ≤ (x.cache.buf i).dev → (x.cache.buf i).dev = (x.cache.buf j).dev →
    (x.cache.buf i).blockno = (x.cache.buf j).blockno → i = j
  count : ∀ i, (x.cache.buf i).refcnt = locked (x.cache.buf i) + x.waiting i + x.pins i
  busy : ∀ p i, x.pc p = .reading i ∨ x.pc p = .validating i → (x.cache.buf i).lock = some p
  quiet : ∀ i, (x.cache.buf i).lock = none → x.changed i = false ∧ x.saved i = false

omit [DecidableEq P] in
theorem shape_boot (disk : Disk) : Shape (boot P disk) := by
  refine ⟨⟨_, binit_lists.ring, binit_lists.nodup, fun i => ?_⟩, fun i j h => ?_, fun i => ?_,
    fun p i h => ?_, fun i _ => ⟨rfl, rfl⟩⟩
  · exact mem_reverse.mpr (mem_finRange i)
  · exact absurd h (by change ¬1 ≤ 0; omega)
  · change 0 = 0 + ∑ _p : P, 0 + 0
    rw [Finset.sum_const_zero]
    rfl
  · rcases h with h | h
    · exact absurd h (by change ¬Pc.idle = _; simp only [reduceCtorEq, not_false_eq_true])
    · exact absurd h (by change ¬Pc.idle = _; simp only [reduceCtorEq, not_false_eq_true])

/-- What a step of process `p` does to buffer `i` and to nothing else. -/
structure Touches (x y : System P) (p : P) (c : Pc) (i : Fin NBUF) (b : Buf P) : Prop where
  buf : y.cache.buf = update x.cache.buf i b
  pc : y.pc = update x.pc p c
  ref : ∀ j, j ≠ i → c.ref j = (x.pc p).ref j
  pins : ∀ j, j ≠ i → y.pins j = x.pins j
  flags : ∀ j, j ≠ i → y.changed j = x.changed j ∧ y.saved j = x.saved j
  count : b.refcnt + (locked (x.cache.buf i) + (x.pc p).ref i + x.pins i) =
    (x.cache.buf i).refcnt + (locked b + c.ref i + y.pins i)
  lock : ∀ q, q ≠ p → (x.cache.buf i).lock = some q → b.lock = some q
  own : ∀ j, c = .reading j ∨ c = .validating j → j = i ∧ b.lock = some p
  quiet : b.lock = none → y.changed i = false ∧ y.saved i = false

namespace Touches

variable {c : Pc} {i : Fin NBUF} {b : Buf P}

omit [Fintype P] in
theorem self (h : Touches x y p c i b) : y.cache.buf i = b := by
  rw [h.buf, update_self]

omit [Fintype P] in
theorem other (h : Touches x y p c i b) {j : Fin NBUF} (hj : j ≠ i) :
    y.cache.buf j = x.cache.buf j := by
  rw [h.buf, update_of_ne hj]

/-- The structure is kept, if no block is cached twice. -/
theorem shape (h : Touches x y p c i b) (hx : Shape x)
    (hring : ∃ l, y.cache.links.Ring l ∧ l.Nodup ∧ ∀ j, j ∈ l)
    (hid : (b.dev = (x.cache.buf i).dev ∧ b.blockno = (x.cache.buf i).blockno) ∨
      ∀ j, ¬((x.cache.buf j).dev = b.dev ∧ (x.cache.buf j).blockno = b.blockno)) : Shape y := by
  have hwait := System.waiting_update h.pc
  refine ⟨hring, fun j k hd hdev hb => ?_, fun j => ?_, fun q j hq => ?_, fun j hj => ?_⟩
  · by_cases hj : j = i
    · by_cases hk : k = i
      · rw [hj, hk]
      · rw [hj, h.self, h.other hk] at hdev hb
        rw [hj, h.self] at hd
        rcases hid with hid | hid
        · rw [hid.1] at hd hdev
          rw [hid.2] at hb
          rw [hj]
          exact hx.uniq i k hd hdev hb
        · exact absurd ⟨hdev.symm, hb.symm⟩ (hid k)
    · by_cases hk : k = i
      · rw [hk, h.self, h.other hj] at hdev hb
        rw [h.other hj] at hd
        rcases hid with hid | hid
        · rw [hid.1] at hdev
          rw [hid.2] at hb
          rw [hk]
          exact hx.uniq j i hd hdev hb
        · exact absurd ⟨hdev, hb⟩ (hid j)
      · rw [h.other hj, h.other hk] at hdev hb
        rw [h.other hj] at hd
        exact hx.uniq j k hd hdev hb
  · have hc := hx.count j
    have hw := hwait j
    by_cases hj : j = i
    · rw [hj] at hc hw ⊢
      rw [h.self]
      have := h.count
      omega
    · rw [h.other hj, h.pins j hj]
      rw [h.ref j hj] at hw
      omega
  · by_cases hqp : q = p
    · rw [hqp, h.pc, update_self] at hq
      rcases h.own j hq with ⟨hji, hl⟩
      rw [hqp, hji, h.self]
      exact hl
    · rw [h.pc, update_of_ne hqp] at hq
      have hl := hx.busy q j hq
      by_cases hj : j = i
      · rw [hj] at hl ⊢
        rw [h.self]
        exact h.lock q hqp hl
      · rw [h.other hj]
        exact hl
  · by_cases hji : j = i
    · rw [hji] at hj ⊢
      rw [h.self] at hj
      exact h.quiet hj
    · rw [h.other hji] at hj
      rw [(h.flags j hji).1, (h.flags j hji).2]
      exact hx.quiet j hj

end Touches

omit [DecidableEq P] in
theorem Shape.free (h : Shape x) {i : Fin NBUF} (hz : (x.cache.buf i).refcnt = 0) :
    (x.cache.buf i).lock = none ∧ x.waiting i = 0 ∧ x.pins i = 0 := by
  have hc := h.count i
  have hl : locked (x.cache.buf i) = 0 := by omega
  refine ⟨?_, by omega, by omega⟩
  by_contra hn
  unfold locked at hl
  rw [if_neg hn] at hl
  exact Nat.one_ne_zero hl

omit [DecidableEq P] in
theorem Shape.refcnt_pos (h : Shape x) {i : Fin NBUF} (hpin : 0 < x.pins i) :
    0 < (x.cache.buf i).refcnt := by
  have := h.count i
  omega

omit [DecidableEq P] in
theorem Shape.refcnt_pos_of_lock (h : Shape x) {i : Fin NBUF} {q : P}
    (hl : (x.cache.buf i).lock = some q) : 0 < (x.cache.buf i).refcnt := by
  have hc := h.count i
  rw [locked_some hl] at hc
  omega

end Shape

/-! ### The steps -/

section Steps

variable {P : Type} [DecidableEq P] {x y : System P} {p : P}

/-- What can happen in a step, with what the code has tested. -/
inductive Next (x : System P) : Event P → System P → Prop where
  | found (p : P) (dev b : Nat) (i : Fin NBUF) (hpc : x.pc p = .idle)
      (hdev : (x.cache.buf i).dev = dev) (hb : (x.cache.buf i).blockno = b) :
      Next x (.bread p dev b) ({ x with
        cache := x.cache.modify i (fun x => { x with refcnt := x.refcnt + 1 }) }.setPc
          p (.locking i))
  | recycled (p : P) (dev b : Nat) (i : Fin NBUF) (hpc : x.pc p = .idle)
      (hnone : ∀ j, ¬((x.cache.buf j).dev = dev ∧ (x.cache.buf j).blockno = b))
      (hfree : (x.cache.buf i).refcnt = 0) :
      Next x (.bread p dev b) ({ x with
        cache := x.cache.modify i (fun x =>
          { x with dev := dev, blockno := b, valid := false, refcnt := 1 }) }.setPc
          p (.locking i))
  | locks (p : P) (i : Fin NBUF) (hpc : x.pc p = .locking i) (hl : (x.cache.buf i).lock = none) :
      Next x (.step p) ({ x with
        cache := x.cache.modify i (fun b => { b with lock := some p }) }.setPc p (.reading i))
  | hit (p : P) (i : Fin NBUF) (hpc : x.pc p = .reading i)
      (hv : (x.cache.buf i).valid = true) : Next x (.step p) (x.returned p i)
  | miss (p : P) (i : Fin NBUF) (hpc : x.pc p = .reading i)
      (hv : (x.cache.buf i).valid = false) :
      Next x (.step p) ({ x with
        cache := x.cache.modify i (fun b => { b with data := x.disk (sector b.blockno) }) }.setPc
          p (.validating i))
  | filled (p : P) (i : Fin NBUF) (hpc : x.pc p = .validating i) :
      Next x (.step p) (System.returned
        { x with cache := x.cache.modify i (fun b => { b with valid := true }) } p i)
  | dropped (p : P) (i : Fin NBUF) (hpc : x.pc p = .dropping i) :
      Next x (.step p) ({ x with cache := x.cache.dropRef i }.setPc p .idle)
  | modified (p : P) (i : Fin NBUF) (d : Block) (hpc : x.pc p = .idle)
      (hl : (x.cache.buf i).lock = some p) :
      Next x (.modify p i d) { x with
        cache := x.cache.modify i (fun b => { b with data := d })
        changed := update x.changed i true
        saved := update x.saved i false }
  | written (p : P) (i : Fin NBUF) (hpc : x.pc p = .idle) (hl : (x.cache.buf i).lock = some p) :
      Next x (.bwrite p i) (System.wrote
        { x with
          disk := update x.disk (sector (x.cache.buf i).blockno) (x.cache.buf i).data
          saved := update x.saved i true } p i)
  | pinned (p : P) (i : Fin NBUF) (hpc : x.pc p = .idle) (hl : (x.cache.buf i).lock = some p) :
      Next x (.bpin p i) (System.wrote
        { x with
          cache := x.cache.bpin i
          pins := update x.pins i (x.pins i + 1) } p i)
  | absorbed (p : P) (i : Fin NBUF) (hpc : x.pc p = .idle) (hl : (x.cache.buf i).lock = some p)
      (hpin : 0 < x.pins i) : Next x (.absorb p i) (x.wrote p i)
  | unpinned (p : P) (i : Fin NBUF) (hpc : x.pc p = .idle) (hl : (x.cache.buf i).lock = some p)
      (hsaved : x.saved i = true) (hpin : 0 < x.pins i) :
      Next x (.bunpin p i) { x with
        cache := x.cache.bunpin i
        pins := update x.pins i (x.pins i - 1) }
  | released (p : P) (i : Fin NBUF) (hpc : x.pc p = .idle) (hl : (x.cache.buf i).lock = some p)
      (hwritten : x.changed i = false) :
      Next x (.brelse p i) ({ x with
        cache := x.cache.modify i (fun b => { b with lock := none })
        saved := update x.saved i false }.setPc p (.dropping i))

theorem advance_next {p : P} (h : advance x p (x.pc p) = .done y) : Next x (.step p) y := by
  cases hpc : x.pc p with
  | idle =>
    rw [hpc] at h
    exact nomatch h
  | locking i =>
    rw [hpc] at h
    simp only [advance] at h
    cases hl : (x.cache.buf i).lock with
    | none =>
      rw [hl] at h
      rw [← done.inj h]
      exact .locks p i hpc hl
    | some q =>
      rw [hl] at h
      exact nomatch h
  | reading i =>
    rw [hpc] at h
    simp only [advance] at h
    by_cases hv : (x.cache.buf i).valid = true
    · rw [if_pos hv] at h
      rw [← done.inj h]
      exact .hit p i hpc hv
    · rw [if_neg hv] at h
      rw [← done.inj h]
      exact .miss p i hpc (Bool.eq_false_iff.mpr hv)
  | validating i =>
    rw [hpc] at h
    rw [← done.inj h]
    exact .filled p i hpc
  | dropping i =>
    rw [hpc] at h
    rw [← done.inj h]
    exact .dropped p i hpc

theorem holds_iff (i : Fin NBUF) :
    x.holds p i = true ↔ x.pc p = .idle ∧ (x.cache.buf i).lock = some p := by
  unfold System.holds
  rw [decide_eq_true_eq]

theorem pc_idle (hpc : x.pc p = .idle) : x.pc = update x.pc p .idle := by
  rw [← hpc, update_eq_self]

theorem Pc.not_at {c : Pc} {Q : Prop} (hc : ∀ j, c ≠ .reading j ∧ c ≠ .validating j)
    (h : c = .reading i ∨ c = .validating i) : Q := by
  rcases h with h | h
  · exact absurd h (hc i).1
  · exact absurd h (hc i).2

theorem Pc.idle_ne (j : Fin NBUF) : Pc.idle ≠ .reading j ∧ Pc.idle ≠ .validating j :=
  ⟨nofun, nofun⟩

theorem Pc.locking_ne (i j : Fin NBUF) : Pc.locking i ≠ .reading j ∧ Pc.locking i ≠ .validating j :=
  ⟨nofun, nofun⟩

theorem Pc.dropping_ne (i j : Fin NBUF) :
    Pc.dropping i ≠ .reading j ∧ Pc.dropping i ≠ .validating j :=
  ⟨nofun, nofun⟩

theorem touches_held {b : Buf P} (hpc : x.pc p = .idle)
    (hbuf : y.cache.buf = update x.cache.buf i b) (hpc' : y.pc = x.pc)
    (hl : (x.cache.buf i).lock = some p) (hlock : b.lock = (x.cache.buf i).lock)
    (hpins : ∀ j, j ≠ i → y.pins j = x.pins j)
    (hflags : ∀ j, j ≠ i → y.changed j = x.changed j ∧ y.saved j = x.saved j)
    (hcount : b.refcnt + x.pins i = (x.cache.buf i).refcnt + y.pins i) :
    Touches x y p .idle i b := by
  refine ⟨hbuf, hpc'.trans (pc_idle hpc), fun j _ => by rw [hpc], hpins, hflags, ?_,
    fun q _ hq => hlock.trans hq, fun j => Pc.not_at Pc.idle_ne, fun hn => ?_⟩
  · rw [hpc, locked_congr hlock]
    omega
  · rw [hlock, hl] at hn
    exact absurd hn (Option.some_ne_none p)

theorem touches_locks (hpc : x.pc p = .locking i) (hl : (x.cache.buf i).lock = none) :
    Touches x ({ x with
      cache := x.cache.modify i (fun b => { b with lock := some p }) }.setPc p (.reading i))
      p (.reading i) i { x.cache.buf i with lock := some p } := by
  refine ⟨rfl, rfl, fun j hj => ?_, fun _ _ => rfl, fun _ _ => ⟨rfl, rfl⟩, ?_, fun q _ hq => ?_,
    fun j hj => ?_, fun hn => absurd hn (Option.some_ne_none p)⟩
  · rw [hpc, Pc.ref_locking, if_neg hj.symm]
    rfl
  · rw [hpc, Pc.ref_locking, if_pos rfl, locked_none hl, locked_some (p := p) rfl]
    rfl
  · rw [hl] at hq
    exact absurd hq (Option.some_ne_none q).symm
  · rcases hj with hj | hj
    · exact ⟨(Pc.reading.inj hj).symm, rfl⟩
    · exact nomatch hj

theorem touches_released (hpc : x.pc p = .idle) (hl : (x.cache.buf i).lock = some p)
    (hwritten : x.changed i = false) :
    Touches x ({ x with
      cache := x.cache.modify i (fun b => { b with lock := none })
      saved := update x.saved i false }.setPc p (.dropping i))
      p (.dropping i) i { x.cache.buf i with lock := none } := by
  refine ⟨rfl, rfl, fun j hj => ?_, fun _ _ => rfl,
    fun j hj => ⟨rfl, update_of_ne hj _ _⟩, ?_, fun q hq h => ?_,
    fun j => Pc.not_at (Pc.dropping_ne i), fun _ => ⟨hwritten, update_self i _ _⟩⟩
  · rw [hpc, Pc.ref_dropping, if_neg hj.symm]
    rfl
  · rw [hpc, Pc.ref_dropping, if_pos rfl, locked_some hl, locked_none rfl]
    rfl
  · rw [hl] at h
    exact absurd (Option.some.inj h).symm hq

theorem touches_modified (d : Block) (hpc : x.pc p = .idle) (hl : (x.cache.buf i).lock = some p) :
    Touches x { x with
      cache := x.cache.modify i (fun b => { b with data := d })
      changed := update x.changed i true
      saved := update x.saved i false } p .idle i { x.cache.buf i with data := d } :=
  touches_held hpc rfl rfl hl rfl (fun _ _ => rfl)
    (fun _ hj => ⟨update_of_ne hj _ _, update_of_ne hj _ _⟩) rfl

theorem touches_written (hpc : x.pc p = .idle) (hl : (x.cache.buf i).lock = some p) :
    Touches x (System.wrote
      { x with
        disk := update x.disk (sector (x.cache.buf i).blockno) (x.cache.buf i).data
        saved := update x.saved i true } p i) p .idle i (x.cache.buf i) :=
  touches_held hpc (update_eq_self i x.cache.buf).symm rfl hl rfl (fun _ _ => rfl)
    (fun _ hj => ⟨update_of_ne hj _ _, update_of_ne hj _ _⟩) rfl

theorem touches_absorbed (hpc : x.pc p = .idle) (hl : (x.cache.buf i).lock = some p) :
    Touches x (x.wrote p i) p .idle i (x.cache.buf i) :=
  touches_held hpc (update_eq_self i x.cache.buf).symm rfl hl rfl (fun _ _ => rfl)
    (fun _ hj => ⟨update_of_ne hj _ _, rfl⟩) rfl

theorem touches_pinned (hpc : x.pc p = .idle) (hl : (x.cache.buf i).lock = some p) :
    Touches x (System.wrote
      { x with
        cache := x.cache.bpin i
        pins := update x.pins i (x.pins i + 1) } p i) p .idle i
      { x.cache.buf i with refcnt := (x.cache.buf i).refcnt + 1 } := by
  refine touches_held hpc rfl rfl hl rfl (fun j hj => update_of_ne hj _ _)
    (fun j hj => ⟨update_of_ne hj _ _, rfl⟩) ?_
  change (x.cache.buf i).refcnt + 1 + x.pins i =
    (x.cache.buf i).refcnt + update x.pins i (x.pins i + 1) i
  rw [update_self]
  omega

variable [Fintype P] {e : Event P}

theorem step_next (hx : Shape x) (h : step x e = .done y) : Next x e y := by
  cases e with
  | bread p dev b =>
    simp only [step] at h
    by_cases hpc : x.pc p = .idle
    · rw [if_pos hpc, bind_eq_done] at h
      rcases h with ⟨⟨c, i⟩, hg, hy⟩
      rw [← done.inj hy]
      rcases hx.ring with ⟨l, hring, hl, hall⟩
      have hlists : x.cache.Lists ⟨x.cache.buf, l⟩ := ⟨rfl, hring, hl⟩
      rw [bget_eq hlists] at hg
      rcases Bcache.bget_cases ⟨x.cache.buf, l⟩ hall dev b with
        ⟨k, hk, hget⟩ | ⟨hnone, ⟨k, hk, hget⟩ | ⟨_, hget⟩⟩ <;> rw [hget] at hg
      · cases hg
        exact .found p dev b k hpc hk.1 hk.2
      · cases hg
        exact .recycled p dev b k hpc hnone hk
      · cases hg
    · rw [if_neg hpc] at h
      exact nomatch h
  | step p => exact advance_next h
  | modify p i d =>
    simp only [step] at h
    rcases of_guard h with ⟨hh, h⟩
    rw [← done.inj h]
    exact .modified p i d ((holds_iff i).mp hh).1 ((holds_iff i).mp hh).2
  | bwrite p i =>
    simp only [step] at h
    by_cases hpc : x.pc p = .idle
    · rw [if_neg (not_not_intro hpc)] at h
      by_cases hl : (x.cache.buf i).lock = some p
      · rw [if_neg (not_not_intro hl)] at h
        rw [← done.inj h]
        exact .written p i hpc hl
      · rw [if_pos hl] at h
        exact nomatch h
    · rw [if_pos hpc] at h
      exact nomatch h
  | bpin p i =>
    simp only [step] at h
    rcases of_guard h with ⟨hh, h⟩
    rw [← done.inj h]
    exact .pinned p i ((holds_iff i).mp hh).1 ((holds_iff i).mp hh).2
  | absorb p i =>
    simp only [step] at h
    rcases of_guard h with ⟨hh, h⟩
    rw [← done.inj h]
    exact .absorbed p i ((holds_iff i).mp hh.1).1 ((holds_iff i).mp hh.1).2 hh.2
  | bunpin p i =>
    simp only [step] at h
    rcases of_guard h with ⟨hh, h⟩
    rw [← done.inj h]
    exact .unpinned p i ((holds_iff i).mp hh.1).1 ((holds_iff i).mp hh.1).2 hh.2.1 hh.2.2
  | brelse p i =>
    simp only [step] at h
    by_cases hpc : x.pc p = .idle
    · rw [if_neg (not_not_intro hpc)] at h
      by_cases hl : (x.cache.buf i).lock = some p
      · rw [if_neg (not_not_intro hl)] at h
        rcases of_check h with ⟨hch, h⟩
        rw [← done.inj h]
        exact .released p i hpc hl (Bool.eq_false_iff.mpr hch)
      · rw [if_pos hl] at h
        exact nomatch h
    · rw [if_pos hpc] at h
      exact nomatch h

theorem touches_within (hx : Shape x) {c : Pc} {b : Buf P}
    (hbuf : y.cache.buf = update x.cache.buf i b) (hpc : y.pc = update x.pc p c)
    (hpins : y.pins = x.pins) (hflags : y.changed = x.changed ∧ y.saved = x.saved)
    (href : ∀ j, c.ref j = (x.pc p).ref j) (hlock : b.lock = (x.cache.buf i).lock)
    (hrefcnt : b.refcnt = (x.cache.buf i).refcnt)
    (hown : ∀ j, c = .reading j ∨ c = .validating j → j = i ∧ b.lock = some p) :
    Touches x y p c i b := by
  refine ⟨hbuf, hpc, fun j _ => href j, fun j _ => by rw [hpins],
    fun j _ => by rw [hflags.1, hflags.2]; exact ⟨rfl, rfl⟩, ?_, fun q _ hq => hlock.trans hq, hown,
    fun hn => ?_⟩
  · rw [hrefcnt, locked_congr hlock, href i, hpins]
  · rw [hflags.1, hflags.2]
    exact hx.quiet i (hlock.symm.trans hn)

theorem touches_bread (hx : Shape x) (c : Cache P) (i : Fin NBUF) (b : Buf P)
    (hpc : x.pc p = .idle) (hbuf : c.buf = update x.cache.buf i b)
    (hlock : b.lock = (x.cache.buf i).lock) (hrefcnt : b.refcnt = (x.cache.buf i).refcnt + 1) :
    Touches x ({ x with cache := c }.setPc p (.locking i)) p (.locking i) i b := by
  refine ⟨hbuf, rfl, fun j hj => ?_, fun _ _ => rfl, fun _ _ => ⟨rfl, rfl⟩, ?_,
    fun _ _ h => hlock.trans h, fun j => Pc.not_at (Pc.locking_ne i),
    fun hn => hx.quiet i (hlock.symm.trans hn)⟩
  · rw [hpc, Pc.ref_locking, if_neg hj.symm]
    rfl
  · rw [hpc, Pc.ref_locking, if_pos rfl, hrefcnt, locked_congr hlock]
    change _ + (_ + 0 + x.pins i) = _ + (_ + 1 + x.pins i)
    omega

theorem touches_hit (hx : Shape x) (hpc : x.pc p = .reading i) :
    Touches x (x.returned p i) p .idle i (x.cache.buf i) :=
  touches_within hx (update_eq_self i x.cache.buf).symm rfl rfl ⟨rfl, rfl⟩
    (fun j => by rw [hpc]; rfl) rfl rfl (fun _ => Pc.not_at Pc.idle_ne)

theorem touches_miss (hx : Shape x) (hpc : x.pc p = .reading i) :
    Touches x ({ x with
      cache := x.cache.modify i (fun b => { b with data := x.disk (sector b.blockno) }) }.setPc
      p (.validating i)) p (.validating i) i
      { x.cache.buf i with data := x.disk (sector (x.cache.buf i).blockno) } := by
  refine touches_within hx rfl rfl rfl ⟨rfl, rfl⟩ (fun j => by rw [hpc]; rfl)
    rfl rfl (fun j hj => ?_)
  rcases hj with hj | hj
  · exact nomatch hj
  · exact ⟨(Pc.validating.inj hj).symm, hx.busy p i (Or.inl hpc)⟩

theorem touches_filled (hx : Shape x) (hpc : x.pc p = .validating i) :
    Touches x (System.returned
      { x with cache := x.cache.modify i (fun b => { b with valid := true }) } p i) p .idle i
      { x.cache.buf i with valid := true } :=
  touches_within hx rfl rfl rfl ⟨rfl, rfl⟩ (fun j => by rw [hpc]; rfl) rfl rfl
    (fun _ => Pc.not_at Pc.idle_ne)

theorem touches_dropped (hx : Shape x) (hpc : x.pc p = .dropping i) :
    Touches x ({ x with cache := x.cache.dropRef i }.setPc p .idle) p .idle i
      { x.cache.buf i with refcnt := (x.cache.buf i).refcnt - 1 } := by
  have hpos : 0 < (x.cache.buf i).refcnt := by
    have hc := hx.count i
    have hw := x.ref_le_waiting p i
    rw [hpc, Pc.ref_dropping, if_pos rfl] at hw
    omega
  refine ⟨dropRef_buf x.cache i, rfl, fun j hj => ?_, fun _ _ => rfl, fun _ _ => ⟨rfl, rfl⟩, ?_,
    fun _ _ h => h, fun j => Pc.not_at Pc.idle_ne, hx.quiet i⟩
  · rw [hpc, Pc.ref_dropping, if_neg hj.symm]
    rfl
  · rw [hpc, Pc.ref_dropping, if_pos rfl]
    change (x.cache.buf i).refcnt - 1 + (locked (x.cache.buf i) + 1 + x.pins i) =
      (x.cache.buf i).refcnt + (locked (x.cache.buf i) + 0 + x.pins i)
    omega

theorem touches_unpinned (hx : Shape x) (hpc : x.pc p = .idle) (hl : (x.cache.buf i).lock = some p)
    (hpin : 0 < x.pins i) :
    Touches x { x with
      cache := x.cache.bunpin i
      pins := update x.pins i (x.pins i - 1) } p .idle i
      { x.cache.buf i with refcnt := (x.cache.buf i).refcnt - 1 } := by
  have hpos := hx.refcnt_pos hpin
  refine touches_held hpc rfl rfl hl rfl (fun j hj => update_of_ne hj _ _)
    (fun _ _ => ⟨rfl, rfl⟩) ?_
  change (x.cache.buf i).refcnt - 1 + x.pins i =
    (x.cache.buf i).refcnt + update x.pins i (x.pins i - 1) i
  rw [update_self]
  omega

/-- Every step changes one buffer and one process. The buffer stays with its block,
    or it had no references. -/
theorem Next.touches (h : Shape x) (hn : Next x e y) :
    ∃ p c i b, Touches x y p c i b ∧
      ((b.dev = (x.cache.buf i).dev ∧ b.blockno = (x.cache.buf i).blockno) ∨
        ((x.cache.buf i).refcnt = 0 ∧
          ∀ j, ¬((x.cache.buf j).dev = b.dev ∧ (x.cache.buf j).blockno = b.blockno))) := by
  cases hn with
  | found p dev b i hpc hdev hb =>
    exact ⟨p, _, i, _, touches_bread h _ i
      { x.cache.buf i with refcnt := (x.cache.buf i).refcnt + 1 } hpc rfl rfl rfl,
      Or.inl ⟨rfl, rfl⟩⟩
  | recycled p dev b i hpc hnone hfree =>
    exact ⟨p, _, i, _, touches_bread h _ i
      { x.cache.buf i with dev := dev, blockno := b, valid := false, refcnt := 1 } hpc rfl rfl
      (by rw [hfree]), Or.inr ⟨hfree, hnone⟩⟩
  | locks p i hpc hl => exact ⟨p, _, i, _, touches_locks hpc hl, Or.inl ⟨rfl, rfl⟩⟩
  | hit p i hpc hv => exact ⟨p, _, i, _, touches_hit h hpc, Or.inl ⟨rfl, rfl⟩⟩
  | miss p i hpc hv => exact ⟨p, _, i, _, touches_miss h hpc, Or.inl ⟨rfl, rfl⟩⟩
  | filled p i hpc => exact ⟨p, _, i, _, touches_filled h hpc, Or.inl ⟨rfl, rfl⟩⟩
  | dropped p i hpc => exact ⟨p, _, i, _, touches_dropped h hpc, Or.inl ⟨rfl, rfl⟩⟩
  | modified p i d hpc hl => exact ⟨p, _, i, _, touches_modified d hpc hl, Or.inl ⟨rfl, rfl⟩⟩
  | written p i hpc hl => exact ⟨p, _, i, _, touches_written hpc hl, Or.inl ⟨rfl, rfl⟩⟩
  | pinned p i hpc hl => exact ⟨p, _, i, _, touches_pinned hpc hl, Or.inl ⟨rfl, rfl⟩⟩
  | absorbed p i hpc hl hpin => exact ⟨p, _, i, _, touches_absorbed hpc hl, Or.inl ⟨rfl, rfl⟩⟩
  | unpinned p i hpc hl hsaved hpin =>
    exact ⟨p, _, i, _, touches_unpinned h hpc hl hpin, Or.inl ⟨rfl, rfl⟩⟩
  | released p i hpc hl hwritten =>
    exact ⟨p, _, i, _, touches_released hpc hl hwritten, Or.inl ⟨rfl, rfl⟩⟩

/-- Only `brelse` changes the links. -/
theorem Next.ring (h : Shape x) (hn : Next x e y) :
    ∃ l, y.cache.links.Ring l ∧ l.Nodup ∧ ∀ i, i ∈ l := by
  rcases h.ring with ⟨l, hring, hl, hall⟩
  cases hn with
  | dropped p i hpc =>
    refine ⟨_, dropRef_ring hring hl (hall i), ?_, fun j => ?_⟩
    · by_cases hz : (x.cache.buf i).refcnt - 1 = 0
      · rw [if_pos hz]
        exact nodup_cons.mpr ⟨hl.not_mem_erase, hl.erase i⟩
      · rw [if_neg hz]
        exact hl
    · by_cases hz : (x.cache.buf i).refcnt - 1 = 0
      · rw [if_pos hz]
        by_cases hj : j = i
        · rw [hj]
          exact mem_cons_self
        · exact mem_cons_of_mem i ((mem_erase_of_ne hj).mpr (hall j))
      · rw [if_neg hz]
        exact hall j
  | _ => exact ⟨l, hring, hl, hall⟩

theorem Shape.next (h : Shape x) (hn : Next x e y) : Shape y := by
  rcases hn.touches h with ⟨p, c, i, b, ht, hid⟩
  refine ht.shape h (hn.ring h) ?_
  rcases hid with hid | ⟨_, hid⟩
  · exact Or.inl hid
  · exact Or.inr hid

theorem Shape.same_block (h : Shape x) (hn : Next x e y) (hi : 0 < (x.cache.buf i).refcnt) :
    (y.cache.buf i).dev = (x.cache.buf i).dev ∧
      (y.cache.buf i).blockno = (x.cache.buf i).blockno := by
  rcases hn.touches h with ⟨p, c, j, b, ht, hid⟩
  by_cases hij : i = j
  · rw [hij] at hi ⊢
    rw [ht.self]
    rcases hid with hid | ⟨hz, _⟩
    · exact hid
    · omega
  · rw [ht.other hij]
    exact ⟨rfl, rfl⟩

end Steps

end Xv6.Bio
