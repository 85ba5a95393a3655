import Xv6.Log.Crash

/-!
# Crash Atomicity

Whenever the machine loses power, recovery brings the disk to the state after
some prefix of the commits: the ones whose header had reached the disk.

Recovery may be cut short by a further crash any number of times. While it is
under way no transaction is recorded, so a recovery that completes has brought
back what had been committed when the first crash came.

It does complete if it is left alone. After a crash no buffer is in use, and a
step of recovery takes two at most, so `bget` never runs out of them and no
lock has to be waited for. `Taken` keeps track of that.

## Main definitions

* `Event.recovery`: The events of a machine that is recovering.
* `Taken`: One process holds the given buffers and nobody holds any other.

## Theorems

* `recovery_completes`: Recovery that is left alone completes.
* `crash_atomic`: It leaves exactly the committed transactions on the disk.
-/

namespace Xv6.Wal

open Outcome List Bcache

variable {P : Type}

/-- The events of a machine that is recovering: its steps, and crashes. -/
def Event.recovery : Event P → Bool
  | .commit _ => true
  | .crash => true
  | _ => false

/-- Process `p` holds the buffers `S`, and nobody holds any other. -/
def Taken (bc : Bcache P) (p : P) (S : List (Fin NBUF)) : Prop :=
  ∀ i, (i ∈ S → (bc.buf i).refcnt = 1 ∧ (bc.buf i).lock = some p) ∧
    (i ∉ S → (bc.buf i).refcnt = 0 ∧ (bc.buf i).lock = none)

theorem taken_binit (p : P) : Taken (binit P) p [] := fun _ =>
  ⟨fun h => absurd h not_mem_nil, fun _ => ⟨rfl, rfl⟩⟩

theorem fill_count (disk : Disk) (bc : Bcache P) (i j : Fin NBUF) :
    ((bc.fill disk i).buf j).refcnt = (bc.buf j).refcnt ∧
      ((bc.fill disk i).buf j).lock = (bc.buf j).lock := by
  unfold fill
  by_cases hv : (bc.buf i).valid = true
  · rw [if_pos hv]
    exact ⟨rfl, rfl⟩
  · rw [if_neg hv]
    rw [proj_modify (·.refcnt) (fun _ => by rfl), proj_modify (·.lock) (fun _ => by rfl)]
    exact ⟨rfl, rfl⟩

theorem taken_cons {bc bc' : Bcache P} {p : P} {S : List (Fin NBUF)} {i : Fin NBUF}
    (h : Taken bc p S) (href : (bc'.buf i).refcnt = 1) (hlock : (bc'.buf i).lock = some p)
    (hother : ∀ j, j ≠ i → (bc'.buf j).refcnt = (bc.buf j).refcnt ∧
      (bc'.buf j).lock = (bc.buf j).lock) : Taken bc' p (i :: S) := by
  intro j
  by_cases hj : j = i
  · rw [hj]
    exact ⟨fun _ => ⟨href, hlock⟩, fun hn => absurd mem_cons_self hn⟩
  · rw [(hother j hj).1, (hother j hj).2]
    refine ⟨fun hm => (h j).1 ?_, fun hn => (h j).2 (fun hm => hn (mem_cons_of_mem _ hm))⟩
    rcases mem_cons.mp hm with hm | hm
    · exact absurd hm hj
    · exact hm

/-- `bread` serves a process that is alone, as long as the block is not in a
    buffer it holds and a free buffer is left. -/
theorem bread_done (disk : Disk) (bc : Bcache P) (p : P) (b : Nat) (S : List (Fin NBUF))
    (h : Taken bc p S) (hlru : ∀ i, i ∈ bc.lru) (hfree : ∃ i, i ∉ S)
    (hnew : ∀ i ∈ S, (bc.buf i).blockno ≠ b) :
    ∃ bc' i, bc.bread disk p ROOTDEV b = .done (bc', i) ∧ Taken bc' p (i :: S) := by
  -- Both searches of `bget` find a buffer outside `S`.
  have hget : ∃ bc₁ i, bc.bget ROOTDEV b = .done (bc₁, i) ∧ i ∉ S ∧ (bc₁.buf i).refcnt = 1 ∧
      (bc₁.buf i).lock = none ∧ ∀ j, j ≠ i → bc₁.buf j = bc.buf j := by
    rcases bget_cases bc hlru ROOTDEV b with ⟨i, hi, hg⟩ | ⟨_, ⟨i, hi, hg⟩ | ⟨hbusy, _⟩⟩
    · have hiS : i ∉ S := fun hm => hnew i hm hi.2
      refine ⟨_, i, hg, hiS, ?_, ?_, fun j hj => modify_of_ne hj⟩
      · rw [modify_self, ((h i).2 hiS).1]
      · rw [modify_self]
        exact ((h i).2 hiS).2
    · have hiS : i ∉ S := by
        intro hm
        rw [((h i).1 hm).1] at hi
        exact absurd hi Nat.one_ne_zero
      refine ⟨_, i, hg, hiS, ?_, ?_, fun j hj => modify_of_ne hj⟩
      · rw [modify_self]
      · rw [modify_self]
        exact ((h i).2 hiS).2
    · rcases hfree with ⟨i, hi⟩
      exact absurd ((h i).2 hi).1 (hbusy i).ne'
  rcases hget with ⟨bc₁, i, hg, hiS, href, hlock, hother⟩
  have hacq : bc₁.acquiresleep p i = .done (bc₁.modify i (fun x => { x with lock := some p })) := by
    simp only [Bcache.acquiresleep, hlock]
  refine ⟨(bc₁.modify i (fun x => { x with lock := some p })).fill disk i, i, ?_, ?_⟩
  · simp only [Bcache.bread, hg, hacq, done_bind, pure_eq]
  · refine taken_cons h ?_ ?_ (fun j hj => ?_)
    · rw [(fill_count _ _ _ _).1, modify_self]
      exact href
    · rw [(fill_count _ _ _ _).2, modify_self]
    · rw [(fill_count _ _ _ _).1, (fill_count _ _ _ _).2, modify_of_ne hj,
        hother j hj]
      exact ⟨rfl, rfl⟩

theorem taken_setData (bc : Bcache P) (p : P) (S : List (Fin NBUF)) (i : Fin NBUF) (d : Block)
    (h : Taken bc p S) : Taken (bc.setData i d) p S := by
  intro j
  by_cases hj : j = i
  · rw [hj, setData, modify_self]
    exact h i
  · rw [setData, modify_of_ne hj]
    exact h j

variable [DecidableEq P]

theorem brelse_done (bc : Bcache P) (p : P) (i : Fin NBUF) (S T : List (Fin NBUF))
    (h : Taken bc p S) (hi : i ∈ S) (hT : ∀ j, j ∈ T ↔ j ∈ S ∧ j ≠ i) :
    ∃ bc', bc.brelse p i = .done bc' ∧ Taken bc' p T := by
  have hheld := (h i).1 hi
  have hgone : Taken (bc.modify i (fun x => { x with lock := none, refcnt := x.refcnt - 1 })) p
      T := by
    intro j
    by_cases hj : j = i
    · rw [hj, modify_self, hheld.1]
      exact ⟨fun hm => absurd rfl ((hT i).mp hm).2, fun _ => ⟨rfl, rfl⟩⟩
    · rw [modify_of_ne hj]
      exact ⟨fun hm => (h j).1 ((hT j).mp hm).1,
        fun hn => (h j).2 (fun hm => hn ((hT j).mpr ⟨hm, hj⟩))⟩
  unfold brelse
  rw [if_pos hheld.2, hheld.1]
  exact ⟨_, rfl, hgone⟩

theorem bwrite_done (disk : Disk) (bc : Bcache P) (p : P) (i : Fin NBUF) (S : List (Fin NBUF))
    (h : Taken bc p S) (hi : i ∈ S) : ∃ disk', bc.bwrite disk p i = .done disk' := by
  unfold bwrite
  rw [if_pos ((h i).1 hi).2]
  exact ⟨_, rfl⟩

/-- There are buffers beside two that are taken. -/
theorem exists_free (i : Fin NBUF) : ∃ j, j ∉ [i] := by
  by_cases hi : i = ⟨0, by decide⟩
  · exact ⟨⟨1, by decide⟩, by rw [hi]; decide⟩
  · exact ⟨⟨0, by decide⟩, fun hm => hi (mem_singleton.mp hm).symm⟩

section Steps

variable {m : Machine P} {L : Disk} {D : List Nat} {p : P}

theorem readHead_done (hc : CacheInv m.disk m.bc m.waiting L D) (ht : Taken m.bc p []) :
    ∃ m', readHead m p = .done m' ∧ Taken m'.bc p [] := by
  rcases bread_done m.disk m.bc p m.log.start [] ht hc.coh.lru ⟨⟨0, by decide⟩,
    not_mem_nil⟩ (nofun) with ⟨bc₁, i, hr, ht₁⟩
  rcases brelse_done bc₁ p i [i] [] ht₁ mem_cons_self (fun j => by
    simp only [not_mem_nil, mem_singleton, ne_eq, and_not_self]) with ⟨bc₂, hb, ht₂⟩
  refine ⟨{ m with bc := bc₂, log := { m.log with lh := decodeHead (bc₁.buf i).data } }, ?_, ht₂⟩
  simp only [readHead, hr, hb, done_bind, pure_eq]

theorem writeHead_done (hc : CacheInv m.disk m.bc m.waiting L D) (ht : Taken m.bc p []) :
    ∃ m', writeHead m p = .done m' ∧ Taken m'.bc p [] := by
  rcases bread_done m.disk m.bc p m.log.start [] ht hc.coh.lru ⟨⟨0, by decide⟩,
    not_mem_nil⟩ (nofun) with ⟨bc₁, i, hr, ht₁⟩
  have ht₂ := taken_setData bc₁ p [i] i (encodeHead (bc₁.buf i).data m.log.lh) ht₁
  rcases bwrite_done m.disk _ p i [i] ht₂ mem_cons_self with ⟨disk, hw⟩
  rcases brelse_done _ p i [i] [] ht₂ mem_cons_self (fun j => by
    simp only [not_mem_nil, mem_singleton, ne_eq, and_not_self]) with ⟨bc₂, hb, ht₃⟩
  refine ⟨{ m with disk := disk, bc := bc₂ }, ?_, ht₃⟩
  simp only [writeHead, hr, hw, hb, done_bind, pure_eq]

theorem installTrans_done {tail : Nat} (hc : CacheInv m.disk m.bc m.waiting L D)
    (ht : Taken m.bc p []) (hfrom : m.log.start + tail + 1 < 2 ^ 32)
    (hne : m.log.start + tail + 1 ≠ m.log.lh.getD tail 0) :
    ∃ m', installTrans m p true tail = .done m' ∧ Taken m'.bc p [] := by
  rcases bread_done m.disk m.bc p (m.log.start + tail + 1) [] ht hc.coh.lru ⟨⟨0, by decide⟩,
    not_mem_nil⟩ (nofun) with ⟨bc₁, i, hr₁, ht₁⟩
  rcases cacheInv_bread hc hfrom hr₁ with ⟨hc₁, hi, -, -⟩
  rcases bread_done m.disk bc₁ p (m.log.lh.getD tail 0) [i] ht₁ hc₁.coh.lru (exists_free i)
    (fun j hj => by rw [mem_singleton.mp hj, hi.2.2.1]; exact hne) with ⟨bc₂, j, hr₂, ht₂⟩
  -- The second buffer is not the first one, which was locked already.
  have hij : i ≠ j := by
    intro hij
    rcases bread_spec hc₁.coh hr₂ with ⟨-, -, -, -, -, hfree, -⟩
    rw [← hij, hi.1] at hfree
    exact nomatch hfree
  have ht₃ := taken_setData bc₂ p [j, i] j (bc₂.buf i).data ht₂
  rcases bwrite_done m.disk _ p j [j, i] ht₃ mem_cons_self with ⟨disk, hw⟩
  rcases brelse_done _ p i [j, i] [j] ht₃ (mem_cons_of_mem _ mem_cons_self)
    (fun k => by
      simp only [mem_cons, not_mem_nil, or_false]
      constructor
      · rintro rfl
        exact ⟨Or.inl rfl, hij.symm⟩
      · rintro ⟨hk | hk, hne⟩
        · exact hk
        · exact absurd hk hne) with ⟨bc₃, hb₁, ht₄⟩
  rcases brelse_done bc₃ p j [j] [] ht₄ mem_cons_self (fun k => by
    simp only [not_mem_nil, mem_singleton, ne_eq, and_not_self]) with ⟨bc₄, hb₂, ht₅⟩
  refine ⟨{ m with disk := disk, bc := bc₄ }, ?_, ht₅⟩
  simp only [installTrans, hr₁, hr₂, hw, hb₁, hb₂, done_bind, pure_eq, if_true]

end Steps

/-- A step of recovery goes through when nobody else uses the cache. -/
theorem advance_done {d₀ : Disk} {m : Machine P} {p : P} (h : Inv d₀ m) (ht : Taken m.bc p [])
    (hrec : m.phase.running = false) : ∃ m', advance m p = .done m' ∧ Taken m'.bc p [] := by
  rcases h.cache with ⟨L, hc, hp⟩
  cases hph : m.phase with
  | recRead =>
    rcases readHead_done hc ht with ⟨m₁, hr, ht₁⟩
    refine ⟨{ m₁ with phase := .recInstall 0 }, ?_, ht₁⟩
    simp only [advance, hph, hr, done_bind, pure_eq]
  | recInstall tail =>
    by_cases hlt : tail < m.log.lh.length
    · have hgeom := h.geom
      have hroom := h.room.2
      have hhome := h.home _ (getD_mem hlt)
      rcases installTrans_done hc ht (by omega)
        (home_ne_log hhome.1 (by omega)).symm with ⟨m₁, hi, ht₁⟩
      refine ⟨{ m₁ with phase := .recInstall (tail + 1) }, ?_, ht₁⟩
      simp only [advance, hph, if_pos hlt, hi, done_bind, pure_eq]
    · refine ⟨{ m with phase := .recClear, log := { m.log with lh := [] } }, ?_, ht⟩
      simp only [advance, hph, if_neg hlt]
  | recClear =>
    rcases writeHead_done hc ht with ⟨m₁, hw, ht₁⟩
    refine ⟨{ m₁ with phase := .idle }, ?_, ht₁⟩
    simp only [advance, hph, hw, done_bind, pure_eq]
  | _ =>
    rw [hph] at hrec
    exact absurd hrec (by simp only [Phase.running, Bool.true_eq_false, not_false_eq_true])

/-- The recovery of `m` can be carried to its end. -/
def Completes (m : Machine P) : Prop :=
  ∃ rs m', (∀ e ∈ rs, Event.recovery e = true) ∧ runs step rs m = .done m' ∧ m'.phase = .idle

theorem completes_of_advance {m m' : Machine P} {p : P} (hs : advance m p = .done m')
    (h : Completes m') : Completes m := by
  rcases h with ⟨rs, m₂, hrs, hrun, hidle⟩
  refine ⟨.commit p :: rs, m₂, fun e he => ?_, ?_, hidle⟩
  · rcases mem_cons.mp he with rfl | he
    · rfl
    · exact hrs e he
  · change (advance m p >>= runs step rs) = _
    rw [hs]
    exact hrun

theorem completes_recClear {d₀ : Disk} {m : Machine P} {p : P} (h : Inv d₀ m)
    (ht : Taken m.bc p []) (hph : m.phase = .recClear) : Completes m := by
  rcases advance_done h ht (by rw [hph]; rfl) with ⟨m', hs, _⟩
  refine completes_of_advance hs ⟨[], m', nofun, rfl, ?_⟩
  simp only [advance, hph, bind_eq_done, pure_eq, done.injEq] at hs
  rcases hs with ⟨m₁, _, rfl⟩
  rfl

/-- Replaying ends: the induction is on the number of blocks left to install. -/
theorem completes_recInstall (d₀ : Disk) (p : P) (n : Nat) (m : Machine P) (tail : Nat)
    (h : Inv d₀ m) (ht : Taken m.bc p []) (hph : m.phase = .recInstall tail)
    (hn : m.log.lh.length - tail = n) : Completes m := by
  induction n generalizing m tail with
  | zero =>
    rcases advance_done h ht (by rw [hph]; rfl) with ⟨m', hs, ht'⟩
    refine completes_of_advance hs ?_
    have hinv := inv_advance h hs
    simp only [advance, hph, if_neg (show ¬tail < m.log.lh.length by omega),
      done.injEq] at hs
    exact completes_recClear hinv ht' (by rw [← hs])
  | succ n ih =>
    have hlt : tail < m.log.lh.length := by omega
    rcases advance_done h ht (by rw [hph]; rfl) with ⟨m', hs, ht'⟩
    refine completes_of_advance hs ?_
    have hinv := inv_advance h hs
    rcases h.phase_eq hph with ⟨L, hc, hp⟩
    have hgeom := h.geom
    have hroom := h.room.2
    have hhome := h.home _ (getD_mem hlt)
    simp only [advance, hph, if_pos hlt, bind_eq_done, pure_eq,
      done.injEq] at hs
    rcases hs with ⟨m₁, hi, rfl⟩
    rcases installTrans_spec [] true hc (by omega) hhome.2 rfl not_mem_nil hi with
      ⟨bc', rfl, _⟩
    refine ih _ (tail + 1) hinv ht' rfl ?_
    change m.log.lh.length - (tail + 1) = n
    omega

/-- Recovery that is left alone completes. -/
theorem recovery_completes {d₀ : Disk} {m : Machine P} (p : P) (h : Inv d₀ m) :
    Completes (crash m) := by
  have hinv := inv_crash h
  have ht : Taken (crash m).bc p [] := taken_binit p
  rcases advance_done hinv ht rfl with ⟨m', hs, ht'⟩
  refine completes_of_advance hs ?_
  have hinv' := inv_advance hinv hs
  have hph : m'.phase = .recInstall 0 := by
    change (readHead (crash m) p >>= fun m => done _) = _ at hs
    rw [bind_eq_done] at hs
    rcases hs with ⟨m₁, _, hm⟩
    rw [← done.inj hm]
  exact completes_recInstall d₀ p _ m' 0 hinv' ht' hph rfl

/-- Recovery records no transaction. -/
theorem txns_recovery (m m' : Machine P) (e : Event P) (he : Event.recovery e = true)
    (hph : m.phase.running = false ∨ m.phase = .idle) (hs : step m e = .done m') :
    (m'.phase.running = false ∨ m'.phase = .idle) ∧ m'.txns = m.txns := by
  cases e with
  | crash =>
    simp only [step, done.injEq] at hs
    rw [← hs]
    exact ⟨Or.inl rfl, rfl⟩
  | commit p =>
    change advance m p = .done m' at hs
    cases hm : m.phase with
    | recRead =>
      simp only [advance, hm, readHead, bind_eq_done, pure_eq,
        done.injEq] at hs
      rcases hs with ⟨m₁, ⟨_, _, _, _, rfl⟩, rfl⟩
      exact ⟨Or.inl rfl, rfl⟩
    | recInstall tail =>
      simp only [advance, hm] at hs
      by_cases hlt : tail < m.log.lh.length
      · simp only [if_pos hlt, installTrans, bind_eq_done, pure_eq,
          done.injEq] at hs
        rcases hs with ⟨m₁, ⟨_, _, _, _, _, _, _, _, _, _, rfl⟩, rfl⟩
        exact ⟨Or.inl rfl, rfl⟩
      · simp only [if_neg hlt, done.injEq] at hs
        rw [← hs]
        exact ⟨Or.inl rfl, rfl⟩
    | recClear =>
      simp only [advance, hm, writeHead, bind_eq_done, pure_eq,
        done.injEq] at hs
      rcases hs with ⟨m₁, ⟨_, _, _, _, _, _, rfl⟩, rfl⟩
      exact ⟨Or.inr rfl, rfl⟩
    | idle => simp only [advance, hm, reduceCtorEq] at hs
    | _ =>
      rw [hm] at hph
      simp only [Phase.running, Bool.true_eq_false, reduceCtorEq, or_self] at hph
  | _ => cases he

theorem txns_recovery_run (rs : List (Event P)) (m m' : Machine P)
    (hrs : ∀ e ∈ rs, Event.recovery e = true) (hph : m.phase.running = false ∨ m.phase = .idle)
    (hrun : runs step rs m = .done m') : m'.txns = m.txns := by
  induction rs generalizing m with
  | nil =>
    simp only [runs_nil, done.injEq] at hrun
    rw [hrun]
  | cons e rs ih =>
    simp only [runs_cons, bind_eq_done] at hrun
    rcases hrun with ⟨m₁, hs, hrun⟩
    rcases txns_recovery m m₁ e (hrs e mem_cons_self) hph hs with ⟨hph₁, htx⟩
    rw [ih m₁ (fun f hf => hrs f (mem_cons_of_mem _ hf)) hph₁ hrun, htx]

/-- Crash atomicity. Take any run `es` of operations, commits, crashes and
    recoveries from a disk with an empty log, and let the machine crash after
    it. Recovery can be completed; and once it is, however often it was cut
    short by further crashes, the home blocks are as the transactions in
    `m.txns` made them, the ones whose header had reached the disk. -/
theorem crash_atomic (start size : Nat) (hsize : 1 ≤ size) (hmax : start + size ≤ 2 ^ 32)
    (d₀ : Disk) (hclean : headN (d₀ start) = 0) (p : P) (es : List (Event P)) (m : Machine P)
    (hrun : runs step es (boot P start size d₀) = .done m) :
    Completes (crash m) ∧
      ∀ rs m', (∀ e ∈ rs, Event.recovery e = true) → runs step rs (crash m) = .done m' →
        m'.phase = .idle →
        ∀ b, Home m'.log b → m'.disk b = applyWrites d₀ m.txns.flatten b := by
  have hboot : Inv d₀ (boot P start size d₀) := inv_boot hsize hmax hclean
  have hinv : Inv d₀ m := runs_invariant step (Inv d₀) (inv_step) es _ m hboot hrun
  refine ⟨recovery_completes p hinv, fun rs m' hrs hrec hidle b hb => ?_⟩
  have hinv' := runs_invariant step (Inv d₀) (inv_step) rs _ m' (inv_crash hinv) hrec
  have htx : m'.txns = m.txns := txns_recovery_run rs (crash m) m' hrs (Or.inl rfl) hrec
  rcases hinv'.cache with ⟨L, _, hp⟩
  rw [hidle] at hp
  rw [hp.2.2 b hb, durable, htx]

/-- One process logs block 9, which `bget` puts into the second buffer, and
    commits; the run stops right after the header is on the disk, before
    anything is installed. -/
def oneCommit (d : Block) : List (Event Unit) :=
  let i : Fin NBUF := ⟨1, by decide⟩
  [.commit (), .commit (), .commit (), .beginOp, .get () 9, .lock () i, .write () i d, .relse () i,
    .endOp, .commit (), .commit (), .commit ()]

/-- Recovery, cut short by a crash after its first block write. -/
def twiceRecovered : List (Event Unit) :=
  [.commit (), .commit (), .crash, .commit (), .commit (), .commit (), .commit ()]

theorem oneCommit_recovered :
    ∃ m m', runs step (oneCommit (fun _ => 7)) (boot Unit 2 4 (fun _ _ => 0)) = .done m ∧
      m.txns = [[(9, fun _ => 7)]] ∧ m.disk 9 = (fun _ => 0) ∧
      runs step twiceRecovered (crash m) = .done m' ∧ m'.disk 9 = fun _ => 7 := by
  refine ⟨_, _, rfl, rfl, rfl, rfl, ?_⟩
  refine Eq.trans ((crash_atomic 2 4 (by decide) (by decide) (fun _ _ => 0) (by decide) ()
    (oneCommit (fun _ => 7)) _ rfl).2 twiceRecovered _ (by decide) rfl ?_ 9 ?_) ?_
  · rfl
  · exact Or.inr (by decide)
  · rfl

end Xv6.Wal
