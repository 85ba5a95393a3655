import Xv6.Log.Held

/-!
# The Disk Is Always Recoverable

At every moment, replaying the log on the disk gives the state after the
commits whose header has reached the disk.

The proof keeps two disks in view. `durable` is the initial disk with all
recorded transactions applied, which is what recovery has to produce, and
`current` has the pending writes applied as well, which is what processes read.
`Recoverable` says of a disk that replaying its log gives the durable state.
It holds in every phase. Before the header is written the log on disk is empty
and the home blocks are still the old ones; the header write makes the new
state durable in one step; and afterwards each home write repeats what the log
says anyway. A crash therefore changes nothing about it.

That the log blocks hold what the processes logged needs the buffer cache:
`write_log` reads them back from buffers that nobody may have recycled.

## Main definitions

* `applyWrites`: A disk after a list of writes.
* `durable`, `current`: The disk the commits make, and the one processes see.
* `Recoverable`: Replaying the log gives the durable state.
* `Inv`: What holds in every reachable state.

## Theorems

* `inv_advance`: A step of a commit or a recovery keeps the invariant.
* `inv_step`: Every event keeps it.
-/

namespace Xv6.Wal

open Function Outcome List

/-- A disk after a list of block writes. -/
def applyWrites (d : Disk) (ws : List (Nat × Block)) : Disk :=
  ws.foldl (fun d w => update d w.1 w.2) d

theorem applyWrites_append (d : Disk) (vs ws : List (Nat × Block)) :
    applyWrites d (vs ++ ws) = applyWrites (applyWrites d vs) ws := by
  simp only [applyWrites, foldl_append]

theorem applyWrites_snoc (d : Disk) (ws : List (Nat × Block)) (b : Nat) (x : Block) :
    applyWrites d (ws ++ [(b, x)]) = update (applyWrites d ws) b x := by
  simp only [applyWrites, foldl_append, foldl_cons, foldl_nil]

variable {P : Type}

/-- The disk with every recorded transaction applied. -/
def durable (d₀ : Disk) (m : Machine P) : Disk := applyWrites d₀ m.txns.flatten

/-- The same with the pending writes as well. -/
def current (d₀ : Disk) (m : Machine P) : Disk := applyWrites (durable d₀ m) m.pending

/-- Replaying the log on disk `d` gives the home blocks of `dur`. -/
structure Recoverable (l : Log) (d dur : Disk) : Prop where
  nodup : (decodeHead (d l.start)).Nodup
  home : ∀ b ∈ decodeHead (d l.start), Home l b ∧ b < 2 ^ 32
  room : (decodeHead (d l.start)).length ≤ LOGSIZE ∧ (decodeHead (d l.start)).length ≤ l.size - 1
  logged : ∀ j, j < (decodeHead (d l.start)).length →
    d (l.start + j + 1) = dur ((decodeHead (d l.start)).getD j 0)
  rest : ∀ b, Home l b → b ∉ decodeHead (d l.start) → d b = dur b

/-- Before the header is written: the log on disk is empty and the home
    blocks on disk are the durable ones. -/
def Before (d₀ : Disk) (m : Machine P) (L : Disk) : Prop :=
  decodeHead (L m.log.start) = [] ∧ (∀ b, Home m.log b → L b = current d₀ m b) ∧
    ∀ b, Home m.log b → m.disk b = durable d₀ m b

/-- The first `tail` logged blocks have been copied into the log. -/
def Copied (m : Machine P) (L : Disk) (tail : Nat) : Prop :=
  tail ≤ m.log.lh.length ∧
    ∀ j, j < tail → L (m.log.start + j + 1) = L (m.log.lh.getD j 0)

/-- What a phase adds to the invariant. -/
def PhaseInv (d₀ : Disk) (m : Machine P) (L : Disk) : Phase → Prop
  | .idle => Before d₀ m L
  | .writeLog tail => Before d₀ m L ∧ Copied m L tail
  | .writeHead => Before d₀ m L ∧ Copied m L m.log.lh.length
  | .install tail => m.pending = [] ∧ tail ≤ m.log.lh.length ∧
      decodeHead (L m.log.start) = m.log.lh ∧ (∀ b, Home m.log b → L b = durable d₀ m b) ∧
      ∀ j, j < m.log.lh.length → L (m.log.start + j + 1) = durable d₀ m (m.log.lh.getD j 0)
  | .clearHead => m.pending = [] ∧ m.log.lh = [] ∧ Recoverable m.log m.disk (durable d₀ m) ∧
      ∀ b, Home m.log b → L b = durable d₀ m b
  | .finish => m.log.lh = [] ∧ Before d₀ m L
  | .recRead => m.pending = [] ∧ m.log.lh = [] ∧ Recoverable m.log m.disk (durable d₀ m)
  | .recInstall tail => m.pending = [] ∧ Recoverable m.log m.disk (durable d₀ m) ∧
      m.log.lh = decodeHead (m.disk m.log.start) ∧ tail ≤ m.log.lh.length ∧
      ∀ j, j < tail → m.disk (m.log.lh.getD j 0) = durable d₀ m (m.log.lh.getD j 0)
  | .recClear => m.pending = [] ∧ m.log.lh = [] ∧ Recoverable m.log m.disk (durable d₀ m) ∧
      ∀ b, Home m.log b → L b = durable d₀ m b

/-- The blocks whose buffers are pinned. -/
def dirty (m : Machine P) : List Nat :=
  match m.phase with
  | .install tail => m.log.lh.drop tail
  | .recInstall _ => []
  | _ => m.log.lh

/-- What holds in every reachable state. -/
structure Inv (d₀ : Disk) (m : Machine P) : Prop where
  geom : 1 ≤ m.log.size ∧ m.log.start + m.log.size ≤ 2 ^ 32
  nodup : m.log.lh.Nodup
  home : ∀ b ∈ m.log.lh, Home m.log b ∧ b < 2 ^ 32
  room : m.log.lh.length ≤ LOGSIZE ∧ m.log.lh.length ≤ m.log.size - 1
  ops : m.phase = .idle ∧ m.log.committing = false ∨
    m.phase ≠ .idle ∧ m.log.outstanding = 0 ∧ m.log.committing = m.phase.running
  cache : ∃ L, CacheInv m.disk m.bc m.waiting L (dirty m) ∧ PhaseInv d₀ m L m.phase

variable {d₀ : Disk} {m m' : Machine P} {p : P} {L : Disk} {l : Log} {d dur : Disk}

theorem Inv.phase_eq {ph : Phase} (h : Inv d₀ m) (hph : m.phase = ph) :
    ∃ L, CacheInv m.disk m.bc m.waiting L (dirty { m with phase := ph }) ∧ PhaseInv d₀ m L ph := by
  rw [← hph]
  exact h.cache

theorem inv_idle (hgeom : 1 ≤ m.log.size ∧ m.log.start + m.log.size ≤ 2 ^ 32)
    (hnodup : m.log.lh.Nodup) (hhome : ∀ b ∈ m.log.lh, Home m.log b ∧ b < 2 ^ 32)
    (hroom : m.log.lh.length ≤ LOGSIZE ∧ m.log.lh.length ≤ m.log.size - 1)
    (hph : m.phase = .idle) (hcom : m.log.committing = false)
    (hc : CacheInv m.disk m.bc m.waiting L m.log.lh) (hb : Before d₀ m L) : Inv d₀ m := by
  have hD : dirty m = m.log.lh := by rw [dirty, hph]
  exact ⟨hgeom, hnodup, hhome, hroom, Or.inl ⟨hph, hcom⟩, L, by rw [hD]; exact hc,
    by rw [hph]; exact hb⟩

theorem Inv.busy {ph : Phase} (h : Inv d₀ m) (hph : m.phase = ph)
    (hne : ph ≠ .idle) : m.log.outstanding = 0 ∧ m.log.committing = ph.running := by
  rw [← hph] at hne ⊢
  exact (h.ops.resolve_left (fun hi => hne hi.1)).2

theorem Inv.open_idle (h : Inv d₀ m) (hout : 0 < m.log.outstanding) :
    m.phase = .idle ∧ m.log.committing = false :=
  h.ops.resolve_right (fun hn => absurd hn.2.1 (by omega))

theorem home_ne_start {b : Nat} (hb : Home l b) (hsize : 1 ≤ l.size) : b ≠ l.start := by
  unfold Home at hb
  omega

theorem home_ne_log {b j : Nat} (hb : Home l b) (hj : j < l.size - 1) : b ≠ l.start + j + 1 := by
  unfold Home at hb
  omega

/-- Recoverability, with the header of the disk given. -/
theorem recoverable_of_head {lh : List Nat} (hhead : decodeHead (d l.start) = lh)
    (hnodup : lh.Nodup) (hhome : ∀ b ∈ lh, Home l b ∧ b < 2 ^ 32)
    (hroom : lh.length ≤ LOGSIZE ∧ lh.length ≤ l.size - 1)
    (hlogged : ∀ j, j < lh.length → d (l.start + j + 1) = dur (lh.getD j 0))
    (hrest : ∀ b, Home l b → b ∉ lh → d b = dur b) : Recoverable l d dur := by
  subst hhead
  exact ⟨hnodup, hhome, hroom, hlogged, hrest⟩

/-- With an empty header there is nothing to replay. -/
theorem recoverable_of_empty (hhead : decodeHead (d l.start) = [])
    (hrest : ∀ b, Home l b → d b = dur b) : Recoverable l d dur :=
  recoverable_of_head hhead nodup_nil (nofun)
    ⟨Nat.zero_le _, Nat.zero_le _⟩ (nofun)
    fun b hb _ => hrest b hb

/-- What is in memory of the header does not matter to recovery. -/
theorem Recoverable.setHead (h : Recoverable l d dur) (lh : List Nat) :
    Recoverable { l with lh := lh } d dur :=
  ⟨h.nodup, h.home, h.room, h.logged, h.rest⟩

theorem getD_mem {lh : List Nat} {j : Nat} (hj : j < lh.length) : lh.getD j 0 ∈ lh := by
  rw [getD_eq_getElem _ _ hj]
  exact getElem_mem hj

/-- The disk is recoverable in every phase. -/
theorem recoverable_of_inv (h : Inv d₀ m) : Recoverable m.log m.disk (durable d₀ m) := by
  -- A block of the log is never dirty, so the disk has its current contents.
  have hstart : ∀ {L D}, CacheInv m.disk m.bc m.waiting L D → (∀ b ∈ D, b ∈ m.log.lh) →
      m.disk m.log.start = L m.log.start := by
    intro L D hc hd
    refine hc.coh.clean _ (fun hmem => ?_)
    exact home_ne_start (h.home _ (hd _ hmem)).1 h.geom.1 rfl
  have hempty : ∀ {L}, CacheInv m.disk m.bc m.waiting L m.log.lh → Before d₀ m L →
      Recoverable m.log m.disk (durable d₀ m) := fun hc hb =>
    recoverable_of_empty (by rw [hstart hc fun _ hb => hb]; exact hb.1) hb.2.2
  cases hph : m.phase with
  | idle =>
    rcases h.phase_eq hph with ⟨L, hc, hp⟩
    exact hempty hc hp
  | writeLog tail | writeHead =>
    rcases h.phase_eq hph with ⟨L, hc, hp⟩
    exact hempty hc hp.1
  | install tail =>
    rcases h.phase_eq hph with ⟨L, hc, _, htail, hhead, hhome, hcopy⟩
    have hd : ∀ b ∈ m.log.lh.drop tail, b ∈ m.log.lh := fun b hb => mem_of_mem_drop hb
    refine recoverable_of_head (by rw [hstart hc hd]; exact hhead) h.nodup h.home h.room ?_ ?_
    · intro j hj
      have hroom := h.room.2
      rw [hc.coh.clean _ (fun hmem => home_ne_log (h.home _ (hd _ hmem)).1 (by omega) rfl)]
      exact hcopy j hj
    · intro b hb hnot
      rw [hc.coh.clean b (fun hmem => hnot (hd b hmem))]
      exact hhome b hb
  | clearHead =>
    rcases h.phase_eq hph with ⟨L, hc, hp⟩
    exact hp.2.2.1
  | finish =>
    rcases h.phase_eq hph with ⟨L, hc, hp⟩
    exact hempty hc hp.2
  | recRead =>
    rcases h.phase_eq hph with ⟨L, hc, hp⟩
    exact hp.2.2
  | recInstall tail =>
    rcases h.phase_eq hph with ⟨L, hc, hp⟩
    exact hp.2.1
  | recClear =>
    rcases h.phase_eq hph with ⟨L, hc, hp⟩
    exact hp.2.2.1

section Advance

variable [DecidableEq P]

variable (h : Inv d₀ m)

include h

theorem inv_advance_writeLog {tail : Nat} (hph : m.phase = .writeLog tail)
    (hs : advance m p = .done m') : Inv d₀ m' := by
  rcases h.phase_eq hph with ⟨L, hc, hbefore, hle, hcopied⟩
  have hops := h.busy hph nofun
  simp only [advance, hph] at hs
  by_cases ht : tail < m.log.lh.length
  · simp only [if_pos ht, bind_eq_done, pure_eq, done.injEq] at hs
    rcases hs with ⟨m₁, hw, rfl⟩
    have hroom := h.room.2
    have hgeom := h.geom
    rcases writeLog_spec hc (by omega) (h.home _ (getD_mem ht)).2 hw with ⟨bc', rfl, hc'⟩
    -- Home blocks and the header are elsewhere than the log block written.
    have hne : ∀ b, Home m.log b → b ≠ m.log.start + tail + 1 := fun b hb =>
      home_ne_log hb (by omega)
    refine ⟨h.geom, h.nodup, h.home, h.room, Or.inr ⟨nofun, hops⟩, _, hc',
      ⟨?_, fun b hb => ?_, fun b hb => ?_⟩, ht, ?_⟩
    · change decodeHead (update L _ _ m.log.start) = []
      rw [update_of_ne (by omega)]
      exact hbefore.1
    · rw [update_of_ne (hne b hb)]
      exact hbefore.2.1 b hb
    · change update m.disk _ _ b = _
      rw [update_of_ne (hne b hb)]
      exact hbefore.2.2 b hb
    · intro j hj
      change update L _ _ (m.log.start + j + 1) =
        update L _ _ (m.log.lh.getD j 0)
      rw [update_of_ne (hne _ (h.home _ (getD_mem (by omega))).1)]
      by_cases hjt : j = tail
      · rw [hjt, update_self]
      · rw [update_of_ne (by omega)]
        exact hcopied j (by omega)
  · simp only [if_neg ht, done.injEq] at hs
    have hlen : tail = m.log.lh.length := by omega
    rw [hlen] at hcopied
    rw [← hs]
    exact ⟨h.geom, h.nodup, h.home, h.room, Or.inr ⟨nofun, hops⟩, L, hc, hbefore, le_refl _,
      hcopied⟩

/-- The header write is the commit: what was pending is now durable, because
    the log blocks hold it and the header points to them. -/
theorem inv_advance_writeHead (hph : m.phase = .writeHead)
    (hs : advance m p = .done m') : Inv d₀ m' := by
  rcases h.phase_eq hph with ⟨L, hc, hbefore, _, hcopied⟩
  have hops := h.busy hph nofun
  simp only [advance, hph, bind_eq_done, pure_eq, done.injEq] at hs
  rcases hs with ⟨m₁, hw, rfl⟩
  have hgeom := h.geom
  rcases writeHead_spec hc (by omega) hw with ⟨bc', rfl, hc'⟩
  have hdur : ∀ b, Home m.log b → L b = applyWrites d₀ (m.txns ++ [m.pending]).flatten b := by
    intro b hb
    rw [flatten_append, applyWrites_append, flatten_singleton]
    exact hbefore.2.1 b hb
  refine ⟨h.geom, h.nodup, h.home, h.room, Or.inr ⟨nofun, hops⟩, _, hc', rfl, Nat.zero_le _, ?_,
    ?_, ?_⟩
  · change decodeHead (update L m.log.start _ m.log.start) = _
    rw [update_self]
    exact decodeHead_encodeHead _ h.room.1 (fun b hb => (h.home b hb).2)
  · intro b hb
    rw [update_of_ne (home_ne_start hb hgeom.1)]
    exact hdur b hb
  · intro j hj
    rw [update_of_ne (by simp only; omega)]
    exact (hcopied j hj).trans (hdur _ (h.home _ (getD_mem hj)).1)

theorem inv_advance_install {tail : Nat} (hph : m.phase = .install tail)
    (hs : advance m p = .done m') : Inv d₀ m' := by
  rcases h.phase_eq hph with ⟨L, hc, hpend, hle, hhead, hhome, hlogged⟩
  have hops := h.busy hph nofun
  simp only [advance, hph] at hs
  by_cases ht : tail < m.log.lh.length
  · simp only [if_pos ht, bind_eq_done, pure_eq, done.injEq] at hs
    rcases hs with ⟨m₁, hw, rfl⟩
    have hroom := h.room.2
    have hgeom := h.geom
    have hmem := h.home _ (getD_mem ht)
    have hcons : m.log.lh.drop tail = m.log.lh.getD tail 0 :: m.log.lh.drop (tail + 1) := by
      rw [getD_eq_getElem _ _ ht]
      exact drop_eq_getElem_cons ht
    have hnew : m.log.lh.getD tail 0 ∉ m.log.lh.drop (tail + 1) := by
      have hnd := h.nodup.sublist (drop_sublist tail m.log.lh)
      rw [hcons, nodup_cons] at hnd
      exact hnd.1
    rcases installTrans_spec _ false hc (by omega) hmem.2 hcons hnew hw with
      ⟨bc', rfl, hc'⟩
    refine ⟨h.geom, h.nodup, h.home, h.room, Or.inr ⟨nofun, hops⟩, _, hc', hpend, ht, ?_, ?_, ?_⟩
    · change decodeHead (update L _ _ m.log.start) = m.log.lh
      rw [update_of_ne (home_ne_start hmem.1 hgeom.1).symm]
      exact hhead
    · intro b hb
      by_cases hbt : b = m.log.lh.getD tail 0
      · rw [hbt, update_self]
        exact hlogged tail ht
      · rw [update_of_ne hbt]
        exact hhome b hb
    · intro j hj
      change j < m.log.lh.length at hj
      change update L _ _ (m.log.start + j + 1) = _
      rw [update_of_ne (home_ne_log hmem.1 (by omega)).symm]
      exact hlogged j hj
  · simp only [if_neg ht, done.injEq] at hs
    rw [← hs]
    have hdrop : m.log.lh.drop tail = [] := drop_eq_nil_of_le (by omega)
    simp only [dirty, hdrop] at hc
    exact ⟨h.geom, nodup_nil, nofun,
      ⟨Nat.zero_le _, Nat.zero_le _⟩, Or.inr ⟨nofun, hops⟩, L, hc, hpend, rfl,
      (recoverable_of_inv h).setHead [], hhome⟩

/-- Writing an empty header over a disk whose home blocks are the durable ones
    leaves it recoverable, with nothing to replay. -/
theorem clear_head {m₁ : Machine P} (hc : CacheInv m.disk m.bc m.waiting L m.log.lh)
    (hpend : m.pending = []) (hlh : m.log.lh = [])
    (hhome : ∀ b, Home m.log b → L b = durable d₀ m b) (hw : writeHead m p = .done m₁) :
    ∃ d bc L, m₁ = { m with disk := d, bc := bc } ∧ CacheInv d bc m.waiting L m.log.lh ∧
      ∀ ph, Before d₀ { m with disk := d, bc := bc, phase := ph } L := by
  have hgeom := h.geom
  rcases writeHead_spec hc (by omega) hw with ⟨bc', rfl, hc'⟩
  refine ⟨_, bc', _, rfl, hc', fun ph => ⟨?_, fun b hb => ?_, fun b hb => ?_⟩⟩
  · rw [update_self, hlh]
    exact decodeHead_clear _
  · rw [update_of_ne (home_ne_start hb hgeom.1), hhome b hb]
    change _ = applyWrites (durable d₀ m) m.pending b
    rw [hpend]
    rfl
  · change update m.disk m.log.start _ b = _
    rw [hlh] at hc
    rw [update_of_ne (home_ne_start hb hgeom.1), hc.coh.clean b not_mem_nil, hhome b hb]
    rfl

theorem inv_advance_recRead (hph : m.phase = .recRead)
    (hs : advance m p = .done m') : Inv d₀ m' := by
  rcases h.phase_eq hph with ⟨L, hc, hpend, hlh, hrec⟩
  have hops := h.busy hph nofun
  simp only [advance, hph, bind_eq_done, pure_eq, done.injEq] at hs
  rcases hs with ⟨m₁, hw, rfl⟩
  have hgeom := h.geom
  simp only [dirty, hlh] at hc
  have hclean : m.disk m.log.start = L m.log.start := hc.coh.clean _ not_mem_nil
  rcases readHead_spec hc (by omega) hw with ⟨bc', rfl, hc'⟩
  rw [← hclean]
  have hnodup := hrec.nodup
  have hhome := hrec.home
  have hroom := hrec.room
  generalize hlh' : decodeHead (m.disk m.log.start) = lh at hnodup hhome hroom
  exact ⟨h.geom, hnodup, hhome, hroom, Or.inr ⟨nofun, hops⟩, L, hc', hpend, hrec.setHead lh,
    hlh'.symm, Nat.zero_le _, nofun⟩

omit h in
/-- Replaying a block keeps the disk recoverable, so that replaying may start
    over at any time. -/
theorem recoverable_replay {tail : Nat} (hsize : 1 ≤ l.size) (h : Recoverable l d dur)
    (ht : tail < (decodeHead (d l.start)).length) :
    Recoverable l (update d ((decodeHead (d l.start)).getD tail 0)
      (d (l.start + tail + 1))) dur := by
  have hroom := h.room.2
  have hmem := getD_mem ht
  refine recoverable_of_head ?_ h.nodup h.home h.room (fun j hj => ?_) (fun b hb hnot => ?_)
  · rw [update_of_ne (home_ne_start (h.home _ hmem).1 hsize).symm]
  · rw [update_of_ne (home_ne_log (h.home _ hmem).1 (by omega)).symm]
    exact h.logged j hj
  · rw [update_of_ne (fun hbt => hnot (by rw [hbt]; exact hmem))]
    exact h.rest b hb hnot

theorem inv_advance_recInstall {tail : Nat} (hph : m.phase = .recInstall tail)
    (hs : advance m p = .done m') : Inv d₀ m' := by
  rcases h.phase_eq hph with ⟨L, hc, hpend, hrec, hlh, hle, hdone⟩
  have hops := h.busy hph nofun
  have hclean : ∀ b, m.disk b = L b := fun b => hc.coh.clean b not_mem_nil
  simp only [advance, hph] at hs
  by_cases ht : tail < m.log.lh.length
  · simp only [if_pos ht, bind_eq_done, pure_eq, done.injEq] at hs
    rcases hs with ⟨m₁, hw, rfl⟩
    have hroom := h.room.2
    have hgeom := h.geom
    have hmem := h.home _ (getD_mem ht)
    rcases installTrans_spec [] true hc (by omega) hmem.2 rfl not_mem_nil hw with
      ⟨bc', rfl, hc'⟩
    have hrec' := recoverable_replay hgeom.1 hrec (by rw [← hlh]; exact ht)
    rw [← hlh, hclean (m.log.start + tail + 1)] at hrec'
    refine ⟨h.geom, h.nodup, h.home, h.room, Or.inr ⟨nofun, hops⟩, _, hc', hpend,
      hrec', ?_, ht, fun j hj => ?_⟩
    · change m.log.lh = decodeHead (update m.disk _ _ m.log.start)
      rw [update_of_ne (home_ne_start hmem.1 hgeom.1).symm]
      exact hlh
    · change update m.disk _ _ (m.log.lh.getD j 0) = _
      by_cases hjt : j = tail
      · have hl := hrec.logged tail (by rw [← hlh]; exact ht)
        rw [← hlh, hclean] at hl
        rw [hjt, update_self]
        exact hl
      · -- The header names every block once, so an earlier one stays installed.
        have hne : m.log.lh.getD j 0 ≠ m.log.lh.getD tail 0 := by
          rw [getD_eq_getElem _ _ ht, getD_eq_getElem _ _ (by omega)]
          intro heq
          exact hjt ((getElem_inj h.nodup).mp heq)
        rw [update_of_ne hne]
        exact hdone j (by omega)
  · simp only [if_neg ht, done.injEq] at hs
    rw [← hs]
    refine ⟨h.geom, nodup_nil, nofun,
      ⟨Nat.zero_le _, Nat.zero_le _⟩, Or.inr ⟨nofun, hops⟩, L, hc, hpend, rfl,
      hrec.setHead [], fun b hb => ?_⟩
    rw [← hclean b]
    by_cases hmem : b ∈ m.log.lh
    · rcases getElem_of_mem hmem with ⟨j, hj, rfl⟩
      have := hdone j (by omega)
      rw [getD_eq_getElem _ _ hj] at this
      exact this
    · exact hrec.rest b hb (by rw [← hlh]; exact hmem)

theorem inv_advance (hs : advance m p = .done m') : Inv d₀ m' := by
  cases hph : m.phase with
  | idle => simp only [advance, hph, reduceCtorEq] at hs
  | writeLog tail => exact inv_advance_writeLog h hph hs
  | writeHead => exact inv_advance_writeHead h hph hs
  | install tail => exact inv_advance_install h hph hs
  | clearHead =>
    rcases h.phase_eq hph with ⟨L, hc, hpend, hlh, _, hhome⟩
    have hops := h.busy hph nofun
    simp only [advance, hph, bind_eq_done, pure_eq, done.injEq] at hs
    rcases hs with ⟨m₁, hw, rfl⟩
    rcases clear_head h hc hpend hlh hhome hw with ⟨_, _, L', rfl, hc', hb⟩
    exact ⟨h.geom, h.nodup, h.home, h.room, Or.inr ⟨nofun, hops⟩, L', hc', hlh, hb _⟩
  | finish =>
    rcases h.phase_eq hph with ⟨L, hc, hp⟩
    simp only [advance, hph, done.injEq] at hs
    rw [← hs]
    exact ⟨h.geom, h.nodup, h.home, h.room, Or.inl ⟨rfl, rfl⟩, L, hc, hp.2⟩
  | recRead => exact inv_advance_recRead h hph hs
  | recInstall tail => exact inv_advance_recInstall h hph hs
  | recClear =>
    rcases h.phase_eq hph with ⟨L, hc, hpend, hlh, _, hhome⟩
    have hops := h.busy hph nofun
    simp only [advance, hph, bind_eq_done, pure_eq, done.injEq] at hs
    rcases hs with ⟨m₁, hw, rfl⟩
    rcases clear_head h hc hpend hlh hhome hw with ⟨_, _, L', rfl, hc', hb⟩
    exact ⟨h.geom, h.nodup, h.home, h.room, Or.inl ⟨rfl, hops.2⟩, L', hc', hb _⟩

end Advance

/-- The disk alone decides how a machine comes up, so a crash is harmless as
    long as the disk is recoverable. -/
theorem inv_crash (h : Inv d₀ m) : Inv d₀ (crash m) := by
  have hrec := recoverable_of_inv h
  exact ⟨h.geom, nodup_nil, nofun,
    ⟨Nat.zero_le _, Nat.zero_le _⟩, Or.inr ⟨nofun, rfl, rfl⟩, m.disk,
    cacheInv_binit m.disk, rfl, rfl, hrec.nodup, hrec.home, hrec.room, hrec.logged, hrec.rest⟩

theorem inv_cache {bc : Bcache P} {waiting : List (P × Fin NBUF)} (h : Inv d₀ m)
    (hcache : ∀ L, CacheInv m.disk m.bc m.waiting L (dirty m) →
      CacheInv m.disk bc waiting L (dirty m)) :
    Inv d₀ { m with bc := bc, waiting := waiting } := by
  rcases h.cache with ⟨L, hc, hp⟩
  refine ⟨h.geom, h.nodup, h.home, h.room, h.ops, L, hcache L hc, ?_⟩
  change PhaseInv d₀ _ L m.phase
  cases hph : m.phase with
  | _ =>
    rw [hph] at hp
    exact hp

theorem inv_ops (h : Inv d₀ m) (n : Nat) (hph : m.phase = .idle) (hcom : m.log.committing = false) :
    Inv d₀ { m with log := { m.log with outstanding := n } } := by
  rcases h.phase_eq hph with ⟨L, hc, hp⟩
  exact inv_idle h.geom h.nodup h.home h.room hph hcom hc hp

/-- The last operation to end starts the commit, if there is anything to commit. -/
theorem inv_endOp {commit : Bool} (h : Inv d₀ m) (hph : m.phase = .idle)
    (hl : m.log.endOp = .done (l, commit)) :
    Inv d₀ { m with
      log := l
      phase := if commit then (if l.lh = [] then .finish else .writeLog 0) else m.phase } := by
  unfold Log.endOp at hl
  rcases of_check hl with ⟨hcom, hl⟩
  by_cases hlast : m.log.outstanding - 1 = 0
  · simp only [if_pos hlast, done.injEq, Prod.mk.injEq] at hl
    rw [← hl.1, ← hl.2, if_pos rfl]
    rcases h.phase_eq hph with ⟨L, hc, hp⟩
    by_cases hlh : m.log.lh = []
    · rw [if_pos hlh]
      exact ⟨h.geom, h.nodup, h.home, h.room, Or.inr ⟨nofun, hlast, rfl⟩, L, hc, hlh, hp⟩
    · rw [if_neg hlh]
      exact ⟨h.geom, h.nodup, h.home, h.room, Or.inr ⟨nofun, hlast, rfl⟩, L, hc, hp, Nat.zero_le _,
        nofun⟩
  · simp only [if_neg hlast, done.injEq, Prod.mk.injEq] at hl
    rw [← hl.1, ← hl.2, if_neg Bool.false_ne_true]
    exact inv_ops h (m.log.outstanding - 1) hph (Bool.eq_false_of_not_eq_true hcom)

theorem inv_boot {start size : Nat} (hsize : 1 ≤ size) (hmax : start + size ≤ 2 ^ 32)
    (hclean : headN (d₀ start) = 0) : Inv d₀ (boot P start size d₀) := by
  have hhead : decodeHead (d₀ start) = [] := by
    rw [decodeHead, hclean]
    rfl
  exact ⟨⟨hsize, hmax⟩, nodup_nil, (by rintro _ ⟨⟩),
    ⟨Nat.zero_le _, Nat.zero_le _⟩, Or.inr ⟨by rintro ⟨⟩, rfl, rfl⟩, d₀, cacheInv_binit d₀, rfl,
    rfl, recoverable_of_empty hhead fun _ _ => rfl⟩

variable [DecidableEq P]

theorem inv_logWrite {i : Fin NBUF} {x : Block} (h : Inv d₀ m)
    (hs : logWrite m p i x = .done m') : Inv d₀ m' := by
  unfold logWrite at hs
  rcases of_guard hs with ⟨hcond, hs⟩
  simp only [bind_eq_done, pure_eq, done.injEq] at hs
  rcases hs with ⟨⟨l, pin⟩, hl, rfl⟩
  -- `log_write` panics outside a transaction, so no commit is running.
  unfold Log.logWrite at hl
  rcases of_check hl with ⟨hfull, hl⟩
  rcases of_check hl with ⟨hout, hl⟩
  rcases h.open_idle (by omega) with ⟨hph, hcom⟩
  rcases h.phase_eq hph with ⟨L, hc, hp⟩
  have hlock : (m.bc.buf i).lock.isSome = true := by rw [hcond.1, Option.isSome_some]
  have hcur : ∀ b, Home m.log b → update L (m.bc.buf i).blockno x b =
      applyWrites (durable d₀ m) (m.pending ++ [((m.bc.buf i).blockno, x)]) b := by
    intro b hb
    rw [applyWrites_snoc]
    by_cases hbi : b = (m.bc.buf i).blockno
    · rw [hbi, update_self, update_self]
    · rw [update_of_ne hbi, update_of_ne hbi]
      exact hp.2.1 b hb
  have hhead : decodeHead (update L (m.bc.buf i).blockno x m.log.start) = [] := by
    rw [update_of_ne (home_ne_start hcond.2 h.geom.1).symm]
    exact hp.1
  by_cases hmem : (m.bc.buf i).blockno ∈ m.log.lh
  · simp only [if_pos hmem, done.injEq, Prod.mk.injEq] at hl
    rw [← hl.1, ← hl.2]
    -- Absorption: the block is dirty already.
    exact inv_idle h.geom h.nodup h.home h.room hph hcom (cacheInv_log hc x hlock hmem)
      ⟨hhead, hcur, hp.2.2⟩
  · simp only [if_neg hmem, done.injEq, Prod.mk.injEq] at hl
    rw [← hl.1, ← hl.2]
    refine inv_idle h.geom ?_ (fun b hb => ?_) ?_ hph hcom (cacheInv_log_pin hc x hlock)
      ⟨hhead, hcur, hp.2.2⟩
    · exact nodup_append.mpr ⟨h.nodup, pairwise_singleton _ _, fun x hx y hy hxy =>
        hmem (by rw [← mem_singleton.mp hy, ← hxy]; exact hx)⟩
    · rcases mem_append.mp hb with hb | hb
      · exact h.home b hb
      · rw [mem_singleton.mp hb]
        exact ⟨hcond.2, hc.uint i⟩
    · simp only [length_append, length_singleton]
      omega

theorem inv_step {d₀ : Disk} (m : Machine P) (e : Event P) (m' : Machine P) (h : Inv d₀ m)
    (hs : step m e = .done m') : Inv d₀ m' := by
  -- During recovery only recovery itself proceeds, so all the others find the log running.
  cases e with
  | crash =>
    simp only [step, done.injEq] at hs
    rw [← hs]
    exact inv_crash h
  | commit p => exact inv_advance h hs
  | beginOp =>
    rcases of_guard hs with ⟨hrun, hs⟩
    simp only [bind_eq_done, pure_eq, done.injEq] at hs
    rcases hs with ⟨l, hl, rfl⟩
    unfold Log.beginOp at hl
    rcases of_check hl with ⟨hcom, hl⟩
    rcases of_check hl with ⟨-, hl⟩
    have hcom' := Bool.eq_false_of_not_eq_true hcom
    rw [← done.inj hl]
    refine inv_ops h _ ?_ hcom'
    -- A commit in progress keeps operations from starting.
    rcases h.ops with hi | hn
    · exact hi.1
    · rw [hcom', hrun] at hn
      exact nomatch hn.2.2
  | endOp =>
    rcases of_guard hs with ⟨-, hs⟩
    rcases of_guard hs with ⟨hout, hs⟩
    simp only [bind_eq_done, pure_eq, done.injEq] at hs
    rcases hs with ⟨⟨l, commit⟩, hl, rfl⟩
    exact inv_endOp h (h.open_idle hout).1 hl
  | get p b =>
    rcases of_guard hs with ⟨-, hs⟩
    rcases of_guard hs with ⟨hb, hs⟩
    simp only [bind_eq_done, pure_eq, done.injEq] at hs
    rcases hs with ⟨⟨bc, i⟩, hg, rfl⟩
    exact inv_cache h (fun L hc => cacheInv_get hc p hb hg)
  | lock p i =>
    rcases of_guard hs with ⟨-, hs⟩
    rcases of_guard hs with ⟨hw, hs⟩
    simp only [bind_eq_done, pure_eq, done.injEq] at hs
    rcases hs with ⟨bc, ha, rfl⟩
    exact inv_cache h (fun L hc => cacheInv_lock hc hw ha)
  | write p i d =>
    rcases of_guard hs with ⟨-, hs⟩
    exact inv_logWrite h hs
  | relse p i =>
    rcases of_guard hs with ⟨-, hs⟩
    simp only [bind_eq_done, pure_eq, done.injEq] at hs
    rcases hs with ⟨bc, hb, rfl⟩
    exact inv_cache h (fun L hc => cacheInv_brelse hc hb)

end Xv6.Wal
