import Xv6.Virtio.Tokens

/-!
# The Request Protocol

What holds in every state of the disk driver and its device.

`Xv6.Virtio.Tokens` says what each step does to tables and requests. Here a state of
a process is read as the descriptors it has, the buffer it works on and its request,
and `Inv` puts the parts together with the rule about the lock. Most steps change
nothing about that reading; `Inv.goto` is what all of them need.

## Main definitions

* `Pc.holds`, `Pc.buf`, `Pc.req`: How a state of a process is read.
* `Pc.locked`: Where the driver's lock is held.
* `Inv`: What holds in every state.

## Theorems

* `disk_cleared`: What clears `b->disk`.
* `request_protocol`: What holds in every run.
-/

namespace Xv6.Virtio

open Function

variable {T B : Type}

namespace Pc

def holds : Pc B → List Nat
  | alloc _ _ idx => idx
  | undo _ _ idx => idx
  | fill _ _ i0 i1 i2 => [i0, i1, i2]
  | ring c => c.list
  | publish c => c.list
  | check c => c.list
  | sleepBuf c => c.list
  | relock c => c.list
  | clear c => c.list
  | free _ _ rest => rest
  | _ => []

def buf : Pc B → Option B
  | user => none
  | lock b _ => some b
  | alloc b _ _ => some b
  | undo b _ _ => some b
  | sleepFree b _ => some b
  | fill b _ _ _ _ => some b
  | ring c => some c.b
  | publish c => some c.b
  | check c => some c.b
  | sleepBuf c => some c.b
  | relock c => some c.b
  | clear c => some c.b
  | free c _ _ => some c.b
  | unlock c => some c.b
  | ilock => none
  | iloop => none

/-- The request of a process, and how far it has come. -/
def req : Pc B → Option (Chain B × Stage)
  | ring c => some (c, .filled)
  | publish c => some (c, .ringed)
  | check c => some (c, .posted)
  | sleepBuf c => some (c, .posted)
  | relock c => some (c, .posted)
  | clear c => some (c, .answered)
  | free c _ rest => some (c, .freeing rest)
  | unlock c => some (c, .finished)
  | _ => none

/-- The driver's lock is held. -/
def locked : Pc B → Bool
  | user => false
  | lock _ _ => false
  | sleepFree _ _ => false
  | sleepBuf _ => false
  | relock _ => false
  | ilock => false
  | _ => true

/-- `alloc3_desc` stops at three, and `free_chain` stands at the first of those it
    has not freed. -/
def Ok : Pc B → Prop
  | alloc _ _ idx => idx.length ≤ 3
  | undo _ _ idx => idx.length ≤ 3
  | free _ i rest => ∃ l, rest = i :: l ∧ l.length ≤ 2
  | _ => True

/-- A process has the same in both states. -/
structure Same (p q : Pc B) : Prop where
  holds : q.holds = p.holds
  buf : q.buf = p.buf
  req : q.req = p.req

/-- Nothing that is said about a process differs between the states. -/
structure Alike (p q : Pc B) : Prop extends Same p q where
  locked : q.locked = p.locked
  ok : p.Ok → q.Ok

theorem wakeFree_alike (p : Pc B) : Alike p p.wakeFree := by
  cases p <;> exact ⟨⟨rfl, rfl, rfl⟩, rfl, id⟩

theorem wakeBuf_alike [DecidableEq B] (b : B) (p : Pc B) : Alike p (p.wakeBuf b) := by
  cases p with
  | sleepBuf c =>
    simp only [wakeBuf]
    split <;> exact ⟨⟨rfl, rfl, rfl⟩, rfl, id⟩
  | _ => exact ⟨⟨rfl, rfl, rfl⟩, rfl, id⟩

theorem resume_alike (p : Pc B) : Alike p p.resume := by
  cases p <;> exact ⟨⟨rfl, rfl, rfl⟩, rfl, id⟩

theorem locked_of_ringed {p : Pc B} {c : Chain B} (h : p.req = some (c, .ringed)) :
    p.locked = true := by
  cases p with
  | publish c' => rfl
  | _ => simp only [req, Option.some.injEq, Prod.mk.injEq, reduceCtorEq, and_false] at h

/-- A process that has descriptors has a whole chain, or holds the lock and is about
    to have one, or to have none. -/
theorem chain_or_locked (p : Pc B) (h : p.holds ≠ []) :
    (∃ c g, p.req = some (c, g) ∧ g.live = true ∧ p.holds = c.list) ∨
      (p.locked = true ∧ ∀ c g, p.req = some (c, g) → g.live = false) := by
  cases p with
  | ring c | publish c | check c | sleepBuf c | relock c | clear c =>
    exact Or.inl ⟨c, _, rfl, rfl, rfl⟩
  | alloc b write idx | undo b write idx | fill b write i0 i1 i2 => exact Or.inr ⟨rfl, nofun⟩
  | free c i rest =>
    refine Or.inr ⟨rfl, fun c' g hg => ?_⟩
    rw [← (Prod.mk.inj (Option.some.inj hg)).2]
    rfl
  | _ => exact absurd rfl h

theorem holds_le (p : Pc B) (h : p.Ok) : p.holds.length ≤ 3 := by
  cases p with
  | alloc b write idx | undo b write idx => exact h
  | free c i rest =>
    rcases h with ⟨l, rfl, hl⟩
    exact Nat.succ_le_succ hl
  | fill b write i0 i1 i2 | ring c | publish c | check c | sleepBuf c | relock c | clear c =>
    exact Nat.le_refl 3
  | _ => exact Nat.zero_le 3

end Pc

theorem fits (pc : T → Pc B) :
    Fits (fun t => (pc t).holds) (fun t => (pc t).buf) (fun t => (pc t).req) := by
  refine ⟨fun t c g h => ?_, fun t c g h hg => ?_, fun t c l h => ?_⟩
  · cases hp : pc t <;> rw [hp] at h <;>
      simp only [Pc.req, reduceCtorEq, Option.some.injEq, Prod.mk.injEq] at h <;>
      simp only [Pc.buf, h.1]
  · cases hp : pc t <;> rw [hp] at h <;>
      simp only [Pc.req, reduceCtorEq, Option.some.injEq, Prod.mk.injEq] at h <;>
      simp only [Pc.holds, h.1] <;> rw [← h.2] at hg <;> exact nomatch hg
  · cases hp : pc t <;> rw [hp] at h <;>
      simp only [Pc.req, reduceCtorEq, Option.some.injEq, Prod.mk.injEq, and_false] at h
    rw [Stage.freeing.injEq] at h
    simp only [Pc.holds, h.2]

/-- What holds in every state. -/
structure Inv (s : System T B) : Prop where
  descs : Descs s.free (fun t => (s.pc t).holds)
  bufs : Bufs s.held (fun t => (s.pc t).buf)
  reqs : Reqs s (fun t => (s.pc t).req)
  locked : ∀ t, (s.pc t).locked = true → s.lock = some t
  ok : ∀ t, (s.pc t).Ok

theorem inv_boot (a u : BitVec 16) : Inv (boot T B a u) := by
  have hunseen : (boot T B a u).unseen = [] := Ring.contents_self _ _
  have hpend : (boot T B a u).pending = [] := by
    rw [System.pending, hunseen]
    simp only [boot, Ring.contents_self, List.append_nil]
  refine ⟨⟨fun _ => List.nodup_nil, ?_, ?_, fun i hi hf => ?_⟩, ⟨?_, ?_⟩, ?_, ?_,
    fun _ => trivial⟩
  case refine_3 =>
    rw [boot, decide_eq_false_iff_not] at hf
    exact absurd hi hf
  case refine_6 =>
    constructor
    case heads =>
      rw [hpend]
      exact List.nodup_nil
    case tokens =>
      intro x
      rw [hpend]
      constructor
      · rintro ⟨⟩
      · rintro ⟨_, _, ⟨⟩, _⟩
    case status =>
      rw [hunseen]
      rintro _ ⟨⟩
    case record =>
      rw [hunseen]
      rfl
    case once => exact List.nodup_nil
    all_goals intros; contradiction
  all_goals intros; contradiction

section Steps

variable [DecidableEq T] {s : System T B}

theorem goto_map {α : Type} (f : Pc B → α) (pc : T → Pc B) (t : T) (p : Pc B) :
    (fun u => f (update pc t p u)) = update (fun u => f (pc u)) t (f p) :=
  funext (apply_update (fun _ => f) pc t p)

/-- A process goes to another state. What it has afterwards is shown for the state
    the tables are in before it moves. -/
theorem Inv.goto (t : T) (p : Pc B)
    (hD : Descs s.free (update (fun u => (s.pc u).holds) t p.holds))
    (hB : Bufs s.held (update (fun u => (s.pc u).buf) t p.buf))
    (hR : Reqs s (update (fun u => (s.pc u).req) t p.req))
    (hl : ∀ u, u ≠ t → (s.pc u).locked = true → s.lock = some u)
    (ht : p.locked = true → s.lock = some t) (hok : ∀ u, (s.pc u).Ok) (hp : p.Ok) :
    Inv (s.goto t p) := by
  rw [← goto_map Pc.holds] at hD
  rw [← goto_map Pc.buf] at hB
  rw [← goto_map Pc.req] at hR
  exact ⟨hD, hB, { hR with },
    (forall_update_iff s.pc (fun u q => q.locked = true → s.lock = some u)).mpr ⟨ht, hl⟩,
    (forall_update_iff s.pc (fun _ q => q.Ok)).mpr ⟨hp, fun u _ => hok u⟩⟩

omit [DecidableEq T] in
theorem Inv.alone (h : Inv s) {t : T} (hl : (s.pc t).locked = true) (u : T) (hut : u ≠ t) :
    (s.pc u).locked ≠ true := by
  intro hu
  have htu := (h.locked t hl).symm.trans (h.locked u hu)
  exact hut (Option.some.inj htu).symm

theorem Inv.quiet (h : Inv s) {t : T} {p q : Pc B} (ht : s.pc t = p) (hs : p.Same q) (l : Option T)
    (hl : ∀ u, u ≠ t → (s.pc u).locked = true → l = some u) (hq : q.locked = true → l = some t)
    (hok : q.Ok) : Inv ({ s with lock := l }.goto t q) := by
  rw [← ht] at hs
  refine Inv.goto (s := { s with lock := l }) t q ?_ ?_ ?_ hl hq h.ok hok
  · rw [hs.holds, update_eq_self]
    exact h.descs
  · rw [hs.buf, update_eq_self]
    exact h.bufs
  · rw [hs.req, update_eq_self]
    exact { h.reqs with }

omit [DecidableEq T] in
theorem Inv.woken (h : Inv s) (f : Pc B → Pc B) (hf : ∀ p, Pc.Alike p (f p)) :
    Inv { s with pc := fun u => f (s.pc u) } := by
  refine ⟨?_, ?_, ?_, fun u hu => ?_, fun u => (hf _).ok (h.ok u)⟩
  · simp only [(hf _).holds]
    exact h.descs
  · simp only [(hf _).buf]
    exact h.bufs
  · simp only [(hf _).req]
    exact { h.reqs with }
  · simp only [(hf _).locked] at hu
    exact h.locked u hu

theorem Inv.freeDesc (h : Inv s) {t : T} {i : Nat} {l : List Nat} {p : Pc B} (q : Pc B)
    (ht : s.pc t = p) (hi : p.holds = i :: l) (hlock : p.locked = true) (hh : q.holds = l)
    (hb : q.buf = p.buf) (hr : Reqs s (update (fun u => (s.pc u).req) t q.req)) (hq : q.Ok) :
    ∃ s₁, Virtio.freeDesc s i = .done s₁ ∧ Inv (s₁.goto t q) := by
  rw [← ht] at hi hlock hb
  have hmem : i ∈ (s.pc t).holds := by
    rw [hi]
    exact List.mem_cons_self
  rcases h.descs.taken t i hmem with ⟨hlt, hf⟩
  have hdone : Virtio.freeDesc s i = .done { s with
      desc := update s.desc i .zero
      free := update s.free i true
      pc := fun u => (s.pc u).wakeFree } := by
    unfold Virtio.freeDesc
    rw [if_neg (by omega), hf]
    rfl
  refine ⟨_, hdone, ?_⟩
  have hD := h.descs.drop t hi
  -- The descriptor is free now, so it is nobody's.
  have hout : ∀ u, i ∉ update (fun u => (s.pc u).holds) t l u := by
    intro u hu
    have hfree := (hD.taken u i hu).2
    rw [update_self] at hfree
    exact nomatch hfree
  have hfits : Fits (update (fun u => (s.pc u).holds) t l)
      (update (fun u => (s.pc u).buf) t q.buf)
      (update (fun u => (s.pc u).req) t q.req) := by
    rw [← hh, ← goto_map Pc.holds, ← goto_map Pc.buf, ← goto_map Pc.req]
    exact fits _
  refine Inv.goto t q ?_ ?_ ?_ (fun u hut hu => ?_) (fun _ => h.locked t hlock)
    (fun u => (Pc.wakeFree_alike _).ok (h.ok u)) hq
  · simp only [(Pc.wakeFree_alike _).holds, hh]
    exact hD
  · simp only [(Pc.wakeFree_alike _).buf, hb, update_eq_self]
    exact h.bufs
  · simp only [(Pc.wakeFree_alike _).req]
    exact { hr.zero hfits hout with }
  · simp only [(Pc.wakeFree_alike _).locked] at hu
    exact h.locked u hu

theorem Inv.acquire (h : Inv s) {t : T} {p q : Pc B} (ht : s.pc t = p) (hs : p.Same q)
    (hq : q.Ok) : Outcome.Meets (fun _ => False) Inv (s.acquire t q) := by
  unfold System.acquire
  cases hl : s.lock with
  | none =>
    refine h.quiet ht hs (some t) (fun u _ hu => ?_) (fun _ => rfl) hq
    have hlu := h.locked u hu
    rw [hl] at hlu
    exact nomatch hlu
  | some u => trivial

theorem Inv.release (h : Inv s) {t : T} {p q : Pc B} (ht : s.pc t = p) (hs : p.Same q)
    (hlock : p.locked = true) (hl : q.locked = false) (hq : q.Ok) : Inv (s.release.goto t q) := by
  rw [← ht] at hlock
  refine h.quiet ht hs none (fun u hut hu => absurd hu (h.alone hlock u hut)) ?_ hq
  rw [hl]
  rintro ⟨⟩

theorem Inv.stay (h : Inv s) {t : T} {p q : Pc B} (ht : s.pc t = p) (hs : p.Same q)
    (hlock : p.locked = true) (hq : q.Ok) : Inv (s.goto t q) := by
  rw [← ht] at hlock
  exact h.quiet ht hs s.lock (fun u _ hu => h.locked u hu) (fun _ => h.locked t hlock) hq

theorem Inv.advanceReq (h : Inv s) {s' : System T B} {t : T} {p : Pc B} (q : Pc B)
    (ht : s.pc t = p) (hR : Reqs s' (update (fun u => (s.pc u).req) t q.req)) (hs : s.SameUse s')
    (hlock : p.locked = true) (hh : q.holds = p.holds) (hb : q.buf = p.buf) (hq : q.Ok) :
    Inv (s'.goto t q) := by
  rw [← ht] at hlock hh hb
  cases s'
  rcases hs with ⟨rfl, rfl, rfl, rfl⟩
  refine Inv.goto t q ?_ ?_ hR (fun u _ => h.locked u) (fun _ => h.locked t hlock) h.ok hq
  · rw [hh, update_eq_self]
    exact h.descs
  · rw [hb, update_eq_self]
    exact h.bufs

omit [DecidableEq T] in
theorem Inv.device (h : Inv s) {s' : System T B} (hR : Reqs s' (fun u => (s.pc u).req))
    (hs : s.SameUse s') : Inv s' := by
  cases s'
  rcases hs with ⟨rfl, rfl, rfl, rfl⟩
  exact ⟨h.descs, h.bufs, hR, h.locked, h.ok⟩

omit [DecidableEq T] in
theorem allocDesc_spec {i : Nat} (h : s.allocDesc = some i) : i < NUM ∧ s.free i = true :=
  ⟨List.mem_range.mp (List.mem_of_find?_eq_some h), List.find?_some h⟩

variable [DecidableEq B]

theorem Inv.intr (h : Inv s) (t : T) (ht : s.pc t = .iloop) :
    Outcome.Meets (fun _ => False) Inv (Virtio.intr s t) := by
  unfold Virtio.intr
  by_cases he : s.usedIdx = s.usedDev
  · rw [if_pos he]
    exact h.release ht ⟨rfl, rfl, rfl⟩ rfl rfl trivial
  · rcases h.reqs.front he with ⟨u, c, hu, -, hx, hstatus, hb⟩
    rw [if_neg he]
    simp only [hx, hstatus, hb, ne_eq, not_true, if_false]
    have hR := h.reqs.intr (fits s.pc) h.descs h.bufs he hu hx
    have hI : Inv { s with
        disk := update s.disk c.b false
        usedIdx := s.usedIdx + 1
        cleared := s.cleared ++ [c.req] } := ⟨h.descs, h.bufs, hR, h.locked, h.ok⟩
    exact hI.woken (Pc.wakeBuf c.b) (Pc.wakeBuf_alike c.b)

omit [DecidableEq B] in
theorem Inv.allocDesc (h : Inv s) {t : T} {b : B} {write : Bool} {idx : List Nat}
    (ht : s.pc t = .alloc b write idx) (hlt : idx.length ≤ 2) :
    Outcome.Meets (fun _ : Panic => False) Inv
      (match s.allocDesc with
      | none => .done (s.goto t (.undo b write idx))
      | some i =>
        .done ({ s with free := update s.free i false }.goto t
          (.alloc b write (idx ++ [i])))) := by
  cases ha : s.allocDesc with
  | none => exact h.stay ht ⟨rfl, rfl, rfl⟩ rfl (Nat.le_succ_of_le hlt)
  | some i =>
    rcases allocDesc_spec ha with ⟨hi, hf⟩
    have hD := h.descs.take t hi hf
    have hsame : Pc.Same (s.pc t) (.alloc b write idx) := by
      rw [ht]
      exact ⟨rfl, rfl, rfl⟩
    have hlock : (s.pc t).locked = true := by
      rw [ht]
      rfl
    refine Inv.goto t _ ?_ ?_ ?_ (fun u _ hu => h.locked u hu) (fun _ => h.locked t hlock) h.ok ?_
    · simp only [ht, Pc.holds] at hD ⊢
      exact hD
    · change Bufs s.held (update _ t (Pc.alloc b write idx).buf)
      rw [hsame.buf, update_eq_self]
      exact h.bufs
    · change Reqs _ (update _ t (Pc.alloc b write idx).req)
      rw [hsame.req, update_eq_self]
      exact { h.reqs with }
    · simp only [Pc.Ok, List.length_append, List.length_singleton]
      omega

/-- Every step of a process or handler keeps the invariant, and none panics. -/
theorem advance_inv (h : Inv s) (t : T) :
    Outcome.Meets (fun _ => False) Inv (advance s t) := by
  have hok := h.ok t
  have hF := fits s.pc
  unfold advance
  cases ht : s.pc t with
  | user => trivial
  | lock b write => exact h.acquire ht ⟨rfl, rfl, rfl⟩ (Nat.zero_le 3)
  | alloc b write idx =>
    rw [ht] at hok
    rcases idx with _ | ⟨i, _ | ⟨j, _ | ⟨k, _ | ⟨m, l⟩⟩⟩⟩
    · exact h.allocDesc ht (Nat.zero_le 2)
    · exact h.allocDesc ht (Nat.le_succ 1)
    · exact h.allocDesc ht (Nat.le_refl 2)
    · exact h.stay ht ⟨rfl, rfl, rfl⟩ rfl trivial
    · simp only [Pc.Ok, List.length_cons] at hok
      omega
  | undo b write idx =>
    rw [ht] at hok
    cases idx with
    | nil => exact h.release ht ⟨rfl, rfl, rfl⟩ rfl rfl trivial
    | cons i idx =>
      have hr : Reqs s (update (fun u => (s.pc u).req) t (Pc.undo b write idx).req) := by
        have hsame : (Pc.undo b write idx).req = (s.pc t).req := by
          rw [ht]
          rfl
        rw [hsame, update_eq_self]
        exact h.reqs
      have hok' : (Pc.undo b write idx).Ok := by
        simp only [Pc.Ok, List.length_cons] at hok ⊢
        omega
      rcases h.freeDesc (.undo b write idx) ht rfl rfl rfl rfl hr hok' with ⟨s₁, hs₁, hI⟩
      simp only [hs₁]
      exact hI
  | sleepFree b write => trivial
  | fill b write i0 i1 i2 =>
    have hR := h.reqs.fill hF h.descs h.bufs (t := t) (b := b) write
      (by simp only [ht]; rfl) (by simp only [ht]; rfl) (by simp only [ht]; rfl) _ rfl
    exact h.advanceReq (.ring _) ht hR ⟨rfl, rfl, rfl, rfl⟩ rfl rfl rfl trivial
  | ring c =>
    have hK : (s.pc t).req = some (c, .filled) := congrArg Pc.req ht
    -- Only the holder of the lock is between the ring and the index.
    have hR := h.reqs.ring hF h.descs (t := t) hK (fun u c' hu => by
      by_cases hut : u = t
      · rw [hut, hK] at hu
        cases (Prod.mk.inj (Option.some.inj hu)).2
      · exact h.alone (congrArg Pc.locked ht) u hut (Pc.locked_of_ringed hu))
    exact h.advanceReq (.publish c) ht hR ⟨rfl, rfl, rfl, rfl⟩ rfl rfl rfl trivial
  | publish c =>
    have hK : (s.pc t).req = some (c, .ringed) := congrArg Pc.req ht
    have hR := h.reqs.publish hF h.descs (t := t) hK (fun u c' hu => by
      by_contra hut
      exact h.alone (congrArg Pc.locked ht) u hut (Pc.locked_of_ringed hu))
    exact h.advanceReq (.check c) ht hR ⟨rfl, rfl, rfl, rfl⟩ rfl rfl rfl trivial
  | check c =>
    by_cases hd : s.disk c.b = true
    · simp only [if_pos hd]
      exact h.release ht ⟨rfl, rfl, rfl⟩ rfl rfl trivial
    · simp only [if_neg hd]
      have hK : (s.pc t).req = some (c, .posted) := congrArg Pc.req ht
      have hR := h.reqs.answer (t := t) hK (Bool.not_eq_true _ ▸ hd)
      exact h.advanceReq (.clear c) ht hR ⟨rfl, rfl, rfl, rfl⟩ rfl rfl rfl trivial
  | sleepBuf c => trivial
  | relock c => exact h.acquire ht ⟨rfl, rfl, rfl⟩ trivial
  | clear c =>
    have hK : (s.pc t).req = some (c, .answered) := congrArg Pc.req ht
    have hR := h.reqs.clear hF h.descs (t := t) hK
    exact h.advanceReq (.free c c.i0 c.list) ht hR ⟨rfl, rfl, rfl, rfl⟩ rfl rfl rfl
      ⟨_, rfl, Nat.le_refl 2⟩
  | free c i rest =>
    rw [ht] at hok
    rcases hok with ⟨l, rfl, hlen⟩
    have hK : (s.pc t).req = some (c, .freeing (i :: l)) := congrArg Pc.req ht
    have hw := h.reqs.rest t c _ hK
    cases l with
    | nil =>
      -- The last descriptor has no successor.
      simp only [Walk] at hw
      have hr := h.reqs.rested (t := t) hK .finished (Or.inl rfl)
      rcases h.freeDesc (.unlock c) ht rfl rfl rfl rfl hr trivial with ⟨s₁, hs₁, hI⟩
      simp only [hs₁, hw, ne_eq, not_true, if_false]
      exact hI
    | cons j l =>
      simp only [Walk] at hw
      have hr := h.reqs.rested (t := t) hK (.freeing (j :: l)) (Or.inr ⟨_, rfl, hw.2.2⟩)
      rcases h.freeDesc (.free c j (j :: l)) ht rfl rfl rfl rfl hr
        ⟨l, rfl, Nat.le_of_succ_le hlen⟩ with ⟨s₁, hs₁, hI⟩
      simp only [hs₁, hw.2.1]
      rw [Outcome.done_bind, if_pos hw.1]
      exact hI
  | unlock c =>
    have hR := h.reqs.unlock (t := t) (c := c) (congrArg Pc.req ht)
    have hB := h.bufs.stop t (b := c.b) (by simp only [ht]; rfl)
    have hlock : (s.pc t).locked = true := congrArg Pc.locked ht
    refine Inv.goto t .user ?_ hB { hR with }
      (fun u hut hu => absurd hu (h.alone hlock u hut)) (by intros; contradiction) h.ok trivial
    have hsame : (Pc.user : Pc B).holds = (s.pc t).holds := by
      rw [ht]
      rfl
    rw [hsame]
    simp only [System.release, update_eq_self]
    exact h.descs
  | ilock => exact h.acquire ht ⟨rfl, rfl, rfl⟩ trivial
  | iloop => exact h.intr t ht

omit [DecidableEq T] [DecidableEq B] in
theorem Pc.eq_user {p : Pc B} (h : p.isUser = true) : p = .user := by
  cases p with
  | user => rfl
  | _ => exact nomatch h

/-- Every event keeps the invariant, and none panics. -/
theorem step_inv (h : Inv s) (e : Event T B) : Outcome.Meets (fun _ => False) Inv (step s e) := by
  cases e with
  | rw t b write =>
    simp only [step]
    by_cases hc : (s.pc t).isUser = true ∧ s.held b = false
    · rw [if_pos hc]
      have hu := Pc.eq_user hc.1
      refine Inv.goto t _ ?_ (h.bufs.start t hc.2) ?_ (fun u _ hu => h.locked u hu) nofun h.ok
        trivial
      · have hsame : (Pc.lock b write).holds = (s.pc t).holds := by
          rw [hu]
          rfl
        rw [hsame, update_eq_self]
        exact h.descs
      · have hsame : (Pc.lock b write).req = (s.pc t).req := by
          rw [hu]
          rfl
        rw [hsame, update_eq_self]
        exact { h.reqs with }
    · rw [if_neg hc]
      trivial
  | intr t =>
    simp only [step]
    by_cases hc : (s.pc t).isUser = true
    · rw [if_pos hc]
      exact h.quiet (q := .ilock) (Pc.eq_user hc) ⟨rfl, rfl, rfl⟩ s.lock
        (fun u _ hu => h.locked u hu) nofun trivial
    · rw [if_neg hc]
      trivial
  | step t => exact advance_inv h t
  | wake t =>
    have ha := Pc.resume_alike (s.pc t)
    exact h.quiet rfl ha.toSame s.lock (fun u _ hu => h.locked u hu)
      (fun hu => h.locked t (ha.locked ▸ hu)) (ha.ok (h.ok t))
  | fetch => exact Outcome.meets_mono h.reqs.fetch (fun s' hs => h.device hs.1 hs.2)
  | complete k =>
    exact Outcome.meets_mono (h.reqs.complete (fits s.pc) h.descs k)
      (fun s' hs => h.device hs.1 hs.2)

/-- A step that clears no flag of a buffer. -/
def Keeps (s s' : System T B) : Prop :=
  s'.cleared = s.cleared ∧ ∀ b, s'.disk b = false → s.disk b = false

/-- A step that clears the flag of the request at the front of the `used` ring. -/
def Clears (s s' : System T B) : Prop :=
  ∃ u c, (s.pc u).req = some (c, .posted) ∧ s.disk c.b = true ∧
    s.unseen.head? = some (c.i0, c.req) ∧ s'.disk = update s.disk c.b false ∧
    s'.cleared = s.cleared ++ [c.req]

omit [DecidableEq T] [DecidableEq B] in
theorem Keeps.same {s s' : System T B} (hc : s'.cleared = s.cleared) (hd : s'.disk = s.disk) :
    Keeps s s' :=
  ⟨hc, fun b hb => by rw [← hd]; exact hb⟩

omit [DecidableEq T] [DecidableEq B] in
theorem freeDesc_keeps (i : Nat) : Outcome.Meets (fun _ => True)
    (fun s₁ => s₁.cleared = s.cleared ∧ s₁.disk = s.disk) (Virtio.freeDesc s i) := by
  unfold Virtio.freeDesc
  split
  · trivial
  · split
    · trivial
    · exact ⟨rfl, rfl⟩

omit [DecidableEq B] in
theorem acquire_keeps (t : T) (p : Pc B) :
    Outcome.Meets (fun _ => True) (Keeps s) (s.acquire t p) := by
  unfold System.acquire
  split
  · exact .same rfl rfl
  · trivial

theorem intr_clears (h : Inv s) (t : T) :
    Outcome.Meets (fun _ => True) (fun s' => Keeps s s' ∨ Clears s s') (Virtio.intr s t) := by
  unfold Virtio.intr
  by_cases he : s.usedIdx = s.usedDev
  · rw [if_pos he]
    exact Or.inl (.same rfl rfl)
  · rcases h.reqs.front he with ⟨u, c, hu, hd, hx, hstatus, hb⟩
    rw [if_neg he]
    simp only [hx, hstatus, hb, ne_eq, not_true, if_false]
    refine Or.inr ⟨u, c, hu, hd, ?_, rfl, rfl⟩
    rw [System.unseen, Ring.contents_pop s.used he, hx, List.head?_cons]

theorem advance_keeps {t : T} (ht : s.pc t ≠ .iloop) :
    Outcome.Meets (fun _ => True) (Keeps s) (advance s t) := by
  unfold advance
  cases hp : s.pc t with
  | iloop => exact absurd hp ht
  | user | sleepFree b write | sleepBuf c => trivial
  | lock b write | relock c | ilock => exact acquire_keeps t _
  | alloc b write idx =>
    simp only
    split
    · exact .same rfl rfl
    · split <;> exact .same rfl rfl
  | undo b write idx =>
    cases idx with
    | nil => exact .same rfl rfl
    | cons i idx =>
      refine (Outcome.meets_bind _ _ _).mpr (Outcome.meets_mono (freeDesc_keeps i) ?_)
      exact fun s₁ hs₁ => .same hs₁.1 hs₁.2
  | fill b write i0 i1 i2 =>
    -- This one sets a flag.
    refine ⟨rfl, fun b' hb' => ?_⟩
    simp only [System.goto] at hb'
    by_cases hbb : b' = b
    · rw [hbb, update_self] at hb'
      exact nomatch hb'
    · rw [update_of_ne hbb] at hb'
      exact hb'
  | ring c | publish c => exact .same rfl rfl
  | check c =>
    simp only
    split <;> exact .same rfl rfl
  | clear c => exact .same rfl rfl
  | free c i rest =>
    refine (Outcome.meets_bind _ _ _).mpr (Outcome.meets_mono (freeDesc_keeps i) ?_)
    intro s₁ hs₁
    split <;> exact .same hs₁.1 hs₁.2
  | unlock c => exact .same rfl rfl

theorem disk_cleared (h : Inv s) (e : Event T B) :
    Outcome.Meets (fun _ => True) (fun s' => Keeps s s' ∨ Clears s s') (step s e) := by
  cases e with
  | rw t b write | intr t =>
    simp only [step]
    split
    · exact Or.inl (.same rfl rfl)
    · trivial
  | wake t => exact Or.inl (.same rfl rfl)
  | fetch =>
    simp only [step, fetch]
    split
    · trivial
    · exact Or.inl (.same rfl rfl)
  | complete k =>
    simp only [step, complete]
    split
    · trivial
    · split
      · exact Or.inl (.same rfl rfl)
      · trivial
  | step t =>
    by_cases ht : s.pc t = .iloop
    · simp only [step, advance, ht]
      exact intr_clears h t
    · exact Outcome.meets_mono (advance_keeps ht) (fun s' hs => Or.inl hs)

/-- What holds in every run, for any number of processes and handlers, any device that
    completes each chain once, and indices that may have wrapped. No event panics. A
    descriptor that is not free belongs to one process, which has a whole chain or, while
    it takes or frees one, the lock. The slot a process is about to write is not among
    those the device has still to read, and what is on its way are the published requests
    whose flag is set, each with one entry. An entry of the `used` ring names the chain of a request
    and its buffer. Completions are answered once each and in order, a published
    request has its flag exactly until it is answered, and only its own answer clears
    it. -/
theorem request_protocol (a u : BitVec 16) (es : List (Event T B)) :
    (∀ p, runs step es (boot T B a u) ≠ .panic p) ∧
    ∀ s, runs step es (boot T B a u) = .done s →
      (∀ i, i < NUM → (s.free i = false ↔ ∃ t, i ∈ (s.pc t).holds)) ∧
      (∀ t, (s.pc t).holds.Nodup ∧ ∀ i ∈ (s.pc t).holds, i < NUM) ∧
      (∀ t v i, i ∈ (s.pc t).holds → i ∈ (s.pc v).holds → t = v) ∧
      (∀ t, (s.pc t).holds ≠ [] →
        (∃ c g, (s.pc t).req = some (c, g) ∧ g.live = true ∧
          (s.pc t).holds = [c.i0, c.i1, c.i2] ∧ Walk s.desc [c.i0, c.i1, c.i2]) ∨
        (s.lock = some t ∧ (s.pc t).holds.length ≤ 3 ∧
          ∀ c g, (s.pc t).req = some (c, g) → g.live = false)) ∧
      (∀ t c, s.pc t = .ring c → ∀ k < (s.availIdx - s.lastAvail).toNat,
        Ring.slot NUM (s.lastAvail + BitVec.ofNat 16 k) ≠ Ring.slot NUM s.availIdx) ∧
      (s.pending.map Prod.fst).Nodup ∧
      (∀ x, x ∈ s.pending ↔
        ∃ t c, (s.pc t).req = some (c, .posted) ∧ s.disk c.b = true ∧ x = (c.i0, c.req)) ∧
      (∀ x ∈ s.unseen, ∃ t c, (s.pc t).req = some (c, .posted) ∧ x = (c.i0, c.req) ∧
        (s.info x.1).b = some c.b ∧ (s.info x.1).status = 0) ∧
      s.completed = s.cleared ++ s.unseen.map Prod.snd ∧ s.completed.Nodup ∧
      (∀ t c, (s.pc t).req = some (c, .posted) → (s.disk c.b = false ↔ c.req ∈ s.cleared)) ∧
      (∀ r ∈ s.returned, r ∈ s.cleared) ∧
      (∀ e s', step s e = .done s' → Keeps s s' ∨
        ∃ t c, (s.pc t).req = some (c, .posted) ∧ s.disk c.b = true ∧
          s.unseen.head? = some (c.i0, c.req) ∧ s'.disk = update s.disk c.b false ∧
          s'.cleared = s.cleared ++ [c.req]) := by
  have hrun := runs_meets (fun _ e hI => step_inv hI e) es _ (inv_boot (T := T) (B := B) a u)
  refine ⟨fun p hp => ?_, fun s hs => ?_⟩
  · rw [hp] at hrun
    exact hrun
  rw [hs] at hrun
  have h : Inv s := hrun
  refine ⟨fun i hi => ⟨h.descs.cover i hi, ?_⟩, fun t => ⟨h.descs.nodup t, ?_⟩, h.descs.apart,
    fun t ht => ?_, fun t c ht k hk => ?_, h.reqs.heads, h.reqs.tokens, fun x hx => ?_,
    h.reqs.record, h.reqs.once, fun t c ht => ⟨?_, ?_⟩, h.reqs.returned, fun e s' hs => ?_⟩
  · rintro ⟨t, ht⟩
    exact (h.descs.taken t i ht).2
  · exact fun i hi => (h.descs.taken t i hi).1
  · rcases (s.pc t).chain_or_locked ht with ⟨c, g, hc, hg, hh⟩ | ⟨hl, hdead⟩
    · exact Or.inl ⟨c, g, hc, hg, hh, (h.reqs.walk t c g hc hg).1⟩
    · exact Or.inr ⟨h.locked t hl, (s.pc t).holds_le (h.ok t), hdead⟩
  · have hK : (s.pc t).req = some (c, .filled) := by rw [ht]; rfl
    have hlt := h.reqs.pending_lt (fits s.pc) h.descs (t := t) hK rfl (by decide)
    have hle := Reqs.count_avail_le (s := s)
    have hne := Ring.slot_add_ne (N := NUM) (by decide) s.lastAvail k
      (Ring.count s.lastAvail s.availIdx) hk (by omega)
    rwa [Ring.add_count] at hne
  · rcases (h.reqs.tokens x).mp (Reqs.unseen_mem hx) with ⟨t, c, ht, -, rfl⟩
    exact ⟨t, c, ht, rfl, (h.reqs.walk t c _ ht rfl).2.2, h.reqs.status _ hx⟩
  · exact fun hd => h.reqs.done_req t c _ ht (Or.inr hd)
  · intro hm
    by_contra hd
    exact h.reqs.open_req t c _ ht rfl (Bool.eq_true_of_not_eq_false hd) hm
  · have hd := disk_cleared h e
    rw [hs] at hd
    exact hd

/-- Two requests of two processes, with indices that wrap: the device finishes the
    second one first, and the handler answers both. -/
def crossing : List (Event Nat Nat) :=
  [.rw 0 5 false, .rw 1 6 true] ++ List.replicate 9 (.step 0) ++ List.replicate 9 (.step 1) ++
    [.fetch, .fetch, .complete 1, .complete 0, .intr 2] ++ List.replicate 3 (.step 2)

theorem request_protocol_crossing : ∃ s,
    runs step crossing (boot Nat Nat 0xffff 0xffff) = .done s ∧
      s.availIdx = 1 ∧ s.usedIdx = 1 ∧ s.completed = [1, 0] ∧ s.cleared = [1, 0] ∧
      (s.disk 5 = false ↔ 0 ∈ s.cleared) ∧ s.completed.Nodup := by
  rcases Outcome.exists_of_decide
    (fun s : System Nat Nat => s.availIdx = 1 ∧ s.usedIdx = 1 ∧ s.completed = [1, 0] ∧
      s.cleared = [1, 0] ∧ s.disk 5 = false)
    (runs step crossing (boot Nat Nat 0xffff 0xffff)) (by decide +kernel)
    with ⟨s, hs, ha, hu, hc, hcl, hd⟩
  have h := (request_protocol 0xffff 0xffff crossing).2 s hs
  refine ⟨s, hs, ha, hu, hc, hcl, ?_, h.2.2.2.2.2.2.2.2.2.1⟩
  rw [hcl]
  exact ⟨fun _ => by decide, fun _ => hd⟩

end Steps

end Xv6.Virtio
