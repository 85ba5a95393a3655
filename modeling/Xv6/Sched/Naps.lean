import Xv6.Sched.Owned

/-!
# Sleepers and the Killed

The part of the invariant about processes that sleep, and about `kill`.

A process has a reason to sleep from the moment when it holds both the lock of
the wait and its own. It may still be on its way to sleep when it has given up
the first of them, but then it holds the other, and whoever wants to wake it has
to wait until it sleeps. So while nobody holds the lock of a wait, nobody sleeps
for it whose condition has come true.

The killed flag of a process that sleeps in a wait that `kill` ends is clear,
unless somebody was killed between the test of the flag and the sleep.

## Main definitions

* `Machine.Ready`: What a process waits for has come.
* `Naps`: Nobody sleeps without a reason.
* `Machine.Named`: No `kill` with pid 0 has found a slot.
* `Kills`: Who has been killed.
-/

namespace Xv6.Sched

open Function (forall_update_iff update update_of_ne update_self)

theorem Nap.lock_of_readyAt {np : Nat} {D : Type} {w : Nap D} {k : Key} {x : k.Val D}
    (h : w.readyAt k x) : (w.lock : Lock np) = .key k := by
  cases w with
  | wait => exact h.elim
  | read i | write i =>
    cases k with
    | pipe j => rw [show i = j from h.1]; rfl
    | ticks => exact h.elim
    | cons => exact h.elim
    | data n => exact h.elim
  | ticks t n =>
    cases k with
    | ticks => rfl
    | pipe j | cons | data n => exact h.elim
  | cons =>
    cases k with
    | cons => rfl
    | pipe j | ticks | data n => exact h.elim
  | await n c ch =>
    cases k with
    | data n' => rw [show n = n' from h.1]; rfl
    | pipe j | ticks | cons => exact h.elim

theorem Nap.lock_ne_proc {np : Nat} {D : Type} (w : Nap D) (q : Fin np) :
    (w.lock : Lock np) ≠ .proc q := by
  cases w <;> simp only [Nap.lock, ne_eq, reduceCtorEq, not_false_eq_true]

theorem Nap.lock_ne_pid {np : Nat} {D : Type} (w : Nap D) : (w.lock : Lock np) ≠ .pid := by
  cases w <;> simp only [Nap.lock, ne_eq, reduceCtorEq, not_false_eq_true]

section Naps

variable {np nc : Nat} {D : Type} {m m' : Machine np nc D} {W : Thread np nc → View np D}
  {t : Thread np nc} {v' : View np D}

/-- What a process waits for has come. -/
def Machine.Ready (m : Machine np nc D) (w : Nap D) (p : Fin np) : Prop :=
  (w = .wait ∧ m.table.Ready p) ∨ ∃ k, w.readyAt k (m.key k)

/-- The wait for a pipe that a writer has left without waking its readers. -/
def Machine.Excused (m : Machine np nc D) (w : Nap D) : Prop :=
  ∃ i, w = .read i ∧ m.ghost.rude i = true

/-- Nobody sleeps without a reason. -/
structure Naps (m : Machine np nc D) (W : Thread np nc → View np D) : Prop where
  asleep : ∀ p, (m.slot p).state = .sleeping → (m.slot p).nap ≠ none
  nap : ∀ p w, (m.slot p).nap = some w → (W (.proc p)).commit = some w ∨
    ((m.slot p).state = .sleeping ∧ (m.slot p).chan = some (w.chan p))
  commit : ∀ t w, (W t).commit = some w → ∃ p, t = .proc p ∧ (W t).slot p ≠ none ∧
    (m.slot p).nap = some w ∧ (m.slot p).state = .running
  clear : ∀ t w p, (W t).clear w p → (W t).owns w.lock ∧ (m.Excused w ∨ (m.slot p).nap ≠ some w)
  quiet : ∀ w p, (∀ t, ¬(W t).owns w.lock) → (m.slot p).nap = some w → m.Ready w p →
    m.Excused w

namespace Naps

theorem nap_none (h : Naps m W) (ho : Owned m W) {q : Fin np} {x : Slot np D}
    (hq : (W t).slot q = some x) (hcommit : t = .proc q → (W t).commit = none)
    (hx : x.state ≠ .sleeping) : x.nap = none := by
  cases hw : x.nap with
  | none => rfl
  | some w =>
    exfalso
    have hslot := ho.slot t q x hq
    have hown : (W t).slot q ≠ none := by
      rw [hq]
      exact nofun
    rcases h.nap q w (by rw [hslot]; exact hw) with hc | hc
    · by_cases ht : t = .proc q
      · rw [← ht, hcommit ht] at hc
        exact nomatch hc
      · rcases h.commit _ w hc with ⟨p, hp, hs, _⟩
        rw [← Thread.proc.inj hp] at hs
        exact hs (ho.slot_none hown (fun he => ht he.symm))
    · rw [hslot] at hc
      exact hx hc.1

/-- What a thread finds in a slot that is not its own. -/
theorem napOk (h : Naps m W) {q : Fin np} (hcommit : (W (.proc q)).commit = none) :
    NapOk q (m.slot q) := by
  intro w hw
  rcases h.nap q w hw with hc | hc
  · rw [hcommit] at hc
    exact nomatch hc
  · exact hc

/-- A slot is the same for those who want to sleep or to wake. -/
structure Same (x y : Slot np D) : Prop where
  nap : y.nap = x.nap
  sleeping : y.state = .sleeping ↔ x.state = .sleeping
  chan : x.state = .sleeping → y.chan = x.chan
  running : x.nap ≠ none → x.state = .running → y.state = .running

theorem Same.refl (x : Slot np D) : Same x x := ⟨rfl, Iff.rfl, fun _ => rfl, fun _ => id⟩

theorem Same.of_awake {x y : Slot np D} {a b : State} (hx : x.state = a) (hy : y.state = b)
    (ha : a ≠ .sleeping) (hb : b ≠ .sleeping) (hnap : y.nap = x.nap)
    (hrun : x.nap ≠ none → a = .running → b = .running) : Same x y := by
  subst hx hy
  exact ⟨hnap, ⟨fun h => absurd h hb, fun h => absurd h ha⟩, fun h => absurd h ha, hrun⟩

theorem change (h : Naps m W) (hslot : ∀ p, Same (m.slot p) (m'.slot p))
    (hrude : ∀ i, m.ghost.rude i = true → m'.ghost.rude i = true)
    (hcommit : v'.commit = (W t).commit)
    (hkeep : ∀ p, t = .proc p → (W t).commit ≠ none → (W t).slot p ≠ none → v'.slot p ≠ none)
    (hclear : ∀ w p, v'.clear w p → v'.owns w.lock ∧
      (m'.Excused w ∨ (m.slot p).nap ≠ some w))
    (hquiet : ∀ w p, ¬v'.owns w.lock → (m.slot p).nap = some w → m'.Ready w p →
      m'.Excused w ∨ ¬(W t).owns w.lock ∧ m.Ready w p) :
    Naps m' (update W t v') := by
  have hall : ∀ t', (update W t v' t').commit = (W t').commit :=
    (forall_update_iff W (fun t' u => u.commit = (W t').commit)).mpr
      ⟨hcommit, fun _ _ => rfl⟩
  have hexc : ∀ w, m.Excused w → m'.Excused w := by
    rintro w ⟨i, hw, hi⟩
    exact ⟨i, hw, hrude i hi⟩
  refine ⟨fun p hp => ?_, fun p w hw => ?_, ?_, ?_, fun w p hown hw hr => ?_⟩
  · rw [(hslot p).nap]
    exact h.asleep p ((hslot p).sleeping.mp hp)
  · rw [(hslot p).nap] at hw
    rw [hall]
    rcases h.nap p w hw with hc | ⟨h₁, h₂⟩
    · exact Or.inl hc
    · exact Or.inr ⟨(hslot p).sleeping.mpr h₁, ((hslot p).chan h₁).trans h₂⟩
  · refine (forall_update_iff W (fun t' u => ∀ w, u.commit = some w →
      ∃ p, t' = .proc p ∧ u.slot p ≠ none ∧ (m'.slot p).nap = some w ∧
        (m'.slot p).state = .running)).mpr ⟨fun w hw => ?_, fun t' _ w hw => ?_⟩
    · rw [hcommit] at hw
      rcases h.commit t w hw with ⟨p, h₁, h₂, h₃, h₄⟩
      refine ⟨p, h₁, hkeep p h₁ (fun hn => ?_) h₂, ((hslot p).nap).trans h₃,
        (hslot p).running (fun hn => ?_) h₄⟩
      · exact nomatch hw.symm.trans hn
      · exact nomatch h₃.symm.trans hn
    · rcases h.commit t' w hw with ⟨p, h₁, h₂, h₃, h₄⟩
      refine ⟨p, h₁, h₂, ((hslot p).nap).trans h₃, (hslot p).running ?_ h₄⟩
      rw [h₃]
      exact nofun
  · refine (forall_update_iff W (fun _ u => ∀ w p, u.clear w p → u.owns w.lock ∧
      (m'.Excused w ∨ (m'.slot p).nap ≠ some w))).mpr ⟨fun w p hw => ?_, fun t' _ w p hw => ?_⟩
    · rw [(hslot p).nap]
      exact hclear w p hw
    · rw [(hslot p).nap]
      exact ⟨(h.clear t' w p hw).1, (h.clear t' w p hw).2.imp_left (hexc w)⟩
  · rw [(hslot p).nap] at hw
    have hself := hown t
    rw [update_self] at hself
    rcases hquiet w p hself hw hr with hdone | ⟨hwas, hr'⟩
    · exact hdone
    · refine hexc w (h.quiet w p (fun t' ho => ?_) hw hr')
      by_cases ht : t' = t
      · rw [ht] at ho
        exact hwas ho
      · have hother := hown t'
        rw [update_of_ne ht] at hother
        exact hother ho

theorem ready_of_same (htab : m'.table = m.table) (hkey : m'.key = m.key)
    (howns : ∀ w : Nap D, (W t).owns w.lock → v'.owns w.lock) {w : Nap D} {p : Fin np}
    (h : ¬v'.owns w.lock) (hr : m'.Ready w p) : ¬(W t).owns w.lock ∧ m.Ready w p := by
  unfold Machine.Ready at hr ⊢
  rw [htab, hkey] at hr
  exact ⟨fun ho => h (howns w ho), hr⟩

/-- One slot changes that the thread has locked. A new reason to sleep comes under
    the lock of the wait. -/
theorem slotStep (h : Naps m W) (ho : Owned m W) {q : Fin np} (hq : (W t).slot q ≠ none)
    (hother : ∀ r, r ≠ q → m'.slot r = m.slot r) (hrude : m'.ghost.rude = m.ghost.rude)
    (htab : ¬(W t).owns .wait → m'.table = m.table) (hkey : m'.key = m.key)
    (howns : ∀ l, v'.owns l ↔ (W t).owns l)
    (hclear : ∀ w p, v'.clear w p → (W t).clear w p)
    (hcommit : t ≠ .proc q → v'.commit = (W t).commit)
    (hasleep : (m'.slot q).state = .sleeping → (m'.slot q).nap ≠ none)
    (hnap : ∀ w, (m'.slot q).nap = some w → (t = .proc q ∧ v'.commit = some w) ∨
      ((m'.slot q).state = .sleeping ∧ (m'.slot q).chan = some (w.chan q)))
    (hnew : ∀ w, (m'.slot q).nap = some w → (m.slot q).nap = some w ∨
      (W t).owns w.lock ∧ ¬v'.clear w q)
    (hself : t = .proc q → ∀ w, v'.commit = some w →
      (m'.slot q).nap = some w ∧ (m'.slot q).state = .running) :
    Naps m' (update W t v') := by
  have hexc : ∀ w, m'.Excused w ↔ m.Excused w := fun w => by
    unfold Machine.Excused
    rw [hrude]
  -- What a thread has found out stays true where the reason to sleep is not new.
  have hstill : ∀ t' w p, (W t').clear w p →
      (p = q → (m'.slot q).nap = some w → (m.slot q).nap = some w) →
      (W t').owns w.lock ∧ (m'.Excused w ∨ (m'.slot p).nap ≠ some w) := by
    intro t' w p hw hold
    rcases h.clear t' w p hw with ⟨h₁, h₂⟩
    rw [hexc]
    refine ⟨h₁, h₂.imp_right (fun hne hc => hne ?_)⟩
    by_cases hpq : p = q
    · rw [hpq] at hc ⊢
      exact hold hpq hc
    · rw [hother p hpq] at hc
      exact hc
  refine ⟨fun p hp => ?_, fun p w hw => ?_, ?_, ?_, fun w p hfree hw hr => ?_⟩
  · by_cases hpq : p = q
    · rw [hpq] at hp ⊢
      exact hasleep hp
    · rw [hother p hpq] at hp ⊢
      exact h.asleep p hp
  · by_cases hpq : p = q
    · rw [hpq] at hw ⊢
      refine (hnap w hw).imp_left (fun hc => ?_)
      rw [← hc.1, update_self]
      exact hc.2
    · rw [hother p hpq] at hw ⊢
      by_cases ht : t = .proc p
      · have htq : t ≠ .proc q := fun he => hpq (Thread.proc.inj (ht.symm.trans he))
        rw [← ht, update_self, hcommit htq, ht]
        exact h.nap p w hw
      · rw [update_of_ne (fun he => ht he.symm)]
        exact h.nap p w hw
  · refine (forall_update_iff W (fun t' u => ∀ w, u.commit = some w →
      ∃ p, t' = .proc p ∧ u.slot p ≠ none ∧ (m'.slot p).nap = some w ∧
        (m'.slot p).state = .running)).mpr ⟨fun w hw => ?_, fun t' ht' w hw => ?_⟩
    · by_cases ht : t = .proc q
      · exact ⟨q, ht, (howns (.proc q)).mpr hq, hself ht w hw⟩
      · rw [hcommit ht] at hw
        rcases h.commit t w hw with ⟨p, h₁, h₂, h₃⟩
        refine ⟨p, h₁, (howns (.proc p)).mpr h₂, ?_⟩
        rw [hother p (fun he => ht (by rw [h₁, he]))]
        exact h₃
    · -- The other thread holds the lock of another process.
      rcases h.commit t' w hw with ⟨p, h₁, h₂, h₃⟩
      refine ⟨p, h₁, h₂, ?_⟩
      rw [hother p (fun he => h₂ (by rw [he]; exact ho.slot_none hq ht'))]
      exact h₃
  · refine (forall_update_iff W (fun _ u => ∀ w p, u.clear w p → u.owns w.lock ∧
      (m'.Excused w ∨ (m'.slot p).nap ≠ some w))).mpr ⟨fun w p hw => ?_, fun t' ht' w p hw => ?_⟩
    · rw [howns]
      refine hstill t w p (hclear w p hw) (fun hpq hc => (hnew w hc).resolve_right (fun hc => ?_))
      rw [hpq] at hw
      exact hc.2 hw
    · -- The other thread would hold the same lock.
      exact hstill t' w p hw (fun _ hc => (hnew w hc).resolve_right
        (fun hc => ht' (ho.holds.excl (h.clear t' w p hw).1 hc.1)))
  · have hnone : ∀ t', ¬(W t').owns w.lock := by
      intro t' hown
      have hc := hfree t'
      by_cases ht : t' = t
      · rw [ht] at hown
        rw [ht, update_self, howns] at hc
        exact hc hown
      · rw [update_of_ne ht] at hc
        exact hc hown
    have hold : (m.slot p).nap = some w := by
      by_cases hpq : p = q
      · rw [hpq] at hw ⊢
        exact (hnew w hw).resolve_right (fun hc => hnone t hc.1)
      · rw [hother p hpq] at hw
        exact hw
    rw [hexc]
    refine h.quiet w p hnone hold ?_
    rcases hr with ⟨hwait, hr⟩ | ⟨k, hr⟩
    · rw [hwait] at hnone
      rw [htab (hnone t)] at hr
      exact Or.inl ⟨hwait, hr⟩
    · rw [hkey] at hr
      exact Or.inr ⟨k, hr⟩

theorem not_commit (h : Naps m W) (ho : Owned m W) (hpark : ∀ c, m.cur c ≠ t) :
    (W t).commit = none := by
  cases hw : (W t).commit with
  | none => rfl
  | some w =>
    rcases h.commit t w hw with ⟨p, _, hs, _⟩
    exact absurd hs (ho.holds.idle (ho.holds.parked t hpark) (.proc p))

theorem switch {c : Fin nc} {o : Option (Fin np)} {t₀ : Thread np nc} {q : Fin np} {x : Slot np D}
    (h : Naps m W) (hne : t ≠ t₀) (h₀ : (W t₀).commit = none) (h₁ : (W t).commit = none) :
    Naps (m.switch c o) (switchViews W t₀ t q x) := by
  have hall := switchViews_proj (W := W) (q := q) (x := x)
    (fun u => (u.commit, u.clear)) hne (fun _ => rfl) (fun _ => rfl)
  simp only [Prod.mk.injEq] at hall
  have howns : ∀ t' (w : Nap D), (switchViews W t₀ t q x t').owns w.lock ↔ (W t').owns w.lock := by
    refine switchViews_cases (fun t' u => ∀ w : Nap D, u.owns w.lock ↔ (W t').owns w.lock) hne
      (fun w => ?_) (fun w => ?_) (fun _ _ _ _ => Iff.rfl)
    · rw [View.owns_park]
      exact ⟨fun hw => hw.2, fun hw => ⟨w.lock_ne_proc q, hw⟩⟩
    · rw [View.owns_lockSlot]
      exact ⟨fun hw => hw.resolve_left (w.lock_ne_proc q), Or.inr⟩
  refine ⟨h.asleep, fun p w hw => ?_, fun t' w hw => ?_, fun t' w p hw => ?_,
    fun w p hown => ?_⟩
  · rw [(hall _).1]
    exact h.nap p w hw
  · rw [(hall t').1] at hw
    have hn₀ : t' ≠ t₀ := by rintro rfl; exact nomatch h₀.symm.trans hw
    have hn₁ : t' ≠ t := by rintro rfl; exact nomatch h₁.symm.trans hw
    rw [switchViews_other hn₀ hn₁]
    exact h.commit t' w hw
  · rw [(hall t').2] at hw
    rw [howns]
    exact h.clear t' w p hw
  · exact h.quiet w p (fun t' ho => hown t' ((howns t' w).mpr ho))

end Naps

end Naps

section Kills

variable {np nc : Nat} {D : Type} {m m' : Machine np nc D} {W : Thread np nc → View np D}
  {t : Thread np nc} {v' : View np D}

/-- No `kill` with pid 0 has found a slot. -/
def Machine.Named (m : Machine np nc D) : Prop := ∀ s ∈ m.ghost.struck, s.pid ≠ 0

/-- Who has been killed. The record of untimely calls of `kill`, and of calls with
    pid 0, tells what can be said. -/
structure Kills (m : Machine np nc D) (W : Thread np nc → View np D) : Prop where
  window : ∀ p, m.ghost.window p = (W (.proc p)).window
  spared : m.ghost.untimely = false → ∀ p, m.ghost.window p = true → (m.slot p).killed = false
  nap : m.ghost.untimely = false → ∀ p w, (m.slot p).nap = some w → w.killable = true →
    (m.slot p).killed = false
  pid : ∀ q, (m.slot q).state = .unused → (m.slot q).pid = 0
  unused : m.Named → ∀ q, (m.slot q).state = .unused → (m.slot q).killed = false
  hit : m.Named → ∀ q, (m.slot q).killed = true → (m.slot q).hit = true
  target : ∀ s ∈ m.ghost.struck, s.before.pid = s.pid ∧ (s.pid ≠ 0 → s.before.state ≠ .unused)
  returned : ∀ r ∈ m.ghost.returned, r.2 = 0 → ∃ s ∈ m.ghost.struck, s.pid = r.1
  struck : ∀ t pid, (W t).struck = some pid → ∃ s ∈ m.ghost.struck, s.pid = pid

namespace Kills

theorem views (h : Kills m W) (m' : Machine np nc D) (t : Thread np nc) (v' : View np D)
    (hwindow : ∀ p, t = .proc p → m'.ghost.window p = v'.window)
    (hwindow' : ∀ p, t ≠ .proc p → m'.ghost.window p = m.ghost.window p)
    (hstruck : ∀ pid, v'.struck = some pid → ∃ s ∈ m'.ghost.struck, s.pid = pid)
    (hstruck' : ∀ s ∈ m.ghost.struck, s ∈ m'.ghost.struck) :
    let W' := update W t v'
    (∀ p, m'.ghost.window p = (W' (.proc p)).window) ∧
      ∀ t pid, (W' t).struck = some pid → ∃ s ∈ m'.ghost.struck, s.pid = pid := by
  refine ⟨fun p => ?_, ?_⟩
  · by_cases ht : t = .proc p
    · rw [hwindow p ht, ← ht, update_self]
    · rw [hwindow' p ht, update_of_ne (fun he => ht he.symm)]
      exact h.window p
  · refine (forall_update_iff W (fun _ u => ∀ pid, u.struck = some pid →
      ∃ s ∈ m'.ghost.struck, s.pid = pid)).mpr ⟨hstruck, fun t' _ pid hs => ?_⟩
    rcases h.struck t' pid hs with ⟨s, h₁, h₂⟩
    exact ⟨s, hstruck' s h₁, h₂⟩

theorem slotStep (h : Kills m W) (q : Fin np) (hother : ∀ r, r ≠ q → m'.slot r = m.slot r)
    (huntimely : m'.ghost.untimely = false → m.ghost.untimely = false)
    (hwindow : m'.ghost.window = m.ghost.window)
    (hreturned : m'.ghost.returned = m.ghost.returned)
    (hstruck : ∀ s ∈ m'.ghost.struck, s ∈ m.ghost.struck ∨
      s.before = m.slot q ∧ s.before.pid = s.pid)
    (hstruck' : ∀ s ∈ m.ghost.struck, s ∈ m'.ghost.struck)
    (hspared : m'.ghost.untimely = false → m.ghost.window q = true → (m'.slot q).killed = false)
    (hnap : m'.ghost.untimely = false → ∀ w, (m'.slot q).nap = some w → w.killable = true →
      (m'.slot q).killed = false)
    (hpid : (m'.slot q).state = .unused → (m'.slot q).pid = 0)
    (hunused : m'.Named → (m'.slot q).state = .unused → (m'.slot q).killed = false)
    (hhit : m'.Named → (m'.slot q).killed = true → (m'.slot q).hit = true)
    (vwindow : v'.window = (W t).window)
    (vstruck : ∀ pid, v'.struck = some pid → ∃ s ∈ m'.ghost.struck, s.pid = pid) :
    Kills m' (update W t v') := by
  rcases h.views m' t v'
    (fun p hp => by rw [hwindow, vwindow, h.window p, ← hp]) (fun p _ => by rw [hwindow])
    vstruck hstruck' with ⟨h₁, h₂⟩
  have hnamed : m'.Named → m.Named := fun hn s hs => hn s (hstruck' s hs)
  refine ⟨h₁, fun hu p hp => ?_, fun hu p w hw hk => ?_, fun p hp => ?_, fun hn p hp => ?_,
    fun hn p hp => ?_, fun s hs => ?_, fun r hr h0 => ?_, h₂⟩
  · rw [hwindow] at hp
    by_cases hpq : p = q
    · rw [hpq] at hp ⊢
      exact hspared hu hp
    · rw [hother p hpq]
      exact h.spared (huntimely hu) p hp
  · by_cases hpq : p = q
    · rw [hpq] at hw ⊢
      exact hnap hu w hw hk
    · rw [hother p hpq] at hw ⊢
      exact h.nap (huntimely hu) p w hw hk
  · by_cases hpq : p = q
    · rw [hpq] at hp ⊢
      exact hpid hp
    · rw [hother p hpq] at hp ⊢
      exact h.pid p hp
  · by_cases hpq : p = q
    · rw [hpq] at hp ⊢
      exact hunused hn hp
    · rw [hother p hpq] at hp ⊢
      exact h.unused (hnamed hn) p hp
  · by_cases hpq : p = q
    · rw [hpq] at hp ⊢
      exact hhit hn hp
    · rw [hother p hpq] at hp ⊢
      exact h.hit (hnamed hn) p hp
  · rcases hstruck s hs with hold | ⟨hslot, hs⟩
    · exact h.target s hold
    · refine ⟨hs, fun h0 hu => h0 ?_⟩
      rw [hslot] at hs hu
      exact hs.symm.trans (h.pid q hu)
  · rw [hreturned] at hr
    rcases h.returned r hr h0 with ⟨s, hs, hpid⟩
    exact ⟨s, hstruck' s hs, hpid⟩

theorem ghostStep (h : Kills m W) (hslot : m'.slot = m.slot)
    (huntimely : m'.ghost.untimely = m.ghost.untimely) (hstruck : m'.ghost.struck = m.ghost.struck)
    (hwindow : ∀ p, t = .proc p → m'.ghost.window p = v'.window)
    (hwindow' : ∀ p, t ≠ .proc p → m'.ghost.window p = m.ghost.window p)
    (hspared : ∀ p, t = .proc p → v'.window = true → m.ghost.untimely = false →
      (m.slot p).killed = false)
    (hreturned : ∀ r ∈ m'.ghost.returned, r ∈ m.ghost.returned ∨
      (r.2 = 0 → ∃ s ∈ m.ghost.struck, s.pid = r.1))
    (vstruck : ∀ pid, v'.struck = some pid → (W t).struck = some pid) :
    Kills m' (update W t v') := by
  rcases h.views m' t v' hwindow hwindow'
    (fun pid hs => by rw [hstruck]; exact h.struck t pid (vstruck pid hs))
    (fun s hs => by rw [hstruck]; exact hs) with ⟨h₁, h₂⟩
  have hnamed : m'.Named → m.Named := fun hn s hs => hn s (by rw [hstruck]; exact hs)
  refine ⟨h₁, fun hu p hp => ?_, fun hu p w hw hk => ?_, fun p hp => ?_, fun hn p hp => ?_,
    fun hn p hp => ?_, fun s hs => ?_, fun r hr h0 => ?_, h₂⟩
  · rw [huntimely] at hu
    rw [hslot]
    by_cases ht : t = .proc p
    · rw [hwindow p ht] at hp
      exact hspared p ht hp hu
    · rw [hwindow' p ht] at hp
      exact h.spared hu p hp
  · rw [huntimely] at hu
    rw [hslot] at hw ⊢
    exact h.nap hu p w hw hk
  · rw [hslot] at hp ⊢
    exact h.pid p hp
  · rw [hslot] at hp ⊢
    exact h.unused (hnamed hn) p hp
  · rw [hslot] at hp ⊢
    exact h.hit (hnamed hn) p hp
  · rw [hstruck] at hs
    exact h.target s hs
  · rw [hstruck]
    rcases hreturned r hr with hold | hnew
    · exact h.returned r hold h0
    · exact hnew h0

/-- A step that has nothing to do with `kill`. -/
theorem congr (h : Kills m W)
    (hm : (m'.slot, m'.ghost.untimely, m'.ghost.struck, m'.ghost.window, m'.ghost.returned) =
      (m.slot, m.ghost.untimely, m.ghost.struck, m.ghost.window, m.ghost.returned))
    (hv : (v'.window, v'.struck) = ((W t).window, (W t).struck)) :
    Kills m' (update W t v') := by
  simp only [Prod.mk.injEq] at hm hv
  rcases hm with ⟨hslot, huntimely, hstruck, hwindow, hreturned⟩
  rcases hv with ⟨vwindow, vstruck⟩
  refine h.ghostStep hslot huntimely hstruck (fun p hp => ?_) (fun p _ => by rw [hwindow])
    (fun p hp hw hu => ?_) (fun r hr => ?_) (fun pid hs => ?_)
  · rw [hwindow, vwindow, h.window p, ← hp]
  · rw [vwindow, hp, ← h.window p] at hw
    exact h.spared hu p hw
  · rw [hreturned] at hr
    exact Or.inl hr
  · rw [vstruck] at hs
    exact hs

theorem switch {c : Fin nc} {o : Option (Fin np)} {t₀ : Thread np nc} {q : Fin np} {x : Slot np D}
    (h : Kills m W) (hne : t ≠ t₀) : Kills (m.switch c o) (switchViews W t₀ t q x) := by
  have hall := switchViews_proj (W := W) (q := q) (x := x)
    (fun u => (u.window, u.struck)) hne (fun _ => rfl) (fun _ => rfl)
  simp only [Prod.mk.injEq] at hall
  refine ⟨fun p => ?_, h.spared, h.nap, h.pid, h.unused, h.hit, h.target, h.returned,
    fun t' pid hs => ?_⟩
  · rw [(hall _).1]
    exact h.window p
  · rw [(hall t').2] at hs
    exact h.struck t' pid hs

end Kills

end Kills

end Xv6.Sched
