import Xv6.Lib.Locks
import Xv6.Sched.View

/-!
# Ownership

The part of the invariant that ties the views of threads to the machine: the
copies in a view are right, locks are held for the threads that own them, and
the thread of a process runs on one CPU at most.

A process that runs without its lock is `RUNNING`. Whoever finds a process in
another state, with its lock in hand, therefore knows that no CPU executes it;
this is what keeps two schedulers from choosing the same process, and `wait`
from freeing a process that has not left its CPU.

For each part of the invariant there is one lemma that says what a step may change,
and one for a switch, where the lock of a process goes from one thread to another.

## Main definitions

* `Owned`: Views are right, and locks belong to their owners.
* `Cpus`: Who runs where.
-/

namespace Xv6.Sched

open Function (forall_update_iff update update_of_ne update_self)

open Machine

section Cur

variable {np nc : Nat} {D : Type} {m : Machine np nc D} {c c' : Fin nc} {p : Fin np}

theorem Machine.cur_of_on (h : m.on c = some p) : m.cur c = .proc p := by
  unfold cur
  rw [h]

theorem Machine.cur_of_off (h : m.on c = none) : m.cur c = .sched c := by
  unfold cur
  rw [h]

theorem Machine.on_of_cur (h : m.cur c = .proc p) : m.on c = some p := by
  unfold cur at h
  cases ho : m.on c with
  | none =>
    rw [ho] at h
    exact nomatch h
  | some q =>
    rw [ho] at h
    rw [Thread.proc.inj h]

theorem Machine.off_of_cur (h : m.cur c = .sched c') : m.on c = none ∧ c' = c := by
  unfold cur at h
  cases ho : m.on c with
  | none =>
    rw [ho] at h
    exact ⟨rfl, (Thread.sched.inj h).symm⟩
  | some q =>
    rw [ho] at h
    exact nomatch h

theorem Machine.cur_switch (o : Option (Fin np)) (h : c' ≠ c) :
    (m.switch c o).cur c' = m.cur c' := by
  unfold cur switch
  simp only [update_of_ne h]

theorem Machine.cur_congr {m' : Machine np nc D} (h : m'.on = m.on) : m'.cur = m.cur := by
  funext c
  unfold cur
  rw [h]

end Cur

section Owns

variable {np : Nat} {D : Type} (v : View np D)

theorem update_some_ne_none {ι : Type} {β : ι → Type} [DecidableEq ι] (f : (i : ι) → Option (β i))
    (a i : ι) (b : β a) : update f a (some b) i ≠ none ↔ i = a ∨ f i ≠ none := by
  by_cases hi : i = a
  · subst hi
    rw [update_self]
    exact ⟨fun _ => Or.inl rfl, fun _ => nofun⟩
  · rw [update_of_ne hi]
    exact ⟨Or.inr, fun h => h.resolve_left hi⟩

theorem update_none_ne_none {ι : Type} {β : ι → Type} [DecidableEq ι] (f : (i : ι) → Option (β i))
    (a i : ι) : update f a none i ≠ none ↔ i ≠ a ∧ f i ≠ none := by
  by_cases hi : i = a
  · subst hi
    rw [update_self]
    exact ⟨fun h => absurd rfl h, fun h => absurd rfl h.1⟩
  · rw [update_of_ne hi]
    exact ⟨fun h => ⟨hi, h⟩, fun h => h.2⟩

namespace View

variable {v} in
theorem owns_proc {q : Fin np} {x : Slot np D} (h : v.slot q = some x) : v.owns (.proc q) :=
  fun hn => nomatch h.symm.trans hn

variable {v} in
theorem owns_wait {T : Table np} (h : v.tab = some T) : v.owns .wait :=
  fun hn => nomatch h.symm.trans hn

variable {v} in
theorem owns_key {k : Key} {x : k.Val D} (h : v.key k = some x) : v.owns (.key k) :=
  fun hn => nomatch h.symm.trans hn

theorem slot_lockSlot_self (q : Fin np) (x : Slot np D) : (v.lockSlot q x).slot q = some x :=
  update_self _ _ _

theorem slot_lockSlot_of_ne {q p : Fin np} (x : Slot np D) (h : p ≠ q) :
    (v.lockSlot q x).slot p = v.slot p :=
  update_of_ne h _ _

theorem slot_park_self (q : Fin np) : (v.park q).slot q = none := update_self _ _ _

theorem slot_park_of_ne {q p : Fin np} (h : p ≠ q) : (v.park q).slot p = v.slot p :=
  update_of_ne h _ _

theorem owns_lockSlot (q : Fin np) (x : Slot np D) (l : Lock np) :
    (v.lockSlot q x).owns l ↔ l = .proc q ∨ v.owns l := by
  cases l with
  | proc p =>
    rw [Lock.proc.injEq]
    exact update_some_ne_none v.slot q p x
  | _ =>
    simp only [reduceCtorEq, false_or]
    exact Iff.rfl

theorem owns_unlockSlot (q : Fin np) (x : Slot np D) (l : Lock np) :
    (v.unlockSlot q x).owns l ↔ l ≠ .proc q ∧ v.owns l := by
  cases l with
  | proc p =>
    rw [ne_eq, Lock.proc.injEq]
    exact update_none_ne_none v.slot q p
  | _ =>
    simp only [ne_eq, reduceCtorEq, not_false_eq_true, true_and]
    exact Iff.rfl

theorem owns_park (q : Fin np) (l : Lock np) : (v.park q).owns l ↔ l ≠ .proc q ∧ v.owns l := by
  cases l with
  | proc p =>
    rw [ne_eq, Lock.proc.injEq]
    exact update_none_ne_none v.slot q p
  | _ =>
    simp only [ne_eq, reduceCtorEq, not_false_eq_true, true_and]
    exact Iff.rfl

theorem owns_lockTab (T : Table np) (l : Lock np) :
    (v.lockTab T).owns l ↔ l = .wait ∨ v.owns l := by
  cases l with
  | wait =>
    refine ⟨fun _ => Or.inl rfl, fun _ => ?_⟩
    change some T ≠ none
    exact nofun
  | _ =>
    simp only [reduceCtorEq, false_or]
    exact Iff.rfl

theorem owns_unlockTab (l : Lock np) : v.unlockTab.owns l ↔ l ≠ .wait ∧ v.owns l := by
  cases l with
  | wait => exact ⟨fun h => absurd rfl h, fun h => absurd rfl h.1⟩
  | _ =>
    simp only [ne_eq, reduceCtorEq, not_false_eq_true, true_and]
    exact Iff.rfl

theorem owns_lockPid (l : Lock np) : v.lockPid.owns l ↔ l = .pid ∨ v.owns l := by
  cases l with
  | pid => exact ⟨fun _ => Or.inl rfl, fun _ => rfl⟩
  | _ =>
    simp only [reduceCtorEq, false_or]
    exact Iff.rfl

theorem owns_unlockPid (l : Lock np) : v.unlockPid.owns l ↔ l ≠ .pid ∧ v.owns l := by
  cases l with
  | pid => exact ⟨fun h => absurd h Bool.false_ne_true, fun h => absurd rfl h.1⟩
  | _ =>
    simp only [ne_eq, reduceCtorEq, not_false_eq_true, true_and]
    exact Iff.rfl

theorem owns_lockKey (k : Key) (x : k.Val D) (l : Lock np) :
    (v.lockKey k x).owns l ↔ l = .key k ∨ v.owns l := by
  cases l with
  | key k' =>
    rw [Lock.key.injEq]
    exact update_some_ne_none v.key k k' x
  | _ =>
    simp only [reduceCtorEq, false_or]
    exact Iff.rfl

theorem owns_unlockKey (k : Key) (l : Lock np) :
    (v.unlockKey k).owns l ↔ l ≠ .key k ∧ v.owns l := by
  cases l with
  | key k' =>
    rw [ne_eq, Lock.key.injEq]
    exact update_none_ne_none v.key k k'
  | _ =>
    simp only [ne_eq, reduceCtorEq, not_false_eq_true, true_and]
    exact Iff.rfl

end View

end Owns

section Owned

variable {np nc : Nat} {D : Type} {m m' : Machine np nc D} {W : Thread np nc → View np D}
  {c : Fin nc} {v' : View np D}

/-- Views are right, and locks belong to their owners. -/
structure Owned (m : Machine np nc D) (W : Thread np nc → View np D) : Prop where
  holds : Holds m.lock m.noff m.cur (fun t => (W t).owns) (fun t => (W t).depth)
  slot : ∀ t q x, (W t).slot q = some x → m.slot q = x
  tab : ∀ t T, (W t).tab = some T → T = m.table
  key : ∀ t k x, (W t).key k = some x → m.key k = x

namespace Owned

theorem slot_none (h : Owned m W) {t t' : Thread np nc} {q : Fin np} (ho : (W t).slot q ≠ none)
    (hne : t' ≠ t) : (W t').slot q = none := by
  by_contra hc
  exact hne (h.holds.excl (show (W t').owns (.proc q) from hc) ho)

theorem values (h : Owned m W) (hslot : ∀ q x, v'.slot q = some x → m'.slot q = x)
    (htab : ∀ T, v'.tab = some T → T = m'.table)
    (hkey : ∀ k x, v'.key k = some x → m'.key k = x)
    (oslot : ∀ q, ¬(W (m.cur c)).owns (.proc q) → m'.slot q = m.slot q)
    (otab : ¬(W (m.cur c)).owns .wait → m'.table = m.table)
    (okey : ∀ k, ¬(W (m.cur c)).owns (.key k) → m'.key k = m.key k) :
    let W' := update W (m.cur c) v'
    (∀ t q x, (W' t).slot q = some x → m'.slot q = x) ∧
      (∀ t T, (W' t).tab = some T → T = m'.table) ∧
      ∀ t k x, (W' t).key k = some x → m'.key k = x := by
  -- What another thread owns, the current thread does not.
  have hexcl : ∀ t l, t ≠ m.cur c → (W t).owns l → ¬(W (m.cur c)).owns l :=
    fun t l ht ho ho' => ht (h.holds.excl ho ho')
  refine ⟨?_, ?_, ?_⟩
  · refine (forall_update_iff W (fun _ u => ∀ q x, u.slot q = some x →
      m'.slot q = x)).mpr ⟨hslot, fun t ht q x hx => ?_⟩
    rw [oslot q (hexcl t _ ht (View.owns_proc hx))]
    exact h.slot t q x hx
  · refine (forall_update_iff W (fun _ u => ∀ T, u.tab = some T →
      T = m'.table)).mpr ⟨htab, fun t ht T hT => ?_⟩
    rw [otab (hexcl t _ ht (View.owns_wait hT))]
    exact h.tab t T hT
  · refine (forall_update_iff W (fun _ u => ∀ k x, u.key k = some x →
      m'.key k = x)).mpr ⟨hkey, fun t ht k x hx => ?_⟩
    rw [okey k (hexcl t _ ht (View.owns_key hx))]
    exact h.key t k x hx

theorem change (h : Owned m W) (hlock : m'.lock = m.lock) (hnoff : m'.noff = m.noff)
    (hon : m'.on = m.on) (howns : ∀ l, v'.owns l ↔ (W (m.cur c)).owns l)
    (hdepth : v'.depth = (W (m.cur c)).depth)
    (hslot : ∀ q x, v'.slot q = some x → m'.slot q = x)
    (htab : ∀ T, v'.tab = some T → T = m'.table)
    (hkey : ∀ k x, v'.key k = some x → m'.key k = x)
    (oslot : ∀ q, ¬(W (m.cur c)).owns (.proc q) → m'.slot q = m.slot q)
    (otab : ¬(W (m.cur c)).owns .wait → m'.table = m.table)
    (okey : ∀ k, ¬(W (m.cur c)).owns (.key k) → m'.key k = m.key k) :
    Owned m' (update W (m.cur c) v') := by
  rcases h.values hslot htab hkey oslot otab okey with ⟨h₁, h₂, h₃⟩
  refine ⟨?_, h₁, h₂, h₃⟩
  rw [hlock, hnoff, cur_congr hon]
  refine h.holds.congr ?_ ?_
  · exact (forall_update_iff W (fun t u => ∀ l, u.owns l ↔ (W t).owns l)).mpr
      ⟨howns, fun t _ l => Iff.rfl⟩
  · exact (forall_update_iff W (fun t u => u.depth = (W t).depth)).mpr
      ⟨hdepth, fun t _ => rfl⟩

theorem acquire (h : Owned m W) (l : Lock np) (hl : m.lock l = none)
    (howns : ∀ l', v'.owns l' ↔ l' = l ∨ (W (m.cur c)).owns l')
    (hdepth : v'.depth = (W (m.cur c)).depth + 1)
    (hslot : ∀ q x, v'.slot q = some x → m.slot q = x)
    (htab : ∀ T, v'.tab = some T → T = m.table)
    (hkey : ∀ k x, v'.key k = some x → m.key k = x) :
    Owned { m with
      lock := update m.lock l (some c)
      noff := update m.noff c (m.noff c + 1) } (update W (m.cur c) v') := by
  rcases h.values hslot htab hkey (fun _ _ => rfl) (fun _ => rfl) (fun _ _ => rfl) with
    ⟨h₁, h₂, h₃⟩
  refine ⟨?_, h₁, h₂, h₃⟩
  refine h.holds.acquire hl (fun l' => ?_) ?_ (fun t ht => ?_)
  · simp only [update_self]
    exact howns l'
  · simp only [update_self]
    exact hdepth
  · simp only [update_of_ne ht, implies_true, and_self]

theorem release (h : Owned m W) (l : Lock np) (ho : (W (m.cur c)).owns l)
    (howns : ∀ l', v'.owns l' ↔ l' ≠ l ∧ (W (m.cur c)).owns l')
    (hdepth : v'.depth = (W (m.cur c)).depth - 1)
    (hslot : ∀ q x, v'.slot q = some x → (W (m.cur c)).slot q = some x)
    (htab : ∀ T, v'.tab = some T → (W (m.cur c)).tab = some T)
    (hkey : ∀ k x, v'.key k = some x → (W (m.cur c)).key k = some x) :
    Owned { m with
      lock := update m.lock l none
      noff := update m.noff c (m.noff c - 1) } (update W (m.cur c) v') := by
  rcases h.values (fun q x hx => h.slot _ q x (hslot q x hx)) (fun T hT => h.tab _ T (htab T hT))
    (fun k x hx => h.key _ k x (hkey k x hx)) (fun _ _ => rfl) (fun _ => rfl) (fun _ _ => rfl) with
    ⟨h₁, h₂, h₃⟩
  refine ⟨?_, h₁, h₂, h₃⟩
  refine h.holds.release ho (fun l' => ?_) ?_ (fun t ht => ?_)
  · simp only [update_self]
    exact howns l'
  · simp only [update_self]
    exact hdepth
  · simp only [update_of_ne ht, implies_true, and_self]

end Owned

end Owned

section Switch

variable {np nc : Nat} {D : Type} {m : Machine np nc D} {W : Thread np nc → View np D}
  {c : Fin nc} {t₀ t : Thread np nc} {q : Fin np} {x : Slot np D}

/-- The views after a switch from thread `t₀` to `t`, which gets the lock of slot
    `q`. -/
def switchViews (W : Thread np nc → View np D) (t₀ t : Thread np nc) (q : Fin np)
    (x : Slot np D) : Thread np nc → View np D :=
  update (update W t₀ ((W t₀).park q)) t ((W t).lockSlot q x)

theorem switchViews_old (h : t ≠ t₀) : switchViews W t₀ t q x t₀ = (W t₀).park q := by
  unfold switchViews
  rw [update_of_ne h.symm, update_self]

theorem switchViews_new : switchViews W t₀ t q x t = (W t).lockSlot q x :=
  update_self _ _ _

theorem switchViews_other {t' : Thread np nc} (h₀ : t' ≠ t₀) (h₁ : t' ≠ t) :
    switchViews W t₀ t q x t' = W t' := by
  unfold switchViews
  rw [update_of_ne h₁, update_of_ne h₀]

theorem switchViews_cases (C : Thread np nc → View np D → Prop) (hne : t ≠ t₀)
    (hold : C t₀ ((W t₀).park q)) (hnew : C t ((W t).lockSlot q x))
    (hother : ∀ t', t' ≠ t₀ → t' ≠ t → C t' (W t')) (t' : Thread np nc) :
    C t' (switchViews W t₀ t q x t') := by
  by_cases h₁ : t' = t
  · rw [h₁, switchViews_new]
    exact hnew
  · by_cases h₀ : t' = t₀
    · rw [h₀, switchViews_old hne]
      exact hold
    · rw [switchViews_other h₀ h₁]
      exact hother t' h₀ h₁

/-- What neither depends on a lock nor on `depth` or `picked` stays. -/
theorem switchViews_proj {γ : Sort*} (g : View np D → γ) (hne : t ≠ t₀)
    (hold : ∀ v, g (v.park q) = g v) (hnew : ∀ v, g (v.lockSlot q x) = g v) (t' : Thread np nc) :
    g (switchViews W t₀ t q x t') = g (W t') :=
  switchViews_cases (fun t' u => g u = g (W t')) hne (hold _) (hnew _) (fun _ _ _ => rfl) t'

theorem Owned.switch (h : Owned m W) (hq : (W (m.cur c)).slot q = some x)
    (hone : (W (m.cur c)).depth = 1) (hpark : ∀ c', m.cur c' ≠ t) (o : Option (Fin np))
    (hcur : (m.switch c o).cur c = t) :
    Owned (m.switch c o) (switchViews W (m.cur c) t q x) := by
  have hown := View.owns_proc hq
  have hne : t ≠ m.cur c := fun he => hpark c he.symm
  -- The old thread has no other lock, and the new one has none at all.
  have hold : ∀ l, (W (m.cur c)).owns l → l = .proc q := fun l hl => h.holds.only hone hown hl
  have hnew : ∀ l, ¬(W t).owns l := h.holds.idle (h.holds.parked t hpark)
  refine ⟨?_, ?_, ?_, ?_⟩
  · refine h.holds.switch hown hone hpark hcur (fun c' hc' => cur_switch o hc')
      ⟨fun l hl => ?_, ?_⟩ ⟨fun l => ?_, ?_⟩ (fun t' h₀ h₁ => ?_)
    · rw [switchViews_old hne, View.owns_park] at hl
      exact hl.1 (hold l hl.2)
    · rw [switchViews_old hne]
      rfl
    · rw [switchViews_new, View.owns_lockSlot]
      exact ⟨fun hl => hl.resolve_right (hnew l), Or.inl⟩
    · rw [switchViews_new]
      change (W t).depth + 1 = 1
      rw [h.holds.parked t hpark]
    · rw [switchViews_other h₀ h₁]
      exact ⟨fun _ => Iff.rfl, rfl⟩
  · -- What is in a view now was in one before, and the slot that moved is right.
    refine switchViews_cases (fun _ u => ∀ q y, u.slot q = some y → m.slot q = y) hne
      (fun q' y hy => ?_) (fun q' y hy => ?_) (fun t' _ _ => h.slot t')
    · by_cases hq' : q' = q
      · rw [hq', View.slot_park_self] at hy
        exact nomatch hy
      · rw [View.slot_park_of_ne _ hq'] at hy
        exact h.slot _ q' y hy
    · by_cases hq' : q' = q
      · rw [hq', View.slot_lockSlot_self, Option.some.injEq] at hy
        rw [hq', ← hy]
        exact h.slot _ q x hq
      · rw [View.slot_lockSlot_of_ne _ _ hq'] at hy
        exact h.slot t q' y hy
  · exact switchViews_cases (fun _ u => ∀ T, u.tab = some T → T = (m.switch c o).table) hne
      (h.tab (m.cur c)) (h.tab t) (fun t' _ _ => h.tab t')
  · exact switchViews_cases (fun _ u => ∀ k y, u.key k = some y → m.key k = y) hne
      (h.key (m.cur c)) (h.key t) (fun t' _ _ => h.key t')

end Switch

section Cpus

variable {np nc : Nat} {D : Type} {m m' : Machine np nc D} {W : Thread np nc → View np D}
  {c : Fin nc} {v' : View np D}

/-- A slot without a thread that could go on. -/
def State.dormant : State → Bool
  | unused => true
  | used => true
  | zombie => true
  | _ => false

/-- Who runs where. -/
structure Cpus (m : Machine np nc D) (W : Thread np nc → View np D) : Prop where
  cproc : ∀ c, m.cproc c = (W (m.cur c)).cproc
  self : ∀ p, (W (.proc p)).cproc = some p
  idle : ∀ c, m.on c = none → (W (.sched c)).depth = 0 → (W (.sched c)).cproc = none
  away : ∀ c p, m.on c = some p → (W (.sched c)).cproc = some p
  run : ∀ c p, m.on c = some p → (W (.proc p)).slot p = none → (m.slot p).state = .running
  picked : ∀ t q, (W t).picked = some q → (∃ c, t = .sched c) ∧
    (∃ x, (W t).slot q = some x ∧ x.state = .running) ∧ ∀ c, m.on c ≠ some q
  dormant : ∀ p, (W (.proc p)).slot p = none → (m.slot p).state.dormant = true →
    W (.proc p) = .home p

namespace Cpus

theorem off_cpu (h : Cpus m W) (ho : Owned m W) {t : Thread np nc} {q : Fin np} {x : Slot np D}
    (hq : (W t).slot q = some x) (ht : t ≠ .proc q) (hx : x.state ≠ .running) (c : Fin nc) :
    m.on c ≠ some q := by
  intro hon
  have hne : (W t).slot q ≠ none := by
    rw [hq]
    exact nofun
  have hrun := h.run c q hon (ho.slot_none hne ht.symm)
  rw [ho.slot t q x hq] at hrun
  exact hx hrun

theorem change (h : Cpus m W) (hinj : ∀ c', m.cur c' = m.cur c → c' = c) (hon : m'.on = m.on)
    (hcproc : m'.cproc c = v'.cproc) (hcproc' : ∀ c', c' ≠ c → m'.cproc c' = m.cproc c')
    (hself : ∀ p, m.cur c = .proc p → v'.cproc = some p)
    (hidle : m.cur c = .sched c → v'.depth = 0 → v'.cproc = none)
    (hrun : ∀ p, m.cur c = .proc p → v'.slot p = none → (m'.slot p).state = .running)
    (hrun' : ∀ p, m.cur c ≠ .proc p → (m.slot p).state = .running →
      (∃ c', m.on c' = some p) → (m'.slot p).state = .running)
    (hpicked : ∀ q, v'.picked = some q → (∃ c', m.cur c = .sched c') ∧
      (∃ x, v'.slot q = some x ∧ x.state = .running) ∧ ∀ c', m.on c' ≠ some q)
    (hdormant : ∀ p, m.cur c ≠ .proc p → (m'.slot p).state.dormant = true →
      (m.slot p).state.dormant = true) :
    Cpus m' (update W (m.cur c) v') := by
  have hcur := cur_congr hon
  refine ⟨fun c' => ?_, fun p => ?_, fun c' hc' => ?_, fun c' p hc' => ?_, fun c' p hc' => ?_,
    ?_, fun p => ?_⟩
  · rw [hcur]
    by_cases hc : c' = c
    · rw [hc, update_self]
      exact hcproc
    · rw [update_of_ne (fun he => hc (hinj c' he)), hcproc' c' hc]
      exact h.cproc c'
  · by_cases hp : Thread.proc p = m.cur c
    · rw [hp, update_self]
      exact hself p hp.symm
    · rw [update_of_ne hp]
      exact h.self p
  · rw [hon] at hc'
    have hsched := cur_of_off hc'
    by_cases hc : c' = c
    · rw [hc] at hsched ⊢
      rw [← hsched, update_self]
      exact hidle hsched
    · have hne : Thread.sched c' ≠ m.cur c := fun he => hc (hinj c' (hsched.trans he))
      rw [update_of_ne hne]
      exact h.idle c' hc'
  · rw [hon] at hc'
    have hne : Thread.sched c' ≠ m.cur c := by
      intro he
      rcases off_of_cur he.symm with ⟨hoff, hcc⟩
      rw [← hcc, hc'] at hoff
      exact nomatch hoff
    rw [update_of_ne hne]
    exact h.away c' p hc'
  · rw [hon] at hc'
    by_cases hp : Thread.proc p = m.cur c
    · rw [hp, update_self]
      exact hrun p hp.symm
    · rw [update_of_ne hp]
      exact fun hs => hrun' p (fun he => hp he.symm) (h.run c' p hc' hs) ⟨c', hc'⟩
  · rw [hon]
    exact (forall_update_iff W (fun t u => ∀ q, u.picked = some q →
      (∃ c, t = .sched c) ∧ (∃ x, u.slot q = some x ∧ x.state = .running) ∧
        ∀ c, m.on c ≠ some q)).mpr ⟨hpicked, fun t _ => h.picked t⟩
  · by_cases hp : Thread.proc p = m.cur c
    · -- The current thread runs, or it holds its own lock.
      rw [hp, update_self]
      intro hs hd
      rw [hrun p hp.symm hs] at hd
      exact nomatch hd
    · rw [update_of_ne hp]
      exact fun hs hd => h.dormant p hs (hdormant p (fun he => hp he.symm) hd)

theorem not_picked (h : Cpus m W) (ho : Owned m W) {t : Thread np nc}
    (hpark : ∀ c, m.cur c ≠ t) : (W t).picked = none := by
  cases hq : (W t).picked with
  | none => rfl
  | some q =>
    rcases (h.picked t q hq).2.1 with ⟨x, hx, _⟩
    exact absurd (View.owns_proc hx) (ho.holds.idle (ho.holds.parked t hpark) _)

/-- A process leaves its CPU to the scheduler, or the scheduler switches to the process
    it has picked. -/
theorem switch (h : Cpus m W) (ho : Owned m W) {t₀ t : Thread np nc} {q : Fin np}
    {x : Slot np D} {o : Option (Fin np)} (hcur : m.cur c = t₀) (hpark : ∀ c', m.cur c' ≠ t)
    (hq : (W t₀).slot q = some x) (hcp : (W (.sched c)).cproc = some q)
    (hoff : ∀ c', c' ≠ c → m.on c' ≠ some q)
    (hway : (t₀ = .proc q ∧ t = .sched c ∧ o = none ∧
      (x.state.dormant = true → (W (.proc q)).park q = .home q)) ∨
      (t₀ = .sched c ∧ t = .proc q ∧ o = some q)) :
    Cpus (m.switch c o) (switchViews W t₀ t q x) := by
  subst hcur
  have hne : t ≠ m.cur c := fun he => hpark c he.symm
  have hcur' : (m.switch c o).cur c = t := by
    rcases hway with ⟨_, rfl, rfl, _⟩ | ⟨_, rfl, rfl⟩
    · exact cur_of_off (update_self _ _ _)
    · exact cur_of_on (update_self _ _ _)
  have hon : (m.switch c o).on c = o := update_self _ _ _
  have honc : ∀ p, (m.switch c o).on c = some p → p = q ∧ t = .proc q := by
    intro p hp
    have hop : o = some p := hon.symm.trans hp
    rcases hway with ⟨_, _, rfl, _⟩ | ⟨_, ht, rfl⟩
    · exact nomatch hop
    · exact ⟨(Option.some.inj hop).symm, ht⟩
  have hon' : ∀ c', c' ≠ c → (m.switch c o).on c' = m.on c' := fun c' hc => update_of_ne hc _ _
  -- The two threads are the scheduler of the CPU and the process.
  have hoth : ∀ t', t' ≠ .proc q → t' ≠ .sched c → switchViews W (m.cur c) t q x t' = W t' := by
    intro t' h₀ h₁
    rcases hway with ⟨hc, rfl, _⟩ | ⟨hc, rfl, _⟩
    · exact switchViews_other (by rw [hc]; exact h₀) h₁
    · exact switchViews_other (by rw [hc]; exact h₁) h₀
  have hsched : ∀ c', c' ≠ c → switchViews W (m.cur c) t q x (.sched c') = W (.sched c') :=
    fun c' hc => hoth _ nofun (fun he => hc (Thread.sched.inj he))
  have hproc : ∀ p, p ≠ q → switchViews W (m.cur c) t q x (.proc p) = W (.proc p) :=
    fun p hp => hoth _ (fun he => hp (Thread.proc.inj he)) nofun
  have hall : ∀ t', (switchViews W (m.cur c) t q x t').cproc = (W t').cproc :=
    switchViews_proj (fun u => u.cproc) hne (fun _ => rfl) (fun _ => rfl)
  have hnew : t = .proc q → (switchViews W (m.cur c) t q x (.proc q)).slot q ≠ none := by
    rintro rfl
    rw [switchViews_new, View.slot_lockSlot_self]
    exact nofun
  refine ⟨fun c' => ?_, fun p => ?_, fun c' hc' => ?_, fun c' p hc' => ?_, fun c' p hc' => ?_,
    ?_, fun p => ?_⟩
  · rw [hall]
    by_cases hc : c' = c
    · rw [hc, hcur']
      change m.cproc c = _
      rw [h.cproc]
      rcases hway with ⟨hc, rfl, _⟩ | ⟨hc, rfl, _⟩
      · rw [hc, h.self, hcp]
      · rw [hc, h.self, hcp]
    · rw [cur_switch o hc]
      exact h.cproc c'
  · rw [hall]
    exact h.self p
  · by_cases hc : c' = c
    · rcases hway with ⟨_, rfl, _⟩ | ⟨_, _, rfl⟩
      · rw [hc, switchViews_new]
        exact fun hd => absurd hd (Nat.succ_ne_zero _)
      · rw [hc, hon] at hc'
        exact nomatch hc'
    · rw [hon' c' hc] at hc'
      rw [hsched c' hc]
      exact h.idle c' hc'
  · rw [hall]
    by_cases hc : c' = c
    · rw [hc] at hc' ⊢
      rw [(honc p hc').1]
      exact hcp
    · rw [hon' c' hc] at hc'
      exact h.away c' p hc'
  · by_cases hc : c' = c
    · rw [hc] at hc'
      rcases honc p hc' with ⟨rfl, ht⟩
      exact fun hn => absurd hn (hnew ht)
    · rw [hon' c' hc] at hc'
      rw [hproc p (fun he => hoff c' hc (by rw [hc', he]))]
      exact h.run c' p hc'
  · refine switchViews_cases (fun t' u => ∀ r, u.picked = some r → (∃ c, t' = .sched c) ∧
      (∃ x, u.slot r = some x ∧ x.state = .running) ∧ ∀ c', (m.switch c o).on c' ≠ some r) hne
      nofun (fun r hr => ?_) (fun t' h₀ h₁ r hr => ?_)
    · exact nomatch (h.not_picked ho hpark).symm.trans hr
    · rcases h.picked t' r hr with ⟨h₁, h₂, h₃⟩
      refine ⟨h₁, h₂, fun c' hc' => ?_⟩
      by_cases hc : c' = c
      · -- Two schedulers do not hold the same lock.
        rw [hc] at hc'
        rcases h₂ with ⟨y, hy, _⟩
        rw [(honc r hc').1, ho.slot_none (View.owns_proc hq) h₀] at hy
        exact nomatch hy
      · rw [hon' c' hc] at hc'
        exact h₃ c' hc'
  · by_cases hpq : p = q
    · rw [hpq]
      intro hn hd
      rcases hway with ⟨hc, _, _, hhome⟩ | ⟨_, ht, _⟩
      · change (m.slot q).state.dormant = true at hd
        rw [ho.slot _ q x hq] at hd
        rw [← hc, switchViews_old hne, hc]
        exact hhome hd
      · exact absurd hn (hnew ht)
    · rw [hproc p hpq]
      exact h.dormant p

end Cpus

end Cpus

end Xv6.Sched
