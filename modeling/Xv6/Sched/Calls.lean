import Xv6.Sched.Rules
import Xv6.Sched.Inv

/-!
# Interrupts, the Scheduler and the Life of a Process on Views

What the interrupt handlers, `scheduler`, `fork`, `exit` and the loop of `wait`
do to the view of their thread.

An interrupt handler returns with the view it started with, whatever the thread
was in the middle of. A process that makes a child gives up the lock of the new
slot while it enters the parent, and remembers the child meanwhile. `exit` and
`wait` change the process tree under `wait_lock`, and whoever holds that lock
knows that nobody sleeps in `wait` who has a zombie child.

## Main definitions

* `Loose`: A thread that holds no lock.
* `View.child`, `View.expecting`: A process that makes a child.
* `TabOk`: What the holder of `wait_lock` knows.
-/

namespace Xv6.Sched

open Function (update update_eq_self update_idem update_of_ne update_self)

open Sched.View

/-! ### Interrupts -/

/-- A thread that holds no lock. -/
structure Loose {np nc : Nat} {D : Type} (t : Thread np nc) (v : View np D) : Prop
    extends Scan t v where
  tab : v.tab = none
  key : ∀ k, v.key k = none
  clear : ∀ w p, ¬v.clear w p

section Handlers

variable {np nc : Nat} {D : Type} {init : Fin np} {t : Thread np nc} {v : View np D} {k : Key}

variable (h : Loose t v)

include h

theorem View.know_of_loose {c : Nap D → Fin np → Prop}
    (hc : ∀ w p, c w p → v.clear w p ∨ v.owns w.lock) : v.know c = v := by
  have hclear : c = v.clear := by
    funext w p
    refine propext ⟨fun hw => ?_, fun hw => absurd hw (h.clear w p)⟩
    rcases hc w p hw with hw | ho
    · exact hw
    · cases hl : (w.lock : Lock np) with
      | proc q => exact absurd hl (w.lock_ne_proc q)
      | pid => exact absurd hl w.lock_ne_pid
      | wait =>
        rw [hl] at ho
        exact absurd h.tab ho
      | key k =>
        rw [hl] at ho
        exact absurd (h.key k) ho
  rw [hclear]
  rfl

theorem View.unlockKey_lockKey (x y : k.Val D) {c : Nap D → Fin np → Prop}
    (hc : ∀ w p, c w p → (w.lock : Lock np) = .key k) :
    (((v.lockKey k x).setKey k y).know c).unlockKey k = v := by
  have hkey : update (update (update v.key k (some x)) k (some y)) k
      none = v.key := by
    rw [update_idem, update_idem, ← h.key k, update_eq_self]
  have hclear : (fun w p => c w p ∧ (w.lock : Lock np) ≠ .key k) = v.clear := by
    funext w p
    exact propext ⟨fun hw => absurd (hc w p hw.1) hw.2, fun hw => absurd hw (h.clear w p)⟩
  unfold unlockKey
  simp only [know, setKey, lockKey]
  rw [hkey, hclear]
  rfl

/-- What a thread with one lock can know is about that lock. -/
theorem lock_of_known {x y : k.Val D} {w : Nap D} {p : Fin np}
    (hw : ((v.lockKey k x).setKey k y).clear w p ∨ ((v.lockKey k x).setKey k y).owns w.lock) :
    (w.lock : Lock np) = .key k := by
  rcases hw with (hw | hw) | ho
  · exact absurd hw (h.clear w p)
  · exact Nap.lock_of_readyAt hw
  · cases hl : (w.lock : Lock np) with
    | proc q => exact absurd hl (w.lock_ne_proc q)
    | pid => exact absurd hl w.lock_ne_pid
    | wait =>
      rw [hl] at ho
      exact absurd h.tab ho
    | key k' =>
      rw [hl] at ho
      have ho' : update (update v.key k (some x)) k (some y) k' ≠ none := ho
      rw [update_idem] at ho'
      rcases (update_some_ne_none v.key k k' y).mp ho' with he | hne
      · rw [he]
      · exact absurd (h.key k') hne

/-- A variable is changed so that no wait comes to an end. -/
theorem release_changed_swp {x y : k.Val D} {Q : Unit → View np D → Prop}
    (hready : ∀ w : Nap D, w.readyAt k y → w.readyAt k x) (hQ : Q () v) :
    swp init t (release (.key k)) Q ((v.lockKey k x).setKey k y) := by
  refine release_key_swp (x := y) ?_ h.sched (fun w p hw => Or.inr (hready w hw)) ?_
  · simp only [setKey, update_self]
  · have hback := unlockKey_lockKey h x y (c := ((v.lockKey k x).setKey k y).clear)
      (fun w p hw => lock_of_known h (Or.inl hw))
    rw [know_self] at hback
    rw [hback]
    exact hQ

/-- A variable is changed, and those whose wait comes to an end are woken up. -/
theorem wakeup_release_swp {x y : k.Val D} {ch : Chan np} {Q : Unit → View np D → Prop}
    (hready : ∀ (w : Nap D) (p : Fin np), w.readyAt k y → w.readyAt k x ∨ w.chan p = ch)
    (hQ : Q () v) :
    swp init t (do
      wakeup (some ch)
      release (.key k)) Q ((v.lockKey k x).setKey k y) := by
  have hs : Scan t ((v.lockKey k x).setKey k y) :=
    ⟨h.slot, h.picked, h.reaping, h.commit, h.self, h.sched⟩
  have hkey : ((v.lockKey k x).setKey k y).key k = some y := by
    simp only [setKey, update_self]
  refine swp_seq (wakeup_swp hs (fun c hold hnew hup => ?_))
  refine release_key_swp (x := y) hkey h.sched (fun w p hw => ?_) ?_
  · rcases hready w p hw with hw' | hch
    · exact hold w p (Or.inr hw')
    · refine hnew w p hch ?_
      rw [show (w.lock : Lock np) = .key k from Nap.lock_of_readyAt hw]
      change ((v.lockKey k x).setKey k y).key k ≠ none
      rw [hkey]
      exact nofun
  · rw [unlockKey_lockKey h x y (fun w p hw => lock_of_known h (hup w p hw))]
    exact hQ

theorem clockintr_swp {Q : Unit → View np D → Prop} (hQ : Q () v) :
    swp init t clockintr Q v := by
  unfold clockintr
  refine swp_seq (acquire_key_swp (h.key _) (fun x => swp_seq ?_))
  refine get_swp (x := x) (by simp only [lockKey, update_self])
    (swp_seq ?_)
  refine set_swp (by simp only [lockKey, update_self, ne_eq, reduceCtorEq,
    not_false_eq_true]) ?_
  refine wakeup_release_swp h (fun w p hw => ?_) hQ
  cases w with
  | ticks ticks0 n => exact Or.inr rfl
  | wait | read i | write i | cons | await n c ch => exact hw.elim

omit h in
/-- Only waits for the console depend on it. -/
theorem Nap.eq_cons_of_readyAt {w : Nap D} {x : Console.Cons} (h : w.readyAt .cons x) :
    w = .cons := by
  cases w with
  | cons => rfl
  | wait | read i | write i | ticks ticks0 n | await n c ch => exact h.elim

omit h in
/-- `procdump` looks at the table while the console is locked. -/
theorem procdumpFrom_swp (ps : List (Fin np)) {Q : Unit → View np D → Prop}
    (hk : v.key .cons ≠ none) (hQ : Q () v) : swp init t (procdumpFrom ps) Q v := by
  induction ps with
  | nil => exact swp_ret hQ
  | cons p ps ih =>
    unfold procdumpFrom
    exact swp_seq ((swp_issue (.dump p) _).mpr ⟨hk, fun _ => ih⟩)

theorem consoleintr_swp (ch : Byte) {Q : Unit → View np D → Prop} (hQ : Q () v) :
    swp init t (consoleintr ch) Q v := by
  unfold consoleintr
  refine swp_seq (acquire_key_swp (h.key _) (fun x => ?_))
  have hkey : (v.lockKey .cons x).key .cons = some x := by
    simp only [lockKey, update_self]
  have hne : (v.lockKey .cons x).key .cons ≠ none := by
    rw [hkey]
    exact nofun
  by_cases hP : ch = Console.ctrlP
  · refine swp_if_pos hP (swp_seq (procdumpFrom_swp _ hne ?_))
    have hset : (v.lockKey .cons x).setKey .cons x = v.lockKey .cons x := by
      simp only [setKey, lockKey, update_idem]
    rw [← hset]
    exact release_changed_swp h (fun _ => id) hQ
  · refine swp_if_neg hP (swp_seq (get_swp (x := x) hkey (swp_seq (set_swp hne ?_))))
    by_cases hline : (Console.consoleintr x ch).2 = true
    · refine swp_if_pos hline (wakeup_release_swp h (fun w p hw => ?_) hQ)
      rw [Nap.eq_cons_of_readyAt hw]
      exact Or.inr rfl
    · refine swp_if_neg hline (release_changed_swp h (fun w hw => ?_) hQ)
      rcases Console.consoleintr_rw (Bool.eq_false_iff.mpr hline) with ⟨hr, hw'⟩
      have hcons := Nap.eq_cons_of_readyAt hw
      rw [hcons] at hw ⊢
      change (Console.consoleintr x ch).1.r ≠ (Console.consoleintr x ch).1.w at hw
      rw [hr, hw'] at hw
      exact hw

omit h in
/-- Only waits for a variable depend on it. -/
theorem Nap.await_of_readyAt {w : Nap D} {n : Nat} {x : Shared D} (h : w.readyAt (.data n) x) :
    ∃ c ch, w = .await n c ch ∧ x.woken c ch = true := by
  cases w with
  | await n' c ch => exact ⟨c, ch, by rw [show n' = n from h.1], h.2⟩
  | wait | read i | write i | ticks ticks0 n | cons => exact h.elim

theorem deviceintr_swp (n : Nat) (f : D → D) (ch : Nat)
    {Q : Unit → View np D → Prop} (hQ : Q () v) : swp init t (deviceintr n f ch) Q v := by
  unfold deviceintr
  refine swp_seq (acquire_key_swp (h.key _) (fun x => swp_seq ?_))
  refine get_swp (x := x) (by simp only [lockKey, update_self])
    (swp_seq ?_)
  refine set_swp (by simp only [lockKey, update_self, ne_eq, reduceCtorEq,
    not_false_eq_true]) ?_
  refine wakeup_release_swp h (fun w p hw => ?_) hQ
  rcases Nap.await_of_readyAt hw with ⟨c, ch', hwa, hwoken⟩
  rw [hwa]
  by_cases hch : ch' = ch
  · rw [hch]
    exact Or.inr rfl
  · -- Another channel has been woken up before.
    refine Or.inl ⟨rfl, ?_⟩
    simp only [Shared.mark, if_neg hch, Shared.update, Bool.and_eq_true] at hwoken
    exact hwoken.1

theorem devintr_swp (i : Intr D) {Q : Bool → View np D → Prop}
    (hQ : ∀ b, Q b v) : swp init t (devintr i) Q v := by
  cases i with
  | timer =>
    unfold devintr
    refine swp_seq (cpuid_swp (fun n => ?_))
    by_cases hn : n = 0
    · refine swp_if_pos hn (swp_seq ?_)
      exact clockintr_swp h (swp_ret (hQ true))
    · exact swp_if_neg hn (swp_ret (hQ true))
  | console c =>
    unfold devintr
    exact swp_seq (consoleintr_swp h c (swp_ret (hQ false)))
  | device n f ch =>
    unfold devintr
    exact swp_seq (deviceintr_swp h n f ch (swp_ret (hQ false)))

theorem kerneltrap_swp (hdepth : v.depth = 0) (i : Intr D) {Q : Unit → View np D → Prop}
    (hQ : Q () v) : swp init t (kerneltrap i) Q v := by
  have hself : v.knowSelf t = v := know_of_loose h (fun w p hw => hw.imp_right (fun h => h.2.2.2))
  unfold kerneltrap
  refine swp_seq (devintr_swp h i (fun b => ?_))
  cases b with
  | false => exact swp_if_neg Bool.false_ne_true (swp_ret hQ)
  | true =>
    refine swp_if_pos rfl (swp_seq (myproc_swp ?_))
    rw [hself]
    cases hc : v.cproc with
    | none => exact swp_ret hQ
    | some p =>
      -- The process that runs is the one whose thread this is.
      have ht : t = .proc p := by
        cases ht : t with
        | proc q =>
          have hq := h.self q ht
          rw [hc, Option.some.injEq] at hq
          rw [hq]
        | sched c =>
          rw [h.sched c ht] at hc
          exact absurd hc Scan.none_ne_some
      refine swp_seq ((swp_issue (.read p) _).mpr
        (Or.inr ⟨ht, h.slot p, fun x hx => ?_⟩))
      refine swp_if_pos hx (yield_swp ht h.toScan hdepth (fun c _ hup => ?_))
      rw [know_of_loose h hup]
      exact hQ

end Handlers

/-! ### The scheduler -/

section Scheduler

variable {np nc : Nat} {D : Type} {init : Fin np} {c : Fin nc}

theorem loose_idle : Loose (.sched c : Thread np nc) (idle : View np D) :=
  ⟨⟨fun _ => rfl, rfl, rfl, rfl,
    nofun, fun _ _ => rfl⟩,
    rfl, fun _ => rfl, fun _ _ => id⟩

theorem schedulerFrom_swp (ps : List (Fin np)) {Q : Unit → View np D → Prop}
    (hQ : Q () idle) :
    swp init (.sched c : Thread np nc) (schedulerFrom ps) Q idle := by
  have hl : Loose (.sched c : Thread np nc) (idle : View np D) := loose_idle
  have hne : ∀ q : Fin np, (.sched c : Thread np nc) ≠ .proc q := fun q => by
    exact nofun
  induction ps with
  | nil => exact swp_ret hQ
  | cons q ps ih =>
    have hback : ∀ x : Slot np D, (idle : View np D).know (fun w p =>
        (idle : View np D).clear w p ∨ (p = q ∧ x.nap ≠ some w ∧
          (idle : View np D).owns w.lock)) = idle :=
      fun x => know_of_loose hl (fun w p hw => hw.imp_right (fun h => h.2.2))
    unfold schedulerFrom
    refine swp_seq (acquire_proc_swp rfl (fun x hx => swp_seq ?_))
    refine read_swp (slot_lockSlot_self _ q x) ?_
    by_cases hrun : x.state = .runnable
    · refine swp_if_pos hrun (swp_seq ?_)
      refine write_swp (slot_lockSlot_self _ q x) ⟨⟨c, rfl⟩, hrun, ?_⟩
      refine swp_seq ((swp_issue (.setProc (some q)) _).mpr
        ⟨⟨c, rfl⟩, Or.inr rfl, ?_⟩)
      refine swp_seq ((swp_issue (.swtch (some q)) _).mpr
        ⟨⟨c, rfl⟩, rfl, rfl, rfl, fun y _ _ => ?_⟩)
      refine swp_seq ((swp_issue (.setProc none) _).mpr
        ⟨⟨c, rfl⟩, Or.inl rfl, ?_⟩)
      refine swp_seq ?_
      -- The process has come back, and its slot is all that the scheduler holds.
      have hpark := park_back (v := (idle : View np D)) x
        ((Write.run : Write np D).apply 0 x) (rfl : (idle : View np D).slot q = none)
        rfl rfl
      have hslot := congrArg View.slot hpark
      refine swp_of_eq ((idle : View np D).lockSlot q y) ?_ ?_
      · simp only [park, setSlot, lockSlot, idle] at hslot ⊢
        rw [hslot]
      · refine hl.release_look (fun h => absurd h (hne q)) ?_
        rw [hback]
        exact ih
    · refine swp_if_neg hrun (swp_seq ?_)
      refine hl.release_look (fun h => absurd h (hne q)) ?_
      rw [hback]
      exact ih

theorem scheduler_swp {Q : Label D → View np D → Prop} (hQ : Q .sched idle) :
    swp init (.sched c : Thread np nc) scheduler Q idle := by
  unfold scheduler
  refine swp_seq ((swp_issue (.setProc none) _).mpr ⟨⟨c, rfl⟩, Or.inl rfl, ?_⟩)
  refine swp_seq ?_
  exact schedulerFrom_swp _ (swp_ret hQ)

end Scheduler

/-! ### Fork -/

section Fork

variable {np nc : Nat} {D : Type} {init p q : Fin np} {s : Bool}

namespace View

/-- A process that makes a child, with the lock of the new slot. -/
def child (p : Fin np) (q : Fin np) (x : Slot np D) (s : Bool) : View np D :=
  { (home p).lockSlot q x with born := some q, spawned := s }

/-- A process that makes a child, without locks. -/
def expecting (p : Fin np) (q : Fin np) (named : Bool) : View np D :=
  { home p with born := some q, named := named, spawned := true }

theorem loose_expecting {named : Bool} :
    Loose (.proc p : Thread np nc) (expecting p q named : View np D) :=
  ⟨⟨fun _ => rfl, rfl, rfl, rfl, fun _ h => by rw [Thread.proc.inj h]; rfl,
    nofun⟩,
    rfl, fun _ => rfl, fun _ _ => id⟩

theorem setSlot_lockSlot (v : View np D) (x y : Slot np D) :
    (v.lockSlot q x).setSlot q y = v.lockSlot q y := by
  unfold setSlot lockSlot
  simp only [update_idem]

theorem look_home (x : Slot np D) : (home p : View np D).know (fun w p' =>
    (home p : View np D).clear w p' ∨ (p' = q ∧ x.nap ≠ some w ∧
      (home p : View np D).owns w.lock)) = home p :=
  know_home (fun _ _ hw => hw.imp_right (fun h => h.2.2))

end View

theorem freeproc_child_swp {x : Slot np D} (hq : q ≠ p) (hx : x.state = .used)
    {Q : Unit → View np D → Prop}
    (hQ : Q () ((home p).lockSlot q ((Write.free : Write np D).apply 0 x))) :
    swp init (.proc p : Thread np nc) (freeproc q) Q (View.child p q x s) := by
  unfold freeproc
  refine swp_seq ((swp_issue (.setParent q none) _).mpr
    (Or.inl ⟨rfl, rfl, rfl, ?_⟩))
  refine write_swp (x := x) (update_self _ _ _)
    ⟨fun h => hq (Thread.proc.inj h).symm, Or.inl ⟨hx, rfl, rfl, ?_⟩⟩
  have hback : ({ (View.child p q x s).setSlot q ((Write.free : Write np D).apply 0 x) with
      born := none, spawned := false } : View np D) =
      (home p).lockSlot q ((Write.free : Write np D).apply 0 x) := by
    rw [← setSlot_lockSlot (home p) x]
    rfl
  rw [← hback] at hQ
  exact hQ

theorem abandon_swp {α : Type} {x : Slot np D} {a : α} (hq : q ≠ p) (hx : x.state = .used)
    {Q : α → View np D → Prop} (hQ : Q a (home p)) :
    swp init (.proc p : Thread np nc) (do
      freeproc q
      release (.proc q)
      return a) Q (View.child p q x s) := by
  refine swp_seq (freeproc_child_swp hq hx (swp_seq ?_))
  refine scan_home.release_look (fun h => absurd (Thread.proc.inj h).symm hq) ?_
  rw [look_home]
  exact swp_ret hQ

theorem allocpid_swp {t : Thread np nc} {v : View np D} (hpid : v.pid = false)
    (ht : ∀ c, t ≠ .sched c) {Q : BitVec 32 → View np D → Prop} (hQ : ∀ n, Q n v) :
    swp init t allocpid Q v := by
  have hback : v.lockPid.unlockPid = v := by
    unfold unlockPid lockPid
    rw [← hpid]
    rfl
  unfold allocpid
  refine swp_seq ((swp_issue (.acquire .pid) _).mpr ⟨hpid, swp_seq ?_⟩)
  refine (swp_issue .nextpid _).mpr ⟨rfl, fun n => swp_seq ?_⟩
  refine (swp_issue (.setNextpid _) _).mpr ⟨rfl, swp_seq ?_⟩
  refine (swp_issue (.release .pid) _).mpr ⟨rfl, ht, swp_ret ?_⟩
  rw [hback]
  exact hQ n

theorem allocprocFrom_swp (qs : List (Fin np)) {Q : Option (Fin np) → View np D → Prop}
    (hnone : Q none (home p))
    (hsome : ∀ q x, q ≠ p → x.state = .used → Q (some q) (View.child p q x true)) :
    swp init (.proc p : Thread np nc) (allocprocFrom qs) Q (home p) := by
  induction qs with
  | nil => exact swp_ret hnone
  | cons q qs ih =>
    unfold allocprocFrom
    refine swp_seq (acquire_proc_swp rfl (fun x hx => swp_seq ?_))
    refine read_swp (slot_lockSlot_self _ q x) ?_
    by_cases hun : x.state = .unused
    · -- The slot of the caller is not free.
      have hq : q ≠ p := fun he => by
        have := (hx.self (by rw [he])).1
        rw [hun] at this
        exact nomatch this
      refine swp_if_pos hun ?_
      unfold allocFound
      refine swp_seq (allocpid_swp rfl (fun c h => absurd h (by
        simp only [reduceCtorEq, not_false_eq_true])) (fun pid => swp_seq ?_))
      refine write_swp (slot_lockSlot_self _ q x) ⟨hun, rfl, ⟨p, rfl, hq.symm⟩, fun n => ?_⟩
      refine swp_of_eq (View.child p q ((Write.alloc pid : Write np D).apply n x) false)
        ?_ ?_
      · rw [setSlot_lockSlot]
        rfl
      · refine swp_seq (flip_swp (fun b => ?_))
        cases b with
        | false => exact swp_if_pos rfl (abandon_swp hq rfl hnone)
        | true =>
          refine swp_if_neg Bool.false_ne_true (swp_seq (flip_swp (fun b => ?_)))
          cases b with
          | false => exact swp_if_pos rfl (abandon_swp hq rfl hnone)
          | true =>
            refine swp_if_neg Bool.false_ne_true (swp_seq
              ((swp_issue (.spawn q) _).mpr ⟨fun h => hq (Thread.proc.inj h).symm, rfl, ?_,
                swp_ret ?_⟩))
            · simp only [View.child, lockSlot, update_self, ne_eq, reduceCtorEq,
                not_false_eq_true]
            · exact hsome q _ hq rfl
    · refine swp_if_neg hun (swp_seq ?_)
      refine scan_home.release_look (fun h => (hx.self h).1) ?_
      rw [look_home]
      exact ih

theorem fork_swp {Q : Int → View np D → Prop} (hQ : ∀ n, Q n (home p)) :
    swp init (.proc p : Thread np nc) (fork p) Q (home p) := by
  unfold fork allocproc
  refine swp_seq (allocprocFrom_swp _ (swp_ret (hQ (-1))) (fun q x hq hx => ?_))
  have htq : (.proc p : Thread np nc) ≠ .proc q := fun h => hq (Thread.proc.inj h).symm
  refine swp_seq (flip_swp (fun b => ?_))
  cases b with
  | false => exact swp_if_pos rfl (abandon_swp hq hx (hQ (-1)))
  | true =>
    refine swp_if_neg Bool.false_ne_true (swp_seq ?_)
    refine read_swp (x := x) (update_self _ _ _) (swp_seq ?_)
    -- The child gets its parent while its slot is not locked.
    have hs : ∀ named, Loose (.proc p : Thread np nc) (expecting p q named : View np D) :=
      fun named => loose_expecting
    refine (hs false).release_look (fun h => absurd h htq) ?_
    rw [know_of_loose (hs false) (fun w p' hw => hw.imp_right (fun h => h.2.2))]
    refine swp_seq (acquire_wait_swp rfl (fun _ => rfl) (fun T hT => ?_))
    refine swp_seq ((swp_issue (.setParent q (some p)) _).mpr
      ⟨T, rfl, Or.inl ⟨rfl, rfl, rfl, rfl, swp_seq ?_⟩⟩)
    refine release_wait_swp (T := T.setParent q (some p)) rfl rfl
      (nofun) (fun p' hp' => ?_) ?_
    · rcases hp' with ⟨s, hs', hd⟩
      have hsq : s ≠ q := fun he => by
        rw [he] at hd
        exact nomatch (hd.symm.trans (hT q rfl))
      simp only [Table.setParent, update_of_ne hsq] at hs'
      exact Or.inr ⟨rfl, s, hs', hd⟩
    · refine swp_of_eq (expecting p q true) ?_ ?_
      · have hclear : (fun (w : Nap D) (p' : Fin np) => (False ∨ (w = .wait ∧ T.Ready p')) ∧
            w ≠ .wait) = fun _ _ => False := by
          funext w p'
          exact propext ⟨fun h => h.1.elim id (fun h' => h.2 h'.1), False.elim⟩
        unfold unlockTab
        simp only [setTab, lockTab, expecting, home, idle]
        rw [hclear]
      · refine swp_seq (acquire_proc_swp rfl (fun y hy => swp_seq ?_))
        refine write_swp (slot_lockSlot_self _ q y) ⟨htq, hy.born rfl, rfl, rfl, rfl, ?_⟩
        refine swp_of_eq ((home p).lockSlot q
          ((Write.ready : Write np D).apply 0 y)) ?_ ?_
        · rw [setSlot_lockSlot]
          rfl
        · refine swp_seq (scan_home.release_look (fun h => absurd h htq) ?_)
          rw [look_home]
          exact swp_ret (hQ _)

end Fork

/-! ### Exit and wait -/

section Exit

variable {np nc : Nat} {D : Type} {init p q : Fin np} {b : Bool} {T : Table np}
  {c : Nap D → Fin np → Prop}

/-- Nobody sleeps in `wait` who has a zombie child, as the holder of `wait_lock`
    knows. -/
structure TabOk (T : Table np) (c : Nap D → Fin np → Prop) : Prop where
  ready : ∀ q, T.Ready q → c .wait q
  only : ∀ w q, c w q → w = .wait

theorem tabOk_start (T : Table np) : TabOk T (fun (w : Nap D) q => w = .wait ∧ T.Ready q) :=
  ⟨fun _ h => ⟨rfl, h⟩, fun _ _ h => h.1⟩

theorem tabOk_of_scan (h : TabOk T c) {c' : Nap D → Fin np → Prop} (hold : ∀ w q, c w q → c' w q)
    (hup : ∀ w q, c' w q → c w q ∨ (inTab p T b c).owns w.lock) : TabOk T c' := by
  refine ⟨fun q hq => hold _ q (h.ready q hq), fun w q hw => ?_⟩
  rcases hup w q hw with hw | ho
  · exact h.only w q hw
  · exact Nap.eq_wait_of_lock (owns_inTab.mp ho)

/-- A slot is looked at under `wait_lock`. -/
theorem release_look_inTab (h : TabOk T c) {x : Slot np D} (Q : Unit → View np D → Prop)
    (hself : q = p → x.state = .running)
    (hQ : ∀ c', TabOk T c' → Q () (inTab p T false c')) :
    swp init (.proc p : Thread np nc) (release (.proc q)) Q
      ((inTab p T false c).lockSlot q x) := by
  refine scan_inTab.release_look (fun ht => hself (Thread.proc.inj ht).symm) ?_
  exact hQ _ (tabOk_of_scan (p := p) (b := false) h (fun w q hw => Or.inl hw)
    (fun w q hw => hw.imp_right (fun h => h.2.2)))

theorem release_inTab (h : TabOk T c) (Q : Unit → View np D → Prop) (hQ : Q () (home p)) :
    swp init (.proc p : Thread np nc) (release .wait) Q (inTab p T false c) := by
  refine release_wait_swp (T := T) rfl rfl
    (nofun) h.ready ?_
  rw [unlockTab_inTab h.only]
  exact hQ

theorem wakeup_inTab (h : TabOk T c) {ch : Option (Chan np)} {Q : Unit → View np D → Prop}
    (hQ : ∀ c' : Nap D → Fin np → Prop, (∀ w q, c w q → c' w q) →
      (∀ q, some (.proc q) = ch → c' .wait q) → (∀ w q, c' w q → w = .wait) →
      Q () (inTab p T false c')) :
    swp init (.proc p : Thread np nc) (wakeup ch) Q (inTab p T false c) := by
  refine wakeupFrom_swp ch _ _ scan_inTab Q (fun c' hold hnew hup => ?_)
  refine hQ c' hold (fun q hq => ?_) (tabOk_of_scan h hold hup).only
  exact hnew .wait q (List.mem_finRange q) hq (owns_inTab.mpr rfl)

/-- The loop of `reparent`: the process has no children left in the slots that
    have been seen. -/
theorem reparentFrom_swp (hp : p ≠ init) (qs : List (Fin np)) (T : Table np)
    (c : Nap D → Fin np → Prop) (h : TabOk T c) (Q : Unit → View np D → Prop)
    (hQ : ∀ T' c', TabOk T' c' → (∀ q ∈ qs, T'.parent q ≠ some p) →
      (∀ q, T'.parent q = some p → T.parent q = some p) → Q () (inTab p T' false c')) :
    swp init (.proc p : Thread np nc) (reparentFrom init p qs) Q (inTab p T false c) := by
  induction qs generalizing T c with
  | nil =>
    exact swp_ret (hQ T c h (nofun) (fun _ => id))
  | cons q qs ih =>
    unfold reparentFrom
    refine swp_seq (getParent_swp (T := T) rfl ?_)
    by_cases hq : T.parent q = some p
    · refine swp_if_pos hq (swp_seq ((swp_issue (.setParent q (some init)) _).mpr
        ⟨T, rfl, Or.inr ⟨rfl, rfl, ⟨p, rfl, hq⟩, ?_⟩⟩))
      have hother : ∀ s, (T.setParent q (some init)).parent s = some p → s ≠ q := by
        intro s hs he
        simp only [Table.setParent, he, update_self, Option.some.injEq] at hs
        exact hp hs.symm
      refine swp_seq ?_
      refine wakeupFrom_swp (some (.proc init)) _
        (inTab p (T.setParent q (some init)) false c) scan_inTab _
        (fun c' hold hnew hup => ?_)
      have hok : TabOk (T.setParent q (some init)) c' := by
        refine ⟨fun s hs => ?_, fun w s hw => ?_⟩
        · rcases hs with ⟨o, ho, hd⟩
          by_cases hoq : o = q
          · -- The new parent has been woken up.
            simp only [Table.setParent, hoq, update_self, Option.some.injEq] at ho
            rw [← ho]
            exact hnew .wait init (List.mem_finRange _) rfl (owns_inTab.mpr rfl)
          · simp only [Table.setParent, update_of_ne hoq] at ho
            exact hold _ _ (h.ready s ⟨o, ho, hd⟩)
        · rcases hup w s hw with hw | ho
          · exact h.only w s hw
          · exact Nap.eq_wait_of_lock (owns_inTab.mp ho)
      refine ih _ c' hok (fun T' c'' hok' hnone hback => ?_)
      refine hQ T' c'' hok' (fun s hs => ?_) (fun s hs => ?_)
      · rcases List.mem_cons.mp hs with hs | hs
        · rw [hs]
          exact fun hc => hother q (hback q hc) rfl
        · exact hnone s hs
      · have hs' := hback s hs
        simp only [Table.setParent, update_of_ne (hother s hs')] at hs'
        exact hs'
    · refine swp_if_neg hq (ih T c h (fun T' c' hok hnone hback => ?_))
      refine hQ T' c' hok (fun s hs => ?_) hback
      rcases List.mem_cons.mp hs with hs | hs
      · rw [hs]
        exact fun hc => hq (hback q hc)
      · exact hnone s hs

theorem exit_swp {α : Type} (status : Int) (Q : α → View np D → Prop) :
    swp init (.proc p : Thread np nc) (exit init p status) Q (home p) := by
  unfold exit
  by_cases hp : p = init
  · exact swp_if_pos hp ((swp_panic _ _).mpr rfl)
  · refine swp_if_neg hp (swp_seq ?_)
    refine acquire_wait_swp rfl (fun _ => rfl) (fun T _ => ?_)
    rw [lockTab_home]
    refine swp_seq (reparentFrom_swp hp _ T _ (tabOk_start T) _
      (fun T' c hok hnone _ => ?_))
    refine swp_seq (getParent_swp (T := T') rfl (swp_seq ?_))
    refine wakeup_inTab hok (fun c' hold hnew hup => swp_seq ?_)
    refine acquire_proc_swp rfl (fun x hx => swp_seq ?_)
    refine write_swp (slot_lockSlot_self _ p x) ⟨rfl, hp, (hx.self rfl).1, rfl, T', rfl,
      fun s => hnone s (List.mem_finRange s), ?_⟩
    refine swp_seq (release_wait_swp (T := T'.setDead p true) rfl rfl
      (nofun) (fun s hs => ?_) ?_)
    · -- The parent has been woken up; of the others nothing has changed.
      rcases hs with ⟨o, ho, hd⟩
      by_cases hop : o = p
      · rw [hop] at ho
        refine hnew s ?_
        rw [show T'.parent p = some s from ho]
        rfl
      · simp only [Table.setDead, update_of_ne hop] at hd
        exact hold _ _ (hok.ready s ⟨o, ho, hd⟩)
    · refine swp_seq ?_
      refine sched_zombie_swp (x := (Write.exit status : Write np D).apply 0 x) rfl ?_ rfl rfl rfl
        ?_ _
      · exact update_self _ _ _
      · have hslot := congrArg View.slot (park_back (v := (home p : View np D)) x
          ((Write.exit status : Write np D).apply 0 x)
          (rfl : (home p : View np D).slot p = none) rfl rfl)
        have hclear : (fun w q => c' w q ∧ w ≠ .wait) = fun (_ : Nap D) (_ : Fin np) => False := by
          funext w q
          exact propext ⟨fun h => h.2 (hup w q h.1), False.elim⟩
        unfold park unlockTab
        simp only [setTab, setSlot, lockSlot, inTab, home, idle, park] at hslot ⊢
        rw [hslot, hclear]

theorem freeproc_reap_swp {x : Slot np D} (h : TabOk T c) (hq : q ≠ p)
    (Q : Unit → View np D → Prop)
    (hQ : ∀ T', TabOk T' c → Q () ((inTab p T' false c).lockSlot q
      ((Write.free : Write np D).apply 0 x))) :
    swp init (.proc p : Thread np nc) (freeproc q) Q
      { (inTab p T false c).lockSlot q x with reaping := some q } := by
  unfold freeproc
  refine swp_seq ((swp_issue (.setParent q none) _).mpr (Or.inr ⟨rfl, T, rfl, ?_⟩))
  refine write_swp (x := x) (update_self _ _ _)
    ⟨fun h => hq (Thread.proc.inj h).symm, Or.inr ⟨rfl, T.setParent q none, rfl,
      update_self _ _ _, ?_⟩⟩
  have hback : ({ (({ (inTab p T false c).lockSlot q x with reaping := some q } :
      View np D).setSlot q ((Write.free : Write np D).apply 0 x)).setTab
        ((T.setParent q none).setDead q false) with reaping := none } : View np D) =
      (inTab p ((T.setParent q none).setDead q false) false c).lockSlot q
        ((Write.free : Write np D).apply 0 x) := by
    rw [← setSlot_lockSlot
      (inTab p ((T.setParent q none).setDead q false) false c) x]
    rfl
  have hok : TabOk ((T.setParent q none).setDead q false) c := by
    refine ⟨fun s hs => ?_, h.only⟩
    rcases hs with ⟨o, ho, hd⟩
    have hoq : o ≠ q := fun he => by
      simp only [Table.setDead, he, update_self] at hd
      exact Bool.false_ne_true hd
    simp only [Table.setDead, Table.setParent, update_of_ne hoq] at ho hd
    exact h.ready s ⟨o, ho, hd⟩
  have := hQ _ hok
  rw [← hback] at this
  exact this

theorem copyout_swp {t : Thread np nc} {v : View np D} {addr : Bool} {status : Int}
    {Q : Bool → View np D → Prop} (hQ : ∀ ok, Q ok v) :
    swp init t (copyout addr p status) Q v := by
  unfold copyout
  cases addr with
  | false => exact swp_if_neg Bool.false_ne_true (swp_ret (hQ true))
  | true => exact swp_if_pos rfl ((swp_issue (.copyout p status) Q).mpr hQ)

/-- The loop of `wait`: it returns, or no child is a zombie in the slots that have
    been seen. -/
theorem waitFrom_swp (addr : Bool) (qs : List (Fin np)) (havekids : Bool)
    (c : Nap D → Fin np → Prop) (h : TabOk T c) (Q : Int ⊕ Bool → View np D → Prop)
    (hret : ∀ n, Q (.inl n) (home p))
    (hnone : ∀ b c', TabOk T c' → (∀ q ∈ qs, T.parent q = some p → T.dead q = false) →
      Q (.inr b) (inTab p T false c')) :
    swp init (.proc p : Thread np nc) (waitFrom p addr qs havekids) Q
      (inTab p T false c) := by
  induction qs generalizing c havekids with
  | nil => exact swp_ret (hnone havekids c h (nofun))
  | cons q qs ih =>
    unfold waitFrom
    refine swp_seq (getParent_swp (T := T) rfl ?_)
    by_cases hq : T.parent q = some p
    · refine swp_if_pos hq (swp_seq ?_)
      refine acquire_proc_swp rfl (fun x hx => swp_seq ?_)
      refine read_swp (slot_lockSlot_self _ q x) ?_
      have hself : q = p → x.state = .running := fun he => (hx.self (by rw [he])).1
      by_cases hz : x.state = .zombie
      · have hqp : q ≠ p := fun he => by
          rw [hself he] at hz
          exact nomatch hz
        have htq : (.proc p : Thread np nc) ≠ .proc q := fun ht => hqp (Thread.proc.inj ht).symm
        refine swp_if_pos hz (swp_seq (copyout_swp (fun ok => ?_)))
        cases ok with
        | false =>
          refine swp_if_pos rfl (swp_seq (release_look_inTab h _ hself
            (fun c' hok => swp_seq ?_)))
          exact release_inTab hok _ (swp_ret (hret (-1)))
        | true =>
          refine swp_if_neg Bool.true_eq_false.mp (swp_seq ((swp_issue (.reaped q p _) _).mpr
            ⟨rfl, htq, rfl, ⟨T, rfl, hq⟩, ⟨x, slot_lockSlot_self _ q x, hz, rfl⟩, ?_⟩))
          refine swp_seq (freeproc_reap_swp h hqp _ (fun T' hok => ?_))
          refine swp_seq (release_look_inTab hok _ (fun he => absurd he hqp)
            (fun c' hok' => swp_seq ?_))
          exact release_inTab hok' _ (swp_ret (hret _))
      · refine swp_if_neg hz (swp_seq (release_look_inTab h _ hself
          (fun c' hok => ?_)))
        refine ih true c' hok (fun b c'' hok' hdead => ?_)
        refine hnone b c'' hok' (fun s hs hp => ?_)
        rcases List.mem_cons.mp hs with hs | hs
        · rw [hs]
          exact Bool.eq_false_iff.mpr (fun hd => hz ((hx.dead T rfl).mp hd))
        · exact hdead s hs hp
    · refine swp_if_neg hq (ih havekids c h (fun b c' hok hdead => ?_))
      refine hnone b c' hok (fun s hs hp => ?_)
      rcases List.mem_cons.mp hs with hs | hs
      · rw [hs] at hp
        exact absurd hp hq
      · exact hdead s hs hp

theorem killed_inTab (h : TabOk T c) {Q : Bool → View np D → Prop}
    (hQ : ∀ b c', TabOk T c' → Q b (inTab p T (!b) c')) :
    swp init (.proc p : Thread np nc) (killed p true) Q (inTab p T false c) := by
  refine killed_swp rfl scan_inTab (fun b c' hold hup => ?_)
  exact hQ b c' (tabOk_of_scan h hold hup)

end Exit

end Xv6.Sched
