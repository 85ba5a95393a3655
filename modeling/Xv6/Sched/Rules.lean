import Xv6.Sched.View
import Xv6.Sched.Owned

/-!
# Sleep, Wakeup and Kill on Views

What the functions that scan the process table or wait do to the view of their
thread.

A scan takes the lock of one slot after the other and gives it up again. All that
is left of it in the view is what was seen: `View.know` has new facts about who
does not sleep. A call of `wakeup` learns this of everybody who could sleep on
the channel, since it has woken them up or found them awake.
-/

namespace Xv6.Sched

open Function (update update_eq_self update_idem update_self)

variable {k : Key}

open Sched.View

section Base

variable {np nc : Nat} {D : Type} {init : Fin np} {t : Thread np nc} {α β : Type}
  {v : View np D} {Q : α → View np D → Prop}

theorem swp_pure (a : α) (Q : α → View np D → Prop) :
    swp init t (pure a) Q v ↔ Q a v := by
  unfold swp
  exact Iff.rfl

theorem swp_bind (x : P np D α) (f : α → P np D β) (Q : β → View np D → Prop) :
    swp init t (x >>= f) Q v ↔ swp init t x (fun a v' => swp init t (f a) Q v') v := by
  unfold swp
  exact lwp_bind (Local init t) x f Q v

theorem swp_ret {a : α} (h : Q a v) : swp init t (pure a) Q v :=
  (swp_pure a Q).mpr h

theorem swp_seq {x : P np D α} {f : α → P np D β} {Q : β → View np D → Prop}
    (h : swp init t x (fun a v' => swp init t (f a) Q v') v) : swp init t (x >>= f) Q v :=
  (swp_bind x f Q).mpr h

theorem swp_issue (cmd : Cmd np D) (Q : cmd.Ans → View np D → Prop) :
    swp init t (issue cmd) Q v ↔ Local init t cmd v Q := by
  unfold swp
  exact Iff.rfl

theorem swp_panic (e : Panic) (Q : α → View np D → Prop) :
    swp init t (panic e) Q v ↔ e = .initExiting := by
  unfold swp
  exact Iff.rfl

theorem swp_of_eq (v' : View np D) {x : P np D α} (hv : v = v')
    (h : swp init t x Q v') : swp init t x Q v := by
  rw [hv]
  exact h

theorem swp_if_pos {c : Prop} [Decidable c] (hc : c) {x y : P np D α} (h : swp init t x Q v) :
    swp init t (if c then x else y) Q v := by
  rw [if_pos hc]
  exact h

theorem swp_if_neg {c : Prop} [Decidable c] (hc : ¬c) {x y : P np D α} (h : swp init t y Q v) :
    swp init t (if c then x else y) Q v := by
  rw [if_neg hc]
  exact h

/-! ### The steps -/

variable {Q : Unit → View np D → Prop}

theorem acquire_proc_swp {q : Fin np} (hq : v.slot q = none)
    (h : ∀ x, Admits t v q x → Q () (v.lockSlot q x)) : swp init t (acquire (.proc q)) Q v :=
  (swp_issue (.acquire (.proc q)) Q).mpr ⟨hq, h⟩

theorem release_proc_swp {q : Fin np} {x : Slot np D} (hq : v.slot q = some x)
    (hmay : MayRelease t v q x) (h : Q () (v.unlockSlot q x)) :
    swp init t (release (.proc q)) Q v :=
  (swp_issue (.release (.proc q)) Q).mpr ⟨x, hq, hmay, h⟩

theorem acquire_wait_swp (htab : v.tab = none) (hslot : ∀ q, v.slot q = none)
    (h : ∀ T : Table np, (∀ q, v.born = some q → T.dead q = false) → Q () (v.lockTab T)) :
    swp init t (acquire .wait) Q v :=
  (swp_issue (.acquire .wait) Q).mpr ⟨htab, hslot, h⟩

theorem release_wait_swp {T : Table np} (htab : v.tab = some T) (hreap : v.reaping = none)
    (ht : ∀ c, t ≠ .sched c) (hready : ∀ p, T.Ready p → v.clear .wait p) (h : Q () v.unlockTab) :
    swp init t (release .wait) Q v :=
  (swp_issue (.release .wait) Q).mpr ⟨hreap, ht, T, htab, hready, h⟩

theorem acquire_key_swp (hk : v.key k = none) (h : ∀ x, Q () (v.lockKey k x)) :
    swp init t (acquire (.key k)) Q v :=
  (swp_issue (.acquire (.key k)) Q).mpr ⟨hk, h⟩

theorem release_key_swp {x : k.Val D} (hk : v.key k = some x)
    (ht : ∀ c, t = .sched c → v.cproc = none)
    (hready : ∀ w p, w.readyAt k x → v.clear w p)
    (h : Q () (v.unlockKey k)) : swp init t (release (.key k)) Q v :=
  (swp_issue (.release (.key k)) Q).mpr ⟨ht, x, hk, hready, h⟩

theorem read_swp {Q : Slot np D → View np D → Prop} {q : Fin np} {x : Slot np D}
    (hq : v.slot q = some x) (h : Q x v) : swp init t (read q) Q v :=
  (swp_issue (.read q) Q).mpr (Or.inl ⟨x, hq, h⟩)

theorem write_swp {q : Fin np} {x : Slot np D} {w : Write np D} (hq : v.slot q = some x)
    (h : Move init t v q x w (Q ())) : swp init t (write q w) Q v :=
  (swp_issue (.write q w) Q).mpr ⟨x, hq, h⟩

theorem get_swp {Q : k.Val D → View np D → Prop} {x : k.Val D} (hk : v.key k = some x)
    (h : Q x v) : swp init t (get k) Q v :=
  (swp_issue (.get k) Q).mpr ⟨x, hk, h⟩

theorem set_swp {x : k.Val D} (hk : v.key k ≠ none) (h : Q () (v.setKey k x)) :
    swp init t (set k x) Q v :=
  (swp_issue (.set k x) Q).mpr ⟨hk, h⟩

theorem getParent_swp {Q : Option (Fin np) → View np D → Prop} {q : Fin np} {T : Table np}
    (htab : v.tab = some T) (h : Q (T.parent q) v) : swp init t (getParent q) Q v :=
  (swp_issue (.parent q) Q).mpr ⟨T, htab, h⟩

theorem flip_swp {Q : Bool → View np D → Prop} (h : ∀ b, Q b v) : swp init t flip Q v :=
  (swp_issue .flip Q).mpr h

theorem cpuid_swp {Q : Nat → View np D → Prop} (h : ∀ n, Q n v) : swp init t cpuid Q v :=
  (swp_issue .cpuid Q).mpr h

theorem myproc_swp {Q : Option (Fin np) → View np D → Prop} (h : Q v.cproc (v.knowSelf t)) :
    swp init t myproc Q v :=
  (swp_issue .myproc Q).mpr h

end Base

section Know

variable {np nc : Nat} {D : Type} (v : View np D)

/-- A view with other facts about the sleepers. -/
def View.know (clear : Nap D → Fin np → Prop) : View np D := { v with clear := clear }

theorem View.know_self : v.know v.clear = v := rfl

theorem View.owns_know (c : Nap D → Fin np → Prop) (l : Lock np) :
    (v.know c).owns l ↔ v.owns l := by
  cases l <;> exact Iff.rfl

theorem View.visit {q : Fin np} (x y : Slot np D) (hq : v.slot q = none) :
    ((v.lockSlot q x).setSlot q y).unlockSlot q y =
      v.know (fun w p => v.clear w p ∨ (p = q ∧ y.nap ≠ some w ∧ v.owns w.lock)) := by
  have hslot : update (update (update v.slot q (some x)) q (some y)) q
      none = v.slot := by
    rw [update_idem, update_idem, ← hq, update_eq_self]
  have hclear : (fun w p => v.clear w p ∨ (p = q ∧ y.nap ≠ some w ∧
      ((v.lockSlot q x).setSlot q y).owns w.lock)) =
      fun w p => v.clear w p ∨ (p = q ∧ y.nap ≠ some w ∧ v.owns w.lock) := by
    funext w p
    refine propext (or_congr Iff.rfl (and_congr Iff.rfl (and_congr Iff.rfl ?_)))
    cases hl : (w.lock : Lock np) with
    | proc r =>
      exact absurd hl (by cases w <;> simp only [Nap.lock, reduceCtorEq, not_false_eq_true])
    | wait | pid | key k => exact Iff.rfl
  unfold unlockSlot know
  simp only [setSlot, lockSlot] at hclear ⊢
  rw [hslot, hclear]
  rfl

theorem View.look {q : Fin np} (x : Slot np D) (hq : v.slot q = none) :
    (v.lockSlot q x).unlockSlot q x =
      v.know (fun w p => v.clear w p ∨ (p = q ∧ x.nap ≠ some w ∧ v.owns w.lock)) := by
  rw [← visit v x x hq]
  unfold setSlot
  congr 1
  simp only [lockSlot, update_idem]

end Know

/-- A thread that may scan the process table: it holds the lock of no slot, and is
    in the middle of nothing that concerns one. -/
structure Scan {np nc : Nat} {D : Type} (t : Thread np nc) (v : View np D) : Prop where
  slot : ∀ q, v.slot q = none
  picked : v.picked = none
  reaping : v.reaping = none
  commit : v.commit = none
  self : ∀ p, t = .proc p → v.cproc = some p
  sched : ∀ c, t = .sched c → v.cproc = none

section Scan

variable {np nc : Nat} {D : Type} {init : Fin np} {t : Thread np nc} {v : View np D} {p : Fin np}

namespace Scan

theorem know (h : Scan t v) (c : Nap D → Fin np → Prop) : Scan t (v.know c) :=
  ⟨h.slot, h.picked, h.reaping, h.commit, h.self, h.sched⟩

theorem none_ne_some {q : Fin np} : none ≠ some q := by
  exact nofun

theorem mayRelease_look (h : Scan t v) {q : Fin np} {x : Slot np D}
    (hself : t = .proc q → x.state = .running) : MayRelease t (v.lockSlot q x) q x :=
  ⟨fun ht => ⟨hself ht, h.commit⟩, fun hp => none_ne_some (h.picked.symm.trans hp),
    fun hr => none_ne_some (h.reaping.symm.trans hr), h.sched⟩

theorem mayRelease_visit (h : Scan t v) {q : Fin np} {x y : Slot np D}
    (hself : t = .proc q → y.state = .running) :
    MayRelease t ((v.lockSlot q x).setSlot q y) q y :=
  ⟨fun ht => ⟨hself ht, h.commit⟩, fun hp => none_ne_some (h.picked.symm.trans hp),
    fun hr => none_ne_some (h.reaping.symm.trans hr), h.sched⟩

theorem release_look (h : Scan t v) {Q : Unit → View np D → Prop} {q : Fin np} {x : Slot np D}
    (hself : t = .proc q → x.state = .running)
    (hQ : Q () (v.know (fun w p => v.clear w p ∨ (p = q ∧ x.nap ≠ some w ∧ v.owns w.lock)))) :
    swp init t (release (.proc q)) Q (v.lockSlot q x) := by
  refine release_proc_swp (v.slot_lockSlot_self q x) (h.mayRelease_look hself) ?_
  rw [look v x (h.slot q)]
  exact hQ

theorem release_visit (h : Scan t v) {Q : Unit → View np D → Prop} {q : Fin np} {x y : Slot np D}
    (hself : t = .proc q → y.state = .running)
    (hQ : Q () (v.know (fun w p => v.clear w p ∨ (p = q ∧ y.nap ≠ some w ∧ v.owns w.lock)))) :
    swp init t (release (.proc q)) Q ((v.lockSlot q x).setSlot q y) := by
  refine release_proc_swp (update_self _ _ _) (h.mayRelease_visit hself) ?_
  rw [visit v x y (h.slot q)]
  exact hQ

end Scan

/-! ### Wakeup -/

/-- The loop of `wakeup`: whoever could sleep on the channel does not. -/
theorem wakeupFrom_swp (ch : Option (Chan np)) (ps : List (Fin np)) (v : View np D)
    (hs : Scan t v) (Q : Unit → View np D → Prop)
    (hQ : ∀ c : Nap D → Fin np → Prop, (∀ w p, v.clear w p → c w p) →
      (∀ w p, p ∈ ps → some (w.chan p) = ch → v.owns w.lock → c w p) →
      (∀ w p, c w p → v.clear w p ∨ v.owns w.lock) → Q () (v.know c)) :
    swp init t (wakeupFrom ch ps) Q v := by
  induction ps generalizing v with
  | nil =>
    refine (swp_pure () Q).mpr ?_
    exact hQ v.clear (fun _ _ hw => hw) (nofun)
      (fun _ _ hw => Or.inl hw)
  | cons q ps ih =>
    -- What the rest of the loop needs when one more process is known to be awake.
    have hrest : ∀ c : Nap D → Fin np → Prop, (∀ w p, v.clear w p → c w p) →
        (∀ w, some (w.chan q) = ch → v.owns w.lock → c w q) →
        (∀ w p, c w p → v.clear w p ∨ v.owns w.lock) →
        swp init t (wakeupFrom ch ps) Q (v.know c) := by
      intro c hold hnew hup
      refine ih (v.know c) (hs.know c) (fun c' h₁ h₂ h₃ => ?_)
      refine hQ c' (fun w p hw => h₁ w p (hold w p hw)) (fun w p hp hch ho => ?_)
        (fun w p hw => ?_)
      · rcases List.mem_cons.mp hp with hp | hp
        · rw [hp] at hch ⊢
          exact h₁ w q (hnew w hch ho)
        · exact h₂ w p hp hch ((owns_know v c _).mpr ho)
      · rcases h₃ w p hw with hw | ho
        · exact hup w p hw
        · exact Or.inr ((owns_know v c _).mp ho)
    unfold wakeupFrom
    refine swp_seq (myproc_swp ?_)
    have hs' : Scan t (v.knowSelf t) := hs.know _
    by_cases hme : some q ≠ v.cproc
    · have htq : t ≠ .proc q := fun ht => hme (hs.self q ht).symm
      rw [if_pos hme]
      refine swp_seq (acquire_proc_swp (hs.slot q) (fun x hx => ?_))
      refine swp_seq (read_swp ((v.knowSelf t).slot_lockSlot_self q x) ?_)
      have hup : ∀ y : Slot np D, ∀ w p, ((v.knowSelf t).clear w p ∨
          (p = q ∧ y.nap ≠ some w ∧ (v.knowSelf t).owns w.lock)) →
          v.clear w p ∨ v.owns w.lock := by
        intro y w p hw
        rcases hw with (hw | ⟨_, _, _, ho⟩) | ⟨_, _, ho⟩
        · exact Or.inl hw
        · exact Or.inr ho
        · exact Or.inr ((owns_know v _ _).mp ho)
      by_cases hwake : x.state = .sleeping ∧ x.chan = ch
      · rw [if_pos hwake]
        refine swp_seq (write_swp ((v.knowSelf t).slot_lockSlot_self q x) ⟨htq, hwake.1, ?_⟩)
        refine swp_seq ?_
        refine hs'.release_visit (fun ht => absurd ht htq) ?_
        exact hrest _ (fun w p hw => Or.inl (Or.inl hw))
          (fun w _ ho => Or.inr ⟨rfl, by
            simp only [Write.apply, ne_eq, reduceCtorEq, not_false_eq_true],
            (owns_know v _ _).mpr ho⟩) (hup _)
      · rw [if_neg hwake]
        refine swp_seq (hs'.release_look (fun ht => absurd ht htq) ?_)
        refine hrest _ (fun w p hw => Or.inl (Or.inl hw)) (fun w hch ho => ?_) (hup _)
        -- A process that has a reason to sleep on the channel would have been woken.
        refine Or.inr ⟨rfl, fun hnap => hwake ?_, (owns_know v _ _).mpr ho⟩
        rcases hx.other htq w hnap with ⟨h₁, h₂⟩
        exact ⟨h₁, h₂.trans hch⟩
    · rw [if_neg hme]
      have hcur : v.cproc = some q := (not_not.mp hme).symm
      refine hrest _ (fun w p hw => Or.inl hw) (fun w _ ho => Or.inr ?_) (fun w p hw => ?_)
      · -- The process that runs is the one whose thread this is.
        cases ht : t with
        | proc p =>
          have hp := hs.self p ht
          rw [hcur, Option.some.injEq] at hp
          rw [hp]
          exact ⟨rfl, hs.commit, hs.slot p, ho⟩
        | sched c =>
          rw [hs.sched c ht] at hcur
          exact absurd hcur Scan.none_ne_some
      · rcases hw with hw | ⟨_, _, _, ho⟩
        · exact Or.inl hw
        · exact Or.inr ho

/-- `wakeup`: nobody sleeps on the channel under a lock that the thread holds. -/
theorem wakeup_swp {ch : Chan np} (hs : Scan t v) {Q : Unit → View np D → Prop}
    (hQ : ∀ c : Nap D → Fin np → Prop, (∀ w p, v.clear w p → c w p) →
      (∀ w p, w.chan p = ch → v.owns w.lock → c w p) →
      (∀ w p, c w p → v.clear w p ∨ v.owns w.lock) → Q () (v.know c)) :
    swp init t (wakeup (some ch)) Q v :=
  wakeupFrom_swp (some ch) (List.finRange np) v hs Q
    (fun c h₁ h₂ h₃ => hQ c h₁ (fun w p hch ho => h₂ w p (List.mem_finRange p)
      (congrArg some hch) ho) h₃)

/-! ### Switching -/

theorem sched_swtch {x : Slot np D} (hp : v.slot p = some x) (hdepth : v.depth = 1)
    (hx : x.state ≠ .running) {Q : Unit → View np D → Prop}
    (h : Local init t (.swtch none) v Q) : swp init t (sched p) Q v := by
  have hown : v.owns (.proc p) := fun hn => by
    rw [hp] at hn
    exact nomatch hn
  unfold sched
  refine swp_seq ((swp_issue (.holding (.proc p)) _).mpr ⟨fun _ => ?_, fun hn => absurd hown hn⟩)
  simp only [Bool.not_true, Bool.false_eq_true, if_false]
  refine swp_seq ((swp_issue .noff _).mpr ?_)
  change swp init t (if v.depth ≠ 1 then _ else _) Q v
  refine swp_if_neg (not_not_intro hdepth) (swp_seq (read_swp hp ?_))
  exact swp_if_neg hx ((swp_issue (.swtch none) Q).mpr h)

theorem sched_swp {x : Slot np D} (ht : t = .proc p) (hp : v.slot p = some x) (hdepth : v.depth = 1)
    (hcommit : v.commit = none) (hx : x.state = .runnable ∨ x.state = .sleeping)
    (Q : Unit → View np D → Prop)
    (hQ : ∀ y : Slot np D, y.state = .running → y.nap = none → Q () ((v.park p).lockSlot p y)) :
    swp init t (sched p) Q v := by
  have hrun : x.state ≠ .running := by
    rcases hx with hx | hx <;> rw [hx] <;> simp only [ne_eq, reduceCtorEq, not_false_eq_true]
  exact sched_swtch hp hdepth hrun ⟨p, x, ht, hp, hdepth, hrun, hcommit, Or.inr ⟨hx, hQ⟩⟩

/-- `sched` for a process that has ended: it does not come back. -/
theorem sched_zombie_swp {x : Slot np D} (ht : t = .proc p) (hp : v.slot p = some x)
    (hdepth : v.depth = 1) (hcommit : v.commit = none) (hx : x.state = .zombie)
    (hhome : v.park p = .home p) (Q : Unit → View np D → Prop) :
    swp init t (sched p) Q v := by
  have hrun : x.state ≠ .running := by
    rw [hx]
    exact nofun
  exact sched_swtch hp hdepth hrun ⟨p, x, ht, hp, hdepth, hrun, hcommit, Or.inl ⟨hx, hhome⟩⟩

theorem View.park_back (x y : Slot np D) (hp : v.slot p = none) (hdepth : v.depth = 0)
    (hpicked : v.picked = none) : ((v.lockSlot p x).setSlot p y).park p = v := by
  have hslot : update (update (update v.slot p (some x)) p (some y)) p
      none = v.slot := by
    rw [update_idem, update_idem, ← hp, update_eq_self]
  unfold park
  simp only [setSlot, lockSlot]
  rw [hslot, ← hdepth, ← hpicked]

theorem yield_swp (ht : t = .proc p) (hs : Scan t v) (hdepth : v.depth = 0)
    {Q : Unit → View np D → Prop}
    (hQ : ∀ c : Nap D → Fin np → Prop, (∀ w p, v.clear w p → c w p) →
      (∀ w p, c w p → v.clear w p ∨ v.owns w.lock) → Q () (v.know c)) :
    swp init t (yield p) Q v := by
  unfold yield
  refine swp_seq (acquire_proc_swp (hs.slot p) (fun x hx => swp_seq ?_))
  refine write_swp (v.slot_lockSlot_self p x) ⟨ht, (hx.self ht).1, hs.commit, ?_⟩
  refine swp_seq ?_
  refine sched_swp (x := (Write.yield : Write np D).apply 0 x) ht ?_ ?_ ?_ (Or.inl rfl) _
    (fun y hy _ => ?_)
  · exact update_self _ _ _
  · change v.depth + 1 = 1
    rw [hdepth]
  · exact hs.commit
  · rw [park_back _ _ (hs.slot p) hdepth hs.picked]
    refine hs.release_look (fun _ => hy) (hQ _ (fun w p hw => Or.inl hw) (fun w p hw => ?_))
    exact hw.imp_right (fun h => h.2.2)

/-! ### The killed flag -/

theorem killed_swp (ht : t = .proc p) (hs : Scan t v) {waits : Bool}
    {Q : Bool → View np D → Prop}
    (hQ : ∀ (b : Bool) (c : Nap D → Fin np → Prop), (∀ w p, v.clear w p → c w p) →
      (∀ w p, c w p → v.clear w p ∨ v.owns w.lock) →
      Q b { v with window := if waits then !b else v.window, clear := c }) :
    swp init t (killed p waits) Q v := by
  unfold killed
  refine swp_seq (acquire_proc_swp (hs.slot p) (fun x hx => swp_seq ?_))
  refine read_swp (v.slot_lockSlot_self p x) ?_
  cases waits with
  | true =>
    refine swp_if_pos rfl (swp_seq ((swp_issue (.window p (!x.killed)) _).mpr
      ⟨ht, fun hk => ⟨x, v.slot_lockSlot_self p x, ?_, hs.commit⟩, ?_⟩))
    · rw [Bool.not_eq_true'] at hk
      exact hk
    · have hs' : Scan t { v with window := !x.killed } :=
        ⟨hs.slot, hs.picked, hs.reaping, hs.commit, hs.self, hs.sched⟩
      refine swp_seq ?_
      refine hs'.release_look (fun h => (hx.self h).1) (swp_ret ?_)
      refine hQ x.killed _ (fun w p hw => Or.inl hw) (fun w p hw => ?_)
      refine hw.imp_right (fun h => ?_)
      have ho := h.2.2
      cases hl : (w.lock : Lock np) <;> rw [hl] at ho <;> exact ho
  | false =>
    refine swp_if_neg Bool.false_ne_true (swp_seq ?_)
    refine hs.release_look (fun h => (hx.self h).1) (swp_ret ?_)
    exact hQ x.killed _ (fun w p hw => Or.inl hw) (fun w p hw => hw.imp_right (fun h => h.2.2))

theorem setkilled_swp (ht : t = .proc p) (hs : Scan t v) (hwindow : v.window = false)
    {Q : Unit → View np D → Prop}
    (hQ : ∀ c : Nap D → Fin np → Prop, (∀ w p, v.clear w p → c w p) →
      (∀ w p, c w p → v.clear w p ∨ v.owns w.lock) → Q () (v.know c)) :
    swp init t (setkilled p) Q v := by
  unfold setkilled
  refine swp_seq (acquire_proc_swp (hs.slot p) (fun x hx => swp_seq ?_))
  refine write_swp (v.slot_lockSlot_self p x) ⟨ht, (hx.self ht).1, hs.commit, hwindow, ?_⟩
  refine hs.release_visit (fun h => (hx.self h).1)
    (hQ _ (fun w p hw => Or.inl hw) (fun w p hw => ?_))
  exact hw.imp_right (fun h => h.2.2)

/-- The loop of `kill`. It returns 0 when it has hit a process. -/
theorem killFrom_swp (pid : BitVec 32) (ps : List (Fin np)) (v : View np D) (hs : Scan t v)
    (Q : Int → View np D → Prop)
    (hhit : ∀ c : Nap D → Fin np → Prop, (∀ w p, v.clear w p → c w p) →
      (∀ w p, c w p → v.clear w p ∨ v.owns w.lock) →
      Q 0 { v with struck := some pid, clear := c })
    (hmiss : ∀ c : Nap D → Fin np → Prop, (∀ w p, v.clear w p → c w p) →
      (∀ w p, c w p → v.clear w p ∨ v.owns w.lock) → Q (-1) (v.know c)) :
    swp init t (killFrom pid ps) Q v := by
  induction ps generalizing v with
  | nil => exact swp_ret (hmiss v.clear (fun _ _ hw => hw) (fun _ _ hw => Or.inl hw))
  | cons q ps ih =>
    unfold killFrom
    refine swp_seq (acquire_proc_swp (hs.slot q) (fun x hx => swp_seq ?_))
    refine read_swp (v.slot_lockSlot_self q x) ?_
    by_cases hpid : x.pid = pid
    · refine swp_if_pos hpid (swp_seq ?_)
      refine write_swp (v.slot_lockSlot_self q x) ⟨hpid, fun _ => hs.commit, ?_⟩
      have hs' : Scan t { v with struck := some pid } :=
        ⟨hs.slot, hs.picked, hs.reaping, hs.commit, hs.self, hs.sched⟩
      refine swp_seq (hs'.release_visit (fun h => ?_) (swp_ret ?_))
      · -- The caller may be its own target; it goes on running.
        simp only [Write.apply, (hx.self h).1, reduceCtorEq, if_false]
      · refine hhit _ (fun w p hw => Or.inl hw) (fun w p hw => hw.imp_right (fun h => ?_))
        have ho := h.2.2
        cases hl : (w.lock : Lock np) <;> rw [hl] at ho <;> exact ho
    · refine swp_if_neg hpid (swp_seq ?_)
      refine hs.release_look (fun h => (hx.self h).1) ?_
      have hup : ∀ w p, (v.clear w p ∨ (p = q ∧ x.nap ≠ some w ∧ v.owns w.lock)) →
          v.clear w p ∨ v.owns w.lock := fun w p hw => hw.imp_right (fun h => h.2.2)
      refine ih _ (hs.know _) (fun c h₁ h₂ => ?_) (fun c h₁ h₂ => ?_)
      · refine hhit c (fun w p hw => h₁ w p (Or.inl hw)) (fun w p hw => ?_)
        rcases h₂ w p hw with hw | ho
        · exact hup w p hw
        · exact Or.inr ((owns_know v _ _).mp ho)
      · refine hmiss c (fun w p hw => h₁ w p (Or.inl hw)) (fun w p hw => ?_)
        rcases h₂ w p hw with hw | ho
        · exact hup w p hw
        · exact Or.inr ((owns_know v _ _).mp ho)

theorem kill_swp {pid : BitVec 32} (hs : Scan t v) (hstruck : v.struck = none)
    {Q : Int → View np D → Prop}
    (hQ : ∀ (r : Int) (c : Nap D → Fin np → Prop), (∀ w p, v.clear w p → c w p) →
      (∀ w p, c w p → v.clear w p ∨ v.owns w.lock) → Q r (v.know c)) :
    swp init t (kill pid) Q v := by
  have hback : ∀ c, ({ v with struck := none, clear := c } : View np D) = v.know c := by
    intro c
    unfold know
    rw [hstruck]
  unfold kill
  refine swp_seq (killFrom_swp pid _ v hs _ (fun c h₁ h₂ => ?_) (fun c h₁ h₂ => ?_))
  · refine swp_seq ((swp_issue (.returned pid 0) _).mpr ⟨fun _ => rfl, ?_⟩)
    refine swp_ret ?_
    have := hQ 0 c h₁ h₂
    rw [← hback] at this
    exact this
  · refine swp_seq ((swp_issue (.returned pid (-1)) _).mpr
      ⟨fun h0 => absurd h0 (by decide), ?_⟩)
    refine swp_ret ?_
    have := hQ (-1) c h₁ h₂
    rw [← hback] at this
    exact this

end Scan

/-! ### Processes with one lock -/

section Sleep

variable {np nc : Nat} {D : Type} {init p : Fin np} {b : Bool}
  {c : Nap D → Fin np → Prop}

namespace View

/-- A process in the kernel that holds the lock of a variable. -/
def inKey (p : Fin np) (k : Key) (x : k.Val D) (b : Bool)
    (c : Nap D → Fin np → Prop) : View np D :=
  { home p with
    key := update (fun _ => none) k (some x)
    depth := 1
    window := b
    clear := c }

/-- A process in the kernel that holds `wait_lock`. -/
def inTab (p : Fin np) (T : Table np) (b : Bool) (c : Nap D → Fin np → Prop) :
    View np D :=
  { home p with tab := some T, depth := 1, window := b, clear := c }

theorem scan_home : Scan (.proc p : Thread np nc) (home p : View np D) :=
  ⟨fun _ => rfl, rfl, rfl, rfl, fun _ h => by rw [Thread.proc.inj h]; rfl,
    nofun⟩

theorem scan_inKey {x : k.Val D} :
    Scan (.proc p : Thread np nc) (inKey p k x b c : View np D) :=
  ⟨fun _ => rfl, rfl, rfl, rfl, fun _ h => by rw [Thread.proc.inj h]; rfl,
    nofun⟩

theorem scan_inTab {T : Table np} :
    Scan (.proc p : Thread np nc) (inTab p T b c : View np D) :=
  ⟨fun _ => rfl, rfl, rfl, rfl, fun _ h => by rw [Thread.proc.inj h]; rfl,
    nofun⟩

theorem key_inKey {x : k.Val D} : (inKey p k x b c : View np D).key k = some x := by
  simp only [inKey, update_self]

theorem key_inKey_ne_none {x : k.Val D} :
    (inKey p k x b c : View np D).key k ≠ none := by
  rw [key_inKey]
  exact nofun

theorem setKey_inKey {x y : k.Val D} :
    (inKey p k x b c : View np D).setKey k y = inKey p k y b c := by
  unfold setKey inKey
  simp only [update_idem]

theorem owns_home (l : Lock np) : ¬(home p : View np D).owns l := by
  cases l with
  | proc q | wait => exact not_not_intro rfl
  | pid => exact Bool.false_ne_true
  | key k => exact not_not_intro rfl

theorem owns_inKey {x : k.Val D} {l : Lock np} :
    (inKey p k x b c : View np D).owns l ↔ l = .key k := by
  cases l with
  | key k' =>
    rw [Lock.key.injEq]
    refine (update_some_ne_none (fun k : Key => (none : Option (k.Val D))) k k' x).trans ?_
    exact ⟨fun h => h.resolve_right (fun hn => hn rfl), Or.inl⟩
  | proc q | wait =>
    refine ⟨fun h => absurd rfl h, fun h => ?_⟩
    exact nomatch h
  | pid =>
    refine ⟨fun h => absurd h Bool.false_ne_true, fun h => ?_⟩
    exact nomatch h

theorem owns_inTab {T : Table np} {l : Lock np} :
    (inTab p T b c : View np D).owns l ↔ l = .wait := by
  cases l with
  | wait =>
    refine ⟨fun _ => rfl, fun _ => ?_⟩
    change some T ≠ none
    exact nofun
  | proc q =>
    refine ⟨fun h => absurd rfl h, fun h => ?_⟩
    exact nomatch h
  | pid =>
    refine ⟨fun h => absurd h Bool.false_ne_true, fun h => ?_⟩
    exact nomatch h
  | key k =>
    refine ⟨fun h => absurd rfl h, fun h => ?_⟩
    exact nomatch h

theorem know_home (hc : ∀ w q, c w q → (home p : View np D).clear w q ∨
    (home p : View np D).owns w.lock) : (home p : View np D).know c = home p := by
  have hclear : c = fun _ _ => False := by
    funext w q
    refine propext ⟨fun h => ?_, False.elim⟩
    rcases hc w q h with hw | ho
    · exact hw
    · exact owns_home _ ho
  rw [hclear]
  rfl

theorem lockKey_home (k : Key) (x : k.Val D) : (home p : View np D).lockKey k x =
    inKey p k x false (fun w _ => w.readyAt k x) := by
  have hclear : (fun (w : Nap D) (_ : Fin np) => False ∨ w.readyAt k x) =
      fun w _ => w.readyAt k x := by
    simp only [false_or]
  unfold inKey
  rw [← hclear]
  rfl

theorem lockTab_home (T : Table np) : (home p : View np D).lockTab T =
    inTab p T false (fun w q => w = .wait ∧ T.Ready q) := by
  have hclear : (fun w q => False ∨ (w = .wait ∧ T.Ready q)) =
      fun (w : Nap D) q => w = .wait ∧ T.Ready q := by
    simp only [false_or]
  unfold inTab
  rw [← hclear]
  rfl

theorem unlockKey_inKey {x : k.Val D} (hc : ∀ w q, c w q → (w.lock : Lock np) = .key k) :
    (inKey p k x false c).unlockKey k = home p := by
  have hkey : update (update (fun k : Key => (none : Option (k.Val D))) k (some x))
      k none = fun _ => none := by
    rw [update_idem]
    exact update_eq_self k (fun k : Key => (none : Option (k.Val D)))
  have hclear : (fun w q => c w q ∧ (w.lock : Lock np) ≠ .key k) = fun _ _ => False := by
    funext w q
    exact propext ⟨fun h => h.2 (hc w q h.1), False.elim⟩
  unfold unlockKey inKey
  simp only [hkey, hclear]
  rfl

theorem unlockTab_inTab {T : Table np} (hc : ∀ w q, c w q → w = .wait) :
    (inTab p T false c).unlockTab = home p := by
  have hclear : (fun w q => c w q ∧ w ≠ .wait) = fun (_ : Nap D) (_ : Fin np) => False := by
    funext w q
    exact propext ⟨fun h => h.2 (hc w q h.1), False.elim⟩
  unfold unlockTab inTab
  simp only [hclear]
  rfl

end View

theorem sleep_tail_swp (w : Nap D) (lk : Lock np) {x : Slot np D} (hx : x.state = .running)
    (Q : Unit → View np D → Prop)
    (hQ : swp init (.proc p : Thread np nc) (acquire lk) Q (home p)) :
    swp init (.proc p : Thread np nc) (do
      write p (.sleep (w.chan p))
      sched p
      write p .tidy
      release (.proc p)
      acquire lk) Q { (home p).lockSlot p x with commit := some w } := by
  refine swp_seq (write_swp (x := x) (update_self _ _ _) ⟨rfl, hx, ⟨w, rfl, rfl⟩, rfl, ?_⟩)
  refine swp_seq ?_
  refine sched_swp (x := (Write.sleep (w.chan p) : Write np D).apply 0 x) rfl ?_ rfl rfl
    (Or.inr rfl) _ (fun y hy _ => ?_)
  · exact update_self _ _ _
  · refine swp_seq ?_
    have hback : park { ({ (home p).lockSlot p x with commit := some w } :
        View np D).setSlot p ((Write.sleep (w.chan p) : Write np D).apply 0 x) with
        commit := none } p = home p :=
      park_back (v := home p) x _ rfl rfl rfl
    rw [hback]
    refine write_swp (slot_lockSlot_self _ p y) ⟨rfl, hy, rfl, ?_⟩
    refine swp_seq ?_
    refine scan_home.release_visit (fun _ => hy) ?_
    rw [know_home]
    · exact hQ
    · exact fun w q hw => hw.imp_right (fun h => h.2.2)

/-- `sleep` with the lock of a variable: the lock is held again, and the variable
    may have changed. -/
theorem sleep_key_swp {y : k.Val D} {w : Nap D} (hl : (w.lock : Lock np) = .key k)
    (hnot : ¬w.readyAt k y) (hready : ∀ w' q, w'.readyAt k y → c w' q)
    (hup : ∀ w' q, c w' q → (w'.lock : Lock np) = .key k) (hkill : w.killable = true → b = true)
    {Q : Unit → View np D → Prop}
    (hQ : ∀ y', Q () (inKey p k y' false (fun w' _ => w'.readyAt k y'))) :
    swp init (.proc p : Thread np nc) (sleep p (w.chan p) (.key k) w) Q
      (inKey p k y b c) := by
  have hkey : (inKey p k y b c).key k = some y := key_inKey
  unfold sleep
  refine swp_seq (acquire_proc_swp rfl (fun x hx => swp_seq ?_))
  refine write_swp (slot_lockSlot_self _ p x) ⟨rfl, (hx.self rfl).1, rfl,
    Or.inl ⟨k, y, hl, hkey, hnot⟩, hkill, ?_⟩
  refine swp_seq ((swp_issue (.window p false) _).mpr
    ⟨rfl, fun h => absurd h Bool.false_ne_true, ?_⟩)
  refine swp_seq ?_
  refine release_key_swp (x := y) hkey
    (nofun) (fun w' q hw => ?_) ?_
  · -- The process itself does not sleep for what has come.
    refine ⟨hready w' q hw, fun _ he => hnot ?_⟩
    rw [← he]
    exact hw
  · have hback : unlockKey { ({ ((inKey p k y b c).lockSlot p x).setSlot p
        ((Write.commit w : Write np D).apply 0 x) with
          commit := some w
          clear := fun w' q => c w' q ∧ (q = p → w' ≠ w) } : View np D) with window := false } k =
        { (home p).lockSlot p ((Write.commit w : Write np D).apply 0 x) with
          commit := some w } := by
      have h₁ := unlockKey_inKey (p := p) (x := y)
        (c := fun w' q => c w' q ∧ (q = p → w' ≠ w)) (fun w' q hw => hup w' q hw.1)
      have h₂ : update (update (fun _ : Fin np => (none : Option (Slot np D))) p
          (some x)) p (some ((Write.commit w : Write np D).apply 0 x)) =
          update (fun _ => none) p (some ((Write.commit w : Write np D).apply 0 x)) :=
        update_idem _ _ _
      have hk := congrArg key h₁
      have hc := congrArg clear h₁
      unfold unlockKey at hk hc ⊢
      simp only [setSlot, lockSlot, inKey, home, idle] at hk hc h₂ ⊢
      rw [hk, hc, h₂]
    refine swp_of_eq _ hback ?_
    refine sleep_tail_swp (x := (Write.commit w : Write np D).apply 0 x) w (.key k)
      (hx.self rfl).1 Q ?_
    refine acquire_key_swp rfl (fun y' => ?_)
    rw [lockKey_home]
    exact hQ y'

theorem sleep_wait_swp {T : Table np} (hnot : ¬T.Ready p)
    (hready : ∀ q, T.Ready q → c .wait q) (hup : ∀ w' q, c w' q → w' = .wait)
    {Q : Unit → View np D → Prop}
    (hQ : ∀ T' : Table np, Q () (inTab p T' false (fun w q => w = .wait ∧ T'.Ready q))) :
    swp init (.proc p : Thread np nc) (sleep p (.proc p) .wait .wait) Q
      (inTab p T true c) := by
  unfold sleep
  refine swp_seq (acquire_proc_swp rfl (fun x hx => swp_seq ?_))
  refine write_swp (slot_lockSlot_self _ p x) ⟨rfl, (hx.self rfl).1, rfl,
    Or.inr ⟨rfl, T, rfl, hnot⟩, fun _ => rfl, ?_⟩
  refine swp_seq ((swp_issue (.window p false) _).mpr
    ⟨rfl, fun h => absurd h Bool.false_ne_true, ?_⟩)
  refine swp_seq ?_
  refine release_wait_swp (T := T) rfl rfl
    (nofun) (fun q hq => ?_) ?_
  · exact ⟨hready q hq, fun he _ => hnot (by rw [← he]; exact hq)⟩
  · have hback : unlockTab { ({ ((inTab p T true c).lockSlot p x).setSlot p
        ((Write.commit .wait : Write np D).apply 0 x) with
          commit := some .wait
          clear := fun w' q => c w' q ∧ (q = p → w' ≠ .wait) } : View np D) with window := false } =
        { (home p).lockSlot p ((Write.commit .wait : Write np D).apply 0 x) with
          commit := some .wait } := by
      have h₂ : update (update (fun _ : Fin np => (none : Option (Slot np D))) p
          (some x)) p (some ((Write.commit .wait : Write np D).apply 0 x)) =
          update (fun _ => none) p (some ((Write.commit .wait : Write np D).apply 0 x)) :=
        update_idem _ _ _
      have hc : (fun w' q => (c w' q ∧ (q = p → w' ≠ .wait)) ∧ w' ≠ .wait) =
          fun (_ : Nap D) (_ : Fin np) => False := by
        funext w' q
        exact propext ⟨fun h => h.2 (hup w' q h.1.1), False.elim⟩
      unfold unlockTab
      simp only [setSlot, lockSlot, inTab, home, idle] at h₂ ⊢
      rw [hc, h₂]
    refine swp_of_eq _ hback ?_
    refine sleep_tail_swp (x := (Write.commit .wait : Write np D).apply 0 x) .wait .wait
      (hx.self rfl).1 Q ?_
    refine acquire_wait_swp rfl (fun _ => rfl) (fun T' _ => ?_)
    rw [lockTab_home]
    exact hQ T'

end Sleep

end Xv6.Sched
