import Xv6.Sched.Writes
import Xv6.Sched.Waits

/-!
# Every Run Keeps the Invariant

The programs of all threads and the invariant of the machine together.

The thread that runs on a CPU can go on from its view. A scheduler that has
switched to a process waits for it to come back, and can go on when it gets the
lock of that process, in whatever state it is. A process without a CPU can go on
when a scheduler gives it its lock in the state `RUNNING`; this also holds of a
child that is not finished, once its thread has been prepared.

So every state of every run has views for which the invariant holds, and the only
panic is that of `init` when it exits.

## Main definitions

* `At`: The view of a thread at a label.
* `Sound`: The invariant of the system.

## Theorems

* `boot_sound`: It holds when the CPUs enter `scheduler`.
* `Reachable.sound`: It holds in every state of every run.
-/

namespace Xv6.Sched

open Function (update update_eq_self update_of_ne update_self)

section Track

variable {np nc : Nat} {D : Type} {init : Fin np} {t : Thread np nc}

/-- A child whose thread is prepared was so before the step, unless this is the
    step that prepares it. -/
def Tracked (cmd : Cmd np D) (v v' : View np D) : Prop :=
  ∀ p, v'.born = some p → v'.spawned = true →
    (v.born = some p ∧ v.spawned = true) ∨ cmd = .spawn p

theorem Tracked.same {cmd : Cmd np D} {v v' : View np D} (hb : v'.born = v.born)
    (hs : v'.spawned = v.spawned) : Tracked cmd v v' := by
  intro p hp hsp
  rw [hb] at hp
  rw [hs] at hsp
  exact Or.inl ⟨hp, hsp⟩

theorem move_tracked {v : View np D} {q : Fin np} {x : Slot np D} {w : Write np D}
    {Q : View np D → Prop} (h : Move init t v q x w Q) :
    Move init t v q x w (fun v' => Q v' ∧ Tracked (.write q w) v v') := by
  have hfree : ∀ {v' : View np D}, v'.spawned = false → Tracked (.write q w) v v' :=
    fun hs p _ hsp => by cases hs.symm.trans hsp
  cases w with
  | alloc pid => exact ⟨h.1, h.2.1, h.2.2.1, fun n => ⟨h.2.2.2 n, hfree rfl⟩⟩
  | free =>
    rcases h with ⟨ht, ⟨h₁, h₂, h₃, h₄⟩ | ⟨h₁, T, h₂, h₃, h₄⟩⟩
    · exact ⟨ht, Or.inl ⟨h₁, h₂, h₃, h₄, hfree rfl⟩⟩
    · exact ⟨ht, Or.inr ⟨h₁, T, h₂, h₃, h₄, Tracked.same rfl rfl⟩⟩
  | ready =>
    rcases h with ⟨h₁, h₂, h₃, h₄, h₅, h₆⟩
    exact ⟨h₁, h₂, h₃, h₄, h₅, h₆, hfree rfl⟩
  | exit status =>
    rcases h with ⟨h₁, h₂, h₃, h₄, T, h₅, h₆, h₇⟩
    exact ⟨h₁, h₂, h₃, h₄, T, h₅, h₆, h₇, Tracked.same rfl rfl⟩
  | run => exact ⟨h.1, h.2.1, h.2.2, Tracked.same rfl rfl⟩
  | yield => exact ⟨h.1, h.2.1, h.2.2.1, h.2.2.2, Tracked.same rfl rfl⟩
  | commit w =>
    rcases h with ⟨h₁, h₂, h₃, h₄, h₅, h₆⟩
    exact ⟨h₁, h₂, h₃, h₄, h₅, h₆, Tracked.same rfl rfl⟩
  | sleep ch =>
    rcases h with ⟨h₁, h₂, h₃, h₄, h₅⟩
    exact ⟨h₁, h₂, h₃, h₄, h₅, Tracked.same rfl rfl⟩
  | tidy => exact ⟨h.1, h.2.1, h.2.2.1, h.2.2.2, Tracked.same rfl rfl⟩
  | wake => exact ⟨h.1, h.2.1, h.2.2, Tracked.same rfl rfl⟩
  | kill pid => exact ⟨h.1, h.2.1, h.2.2, Tracked.same rfl rfl⟩
  | setkilled =>
    rcases h with ⟨h₁, h₂, h₃, h₄, h₅⟩
    exact ⟨h₁, h₂, h₃, h₄, h₅, Tracked.same rfl rfl⟩

theorem local_tracked {cmd : Cmd np D} {v : View np D} {Q : cmd.Ans → View np D → Prop}
    (hswtch : ∀ o, cmd ≠ .swtch o) (h : Local init t cmd v Q) :
    Local init t cmd v (fun a v' => Q a v' ∧ Tracked cmd v v') := by
  have same : Tracked cmd v v := Tracked.same rfl rfl
  cases cmd with
  | panic e => exact h
  | acquire l =>
    cases l with
    | proc q => exact ⟨h.1, fun x hx => ⟨h.2 x hx, Tracked.same rfl rfl⟩⟩
    | wait => exact ⟨h.1, h.2.1, fun T hT => ⟨h.2.2 T hT, Tracked.same rfl rfl⟩⟩
    | pid => exact ⟨h.1, h.2, Tracked.same rfl rfl⟩
    | key k => exact ⟨h.1, fun x => ⟨h.2 x, Tracked.same rfl rfl⟩⟩
  | release l =>
    cases l with
    | proc q =>
      rcases h with ⟨x, h₁, h₂, h₃⟩
      exact ⟨x, h₁, h₂, h₃, Tracked.same rfl rfl⟩
    | wait =>
      rcases h with ⟨h₁, h₂, T, h₃, h₄, h₅⟩
      exact ⟨h₁, h₂, T, h₃, h₄, h₅, Tracked.same rfl rfl⟩
    | pid => exact ⟨h.1, h.2.1, h.2.2, Tracked.same rfl rfl⟩
    | key k =>
      rcases h with ⟨h₁, x, h₂, h₃, h₄⟩
      exact ⟨h₁, x, h₂, h₃, h₄, Tracked.same rfl rfl⟩
  | holding l => exact ⟨fun ho => ⟨h.1 ho, same⟩, fun ho => ⟨h.2 ho, same⟩⟩
  | noff => exact ⟨h, same⟩
  | cpuid => exact fun n => ⟨h n, same⟩
  | myproc => exact ⟨h, Tracked.same rfl rfl⟩
  | setProc o => exact ⟨h.1, h.2.1, h.2.2, Tracked.same rfl rfl⟩
  | read q =>
    rcases h with ⟨x, h₁, h₂⟩ | ⟨h₁, h₂, h₃⟩
    · exact Or.inl ⟨x, h₁, h₂, same⟩
    · exact Or.inr ⟨h₁, h₂, fun x hx => ⟨h₃ x hx, same⟩⟩
  | dump q => exact ⟨h.1, fun x => ⟨h.2 x, same⟩⟩
  | write q w =>
    rcases h with ⟨x, hx, hm⟩
    exact ⟨x, hx, move_tracked hm⟩
  | parent q =>
    rcases h with ⟨T, h₁, h₂⟩
    exact ⟨T, h₁, h₂, same⟩
  | setParent q o =>
    cases o with
    | none =>
      rcases h with ⟨h₁, h₂, h₃, h₄⟩ | ⟨h₁, T, h₂, h₃⟩
      · exact Or.inl ⟨h₁, h₂, h₃, h₄, same⟩
      · exact Or.inr ⟨h₁, T, h₂, h₃, Tracked.same rfl rfl⟩
    | some r =>
      rcases h with ⟨T, hT, ⟨h₁, h₂, h₃, h₄, h₅⟩ | ⟨h₁, h₂, h₃, h₄⟩⟩
      · exact ⟨T, hT, Or.inl ⟨h₁, h₂, h₃, h₄, h₅, Tracked.same rfl rfl⟩⟩
      · exact ⟨T, hT, Or.inr ⟨h₁, h₂, h₃, h₄, Tracked.same rfl rfl⟩⟩
  | nextpid => exact ⟨h.1, fun n => ⟨h.2 n, same⟩⟩
  | setNextpid n => exact ⟨h.1, h.2, same⟩
  | get k =>
    rcases h with ⟨x, h₁, h₂⟩
    exact ⟨x, h₁, h₂, same⟩
  | set k x => exact ⟨h.1, h.2, Tracked.same rfl rfl⟩
  | swtch o => exact absurd rfl (hswtch o)
  | spawn q =>
    refine ⟨h.1, h.2.1, h.2.2.1, h.2.2.2, fun p hp _ => Or.inr ?_⟩
    rw [Option.some.inj (h.2.1.symm.trans hp)]
  | flip => exact fun b => ⟨h b, same⟩
  | copyout p status => exact fun b => ⟨h b, same⟩
  | trap => exact fun tr => ⟨h tr, same⟩
  | window p b => exact ⟨h.1, h.2.1, h.2.2, Tracked.same rfl rfl⟩
  | rude i => exact ⟨h.1, h.2, Tracked.same rfl rfl⟩
  | reaped q p e =>
    rcases h with ⟨h₁, h₂, h₃, h₄, h₅, h₆⟩
    exact ⟨h₁, h₂, h₃, h₄, h₅, h₆, Tracked.same rfl rfl⟩
  | returned pid n => exact ⟨h.1, h.2, Tracked.same rfl rfl⟩

/-- A write revives nobody but a child whose thread is prepared. -/
theorem move_alive {v : View np D} {q : Fin np} {x : Slot np D} {w : Write np D}
    {Q : View np D → Prop} (h : Move init t v q x w Q) {n : Nat}
    (halive : (w.apply n x).state.alive = true) :
    x.state.alive = true ∨ (v.born = some q ∧ v.spawned = true) := by
  cases w with
  | alloc pid | free => exact nomatch halive
  | ready => exact Or.inr ⟨h.2.2.1, h.2.2.2.2.1⟩
  | exit status => exact nomatch halive
  | run | yield => exact Or.inl (by rw [h.2.1]; rfl)
  | commit w => exact Or.inl halive
  | sleep ch => exact Or.inl (by rw [h.2.1]; rfl)
  | tidy => exact Or.inl halive
  | wake => exact Or.inl (by rw [h.2.1]; rfl)
  | kill pid => exact Or.inl ((Inv.mild_kill n pid).alive ▸ halive)
  | setkilled => exact Or.inl halive

end Track

section System

variable {np nc : Nat} {D : Type} {init : Fin np}

theorem swp_act {α : Type} {t : Thread np nc} {v : View np D} (cmd : Cmd np D)
    (k : cmd.Ans → P np D α) (Q : α → View np D → Prop) :
    swp init t (.act cmd k) Q v ↔ Local init t cmd v (fun a v' => swp init t (k a) Q v') := by
  unfold swp
  exact Iff.rfl

theorem perform_frame {c : Fin nc} {i : Input D} {cmd : Cmd np D} {m : Machine np nc D}
    (hswtch : ∀ o, cmd ≠ .swtch o) {r : cmd.Ans × Machine np nc D}
    (h : perform c i cmd m = .done r) :
    r.2.on = m.on ∧ ((∃ q w, cmd = .write q w ∧ r.2 = m.write q w) ∨ r.2.slot = m.slot) := by
  cases cmd with
  | panic e => exact nomatch h
  | acquire l =>
    change (m.acquire c l >>= fun m' => pure ((), m')) = .done r at h
    unfold Machine.acquire at h
    cases hl : m.lock l with
    | none =>
      rw [hl] at h
      rw [← Outcome.done.inj h]
      exact ⟨rfl, Or.inr rfl⟩
    | some c' =>
      rw [hl] at h
      by_cases hc : c' = c
      · simp only [if_pos hc] at h
        exact nomatch h
      · simp only [if_neg hc] at h
        exact nomatch h
  | release l =>
    rcases (Outcome.bind_eq_done (m.release c l) (fun m' => pure ((), m')) r).mp h with ⟨m', h', h⟩
    unfold Machine.release at h'
    rw [← Outcome.done.inj h, ← Outcome.done.inj (Outcome.of_check (Outcome.of_check h').2).2]
    exact ⟨rfl, Or.inr rfl⟩
  | write q w =>
    rw [← Outcome.done.inj h]
    exact ⟨rfl, Or.inl ⟨q, w, rfl, rfl⟩⟩
  | swtch o => exact absurd rfl (hswtch o)
  | _ =>
    rw [← Outcome.done.inj h]
    exact ⟨rfl, Or.inr rfl⟩

/-! ### The invariant -/

/-- The view of a thread at a label. -/
def At : Thread np nc → Label D → View np D → Prop
  | .proc p, l, v => Ends p l v
  | .sched _, _, v => v = .idle

/-- A process that a scheduler may switch to, now or later. -/
def Startable (m : Machine np nc D) (W : Thread np nc → View np D) (p : Fin np) : Prop :=
  (m.slot p).state.alive = true ∨ ∃ t, (W t).born = some p ∧ (W t).spawned = true

/-- The invariant of the system: the views satisfy that of the machine, and every
    thread can go on from its view. -/
structure Sound (init : Fin np) (x : System np nc D) (W : Thread np nc → View np D) : Prop where
  inv : Inv init x.m W
  cur : ∀ c, swp init (x.m.cur c) (x.rest (x.m.cur c)) (At (x.m.cur c)) (W (x.m.cur c))
  back : ∀ c p, x.m.on c = some p → ∀ y : Slot np D, y.state ≠ .running → NapOk p y →
    swp init (.sched c) (x.rest (.sched c)) (At (.sched c : Thread np nc))
      ((W (.sched c)).lockSlot p y)
  go : ∀ p, (∀ c, x.m.on c ≠ some p) → Startable x.m W p →
    ∀ y : Slot np D, y.state = .running → y.nap = none →
      swp init (.proc p : Thread np nc) (x.rest (.proc p)) (At (.proc p : Thread np nc))
        ((W (.proc p)).lockSlot p y)

namespace Sound

variable {x : System np nc D} {W : Thread np nc → View np D}

/-- The scheduler of a CPU that runs a process is not on a CPU. -/
theorem sched_ne_cur {m : Machine np nc D} {c c' : Fin nc} {p : Fin np} (h : m.on c' = some p) :
    Thread.sched c' ≠ m.cur c := by
  intro he
  rcases Machine.off_of_cur he.symm with ⟨hoff, hcc⟩
  rw [← hcc, h] at hoff
  exact nomatch hoff

theorem proc_ne_cur {m : Machine np nc D} {c : Fin nc} {p : Fin np} (h : ∀ c, m.on c ≠ some p) :
    Thread.proc p ≠ m.cur c :=
  fun he => h c (Machine.on_of_cur he.symm)

variable (h : Sound init x W)

include h

theorem stay (c : Fin nc) (m' : Machine np nc D) (v' : View np D)
    (rest' : Thread np nc → P np D (Label D)) (hinv : Inv init m' (update W (x.m.cur c) v'))
    (hon : m'.on = x.m.on) (hcur : swp init (x.m.cur c) (rest' (x.m.cur c)) (At (x.m.cur c)) v')
    (hrest : ∀ t, t ≠ x.m.cur c → (∀ p, t = .proc p → ∃ c', x.m.on c' = some p) →
      rest' t = x.rest t)
    (hgo : ∀ p, (∀ c', x.m.on c' ≠ some p) → Startable m' (update W (x.m.cur c) v') p →
      (rest' (.proc p) = x.rest (.proc p) ∧ Startable x.m W p) ∨
        ∀ y : Slot np D, y.state = .running → y.nap = none →
          swp init (.proc p : Thread np nc) (rest' (.proc p)) (At (.proc p : Thread np nc))
            ((W (.proc p)).lockSlot p y)) :
    Sound init { m := m', rest := rest' } (update W (x.m.cur c) v') := by
  have hcm : m'.cur = x.m.cur := Machine.cur_congr hon
  refine ⟨hinv, fun c' => ?_, fun c' p hp y hy hnap => ?_, fun p hp hs y hy hnap => ?_⟩
  · rw [hcm]
    by_cases hc : c' = c
    · rw [hc, update_self]
      exact hcur
    · have hne : x.m.cur c' ≠ x.m.cur c := fun he => hc (h.inv.inj c' he)
      rw [update_of_ne hne]
      change swp init _ (rest' _) _ _
      rw [hrest _ hne (fun p hp => ⟨c', Machine.on_of_cur hp⟩)]
      exact h.cur c'
  · have hp' : x.m.on c' = some p := by
      rw [← hon]
      exact hp
    have hne := sched_ne_cur (c := c) hp'
    rw [update_of_ne hne]
    change swp init _ (rest' _) _ _
    rw [hrest _ hne (nofun)]
    exact h.back c' p hp' y hy hnap
  · have hp' : ∀ c', x.m.on c' ≠ some p := fun c' => by
      rw [← hon]
      exact hp c'
    rw [update_of_ne (proc_ne_cur (c := c) hp')]
    rcases hgo p hp' hs with ⟨hsame, hold⟩ | hnew
    · change swp init _ (rest' _) _ _
      rw [hsame]
      exact h.go p hp' hold y hy hnap
    · exact hnew y hy hnap

theorem goOn (c : Fin nc) {prog : P np D (Label D)}
    (hprog : swp init (x.m.cur c) prog (At (x.m.cur c)) (W (x.m.cur c))) :
    Sound init { x with rest := update x.rest (x.m.cur c) prog } W := by
  have hsame : update W (x.m.cur c) (W (x.m.cur c)) = W := update_eq_self _ _
  have := h.stay c x.m (W (x.m.cur c)) (update x.rest (x.m.cur c) prog)
    (by rw [hsame]; exact h.inv) rfl ?_ (fun t ht _ => update_of_ne ht _ _)
    (fun p hp hs => Or.inl ⟨update_of_ne (proc_ne_cur hp) _ _, by
      rw [hsame] at hs
      exact hs⟩)
  · rw [hsame] at this
    exact this
  · rw [update_self]
    exact hprog

/-- A thread that has come to a label goes on with the program there. -/
theorem step_ret (c : Fin nc) (l : Label D) (hl : x.rest (x.m.cur c) = .ret l) :
    Sound init { x with
      rest := update x.rest (x.m.cur c) (code init (x.m.cur c) l) } W := by
  have hat : At (x.m.cur c) l (W (x.m.cur c)) := by
    have := h.cur c
    rw [hl] at this
    exact (swp_pure l _).mp this
  refine h.goOn c ?_
  cases ht : x.m.cur c with
  | proc p =>
    rw [ht] at hat
    exact code_swp hat
  | sched c' =>
    rw [ht] at hat
    rw [show W (.sched c') = .idle from hat]
    exact scheduler_swp rfl

theorem loose (c : Fin nc) (hoff : x.m.noff c = 0) :
    Loose (x.m.cur c) (W (x.m.cur c)) ∧ (W (x.m.cur c)).depth = 0 := by
  have hdepth : (W (x.m.cur c)).depth = 0 := by
    rw [← h.inv.owned.holds.noff c]
    exact hoff
  have hidle := h.inv.owned.holds.idle hdepth
  refine ⟨⟨⟨fun q => ?_, ?_, ?_, ?_, fun p hp => ?_, fun c' hc' => ?_⟩, ?_, fun k => ?_,
    fun w p hw => hidle _ (h.inv.naps.clear _ w p hw).1⟩, hdepth⟩
  · exact not_not.mp (hidle (.proc q))
  · cases hp : (W (x.m.cur c)).picked with
    | none => rfl
    | some q => exact absurd (h.inv.picked_ne_none hp) (hidle (.proc q))
  · cases hq : (W (x.m.cur c)).reaping with
    | none => rfl
    | some q => exact absurd (h.inv.tree.reaping _ q hq).1 (hidle .wait)
  · cases hw : (W (x.m.cur c)).commit with
    | none => rfl
    | some w =>
      rcases h.inv.naps.commit _ w hw with ⟨p, _, hs, _⟩
      exact absurd hs (hidle (.proc p))
  · rw [hp]
    exact h.inv.cpus.self p
  · have hc := (Machine.off_of_cur hc').2
    rw [hc] at hc'
    exact h.inv.idle hc' hdepth
  · exact not_not.mp (hidle .wait)
  · exact not_not.mp (hidle (.key k))

theorem step_intr (c : Fin nc) (i : Intr D) (hoff : x.m.noff c = 0) :
    Sound init { x with
      rest := update x.rest (x.m.cur c)
        (kerneltrap i >>= fun _ => x.rest (x.m.cur c)) } W := by
  rcases h.loose c hoff with ⟨hloose, hdepth⟩
  exact h.goOn c (swp_seq (kerneltrap_swp hloose hdepth i (h.cur c)))

omit h in
theorem forkret_swp (p : Fin np) {y : Slot np D} (hy : y.state = .running) :
    swp init (.proc p : Thread np nc) (forkret p) (At (.proc p : Thread np nc))
      ((View.home p).lockSlot p y) := by
  unfold forkret
  refine swp_seq (View.scan_home.release_look (fun _ => hy) ?_)
  rw [View.look_home]
  exact swp_ret rfl

theorem startable_step (c : Fin nc) {cmd : Cmd np D} {m' : Machine np nc D} {v' : View np D}
    {Q : cmd.Ans → View np D → Prop} (hloc : Local init (x.m.cur c) cmd (W (x.m.cur c)) Q)
    (hslot : (∃ q w, cmd = .write q w ∧ m' = x.m.write q w) ∨ m'.slot = x.m.slot)
    (htrack : Tracked cmd (W (x.m.cur c)) v') {p : Fin np} (hp : cmd ≠ .spawn p)
    (hs : Startable m' (update W (x.m.cur c) v') p) : Startable x.m W p := by
  rcases hs with halive | ⟨t, hborn, hspawned⟩
  · rcases hslot with ⟨q, w, hcmd, hm⟩ | hsame
    · subst hcmd
      rcases hloc with ⟨y, hy, hmove⟩
      by_cases hpq : p = q
      · rw [hm, hpq, Machine.write_slot_self, h.inv.owned.slot _ q y hy] at halive
        rw [hpq]
        rcases move_alive hmove halive with ha | hb
        · refine Or.inl ?_
          rw [h.inv.owned.slot _ q y hy]
          exact ha
        · exact Or.inr ⟨_, hb⟩
      · rw [hm, Machine.write_slot_of_ne _ _ hpq] at halive
        exact Or.inl halive
    · rw [hsame] at halive
      exact Or.inl halive
  · by_cases ht : t = x.m.cur c
    · rw [ht, update_self] at hborn hspawned
      rcases htrack p hborn hspawned with hold | hspawn
      · exact Or.inr ⟨_, hold⟩
      · exact absurd hspawn hp
    · rw [update_of_ne ht] at hborn hspawned
      exact Or.inr ⟨t, hborn, hspawned⟩

theorem spawned_child (c : Fin nc) {cmd : Cmd np D} {q : Fin np} {Q : cmd.Ans → View np D → Prop}
    (hloc : Local init (x.m.cur c) cmd (W (x.m.cur c)) Q) (hsp : cmd.spawned = some q) :
    x.m.cur c ≠ .proc q ∧ (∀ c', x.m.on c' ≠ some q) ∧ W (.proc q) = .home q := by
  cases cmd with
  | spawn q' =>
    rw [← Option.some.inj hsp]
    rcases hloc with ⟨hne, hborn, hown, _⟩
    have hused := (h.inv.tree.born _ q' hborn).1
    refine ⟨hne, fun c' => ?_, ?_⟩
    · cases hy : (W (x.m.cur c)).slot q' with
      | none => exact absurd hy hown
      | some y =>
        refine h.inv.cpus.off_cpu h.inv.owned hy hne ?_ c'
        rw [← h.inv.owned.slot _ q' y hy, hused]
        exact nofun
    · exact h.inv.cpus.dormant q' (h.inv.owned.slot_none hown hne.symm) (by rw [hused]; rfl)
  | _ => exact nomatch hsp

theorem step_act (c : Fin nc) (i : Input D) (cmd : Cmd np D) (k : cmd.Ans → P np D (Label D))
    (hrest : x.rest (x.m.cur c) = .act cmd k) (hswtch : ∀ o, cmd ≠ .swtch o) :
    Outcome.Meets (fun e => e = .initExiting)
      (fun r => ∃ W', Sound init { m := r.2, rest := x.resume (x.m.cur c) cmd (k r.1) } W')
      (perform c i cmd x.m) := by
  have hcur := h.cur c
  rw [hrest, swp_act] at hcur
  have hkept := h.inv.perform i cmd hswtch _ (local_tracked hswtch hcur)
  unfold Kept at hkept
  cases hr : perform c i cmd x.m with
  | wait => trivial
  | panic e =>
    rw [hr] at hkept
    exact hkept
  | done r =>
    rw [hr] at hkept
    rcases hkept with ⟨v', ⟨hk, htrack⟩, hinv⟩
    rcases perform_frame hswtch hr with ⟨hon, hslot⟩
    cases hsp : cmd.spawned with
    | none =>
      have hres : x.resume (x.m.cur c) cmd (k r.1) =
          update x.rest (x.m.cur c) (k r.1) := by
        simp only [System.resume, hsp]
      rw [Outcome.meets_done, hres]
      refine ⟨_, h.stay c r.2 v' _ hinv hon ?_ (fun t ht _ => update_of_ne ht _ _)
        (fun p hp hs => Or.inl ⟨update_of_ne (proc_ne_cur hp) _ _, ?_⟩)⟩
      · rw [update_self]
        exact hk
      · refine h.startable_step c hcur hslot htrack (fun he => ?_) hs
        rw [he] at hsp
        exact nomatch hsp
    | some q =>
      rcases h.spawned_child c hcur hsp with ⟨hne, hoff, hhome⟩
      have hres : x.resume (x.m.cur c) cmd (k r.1) = update
          (update x.rest (x.m.cur c) (k r.1)) (.proc q) (forkret q) := by
        simp only [System.resume, hsp]
      rw [Outcome.meets_done, hres]
      refine ⟨_, h.stay c r.2 v' _ hinv hon ?_ (fun t ht hcpu => ?_) (fun p hp hs => ?_)⟩
      · rw [update_of_ne hne, update_self]
        exact hk
      · have htq : t ≠ .proc q := fun he => by
          rcases hcpu q he with ⟨c', hc'⟩
          exact hoff c' hc'
        rw [update_of_ne htq, update_of_ne ht]
      · by_cases hpq : p = q
        · -- The new thread starts with the view of a process in user space.
          refine Or.inr (fun y hy _ => ?_)
          rw [hpq, update_self, hhome]
          exact forkret_swp q hy
        · have hpq' : (.proc p : Thread np nc) ≠ .proc q := fun he => hpq (Thread.proc.inj he)
          refine Or.inl ⟨?_, h.startable_step c hcur hslot htrack (fun he => ?_) hs⟩
          · rw [update_of_ne hpq', update_of_ne (proc_ne_cur hp)]
          · rw [he] at hsp
            exact hpq (Option.some.inj hsp)

theorem step_leave (c : Fin nc) (k : Unit → P np D (Label D))
    (hrest : x.rest (x.m.cur c) = .act (.swtch none) k) :
    ∃ W', Sound init
      { m := x.m.switch c none
        rest := update x.rest (x.m.cur c) (k ()) } W' := by
  have hcur := h.cur c
  rw [hrest] at hcur
  rcases (swp_act (.swtch none) k _).mp hcur with ⟨p, y, ht, hy, hdepth, hrun, hcommit, hnext⟩
  rw [ht] at hy hdepth hcommit hnext ⊢
  have hon := Machine.on_of_cur ht
  have hslot := h.inv.owned.slot _ p y hy
  have hhome : y.state.dormant = true → (W (.proc p)).park p = .home p := by
    intro hd
    rcases hnext with ⟨_, hh⟩ | ⟨hs, _⟩
    · exact hh
    · rcases hs with hs | hs <;> rw [hs] at hd <;> exact nomatch hd
  have hne : Thread.sched c ≠ Thread.proc p := nofun
  have hoff : (x.m.switch c none).on c = none := update_self _ _ _
  have hother : ∀ c', c' ≠ c → (x.m.switch c none).on c' = x.m.on c' :=
    fun c' hc' => update_of_ne hc' _ _
  refine ⟨switchViews W (.proc p) (.sched c) p y, h.inv.leave ht hy hdepth hcommit hhome,
    fun c' => ?_, fun c' q hq z hz hnap => ?_, fun q hq hs z hz hnap => ?_⟩
  · by_cases hc : c' = c
    · -- The scheduler gets the lock of the process.
      rw [hc, Machine.cur_of_off hoff, switchViews_new]
      dsimp only
      rw [update_of_ne hne]
      refine h.back c p hon y hrun ?_
      rw [← hslot]
      exact h.inv.naps.napOk hcommit
    · have h₁ : x.m.cur c' ≠ .proc p := fun he => hc (h.inv.inj c' (he.trans ht.symm))
      have h₂ : x.m.cur c' ≠ .sched c := fun he => hc (Machine.off_of_cur he).2.symm
      rw [Machine.cur_switch _ hc, switchViews_other h₁ h₂]
      dsimp only
      rw [update_of_ne h₁]
      exact h.cur c'
  · have hc : c' ≠ c := fun he => by
      rw [he] at hq
      exact nomatch (hoff.symm.trans hq)
    have h₁ : Thread.sched c' ≠ Thread.proc p := by
      exact nofun
    have h₂ : (Thread.sched c' : Thread np nc) ≠ .sched c := fun he => hc (Thread.sched.inj he)
    rw [switchViews_other h₁ h₂]
    dsimp only
    rw [update_of_ne h₁]
    exact h.back c' q ((hother c' hc).symm.trans hq) z hz hnap
  · by_cases hqp : q = p
    · -- The process that has left can come back, unless it has ended.
      rw [hqp] at hs ⊢
      rw [switchViews_old hne]
      dsimp only
      rw [update_self]
      rcases hnext with ⟨hzom, _⟩ | ⟨_, hgo⟩
      · exfalso
        rcases hs with halive | ⟨t, hb, _⟩
        · change (x.m.slot p).state.alive = true at halive
          rw [hslot, hzom] at halive
          exact Bool.false_ne_true halive
        · have hborn : (W t).born = some p := by
            rw [← hb]
            exact (switchViews_cases (fun t' u => (W t').born = u.born) hne rfl rfl
              (fun _ _ _ => rfl) t)
          have := (h.inv.tree.born t p hborn).1
          rw [hslot, hzom] at this
          exact nomatch this
      · exact hgo z hz hnap
    · have h₁ : (Thread.proc q : Thread np nc) ≠ .proc p := fun he => hqp (Thread.proc.inj he)
      have h₂ : Thread.proc q ≠ Thread.sched c := by
        exact nofun
      rw [switchViews_other h₁ h₂]
      dsimp only
      rw [update_of_ne h₁]
      refine h.go q (fun c' hc' => ?_) ?_ z hz hnap
      · by_cases hc : c' = c
        · rw [hc, hon, Option.some.injEq] at hc'
          exact hqp hc'.symm
        · exact hq c' ((hother c' hc).trans hc')
      · rcases hs with halive | ⟨t, hb, hsp⟩
        · exact Or.inl halive
        · have hall := switchViews_cases (fun t' u => (W t').born = u.born ∧
            (W t').spawned = u.spawned) (W := W) (q := p) (x := y) hne ⟨rfl, rfl⟩ ⟨rfl, rfl⟩
            (fun _ _ _ => ⟨rfl, rfl⟩) t
          exact Or.inr ⟨t, hall.1.trans hb, hall.2.trans hsp⟩

theorem step_enter (c : Fin nc) (q : Fin np) (k : Unit → P np D (Label D))
    (hrest : x.rest (x.m.cur c) = .act (.swtch (some q)) k) :
    ∃ W', Sound init
      { m := x.m.switch c (some q)
        rest := update x.rest (x.m.cur c) (k ()) } W' := by
  have hcur := h.cur c
  rw [hrest] at hcur
  rcases (swp_act (.swtch (some q)) k _).mp hcur with ⟨⟨c₀, ht⟩, hpick, hdepth, hcp, hnext⟩
  have ht' : x.m.cur c = .sched c := by rw [ht, (Machine.off_of_cur ht).2]
  rw [ht'] at hpick hdepth hcp hnext ⊢
  rcases h.inv.cpus.picked _ q hpick with ⟨_, ⟨y, hy, hrun⟩, hoffq⟩
  have hslot := h.inv.owned.slot _ q y hy
  have hne : Thread.proc q ≠ Thread.sched c := nofun
  have hself : (x.m.switch c (some q)).on c = some q := update_self _ _ _
  have hother : ∀ c', c' ≠ c → (x.m.switch c (some q)).on c' = x.m.on c' :=
    fun c' hc' => update_of_ne hc' _ _
  have hnap : y.nap = none := by
    refine h.inv.naps.nap_none h.inv.owned hy (fun he => absurd he hne.symm) ?_
    rw [hrun]
    exact nofun
  refine ⟨switchViews W (.sched c) (.proc q) q y, h.inv.enter ht' hy hpick hdepth hcp,
    fun c' => ?_, fun c' p hp z hz hnap' => ?_, fun p hp hs z hz hnap' => ?_⟩
  · by_cases hc : c' = c
    · -- The process gets its own lock.
      rw [hc, Machine.cur_of_on hself, switchViews_new]
      dsimp only
      rw [update_of_ne hne]
      refine h.go q hoffq (Or.inl ?_) y hrun hnap
      rw [hslot, hrun]
      rfl
    · have h₁ : x.m.cur c' ≠ .sched c := fun he => hc (h.inv.inj c' (he.trans ht'.symm))
      have h₂ : x.m.cur c' ≠ .proc q := fun he => hoffq c' (Machine.on_of_cur he)
      rw [Machine.cur_switch _ hc, switchViews_other h₁ h₂]
      dsimp only
      rw [update_of_ne h₁]
      exact h.cur c'
  · by_cases hc : c' = c
    · rw [hc] at hp ⊢
      rw [← Option.some.inj (hself.symm.trans hp)] at hnap' ⊢
      rw [switchViews_old hne]
      dsimp only
      rw [update_self]
      exact hnext z hz hnap'
    · have h₁ : (Thread.sched c' : Thread np nc) ≠ .sched c := fun he => hc (Thread.sched.inj he)
      have h₂ : Thread.sched c' ≠ Thread.proc q := by
        exact nofun
      rw [switchViews_other h₁ h₂]
      dsimp only
      rw [update_of_ne h₁]
      exact h.back c' p ((hother c' hc).symm.trans hp) z hz hnap'
  · have hpq : p ≠ q := fun he => hp c (by rw [he]; exact hself)
    have h₁ : Thread.proc p ≠ Thread.sched c := by
      exact nofun
    have h₂ : (Thread.proc p : Thread np nc) ≠ .proc q := fun he => hpq (Thread.proc.inj he)
    rw [switchViews_other h₁ h₂]
    dsimp only
    rw [update_of_ne h₁]
    refine h.go p (fun c' hc' => ?_) ?_ z hz hnap'
    · by_cases hc : c' = c
      · rw [hc, (Machine.off_of_cur ht').1] at hc'
        exact nomatch hc'
      · exact hp c' ((hother c' hc).trans hc')
    · rcases hs with halive | ⟨t, hb, hsp⟩
      · exact Or.inl halive
      · have hall := switchViews_cases (fun t' u => (W t').born = u.born ∧
          (W t').spawned = u.spawned) (W := W) (q := q) (x := y) hne ⟨rfl, rfl⟩ ⟨rfl, rfl⟩
          (fun _ _ _ => ⟨rfl, rfl⟩) t
        exact Or.inr ⟨t, hall.1.trans hb, hall.2.trans hsp⟩

theorem step (e : Event nc D) :
    Outcome.Meets (fun e => e = .initExiting) (fun y => ∃ W', Sound init y W')
      (step init x e) := by
  cases e with
  | cpu c i =>
    cases hr : x.rest (x.m.cur c) with
    | ret l =>
      simp only [Sched.step, hr]
      exact ⟨W, h.step_ret c l hr⟩
    | act cmd k =>
      simp only [Sched.step, hr]
      by_cases hswtch : ∀ o, cmd ≠ .swtch o
      · refine (Outcome.meets_bind _ (perform c i cmd x.m) _).mpr ?_
        exact h.step_act c i cmd k hr hswtch
      · have hex : ∃ o, cmd = .swtch o := by
          by_contra hc
          exact hswtch (fun o ho => hc ⟨o, ho⟩)
        rcases hex with ⟨o, rfl⟩
        cases o with
        | none => exact h.step_leave c k hr
        | some q => exact h.step_enter c q k hr
  | intr c i =>
    simp only [Sched.step]
    by_cases hn : x.m.noff c = 0
    · rw [if_pos hn]
      exact ⟨W, h.step_intr c i hn⟩
    · rw [if_neg hn]
      trivial

end Sound

/-! ### The beginning -/

/-- The views in the beginning. -/
def bootView : Thread np nc → View np D
  | .proc p => .home p
  | .sched _ => .idle

theorem bootView_owns (t : Thread np nc) (l : Lock np) : ¬(bootView t : View np D).owns l := by
  cases t with
  | proc p => exact View.owns_home l
  | sched c =>
    cases l with
    | proc q | wait => exact not_not_intro rfl
    | pid => exact Bool.false_ne_true
    | key k => exact not_not_intro rfl

theorem bootSlot_state (D : Type) (init p : Fin np) :
    ((bootSlot init p : Slot np D).state = .runnable ∧ p = init) ∨
    ((bootSlot init p : Slot np D).state = .unused ∧ p ≠ init) := by
  unfold bootSlot
  by_cases hp : p = init
  · rw [if_pos hp]
    exact Or.inl ⟨rfl, hp⟩
  · rw [if_neg hp]
    exact Or.inr ⟨rfl, hp⟩

theorem bootSlot_fresh (p : Fin np) : (bootSlot init p : Slot np D).nap = none ∧
    (bootSlot init p : Slot np D).killed = false ∧ (bootSlot init p : Slot np D).inc = 0 ∧
    ((bootSlot init p : Slot np D).state = .unused → (bootSlot init p : Slot np D).pid = 0) := by
  unfold bootSlot
  by_cases hp : p = init
  · rw [if_pos hp]
    exact ⟨rfl, rfl, rfl, nofun⟩
  · rw [if_neg hp]
    exact ⟨rfl, rfl, rfl, fun _ => rfl⟩

theorem boot_inv (b : Start D) : Inv init (boot init b : System np nc D).m bootView := by
  have hnone : ∀ {α : Type} {a : α}, (none : Option α) ≠ some a := by
    simp only [ne_eq, reduceCtorEq, not_false_eq_true, implies_true]
  have hnil : ∀ {α : Type} {a : α} {P : Prop}, a ∈ ([] : List α) → P :=
    fun h => absurd h List.not_mem_nil
  have hborn : ∀ t : Thread np nc, (bootView t : View np D).born = none := by
    intro t
    cases t <;> rfl
  have hreap : ∀ t : Thread np nc, (bootView t : View np D).reaping = none := by
    intro t
    cases t <;> rfl
  have hcommit : ∀ t : Thread np nc, (bootView t : View np D).commit = none := by
    intro t
    cases t <;> rfl
  have hpicked : ∀ t : Thread np nc, (bootView t : View np D).picked = none := by
    intro t
    cases t <;> rfl
  have hclear : ∀ (t : Thread np nc) w p, ¬(bootView t : View np D).clear w p := by
    intro t
    cases t <;> exact fun _ _ => id
  have hstruck : ∀ t : Thread np nc, (bootView t : View np D).struck = none := by
    intro t
    cases t <;> rfl
  have hinit : (bootSlot init init : Slot np D).state = .runnable := by
    rcases bootSlot_state D init init with h | h
    · exact h.1
    · exact absurd rfl h.2
  have hzom : ∀ q, (bootSlot init q : Slot np D).state ≠ .zombie := by
    intro q
    rcases bootSlot_state D init q with h | h <;> rw [h.1] <;>
      rintro ⟨⟩
  refine ⟨⟨⟨fun l c => ?_, fun c c' h => Thread.sched.inj h, fun t _ => ?_, fun c => rfl,
    fun t => ?_⟩, fun t q y hy => ?_, fun t T hT => ?_, fun t k y hy => ?_⟩,
    ⟨fun c => rfl, fun p => rfl, fun c _ _ => rfl, fun c p h => absurd h hnone,
      fun c p h => absurd h hnone, fun t q h => ?_, fun p _ _ => rfl⟩,
    ⟨?_, fun q r h => absurd h hnone, fun q _ => ?_, fun q _ => rfl, fun t q h => ?_,
      fun t t' q h => ?_, fun t q h => ?_⟩,
    ⟨fun q _ => ?_, fun q r hq hr _ => ?_, fun _ => hnil, List.nodup_nil,
      fun q h => absurd h (hzom q), fun _ _ _ _ => hnil, fun _ => hnil, List.nodup_nil,
      fun _ => hnil⟩,
    ⟨fun p h => ?_, fun p w h => ?_, fun t w h => ?_, fun t w p h => absurd h (hclear t w p),
      fun w p _ h => ?_⟩,
    ⟨fun p => rfl, fun _ p h => absurd h Bool.false_ne_true, fun _ p w h => ?_,
      fun q => (bootSlot_fresh q).2.2.2, fun _ q _ => (bootSlot_fresh q).2.1, fun _ q h => ?_,
      fun _ => hnil, fun _ => hnil, fun t pid h => ?_⟩⟩
  · exact ⟨fun h => absurd h hnone, fun h => absurd h (bootView_owns _ l)⟩
  · cases t <;> rfl
  · refine ⟨[], List.nodup_nil, by cases t <;> rfl, fun l => ?_⟩
    exact ⟨fun h => absurd h (bootView_owns t l), hnil⟩
  · cases t <;> exact absurd hy hnone
  · cases t <;> exact absurd hT hnone
  · cases t <;> exact absurd hy hnone
  · rw [hpicked] at h
    exact absurd h hnone
  · change (bootSlot init init : Slot np D).state.alive = true
    rw [hinit]
    rfl
  · rcases bootSlot_state D init q with h | h
    · exact Or.inl h.2
    · exact Or.inr (Or.inl h.1)
  · rw [hborn] at h
    exact absurd h hnone
  · rw [hborn] at h
    exact absurd h hnone
  · rw [hreap] at h
    exact absurd h hnone
  · change (bootSlot init q : Slot np D).inc < 1
    rw [(bootSlot_fresh q).2.2.1]
    exact Nat.one_pos
  · rcases bootSlot_state D init q with h | h
    · rcases bootSlot_state D init r with h' | h'
      · rw [h.2, h'.2]
      · exact absurd h'.1 hr
    · exact absurd h.1 hq
  · rcases bootSlot_state D init p with h' | h'
    · cases h'.1.symm.trans h
    · cases h'.1.symm.trans h
  · exact absurd ((bootSlot_fresh p).1.symm.trans h) hnone
  · rw [hcommit] at h
    exact absurd h hnone
  · exact absurd ((bootSlot_fresh p).1.symm.trans h) hnone
  · exact absurd ((bootSlot_fresh p).1.symm.trans h) hnone
  · cases (bootSlot_fresh q).2.1.symm.trans h
  · rw [hstruck] at h
    exact absurd h hnone

/-- The invariant holds when the CPUs enter `scheduler`. -/
theorem boot_sound (b : Start D) : Sound init (boot init b : System np nc D) bootView := by
  refine ⟨boot_inv b, fun c => ?_, fun c p h => ?_, fun p _ _ y hy _ => ?_⟩
  · exact (swp_pure (Label.sched : Label D) _).mpr rfl
  · exact absurd h (by
      change ¬((none : Option (Fin np)) = some p)
      simp only [reduceCtorEq, not_false_eq_true])
  · exact Sound.forkret_swp p hy

theorem Reachable.sound {b : Start D} {x : System np nc D} (h : Reachable init b x) :
    ∃ W, Sound init x W := by
  rcases h with ⟨es, hes⟩
  refine runs_invariant (Sched.step init) (fun y => ∃ W, Sound init y W) (fun y e z hy hz => ?_) es
    _ x ⟨bootView, boot_sound b⟩ hes
  rcases hy with ⟨W, hW⟩
  have := hW.step e
  rw [hz] at this
  exact this

end System

end Xv6.Sched
