import Xv6.Sched.Sleepers

/-!
# Processes from Fork to Wait

What holds of the process table in every state of every run.

`one_cpu_per_process` is about the CPUs. A process changes its state before it
gives up the CPU, so the state alone does not keep a second CPU from taking it.
What does is its lock, which goes with the process into the scheduler.
`locks_counted` and `accesses_guarded` say that locks are used as they should be.

`process_tree` is about parents. A process that exits passes on its children and
wakes its parent before it is a zombie, all under `wait_lock`, and so nobody who
finds this lock free finds an orphan, or a parent that sleeps beside a dead child.

`kill_hits_target` is about `kill`. The slots that are free have pid 0, and `kill`
does not test the state.

## Main definitions

* `Reaps`, `Delivers`: What a program copies out and records, when it is `wait`.
* `Strikes`: The slots that a program writes to, when it is `kill`.

## Theorems

* `Reachable.pending`: What is known of a step that is about to be taken.
* `wait_reaps`: `wait` returns the pid and the status of the end that it has recorded.
* `kill_strikes`: `kill` writes to one slot if it returns 0, and to none else.
-/

namespace Xv6.Sched

section Pending

variable {np nc : Nat} {D : Type} {init : Fin np} {b : Start D} {x : System np nc D}

theorem Reachable.pending (h : Reachable init b x) {c : Fin nc} {cmd : Cmd np D}
    (hn : x.next c = some cmd) :
    ∃ W post, Inv init x.m W ∧ Local init (x.m.cur c) cmd (W (x.m.cur c)) post := by
  rcases h.sound with ⟨W, hW⟩
  have hcur := hW.cur c
  unfold System.next at hn
  cases hrest : x.rest (x.m.cur c) with
  | ret l =>
    rw [hrest] at hn
    exact nomatch hn
  | act cmd' k =>
    rw [hrest] at hn hcur
    have hcmd : cmd' = cmd := Option.some.inj hn
    subst hcmd
    exact ⟨W, _, hW.inv, (swp_act cmd' k _).mp hcur⟩

/-- A write that takes a slot over from its process. -/
def Write.takes : Write np D → Bool
  | alloc _ => true
  | free => true
  | run => true
  | _ => false

/-- Nobody takes over the slot of a process that is on a CPU. -/
theorem Inv.takes_off_cpu {W : Thread np nc → View np D} {c : Fin nc} {q : Fin np}
    {y : Slot np D} {w : Write np D} {post : View np D → Prop} (h : Inv init x.m W)
    (hy : (W (x.m.cur c)).slot q = some y)
    (hmove : Move init (x.m.cur c) (W (x.m.cur c)) q y w post) (hw : w.takes = true)
    (c' : Fin nc) : x.m.on c' ≠ some q := by
  have hoff : x.m.cur c ≠ .proc q → y.state ≠ .running → x.m.on c' ≠ some q :=
    fun hne hrun => h.cpus.off_cpu h.owned hy hne hrun c'
  cases w with
  | alloc pid =>
    rcases hmove with ⟨hst, _, ⟨p, hp, hpq⟩, _⟩
    refine hoff (fun he => hpq (Thread.proc.inj (hp.symm.trans he))) ?_
    rw [hst]
    exact nofun
  | free =>
    rcases hmove with ⟨hne, ⟨hst, _⟩ | ⟨hreap, _⟩⟩
    · refine hoff hne ?_
      rw [hst]
      exact nofun
    · refine hoff hne ?_
      rw [← h.owned.slot _ q y hy, (h.tree.reaping _ q hreap).2.2]
      exact nofun
  | run =>
    rcases hmove with ⟨⟨s, hs⟩, hst, _⟩
    refine hoff ?_ ?_
    · rw [hs]
      exact nofun
    · rw [hst]
      exact nofun
  | _ => exact nomatch hw

/-- No two CPUs run the same process. A process that is on a CPU is not picked by a
    scheduler, and its slot is neither freed nor allocated. A scheduler switches to
    a process only if it is on no CPU and its slot is neither free nor a zombie. -/
theorem one_cpu_per_process (h : Reachable init b x) :
    (∀ c c' p, x.m.on c = some p → x.m.on c' = some p → c = c') ∧
    (∀ c q w, x.next c = some (.write q w) → w.takes = true → ∀ c', x.m.on c' ≠ some q) ∧
    (∀ c q, x.next c = some (.swtch (some q)) → (∀ c', x.m.on c' ≠ some q) ∧
      (x.m.slot q).state ≠ .unused ∧ (x.m.slot q).state ≠ .zombie) := by
  refine ⟨fun c c' p hc hc' => ?_, fun c q w hn hw => ?_, fun c q hn => ?_⟩
  · rcases h.sound with ⟨W, hW⟩
    refine hW.inv.owned.holds.inj c c' ?_
    unfold Machine.cur
    rw [hc, hc']
  · rcases h.pending hn with ⟨W, post, hinv, y, hy, hmove⟩
    exact hinv.takes_off_cpu hy hmove hw
  · rcases h.pending hn with ⟨W, post, hinv, _, hpicked, _⟩
    rcases (hinv.cpus.picked _ q hpicked).2 with ⟨⟨y, hy, hrun⟩, hoff⟩
    rw [hinv.owned.slot _ q y hy, hrun]
    simp only [ne_eq, reduceCtorEq, not_false_eq_true, and_self, and_true]
    exact hoff

theorem one_cpu_per_process_childRun : ∃ x : System NPROC NCPU Bool, Reachable 0 blank x ∧
    x.m.on 0 = some 0 ∧ x.m.on 1 = some 1 ∧
    ∀ c c' p, x.m.on c = some p → x.m.on c' = some p → c = c' := by
  rcases reachable_of_decide childRun (fun x => x.m.on 0 = some 0 ∧ x.m.on 1 = some 1)
    (by decide +kernel) with ⟨x, hx, h₀, h₁⟩
  exact ⟨x, hx, h₀, h₁, (one_cpu_per_process hx).1⟩

/-- The only panic of a run is that of the first process when it exits: no CPU takes a
    lock twice or releases one that it does not hold, and what `sched` asserts is true.
    The depth of a CPU is the number of its locks, and when it switches it has one. -/
theorem locks_counted (h : Reachable init b x) :
    (∀ e err, step init x e = .panic err → err = .initExiting) ∧
    (∀ c, ∃ ls : List (Lock np), ls.Nodup ∧ ls.length = x.m.noff c ∧
      ∀ l, x.m.lock l = some c ↔ l ∈ ls) ∧
    ∀ c o, x.next c = some (.swtch o) → x.m.noff c = 1 := by
  rcases h.sound with ⟨W, hW⟩
  refine ⟨fun e err he => ?_, fun c => ?_, fun c o hn => ?_⟩
  · have hstep := hW.step e
    rw [he] at hstep
    exact hstep
  · rcases hW.inv.owned.holds.count (x.m.cur c) with ⟨ls, hnodup, hlen, hmem⟩
    refine ⟨ls, hnodup, hlen.trans (hW.inv.owned.holds.noff c).symm, fun l => ?_⟩
    exact (hW.inv.owned.holds.lock l c).trans (hmem l)
  · rcases h.pending hn with ⟨V, post, hinv, hloc⟩
    refine (hinv.owned.holds.noff c).trans ?_
    -- A process switches to its scheduler, or the scheduler to a process.
    cases o with
    | none =>
      rcases hloc with ⟨_, _, _, _, hd, _⟩
      exact hd
    | some q => exact hloc.2.2.1

/-- The first process forks, and takes a pid for the child. -/
def pidRun : List (Event NCPU Bool) := turns 0 9 ++ enter 0 .fork 9

theorem locks_counted_pidRun : ∃ x : System NPROC NCPU Bool, Reachable 0 blank x ∧
    x.m.noff 0 = 2 ∧ ∃ ls : List (Lock NPROC), ls.Nodup ∧ ls.length = x.m.noff 0 ∧
      ∀ l, x.m.lock l = some 0 ↔ l ∈ ls := by
  rcases reachable_of_decide pidRun (fun x => x.m.noff 0 = 2) (by decide) with ⟨x, hx, hp⟩
  exact ⟨x, hx, hp, (locks_counted hx).2.1 0⟩

/-- The lock under which a step reads or writes. For most data it is their own; that of
    the console keeps `procdump` to one CPU, but does not protect the slots it reads. -/
def Cmd.guard : Cmd np D → Option (Lock np)
  | dump _ => some (.key .cons)
  | write q _ => some (.proc q)
  | parent _ => some .wait
  | setParent _ (some _) => some .wait
  | nextpid => some .pid
  | setNextpid _ => some .pid
  | get k => some (.key k)
  | set k _ => some (.key k)
  | _ => none

/-- Shared data is accessed under its lock, except by `procdump`. A process reads its own
    slot also without, and a parent is cleared without `wait_lock` only in a slot that was
    just allocated. -/
structure Machine.Guarded (m : Machine np nc D) (c : Fin nc) (cmd : Cmd np D) : Prop where
  guard : ∀ l, cmd.guard = some l → m.lock l = some c
  read : ∀ q, cmd = .read q →
    m.lock (.proc q) = some c ∨ m.on c = some q ∧ (m.slot q).state = .running
  clear : ∀ q, cmd = .setParent q none → m.lock .wait = some c ∨ (m.slot q).state = .used

/-- Every step that is about to be taken is guarded. -/
theorem accesses_guarded (h : Reachable init b x) {c : Fin nc} {cmd : Cmd np D}
    (hn : x.next c = some cmd) : x.m.Guarded c cmd := by
  rcases h.pending hn with ⟨W, post, hinv, hloc⟩
  have hlock := fun l => (hinv.owned.holds.lock l c).mpr
  refine ⟨fun l hl => hlock l ?_, ?_, ?_⟩
  · cases cmd with
    | write | parent | get =>
      cases hl
      rcases hloc with ⟨y, hy, _⟩
      exact Option.ne_none_iff_exists'.mpr ⟨y, hy⟩
    | setParent q o =>
      cases o with
      | none => cases hl
      | some r =>
        cases hl
        rcases hloc with ⟨T, hT, _⟩
        exact Option.ne_none_iff_exists'.mpr ⟨T, hT⟩
    | dump | nextpid | setNextpid | set =>
      cases hl
      exact hloc.1
    | _ => cases hl
  · rintro q rfl
    rcases hloc with ⟨y, hy, _⟩ | ⟨hcur, hnone, _⟩
    · exact Or.inl (hlock _ (Option.ne_none_iff_exists'.mpr ⟨y, hy⟩))
    · have hon := Machine.on_of_cur hcur
      rw [hcur] at hnone
      exact Or.inr ⟨hon, hinv.cpus.run c q hon hnone⟩
  · rintro q rfl
    rcases hloc with ⟨hborn, _⟩ | ⟨_, T, hT, _⟩
    · exact Or.inr (hinv.tree.born _ q hborn).1
    · exact Or.inl (hlock _ (Option.ne_none_iff_exists'.mpr ⟨T, hT⟩))

theorem accesses_guarded_pidRun : ∃ (x : System NPROC NCPU Bool) (cmd : Cmd NPROC Bool),
    Reachable 0 blank x ∧ x.next 0 = some cmd ∧ cmd.guard = some .pid ∧
    x.m.lock .pid = some 0 := by
  rcases reachable_of_decide pidRun
    (fun x => (x.next 0).any (fun cmd : Cmd NPROC Bool => decide (cmd.guard = some .pid)) = true)
    (by decide) with ⟨x, hx, hp⟩
  rcases (Option.any_eq_true _ _).mp hp with ⟨cmd, hn, hg⟩
  have hpid := of_decide_eq_true hg
  exact ⟨x, cmd, hx, hn, hpid, (accesses_guarded hx hn).guard _ hpid⟩

end Pending

/-! ### Parents -/

section Family

variable {np nc : Nat} {D : Type} {init : Fin np} {b : Start D} {x : System np nc D}

/-- A process that is waited for, or will be. -/
def State.counts : State → Bool
  | unused => false
  | used => false
  | _ => true

/-- The steps by which process `p` takes over a child that has ended. The state is the
    status that has been copied out, and the end that has been recorded. -/
def Reaps (p : Fin np) : (c : Cmd np D) → Option Int × Option Exit →
    (c.Ans → Option Int × Option Exit → Prop) → Prop
  | .copyout p' status, o, Q => p' = p ∧ o = (none, none) ∧ Q true (some status, none) ∧ Q false o
  | .reaped _ p' e, o, Q => p' = p ∧ o.2 = none ∧ Q () (o.1, some e)
  | _, o, Q => ∀ a, Q a o

/-- A round of `wait` comes to nothing, or returns the pid of the end that it has
    recorded and has copied out its status. -/
def Delivers (addr : Bool) (l : Label D) : Option Int × Option Exit → Prop
  | (_, none) => l = .wait addr ∨ l = .trapret (-1)
  | (status, some e) => l = .trapret e.pid.toInt ∧ (addr = true → status = some e.status)

theorem reaps_mono (p : Fin np) (c : Cmd np D) (o : Option Int × Option Exit)
    (post post' : c.Ans → Option Int × Option Exit → Prop) (h : Reaps p c o post)
    (himp : ∀ a o', post a o' → post' a o') : Reaps p c o post' := by
  cases c with
  | copyout p' status => exact ⟨h.1, h.2.1, himp _ _ h.2.2.1, himp _ _ h.2.2.2⟩
  | reaped q p' e => exact ⟨h.1, h.2.1, himp _ _ h.2.2⟩
  | _ => exact fun a => himp _ _ (h a)

theorem waitFrom_reaps (p : Fin np) (addr : Bool) (qs : List (Fin np)) (havekids : Bool) :
    lwp (Reaps p) (waitFrom p addr qs havekids : P np D (Int ⊕ Bool))
      (fun r o => (∃ b, r = .inr b ∧ o = (none, none)) ∨
        ∃ n, r = .inl n ∧ Delivers (D := D) addr (.trapret n) o) (none, none) := by
  induction qs generalizing havekids with
  | nil => exact Or.inl ⟨havekids, rfl, rfl⟩
  | cons q qs ih =>
    unfold waitFrom
    refine fun r => lwp_ite (fun _ _ (y : Slot np D) => lwp_ite (fun _ => ?_)
      (fun _ _ => ih true)) (fun _ => ih havekids)
    -- The slot is that of a zombie; the parent and the locks do not matter.
    refine (lwp_bind _ _ _ _ _).mpr ?_
    -- Without an address there is nothing to copy out, and nothing that fails.
    cases addr with
    | false =>
      exact ⟨rfl, rfl, fun _ _ _ _ => Or.inr ⟨_, rfl, rfl, fun h => absurd h Bool.false_ne_true⟩⟩
    | true =>
      refine ⟨rfl, rfl, ?_, fun _ _ => Or.inr ⟨_, rfl, Or.inr rfl⟩⟩
      exact ⟨rfl, rfl, fun _ _ _ _ => Or.inr ⟨_, rfl, rfl, fun _ => rfl⟩⟩

theorem sched_reaps (p : Fin np) (o : Option Int × Option Exit) :
    lwp (Reaps p) (sched p : P np D Unit) (fun _ o' => o' = o) o := by
  unfold sched
  exact fun _ => lwp_ite (fun _ e => e.elim) (fun _ _ => lwp_ite (fun _ e => e.elim)
    (fun _ _ => lwp_ite (fun _ e => e.elim) (fun _ _ => rfl)))

/-- `wait` returns the pid and the status of the end that it has recorded. -/
theorem wait_reaps (p : Fin np) (addr : Bool) :
    lwp (Reaps p) (code init (.proc p : Thread np nc) (.wait addr : Label D)) (Delivers addr)
      (none, none) := by
  change lwp (Reaps p) (waitRound p addr) _ _
  unfold waitRound
  refine (lwp_bind _ _ _ _ _).mpr (lwp_mono (reaps_mono p) (waitFrom_reaps p addr _ false) ?_)
  rintro r o (⟨havekids, rfl, rfl⟩ | ⟨n, rfl, hn⟩)
  · cases havekids with
    | false => exact fun _ => Or.inr rfl
    | true =>
      intro _ y _ _
      refine lwp_ite (fun _ _ => Or.inr rfl) (fun _ => (lwp_bind _ _ _ _ _).mpr ?_)
      -- The steps of `sleep` before and after `sched` leave no trace either.
      intro _ _ _ _ _
      change lwp (Reaps p) (sched p >>= _) _ _
      refine (lwp_bind _ _ _ _ _).mpr (lwp_mono (reaps_mono p) (sched_reaps p _) ?_)
      rintro _ o rfl
      exact fun _ _ _ => Or.inl rfl
  · exact hn

/-- While `wait_lock` is free, every process but the first has a parent that has not
    ended, and nobody sleeps in `wait` with a child that has. In the whole run every
    process that has ended is returned by at most one `wait`, and to its parent, and
    what `wait` returns and copies out is the pid and the status of that process. -/
theorem process_tree (h : Reachable init b x) :
    (x.m.lock .wait = none →
      (∀ q, q ≠ init → (x.m.slot q).state.counts = true → ∃ r, x.m.parent q = some r ∧
        (x.m.slot r).state ≠ .unused ∧ (x.m.slot r).state ≠ .zombie) ∧
      ∀ p q, (x.m.slot p).state = .sleeping → (x.m.slot p).chan = some (.proc p) →
        x.m.parent q = some p → (x.m.slot q).state ≠ .zombie) ∧
    (x.m.ghost.exits.map Exit.inc).Nodup ∧
    (x.m.ghost.reaps.map (fun r => r.exit.inc)).Nodup ∧
    (∀ r ∈ x.m.ghost.reaps, r.exit ∈ x.m.ghost.exits ∧ r.parent = some r.caller) ∧
    ∀ p addr, lwp (Reaps p) (code init (.proc p : Thread np nc) (.wait addr : Label D))
      (Delivers addr) (none, none) := by
  rcases h.sound with ⟨W, hW⟩
  refine ⟨fun hfree => ⟨fun q hq hlive => ?_, fun p q hs hc hpar hz => ?_⟩,
    hW.inv.trace.exitNodup, hW.inv.trace.reapNodup, hW.inv.trace.reap, wait_reaps⟩
  · -- Nobody has the lock, so nobody is in the middle of `exit` or `wait`.
    have hnobody := hW.inv.owned.holds.free_iff.mp hfree
    cases hpar : x.m.parent q with
    | none =>
      exfalso
      rcases hW.inv.tree.orphan q hpar with h₁ | h₁ | h₁ | ⟨t, h₁⟩
      · exact hq h₁
      · rw [h₁] at hlive
        exact nomatch hlive
      · rw [h₁] at hlive
        exact nomatch hlive
      · -- A zombie that is being freed: but then somebody holds the lock.
        exact hnobody t (hW.inv.tree.reaping t q h₁).1
    | some r =>
      have halive := hW.inv.tree.child q r hpar
      refine ⟨r, rfl, fun he => ?_, fun he => ?_⟩
      · rw [he] at halive
        exact nomatch halive
      · rw [he] at halive
        exact nomatch halive
  · rcases h.asleep hs with ⟨w, hw, hchan⟩
    rw [hc, Option.some.injEq] at hchan
    cases w with
    | wait =>
      -- With a zombie child the condition of the wait would hold.
      have hready : x.m.Ready .wait p :=
        Or.inl ⟨rfl, q, hpar, decide_eq_true hz⟩
      rcases h.quiet hw hfree hready with ⟨i, hi, _⟩
      cases hi
    | _ => exact nomatch hchan

/-- The first process waits for the child, and the child exits with status 5. -/
def reapRun : List (Event NCPU Bool) :=
  childRun ++ enter 0 (.wait true) 87 ++ enter 1 (.exit 5) 330 ++ turns 1 209

theorem process_tree_reapRun : ∃ x : System NPROC NCPU Bool, Reachable 0 blank x ∧
    x.m.lock .wait = none ∧ x.m.ghost.reaps.map Reap.exit = [⟨2, 2, 5⟩] ∧
    x.m.status 0 = some 5 ∧
    ∀ r ∈ x.m.ghost.reaps, r.exit ∈ x.m.ghost.exits ∧ r.parent = some r.caller := by
  rcases reachable_of_decide reapRun
    (fun x => x.m.lock .wait = none ∧ x.m.ghost.reaps.map Reap.exit = [⟨2, 2, 5⟩] ∧
      x.m.status 0 = some 5) (by decide +kernel) with ⟨x, hx, hl, hr, hs⟩
  exact ⟨x, hx, hl, hr, hs, (process_tree hx).2.2.2.1⟩

end Family

/-! ### Kill -/

section Kill

variable {np nc : Nat} {D : Type} {init : Fin np} {b : Start D} {x : System np nc D}

/-- The steps of a program that may write to one slot, as `kill` does. The state is
    the slot that it has written to. -/
def Strikes (pid : BitVec 32) :
    (c : Cmd np D) → Option (Fin np) → (c.Ans → Option (Fin np) → Prop) → Prop
  | .write q (.kill pid'), o, Q => pid' = pid ∧ o = none ∧ Q () (some q)
  | .write _ _, _, _ => False
  | .setParent _ _, _, _ => False
  | _, o, Q => ∀ a, Q a o

theorem killFrom_strikes (pid : BitVec 32) (ps : List (Fin np)) :
    lwp (Strikes pid) (killFrom pid ps : P np D Int)
      (fun r o => (r = 0 ∧ o ≠ none) ∨ (r = -1 ∧ o = none)) none := by
  induction ps with
  | nil => exact Or.inr ⟨rfl, rfl⟩
  | cons p ps ih =>
    -- The lock is taken and the slot read, whatever the answers are.
    refine fun _ (y : Slot np D) => lwp_ite (fun _ => ?_) (fun _ _ => ih)
    exact ⟨rfl, rfl, fun _ => Or.inl ⟨rfl, Option.some_ne_none p⟩⟩

/-- `kill` writes to one slot if it returns 0, and otherwise to none. -/
theorem kill_strikes (pid : BitVec 32) :
    lwp (Strikes pid) (kill pid : P np D Int)
      (fun r o => (r = 0 ∧ o ≠ none) ∨ (r = -1 ∧ o = none)) none := by
  refine (lwp_bind (Strikes pid) _ _ _ _).mpr ?_
  refine lwp_mono ?_ (killFrom_strikes pid _) (fun r o h _ => h)
  intro c o post post' h himp
  cases c with
  | write q w =>
    cases w with
    | kill pid' => exact ⟨h.1, h.2.1, himp _ _ h.2.2⟩
    | _ => exact h.elim
  | setParent q r => exact h.elim
  | _ => exact fun a => himp _ _ (h a)

/-- A call of `kill` that has returned 0 has found a slot with its pid, in use unless
    the pid is 0, and `kill` writes to no other slot. As long as no `kill(0)` has found
    a slot, one that `allocproc` takes has not been killed, and a process has been killed
    only if it was named since. -/
theorem kill_hits_target (h : Reachable init b x) :
    (∀ r ∈ x.m.ghost.returned, r.2 = 0 → ∃ s ∈ x.m.ghost.struck, s.pid = r.1 ∧
      s.before.pid = r.1 ∧ (r.1 ≠ 0 → s.before.state ≠ .unused)) ∧
    (∀ c q pid, x.next c = some (.write q (.kill pid)) → (x.m.slot q).pid = pid ∧
      (pid ≠ 0 → (x.m.slot q).state ≠ .unused) ∧
      ∀ r, r ≠ q → (x.m.write q (.kill pid)).slot r = x.m.slot r) ∧
    (∀ pid, lwp (Strikes pid) (kill pid : P np D Int)
      (fun r o => (r = 0 ∧ o ≠ none) ∨ (r = -1 ∧ o = none)) none) ∧
    (x.m.Named →
      (∀ c q pid, x.next c = some (.write q (.alloc pid)) → (x.m.slot q).killed = false) ∧
      ∀ q, (x.m.slot q).killed = true → (x.m.slot q).hit = true) := by
  refine ⟨fun r hr hr0 => ?_, fun c q pid hn => ?_, kill_strikes,
    fun hnamed => ⟨fun c q pid hn => ?_, ?_⟩⟩
  · rcases h.sound with ⟨W, hW⟩
    rcases hW.inv.kills.returned r hr hr0 with ⟨s, hs, hpid⟩
    rcases hW.inv.kills.target s hs with ⟨hbefore, hst⟩
    rw [hpid] at hbefore hst
    exact ⟨s, hs, hpid, hbefore, hst⟩
  · rcases h.pending hn with ⟨W, post, hinv, y, hy, hpid, _⟩
    have hslot := hinv.owned.slot _ q y hy
    refine ⟨by rw [hslot]; exact hpid, fun hne hun => hne ?_,
      fun r hr => Function.update_of_ne hr _ _⟩
    -- A free slot has pid 0.
    rw [← hpid, ← hslot]
    exact hinv.kills.pid q hun
  · rcases h.pending hn with ⟨W, post, hinv, y, hy, hst, _⟩
    rw [← hinv.owned.slot _ q y hy] at hst
    exact hinv.kills.unused hnamed q hst
  · rcases h.sound with ⟨W, hW⟩
    exact hW.inv.kills.hit hnamed

theorem kill_hits_target_missedRun : ∃ x : System NPROC NCPU Bool, Reachable 0 blank x ∧
    x.m.Named ∧ (x.m.slot 1).killed = true ∧ (x.m.slot 1).hit = true := by
  rcases reachable_of_decide missedRun
    (fun x => (x.m.slot 1).killed = true ∧ ∀ s ∈ x.m.ghost.struck, s.pid ≠ 0)
    (by decide +kernel) with ⟨x, hx, hk, hn⟩
  exact ⟨x, hx, hn, hk, ((kill_hits_target hx).2.2.2 hn).2 1 hk⟩

/-- The first process calls `kill(0)`, and then `fork`. -/
def zeroRun : List (Event NCPU Bool) := turns 0 9 ++ enter 0 (.kill 0) 16 ++ enter 0 .fork 30

/-- The call `kill(0)` has returned 0 when no slot in use had pid 0, and the child
    that was made after that is killed, though nobody has named it. -/
theorem zeroRun_killed : ∃ x : System NPROC NCPU Bool, Reachable 0 blank x ∧
    x.m.ghost.returned = [(0, 0)] ∧
    x.m.ghost.struck.map (fun s => (s.pid, s.target, s.before.state)) = [(0, 1, .unused)] ∧
    (x.m.slot 1).state = .runnable ∧ (x.m.slot 1).pid = 2 ∧ (x.m.slot 1).killed = true ∧
    (x.m.slot 1).hit = false :=
  reachable_of_decide zeroRun _ (by decide +kernel)

end Kill

end Xv6.Sched
