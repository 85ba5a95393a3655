import Xv6.Fs.State
import Xv6.Lib.Pool

/-!
# Process Identifiers

`allocpid`, and `fork`, `exit` and `wait` as far as they concern the pids.

`allocproc` holds the lock of the slot it has found until the slot is complete, so that
finding it, taking a pid and marking it `USED` are one step. So is the end of `fork` after
the lock was released, since nobody else changes the slot. `wait` frees a zombie while it
holds both locks, and `exit` makes one. A process that runs or sleeps counts as runnable.

`nextpid` is never compared with the pids in use, and it wraps. The pids identify as long as
fewer than 2^31 of them have been handed out. The next one is negative.

## Main definitions

* `System`, `step`: The process table and its users.
* `Identify`: What is wanted of the pids.

## Theorems

* `pids_identify`: The pids identify for as long.
* `fork_negative`: A run in which `fork` returns a negative pid.
-/

namespace Xv6.Pids

open Function

/-- The part of `struct proc` that matters here. -/
structure Slot where
  state : ProcState
  pid : BitVec 32
  parent : Option (Fin NPROC)
  deriving DecidableEq

/-- Where a process is in `fork`, with the slot of the child. -/
inductive Pc where
  | idle
  -- After `allocproc`.
  | made (np : Fin NPROC)
  -- After `pid = np->pid`.
  | named (np : Fin NPROC) (pid : BitVec 32)
  deriving DecidableEq

structure System where
  proc : Fin NPROC → Slot
  nextpid : BitVec 32
  pc : Fin NPROC → Pc
  -- How many pids were handed out, and those that `fork` returned.
  count : Nat
  returned : List (BitVec 32)

/-- What can happen next. The slot in `fork` is the one that `allocproc` finds. -/
inductive Event where
  | fork (p np : Fin NPROC)
  -- The process in `fork` goes on; the flag says whether there was memory.
  | step (p : Fin NPROC) (mem : Bool)
  | exit (p : Fin NPROC)
  | wait (p q : Fin NPROC)

/-- What `freeproc` leaves. -/
def Slot.free : Slot := { state := .unused, pid := 0, parent := none }

/-- The first process has been made. -/
def boot : System where
  proc := update (fun _ => .free) initproc { state := .runnable, pid := 1, parent := none }
  nextpid := 2
  pc := fun _ => .idle
  count := 1
  returned := []

namespace System

def setPc (x : System) (p : Fin NPROC) (pc : Pc) : System := { x with pc := update x.pc p pc }

def setSlot (x : System) (q : Fin NPROC) (s : Slot) : System :=
  { x with proc := update x.proc q s }

/-- The process makes a call, or goes on after one. -/
def ready (x : System) (p : Fin NPROC) : Prop := (x.proc p).state = .runnable ∧ x.pc p = .idle

instance (x : System) (p : Fin NPROC) : Decidable (x.ready p) := inferInstanceAs (Decidable (_ ∧ _))

/-- `allocproc` up to `p->state = USED`, with `allocpid`. -/
def allocproc (x : System) (np : Fin NPROC) : System :=
  { x.setSlot np { x.proc np with state := .used, pid := x.nextpid } with
    nextpid := x.nextpid + 1
    count := x.count + 1 }

/-- `reparent`, and the end of `exit`. -/
def exit (x : System) (p : Fin NPROC) : System :=
  { x with proc := fun q =>
      let s := if (x.proc q).parent = some p then { x.proc q with parent := some initproc }
        else x.proc q
      if q = p then { s with state := .zombie } else s }

end System

def step (x : System) : Event → Outcome Panic System
  | .fork p np =>
    if x.ready p ∧ (x.proc np).state = .unused then .done ((x.allocproc np).setPc p (.made np))
    else .wait
  | .step p mem =>
    match x.pc p with
    | .idle => .wait
    | .made np =>
      if mem then .done (x.setPc p (.named np (x.proc np).pid))
      else .done ((x.setSlot np .free).setPc p .idle)
    | .named np pid => .done
      { (x.setSlot np { x.proc np with parent := some p, state := .runnable }).setPc p .idle with
        returned := pid :: x.returned }
  | .exit p =>
    if x.ready p then if p = initproc then .panic .initExiting else .done (x.exit p) else .wait
  | .wait p q =>
    if x.ready p ∧ (x.proc q).parent = some p ∧ (x.proc q).state = .zombie then
      .done (x.setSlot q .free)
    else .wait

/-- The pids of all processes are positive and different, and so are those that `fork`
    returns positive. -/
structure Identify (x : System) : Prop where
  pos : ∀ q, (x.proc q).state ≠ .unused → 0 < (x.proc q).pid.toInt
  inj : ∀ q r, (x.proc q).state ≠ .unused → (x.proc r).state ≠ .unused →
    (x.proc q).pid = (x.proc r).pid → q = r
  returned : ∀ pid ∈ x.returned, 0 < pid.toInt

/-- The child that a process is making. -/
def Pc.child : Pc → Option (Fin NPROC)
  | idle => none
  | made np => some np
  | named np _ => some np

/-- The pid that `fork` is going to return. -/
def Pc.pid : Pc → Option (BitVec 32)
  | named _ pid => some pid
  | _ => none

/-- A pid that was handed out. -/
def System.Given (x : System) (pid : BitVec 32) : Prop := 0 < pid.toNat ∧ pid.toNat ≤ x.count

/-- What holds while the counter has not wrapped. -/
structure Ok (x : System) : Prop where
  next : x.nextpid.toNat = x.count + 1
  given : ∀ q, (x.proc q).state ≠ .unused → x.Given (x.proc q).pid
  inj : ∀ q r, (x.proc q).state ≠ .unused → (x.proc r).state ≠ .unused →
    (x.proc q).pid = (x.proc r).pid → q = r
  used : ∀ p np, (x.pc p).child = some np → (x.proc np).state = .used
  excl : ∀ p p' np, (x.pc p).child = some np → (x.pc p').child = some np → p = p'
  pending : ∀ p pid, (x.pc p).pid = some pid → x.Given pid
  returned : ∀ pid ∈ x.returned, x.Given pid

theorem boot_proc {q : Fin NPROC} (hq : q ≠ initproc) : boot.proc q = .free :=
  update_of_ne hq _ (fun _ => Slot.free)

theorem boot_ok : Ok boot := by
  have huniq : ∀ q, (boot.proc q).state ≠ .unused → q = initproc := by
    intro q hq
    by_contra hne
    rw [boot_proc hne] at hq
    exact hq rfl
  refine ⟨rfl, fun q hq => ?_, fun q r hq hr _ => ?_, nofun, nofun, nofun, nofun⟩
  · rw [huniq q hq]
    exact ⟨by decide, by decide⟩
  · rw [huniq q hq, huniq r hr]

variable {x y : System} {e : Event}

/-- A step that hands out no pid. Slots are freed or keep their pid, and the children that
    are still being made are as they were. -/
theorem Ok.keep (h : Ok x) (hnext : y.nextpid = x.nextpid) (hcount : y.count = x.count)
    (hslot : ∀ q, (y.proc q).state ≠ .unused →
      (x.proc q).state ≠ .unused ∧ (y.proc q).pid = (x.proc q).pid)
    (hchild : ∀ p np, (y.pc p).child = some np →
      (x.pc p).child = some np ∧ (y.proc np).state = .used)
    (hpending : ∀ p pid, (y.pc p).pid = some pid → x.Given pid)
    (hreturned : ∀ pid ∈ y.returned, x.Given pid) : Ok y := by
  have hgiven : ∀ pid, x.Given pid → y.Given pid := fun pid hp => by
    unfold System.Given
    rw [hcount]
    exact hp
  refine ⟨by rw [hnext, hcount]; exact h.next, fun q hq => ?_, fun q r hq hr he => ?_,
    fun p np hc => (hchild p np hc).2,
    fun p p' np hc hc' => h.excl p p' np (hchild p np hc).1 (hchild p' np hc').1,
    fun p pid hp => hgiven pid (hpending p pid hp), fun pid hp => hgiven pid (hreturned pid hp)⟩
  · rw [(hslot q hq).2]
    exact hgiven _ (h.given q (hslot q hq).1)
  · rw [(hslot q hq).2, (hslot r hr).2] at he
    exact h.inj q r (hslot q hq).1 (hslot r hr).1 he

theorem slot_update {q : Fin NPROC} {s : Slot}
    (hs : s.state ≠ .unused → (x.proc q).state ≠ .unused ∧ s.pid = (x.proc q).pid) (r : Fin NPROC) :
    (update x.proc q s r).state ≠ .unused →
      (x.proc r).state ≠ .unused ∧ (update x.proc q s r).pid = (x.proc r).pid :=
  (forall_update_iff x.proc (fun r t => t.state ≠ .unused →
    (x.proc r).state ≠ .unused ∧ t.pid = (x.proc r).pid)).mpr ⟨hs, fun _ _ hr => ⟨hr, rfl⟩⟩ r

theorem Ok.goOn (h : Ok x) {p np : Fin NPROC} (hp : (x.pc p).child = some np) {s : Slot} {c : Pc}
    {l : List (BitVec 32)}
    (hs : s.state ≠ .unused → (x.proc np).state ≠ .unused ∧ s.pid = (x.proc np).pid)
    (hc : ∀ np', c.child = some np' → np' = np ∧ s.state = .used)
    (hpid : ∀ pid, c.pid = some pid → x.Given pid) (hl : ∀ pid ∈ l, x.Given pid) :
    Ok { (x.setSlot np s).setPc p c with returned := l } := by
  refine h.keep rfl rfl (slot_update hs)
    ((forall_update_iff x.pc (fun p' c => ∀ np', c.child = some np' →
      (x.pc p').child = some np' ∧ (update x.proc np s np').state = .used)).mpr
        ⟨fun np' hn => ?_, fun p' hne np' hn => ⟨hn, ?_⟩⟩)
    ((forall_update_iff x.pc (fun _ c => ∀ pid, c.pid = some pid → x.Given pid)).mpr
      ⟨hpid, fun p' _ => h.pending p'⟩) hl
  · rw [(hc np' hn).1, update_self]
    exact ⟨hp, (hc np' hn).2⟩
  · -- The child of another process is another one.
    rw [update_of_ne, h.used p' np' hn]
    rintro rfl
    exact hne (h.excl p' p np' hn hp)

theorem Ok.allocproc (h : Ok x) (hlt : x.count + 1 < 2 ^ 31) {p np : Fin NPROC}
    (hnp : (x.proc np).state = .unused) : Ok ((x.allocproc np).setPc p (.made np)) := by
  have hnext := h.next
  have hgiven : ∀ pid, x.Given pid → ((x.allocproc np).setPc p (.made np)).Given pid :=
    fun pid hp => ⟨hp.1, Nat.le_succ_of_le hp.2⟩
  -- The new pid is not in use, and nobody is making a process in the slot.
  have hfresh : ∀ q, (x.proc q).state ≠ .unused → x.nextpid ≠ (x.proc q).pid := by
    intro q hq he
    have hle := (h.given q hq).2
    rw [← he] at hle
    omega
  have hchild : ∀ p' np', (x.pc p').child = some np' → np' ≠ np := by
    rintro p' np' hc rfl
    exact nomatch (h.used p' np' hc).symm.trans hnp
  refine ⟨?_, ?_, fun q r hq hr he => ?_, ?_, fun p₁ p₂ np' h₁ h₂ => ?_, ?_,
    fun pid hp => hgiven pid (h.returned pid hp)⟩
  · change (x.nextpid + 1).toNat = x.count + 1 + 1
    rw [BitVec.toNat_add, hnext]
    exact Nat.mod_eq_of_lt (show x.count + 1 + 1 < 2 ^ 32 by omega)
  · refine (forall_update_iff x.proc (fun _ s => s.state ≠ .unused →
      ((x.allocproc np).setPc p (.made np)).Given s.pid)).mpr
        ⟨fun _ => ⟨?_, hnext.le⟩, fun q _ hq => hgiven _ (h.given q hq)⟩
    change 0 < x.nextpid.toNat
    omega
  · exact unique_update
      (R := fun s t : Slot => s.state ≠ .unused ∧ t.state ≠ .unused ∧ s.pid = t.pid)
      (fun s t hst => ⟨hst.2.1, hst.1, hst.2.2.symm⟩)
      (fun q r hqr => h.inj q r hqr.1 hqr.2.1 hqr.2.2) (fun r _ hr => hfresh r hr.2.1 hr.2.2)
      q r ⟨hq, hr, he⟩
  · refine (forall_update_iff x.pc (fun _ c => ∀ np', c.child = some np' →
      (update x.proc np _ np').state = .used)).mpr ⟨fun np' hc => ?_, fun p' _ np' hc => ?_⟩
    · rw [← Option.some.inj hc, update_self]
    · rw [update_of_ne (hchild p' np' hc)]
      exact h.used p' np' hc
  · exact unique_update (R := fun c d : Pc => ∃ np, c.child = some np ∧ d.child = some np)
      (fun c d ⟨np, hc, hd⟩ => ⟨np, hd, hc⟩) (fun q r ⟨np, hq, hr⟩ => h.excl q r np hq hr)
      (fun q _ ⟨np', hc, hq⟩ => hchild q np' hq (Option.some.inj hc).symm) p₁ p₂ ⟨np', h₁, h₂⟩
  · exact (forall_update_iff x.pc (fun _ c => ∀ pid, c.pid = some pid →
      ((x.allocproc np).setPc p (.made np)).Given pid)).mpr
        ⟨nofun, fun p' _ pid hp => hgiven pid (h.pending p' pid hp)⟩

theorem Ok.forkStep (h : Ok x) {p : Fin NPROC} {mem : Bool}
    (he : Pids.step x (.step p mem) = .done y) : Ok y := by
  simp only [Pids.step] at he
  cases hpc : x.pc p with
  | idle =>
    rw [hpc] at he
    exact nomatch he
  | made np =>
    have hp : (x.pc p).child = some np := by rw [hpc]; rfl
    have hused := h.used p np hp
    rw [hpc] at he
    cases mem with
    | true =>
      have hnamed := h.goOn hp (s := x.proc np) (c := .named np (x.proc np).pid)
        (fun hs => ⟨hs, rfl⟩) (fun np' hn => ⟨(Option.some.inj hn).symm, hused⟩)
        (fun pid hc => ?_) h.returned
      · rw [System.setSlot, update_eq_self] at hnamed
        rw [← Outcome.done.inj he]
        exact hnamed
      · rw [← Option.some.inj hc]
        exact h.given np (by rw [hused]; exact nofun)
    | false =>
      rw [← Outcome.done.inj he]
      exact h.goOn hp (fun hs => absurd rfl hs) nofun nofun h.returned
  | named np pid =>
    have hp : (x.pc p).child = some np := by rw [hpc]; rfl
    rw [hpc] at he
    rw [← Outcome.done.inj he]
    exact h.goOn hp (fun _ => ⟨by rw [h.used p np hp]; exact nofun, rfl⟩) nofun nofun
      (List.forall_mem_cons.mpr ⟨h.pending p pid (by rw [hpc]; rfl), h.returned⟩)

theorem exit_state (p q : Fin NPROC) : ((x.exit p).proc q).state =
    if q = p then .zombie else (x.proc q).state := by
  unfold System.exit
  by_cases hq : q = p
  · simp only [if_pos hq]
  · simp only [if_neg hq]
    split <;> rfl

theorem exit_pid (p q : Fin NPROC) : ((x.exit p).proc q).pid = (x.proc q).pid := by
  unfold System.exit
  by_cases hq : q = p
  · simp only [if_pos hq]
    split <;> rfl
  · simp only [if_neg hq]
    split <;> rfl

theorem Ok.step (h : Ok x) (hlt : y.count < 2 ^ 31) (he : Pids.step x e = .done y) : Ok y := by
  cases e with
  | fork p np =>
    rcases Outcome.of_guard he with ⟨⟨_, hnp⟩, he⟩
    cases he
    exact h.allocproc hlt hnp
  | step p mem => exact h.forkStep he
  | exit p =>
    rcases Outcome.of_guard he with ⟨⟨hrun, _⟩, he⟩
    by_cases hinit : p = initproc
    · rw [if_pos hinit] at he
      exact nomatch he
    rw [if_neg hinit] at he
    cases he
    refine h.keep rfl rfl (fun q hq => ⟨?_, exit_pid p q⟩) (fun p' np hc => ⟨hc, ?_⟩) h.pending
      h.returned
    · rw [exit_state] at hq
      by_cases hqp : q = p
      · rw [hqp, hrun]
        exact nofun
      · rw [if_neg hqp] at hq
        exact hq
    · -- The process is not one that is being made.
      have hused := h.used p' np hc
      rw [exit_state, if_neg, hused]
      rintro rfl
      exact nomatch hrun.symm.trans hused
  | wait p q =>
    rcases Outcome.of_guard he with ⟨⟨_, _, hzom⟩, he⟩
    cases he
    refine h.keep rfl rfl (slot_update (fun hc => absurd rfl hc)) (fun p' np hc => ⟨hc, ?_⟩)
      h.pending h.returned
    have hused := h.used p' np hc
    change (update x.proc q .free np).state = .used
    rw [update_of_ne, hused]
    rintro rfl
    exact nomatch hzom.symm.trans hused

/-- The number of pids handed out does not go down. -/
theorem count_le (he : Pids.step x e = .done y) : x.count ≤ y.count := by
  cases e with
  | fork p np =>
    cases (Outcome.of_guard he).2
    exact Nat.le_succ _
  | step p mem =>
    simp only [Pids.step] at he
    cases hpc : x.pc p <;> rw [hpc] at he
    case idle => exact nomatch he
    case made np =>
      cases mem <;> cases he <;> exact le_refl _
    all_goals
      cases he
      exact le_refl _
  | exit p =>
    have he := (Outcome.of_guard he).2
    split at he
    · exact nomatch he
    · cases he
      exact le_refl _
  | wait p q =>
    cases (Outcome.of_guard he).2
    exact le_refl _

theorem Ok.identify (h : Ok x) (hlt : x.count < 2 ^ 31) : Identify x := by
  have hpos : ∀ pid, x.Given pid → 0 < pid.toInt := by
    rintro pid ⟨h₁, h₂⟩
    have := BitVec.toInt_eq_toNat_cond pid
    split at this <;> omega
  exact ⟨fun q hq => hpos _ (h.given q hq), h.inj, fun pid hp => hpos pid (h.returned pid hp)⟩

/-- In every run in which fewer than 2^31 pids were handed out, the pids identify. -/
theorem pids_identify (es : List Event) (y : System) (hy : runs Pids.step es boot = .done y)
    (hlt : y.count < 2 ^ 31) : Identify y := by
  refine Ok.identify ?_ hlt
  exact runs_invariant Pids.step (fun x => x.count < 2 ^ 31 → Ok x)
    (fun x e z hx hz hlt => (hx (Nat.lt_of_le_of_lt (count_le hz) hlt)).step hlt hz) es boot y
    (fun _ => boot_ok) hy hlt

/-- The slot of the child in the runs below. -/
def child : Fin NPROC := ⟨1, by decide⟩

/-- The first process forks, the child exits, and the first process waits for it. -/
def cycle : List Event :=
  [.fork initproc child, .step initproc true, .step initproc true, .exit child,
    .wait initproc child]

/-- Only the pids have changed since the beginning. -/
def cycled (nextpid : BitVec 32) (count : Nat) (returned : List (BitVec 32)) : System :=
  { boot with nextpid := nextpid, count := count, returned := returned }

theorem pids_identify_cycle : ∃ y, runs Pids.step cycle boot = .done y ∧ Identify y :=
  ⟨_, rfl, pids_identify cycle _ rfl (by decide)⟩

theorem runs_cycle (n : BitVec 32) (c : Nat) (l : List (BitVec 32)) :
    runs Pids.step cycle (cycled n c l) = .done (cycled (n + 1) (c + 1) (n :: l)) := by
  have hrun : ∃ y, runs Pids.step cycle (cycled n c l) = .done y ∧ y.proc = boot.proc ∧
      y.pc = boot.pc ∧ y.nextpid = n + 1 ∧ y.count = c + 1 ∧ y.returned = n :: l := by
    refine ⟨_, rfl, funext (fun q => ?_), funext (fun q => ?_), rfl, rfl, rfl⟩
    · by_cases hq : q = child
      · rw [hq]
        rfl
      · have hpar : (boot.proc q).parent ≠ some child := by
          by_cases hi : q = initproc
          · rw [hi]
            exact nofun
          · rw [boot_proc hi]
            exact nofun
        simp only [System.setSlot, System.exit, System.setPc, System.allocproc, cycled,
          update_of_ne hq, if_neg hq, if_neg hpar]
    · by_cases hq : q = initproc
      · rw [hq]
        rfl
      · simp only [System.setSlot, System.exit, System.setPc, System.allocproc, cycled,
          update_of_ne hq]
  rcases hrun with ⟨⟨proc, next, pc, count, returned⟩, hy, rfl, rfl, rfl, rfl, rfl⟩
  exact hy

theorem runs_cycles (k : Nat) (n : BitVec 32) (c : Nat) (l : List (BitVec 32)) :
    ∃ l', runs Pids.step (List.replicate k cycle).flatten (cycled n c l) =
      .done (cycled (n + BitVec.ofNat 32 k) (c + k) l') := by
  induction k generalizing n c l with
  | zero => exact ⟨l, by rw [show n + BitVec.ofNat 32 0 = n from BitVec.add_zero n]; rfl⟩
  | succ k ih =>
    rcases ih (n + 1) (c + 1) (n :: l) with ⟨l', hl⟩
    refine ⟨l', ?_⟩
    rw [List.replicate_succ, List.flatten_cons, runs_append, runs_cycle]
    refine hl.trans ?_
    rw [BitVec.add_assoc, BitVec.add_comm 1, Nat.add_right_comm, BitVec.ofNat_add]
    rfl

/-- After so many forks, each with its `exit` and `wait`, `fork` returns a negative pid. -/
theorem fork_negative : ∃ y, runs Pids.step (List.replicate (2 ^ 31 - 1) cycle).flatten boot =
    .done y ∧ y.count = 2 ^ 31 ∧ ∃ pid ∈ y.returned, pid.toInt < 0 := by
  rcases runs_cycles (2 ^ 31 - 2) 2 1 [] with ⟨l, hl⟩
  rw [show 2 ^ 31 - 1 = (2 ^ 31 - 2) + 1 by decide, List.replicate_succ', List.flatten_append,
    runs_append, show boot = cycled 2 1 [] from rfl, hl]
  exact ⟨_, runs_cycle _ _ l, show 1 + (2 ^ 31 - 2) + 1 = 2 ^ 31 by decide, _,
    List.mem_cons_self, by decide⟩

end Xv6.Pids
