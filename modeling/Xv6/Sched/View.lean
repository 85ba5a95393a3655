import Xv6.Lib.Pool
import Xv6.Sched.Code

/-!
# What a Thread Knows

The view a kernel thread has of the machine, and the steps it permits.

A thread that holds a lock has a copy of what the lock protects, since nobody
else can change it. Beyond that its view records what the thread is in the
middle of: a child that is not yet runnable, a zombie that is being freed, a
process that the scheduler has picked. These are facts about state whose lock
the thread may have given up for a while.

The wakeups are accounted for by `clear`. While a thread holds the lock of a
wait `w`, nobody can start to sleep for it, and so what the thread finds out
about the sleepers stays true: `clear w p` says that process `p` does not sleep
for `w`. The lock may be given up only if every wait whose condition has come
true is clear for all processes. A writer that leaves its pipe without a wakeup
says so first, and its readers count as clear.

## Main definitions

* `Table`: What `wait_lock` protects.
* `View`: What a thread owns and knows.
* `Local`: When a view permits a step, and the view after it.
* `swp`: The weakest precondition of a program on its view.
-/

namespace Xv6.Sched

open Function (update)

/-- What `wait_lock` protects: the parents, and who is a zombie. -/
structure Table (np : Nat) where
  parent : Fin np → Option (Fin np)
  dead : Fin np → Bool

namespace Table

variable {np : Nat}

/-- A process has a child to be waited for. -/
def Ready (T : Table np) (p : Fin np) : Prop := ∃ q, T.parent q = some p ∧ T.dead q = true

def setParent (T : Table np) (q : Fin np) (o : Option (Fin np)) : Table np :=
  { T with parent := update T.parent q o }

def setDead (T : Table np) (q : Fin np) (b : Bool) : Table np :=
  { T with dead := update T.dead q b }

end Table

def Machine.table {np nc : Nat} {D : Type} (m : Machine np nc D) : Table np where
  parent := m.parent
  dead := fun q => decide ((m.slot q).state = .zombie)

structure View (np : Nat) (D : Type) where
  -- What the locks protect that the thread holds, and how many they are.
  slot : Fin np → Option (Slot np D)
  tab : Option (Table np)
  pid : Bool
  key : (k : Key) → Option (k.Val D)
  depth : Nat
  -- `c->proc` on the CPU of the thread.
  cproc : Option (Fin np)
  -- What the thread is in the middle of. A child that is not yet runnable may
  -- have its parent and its thread set.
  born : Option (Fin np)
  named : Bool
  spawned : Bool
  reaping : Option (Fin np)
  picked : Option (Fin np)
  commit : Option (Nap D)
  window : Bool
  -- Who does not sleep for what.
  clear : Nap D → Fin np → Prop
  -- The pid that `kill` has found.
  struck : Option (BitVec 32)

namespace View

variable {np nc : Nat} {D : Type} (v : View np D)

/-- The thread holds a lock. -/
def owns : Lock np → Prop
  | .proc q => v.slot q ≠ none
  | .wait => v.tab ≠ none
  | .pid => v.pid = true
  | .key k => v.key k ≠ none

def lockSlot (q : Fin np) (x : Slot np D) : View np D :=
  { v with slot := update v.slot q (some x), depth := v.depth + 1 }

def setSlot (q : Fin np) (x : Slot np D) : View np D :=
  { v with slot := update v.slot q (some x) }

/-- A slot is given up, and what was seen in it is kept. -/
def unlockSlot (q : Fin np) (x : Slot np D) : View np D :=
  { v with
    slot := update v.slot q none
    depth := v.depth - 1
    clear := fun w p => v.clear w p ∨ (p = q ∧ x.nap ≠ some w ∧ v.owns w.lock) }

/-- The thread is not running any more. -/
def park (p : Fin np) : View np D :=
  { v with slot := update v.slot p none, depth := 0, picked := none }

def lockTab (T : Table np) : View np D :=
  { v with
    tab := some T
    depth := v.depth + 1
    clear := fun w p => v.clear w p ∨ (w = .wait ∧ T.Ready p) }

def setTab (T : Table np) : View np D := { v with tab := some T }

def unlockTab : View np D :=
  { v with tab := none, depth := v.depth - 1, clear := fun w p => v.clear w p ∧ w ≠ .wait }

def lockPid : View np D := { v with pid := true, depth := v.depth + 1 }

def unlockPid : View np D := { v with pid := false, depth := v.depth - 1 }

def lockKey (k : Key) (x : k.Val D) : View np D :=
  { v with
    key := update v.key k (some x)
    depth := v.depth + 1
    clear := fun w p => v.clear w p ∨ w.readyAt k x }

def setKey (k : Key) (x : k.Val D) : View np D :=
  { v with key := update v.key k (some x) }

def unlockKey (k : Key) : View np D :=
  { v with
    key := update v.key k none
    depth := v.depth - 1
    clear := fun w p => v.clear w p ∧ w.lock ≠ (Lock.key k : Lock np) }

/-- A process that runs does not sleep. -/
def knowSelf (t : Thread np nc) : View np D :=
  { v with clear := fun w p => v.clear w p ∨
      (t = .proc p ∧ v.commit = none ∧ v.slot p = none ∧ v.owns w.lock) }

/-- The view of a scheduler between two processes. -/
def idle : View np D where
  slot := fun _ => none
  tab := none
  pid := false
  key := fun _ => none
  depth := 0
  cproc := none
  born := none
  named := false
  spawned := false
  reaping := none
  picked := none
  commit := none
  window := false
  clear := fun _ _ => False
  struck := none

/-- The view of a process in user space. -/
def home (p : Fin np) : View np D := { idle with cproc := some p }

end View

/-- A slot that the thread of its process does not hold: a process with a reason
    to sleep is asleep. -/
def NapOk {np : Nat} {D : Type} (q : Fin np) (x : Slot np D) : Prop :=
  ∀ w, x.nap = some w → x.state = .sleeping ∧ x.chan = some (w.chan q)

section Local

variable {np nc : Nat} {D : Type} (init : Fin np) (t : Thread np nc)

/-- What a thread can find in a slot when it takes the lock. -/
structure Admits (v : View np D) (q : Fin np) (x : Slot np D) : Prop where
  self : t = .proc q → x.state = .running ∧ x.nap = none
  other : t ≠ .proc q → NapOk q x
  born : v.born = some q → x.state = .used
  dead : ∀ T, v.tab = some T → (T.dead q = true ↔ x.state = .zombie)

/-- When a thread may give up the lock of a slot. -/
structure MayRelease (v : View np D) (q : Fin np) (x : Slot np D) : Prop where
  self : t = .proc q → x.state = .running ∧ v.commit = none
  picked : v.picked ≠ some q
  reaping : v.reaping ≠ some q
  sched : ∀ c, t = .sched c → v.cproc = none

/-- When a view permits a write to a slot it owns, and the view after it. The
    number is that of a new incarnation. -/
def Move (v : View np D) (q : Fin np) (x : Slot np D) : Write np D → (View np D → Prop) → Prop
  | .alloc pid, Q => x.state = .unused ∧ v.born = none ∧ (∃ p, t = .proc p ∧ p ≠ q) ∧
      ∀ n, Q { v.setSlot q ((Write.alloc pid : Write np D).apply n x) with
        born := some q, named := false, spawned := false }
  | .free, Q => t ≠ .proc q ∧
      ((x.state = .used ∧ v.born = some q ∧ v.named = false ∧
        Q { v.setSlot q (Write.free.apply 0 x) with born := none, spawned := false }) ∨
      (v.reaping = some q ∧ ∃ T, v.tab = some T ∧ T.parent q = none ∧
        Q { (v.setSlot q (Write.free.apply 0 x)).setTab (T.setDead q false) with
          reaping := none }))
  | .ready, Q => t ≠ .proc q ∧ x.state = .used ∧ v.born = some q ∧ v.named = true ∧
      v.spawned = true ∧ Q { v.setSlot q (Write.ready.apply 0 x) with
        born := none, named := false, spawned := false }
  | .exit status, Q => t = .proc q ∧ q ≠ init ∧ x.state = .running ∧ v.commit = none ∧
      ∃ T, v.tab = some T ∧ (∀ r, T.parent r ≠ some q) ∧
        Q ((v.setSlot q ((Write.exit status : Write np D).apply 0 x)).setTab (T.setDead q true))
  | .run, Q => (∃ c, t = .sched c) ∧ x.state = .runnable ∧
      Q { v.setSlot q (Write.run.apply 0 x) with picked := some q }
  | .yield, Q => t = .proc q ∧ x.state = .running ∧ v.commit = none ∧
      Q (v.setSlot q (Write.yield.apply 0 x))
  | .commit w, Q => t = .proc q ∧ x.state = .running ∧ v.commit = none ∧
      ((∃ k y, w.lock = (.key k : Lock np) ∧ v.key k = some y ∧ ¬w.readyAt k y) ∨
        (w = .wait ∧ ∃ T, v.tab = some T ∧ ¬T.Ready q)) ∧
      (w.killable = true → v.window = true) ∧
      Q { v.setSlot q ((Write.commit w : Write np D).apply 0 x) with
        commit := some w
        clear := fun w' p => v.clear w' p ∧ (p = q → w' ≠ w) }
  | .sleep ch, Q => t = .proc q ∧ x.state = .running ∧
      (∃ w, v.commit = some w ∧ ch = w.chan q) ∧ v.window = false ∧
      Q { v.setSlot q ((Write.sleep ch : Write np D).apply 0 x) with commit := none }
  | .tidy, Q => t = .proc q ∧ x.state = .running ∧ v.commit = none ∧
      Q (v.setSlot q (Write.tidy.apply 0 x))
  | .wake, Q => t ≠ .proc q ∧ x.state = .sleeping ∧ Q (v.setSlot q (Write.wake.apply 0 x))
  | .kill pid, Q => x.pid = pid ∧ (t = .proc q → v.commit = none) ∧
      Q { v.setSlot q ((Write.kill pid : Write np D).apply 0 x) with struck := some pid }
  | .setkilled, Q => t = .proc q ∧ x.state = .running ∧ v.commit = none ∧ v.window = false ∧
      Q (v.setSlot q (Write.setkilled.apply 0 x))

/-- When the view of thread `t` permits a step, and the view after it. -/
def Local : (c : Cmd np D) → View np D → (c.Ans → View np D → Prop) → Prop
  | .panic e, _, _ => e = .initExiting
  | .acquire (.proc q), v, Q => v.slot q = none ∧
      ∀ x, Admits t v q x → Q () (v.lockSlot q x)
  | .acquire .wait, v, Q => v.tab = none ∧ (∀ q, v.slot q = none) ∧
      ∀ T : Table np, (∀ q, v.born = some q → T.dead q = false) → Q () (v.lockTab T)
  | .acquire .pid, v, Q => v.pid = false ∧ Q () v.lockPid
  | .acquire (.key k), v, Q => v.key k = none ∧ ∀ x, Q () (v.lockKey k x)
  | .release (.proc q), v, Q => ∃ x, v.slot q = some x ∧ MayRelease t v q x ∧
      Q () (v.unlockSlot q x)
  | .release .wait, v, Q => v.reaping = none ∧ (∀ c, t ≠ .sched c) ∧
      ∃ T, v.tab = some T ∧ (∀ p, T.Ready p → v.clear .wait p) ∧ Q () v.unlockTab
  | .release .pid, v, Q => v.pid = true ∧ (∀ c, t ≠ .sched c) ∧ Q () v.unlockPid
  | .release (.key k), v, Q => (∀ c, t = .sched c → v.cproc = none) ∧
      ∃ x, v.key k = some x ∧ (∀ w p, w.readyAt k x → v.clear w p) ∧ Q () (v.unlockKey k)
  | .holding l, v, Q => (v.owns l → Q true v) ∧ (¬v.owns l → Q false v)
  | .noff, v, Q => Q v.depth v
  | .cpuid, v, Q => ∀ n, Q n v
  | .myproc, v, Q => Q v.cproc (v.knowSelf t)
  | .setProc o, v, Q => (∃ c, t = .sched c) ∧ (o = none ∨ v.depth = 1) ∧
      Q () { v with cproc := o }
  | .read q, v, Q => (∃ x, v.slot q = some x ∧ Q x v) ∨
      (t = .proc q ∧ v.slot q = none ∧ ∀ x, x.state = .running → Q x v)
  | .dump _, v, Q => v.key .cons ≠ none ∧ ∀ x, Q x v
  | .write q w, v, Q => ∃ x, v.slot q = some x ∧ Move init t v q x w (Q ())
  | .parent q, v, Q => ∃ T, v.tab = some T ∧ Q (T.parent q) v
  | .setParent q none, v, Q =>
    (v.born = some q ∧ v.named = false ∧ v.tab = none ∧ Q () v) ∨
    (v.reaping = some q ∧ ∃ T, v.tab = some T ∧ Q () (v.setTab (T.setParent q none)))
  | .setParent q (some r), v, Q => ∃ T, v.tab = some T ∧
      ((t = .proc r ∧ v.slot r = none ∧ v.born = some q ∧ v.named = false ∧
        Q () { v.setTab (T.setParent q (some r)) with named := true }) ∨
      (r = init ∧ v.born = none ∧ (∃ p, t = .proc p ∧ T.parent q = some p) ∧
        Q () (v.setTab (T.setParent q (some r)))))
  | .nextpid, v, Q => v.pid = true ∧ ∀ n, Q n v
  | .setNextpid _, v, Q => v.pid = true ∧ Q () v
  | .get k, v, Q => ∃ x, v.key k = some x ∧ Q x v
  | .set k x, v, Q => v.key k ≠ none ∧ Q () (v.setKey k x)
  | .swtch none, v, Q => ∃ p x, t = .proc p ∧ v.slot p = some x ∧ v.depth = 1 ∧
      x.state ≠ .running ∧ v.commit = none ∧
      ((x.state = .zombie ∧ v.park p = .home p) ∨
        ((x.state = .runnable ∨ x.state = .sleeping) ∧
          ∀ y : Slot np D, y.state = .running → y.nap = none → Q () ((v.park p).lockSlot p y)))
  | .swtch (some q), v, Q => (∃ c, t = .sched c) ∧ v.picked = some q ∧ v.depth = 1 ∧
      v.cproc = some q ∧ ∀ y : Slot np D, y.state ≠ .running → NapOk q y →
        Q () ((v.park q).lockSlot q y)
  | .spawn q, v, Q => t ≠ .proc q ∧ v.born = some q ∧ v.slot q ≠ none ∧
      Q () { v with spawned := true }
  | .flip, v, Q => ∀ b, Q b v
  | .copyout _ _, v, Q => ∀ b, Q b v
  | .trap, v, Q => ∀ tr : Trap D, Q tr v
  | .window p b, v, Q => t = .proc p ∧
      (b = true → ∃ x, v.slot p = some x ∧ x.killed = false ∧ v.commit = none) ∧
      Q () { v with window := b }
  | .rude i, v, Q => v.key (.pipe i) ≠ none ∧
      Q () { v with clear := fun w p => v.clear w p ∨ w = .read i }
  | .reaped q p e, v, Q => t = .proc p ∧ t ≠ .proc q ∧ v.reaping = none ∧
      (∃ T, v.tab = some T ∧ T.parent q = some p) ∧
      (∃ x, v.slot q = some x ∧ x.state = .zombie ∧ x.ending = e) ∧
      Q () { v with reaping := some q }
  | .returned pid r, v, Q => (r = 0 → v.struck = some pid) ∧ Q () { v with struck := none }

/-- The weakest precondition of a program on the view of its thread. -/
@[irreducible] def swp {α : Type} (x : P np D α) (Q : α → View np D → Prop) (v : View np D) :
    Prop :=
  lwp (Local init t) x Q v

end Local

end Xv6.Sched
