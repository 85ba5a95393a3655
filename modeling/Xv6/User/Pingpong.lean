import Xv6.Lib.Machine
import Xv6.Sh.Model
import Mathlib.Data.List.Infix

/-!
# pingpong

`main` of `user/pingpong.c` after `fork`: two processes that have both ends of one pipe.

Each process is the list of the calls it still has to make. A call is one step. The pipe
has room for all that is ever written, and a process that reads has a write end itself, so
`read` waits for as long as the pipe is empty. The parent and the child take their steps
in any order.

Nothing keeps the parent from reading the message it has just written. Then the child
waits for a message for ever, and the parent waits for the child.

## Main definitions

* `parentMain`, `childMain`: The calls of the two processes.
* `System`, `step`: The two processes and the pipe.
* `Blocked`: A process waits, and always will.
* `Exchanged`: What is wanted of a state.

## Theorems

* `exchanged_iff`: The exchange works exactly if the child reads first.
* `parent_reads_own`: A schedule in which the parent does.
-/

namespace Xv6.Pingpong

open Sh (chr)

inductive Who where
  | parent
  | child
  deriving DecidableEq, Repr

/-- What is printed, after the number of the process. -/
inductive Msg where
  -- ": received ping\n" and ": received pong\n".
  | ping
  | pong
  deriving DecidableEq, Repr

inductive Call where
  | read
  | write (data : List Byte)
  | print (msg : Msg)
  | wait
  deriving DecidableEq, Repr

/-- The two bytes of `"f"` and `"c"`. -/
def f : List Byte := [chr 'f', 0]
def c : List Byte := [chr 'c', 0]

def parentMain : List Call := [.write f, .read, .print .pong, .wait]
def childMain : List Call := [.read, .print .ping, .write c]

/-- A process: the calls to come, and what `read` has returned. A process without calls
    has exited. -/
structure Proc where
  todo : List Call
  got : Option (List Byte)
  deriving DecidableEq, Repr

structure System where
  parent : Proc
  child : Proc
  pipe : List Byte
  out : List Msg
  deriving DecidableEq, Repr

namespace System

def proc (s : System) : Who → Proc
  | .parent => s.parent
  | .child => s.child

def setProc (s : System) : Who → Proc → System
  | .parent, p => { s with parent := p }
  | .child, p => { s with child := p }

end System

/-- `fork` has returned in both. -/
def boot : System :=
  { parent := ⟨parentMain, none⟩, child := ⟨childMain, none⟩, pipe := [], out := [] }

/-- `sizeof(buffer)`. -/
def BUFFER : Nat := 1024

def step (s : System) (w : Who) : Outcome Empty System :=
  let p := s.proc w
  match p.todo with
  | [] => .wait
  | .read :: todo =>
    if s.pipe = [] then .wait
    else .done { s.setProc w ⟨todo, some (s.pipe.take BUFFER)⟩ with pipe := s.pipe.drop BUFFER }
  | .write data :: todo =>
    if s.pipe.length + data.length ≤ PIPESIZE then
      .done { s.setProc w { p with todo := todo } with pipe := s.pipe ++ data }
    else .wait
  | .print msg :: todo => .done { s.setProc w { p with todo := todo } with out := s.out ++ [msg] }
  | .wait :: todo =>
    if s.child.todo = [] then .done (s.setProc w { p with todo := todo }) else .wait

/-- The process has not exited, and no schedule lets it take a step. -/
def Blocked (s : System) (w : Who) : Prop :=
  (s.proc w).todo ≠ [] ∧ ∀ es s', runs step es s = .done s' → step s' w = .wait

/-- Each has read what the other wrote, as far as it has read; `ping` is printed before
    `pong`; and none is blocked. -/
structure Exchanged (s : System) : Prop where
  child : ∀ d, s.child.got = some d → d = f
  parent : ∀ d, s.parent.got = some d → d = c
  order : s.out <+: [.ping, .pong]
  free : ∀ w, ¬ Blocked s w

/-- The schedule in which the child reads first, and the one in which the parent does. -/
def childFirst : List Who := [.parent, .child, .child, .child, .parent, .parent, .parent]
def parentFirst : List Who := [.parent, .parent, .parent]

def schedules : List (List Who) := childFirst.inits ++ parentFirst.inits

theorem mem_schedules (es : List Who) (s : System) (h : runs step es boot = .done s) :
    es ∈ schedules := by
  induction es using List.reverseRecOn generalizing s with
  | nil => decide
  | append_singleton es w ih =>
    have hnext : ∀ es ∈ schedules, es ++ [w] ∈ schedules ∨
        (runs step (es ++ [w]) boot).check (fun _ => true) = false := by
      cases w <;> decide
    rw [runs_append] at h
    rcases (Outcome.bind_eq_done _ _ _).mp h with ⟨s', hs', -⟩
    rcases hnext es (ih s' hs') with hmem | hcheck
    · exact hmem
    · rw [runs_append, h] at hcheck
      nomatch hcheck

theorem not_blocked {s : System} {w : Who} {es : List Who}
    (h : (runs step (es ++ [w]) s).check (fun _ => true) = true) : ¬ Blocked s w := by
  intro hb
  rcases Outcome.exists_of_check _ _ h with ⟨s', hs', -⟩
  rw [runs_append] at hs'
  rcases (Outcome.bind_eq_done _ _ _).mp hs' with ⟨s'', hs'', hw⟩
  rw [runs_cons, hb.2 es s'' hs''] at hw
  nomatch hw

/-- `Exchanged` as a test. A process that can take a step later can take it on the way of
    `childFirst`. -/
def exchanged (s : System) : Bool :=
  decide (∀ d ∈ s.child.got, d = f) && decide (∀ d ∈ s.parent.got, d = c) &&
    decide (s.out <+: [.ping, .pong]) &&
    [Who.parent, Who.child].all (fun w => decide ((s.proc w).todo = []) ||
      childFirst.tails.any (fun fs => fs.inits.any (fun es =>
        (runs step (es ++ [w]) s).check (fun _ => true))))

theorem Exchanged.of_test {s : System} (h : exchanged s = true) : Exchanged s := by
  simp only [exchanged, Bool.and_eq_true, decide_eq_true_eq, List.all_eq_true, Bool.or_eq_true,
    List.any_eq_true] at h
  rcases h with ⟨⟨⟨hchild, hparent⟩, horder⟩, hfree⟩
  refine ⟨hchild, hparent, horder, fun w => ?_⟩
  rcases hfree w (by cases w <;> decide) with hdone | ⟨fs, -, es, -, hes⟩
  · exact fun hb => hb.1 hdone
  · exact not_blocked hes

/-- The exchange works in every state of a schedule exactly if the parent does not take
    its second step, which is to read, right after its first. -/
theorem exchanged_iff (es : List Who) (s : System) (h : runs step es boot = .done s) :
    Exchanged s ↔ ¬ [.parent, .parent] <+: es := by
  have hmem := mem_schedules es s h
  have hgood : ∀ es ∈ schedules, ¬ [.parent, .parent] <+: es →
      (runs step es boot).check exchanged = true := by decide
  have hbad : ∀ es ∈ schedules, [.parent, .parent] <+: es →
      (runs step es boot).check (fun s => decide (s.parent.got = some f)) = true := by decide
  constructor
  · intro hs hp
    have hgot := hbad es hmem hp
    rw [h] at hgot
    exact nomatch (hs.parent f (of_decide_eq_true hgot))
  · intro hp
    have htest := hgood es hmem hp
    rw [h] at htest
    exact .of_test htest

/-- The whole exchange, when the child reads first. -/
theorem exchanged_childFirst : ∃ s, runs step childFirst boot = .done s ∧ Exchanged s ∧
    s.parent.got = some c ∧ s.child.got = some f ∧ s.out = [.ping, .pong] :=
  ⟨_, rfl, (exchanged_iff childFirst _ rfl).mpr (by decide), rfl, rfl, rfl⟩

/-- Where `parentFirst` ends. -/
def deadlock : System :=
  { parent := ⟨[.wait], some f⟩, child := ⟨childMain, none⟩, pipe := [], out := [.pong] }

theorem blocked_deadlock (w : Who) : Blocked deadlock w := by
  have hwait : ∀ w, step deadlock w = .wait := by
    intro w
    cases w <;> rfl
  refine ⟨by cases w <;> decide, fun es s' h => ?_⟩
  cases es with
  | nil =>
    cases h
    exact hwait w
  | cons e es =>
    rw [runs_cons, hwait e] at h
    nomatch h

/-- The parent reads its own message, and both processes are blocked in the end. -/
theorem parent_reads_own : runs step parentFirst boot = .done deadlock ∧
    deadlock.parent.got = some f ∧ ∀ w, Blocked deadlock w :=
  ⟨rfl, rfl, blocked_deadlock⟩

end Xv6.Pingpong
