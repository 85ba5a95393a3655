import Xv6.Fs.Proc
import Xv6.Lib.Pool

/-!
# Who Holds Which References

What a process owns while it runs a system call, and how this ties reference
counts to the tables of the kernel.

A process in a call owns references to inodes and files that may be in its
descriptors, in its current directory or just in a variable. Its view counts
them wherever they are. The descriptors themselves are then data that nobody
else touches, and the view has a copy of them. A process outside any call owns
nothing; what its descriptors hold is counted from the process table. The count
in a table is thus the sum of what idle processes have in their tables, what
open files refer to, and what the views own.

A process that forks owns the child as well until the child is runnable.

## Main definitions

* `Fds`: What a process has open.
* `View`: What a process owns and knows in a call.
* `Counted`: The counts in the tables are exact.
* `Local`: When a view permits a step, and the view after it.
-/

namespace Xv6

open Function

structure Fds where
  ofile : Fin NOFILE → Option (Fin NFILE)
  cwd : Option (Fin NINODE)

namespace Fds

def empty : Fds := { ofile := fun _ => none, cwd := none }

/-- How many descriptors stand for a file. -/
def slots (o : Fds) (f : Fin NFILE) : Nat := ∑ fd, if o.ofile fd = some f then 1 else 0

/-- Whether an inode is the current directory. -/
def cwds (o : Fds) (k : Fin NINODE) : Nat := if o.cwd = some k then 1 else 0

def setFd (o : Fds) (fd : Fin NOFILE) (f : Option (Fin NFILE)) : Fds :=
  { o with ofile := update o.ofile fd f }

@[simp] theorem slots_empty : empty.slots = 0 := by
  funext f
  simp only [slots, empty, reduceCtorEq, if_false, Finset.sum_const_zero, Pi.zero_apply]

@[simp] theorem cwds_empty : empty.cwds = 0 := by
  funext k
  simp only [cwds, empty, reduceCtorEq, if_false, Pi.zero_apply]

@[simp] theorem cwds_setFd (o : Fds) (fd : Fin NOFILE) (f : Option (Fin NFILE)) :
    (o.setFd fd f).cwds = o.cwds := rfl

theorem slots_setFd (o : Fds) (fd : Fin NOFILE) (f' : Option (Fin NFILE)) (f : Fin NFILE) :
    (o.setFd fd f').slots f + (if o.ofile fd = some f then 1 else 0) =
      o.slots f + (if f' = some f then 1 else 0) :=
  sum_update (fun _ x => if x = some f then 1 else 0) o.ofile fd f'

theorem slots_open (o : Fds) (fd : Fin NOFILE) (f : Fin NFILE) (h : o.ofile fd = none) :
    (o.setFd fd (some f)).slots = o.slots + Pi.single f 1 := by
  funext g
  have hs := o.slots_setFd fd (some f) g
  rw [h, if_neg (by simp only [reduceCtorEq, not_false_eq_true])] at hs
  rw [Pi.add_apply, Pi.single_apply]
  simp only [Option.some.injEq] at hs
  rw [eq_comm] at hs
  simp only [@eq_comm _ g f]
  omega

theorem slots_close (o : Fds) (fd : Fin NOFILE) (f : Fin NFILE) (h : o.ofile fd = some f) :
    (o.setFd fd none).slots + Pi.single f 1 = o.slots := by
  funext g
  have hs := o.slots_setFd fd none g
  rw [h, if_neg (c := none = some g) (by simp only [reduceCtorEq, not_false_eq_true])] at hs
  rw [Pi.add_apply, Pi.single_apply]
  simp only [Option.some.injEq] at hs
  simp only [@eq_comm _ g f]
  omega

theorem slots_pos (o : Fds) (fd : Fin NOFILE) (f : Fin NFILE) (h : o.ofile fd = some f) :
    1 ≤ o.slots f := by
  have hs := congrFun (o.slots_close fd f h) f
  rw [Pi.add_apply, Pi.single_eq_same] at hs
  omega

end Fds

def Proc.fds (x : Proc) : Fds := { ofile := x.ofile, cwd := x.cwd }

/-- A file that refers to an inode. -/
def FdType.isInode : FdType → Bool
  | inode => true
  | device => true
  | _ => false

/-- Whether a file refers to an inode. -/
def File.inodes (x : File) (k : Fin NINODE) : Nat :=
  if x.type.isInode = true ∧ x.ip = k then 1 else 0

/-- Whether a file is an end of a pipe. -/
def File.ends (x : File) (pi : Nat) (wr : Bool) : Nat :=
  if x.type = .pipe ∧ x.pipe = pi ∧ x.writable = wr then 1 else 0

def PipePage.isOpen (x : PipePage) (wr : Bool) : Bool := if wr then x.writeopen else x.readopen

/-- What `pipeclose` does to the page. -/
def PipePage.shut (wr : Bool) (x : PipePage) : PipePage :=
  let x := if wr then { x with writeopen := false } else { x with readopen := false }
  if x.readopen = false ∧ x.writeopen = false then { x with freed := x.freed + 1 } else x

theorem PipePage.isOpen_shut (wr b : Bool) (x : PipePage) :
    (x.shut wr).isOpen b = if b = wr then false else x.isOpen b := by
  rcases x with ⟨r, w, n⟩
  cases wr <;> cases b <;> cases r <;> cases w <;> rfl

/-- The page goes back with the second end. -/
theorem PipePage.freed_shut (wr : Bool) (x : PipePage) (hx : x.isOpen wr = true)
    (h : x.freed = if x.readopen = false ∧ x.writeopen = false then 1 else 0) :
    (x.shut wr).freed =
      if (x.shut wr).readopen = false ∧ (x.shut wr).writeopen = false then 1 else 0 := by
  rcases x with ⟨r, w, n⟩
  cases wr <;> cases r <;> cases w <;>
    simp_all only [PipePage.isOpen, PipePage.shut, Bool.false_eq_true, Bool.true_eq_false,
      if_true, if_false, and_self, and_true, and_false]

/-- Whether an end of a pipe is open. -/
def endOpen (ps : List PipePage) (pi : Nat) (wr : Bool) : Nat :=
  match ps[pi]? with
  | none => 0
  | some x => if x.isOpen wr then 1 else 0

/-- What a process owns and knows in a call. -/
structure View where
  -- References.
  ino : Fin NINODE → Nat
  fil : Fin NFILE → Nat
  pip : Nat → Bool → Nat
  -- Operations of the log, and sleep locks.
  ops : Nat
  lock : Fin NINODE → Bool
  -- Files that have been allocated but not filled in.
  fresh : Fin NFILE → Bool
  -- Files known to refer to an inode.
  seen : Fin NFILE → Option (Fin NINODE)
  -- Process slots under its control.
  procs : Fin NPROC → Option Fds

namespace View

def idle : View :=
  { ino := 0, fil := 0, pip := 0, ops := 0, lock := fun _ => false, fresh := fun _ => false
    seen := fun _ => none, procs := fun _ => none }

variable (v : View)

def hold (k : Fin NINODE) : View := { v with ino := v.ino + Pi.single k 1 }

def setLock (k : Fin NINODE) (b : Bool) : View := { v with lock := update v.lock k b }

def setOps (n : Nat) : View := { v with ops := n }

def holdFile (f : Fin NFILE) : View := { v with fil := v.fil + Pi.single f 1 }

def setFresh (f : Fin NFILE) (b : Bool) : View :=
  { v with fresh := update v.fresh f b }

def see (f : Fin NFILE) (k : Option (Fin NINODE)) : View :=
  { v with seen := update v.seen f k }

def holdEnd (pi : Nat) (wr : Bool) : View := { v with pip := v.pip + Pi.single pi (Pi.single wr 1) }

def setFds (q : Fin NPROC) (o : Fds) : View :=
  { v with procs := update v.procs q (some o) }

/-- Take control of a process, and with it what it has open. -/
def take (q : Fin NPROC) (o : Fds) : View :=
  { v with
    procs := update v.procs q (some o)
    ino := v.ino + o.cwds
    fil := v.fil + o.slots }

/-- Take over what a file referred to, when its last reference goes. -/
def inherit (x : File) : View := { v with ino := v.ino + x.inodes, pip := v.pip + x.ends }

/-- There is a reference to the inode that will not go away by itself. -/
def Reach (k : Fin NINODE) : Prop := 1 ≤ v.ino k ∨ ∃ f, 1 ≤ v.fil f ∧ v.seen f = some k

/-- Nothing is locked without a reference. -/
def Good : Prop := ∀ k, v.lock k = true → v.Reach k

theorem lock_setLock (k l : Fin NINODE) (b : Bool) :
    (v.setLock k b).lock l = if l = k then b else v.lock l :=
  update_apply v.lock k b l

theorem fresh_setFresh (f : Fin NFILE) (b : Bool) : (v.setFresh f b).fresh f = b :=
  update_self _ _ _

theorem seen_see (f : Fin NFILE) (k : Option (Fin NINODE)) : (v.see f k).seen f = k :=
  update_self _ _ _

theorem fil_holdFile_self (f : Fin NFILE) : (v.holdFile f).fil f = v.fil f + 1 := by
  change v.fil f + (Pi.single f 1 : Fin NFILE → Nat) f = _
  rw [Pi.single_eq_same]

theorem fil_holdFile_of_ne {f g : Fin NFILE} (h : g ≠ f) : (v.holdFile f).fil g = v.fil g := by
  change v.fil g + (Pi.single f 1 : Fin NFILE → Nat) g = _
  rw [Pi.single_eq_of_ne h, Nat.add_zero]

/-- References and what is known may be more. -/
theorem Good.mono {v u : View} (h : v.Good) (hlock : u.lock = v.lock)
    (hino : ∀ k, v.ino k ≤ u.ino k) (hfil : ∀ f, v.fil f ≤ u.fil f)
    (hseen : ∀ f k, 1 ≤ v.fil f → v.seen f = some k → u.seen f = some k) : u.Good := by
  intro l hl
  rw [hlock] at hl
  rcases h l hl with h₁ | ⟨f, hf, hs⟩
  · exact Or.inl (Nat.le_trans h₁ (hino l))
  · exact Or.inr ⟨f, Nat.le_trans hf (hfil f), hseen f l hf hs⟩

theorem good_of_take_empty {v : View} {q : Fin NPROC} (h : (v.take q .empty).Good) : v.Good := by
  intro l hl
  rcases h l hl with h₁ | ⟨f, hf, hs⟩
  · change 1 ≤ v.ino l + Fds.empty.cwds l at h₁
    rw [Fds.cwds_empty] at h₁
    exact Or.inl h₁
  · change 1 ≤ v.fil f + Fds.empty.slots f at hf
    rw [Fds.slots_empty] at hf
    exact Or.inr ⟨f, hf, hs⟩

/-- The view of somebody who has looked at files but owns nothing. -/
def seeing (S : Fin NFILE → Option (Fin NINODE)) : View := { idle with seen := S }

/-- The end of a call: nothing but the process itself, or not even that. -/
def Final (p : Fin NPROC) : Prop := ∃ S, v = seeing S ∨ ∃ o, v = (seeing S).take p o

end View

/-- What process `q` counts for in the tables: nothing while a call controls it. -/
def unowned (W : Fin NPROC → View) (q : Fin NPROC) (n : Nat) : Nat :=
  if ∃ p, (W p).procs q ≠ none then 0 else n

/-- No inode has two entries. -/
def Sole (t : Fin NINODE → Inode) : Prop :=
  ∀ j k, 0 < (t j).ref → 0 < (t k).ref → (t j).dev = (t k).dev → (t j).inum = (t k).inum → j = k

/-- The counts in the tables are exact, and no inode has two entries. -/
structure Counted (s : Kernel) (W : Fin NPROC → View) : Prop where
  inodes : ∀ k, (s.itable k).ref = ((∑ q, unowned W q ((s.proc q).fds.cwds k) +
    ∑ f, (s.ftable f).inodes k + ∑ p, (W p).ino k : Nat) : Int)
  files : ∀ f, (s.ftable f).ref = ((∑ q, unowned W q ((s.proc q).fds.slots f) +
    ∑ p, (W p).fil f : Nat) : Int)
  free : ∀ f, (s.ftable f).ref = 0 → (s.ftable f).type = .none
  ends : ∀ pi wr, endOpen s.pipes pi wr =
    ∑ f, (s.ftable f).ends pi wr + ∑ p, (W p).pip pi wr
  pages : ∀ x ∈ s.pipes, x.freed = if x.readopen = false ∧ x.writeopen = false then 1 else 0
  ops : s.log.outstanding = ∑ p, (W p).ops
  idle : s.log.committing = false
  lock : ∀ k p, (s.itable k).lock = some p ↔ (W p).lock k = true
  good : ∀ p, (W p).Good
  fresh : ∀ p f, (W p).fresh f = true →
    (s.ftable f).ref = 1 ∧ (s.ftable f).type = .none ∧ (W p).fil f = 1
  seen : ∀ p f k, (W p).seen f = some k → 1 ≤ (W p).fil f →
    (s.ftable f).type.isInode = true ∧ (s.ftable f).ip = k
  procs : ∀ p q o, (W p).procs q = some o →
    (s.proc q).fds = o ∧ (s.proc q).state = if q = p then .runnable else .used
  owner : ∀ p p' q, (W p).procs q ≠ none → (W p').procs q ≠ none → p = p'
  gone : ∀ q, (s.proc q).state = .unused ∨ (s.proc q).state = .zombie → (s.proc q).fds = .empty
  sole : Sole s.itable

/-- The panics that exact counts rule out. -/
def BadCount (e : Panic) : Prop := e = .filedup ∨ e = .fileclose ∨ e = .iunlock

instance (e : Panic) : Decidable (BadCount e) := inferInstanceAs (Decidable (_ ∨ _ ∨ _))

/-- When the view of process `p` permits a step, and the view after it. A step
    that gives something up says what is left. -/
def Local (p : Fin NPROC) : (c : Cmd) → View → (c.Ans → View → Prop) → Prop
  | .panic e, _, _ => ¬BadCount e
  | .bread _, v, Q => ∀ r, Q r v
  | .bput _ _, v, Q => Q () v
  | .logWrite _, v, Q => Q () v
  | .beginOp, v, Q => Q () (v.setOps (v.ops + 1))
  | .endOp, v, Q => 1 ≤ v.ops ∧ Q () (v.setOps (v.ops - 1))
  | .iget _ _, v, Q => ∀ k, Q k (v.hold k)
  | .idup k, v, Q => 1 ≤ v.ino k ∧ Q () (v.hold k)
  | .acquire q k, v, Q => q = p ∧ v.Reach k ∧ (v.lock k = false → Q () (v.setLock k true))
  | .release q k, v, Q => q = p ∧ v.lock k = true ∧ Q () (v.setLock k false)
  | .inode _, v, Q => ∀ r, Q r v
  | .setInode _ _, v, Q => Q () v
  | .setValid _ _, v, Q => Q () v
  | .iputTest q k, v, Q =>
    q = p ∧ 1 ≤ v.ino k ∧ (v.lock k = false → Q true (v.setLock k true)) ∧ Q false v
  | .iputUnlock k, v, Q => v.lock k = true ∧ Q () (v.setLock k false)
  | .iputDrop k, v, Q => ∃ u : View, v = u.hold k ∧ u.Good ∧ Q () u
  | .filealloc, v, Q => Q none v ∧ ∀ f, v.fil f = 0 →
      Q (some f) (((v.holdFile f).setFresh f true).see f none)
  | .filedup f, v, Q => 1 ≤ v.fil f ∧ v.fresh f = false ∧ Q () (v.holdFile f)
  | .filedrop f, v, Q => ∃ u : View, v = u.holdFile f ∧
      (v.fresh f = false → u.Good ∧ Q none u) ∧
      ∀ x, (v.fresh f = true → x.type = .none) → ((u.setFresh f false).inherit x).Good ∧
        Q (some x) ((u.setFresh f false).inherit x)
  | .file f, v, Q => 1 ≤ v.fil f ∧
      ∀ x : File, (∀ k, v.seen f = some k → x.type.isInode = true ∧ x.ip = k) →
        Q x (if x.type.isInode then v.see f (some x.ip) else v)
  | .openInode f k _ _ _, v, Q => ∃ u : View, v = u.hold k ∧ v.fresh f = true ∧
      Q () ((u.setFresh f false).see f (some k))
  | .openPipe f pi wr, v, Q => ∃ u : View, v = u.holdEnd pi wr ∧ v.fresh f = true ∧
      Q () (u.setFresh f false)
  | .setOff _ _, v, Q => Q () v
  | .pipealloc, v, Q => ∀ pi, Q pi ((v.holdEnd pi false).holdEnd pi true)
  | .pipeclose pi wr, v, Q => ∃ u : View, v = u.holdEnd pi wr ∧ Q () u
  | .ofile q fd, v, Q => ∃ o, v.procs q = some o ∧ Q (o.ofile fd) v
  | .setOfile q fd f, v, Q => ∃ o, v.procs q = some o ∧ Q () (v.setFds q (o.setFd fd f))
  | .cwd q, v, Q => ∃ o, v.procs q = some o ∧ Q o.cwd v
  | .setCwd q k, v, Q => ∃ o, v.procs q = some o ∧ Q () (v.setFds q { o with cwd := k })
  | .allocproc, v, Q => v.procs p ≠ none ∧ Q none v ∧
      ∀ q, q ≠ p → v.procs q = none → Q (some q) (v.take q .empty)
  | .freeproc q, v, Q => q ≠ p ∧ ∃ u : View, v = u.take q .empty ∧ u.procs q = none ∧ Q () u
  | .setParent _ _, v, Q => Q () v
  | .setRunnable q, v, Q => q ≠ p ∧ ∃ (u : View) (o : Fds), v = u.take q o ∧
      u.procs q = none ∧ u.Good ∧ (∀ f, u.fresh f = false) ∧ Q () u
  | .zombie q, v, Q => q = p ∧ ∃ u : View, v = u.take p .empty ∧ u.procs p = none ∧ Q () u
  | .reap _, v, Q => ∀ r, Q r v

end Xv6
