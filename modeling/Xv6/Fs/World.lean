import Xv6.Fs.Copy

/-!
# The File System as the Calls See It

An abstract state for the file system calls, and how the kernel represents it.

A `World` has files, inodes in memory with their reference counts, and the
number of operations in progress. It has no blocks, no bitmap and no dirty
copies; an inode in memory is just a number that somebody holds on to. What
remains of the reference counting discipline is in `put`: the file of an inode
is gone when the last reference is dropped and no link is left.

`Rep` says that a kernel state represents a world. It contains what has to hold
of the disk, that copies of inodes in memory are up to date, that no inode is in
the table twice, and that a file without links is in memory, where the last
reference will free it.

## Main definitions

* `Ent`, `World`: The abstract state.
* `World.get`, `World.lock`, `World.unlock`, `World.put`: Its operations.
* `World.reap`: Free a file that nothing refers to.
* `Rep`: The kernel represents a world.
-/

namespace Xv6

open Function

structure Ent where
  inum : Nat
  ref : Nat
  lock : Option (Fin NPROC)
  valid : Bool

structure World where
  files : Nat → Option Node
  mem : Fin NINODE → Option Ent
  ops : Nat
  ftable : Fin NFILE → File
  proc : Fin NPROC → Proc
  pipes : List PipePage

namespace World

variable (w : World) (i : Nat) (k : Fin NINODE)

/-- Inode `i` is in memory. -/
def Held : Prop := ∃ k e, w.mem k = some e ∧ e.inum = i

/-- Inode `i` is allocated but has no links. -/
def Dead : Prop := ∃ f, w.files i = some f ∧ f.nlink = 0

/-- The entry of the table that inode `i` has, or may get. -/
def Slot : Prop :=
  (∃ e, w.mem k = some e ∧ e.inum = i) ∨ (w.mem k = none ∧ ¬w.Held i)

/-- There is no entry of the table for inode `i`, and none can be had. -/
def Full : Prop := ¬w.Held i ∧ ∀ k, w.mem k ≠ none

def withFiles (F : Nat → Option Node) : World := { w with files := F }

/-- Another reference to inode `i`. The flag is for a new entry: whether the
    inode has been read from disk. -/
def get (v : Bool) : World :=
  { w with mem := update w.mem k (some (match w.mem k with
      | some e => { e with ref := e.ref + 1 }
      | none => { inum := i, ref := 1, lock := none, valid := v })) }

def modEnt (f : Ent → Ent) : World :=
  { w with mem := update w.mem k ((w.mem k).map f) }

def lock (p : Fin NPROC) : World := w.modEnt k (fun e => { e with lock := some p, valid := true })

def unlock : World := w.modEnt k (fun e => { e with lock := none })

open Classical in
/-- Free a file that nothing refers to. -/
noncomputable def reap : World :=
  if w.Dead i ∧ ¬w.Held i then w.withFiles (update w.files i none) else w

open Classical in
/-- Drop a reference. The last one frees a file without links. -/
noncomputable def put : World :=
  match w.mem k with
  | none => w
  | some e =>
    if e.ref = 1 then
      { w with
        mem := update w.mem k none
        files := if e.valid = true ∧ w.Dead e.inum then update w.files e.inum none
          else w.files }
    else { w with mem := update w.mem k (some { e with ref := e.ref - 1 }) }

/-- No file without links is out of memory. -/
def NoZombie : Prop := ∀ i, w.Dead i → w.Held i

end World

section Equations

variable {w : World} {i j : Nat} {k l : Fin NINODE} {p : Fin NPROC} {v v' : Bool}

theorem World.reap_eq (h : w.NoZombie) : w.reap i = w :=
  if_neg (fun hc => hc.2 (h i hc.1))

theorem World.get_mem_of_ne (h : l ≠ k) : (w.get i k v).mem l = w.mem l :=
  update_of_ne h _ _

theorem World.modEnt_mem_of_ne (f : Ent → Ent) (h : l ≠ k) : (w.modEnt k f).mem l = w.mem l :=
  update_of_ne h _ _

theorem World.get_of_some {e : Ent} (hk : w.mem k = some e) :
    w.get i k v = { w with mem := update w.mem k (some { e with ref := e.ref + 1 }) } := by
  unfold World.get
  rw [hk]

theorem World.get_of_none (hk : w.mem k = none) :
    w.get i k v = { w with mem := update w.mem k (some ⟨i, 1, none, v⟩) } := by
  unfold World.get
  rw [hk]

open Classical in
theorem World.put_last {e : Ent} (hk : w.mem k = some e) (h1 : e.ref = 1) :
    w.put k = { w with
      mem := update w.mem k none
      files := if e.valid = true ∧ w.Dead e.inum then update w.files e.inum none
        else w.files } := by
  unfold World.put
  rw [hk]
  exact if_pos h1

theorem World.put_more {e : Ent} (hk : w.mem k = some e) (h1 : e.ref ≠ 1) :
    w.put k = { w with mem := update w.mem k (some { e with ref := e.ref - 1 }) } := by
  unfold World.put
  rw [hk]
  exact if_neg h1

theorem World.put_get_of_some {e : Ent} (hk : w.mem k = some e) (hpos : 0 < e.ref) :
    (w.get i k v).put k = w := by
  have hk' : (w.get i k v).mem k = some { e with ref := e.ref + 1 } := by
    rw [World.get_of_some hk]
    exact update_self _ _ _
  have hback : update w.mem k (some e) = w.mem := by
    rw [← hk]
    exact update_eq_self _ _
  rw [World.put_more hk' (by simp only; omega), World.get_of_some hk]
  simp only [update_idem, Nat.add_sub_cancel, hback]

theorem World.put_get (hs : w.Slot i k) (hpos : ∀ e, w.mem k = some e → 0 < e.ref) :
    (w.get i k true).put k = w.reap i := by
  rcases hs with ⟨e, hk, he⟩ | ⟨hk, hnot⟩
  · rw [World.put_get_of_some hk (hpos e hk)]
    exact (if_neg (fun hc => hc.2 ⟨k, e, hk, he⟩)).symm
  · have hk' : (w.get i k true).mem k =
        some { inum := i, ref := 1, lock := none, valid := true } := by
      rw [World.get_of_none hk]
      exact update_self _ _ _
    have hback : update w.mem k none = w.mem := by
      rw [← hk]
      exact update_eq_self _ _
    rw [World.put_last hk' rfl, World.get_of_none hk]
    simp only [update_idem, hback]
    by_cases hd : w.Dead i
    · have hreap : w.reap i = w.withFiles (update w.files i none) := if_pos ⟨hd, hnot⟩
      rw [hreap]
      exact congrArg w.withFiles (if_pos ⟨rfl, hd⟩)
    · have hreap : w.reap i = w.withFiles w.files := if_neg (fun hc => hd hc.1)
      rw [hreap]
      exact congrArg w.withFiles (if_neg (fun hc => hd hc.2))

/-- A reference to an inode that was never read, given back. -/
theorem World.put_get_unread (hs : w.Slot i k) (hpos : ∀ e, w.mem k = some e → 0 < e.ref) :
    (w.get i k false).put k = w := by
  rcases hs with ⟨e, hk, he⟩ | ⟨hk, hnot⟩
  · exact World.put_get_of_some hk (hpos e hk)
  · have hk' : (w.get i k false).mem k =
        some { inum := i, ref := 1, lock := none, valid := false } := by
      rw [World.get_of_none hk]
      exact update_self _ _ _
    have hback : update w.mem k none = w.mem := by
      rw [← hk]
      exact update_eq_self _ _
    rw [World.put_last hk' rfl, World.get_of_none hk]
    simp only [update_idem, hback, Bool.false_eq_true, false_and, if_false]

end Equations

/-- An entry of the inode table represents an inode in memory, or none. -/
def EntOk (sb : Superblock) (V : Vol) (x : Inode) : Option Ent → Prop
  | none => x.ref = 0 ∧ x.lock = none
  | some e => x.ref = e.ref ∧ 0 < e.ref ∧ x.dev = ROOTDEV ∧ x.inum = e.inum ∧
      e.inum < sb.ninodes ∧ x.lock = e.lock ∧ x.valid = e.valid ∧
      (e.valid = true → x.d = V.dino e.inum ∧ x.d.type ≠ 0)

/-- The kernel state represents a world. -/
structure Rep (sb : Superblock) (s : Kernel) (w : World) : Prop where
  fs : FsOk sb (vol sb s.blk)
  files : w.files = node (vol sb s.blk)
  ops : s.log.outstanding = w.ops
  idle : s.log.committing = false
  ftable : s.ftable = w.ftable
  proc : s.proc = w.proc
  pipes : s.pipes = w.pipes
  mem : ∀ k, EntOk sb (vol sb s.blk) (s.itable k) (w.mem k)
  uniq : ∀ k l e e', w.mem k = some e → w.mem l = some e' → e.inum = e'.inum → k = l
  zombie : w.NoZombie

section Reps

variable {sb : Superblock} {s s' : Kernel} {w : World} {k : Fin NINODE} {e : Ent}
  {E : Panic → Prop}

theorem Rep.ent (hr : Rep sb s w) (hk : w.mem k = some e) :
    (s.itable k).ref = e.ref ∧ 0 < e.ref ∧ (s.itable k).dev = ROOTDEV ∧
      (s.itable k).inum = e.inum ∧ e.inum < sb.ninodes ∧ (s.itable k).lock = e.lock ∧
      (s.itable k).valid = e.valid ∧
      (e.valid = true → (s.itable k).d = (vol sb s.blk).dino e.inum ∧
        (s.itable k).d.type ≠ 0) := by
  have h := hr.mem k
  rw [hk] at h
  exact h

theorem Rep.setEnt (hr : Rep sb s w) (k : Fin NINODE) (x : Inode) (oe : Option Ent)
    (hx : EntOk sb (vol sb s.blk) x oe)
    (huniq : ∀ e, oe = some e → ∀ l e', l ≠ k → w.mem l = some e' → e'.inum ≠ e.inum)
    (hz : ∀ e, w.mem k = some e → w.Dead e.inum → ∃ e', oe = some e' ∧ e'.inum = e.inum) :
    Rep sb { s with itable := update s.itable k x }
      { w with mem := update w.mem k oe } := by
  refine ⟨hr.fs, hr.files, hr.ops, hr.idle, hr.ftable, hr.proc, hr.pipes, fun l => ?_,
    fun l m e e' he he' heq => ?_, fun i hd => ?_⟩
  · change EntOk sb _ (update s.itable k x l) (update w.mem k oe l)
    by_cases hl : l = k
    · rw [hl, update_self, update_self]
      exact hx
    · rw [update_of_ne hl, update_of_ne hl]
      exact hr.mem l
  · change update w.mem k oe l = some e at he
    change update w.mem k oe m = some e' at he'
    by_cases hl : l = k
    · by_cases hm : m = k
      · rw [hl, hm]
      · rw [hl, update_self] at he
        rw [update_of_ne hm] at he'
        exact absurd heq.symm (huniq e he m e' hm he')
    · rw [update_of_ne hl] at he
      by_cases hm : m = k
      · rw [hm, update_self] at he'
        exact absurd heq (huniq e' he' l e hl he)
      · rw [update_of_ne hm] at he'
        exact hr.uniq l m e e' he he' heq
  · rcases hr.zombie i hd with ⟨l, e, hl, he⟩
    by_cases hlk : l = k
    · rw [hlk] at hl
      rcases hz e hl (by rw [he]; exact hd) with ⟨e', h₁, h₂⟩
      exact ⟨k, e', (update_self _ _ _).trans h₁, h₂.trans he⟩
    · exact ⟨l, e, (update_of_ne hlk _ _).trans hl, he⟩

theorem Rep.modEnt (hr : Rep sb s w) (hk : w.mem k = some e) (x : Inode) (f : Ent → Ent)
    (hinum : (f e).inum = e.inum) (hx : EntOk sb (vol sb s.blk) x (some (f e))) :
    Rep sb { s with itable := update s.itable k x } (w.modEnt k f) := by
  unfold World.modEnt
  rw [hk]
  refine hr.setEnt k x (some (f e)) hx (fun e' he' l e'' hl hle => ?_) (fun e' he' hd => ?_)
  · rw [← Option.some.inj he', hinum]
    exact fun hc => hl (hr.uniq l k e'' e hle hk hc)
  · rw [hk] at he'
    rw [← Option.some.inj he']
    exact ⟨f e, rfl, hinum⟩

end Reps

end Xv6
