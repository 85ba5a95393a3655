import Xv6.Fs.Quiet

/-!
# System Calls Give Back What They Take

The programs of the kernel on the views of their processes.

A function that takes a reference adds it to the view, one that drops a
reference finds it there, and a system call ends with the process as its only
possession. This has to hold on every path, because the answers a program gets
are arbitrary as far as its view is concerned.

A descriptor or the current directory may run ahead of the reference it stands for,
or lag behind; `View.take_open` and its companions say when the two agree again.

## Main definitions

* `View.locked`: An inode held and locked.
-/

namespace Xv6

variable {Q : Unit → View → Prop} {o : Fds} {f : Fin NFILE}

open Function

namespace View

variable (v : View)

/-- An inode held and locked. -/
def locked (k : Fin NINODE) : View := (v.hold k).setLock k true

theorem hold_comm (a b : Fin NINODE) : (v.hold a).hold b = (v.hold b).hold a := by
  unfold hold
  simp only [add_assoc, add_comm (Pi.single a 1)]

theorem locked_hold (a b : Fin NINODE) : (v.locked a).hold b = (v.hold b).locked a := by
  unfold locked
  rw [v.hold_comm b a]
  rfl

theorem locked_comm {a b : Fin NINODE} (hab : a ≠ b) :
    (v.locked a).locked b = (v.locked b).locked a := by
  unfold locked setLock hold
  simp only [add_assoc, add_comm (Pi.single a 1), update_comm hab.symm]

theorem lock_locked (k l : Fin NINODE) :
    (v.locked k).lock l = if l = k then true else v.lock l := (v.hold k).lock_setLock k l true

theorem setLock_setLock (k : Fin NINODE) (b : Bool) (h : v.lock k = false) :
    (v.setLock k b).setLock k false = v := by
  unfold setLock
  simp only [update_idem]
  rw [← h, update_eq_self]

theorem unlock_locked (k : Fin NINODE) (h : v.lock k = false) :
    (v.locked k).setLock k false = v.hold k :=
  (v.hold k).setLock_setLock k true h

theorem setFresh_setFresh (f : Fin NFILE) (b : Bool) (h : v.fresh f = false) :
    (v.setFresh f b).setFresh f false = v := by
  unfold setFresh
  simp only [update_idem]
  rw [← h, update_eq_self]

theorem setFresh_self (f : Fin NFILE) (h : v.fresh f = false) : v.setFresh f false = v := by
  unfold setFresh
  rw [← h, update_eq_self]

variable {v}

theorem Good.hold (h : v.Good) (k : Fin NINODE) : (v.hold k).Good :=
  h.mono rfl (fun _ => Nat.le_add_right _ _) (fun _ => le_rfl) (fun _ _ _ hs => hs)

theorem reach_hold (k : Fin NINODE) : (v.hold k).Reach k := by
  refine Or.inl ?_
  change 1 ≤ v.ino k + (Pi.single k 1 : Fin NINODE → Nat) k
  rw [Pi.single_eq_same]
  omega

theorem Good.locked (h : v.Good) (k : Fin NINODE) : (v.locked k).Good := by
  intro l hl
  rw [lock_locked] at hl
  by_cases hlk : l = k
  · rw [hlk]
    exact reach_hold k
  · rw [if_neg hlk] at hl
    exact h.hold k l hl

theorem good_of_lock (h : ∀ k, v.lock k = false) : v.Good := by
  intro k hk
  rw [h k] at hk
  exact nomatch hk

end View

section Inodes

variable {p : Fin NPROC} {v : View} {k : Fin NINODE} (sb : Superblock)

theorem iunlock_owp (Q : Unit → View → Prop) (hl : v.lock k = true)
    (hQ : Q () (v.setLock k false)) : owp p (iunlock p k) Q v :=
  (owp_issue (.release p k) Q).mpr ⟨rfl, hl, hQ⟩

theorem ilock_owp (hr : v.Reach k)
    (hQ : v.lock k = false → Q () (v.setLock k true)) : owp p (ilock sb p k) Q v := by
  unfold ilock
  refine owp_seq ((owp_issue (.acquire p k) _).mpr ⟨rfl, hr, fun hl => ?_⟩)
  refine owp_neutral ?_ (fun _ => hQ hl)
  refine (neutral_getInode k).bind (fun i => neutral_ite _ (neutral_pure ()) ?_)
  exact (neutral_bread _).bind (fun d => (neutral_setInode _ _).bind (fun _ =>
    (neutral_setValid _ _).bind (fun _ => neutral_ite _ (neutral_panic (by decide))
      (neutral_pure ()))))

theorem ilock_hold_owp (hQ : v.lock k = false → Q () (v.locked k)) :
    owp p (ilock sb p k) Q (v.hold k) :=
  ilock_owp sb (View.reach_hold k) hQ

theorem iput_owp (Q : Unit → View → Prop) (hg : v.Good) (hQ : Q () v) :
    owp p (iput sb p k) Q (v.hold k) := by
  have hdrop : owp p (iputDrop k) Q (v.hold k) :=
    (owp_issue (.iputDrop k) Q).mpr ⟨v, rfl, hg, hQ⟩
  unfold iput
  refine owp_seq ((owp_issue (.iputTest p k) _).mpr ⟨rfl, ?_, fun hl => ?_, ?_⟩)
  · change 1 ≤ v.ino k + (Pi.single k 1 : Fin NINODE → Nat) k
    rw [Pi.single_eq_same]
    omega
  · beta_reduce
    rw [if_pos rfl]
    refine owp_skip (neutral_itrunc sb k) (fun _ => ?_)
    refine owp_skip (neutral_getInode k) (fun i => ?_)
    refine owp_skip (neutral_setInode k _) (fun _ => ?_)
    refine owp_skip (neutral_iupdate sb k) (fun _ => ?_)
    refine owp_skip (neutral_setValid k _) (fun _ => ?_)
    refine owp_seq ((owp_issue (.iputUnlock k) _).mpr
      ⟨(v.hold k).lock_setLock k k true ▸ if_pos rfl, ?_⟩)
    rw [View.setLock_setLock _ k true hl]
    exact hdrop
  · beta_reduce
    rw [if_neg Bool.false_ne_true]
    exact hdrop

theorem iunlockput_owp (hl : v.lock k = false) (hg : v.Good)
    (hQ : Q () v) : owp p (iunlockput sb p k) Q (v.locked k) := by
  unfold iunlockput
  refine owp_seq (iunlock_owp _ (by rw [View.lock_locked, if_pos rfl]) ?_)
  rw [View.unlock_locked _ _ hl]
  exact iput_owp sb Q hg hQ

theorem iallocFrom_owp (dev : Nat) (type : BitVec 16) (n i : Nat)
    {Q : Option (Fin NINODE) → View → Prop} (hnone : Q none v)
    (hsome : ∀ k, Q (some k) (v.hold k)) : owp p (iallocFrom sb dev type n i) Q v := by
  induction n generalizing i with
  | zero =>
    unfold iallocFrom
    exact owp_ret hnone
  | succ n ih =>
    unfold iallocFrom
    refine owp_skip (neutral_bread _) (fun d => ?_)
    split
    · refine owp_skip (neutral_bput _ _) (fun _ => ?_)
      refine owp_skip (neutral_logWrite _) (fun _ => ?_)
      refine owp_seq ((owp_issue (.iget dev i) _).mpr (fun k => ?_))
      exact owp_ret (hsome k)
    · exact ih (i + 1)

theorem ialloc_owp (dev : Nat) (type : BitVec 16) {Q : Option (Fin NINODE) → View → Prop}
    (hnone : Q none v) (hsome : ∀ k, Q (some k) (v.hold k)) :
    owp p (ialloc sb dev type) Q v :=
  iallocFrom_owp sb dev type _ _ hnone hsome

theorem dirlookupFrom_owp (dp : Fin NINODE) (dev size : Nat) (name : List Byte) (fuel off : Nat)
    {Q : Option (Fin NINODE × Nat) → View → Prop} (hnone : Q none v)
    (hsome : ∀ k off, Q (some (k, off)) (v.hold k)) :
    owp p (dirlookupFrom sb dp dev size name fuel off) Q v := by
  induction fuel generalizing off with
  | zero =>
    unfold dirlookupFrom
    exact owp_ret hnone
  | succ fuel ih =>
    unfold dirlookupFrom
    split
    · refine owp_skip (neutral_readi sb dp _ _ _) (fun r => ?_)
      split
      · exact owp_panic _ (by decide)
      · simp only
        split
        · exact ih (off + 16)
        · split
          · refine owp_seq ((owp_issue (.iget dev _) _).mpr (fun k => ?_))
            exact owp_ret (hsome k off)
          · exact ih (off + 16)
    · exact owp_ret hnone

theorem dirlookup_owp (dp : Fin NINODE) (name : List Byte)
    {Q : Option (Fin NINODE × Nat) → View → Prop} (hnone : Q none v)
    (hsome : ∀ k off, Q (some (k, off)) (v.hold k)) : owp p (dirlookup sb dp name) Q v := by
  unfold dirlookup
  refine owp_skip (neutral_getInode dp) (fun i => ?_)
  split
  · exact owp_panic _ (by decide)
  · exact dirlookupFrom_owp sb dp _ _ name _ _ hnone hsome

theorem dirlink_owp (dp : Fin NINODE) (name : List Byte) (inum : Nat) {Q : Int → View → Prop}
    (hg : v.Good) (hQ : ∀ r, Q r v) : owp p (dirlink sb p dp name inum) Q v := by
  unfold dirlink
  refine owp_seq (dirlookup_owp sb dp name ?_ (fun k off => ?_))
  · refine owp_neutral ?_ hQ
    exact (neutral_getInode dp).bind (fun i => (neutral_freeSlotFrom sb dp _ _ _).bind (fun off =>
      (neutral_writei sb dp _ _ _).bind (fun r => neutral_ite _ (neutral_pure _)
        (neutral_pure _))))
  · refine owp_seq (iput_owp sb _ hg ?_)
    exact owp_ret (hQ (-1))

end Inodes

section Paths

variable {p : Fin NPROC} {v : View} (sb : Superblock)

theorem length_skipelem {path name rest : List Byte} (h : skipelem path = some (name, rest)) :
    rest.length < path.length := by
  have hdrop : ∀ (q : Byte → Bool) (l : List Byte), (l.dropWhile q).length ≤ l.length :=
    fun q l => (List.dropWhile_sublist q).length_le
  unfold skipelem at h
  simp only at h
  split at h
  · exact nomatch h
  · next hne =>
    have hpair := Option.some.inj h
    have hrest : rest = _ := (congrArg Prod.snd hpair).symm
    have h₁ := hdrop (fun c => decide (c = slash)) path
    cases hp : path.dropWhile (fun c => decide (c = slash)) with
    | nil => exact absurd hp hne
    | cons c cs =>
      have hc : (decide (c = slash)) = false := by
        have hhead := List.head?_dropWhile_not (fun c => decide (c = slash)) path
        rw [hp] at hhead
        simpa only [List.head?_cons, Option.all_some, Bool.not_eq_true'] using hhead
      rw [hp] at hrest h₁
      have hcs : (c :: cs).dropWhile (fun c => decide (c ≠ slash)) =
          cs.dropWhile (fun c => decide (c ≠ slash)) := by
        refine List.dropWhile_cons_of_pos ?_
        simpa only [decide_eq_false_iff_not, ne_eq, decide_eq_true_eq] using hc
      rw [hcs] at hrest
      have h₂ := hdrop (fun c => decide (c = slash)) (cs.dropWhile (fun c => decide (c ≠ slash)))
      have h₃ := hdrop (fun c => decide (c ≠ slash)) cs
      rw [hrest]
      simp only [List.length_cons] at h₁ ⊢
      omega

theorem namexFrom_owp (parent : Bool) {fuel : Nat} (k : Fin NINODE) (path last : List Byte)
    {Q : Option (Fin NINODE × List Byte) → View → Prop} (hfuel : path.length < fuel)
    (hl : ∀ k, v.lock k = false) (hnone : Q none v)
    (hsome : ∀ k name, Q (some (k, name)) (v.hold k)) :
    owp p (namexFrom sb p parent fuel k path last) Q (v.hold k) := by
  have hg := View.good_of_lock hl
  induction fuel generalizing k path last with
  | zero => omega
  | succ fuel ih =>
    unfold namexFrom
    split
    · split
      · refine owp_seq (iput_owp sb _ hg ?_)
        exact owp_ret hnone
      · exact owp_ret (hsome k last)
    · next name rest hskip =>
      have hlen := length_skipelem hskip
      refine owp_seq (ilock_hold_owp sb (fun _ => ?_))
      refine owp_skip (neutral_getInode k) (fun i => ?_)
      split
      · refine owp_seq (iunlockput_owp sb (hl k) hg ?_)
        exact owp_ret hnone
      · split
        · refine owp_seq (iunlock_owp _ (by rw [View.lock_locked, if_pos rfl]) ?_)
          rw [View.unlock_locked _ _ (hl k)]
          exact owp_ret (hsome k name)
        · refine owp_seq (dirlookup_owp sb k name ?_ (fun next off => ?_))
          · refine owp_seq (iunlockput_owp sb (hl k) hg ?_)
            exact owp_ret hnone
          · simp only
            rw [owp_bind, View.locked_hold]
            refine iunlockput_owp sb (hl k) (hg.hold next) ?_
            exact ih next rest name (by omega)

/-- A path walk ends with a reference to the inode, or with nothing. -/
theorem namex_owp (parent : Bool) (path : List Byte) (o : Fds)
    (Q : Option (Fin NINODE × List Byte) → View → Prop) (ho : v.procs p = some o)
    (hcwd : ∀ k, o.cwd = some k → 1 ≤ v.ino k) (hl : ∀ k, v.lock k = false) (hnone : Q none v)
    (hsome : ∀ k name, Q (some (k, name)) (v.hold k)) : owp p (namex sb p parent path) Q v := by
  unfold namex
  split
  · refine owp_seq ((owp_issue (.iget ROOTDEV ROOTINO) _).mpr (fun k => ?_))
    exact namexFrom_owp sb parent k path [] (Nat.lt_succ_self _) hl hnone hsome
  · refine owp_seq ((owp_issue (.cwd p) _).mpr ⟨o, ho, ?_⟩)
    cases hk : o.cwd with
    | none => exact owp_panic _ (by decide)
    | some k =>
      refine owp_seq ((owp_issue (.idup k) _).mpr ⟨hcwd k hk, ?_⟩)
      exact namexFrom_owp sb parent k path [] (Nat.lt_succ_self _) hl hnone hsome

theorem namei_owp (path : List Byte) {Q : Option (Fin NINODE) → View → Prop}
    (ho : v.procs p = some o) (hcwd : ∀ k, o.cwd = some k → 1 ≤ v.ino k)
    (hl : ∀ k, v.lock k = false) (hnone : Q none v)
    (hsome : ∀ k, Q (some k) (v.hold k)) : owp p (namei sb p path) Q v := by
  unfold namei
  refine owp_seq (namex_owp sb false path o _ ho hcwd hl ?_ (fun k name => ?_))
  · exact owp_ret hnone
  · exact owp_ret (hsome k)

end Paths

namespace View

variable (v : View) {fd : Fin NOFILE}

theorem setFds_setFds (q : Fin NPROC) (a b : Fds) : (v.setFds q a).setFds q b = v.setFds q b := by
  unfold setFds
  simp only [update_idem]

theorem take_setFds (q : Fin NPROC) {a b : Fds} (hc : b.cwds = a.cwds) (hs : b.slots = a.slots) :
    (v.take q a).setFds q b = v.take q b := by
  unfold take setFds
  simp only [update_idem, hc, hs]

theorem procs_take (q : Fin NPROC) (o : Fds) : (v.take q o).procs q = some o :=
  update_self _ _ _

theorem procs_setFds (q : Fin NPROC) (o : Fds) : (v.setFds q o).procs q = some o :=
  update_self _ _ _

theorem holdFile_setFds (f : Fin NFILE) (q : Fin NPROC) (o : Fds) :
    (v.holdFile f).setFds q o = (v.setFds q o).holdFile f :=
  rfl

/-- A descriptor is set, and the reference it stands for is there. -/
theorem take_open (q : Fin NPROC) (o : Fds) (fd : Fin NOFILE) (f : Fin NFILE)
    (h : o.ofile fd = none) :
    ((v.take q o).holdFile f).setFds q (o.setFd fd (some f)) =
      v.take q (o.setFd fd (some f)) := by
  unfold take setFds holdFile
  simp only [update_idem, Fds.cwds_setFd, o.slots_open fd f h, add_assoc]

/-- A descriptor is cleared, and the reference it stood for is left. -/
theorem take_close (q : Fin NPROC) (h : o.ofile fd = some f) :
    (v.take q o).setFds q (o.setFd fd none) = (v.take q (o.setFd fd none)).holdFile f := by
  unfold take setFds holdFile
  simp only [update_idem, Fds.cwds_setFd, ← o.slots_close fd f h, add_assoc]

theorem take_slot (q : Fin NPROC) (h : o.ofile fd = some f) :
    v.take q o = ((v.take q (o.setFd fd none)).setFds q o).holdFile f := by
  unfold take setFds holdFile
  simp only [update_idem, Fds.cwds_setFd, ← o.slots_close fd f h, add_assoc]

/-- The current directory is set, and the reference is there. -/
theorem take_chdir (q : Fin NPROC) (o : Fds) (k : Fin NINODE) (h : o.cwd = none) :
    ((v.take q o).hold k).setFds q { o with cwd := some k } =
      v.take q { o with cwd := some k } := by
  have hold : o.cwds = 0 := by
    funext l
    simp only [Fds.cwds, h, reduceCtorEq, if_false, Pi.zero_apply]
  have hnew : ({ o with cwd := some k } : Fds).cwds = Pi.single k 1 := by
    funext l
    rw [Pi.single_apply]
    simp only [Fds.cwds, Option.some.injEq, @eq_comm _ k l]
  have hslots : ({ o with cwd := some k } : Fds).slots = o.slots := rfl
  unfold take setFds View.hold
  simp only [update_idem, hold, hnew, hslots, add_zero]

theorem take_cwd (q : Fin NPROC) {k : Fin NINODE} (h : o.cwd = some k) :
    v.take q o = ((v.take q { o with cwd := none }).setFds q o).hold k := by
  have hold : ({ o with cwd := none } : Fds).cwds = 0 := by
    funext l
    simp only [Fds.cwds, reduceCtorEq, if_false, Pi.zero_apply]
  have hnew : o.cwds = Pi.single k 1 := by
    funext l
    rw [Pi.single_apply]
    simp only [Fds.cwds, h, Option.some.injEq, @eq_comm _ k l]
  have hslots : ({ o with cwd := none } : Fds).slots = o.slots := rfl
  unfold take setFds View.hold
  simp only [update_idem, hold, hnew, hslots, add_zero]

/-- The view of a process at the start of a call, up to what it has seen. -/
def base (S : Fin NFILE → Option (Fin NINODE)) (p : Fin NPROC) (o : Fds) : View :=
  (seeing S).take p o

theorem base_final (S : Fin NFILE → Option (Fin NINODE)) (p : Fin NPROC) (o : Fds) :
    (base S p o).Final p := ⟨S, Or.inr ⟨o, rfl⟩⟩

theorem procs_base (S : Fin NFILE → Option (Fin NINODE)) (p : Fin NPROC) (o : Fds) :
    (base S p o).procs p = some o := update_self _ _ _

theorem fil_base (S : Fin NFILE → Option (Fin NINODE)) (p : Fin NPROC) (o : Fds) :
    (base S p o).fil = o.slots := zero_add o.slots

theorem base_open (S : Fin NFILE → Option (Fin NINODE)) (p : Fin NPROC) (f : Fin NFILE)
    (h : o.ofile fd = none) :
    ((base S p o).setFds p (o.setFd fd (some f))).holdFile f = base S p (o.setFd fd (some f)) := by
  rw [← holdFile_setFds]
  exact take_open (seeing S) p o fd f h

theorem base_close (S : Fin NFILE → Option (Fin NINODE)) (p : Fin NPROC) (h : o.ofile fd = some f) :
    (base S p o).setFds p (o.setFd fd none) = (base S p (o.setFd fd none)).holdFile f :=
  take_close (seeing S) p h

end View

section Files

variable {p : Fin NPROC} {v : View} {f : Fin NFILE} (sb : Superblock)

theorem owp_beginOp (Q : Unit → View → Prop) (hQ : Q () (v.setOps (v.ops + 1))) :
    owp p beginOp Q v :=
  (owp_issue .beginOp Q).mpr hQ

theorem owp_endOp (Q : Unit → View → Prop) (n : Nat) (hQ : Q () (v.setOps n)) :
    owp p endOp Q (v.setOps (n + 1)) :=
  (owp_issue .endOp Q).mpr ⟨Nat.le_add_left 1 n, hQ⟩

theorem View.Good.inherit (h : v.Good) (x : File) : (v.inherit x).Good :=
  h.mono rfl (fun _ => Nat.le_add_right _ _) (fun _ => le_rfl) (fun _ _ _ hs => hs)

theorem File.ends_eq_zero (x : File) (h : x.type ≠ .pipe) : x.ends = 0 := by
  funext a b
  exact if_neg (fun hc => h hc.1)

theorem File.inodes_eq_zero (x : File) (h : x.type.isInode = false) : x.inodes = 0 := by
  funext k
  exact if_neg (fun hc => Bool.false_ne_true (h.symm.trans hc.1))

theorem View.inherit_inode {x : File} (h : x.type.isInode = true) :
    v.inherit x = v.hold x.ip := by
  have hends : x.ends = 0 := x.ends_eq_zero (fun hc => by rw [hc] at h; exact nomatch h)
  have hino : x.inodes = Pi.single x.ip 1 := by
    funext k
    rw [Pi.single_apply]
    simp only [File.inodes, h, true_and, @eq_comm _ x.ip k]
  unfold View.inherit View.hold
  rw [hends, hino, add_zero]

theorem View.inherit_pipe {x : File} (h : x.type = .pipe) :
    v.inherit x = v.holdEnd x.pipe x.writable := by
  have hino : x.inodes = 0 := x.inodes_eq_zero (by rw [h]; rfl)
  have hends : x.ends = Pi.single x.pipe (Pi.single x.writable 1) := by
    funext a b
    unfold File.ends
    by_cases ha : a = x.pipe
    · rw [ha, Pi.single_eq_same, Pi.single_apply]
      simp only [h, true_and, @eq_comm _ x.writable b]
    · rw [Pi.single_eq_of_ne ha, if_neg (fun hc => ha hc.2.1.symm)]
      rfl
  unfold View.inherit View.holdEnd
  rw [hends, hino, add_zero]

theorem View.inherit_none {x : File} (h : x.type = .none) : v.inherit x = v := by
  unfold View.inherit
  rw [x.ends_eq_zero (by rw [h]; nofun), x.inodes_eq_zero (by rw [h]; rfl), add_zero, add_zero]

/-- `fileclose` gives a reference up, and with the last one what the file
    referred to. -/
theorem fileclose_owp (Q : Unit → View → Prop) (hg : v.Good) (hQ : Q () (v.setFresh f false)) :
    owp p (fileclose sb p f) Q (v.holdFile f) := by
  unfold fileclose
  refine owp_seq ((owp_issue (.filedrop f) _).mpr ⟨v, rfl, fun hfr => ⟨hg, ?_⟩, fun x _ => ?_⟩)
  · change owp p (pure ()) Q v
    rw [owp_pure, ← v.setFresh_self f hfr]
    exact hQ
  · have hg' : (v.setFresh f false).Good := hg
    refine ⟨hg'.inherit x, ?_⟩
    dsimp only
    have hino : x.type.isInode = true → owp p (do
        beginOp
        iput sb p x.ip
        endOp) Q ((v.setFresh f false).inherit x) := by
      intro ht
      rw [View.inherit_inode ht]
      refine owp_seq (owp_beginOp _ ?_)
      refine owp_seq (iput_owp (v := (v.setFresh f false).setOps (v.ops + 1)) sb _ hg' ?_)
      exact owp_endOp Q v.ops hQ
    cases ht : x.type with
    | none =>
      simp only
      rw [View.inherit_none ht]
      exact owp_ret hQ
    | pipe =>
      rw [View.inherit_pipe ht]
      exact (owp_issue (.pipeclose x.pipe x.writable) Q).mpr ⟨v.setFresh f false, rfl, hQ⟩
    | inode | device => exact hino (by rw [ht]; rfl)

theorem getFile_owp (Q : File → View → Prop) (hf : 1 ≤ v.fil f)
    (hQ : ∀ x : File, (∀ k, v.seen f = some k → x.type.isInode = true ∧ x.ip = k) →
      Q x (if x.type.isInode then v.see f (some x.ip) else v)) : owp p (getFile f) Q v :=
  (owp_issue (.file f) Q).mpr ⟨hf, hQ⟩

/-- Lock the inode of an open file and look at the file again: it is still the
    same inode. -/
theorem lockFile_owp {α : Type} (k : Fin NINODE) (hf : 1 ≤ v.fil f) (hs : v.seen f = some k)
    (g : File → M α) (Q : α → View → Prop)
    (hg : ∀ x, x.ip = k → owp p (g x) Q (v.setLock k true)) :
    owp p (do
      ilock sb p k
      let x ← getFile f
      g x) Q v := by
  refine owp_seq (ilock_owp sb (Or.inr ⟨f, hf, hs⟩) (fun _ => ?_))
  refine owp_seq (getFile_owp _ hf (fun x hx => ?_))
  rcases hx k hs with ⟨ht, hip⟩
  have hsee : ((v.setLock k true).see f (some x.ip)) = v.setLock k true := by
    unfold View.see
    rw [hip, ← hs]
    exact congrArg (fun S => { v.setLock k true with seen := S }) (update_eq_self f v.seen)
  rw [if_pos ht, hsee]
  exact hg x hip

theorem unlock_owp {α : Type} (k : Fin NINODE) (hl : v.lock k = false) (a : α)
    (Q : α → View → Prop) (hQ : Q a v) :
    owp p (do
      iunlock p k
      return a) Q (v.setLock k true) := by
  refine owp_seq (iunlock_owp _ (by rw [View.lock_setLock, if_pos rfl]) ?_)
  rw [v.setLock_setLock k true hl]
  exact owp_ret hQ

/-- Another record of the files seen. -/
def View.sees (v : View) (S : Fin NFILE → Option (Fin NINODE)) : View := { v with seen := S }

theorem filestat_owp (dst : Dest) {Q : Int × Option Stat → View → Prop} (hf : 1 ≤ v.fil f)
    (hl : ∀ k, v.lock k = false) (hQ : ∀ r S, Q r (v.sees S)) :
    owp p (filestat sb p f dst) Q v := by
  unfold filestat
  refine owp_seq (getFile_owp _ hf (fun x _ => ?_))
  have hino : x.type.isInode = true → owp p (do
      ilock sb p x.ip
      let i ← getInode x.ip
      iunlock p x.ip
      if dst.accepts 0 24 then return (0, some (stati i)) else return (-1, none)) Q
      (v.see f (some x.ip)) := by
    intro _
    refine owp_seq (ilock_owp sb (Or.inr ⟨f, hf, v.seen_see f _⟩) (fun _ => ?_))
    refine owp_skip (neutral_getInode _) (fun i => ?_)
    refine owp_seq (iunlock_owp _ (by rw [View.lock_setLock, if_pos rfl]) ?_)
    rw [View.setLock_setLock (v.see f (some x.ip)) x.ip true (hl x.ip)]
    split
    · exact owp_ret (hQ _ _)
    · exact owp_ret (hQ _ _)
  cases ht : x.type with
  | none | pipe =>
    simp only [FdType.isInode, Bool.false_eq_true, if_false]
    exact owp_ret (hQ _ _)
  | inode | device => exact hino (by rw [ht]; rfl)

theorem fileread_owp (dst : Dest) (n : BitVec 32) (io : Int) {Q : Int × List Byte → View → Prop}
    (hf : 1 ≤ v.fil f) (hl : ∀ k, v.lock k = false) (hQ : ∀ r S, Q r (v.sees S)) :
    owp p (fileread sb p f dst n io) Q v := by
  unfold fileread
  refine owp_seq (getFile_owp _ hf (fun x _ => ?_))
  by_cases hr : x.readable = false
  · rw [if_pos hr]
    split
    · exact owp_ret (hQ _ _)
    · exact owp_ret (hQ _ _)
  · rw [if_neg hr]
    cases ht : x.type with
    | none => exact owp_panic _ (by decide)
    | pipe =>
      simp only [FdType.isInode, Bool.false_eq_true, if_false]
      exact owp_ret (hQ _ _)
    | device =>
      simp only
      split
      · exact owp_ret (hQ _ _)
      · exact owp_ret (hQ _ _)
    | inode =>
      refine lockFile_owp (v := v.see f (some x.ip)) sb x.ip hf (v.seen_see f _) _ Q
        (fun y hy => ?_)
      refine owp_skip (neutral_readi sb _ _ _ _) (fun r => ?_)
      rw [hy]
      simp only
      split
      · refine owp_skip (neutral_setOff f _) (fun _ => ?_)
        exact unlock_owp (v := v.see f (some x.ip)) x.ip (hl x.ip) r Q (hQ r _)
      · exact unlock_owp (v := v.see f (some x.ip)) x.ip (hl x.ip) r Q (hQ r _)

theorem filewriteFrom_owp (mem : UserMem) (addr : BitVec 64) (n fuel i : Nat)
    (Q : Nat → View → Prop) (hf : 1 ≤ v.fil f) (hl : ∀ k, v.lock k = false)
    (S : Fin NFILE → Option (Fin NINODE)) (k : Fin NINODE) (hs : S f = some k)
    (hQ : ∀ r S, Q r (v.sees S)) :
    owp p (filewriteFrom sb p f mem addr n fuel i) Q (v.sees S) := by
  induction fuel generalizing i S with
  | zero =>
    unfold filewriteFrom
    exact owp_ret (hQ _ _)
  | succ fuel ih =>
    unfold filewriteFrom
    split
    · simp only
      refine owp_seq (owp_beginOp _ ?_)
      refine owp_seq (getFile_owp _ hf (fun x hx => ?_))
      rcases hx k hs with ⟨ht, hip⟩
      have hsee : (((v.sees S).setOps ((v.sees S).ops + 1)).see f (some x.ip)) =
          (v.sees S).setOps (v.ops + 1) := by
        unfold View.see
        rw [hip, ← hs]
        exact congrArg (fun S => ((v.sees S).setOps (v.ops + 1)))
          (update_eq_self f S)
      have hend : ∀ r : Int, owp p (do
          endOp
          if r ≠ ((min (n - i) maxWrite : Nat) : Int) then return i
          else filewriteFrom sb p f mem addr n fuel (i + min (n - i) maxWrite)) Q
          ((v.sees S).setOps (v.ops + 1)) := by
        intro r
        refine owp_seq (owp_endOp _ v.ops ?_)
        split
        · exact owp_ret (hQ _ _)
        · exact ih _ S hs
      rw [if_pos ht, hsee, hip]
      refine lockFile_owp (v := (v.sees S).setOps (v.ops + 1)) sb k hf hs _ Q (fun y hy => ?_)
      refine owp_skip (neutral_writei sb _ _ _ _) (fun r => ?_)
      rw [hy]
      have hrest : owp p (do
          iunlock p k
          endOp
          if r ≠ ((min (n - i) maxWrite : Nat) : Int) then return i
          else filewriteFrom sb p f mem addr n fuel (i + min (n - i) maxWrite)) Q
          (((v.sees S).setOps (v.ops + 1)).setLock k true) := by
        refine owp_seq (iunlock_owp _ (by rw [View.lock_setLock, if_pos rfl]) ?_)
        rw [View.setLock_setLock ((v.sees S).setOps (v.ops + 1)) k true (hl k)]
        exact hend r
      split
      · refine owp_skip (neutral_setOff f _) (fun _ => ?_)
        exact hrest
      · exact hrest
    · exact owp_ret (hQ _ _)

theorem filewrite_owp (mem : UserMem) (addr : BitVec 64) (n io : Int) {Q : Int → View → Prop}
    (hf : 1 ≤ v.fil f) (hl : ∀ k, v.lock k = false) (hQ : ∀ r S, Q r (v.sees S)) :
    owp p (filewrite sb p f mem addr n io) Q v := by
  unfold filewrite
  refine owp_seq (getFile_owp _ hf (fun x _ => ?_))
  by_cases hr : x.writable = false
  · rw [if_pos hr]
    split
    · exact owp_ret (hQ _ _)
    · exact owp_ret (hQ _ _)
  · rw [if_neg hr]
    cases ht : x.type with
    | none => exact owp_panic _ (by decide)
    | pipe =>
      simp only [FdType.isInode, Bool.false_eq_true, if_false]
      exact owp_ret (hQ _ _)
    | device =>
      simp only
      split
      · exact owp_ret (hQ _ _)
      · exact owp_ret (hQ _ _)
    | inode =>
      refine owp_seq (filewriteFrom_owp sb mem addr _ _ _ _ hf hl _ x.ip
        (update_self f (some x.ip) v.seen) (fun i S => ?_))
      split
      · exact owp_ret (hQ _ _)
      · exact owp_ret (hQ _ _)

end Files

namespace View

variable (v : View)

theorem holdFile_comm (f g : Fin NFILE) :
    (v.holdFile f).holdFile g = (v.holdFile g).holdFile f := by
  unfold holdFile
  simp only [add_assoc, add_comm (Pi.single f 1)]

theorem holdEnd_comm (pi : Nat) (a b : Bool) :
    (v.holdEnd pi a).holdEnd pi b = (v.holdEnd pi b).holdEnd pi a := by
  unfold holdEnd
  simp only [add_assoc, add_comm (Pi.single pi (Pi.single a 1) : Nat → Bool → Nat)]

end View

section Descriptors

variable {p : Fin NPROC} {v : View} (sb : Superblock)

theorem getOfile_owp (q : Fin NPROC) (fd : Fin NOFILE) (o : Fds)
    (Q : Option (Fin NFILE) → View → Prop)
    (ho : v.procs q = some o) (hQ : Q (o.ofile fd) v) : owp p (getOfile q fd) Q v :=
  (owp_issue (.ofile q fd) Q).mpr ⟨o, ho, hQ⟩

theorem setOfile_owp (q : Fin NPROC) (fd : Fin NOFILE) (f : Option (Fin NFILE)) (o : Fds)
    (Q : Unit → View → Prop) (ho : v.procs q = some o) (hQ : Q () (v.setFds q (o.setFd fd f))) :
    owp p (setOfile q fd f) Q v :=
  (owp_issue (.setOfile q fd f) Q).mpr ⟨o, ho, hQ⟩

theorem filedup_owp (f : Fin NFILE) (Q : Unit → View → Prop) (hpos : 1 ≤ v.fil f)
    (hfr : v.fresh f = false) (hQ : Q () (v.holdFile f)) : owp p (filedup f) Q v :=
  (owp_issue (.filedup f) Q).mpr ⟨hpos, hfr, hQ⟩

theorem idup_owp {k : Fin NINODE} (hk : 1 ≤ v.ino k) (hQ : Q () (v.hold k)) :
    owp p (idup k) Q v :=
  (owp_issue (.idup k) Q).mpr ⟨hk, hQ⟩

theorem setParent_owp (q q' : Fin NPROC) (hQ : Q () v) :
    owp p (setParent q q') Q v :=
  (owp_issue (.setParent q q') Q).mpr hQ

theorem getCwd_owp {q : Fin NPROC} {Q : Option (Fin NINODE) → View → Prop} (ho : v.procs q = some o)
    (hQ : Q o.cwd v) : owp p (getCwd q) Q v :=
  (owp_issue (.cwd q) Q).mpr ⟨o, ho, hQ⟩

theorem setCwd_owp {q : Fin NPROC} {k : Option (Fin NINODE)} (ho : v.procs q = some o)
    (hQ : Q () (v.setFds q { o with cwd := k })) :
    owp p (setCwd q k) Q v :=
  (owp_issue (.setCwd q k) Q).mpr ⟨o, ho, hQ⟩

theorem openPipe_owp {pi : Nat} {wr : Bool} (u : View) (hu : v = u.holdEnd pi wr)
    (hfr : v.fresh f = true) (hQ : Q () (u.setFresh f false)) :
    owp p (openPipe f pi wr) Q v :=
  (owp_issue (.openPipe f pi wr) Q).mpr ⟨u, hu, hfr, hQ⟩

theorem View.Good.holdFile (h : v.Good) (f : Fin NFILE) : (v.holdFile f).Good :=
  h.mono rfl (fun _ => le_rfl) (fun _ => Nat.le_add_right _ _) (fun _ _ _ hs => hs)

theorem filealloc_owp {Q : Option (Fin NFILE) → View → Prop} (hnone : Q none v)
    (hsome : ∀ f, v.fil f = 0 →
      Q (some f) (((v.holdFile f).setFresh f true).see f none)) : owp p filealloc Q v :=
  (owp_issue .filealloc Q).mpr ⟨hnone, hsome⟩

theorem fileclose_fresh_owp (f : Fin NFILE) (Q : Unit → View → Prop) (hg : v.Good)
    (hfr : v.fresh f = false) (hQ : Q () v) :
    owp p (fileclose sb p f) Q ((v.holdFile f).setFresh f true) := by
  refine fileclose_owp (v := v.setFresh f true) sb Q hg ?_
  rw [v.setFresh_setFresh f true hfr]
  exact hQ

theorem fileclose_plain_owp (hg : v.Good)
    (hfr : v.fresh f = false) (hQ : Q () v) : owp p (fileclose sb p f) Q (v.holdFile f) := by
  refine fileclose_owp sb Q hg ?_
  rw [v.setFresh_self f hfr]
  exact hQ

/-- `pipealloc` returns two files, or takes everything back. -/
theorem pipealloc_owp (page : Bool) {Q : Option (Fin NFILE × Fin NFILE) → View → Prop}
    (hg : ∀ S, (v.sees S).Good) (hfr : ∀ f, v.fresh f = false) (hnone : ∀ S, Q none (v.sees S))
    (hsome : ∀ f g S, Q (some (f, g)) (((v.sees S).holdFile f).holdFile g)) :
    owp p (pipealloc sb p page) Q v := by
  unfold pipealloc
  refine owp_seq (filealloc_owp ?_ (fun f hf => ?_))
  · exact owp_ret (hnone v.seen)
  · simp only
    rw [owp_bind]
    -- The view without the two files, and with what is known of them.
    let u := v.see f none
    have hgu : u.Good := hg _
    refine filealloc_owp ?_ (fun g hg' => ?_)
    · refine owp_seq (fileclose_fresh_owp (v := u) sb f _ hgu (hfr f) ?_)
      exact owp_ret (hnone _)
    · simp only
      have hfg : g ≠ f := by
        intro hc
        rw [hc] at hg'
        change v.fil f + (Pi.single f 1 : Fin NFILE → Nat) f = 0 at hg'
        rw [Pi.single_eq_same] at hg'
        omega
      let w := u.see g none
      have hgw : w.Good := hg _
      have hview : ((((((v.holdFile f).setFresh f true).see f none).holdFile g).setFresh g
          true).see g none) = ((((w.holdFile g).setFresh g true).holdFile f).setFresh f true) := by
        unfold w u View.see View.setFresh View.holdFile
        simp only [add_assoc, add_comm (Pi.single f 1), update_comm hfg.symm]
      rw [hview]
      split
      · refine owp_seq ((owp_issue .pipealloc _).mpr (fun pi => ?_))
        refine owp_seq (openPipe_owp
          (((((w.holdFile g).setFresh g true).holdFile f).setFresh f true).holdEnd pi true)
          (View.holdEnd_comm _ pi false true) (View.fresh_setFresh _ f true) ?_)
        · refine owp_seq (openPipe_owp
            (((((w.holdFile g).setFresh g true).holdFile f).setFresh f true).setFresh f false) rfl
            ?_ ?_)
          · change update (update (update w.fresh g true) f true) f false
              g = true
            rw [update_idem, update_of_ne hfg, update_self]
          · rw [owp_pure]
            have hlast : (((((w.holdFile g).setFresh g true).holdFile f).setFresh f true).setFresh f
                false).setFresh g false = (w.holdFile f).holdFile g := by
              rw [View.setFresh_setFresh _ f true (by
                change update w.fresh g true f = false
                rw [update_of_ne hfg.symm]
                exact hfr f)]
              have hgg := View.setFresh_setFresh ((w.holdFile g).holdFile f) g true (hfr g)
              rw [w.holdFile_comm f g]
              exact hgg
            rw [hlast]
            exact hsome f g _
      · rw [owp_bind]
        have hgg : ((w.holdFile g).setFresh g true).Good := hgw.holdFile g
        refine fileclose_fresh_owp (v := (w.holdFile g).setFresh g true) sb f _ hgg ?_ ?_
        · change update w.fresh g true f = false
          rw [update_of_ne hfg.symm]
          exact hfr f
        · refine owp_seq (fileclose_fresh_owp (v := w) sb g _ hgw (hfr g) ?_)
          exact owp_ret (hnone _)

theorem argfd_owp (fd : Int) {Q : Option (Fin NOFILE × Fin NFILE) → View → Prop}
    (ho : v.procs p = some o) (hnone : Q none v)
    (hsome : ∀ fd f, o.ofile fd = some f → Q (some (fd, f)) v) : owp p (argfd p fd) Q v := by
  unfold argfd
  split
  · next hfd =>
    refine owp_seq (getOfile_owp p ⟨fd.toNat, hfd.2⟩ o _ ho ?_)
    rw [owp_pure]
    cases hf : o.ofile ⟨fd.toNat, hfd.2⟩ with
    | none => exact hnone
    | some f => exact hsome _ f hf
  · exact owp_ret hnone

theorem fdallocFrom_owp (fds : List (Fin NOFILE)) {Q : Option (Fin NOFILE) → View → Prop}
    (ho : v.procs p = some o) (hnone : Q none v)
    (hsome : ∀ fd, o.ofile fd = none → Q (some fd) (v.setFds p (o.setFd fd (some f)))) :
    owp p (fdallocFrom p f fds) Q v := by
  induction fds with
  | nil =>
    unfold fdallocFrom
    exact owp_ret hnone
  | cons fd fds ih =>
    unfold fdallocFrom
    refine owp_seq (getOfile_owp p fd o _ ho ?_)
    cases hf : o.ofile fd with
    | none =>
      refine owp_seq (setOfile_owp p fd (some f) o _ ho ?_)
      exact owp_ret (hsome fd hf)
    | some g => exact ih

theorem fdalloc_owp {Q : Option (Fin NOFILE) → View → Prop} (ho : v.procs p = some o)
    (hnone : Q none v)
    (hsome : ∀ fd, o.ofile fd = none → Q (some fd) (v.setFds p (o.setFd fd (some f)))) :
    owp p (fdalloc p f) Q v :=
  fdallocFrom_owp _ ho hnone hsome

end Descriptors

end Xv6
