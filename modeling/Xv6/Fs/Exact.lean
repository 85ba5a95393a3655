import Xv6.Fs.Balance
import Mathlib.Data.Fintype.BigOperators

/-!
# Reference Counts Are Exact

Every system call gives back what it took, and so the reference counts of the
kernel are exact whenever no call is in progress.

The calls run interleaved, one step at a time, in a pool with a thread for each
process. What a call does to the view of its process is proved here call by
call; that the views of all processes add up to the counts in the tables holds in
every state of every run.

## Main definitions

* `Exact`: The reference counts are exact.
* `SysPool`, `sysPool`: System calls of all processes, interleaved.

## Theorems

* `Counted.exact`: What the invariant says when nobody is in a call.
* `references_exact`: Counts are exact between calls, in every interleaving.
-/

namespace Xv6

open Function View Finset

section Calls

variable {p : Fin NPROC} {S : Fin NFILE → Option (Fin NINODE)} {o : Fds} (sb : Superblock)
  {Q : Int → View → Prop}

/-- The view of a process in a transaction. -/
def View.inOp (S : Fin NFILE → Option (Fin NINODE)) (p : Fin NPROC) (o : Fds) : View :=
  (View.base S p o).setOps 1

theorem View.procs_inOp : (inOp S p o).procs p = some o := procs_base S p o

theorem View.cwd_base (k : Fin NINODE) (hk : o.cwd = some k) : 1 ≤ (base S p o).ino k := by
  change 1 ≤ 0 + o.cwds k
  rw [Fds.cwds, if_pos hk]

theorem View.cwd_inOp (k : Fin NINODE) (hk : o.cwd = some k) : 1 ≤ (inOp S p o).ino k :=
  cwd_base (p := p) k hk

theorem View.good_inOp : (inOp S p o).Good := good_of_lock (fun _ => rfl)

theorem View.good_base : (base S p o).Good := good_of_lock (fun _ => rfl)

theorem begin_owp {Q : Unit → View → Prop} (hQ : Q () (inOp S p o)) :
    owp p beginOp Q (base S p o) :=
  owp_beginOp Q hQ

theorem endRet_owp {α : Type} {a : α} {Q : α → View → Prop} (hQ : Q a (base S p o)) :
    owp p (do
      endOp
      return a) Q (inOp S p o) := by
  refine owp_seq (owp_endOp _ 0 ?_)
  exact owp_ret hQ

theorem putEnd_owp {α : Type} (k : Fin NINODE) (a : α) (Q : α → View → Prop)
    (hQ : Q a (base S p o)) :
    owp p (do
      iunlockput sb p k
      endOp
      return a) Q ((inOp S p o).locked k) := by
  refine owp_seq (iunlockput_owp sb rfl good_inOp ?_)
  exact endRet_owp hQ

theorem update_owp {α : Type} {v : View} (k : Fin NINODE) (g : Inode → Dinode) {rest : Inode → M α}
    {Q : α → View → Prop} (h : ∀ i, owp p (rest i) Q v) :
    owp p (do
      let i ← getInode k
      setInode k (g i)
      iupdate sb k
      rest i) Q v := by
  refine owp_skip (neutral_getInode k) (fun i => ?_)
  refine owp_skip (neutral_setInode k _) (fun _ => ?_)
  exact owp_skip (neutral_iupdate sb k) (fun _ => h i)

theorem linkBad_owp (k : Fin NINODE) (hQ : Q (-1) (base S p o)) :
    owp p (linkBad sb p k) Q ((inOp S p o).hold k) := by
  unfold linkBad
  refine owp_seq (ilock_hold_owp sb (fun _ => ?_))
  refine update_owp sb k _ (fun i => ?_)
  exact putEnd_owp sb k (-1) Q hQ

theorem sysLink_owp (mem : UserMem) (old new : BitVec 64)
    (hQ : ∀ r, Q r (base S p o)) : owp p (sysLink sb p mem old new) Q (base S p o) := by
  unfold sysLink
  split
  · next old new _ _ =>
    refine owp_seq (begin_owp ?_)
    refine owp_seq (namei_owp sb old procs_inOp cwd_inOp (fun _ => rfl) ?_ (fun k => ?_))
    · exact endRet_owp (hQ _)
    · refine owp_seq (ilock_hold_owp sb (fun _ => ?_))
      refine owp_skip (neutral_getInode k) (fun i => ?_)
      split
      · exact putEnd_owp sb k (-1) Q (hQ _)
      · refine owp_skip (neutral_setInode k _) (fun _ => ?_)
        refine owp_skip (neutral_iupdate sb k) (fun _ => ?_)
        refine owp_seq (iunlock_owp _ (by rw [lock_locked, if_pos rfl]) ?_)
        rw [unlock_locked _ _ rfl, owp_bind]
        have hg : ((inOp S p o).hold k).Good := good_inOp.hold k
        refine namex_owp (v := (inOp S p o).hold k) sb true new o _ procs_inOp
          (fun j hj => Nat.le_add_right_of_le (cwd_inOp j hj)) (fun _ => rfl) ?_ (fun d name => ?_)
        · exact linkBad_owp sb k (hQ _)
        · -- The parent is given back, and then the inode itself on either path.
          have hback : owp p (do
              iunlockput sb p d
              linkBad sb p k) Q (((inOp S p o).hold k).locked d) := by
            refine owp_seq (iunlockput_owp sb rfl hg ?_)
            exact linkBad_owp sb k (hQ _)
          refine owp_seq (ilock_hold_owp sb (fun _ => ?_))
          refine owp_skip (neutral_getInode d) (fun j => ?_)
          split
          · exact hback
          · refine owp_seq (dirlink_owp sb d name _ (hg.locked d) (fun r => ?_))
            split
            · exact hback
            · refine owp_seq (iunlockput_owp sb rfl hg ?_)
              refine owp_seq (iput_owp sb _ good_inOp ?_)
              exact endRet_owp (hQ _)
  · exact owp_ret (hQ _)

theorem sysUnlink_owp (mem : UserMem) (path : BitVec 64)
    (hQ : ∀ r, Q r (base S p o)) : owp p (sysUnlink sb p mem path) Q (base S p o) := by
  unfold sysUnlink
  split
  · exact owp_ret (hQ _)
  · refine owp_seq (begin_owp ?_)
    refine owp_seq (namex_owp sb true _ o _ procs_inOp cwd_inOp (fun _ => rfl) ?_
      (fun d name => ?_))
    · exact endRet_owp (hQ _)
    · have hbad : owp p (unlinkBad sb p d) Q ((inOp S p o).locked d) :=
        putEnd_owp sb d (-1) Q (hQ _)
      refine owp_seq (ilock_hold_owp sb (fun _ => ?_))
      split
      · exact hbad
      · refine owp_seq (dirlookup_owp sb d name hbad (fun k off => ?_))
        refine owp_seq (ilock_hold_owp sb (fun hl => ?_))
        -- The entry is not the directory itself, which is locked.
        have hkd : k ≠ d := by
          intro hc
          rw [lock_locked, if_pos hc] at hl
          exact nomatch hl
        have hlk : ((inOp S p o).locked k).lock d = false := by
          rw [lock_locked, if_neg hkd.symm]
          rfl
        have hgk : ((inOp S p o).locked k).Good := good_inOp.locked k
        refine owp_skip (neutral_getInode k) (fun i => ?_)
        split
        · exact owp_panic _ (by decide)
        · have hrest : ∀ empty : Bool, owp p (if i.d.type = T_DIR ∧ empty = false then do
                iunlockput sb p k
                unlinkBad sb p d
              else do
                let r ← writei sb d (.kernel Dirent.zero.encode) (BitVec.ofNat 32 off) 16
                if r ≠ 16 then panic .unlinkWritei
                else
                  if i.d.type = T_DIR then
                    let e ← getInode d
                    setInode d { e.d with nlink := e.d.nlink - 1 }
                    iupdate sb d
                  iunlockput sb p d
                  let i ← getInode k
                  setInode k { i.d with nlink := i.d.nlink - 1 }
                  iupdate sb k
                  iunlockput sb p k
                  endOp
                  return 0) Q (((inOp S p o).locked d).locked k) := by
            intro empty
            split
            · refine owp_seq (iunlockput_owp sb hl (good_inOp.locked d) ?_)
              exact hbad
            · refine owp_skip (neutral_writei sb d _ _ _) (fun r => ?_)
              split
              · exact owp_panic _ (by decide)
              · have hend : owp p (do
                    iunlockput sb p d
                    let i ← getInode k
                    setInode k { i.d with nlink := i.d.nlink - 1 }
                    iupdate sb k
                    iunlockput sb p k
                    endOp
                    return (0 : Int)) Q (((inOp S p o).locked d).locked k) := by
                  rw [locked_comm _ hkd.symm]
                  refine owp_seq (iunlockput_owp sb hlk hgk ?_)
                  refine update_owp sb k _ (fun i => ?_)
                  exact putEnd_owp sb k 0 Q (hQ _)
                split
                · refine update_owp sb d _ (fun e => ?_)
                  exact hend
                · exact hend
          by_cases hdir : i.d.type = T_DIR
          · rw [if_pos hdir]
            exact owp_skip (neutral_isdirempty sb k) hrest
          · rw [if_neg hdir, owp_bind]
            exact owp_ret (hrest true)

theorem createFail_owp {d k : Fin NINODE} (hkd : k ≠ d) {Q : Option (Fin NINODE) → View → Prop}
    (hQ : Q none (inOp S p o)) :
    owp p (createFail sb p d k) Q (((inOp S p o).locked d).locked k) := by
  unfold createFail
  refine update_owp sb k _ (fun i => ?_)
  refine owp_seq (iunlockput_owp sb ?_ (good_inOp.locked d) ?_)
  · rw [lock_locked, if_neg hkd]
    rfl
  · refine owp_seq (iunlockput_owp sb rfl good_inOp ?_)
    exact owp_ret hQ

/-- `create` returns an inode held and locked, or nothing. -/
theorem create_owp (path : List Byte) (type major minor : BitVec 16)
    {Q : Option (Fin NINODE) → View → Prop} (hnone : Q none (inOp S p o))
    (hsome : ∀ k, Q (some k) ((inOp S p o).locked k)) :
    owp p (create sb p path type major minor) Q (inOp S p o) := by
  unfold create
  refine owp_seq (namex_owp sb true path o _ procs_inOp cwd_inOp (fun _ => rfl) ?_
    (fun d name => ?_))
  · exact owp_ret hnone
  · refine owp_seq (ilock_hold_owp sb (fun _ => ?_))
    refine owp_seq (dirlookup_owp sb d name ?_ (fun k off => ?_))
    · -- A new inode.
      refine owp_skip (neutral_getInode d) (fun e => ?_)
      refine owp_seq (ialloc_owp sb _ type ?_ (fun k => ?_))
      · refine owp_seq (iunlockput_owp sb rfl good_inOp ?_)
        exact owp_ret hnone
      · refine owp_seq (ilock_hold_owp sb (fun hl => ?_))
        have hkd : k ≠ d := by
          intro hc
          rw [lock_locked, if_pos hc] at hl
          exact nomatch hl
        have hgood : (((inOp S p o).locked d).locked k).Good :=
          (good_inOp.locked d).locked k
        have hfail := createFail_owp sb hkd hnone
        -- Giving the parent back and returning the inode.
        have hdone : owp p (do
            iunlockput sb p d
            return some k) Q (((inOp S p o).locked d).locked k) := by
          rw [locked_comm _ hkd.symm]
          refine owp_seq (iunlockput_owp sb ?_ (good_inOp.locked k) ?_)
          · rw [lock_locked, if_neg hkd.symm]
            rfl
          · exact owp_ret (hsome k)
        refine update_owp sb k _ (fun i => ?_)
        split
        · refine owp_seq (dirlink_owp sb k dot _ hgood (fun r => ?_))
          split
          · exact hfail
          · refine owp_seq (dirlink_owp sb k dotdot _ hgood (fun r => ?_))
            split
            · exact hfail
            · refine owp_seq (dirlink_owp sb d name _ hgood (fun r => ?_))
              split
              · exact hfail
              · refine update_owp sb d _ (fun e => ?_)
                exact hdone
        · refine owp_seq (dirlink_owp sb d name _ hgood (fun r => ?_))
          split
          · exact hfail
          · exact hdone
    · -- The name is there.
      simp only
      rw [locked_hold]
      refine owp_seq (iunlockput_owp sb rfl (good_inOp.hold k) ?_)
      refine owp_seq (ilock_hold_owp sb (fun _ => ?_))
      refine owp_skip (neutral_getInode k) (fun i => ?_)
      split
      · exact owp_ret (hsome k)
      · refine owp_seq (iunlockput_owp sb rfl good_inOp ?_)
        exact owp_ret hnone

theorem sysMake_owp (mem : UserMem) (path : BitVec 64) (type major minor : BitVec 16)
    (hQ : ∀ r, Q r (base S p o)) :
    owp p (sysMake sb p mem path type major minor) Q (base S p o) := by
  unfold sysMake
  refine owp_seq (begin_owp ?_)
  split
  · exact endRet_owp (hQ _)
  · refine owp_seq (create_owp sb _ type major minor ?_ (fun k => ?_))
    · exact endRet_owp (hQ _)
    · exact putEnd_owp sb k 0 Q (hQ _)

theorem sysChdir_owp (mem : UserMem) (path : BitVec 64)
    (hQ : ∀ r o, Q r (base S p o)) : owp p (sysChdir sb p mem path) Q (base S p o) := by
  unfold sysChdir
  refine owp_seq (begin_owp ?_)
  split
  · exact endRet_owp (hQ _ _)
  · refine owp_seq (namei_owp sb _ procs_inOp cwd_inOp (fun _ => rfl) ?_ (fun k => ?_))
    · exact endRet_owp (hQ _ _)
    · refine owp_seq (ilock_hold_owp sb (fun _ => ?_))
      refine owp_skip (neutral_getInode k) (fun i => ?_)
      split
      · exact putEnd_owp sb k (-1) Q (hQ _ _)
      · refine owp_seq (iunlock_owp _ (by rw [lock_locked, if_pos rfl]) ?_)
        rw [unlock_locked _ _ rfl]
        refine owp_seq (getCwd_owp procs_inOp ?_)
        cases hold : o.cwd with
        | none => exact owp_panic _ (by decide)
        | some old =>
          -- The old directory goes back before the new one is in place.
          let u := ((seeing S).take p { o with cwd := none }).setFds p o
          have hbase : inOp S p o = (u.setOps 1).hold old :=
            congrArg (fun v => setOps v 1) (take_cwd (seeing S) p hold)
          simp only
          rw [owp_bind, hbase, hold_comm]
          refine iput_owp (v := (u.setOps 1).hold k) sb _ (good_of_lock (fun _ => rfl)) ?_
          refine owp_seq (owp_endOp (v := u.hold k) _ 0 ?_)
          refine owp_seq (setCwd_owp (procs_setFds _ p o) ?_)
          rw [owp_pure]
          have hnew : ((u.hold k).setOps 0).setFds p { o with cwd := some k } =
              base S p { o with cwd := some k } := by
            have ht := take_chdir (seeing S) p { o with cwd := none } k rfl
            have hs := setFds_setFds
              (((seeing S).take p { o with cwd := none }).hold k) p o
              { o with cwd := some k }
            exact hs.trans ht
          rw [hnew]
          exact hQ _ _

theorem openInode_owp {v : View} {f : Fin NFILE} {k : Fin NINODE} (dev : Option (BitVec 16))
    (rd wr : Bool) {Q : Unit → View → Prop} (u : View) (hu : v = u.hold k)
    (hfr : v.fresh f = true) (hQ : Q () ((u.setFresh f false).see f (some k))) :
    owp p (openInode f k dev rd wr) Q v :=
  (owp_issue (.openInode f k dev rd wr) Q).mpr ⟨u, hu, hfr, hQ⟩

/-- The file is filled in with the inode: the reference moves from the variable
    to the file, and the file is in its descriptor already. -/
theorem View.opened (f : Fin NFILE) {fd : Fin NOFILE} (k : Fin NINODE) (h : o.ofile fd = none) :
    (((((((inOp S p o).setLock k true).holdFile f).setFresh f true).see f none).setFds p
      (o.setFd fd (some f))).setFresh f false).see f (some k) =
      (inOp (update S f (some k)) p (o.setFd fd (some f))).setLock k true := by
  have hfresh : update (fun _ : Fin NFILE => false) f false = fun _ => false :=
    update_eq_self f _
  unfold inOp base seeing take idle setOps setLock
    holdFile setFresh see setFds
  simp only [update_idem, Fds.cwds_setFd, o.slots_open fd f h, hfresh, zero_add]

theorem openFound_owp (k : Fin NINODE) (omode : BitVec 32) (hQ : ∀ r S o, Q r (base S p o)) :
    owp p (openFound sb p k omode) Q ((inOp S p o).locked k) := by
  unfold openFound
  refine owp_skip (neutral_getInode k) (fun i => ?_)
  split
  · exact putEnd_owp sb k (-1) Q (hQ _ _ _)
  · refine owp_seq (filealloc_owp ?_ (fun f hf => ?_))
    · exact putEnd_owp sb k (-1) Q (hQ _ _ _)
    · refine owp_seq (fdalloc_owp procs_inOp ?_ (fun fd hfd => ?_))
      · -- No descriptor: the file is given back before the inode.
        refine owp_seq (fileclose_fresh_owp (v := ((inOp S p o).locked k).see f none) sb f _
          (good_inOp (S := update S f none) |>.locked k) rfl ?_)
        exact putEnd_owp (S := update S f none) sb k (-1) Q (hQ _ _ _)
      · refine owp_seq (openInode_owp _ _ _
          (((((inOp S p o).setLock k true).holdFile f).setFresh f true).see f none |>.setFds p
            (o.setFd fd (some f))) rfl (fresh_setFresh _ f true) ?_)
        rw [opened f k hfd]
        -- Unlocking, and the end.
        have hend : owp p (do
            iunlock p k
            endOp
            return (fd.val : Int)) Q ((inOp (update S f (some k)) p
              (o.setFd fd (some f))).setLock k true) := by
          refine owp_seq (iunlock_owp _ (by rw [lock_setLock, if_pos rfl]) ?_)
          rw [setLock_setLock _ k true rfl]
          exact endRet_owp (hQ _ _ _)
        split
        · exact owp_skip (neutral_itrunc sb k) (fun _ => hend)
        · exact hend

theorem sysOpen_owp (mem : UserMem) (path : BitVec 64) (omode : BitVec 32)
    (hQ : ∀ r S o, Q r (base S p o)) :
    owp p (sysOpen sb p mem path omode) Q (base S p o) := by
  unfold sysOpen
  split
  · exact owp_ret (hQ _ _ _)
  · refine owp_seq (begin_owp ?_)
    split
    · refine owp_seq (create_owp sb _ _ _ _ ?_ (fun k => ?_))
      · exact endRet_owp (hQ _ _ _)
      · exact openFound_owp sb k omode hQ
    · refine owp_seq (namei_owp sb _ procs_inOp cwd_inOp (fun _ => rfl) ?_ (fun k => ?_))
      · exact endRet_owp (hQ _ _ _)
      · refine owp_seq (ilock_hold_owp sb (fun _ => ?_))
        refine owp_skip (neutral_getInode k) (fun i => ?_)
        split
        · exact putEnd_owp sb k (-1) Q (hQ _ _ _)
        · exact openFound_owp sb k omode hQ

theorem sysDup_owp (fd : Int) (hQ : ∀ r o, Q r (base S p o)) :
    owp p (sysDup p fd) Q (base S p o) := by
  unfold sysDup
  refine owp_seq (argfd_owp fd (procs_base S p o) ?_ (fun fd f hf => ?_))
  · exact owp_ret (hQ _ _)
  · refine owp_seq (fdalloc_owp (procs_base S p o) ?_ (fun fd' hfd' => ?_))
    · exact owp_ret (hQ _ _)
    · -- The descriptor is ahead of the reference it stands for.
      simp only
      rw [owp_bind]
      have hpos : 1 ≤ ((base S p o).setFds p (o.setFd fd' (some f))).fil f := by
        change 1 ≤ (base S p o).fil f
        rw [fil_base]
        exact o.slots_pos fd f hf
      refine filedup_owp f _ hpos rfl ?_
      rw [base_open S p f hfd']
      exact owp_ret (hQ _ _)

theorem one_le_fil_base (fd : Fin NOFILE) (f : Fin NFILE) (hf : o.ofile fd = some f) :
    1 ≤ (base S p o).fil f := by
  rw [fil_base]
  exact o.slots_pos fd f hf

theorem sysRead_owp (fd : Int) (mem : UserMem) (addr : BitVec 64) (n : BitVec 32) (io : Int)
    {Q : Int × List Byte → View → Prop} (hQ : ∀ r S o, Q r (base S p o)) :
    owp p (sysRead sb p fd mem addr n io) Q (base S p o) := by
  unfold sysRead
  refine owp_seq (argfd_owp fd (procs_base S p o) ?_ (fun fd f hf => ?_))
  · exact owp_ret (hQ _ _ _)
  · exact fileread_owp sb _ n io (one_le_fil_base fd f hf) (fun _ => rfl)
      (fun r S' => hQ r S' o)

theorem sysWrite_owp (fd : Int) (mem : UserMem) (addr : BitVec 64) (n : BitVec 32) (io : Int)
    (hQ : ∀ r S o, Q r (base S p o)) :
    owp p (sysWrite sb p fd mem addr n io) Q (base S p o) := by
  unfold sysWrite
  refine owp_seq (argfd_owp fd (procs_base S p o) ?_ (fun fd f hf => ?_))
  · exact owp_ret (hQ _ _ _)
  · exact filewrite_owp sb mem addr _ io (one_le_fil_base fd f hf) (fun _ => rfl)
      (fun r S' => hQ r S' o)

theorem sysFstat_owp (fd : Int) (mem : UserMem) (addr : BitVec 64)
    {Q : Int × Option Stat → View → Prop} (hQ : ∀ r S o, Q r (base S p o)) :
    owp p (sysFstat sb p fd mem addr) Q (base S p o) := by
  unfold sysFstat
  refine owp_seq (argfd_owp fd (procs_base S p o) ?_ (fun fd f hf => ?_))
  · exact owp_ret (hQ _ _ _)
  · exact filestat_owp sb _ (one_le_fil_base fd f hf) (fun _ => rfl) (fun r S' => hQ r S' o)

theorem sysClose_owp (fd : Int) (hQ : ∀ r o, Q r (base S p o)) :
    owp p (sysClose sb p fd) Q (base S p o) := by
  unfold sysClose
  refine owp_seq (argfd_owp fd (procs_base S p o) ?_ (fun fd f hf => ?_))
  · exact owp_ret (hQ _ _)
  · refine owp_seq (setOfile_owp p fd none o _ (procs_base S p o) ?_)
    rw [base_close S p hf]
    refine owp_seq (fileclose_plain_owp sb good_base rfl ?_)
    exact owp_ret (hQ _ _)

theorem closeBoth_owp (f g : Fin NFILE) (hQ : Q (-1) (base S p o)) :
    owp p (do
      fileclose sb p f
      fileclose sb p g
      return -1) Q (((base S p o).holdFile f).holdFile g) := by
  rw [holdFile_comm]
  refine owp_seq (fileclose_plain_owp sb (good_base.holdFile g) rfl ?_)
  refine owp_seq (fileclose_plain_owp sb good_base rfl ?_)
  exact owp_ret hQ

theorem sysPipe_owp (page copied : Bool) (hQ : ∀ r S o, Q r (base S p o)) :
    owp p (sysPipe sb p page copied) Q (base S p o) := by
  unfold sysPipe
  refine owp_seq (pipealloc_owp sb page (fun _ => good_of_lock (fun _ => rfl)) (fun _ => rfl)
    (fun S' => ?_) (fun f g S' => ?_))
  · exact owp_ret (hQ _ S' o)
  · change owp p _ Q (((base S' p o).holdFile f).holdFile g)
    refine owp_seq (fdalloc_owp (procs_base S' p o) ?_ (fun fd₀ h₀ => ?_))
    · exact closeBoth_owp sb f g (hQ _ _ _)
    · let o₁ := o.setFd fd₀ (some f)
      have h₀₁ : o₁.ofile fd₀ = some f := update_self _ _ _
      have hview₁ : (((base S' p o).holdFile f).holdFile g).setFds p o₁ =
          (base S' p o₁).holdFile g := by
        rw [holdFile_setFds, holdFile_setFds, base_open S' p f h₀]
      simp only
      rw [hview₁]
      refine owp_seq (fdalloc_owp (procs_base S' p o₁) ?_ (fun fd₁ h₁ => ?_))
      · -- No second descriptor: the first is taken back.
        refine owp_seq (setOfile_owp p fd₀ none o₁ _ (procs_base S' p o₁) ?_)
        have hview : ((base S' p o₁).holdFile g).setFds p (o₁.setFd fd₀ none) =
            ((base S' p (o₁.setFd fd₀ none)).holdFile f).holdFile g := by
          rw [holdFile_setFds, base_close S' p h₀₁]
        rw [hview]
        exact closeBoth_owp sb f g (hQ _ _ _)
      · let o₂ := o₁.setFd fd₁ (some g)
        have hne : fd₀ ≠ fd₁ := by
          intro hc
          rw [hc, h₁] at h₀₁
          exact nomatch h₀₁
        have h₀₂ : o₂.ofile fd₀ = some f := (update_of_ne hne _ _).trans h₀₁
        have hview₂ : ((base S' p o₁).holdFile g).setFds p o₂ = base S' p o₂ := by
          rw [holdFile_setFds]
          exact base_open S' p g h₁
        simp only
        rw [hview₂]
        split
        · exact owp_ret (hQ _ _ _)
        · -- The user's array does not take them: both are taken back.
          let o₃ := o₂.setFd fd₀ none
          have h₁₃ : o₃.ofile fd₁ = some g :=
            (update_of_ne hne.symm _ _).trans (update_self _ _ _)
          have hview₃ : (base S' p o₂).setFds p o₃ = (base S' p o₃).holdFile f :=
            base_close S' p h₀₂
          have hview₄ : ((base S' p o₃).holdFile f).setFds p (o₃.setFd fd₁ none) =
              ((base S' p (o₃.setFd fd₁ none)).holdFile f).holdFile g := by
            rw [holdFile_setFds, base_close S' p h₁₃, holdFile_comm]
          refine owp_seq (setOfile_owp p fd₀ none o₂ _ (procs_base S' p o₂) ?_)
          rw [hview₃]
          refine owp_seq (setOfile_owp p fd₁ none o₃ _ (procs_base S' p o₃) ?_)
          rw [hview₄]
          exact closeBoth_owp sb f g (hQ _ _ _)

theorem exec_owp (path : List Byte) (mem : ExecMem)
    (hQ : ∀ r, Q r (base S p o)) : owp p (exec sb p path mem) Q (base S p o) := by
  unfold exec
  refine owp_seq (begin_owp ?_)
  refine owp_seq (namei_owp sb path procs_inOp cwd_inOp (fun _ => rfl) ?_ (fun k => ?_))
  · exact endRet_owp (hQ _)
  · have hbad : owp p (execBad sb p k) Q ((inOp S p o).locked k) :=
      putEnd_owp sb k (-1) Q (hQ _)
    refine owp_seq (ilock_hold_owp sb (fun _ => ?_))
    refine owp_skip (neutral_readi sb k _ _ _) (fun r => ?_)
    split
    · exact hbad
    · split
      · exact hbad
      · split
        · exact hbad
        · refine owp_skip (neutral_loadFrom sb k mem _ _ _) (fun ok => ?_)
          split
          · exact hbad
          · refine owp_seq (iunlockput_owp sb rfl good_inOp ?_)
            refine owp_seq (owp_endOp _ 0 ?_)
            split
            · exact owp_ret (hQ _)
            · exact owp_ret (hQ _)

theorem forkFiles_owp (np : Fin NPROC) (hnp : np ≠ p) (fds : List (Fin NOFILE)) (c : Fds)
    (hnodup : fds.Nodup) (hfree : ∀ fd ∈ fds, c.ofile fd = none) (hcwd : c.cwd = none)
    (Q : Unit → View → Prop)
    (hQ : ∀ c : Fds, c.cwd = none → Q () ((base S p o).take np c)) :
    owp p (forkFiles p np fds) Q ((base S p o).take np c) := by
  have hp : ∀ c, ((base S p o).take np c).procs p = some o := fun c =>
    (update_of_ne hnp.symm _ _).trans (procs_base S p o)
  induction fds generalizing c with
  | nil =>
    unfold forkFiles
    exact owp_ret (hQ c hcwd)
  | cons fd fds ih =>
    rcases List.nodup_cons.mp hnodup with ⟨hnotin, hnodup'⟩
    unfold forkFiles
    refine owp_seq (getOfile_owp p fd o _ (hp c) ?_)
    cases hf : o.ofile fd with
    | none => exact ih c hnodup' (fun fd' h' => hfree fd' (List.mem_cons_of_mem _ h')) hcwd
    | some f =>
      simp only
      have hpos : 1 ≤ ((base S p o).take np c).fil f := by
        change 1 ≤ (base S p o).fil f + c.slots f
        have := one_le_fil_base (S := S) (p := p) fd f hf
        omega
      refine owp_seq (filedup_owp f _ hpos rfl ?_)
      refine owp_seq (setOfile_owp np fd (some f) c _ (procs_take (base S p o) np c) ?_)
      rw [take_open _ np c fd f (hfree fd List.mem_cons_self)]
      refine ih (c.setFd fd (some f)) hnodup' (fun fd' h' => ?_) hcwd
      have hne : fd' ≠ fd := fun hc => hnotin (hc ▸ h')
      exact (update_of_ne hne _ _).trans (hfree fd' (List.mem_cons_of_mem _ h'))

theorem fork_owp (mem : Bool) (hQ : ∀ r, Q r (base S p o)) :
    owp p (fork p mem) Q (base S p o) := by
  unfold fork
  rw [owp_bind]
  have hself : (base S p o).procs p ≠ none := by
    rw [procs_base]
    exact nofun
  refine (owp_issue .allocproc _).mpr ⟨hself, ?_, fun np hnp hnone => ?_⟩
  · change owp p (pure (-1)) Q _
    exact owp_ret (hQ _)
  · change owp p (if mem = false then _ else _) Q _
    split
    · refine owp_seq ((owp_issue (.freeproc np) _).mpr ⟨hnp, base S p o, rfl, hnone, ?_⟩)
      beta_reduce
      exact owp_ret (hQ _)
    · refine owp_seq (forkFiles_owp np hnp _ .empty (List.nodup_finRange NOFILE) (fun _ _ => rfl)
        rfl _ (fun c hc => ?_))
      refine owp_seq (getCwd_owp ((update_of_ne hnp.symm _ _).trans
        (procs_base S p o)) ?_)
      cases hk : o.cwd with
      | none => exact owp_panic _ (by decide)
      | some k =>
        refine owp_seq (idup_owp (Nat.le_add_right_of_le (cwd_base (p := p) k hk)) ?_)
        refine owp_seq (setCwd_owp (procs_take (base S p o) np c) ?_)
        rw [take_chdir _ np c k hc]
        refine owp_seq (setParent_owp np p ?_)
        refine owp_seq ((owp_issue (.setRunnable np) _).mpr ⟨hnp, base S p o, _, rfl, hnone,
          good_base, fun _ => rfl, ?_⟩)
        beta_reduce
        exact owp_ret (hQ _)

theorem exitFiles_owp {fds : List (Fin NOFILE)} {Q : Unit → View → Prop}
    (hQ : ∀ o' : Fds, o'.cwd = o.cwd →
      (∀ fd, fd ∈ fds ∨ o.ofile fd = none → o'.ofile fd = none) → Q () (base S p o')) :
    owp p (exitFiles sb p fds) Q (base S p o) := by
  induction fds generalizing o with
  | nil =>
    unfold exitFiles
    rw [owp_pure]
    refine hQ o rfl (fun fd h => ?_)
    rcases h with h | h
    · exact nomatch h
    · exact h
  | cons fd fds ih =>
    unfold exitFiles
    refine owp_seq (getOfile_owp p fd o _ (procs_base S p o) ?_)
    cases hf : o.ofile fd with
    | none =>
      refine ih (fun o' hc ho => hQ o' hc (fun fd' h => ho fd' ?_))
      rcases h with h | h
      · rcases List.mem_cons.mp h with h | h
        · rw [h]
          exact Or.inr hf
        · exact Or.inl h
      · exact Or.inr h
    | some f =>
      have hview : base S p o =
          ((base S p (o.setFd fd none)).setFds p o).holdFile f :=
        take_slot (seeing S) p hf
      simp only
      rw [owp_bind, hview]
      refine fileclose_plain_owp sb (good_of_lock (fun _ => rfl)) rfl ?_
      refine owp_seq (setOfile_owp p fd none o _ (procs_setFds _ p o) ?_)
      have hback : ((base S p (o.setFd fd none)).setFds p o).setFds p (o.setFd fd none) =
          base S p (o.setFd fd none) := by
        rw [setFds_setFds]
        exact take_setFds (seeing S) p rfl rfl
      rw [hback]
      refine ih (fun o' hc ho => hQ o' hc (fun fd' h => ho fd' ?_))
      by_cases hfd : fd' = fd
      · rw [hfd]
        exact Or.inr (update_self _ _ _)
      · rcases h with h | h
        · rcases List.mem_cons.mp h with h | h
          · exact absurd h hfd
          · exact Or.inl h
        · exact Or.inr ((update_of_ne hfd _ _).trans h)

theorem exit_owp (hQ : ∀ r, Q r (seeing S)) :
    owp p (exit sb p) Q (base S p o) := by
  unfold exit
  split
  · exact owp_panic _ (by decide)
  · refine owp_seq (exitFiles_owp sb (fun o' _ hempty => ?_))
    refine owp_seq (getCwd_owp (procs_base S p o') ?_)
    cases hcwd : o'.cwd with
    | none => exact owp_panic _ (by decide)
    | some k =>
      have hgone : ({ o' with cwd := none } : Fds) = .empty := by
        have hof : o'.ofile = fun _ => none :=
          funext (fun fd => hempty fd (Or.inl (List.mem_finRange fd)))
        rw [hof]
        rfl
      let u := ((seeing S).take p { o' with cwd := none }).setFds p o'
      have hbase : inOp S p o' = (u.setOps 1).hold k :=
        congrArg (fun v => setOps v 1) (take_cwd (seeing S) p hcwd)
      refine owp_seq (begin_owp ?_)
      rw [owp_bind, hbase]
      refine iput_owp sb _ (good_of_lock (fun _ => rfl)) ?_
      refine owp_seq (owp_endOp (v := u) _ 0 ?_)
      refine owp_seq (setCwd_owp (procs_setFds _ p o') ?_)
      have hback : (u.setOps 0).setFds p { o' with cwd := none } =
          (seeing S).take p .empty := by
        rw [← hgone]
        have hs := setFds_setFds ((seeing S).take p { o' with cwd := none }) p o'
          { o' with cwd := none }
        exact hs.trans (take_setFds (seeing S) p rfl rfl)
      rw [hback]
      refine owp_seq ((owp_issue (.zombie p) _).mpr ⟨rfl, seeing S, rfl, rfl, ?_⟩)
      beta_reduce
      exact owp_ret (hQ _)

theorem wait_owp (hQ : ∀ r, Q r (base S p o)) :
    owp p (wait p) Q (base S p o) := by
  unfold wait
  refine owp_seq ((owp_issue (.reap p) _).mpr (fun r => ?_))
  cases r with
  | none =>
    change owp p (pure (-1)) Q _
    exact owp_ret (hQ _)
  | some q =>
    change owp p (pure (q.val : Int)) Q _
    exact owp_ret (hQ _)

/-- A system call ends with its process as its only possession. -/
theorem syscall_owp (c : Call) : owp p (syscall sb p c) (fun _ v => v.Final p)
    (base S p o) := by
  have hfin : ∀ S o, (base S p o).Final p := fun S o => base_final S p o
  cases c with
  | openFile mem path omode => exact sysOpen_owp sb mem path omode (fun _ S o => hfin S o)
  | close fd => exact sysClose_owp sb fd (fun _ o => hfin S o)
  | dup fd => exact sysDup_owp fd (fun _ o => hfin S o)
  | read fd mem addr n io =>
    unfold syscall
    refine owp_seq (sysRead_owp sb fd mem addr n io (fun r S o => ?_))
    exact owp_ret (hfin S o)
  | write fd mem addr n io => exact sysWrite_owp sb fd mem addr n io (fun _ S o => hfin S o)
  | fstat fd mem addr =>
    unfold syscall
    refine owp_seq (sysFstat_owp sb fd mem addr (fun r S o => ?_))
    exact owp_ret (hfin S o)
  | link mem old new => exact sysLink_owp sb mem old new (fun _ => hfin S o)
  | unlink mem path => exact sysUnlink_owp sb mem path (fun _ => hfin S o)
  | mkdir mem path | mknod mem path major minor =>
    exact sysMake_owp sb mem path _ _ _ (fun _ => hfin S o)
  | chdir mem path => exact sysChdir_owp sb mem path (fun _ o => hfin S o)
  | pipe page copied => exact sysPipe_owp sb page copied (fun _ S o => hfin S o)
  | exec mem path args emem =>
    simp only [syscall]
    unfold sysExec
    split
    · exact owp_ret (hfin S o)
    · split
      · exact exec_owp sb _ emem (fun _ => hfin S o)
      · exact owp_ret (hfin S o)
  | fork mem => exact fork_owp mem (fun _ => hfin S o)
  | exit => exact exit_owp sb (fun _ => ⟨S, Or.inl rfl⟩)
  | wait => exact wait_owp (fun _ => hfin S o)

end Calls

section System

variable {s : Kernel} {W : Fin NPROC → View} {p : Fin NPROC}

/-- The reference counts are exact, as they have to be when no system call is in
    progress. -/
structure Exact (s : Kernel) : Prop where
  files : ∀ f, (s.ftable f).ref =
    (Finset.univ.filter (fun x : Fin NPROC × Fin NOFILE => (s.proc x.1).ofile x.2 = some f)).card
  inodes : ∀ k, (s.itable k).ref =
    (Finset.univ.filter (fun q => (s.proc q).cwd = some k)).card +
    (Finset.univ.filter (fun f => 0 < (s.ftable f).ref ∧
      ((s.ftable f).type = .inode ∨ (s.ftable f).type = .device) ∧ (s.ftable f).ip = k)).card
  ends : ∀ pi x wr, s.pipes[pi]? = some x → (x.isOpen wr = true ↔ ∃ f, 0 < (s.ftable f).ref ∧
    (s.ftable f).type = .pipe ∧ (s.ftable f).pipe = pi ∧ (s.ftable f).writable = wr)
  pages : ∀ x ∈ s.pipes, x.freed = if x.readopen = false ∧ x.writeopen = false then 1 else 0
  outstanding : s.log.outstanding = 0

theorem unowned_idle (q : Fin NPROC) (n : Nat) : unowned (fun _ => idle) q n = n := by
  refine if_neg ?_
  rintro ⟨p, hp⟩
  exact hp rfl

theorem Counted.ref_pos (h : Counted s W) (f : Fin NFILE) (hf : (s.ftable f).type ≠ .none) :
    0 < (s.ftable f).ref := by
  have hnonneg := h.ref_nonneg f
  have hne : (s.ftable f).ref ≠ 0 := fun hc => hf (h.free f hc)
  omega

theorem File.inodes_eq (x : File) (k : Fin NINODE) :
    x.inodes k = if (x.type = .inode ∨ x.type = .device) ∧ x.ip = k then 1 else 0 := by
  unfold File.inodes
  cases x.type <;> simp only [FdType.isInode, reduceCtorEq, or_false, or_true, true_and,
    false_and, or_self, Bool.false_eq_true]

/-- When nobody is in a call, the counts are what the tables show. -/
theorem Counted.exact (h : Counted s (fun _ => View.idle)) : Exact s := by
  refine ⟨fun f => ?_, fun k => ?_, fun pi x wr hx => ?_, h.pages, ?_⟩
  · rw [h.files, card_filter, Fintype.sum_prod_type]
    simp only [unowned_idle]
    rw [show ∑ p : Fin NPROC, View.idle.fil f = 0 from sum_const_zero, Nat.add_zero]
    rfl
  · rw [h.inodes, card_filter, card_filter]
    simp only [unowned_idle]
    rw [show ∑ p : Fin NPROC, View.idle.ino k = 0 from sum_const_zero, Nat.add_zero,
      Nat.cast_add]
    refine congrArg₂ _ rfl (congrArg _ (sum_congr rfl (fun f _ => ?_)))
    rw [File.inodes_eq]
    refine if_congr ⟨fun hc => ⟨h.ref_pos f ?_, hc⟩, fun hc => hc.2⟩ rfl rfl
    rcases hc.1 with hc | hc <;> rw [hc] <;> simp only [ne_eq, reduceCtorEq, not_false_eq_true]
  · have hends := h.ends pi wr
    rw [show ∑ p : Fin NPROC, View.idle.pip pi wr = 0 from sum_const_zero,
      Nat.add_zero] at hends
    simp only [endOpen, hx] at hends
    refine ⟨fun ho => ?_, fun ⟨f, _, ht, hp, hw⟩ => ?_⟩
    · -- Some file counts for the end.
      rw [if_pos ho] at hends
      rcases exists_ne_zero_of_sum_ne_zero (by rw [← hends]; decide) with ⟨f, _, hf⟩
      have hc : (s.ftable f).type = .pipe ∧ (s.ftable f).pipe = pi ∧
          (s.ftable f).writable = wr := by
        by_contra hc
        exact hf (if_neg hc)
      refine ⟨f, h.ref_pos f ?_, hc⟩
      rw [hc.1]
      exact nofun
    · have hone : (s.ftable f).ends pi wr = 1 := if_pos ⟨ht, hp, hw⟩
      have hle := single_le_sum (f := fun f => (s.ftable f).ends pi wr)
        (fun f _ => Nat.zero_le _) (mem_univ f)
      by_contra hc
      rw [if_neg hc] at hends
      omega
  · rw [h.ops]
    exact sum_const_zero

/-- The system calls of all processes, interleaved. -/
abbrev SysPool := Pool Cmd Cmd.Ans Int Kernel (Fin NPROC)

def sysPool (sb : Superblock) : SysPool → PoolEvent (Fin NPROC) Call → Outcome Panic SysPool :=
  Pool.step perform (fun s p => decide ((s.proc p).state = .runnable)) (syscall sb)

theorem Counted.enter (h : Counted s W) (hidle : W p = .idle)
    (hstate : (s.proc p).state = .runnable) :
    Counted s (update W p (base (fun _ => none) p (s.proc p).fds)) := by
  have hnot : ∀ p', (W p').procs p = none := by
    intro p'
    cases ho : (W p').procs p with
    | none => rfl
    | some o =>
      exfalso
      have hst := (h.procs p' p o ho).2
      by_cases hp : p = p'
      · rw [← hp, hidle] at ho
        exact nomatch ho
      · rw [if_neg hp, hstate] at hst
        exact nomatch hst
  have htake := h.take (p := p) p (s.proc p) hnot rfl (by rw [if_pos rfl]; exact hstate)
    (Or.inl (fun f => by rw [hidle]; rfl))
  rw [update_eq_self, hidle] at htake
  exact htake

theorem Counted.forget (h : Counted s W) (S : Fin NFILE → Option (Fin NINODE))
    (hW : W p = seeing S) : Counted s (update W p .idle) := by
  exact h.refs hW s.itable s.ftable s.pipes s.log rfl rfl h.idle
    (h.lock_same _ (by rw [hW]; rfl) (fun _ => rfl)) (fun _ => rfl) (fun _ => rfl) h.free
    (fun _ _ => rfl) h.pages (good_of_lock (fun _ => rfl)) nofun nofun
    (fun q f _ _ => ⟨rfl, rfl, fun _ => rfl⟩) h.sole

theorem Counted.leave (h : Counted s W) (hW : (W p).Final p) :
    Counted s (update W p .idle) := by
  rcases hW with ⟨S, hS | ⟨o, ho⟩⟩
  · exact h.forget S hS
  · have hproc : (s.proc p).fds = o ∧ (s.proc p).state = if p = p then .runnable else .used := by
      refine h.procs p p o ?_
      rw [ho]
      exact update_self _ _ _
    have hgive := h.give p (seeing S) o (s.proc p) ho rfl
      (good_of_lock (fun _ => rfl)) (nofun) hproc.1
      (fun hc => absurd hc (not_gone hproc.2))
    rw [update_eq_self] at hgive
    have hforget := hgive.forget (p := p) S (update_self _ _ _)
    rw [update_idem] at hforget
    exact hforget

/-- In every run of interleaved calls the counts and the views agree. -/
theorem sysPool_counted {sb : Superblock} {x y : SysPool} (hx : x.Idle)
    (hc : Counted x.state (fun _ => .idle)) {es : List (PoolEvent (Fin NPROC) Call)}
    (hy : runs (sysPool sb) es x = .done y) :
    PoolOk idle (fun p v => v.Final p) Local Counted y ∧
      ∀ e m, sysPool sb y e = .panic m → ¬BadCount m := by
  have hok : PoolOk idle (fun p v => v.Final p) Local Counted x := by
    refine ⟨fun _ => .idle, hc, fun p => ?_⟩
    rw [hx p]
  exact counted_discipline.runs_sound
    (fun (s : Kernel) p => decide ((s.proc p).state = .runnable)) (syscall sb) idle
    (fun p v => v.Final p)
    (fun s W p j h hidle hready => by
      rw [decide_eq_true_eq] at hready
      refine ⟨_, ?_, h.enter hidle hready⟩
      have howp := syscall_owp (p := p) (S := fun _ => none) (o := (s.proc p).fds) sb j
      unfold owp at howp
      exact howp)
    (fun s W p h hfinal => h.leave hfinal) x y hok es hy

theorem bootKernel_counted (sb : Superblock) (blk : Nat → Block) :
    Counted (bootKernel sb blk) (fun _ => .idle) := by
  have hzero : ∑ p : Fin NPROC, (0 : Nat) = 0 := sum_const_zero
  have hproc : ∀ q, q ≠ initproc → ((bootKernel sb blk).proc q).fds = .empty := by
    intro q hq
    simp only [bootKernel, update_of_ne hq]
    rfl
  refine ⟨fun k => ?_, fun f => ?_, fun _ _ => rfl, fun pi wr => ?_, fun x hx => ?_,
    hzero.symm, rfl, fun k p => ?_, fun p => good_of_lock (fun _ => rfl), fun p f hf => ?_,
    fun p f k hs => ?_, fun p q o ho => ?_, fun p p' q hq => absurd rfl hq, fun q hq => ?_,
    fun i j hi hj _ _ => ?_⟩
  · -- The root is the current directory of the first process, and nothing else is.
    simp only [unowned_idle]
    rw [show ∑ p : Fin NPROC, idle.ino k = 0 from hzero,
      show ∑ f, ((bootKernel sb blk).ftable f).inodes k = 0 from sum_const_zero,
      sum_eq_single initproc (fun q _ hq => by rw [hproc q hq, Fds.cwds_empty]; rfl)
        (fun hc => absurd (mem_univ _) hc)]
    by_cases hk : k = ⟨0, by decide⟩
    · rw [hk]
      rfl
    · simp only [bootKernel, update_of_ne hk, update_self, Proc.fds, Fds.cwds,
        Option.some.injEq, Ne.symm hk, if_false]
      rfl
  · simp only [unowned_idle]
    rw [show ∑ p : Fin NPROC, idle.fil f = 0 from hzero,
      sum_eq_zero (fun q _ => ?_)]
    · rfl
    · by_cases hq : q = initproc
      · rw [hq]
        exact congrFun Fds.slots_empty f
      · rw [hproc q hq, Fds.slots_empty]
        rfl
  · rw [show ∑ p : Fin NPROC, idle.pip pi wr = 0 from hzero,
      show ∑ f, ((bootKernel sb blk).ftable f).ends pi wr = 0 from sum_const_zero]
    rfl
  · cases hx
  · refine ⟨fun hc => ?_, (by rintro ⟨⟩)⟩
    by_cases hk : k = ⟨0, by decide⟩
    · rw [hk] at hc
      exact absurd hc (by simp only [bootKernel, update_self, reduceCtorEq,
        not_false_eq_true])
    · exact absurd hc (by simp only [bootKernel, update_of_ne hk, reduceCtorEq,
        not_false_eq_true])
  · cases hf
  · cases hs
  · cases ho
  · by_cases hi : q = initproc
    · rw [hi] at hq
      exact absurd hq (by simp only [bootKernel, update_self, reduceCtorEq, or_self,
        not_false_eq_true])
    · exact hproc q hi
  · have hroot : ∀ k, 0 < ((bootKernel sb blk).itable k).ref → k = ⟨0, ninode_pos⟩ := by
      intro k hk
      by_contra hne
      simp only [bootKernel, update_of_ne hne, lt_self_iff_false] at hk
    rw [hroot i hi, hroot j hj]

/-- The system when the first process starts. -/
def bootPool (sb : Superblock) (blk : Nat → Block) : SysPool :=
  { state := bootKernel sb blk, thread := fun _ => none }

/-- Whatever is on the disk, in every run of interleaved system calls the counts
    are exact whenever no call is in progress, and `filedup`, `fileclose` and
    `iunlock` never panic. -/
theorem references_exact (sb : Superblock) (blk : Nat → Block)
    (es : List (PoolEvent (Fin NPROC) Call)) (y : SysPool)
    (hy : runs (sysPool sb) es (bootPool sb blk) = .done y) :
    (y.Idle → Exact y.state) ∧
      ∀ e m, sysPool sb y e = .panic m → m ≠ .filedup ∧ m ≠ .fileclose ∧ m ≠ .iunlock := by
  have h := sysPool_counted (fun _ => rfl) (bootKernel_counted sb blk) hy
  refine ⟨fun hidle => (h.1.all_idle _ _ hidle).exact, fun e m hm => ?_⟩
  have hgood := h.2 e m hm
  exact ⟨fun hc => hgood (Or.inl hc), fun hc => hgood (Or.inr (Or.inl hc)),
    fun hc => hgood (Or.inr (Or.inr hc))⟩

/-- The first process makes a pipe. -/
def pipeRun : List (PoolEvent (Fin NPROC) Call) :=
  .start initproc (.pipe true true) :: List.replicate 11 (.step initproc)

theorem pipeRun_exact : ∃ y, runs (sysPool mkfsSb) pipeRun (bootPool mkfsSb (fun _ _ => 0)) =
    .done y ∧ y.state.pipes = [⟨true, true, 0⟩] ∧ Exact y.state := by
  refine ⟨_, rfl, rfl, (references_exact _ _ pipeRun _ rfl).1 (fun p => ?_)⟩
  rw [← Option.isNone_iff_eq_none]
  revert p
  decide

end System

end Xv6
