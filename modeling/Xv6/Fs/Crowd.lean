import Xv6.Fs.Exact
import Mathlib.Data.Set.Card

/-!
# Running Out of Inode Entries

When `iget` panics for want of an entry.

The limits on processes and open files are enforced where a process or a file is
allocated, and `iget` relies on them: it does not fail, it panics. Every
reference is that of a current directory, of an open file or of a call in
progress, and no inode has two entries. So the panic comes exactly when these
hold `NINODE` distinct inodes and the inode that is asked for is not among them.

The limits do not keep them fewer. A process needs no open file to refer to an
inode, since it has a current directory, and `NPROC` is more than `NINODE`: when
each process of a line of them goes one directory further down than its parent,
the fiftieth of the children asks for the entry that is not there.

## Main definitions

* `Held`, `heldInodes`: The inodes that somebody refers to.
* `chainDisk`, `crowdRun`: The run that uses all entries.

## Theorems

* `iget_panics_iff_crowded`: The panic of `iget` in a run of interleaved calls.
* `inode_locks_held`: Who has the locks of inodes.
* `crowd_panics`: A run that comes to it.
-/

namespace Xv6

open Function

/-- Every entry of the table has a reference, and none is for the inode. -/
def Crowded (s : Kernel) (dev inum : Nat) : Prop :=
  ∀ k, 0 < (s.itable k).ref ∧ ¬((s.itable k).dev = dev ∧ (s.itable k).inum = inum)

instance (s : Kernel) (dev inum : Nat) : Decidable (Crowded s dev inum) :=
  inferInstanceAs (Decidable (∀ _, _))

theorem Kernel.iget_panics_iff {s : Kernel} (hs : ∀ k, 0 ≤ (s.itable k).ref) (dev inum : Nat) :
    s.iget dev inum = .panic .igetNoInodes ↔ Crowded s dev inum := by
  unfold Kernel.iget
  cases hfind : (List.finRange NINODE).find?
      (fun k => 0 < (s.itable k).ref ∧ (s.itable k).dev = dev ∧ (s.itable k).inum = inum) with
  | some k =>
    have hk := List.find?_some hfind
    rw [decide_eq_true_eq] at hk
    exact ⟨nofun, fun h => absurd hk.2 (h k).2⟩
  | none =>
    have hnot : ∀ k, ¬(0 < (s.itable k).ref ∧ (s.itable k).dev = dev ∧
        (s.itable k).inum = inum) := fun k hk =>
      List.find?_eq_none.mp hfind k (List.mem_finRange k) (decide_eq_true hk)
    cases hfree : (List.finRange NINODE).find? (fun k => (s.itable k).ref = 0) with
    | some k =>
      have hk := List.find?_some hfree
      rw [decide_eq_true_eq] at hk
      exact ⟨nofun, fun h => absurd hk (Int.ne_of_gt (h k).1)⟩
    | none =>
      refine ⟨fun _ k => ?_, fun _ => rfl⟩
      have hused : (s.itable k).ref ≠ 0 := fun hk =>
        List.find?_eq_none.mp hfree k (List.mem_finRange k) (decide_eq_true hk)
      have hpos : 0 < (s.itable k).ref := lt_of_le_of_ne (hs k) hused.symm
      exact ⟨hpos, fun hc => hnot k ⟨hpos, hc⟩⟩

/-- A crowded table has at least `NINODE` references. -/
theorem Crowded.le_sum {s : Kernel} {dev inum : Nat} (h : Crowded s dev inum) :
    (NINODE : Int) ≤ ∑ k, (s.itable k).ref := by
  have hone : ∀ k ∈ Finset.univ, 1 ≤ (s.itable k).ref := fun k _ => (h k).1
  have hsum := Finset.card_nsmul_le_sum Finset.univ (fun k => (s.itable k).ref) 1 hone
  rw [Finset.card_univ, Fintype.card_fin, nsmul_one] at hsum
  exact hsum

theorem Counted.inode_ref_nonneg {s : Kernel} {W : Fin NPROC → View} (h : Counted s W)
    (k : Fin NINODE) : 0 ≤ (s.itable k).ref := by
  rw [h.inodes k]
  exact Int.natCast_nonneg _

/-- Somebody refers to an entry: it is the current directory of a process that no call
    has in hand, or an open file is of it, or a call in progress has a reference. -/
def Held (s : Kernel) (W : Fin NPROC → View) (k : Fin NINODE) : Prop :=
  (∃ q, (s.proc q).cwd = some k ∧ ∀ p, (W p).procs q = none) ∨
    (∃ f, (s.ftable f).type.isInode = true ∧ (s.ftable f).ip = k) ∨ ∃ p, 0 < (W p).ino k

/-- The distinct inodes so held, by device and number. -/
def heldInodes (s : Kernel) (W : Fin NPROC → View) : Set (Nat × Nat) :=
  Set.image (fun k => ((s.itable k).dev, (s.itable k).inum)) { k | Held s W k }

theorem Counted.ref_pos_iff_held {s : Kernel} {W : Fin NPROC → View} (h : Counted s W)
    (k : Fin NINODE) : 0 < (s.itable k).ref ↔ Held s W k := by
  have hcwd : ∀ q, 0 < unowned W q ((s.proc q).fds.cwds k) ↔
      (s.proc q).cwd = some k ∧ ∀ p, (W p).procs q = none := by
    intro q
    unfold unowned Fds.cwds
    by_cases hown : ∃ p, (W p).procs q ≠ none
    · rcases hown with ⟨p, hp⟩
      rw [if_pos ⟨p, hp⟩]
      exact ⟨fun hlt => absurd hlt (Nat.lt_irrefl 0), fun hq => absurd (hq.2 p) hp⟩
    · rw [if_neg hown]
      push Not at hown
      change 0 < (if (s.proc q).cwd = some k then 1 else 0) ↔ _
      by_cases hk : (s.proc q).cwd = some k
      · exact ⟨fun _ => ⟨hk, hown⟩, fun _ => by rw [if_pos hk]; exact Nat.one_pos⟩
      · exact ⟨fun hlt => absurd hlt (by rw [if_neg hk]; exact Nat.lt_irrefl 0),
          fun hq => absurd hq.1 hk⟩
  have hfile : ∀ f, 0 < (s.ftable f).inodes k ↔
      (s.ftable f).type.isInode = true ∧ (s.ftable f).ip = k := by
    intro f
    unfold File.inodes
    split_ifs with hf
    · exact ⟨fun _ => hf, fun _ => Nat.one_pos⟩
    · exact ⟨fun hlt => absurd hlt (Nat.lt_irrefl 0), fun hc => absurd hc hf⟩
  rw [h.inodes k, Int.natCast_pos, Nat.add_pos_iff_pos_or_pos, Nat.add_pos_iff_pos_or_pos,
    or_assoc]
  simp only [Finset.sum_pos_iff, Finset.mem_univ, true_and, hcwd, hfile, Held]

/-- The table is crowded when `NINODE` inodes are held and the one in question is not. -/
theorem Counted.crowded_iff {s : Kernel} {W : Fin NPROC → View} (h : Counted s W)
    (dev inum : Nat) : Crowded s dev inum ↔
      (heldInodes s W).ncard = NINODE ∧ (dev, inum) ∉ heldInodes s W := by
  -- No inode has two entries, so the inodes are as many as the entries that are held.
  have hinj : Set.InjOn (fun k => ((s.itable k).dev, (s.itable k).inum)) { k | Held s W k } := by
    intro i hi j hj hij
    exact h.sole i j ((h.ref_pos_iff_held i).mpr hi) ((h.ref_pos_iff_held j).mpr hj)
      (congrArg Prod.fst hij) (congrArg Prod.snd hij)
  have hall : (heldInodes s W).ncard = NINODE ↔ ∀ k, Held s W k := by
    have huniv := Set.eq_univ_iff_ncard { k | Held s W k }
    rw [Nat.card_eq_fintype_card, Fintype.card_fin] at huniv
    rw [heldInodes, hinj.ncard_image, ← huniv, Set.eq_univ_iff_forall]
    rfl
  rw [hall]
  constructor
  · intro hc
    refine ⟨fun k => (h.ref_pos_iff_held k).mp (hc k).1, ?_⟩
    rintro ⟨k, _, hk⟩
    exact (hc k).2 (Prod.mk.inj hk)
  · rintro ⟨hheld, hnot⟩ k
    exact ⟨(h.ref_pos_iff_held k).mpr (hheld k),
      fun hk => hnot ⟨k, hheld k, Prod.ext hk.1 hk.2⟩⟩

/-- A step that asks for an inode panics when the table is crowded. -/
theorem sysPool_iget_panics_iff (sb : Superblock) {y : SysPool} {W : Fin NPROC → View}
    (hW : Counted y.state W) {p : Fin NPROC} {dev inum : Nat} {k : Fin NINODE → M Int}
    (hp : y.thread p = some (.act (.iget dev inum) k)) :
    sysPool sb y (.step p) = .panic .igetNoInodes ↔ Crowded y.state dev inum := by
  rw [← Kernel.iget_panics_iff hW.inode_ref_nonneg dev inum]
  simp only [sysPool, Pool.step, hp, perform]
  cases y.state.iget dev inum with
  | done r | wait => constructor <;> rintro ⟨⟩
  | panic e => exact ⟨fun h => congrArg Outcome.panic (Outcome.panic.inj h), fun h =>
      congrArg Outcome.panic (Outcome.panic.inj h)⟩

/-- Whatever is on the disk, in every run of interleaved system calls the references are
    those of current directories, open files and calls in progress, and a process that asks
    for an inode panics exactly when these hold `NINODE` distinct inodes and not the one
    that is asked for. It does not as long as there are fewer than `NINODE` references. -/
theorem iget_panics_iff_crowded (sb : Superblock) (blk : Nat → Block)
    (es : List (PoolEvent (Fin NPROC) Call)) (y : SysPool)
    (hy : runs (sysPool sb) es (bootPool sb blk) = .done y) (p : Fin NPROC) (dev inum : Nat)
    (k : Fin NINODE → M Int) (hp : y.thread p = some (.act (.iget dev inum) k)) :
    (∃ W, Counted y.state W ∧ (∀ q, y.thread q = none → W q = .idle) ∧
      (sysPool sb y (.step p) = .panic .igetNoInodes ↔
        (heldInodes y.state W).ncard = NINODE ∧ (dev, inum) ∉ heldInodes y.state W)) ∧
      (∑ i, (y.state.itable i).ref < NINODE →
        sysPool sb y (.step p) ≠ .panic .igetNoInodes) := by
  rcases (sysPool_counted (fun _ => rfl) (bootKernel_counted sb blk) hy).1 with ⟨W, hW, hviews⟩
  have hiff := sysPool_iget_panics_iff sb hW hp
  refine ⟨⟨W, hW, fun q hq => ?_, hiff.trans (hW.crowded_iff dev inum)⟩, fun hfew hpanic =>
    absurd (hiff.mp hpanic).le_sum (Int.not_le.mpr hfew)⟩
  have hidle := hviews q
  rw [hq] at hidle
  exact hidle

/-- A disk on which every inode is a directory of one entry, `a`, for the inode
    after it; inode `i` has its data in block `100 + i`. -/
def chainDisk : Nat → Block := fun b o =>
  if mkfsSb.inodestart ≤ b ∧ b < mkfsSb.inodestart + 13 then
    -- A directory, with one link to it, of 16 bytes.
    if o % 64 = 0 ∨ o % 64 = 6 then 1
    else if o % 64 = 8 then 16
    else if o % 64 = 12 then BitVec.ofNat 8 (100 + ((b - mkfsSb.inodestart) * IPB + o / 64))
    else 0
  else if o = 0 then BitVec.ofNat 8 (b - 99)
  else if o = 2 then 97
  else 0

/-- The path `a` at address 0. -/
def pathA : UserMem := fun a => some (if a = 0 then 97 else 0)

/-- Process `p` starts a call and takes `n` steps. -/
def takes (p : Nat) (c : Call) (n : Nat) : List (PoolEvent (Fin NPROC) Call) :=
  .start (Fin.ofNat NPROC p) c :: List.replicate n (.step (Fin.ofNat NPROC p))

/-- Process `p` forks a child, which goes to the directory `a` and does the same; the last
    of them is left where it is about to ask for its inode. -/
def crowd : Nat → Nat → List (PoolEvent (Fin NPROC) Call)
  | 0, p => takes p (.fork true) 23 ++ takes (p + 1) (.chdir pathA 0) 10
  | n + 1, p => takes p (.fork true) 23 ++
    -- The first of them reads the inode of the root.
    takes (p + 1) (.chdir pathA 0) (if p = 0 then 30 else 27) ++ crowd n (p + 1)

/-- Fifty children, each in a directory of its own and none with an open file. -/
def crowdRun : List (PoolEvent (Fin NPROC) Call) := crowd 49 0

/-- Whether a process is about to ask for an inode. -/
def SysPool.asks (x : SysPool) (p : Fin NPROC) (dev inum : Nat) : Bool :=
  match x.thread p with
  | some (.act (.iget d i) _) => d = dev ∧ i = inum
  | _ => false

theorem SysPool.exists_of_asks {x : SysPool} {p : Fin NPROC} {dev inum : Nat}
    (h : x.asks p dev inum = true) : ∃ k, x.thread p = some (.act (.iget dev inum) k) := by
  unfold SysPool.asks at h
  split at h
  next d i k hx =>
    rw [decide_eq_true_eq] at h
    rw [hx, h.1, h.2]
    exact ⟨k, rfl⟩
  next => cases h

/-- The last child asks for the inode of its directory when all entries are taken. -/
theorem crowdRun_crowded : ∃ y k,
    runs (sysPool mkfsSb) crowdRun (bootPool mkfsSb chainDisk) = .done y ∧
    y.thread 50 = some (.act (.iget ROOTDEV 51) k) ∧ Crowded y.state ROOTDEV 51 := by
  rcases Outcome.exists_of_decide
    (fun y : SysPool => y.asks 50 ROOTDEV 51 = true ∧ Crowded y.state ROOTDEV 51)
    (runs (sysPool mkfsSb) crowdRun (bootPool mkfsSb chainDisk)) (by decide +kernel)
    with ⟨y, hy, hasks, hc⟩
  rcases SysPool.exists_of_asks hasks with ⟨k, hk⟩
  exact ⟨y, k, hy, hk, hc⟩

theorem iget_panics_iff_crowded_crowdRun : ∃ y k W,
    runs (sysPool mkfsSb) crowdRun (bootPool mkfsSb chainDisk) = .done y ∧
    y.thread 50 = some (.act (.iget ROOTDEV 51) k) ∧ Counted y.state W ∧
    (heldInodes y.state W).ncard = NINODE ∧ (ROOTDEV, 51) ∉ heldInodes y.state W ∧
    sysPool mkfsSb y (.step 50) = .panic .igetNoInodes := by
  rcases crowdRun_crowded with ⟨y, k, hy, hk, hc⟩
  rcases (iget_panics_iff_crowded mkfsSb chainDisk crowdRun y hy 50 ROOTDEV 51 k hk).1 with
    ⟨W, hW, _, hiff⟩
  have hpanic := (sysPool_iget_panics_iff mkfsSb hW hk).mpr hc
  rcases hiff.mp hpanic with ⟨hcard, hnot⟩
  exact ⟨y, k, W, hy, hk, hW, hcard, hnot, hpanic⟩

/-- Fifty children, each in a directory of its own and none with an open file,
    and the kernel panics. -/
theorem crowd_panics : ∃ es,
    runs (sysPool mkfsSb) es (bootPool mkfsSb chainDisk) = .panic .igetNoInodes := by
  rcases crowdRun_crowded with ⟨y, k, hy, hp, hc⟩
  rcases (sysPool_counted (fun _ => rfl) (bootKernel_counted mkfsSb chainDisk) hy).1 with ⟨W, hW, _⟩
  refine ⟨crowdRun ++ [.step 50], ?_⟩
  rw [runs_append, hy]
  change (sysPool mkfsSb y (.step 50) >>= _) = _
  rw [(sysPool_iget_panics_iff mkfsSb hW hp).mpr hc]
  rfl

/-- The first process begins to change to the directory that it is in, `/`. -/
def rootRun : List (PoolEvent (Fin NPROC) Call) :=
  [.start initproc (.chdir (fun a => some (if a = 0 then 47 else 0)) 0), .step initproc]

/-- In every state of every run, the sleep-lock of an inode is held by a process that is
    in a system call, and there is a reference to the inode. So no lock is left behind,
    and no entry of the table is taken for another inode while it is locked. -/
theorem inode_locks_held (sb : Superblock) (blk : Nat → Block)
    (es : List (PoolEvent (Fin NPROC) Call)) (y : SysPool)
    (hy : runs (sysPool sb) es (bootPool sb blk) = .done y) (k : Fin NINODE) (p : Fin NPROC)
    (hl : (y.state.itable k).lock = some p) :
    y.thread p ≠ none ∧ 0 < (y.state.itable k).ref := by
  rcases (sysPool_counted (fun _ => rfl) (bootKernel_counted sb blk) hy).1 with ⟨W, hW, hviews⟩
  have hlock := (hW.lock k p).mp hl
  refine ⟨fun hnone => ?_, ?_⟩
  · have hidle := hviews p
    rw [hnone] at hidle
    rw [hidle] at hlock
    cases hlock
  · rw [hW.inodes k]
    -- The holder has a reference of its own, or a file that it has open does.
    rcases hW.good p k hlock with hino | ⟨f, hfil, hseen⟩
    · have hle := Finset.single_le_sum (f := fun p => (W p).ino k) (fun _ _ => Nat.zero_le _)
        (Finset.mem_univ p)
      omega
    · have hone : (y.state.ftable f).inodes k = 1 := if_pos (hW.seen p f k hseen hfil)
      have hle := Finset.single_le_sum (f := fun f => (y.state.ftable f).inodes k)
        (fun _ _ => Nat.zero_le _) (Finset.mem_univ f)
      omega

theorem inode_locks_held_root : ∃ y k, runs (sysPool mkfsSb)
      (rootRun ++ [.step initproc, .step initproc]) (bootPool mkfsSb (fun _ _ => 0)) = .done y ∧
    (y.state.itable k).lock = some initproc ∧ y.thread initproc ≠ none ∧
    0 < (y.state.itable k).ref := by
  refine ⟨_, ⟨0, ninode_pos⟩, rfl, rfl, ?_⟩
  exact inode_locks_held mkfsSb (fun _ _ => 0) (rootRun ++ [.step initproc, .step initproc]) _
    rfl _ _ rfl

end Xv6
