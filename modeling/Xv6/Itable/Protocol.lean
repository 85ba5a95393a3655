import Mathlib.Data.List.Count
import Xv6.Itable.Model

/-!
# The Inode Table Protocol

What the rules of the inode table lead to, whatever the processes do and in whatever
order.

An entry with references is the only one for its inode. While nobody has locked it,
its copy of the inode is the one on the disk. A process that is in `iput` with the
only reference finds the inode unlocked, since a lock comes with a reference. And
although `iput` lets go of the table before it has freed the inode, whoever is handed
the inode next never sees what was in it before.

The step that matters is that of `iput` after the inode is free on the disk and before
the copy is invalid: copy and disk need not agree then, and a process that gets a
reference has to wait for the lock.

## Main definitions

* `Fits`: What holds of an entry, at each step of its holder.
* `Inv`: The invariant.
-/

namespace Xv6.Itable

open Function

variable {P : Type} {sb : Superblock}

/-- The lock is held at this step. -/
def Stage.holds : Stage → Bool
  | .locking => false
  | .dropping => false
  | _ => true

/-- The step on inode `k` that a process is at. -/
def Pc.on (k : Fin NINODE) : Pc → Option Stage
  | .inside s l => if l = k then some s else none
  | _ => none

/-- The copy stems from the inode that is on the disk, and differs from it only if it
    has been changed. -/
def Current (d : Dinode) (changed : Bool) (copied born : Nat) (disk : Dinode) : Prop :=
  copied = born ∧ disk.type ≠ 0 ∧ d.type ≠ 0 ∧ (changed = false → d = disk)

/-- What holds of an entry with references, while its holder is at a step. -/
def Fits (i : Entry P) (c : Bool) (g b : Nat) (disk : Dinode) : Option Stage → Prop
  | none => (i.valid = true → Current i.d c g b disk) ∧ (i.lock ≠ none → i.valid = true) ∧
      (i.lock = none → c = false)
  | some .locking => (i.valid = true → Current i.d c g b disk) ∧
      (i.lock ≠ none → i.valid = true) ∧ (i.lock = none → c = false)
  | some .loading => c = false ∧ (i.valid = true → Current i.d c g b disk)
  | some .loaded => c = false ∧ (i.d.type ≠ 0 → Current i.d c g b disk)
  | some .truncating => Current i.d c g b disk
  | some .truncated => Current i.d c g b disk
  | some .clearing => Current i.d c g b disk
  | some .updating => g = b ∧ disk.type ≠ 0
  | some .invalidating => c = false
  | some .unlocking => c = false ∧ i.valid = false
  | some .dropping => False

namespace System

variable (x : System P) (p : P) (k : Fin NINODE)

/-- The step that the holder of an entry is at. -/
def stage : Option Stage :=
  match (x.table k).lock with
  | none => none
  | some p => (x.pc p).on k

theorem stage_none (h : (x.table k).lock = none) : x.stage k = none := by rw [stage, h]

theorem stage_some (h : (x.table k).lock = some p) : x.stage k = (x.pc p).on k := by
  rw [stage, h]

end System

/-- What holds of entry `k`. -/
def EntryOk (sb : Superblock) (x : System P) (k : Fin NINODE) : Prop :=
  Fits (x.table k) (x.changed k) (x.copied k) (x.born (x.table k).dev (x.table k).inum)
    (x.dinode sb (x.table k).dev (x.table k).inum) (x.stage k)

structure Inv (sb : Superblock) (x : System P) : Prop where
  refs : ∀ k, (x.table k).ref = (x.owners k).length
  uniq : ∀ k l, x.owners k ≠ [] → x.owners l ≠ [] → (x.table k).dev = (x.table l).dev →
    (x.table k).inum = (x.table l).inum → k = l
  locker : ∀ p k, (x.table k).lock = some p → p ∈ x.owners k
  caller : ∀ p s k, x.pc p = .inside s k → p ∈ x.owners k
  held : ∀ p s k, x.pc p = .inside s k → s.holds = true → (x.table k).lock = some p
  fits : ∀ k, x.owners k ≠ [] → EntryOk sb x k
  clean : ∀ k, x.owners k = [] → x.changed k = false
  tag : x.tag = x.born

/-- Two states differ in process `p` and entry `k` only. -/
structure Only (sb : Superblock) (x y : System P) (p : P) (k : Fin NINODE) : Prop where
  pc : ∀ q, q ≠ p → y.pc q = x.pc q
  before : ∀ s l, x.pc p = .inside s l → l = k
  after : ∀ s l, y.pc p = .inside s l → l = k
  table : ∀ l, l ≠ k → y.table l = x.table l
  owners : ∀ l, l ≠ k → y.owners l = x.owners l
  changed : ∀ l, l ≠ k → y.changed l = x.changed l
  copied : ∀ l, l ≠ k → y.copied l = x.copied l
  disk : ∀ l, l ≠ k → x.owners l ≠ [] →
    y.dinode sb (x.table l).dev (x.table l).inum = x.dinode sb (x.table l).dev (x.table l).inum
  born : y.born = x.born
  tag : y.tag = x.tag

namespace Only

variable {x y : System P} {p : P} {k : Fin NINODE}

theorem on_eq (h : Only sb x y p k) {l : Fin NINODE} (hl : l ≠ k) (q : P) :
    (y.pc q).on l = (x.pc q).on l := by
  by_cases hq : q = p
  · -- The process is in no call on entry `l`, before and after.
    have hnone : ∀ c : Pc, (∀ s m, c = .inside s m → m = k) → c.on l = none := by
      intro c hc
      cases c with
      | idle => rfl
      | inside s m => exact if_neg (fun hm : m = l => hl (hm.symm.trans (hc s m rfl)))
      | allocating dev type inum | getting dev inum => rfl
    rw [hq, hnone _ h.before, hnone _ h.after]
  · rw [h.pc q hq]

theorem stage_eq (h : Only sb x y p k) {l : Fin NINODE} (hl : l ≠ k) : y.stage l = x.stage l := by
  unfold System.stage
  rw [h.table l hl]
  cases (x.table l).lock with
  | none => rfl
  | some q => exact h.on_eq hl q

end Only

section Rules

variable {x y : System P} {p : P} {k : Fin NINODE}

theorem Inv.only (h : Inv sb x) (ho : Only sb x y p k)
    (refs : (y.table k).ref = (y.owners k).length)
    (uniq : ∀ l, l ≠ k → y.owners k ≠ [] → x.owners l ≠ [] →
      (y.table k).dev = (x.table l).dev → (y.table k).inum ≠ (x.table l).inum)
    (locker : ∀ q, (y.table k).lock = some q → q ∈ y.owners k)
    (caller : ∀ q s, y.pc q = .inside s k → q ∈ y.owners k)
    (held : ∀ q s, y.pc q = .inside s k → s.holds = true → (y.table k).lock = some q)
    (fits : y.owners k ≠ [] → EntryOk sb y k) (clean : y.owners k = [] → y.changed k = false) :
    Inv sb y := by
  -- A process in a call on another entry is not `p`.
  have hother : ∀ q s l, l ≠ k → y.pc q = .inside s l → x.pc q = .inside s l := by
    intro q s l hl hq
    rw [← ho.pc q (fun hqp => hl (ho.after s l (hqp ▸ hq)))]
    exact hq
  refine ⟨fun l => ?_, fun l m hl hm hdev hinum => ?_, fun q l hq => ?_, fun q s l hq => ?_,
    fun q s l hq hs => ?_, fun l hl => ?_, fun l hl => ?_, by rw [ho.tag, ho.born, h.tag]⟩
  · by_cases hlk : l = k
    · rw [hlk, refs]
    · rw [ho.table l hlk, ho.owners l hlk, h.refs]
  · by_cases hlk : l = k
    · by_cases hmk : m = k
      · rw [hlk, hmk]
      · rw [hlk] at hl hdev hinum
        rw [ho.owners m hmk] at hm
        rw [ho.table m hmk] at hdev hinum
        exact absurd hinum (uniq m hmk hl hm hdev)
    · rw [ho.owners l hlk] at hl
      rw [ho.table l hlk] at hdev hinum
      by_cases hmk : m = k
      · rw [hmk] at hm hdev hinum
        exact absurd hinum.symm (uniq l hlk hm hl hdev.symm)
      · rw [ho.owners m hmk] at hm
        rw [ho.table m hmk] at hdev hinum
        exact h.uniq l m hl hm hdev hinum
  · by_cases hlk : l = k
    · rw [hlk] at hq ⊢
      exact locker q hq
    · rw [ho.table l hlk] at hq
      rw [ho.owners l hlk]
      exact h.locker q l hq
  · by_cases hlk : l = k
    · rw [hlk] at hq ⊢
      exact caller q s hq
    · rw [ho.owners l hlk]
      exact h.caller q s l (hother q s l hlk hq)
  · by_cases hlk : l = k
    · rw [hlk] at hq ⊢
      exact held q s hq hs
    · rw [ho.table l hlk]
      exact h.held q s l (hother q s l hlk hq) hs
  · by_cases hlk : l = k
    · rw [hlk] at hl ⊢
      exact fits hl
    · rw [ho.owners l hlk] at hl
      have hfit := h.fits l hl
      unfold EntryOk at hfit ⊢
      rw [ho.table l hlk, ho.changed l hlk, ho.copied l hlk, ho.born, ho.disk l hlk hl,
        ho.stage_eq hlk]
      exact hfit
  · by_cases hlk : l = k
    · rw [hlk] at hl ⊢
      exact clean hl
    · rw [ho.owners l hlk] at hl
      rw [ho.changed l hlk]
      exact h.clean l hl

/-- A step of the process that has locked the inode and keeps it locked: what it can
    rely on has to hold at its next step. -/
theorem Inv.holder (h : Inv sb x) (hlock : (x.table k).lock = some p) (ho : Only sb x y p k)
    (owners : y.owners k = x.owners k) (ref : (y.table k).ref = (x.table k).ref)
    (dev : (y.table k).dev = (x.table k).dev) (inum : (y.table k).inum = (x.table k).inum)
    (lock : (y.table k).lock = (x.table k).lock)
    (fits : Fits (y.table k) (y.changed k) (y.copied k)
      (x.born (x.table k).dev (x.table k).inum) (y.dinode sb (x.table k).dev (x.table k).inum)
      ((y.pc p).on k)) : Inv sb y := by
  have hmem := h.locker p k hlock
  have hne : x.owners k ≠ [] := List.ne_nil_of_mem hmem
  rw [hlock] at lock
  refine h.only ho ?_ (fun l hl _ hlo hd hi => ?_) (fun q hq => ?_) (fun q s hq => ?_)
    (fun q s hq hs => ?_) (fun _ => ?_) (fun hc => ?_)
  · rw [ref, owners, h.refs]
  · rw [dev] at hd
    rw [inum] at hi
    exact hl (h.uniq k l hne hlo hd hi).symm
  · rw [lock, Option.some.injEq] at hq
    rw [owners, ← hq]
    exact hmem
  · rw [owners]
    by_cases hqp : q = p
    · rw [hqp]
      exact hmem
    · rw [ho.pc q hqp] at hq
      exact h.caller q s k hq
  · by_cases hqp : q = p
    · rw [hqp, lock]
    · rw [ho.pc q hqp] at hq
      rw [lock, ← hlock]
      exact h.held q s k hq hs
  · unfold EntryOk
    rw [dev, inum, ho.born, System.stage_some y p k lock]
    exact fits
  · rw [owners] at hc
    exact absurd hc hne

end Rules

section Disk

theorem iblock_inj {i j : Nat} (h : sb.iblock i = sb.iblock j) (hmod : i % IPB = j % IPB) :
    i = j := by
  change i / 16 + sb.inodestart = j / 16 + sb.inodestart at h
  change i % 16 = j % 16 at hmod
  omega

theorem dinode_write (sb : Superblock) (x : System P) (dev inum : Nat) (d : Dinode)
    (g dev' inum' : Nat) :
    (x.write sb dev inum d g).dinode sb dev' inum' =
      if dev' = dev ∧ inum' = inum then d else x.dinode sb dev' inum' := by
  have hlt : inum % IPB < IPB := Nat.mod_lt _ (by decide)
  unfold System.dinode System.write
  by_cases hdev : dev' = dev
  · rw [hdev]
    simp only [update_self, true_and]
    by_cases hblk : sb.iblock inum' = sb.iblock inum
    · rw [hblk, update_self]
      by_cases hmod : inum' % IPB = inum % IPB
      · rw [if_pos (iblock_inj hblk hmod), hmod, dinodeAt_putDinode_self _ _ hlt]
      · rw [if_neg (fun hc => hmod (by rw [hc])), dinodeAt_putDinode_of_ne _ _ hmod]
    · rw [if_neg (fun hc => hblk (by rw [hc])), update_of_ne hblk]
  · simp only [update_of_ne hdev, hdev, false_and, if_false]

end Disk

section Steps

variable {x : System P} {p : P} {k : Fin NINODE}

theorem Inv.inside (h : Inv sb x) {s : Stage} (hpc : x.pc p = .inside s k)
    (hs : s.holds = true) : (x.table k).lock = some p ∧ Fits (x.table k) (x.changed k)
      (x.copied k) (x.born (x.table k).dev (x.table k).inum)
      (x.dinode sb (x.table k).dev (x.table k).inum) (some s) := by
  have hlock := h.held p s k hpc hs
  have hfit := h.fits k (List.ne_nil_of_mem (h.locker p k hlock))
  unfold EntryOk at hfit
  rw [System.stage_some x p k hlock, hpc, Pc.on, if_pos rfl] at hfit
  exact ⟨hlock, hfit⟩

/-- What a process outside of all calls can rely on for an inode it has locked. -/
theorem Inv.user (h : Inv sb x) (hpc : x.pc p = .idle) (hlock : (x.table k).lock = some p) :
    (x.table k).valid = true ∧ Current (x.table k).d (x.changed k) (x.copied k)
      (x.born (x.table k).dev (x.table k).inum)
      (x.dinode sb (x.table k).dev (x.table k).inum) := by
  have hfit := h.fits k (List.ne_nil_of_mem (h.locker p k hlock))
  unfold EntryOk at hfit
  rw [System.stage_some x p k hlock, hpc] at hfit
  have hvalid := hfit.2.1 (by rw [hlock]; exact Option.some_ne_none p)
  exact ⟨hvalid, hfit.1 hvalid⟩

theorem Inv.free (h : Inv sb x) (hne : x.owners k ≠ []) (hlock : (x.table k).lock = none) :
    x.changed k = false ∧ ((x.table k).valid = true → Current (x.table k).d (x.changed k)
      (x.copied k) (x.born (x.table k).dev (x.table k).inum)
      (x.dinode sb (x.table k).dev (x.table k).inum)) := by
  have hfit := h.fits k hne
  unfold EntryOk at hfit
  rw [System.stage_none x k hlock] at hfit
  exact ⟨hfit.2.2 hlock, hfit.1⟩

theorem Fits.alloc {e : Entry P} {c : Bool} {g b b' : Nat} {disk disk' : Dinode}
    {s : Option Stage} (h : Fits e c g b disk s) (hfree : disk.type = 0) :
    Fits e c g b' disk' s := by
  have hno : ∀ {d : Dinode}, ¬Current d c g b disk := fun hc => hc.2.1 hfree
  have hnone : ∀ {d : Dinode} {q : Prop}, (q → Current d c g b disk) →
      q → Current d c g b' disk' := fun hq hd => absurd (hq hd) hno
  cases s with
  | none => exact ⟨hnone h.1, h.2⟩
  | some s =>
    cases s with
    | locking => exact ⟨hnone h.1, h.2⟩
    | loading | loaded => exact ⟨h.1, hnone h.2⟩
    | truncating | truncated | clearing => exact absurd h hno
    | updating => exact absurd hfree h.2
    | invalidating | unlocking | dropping => exact h

theorem Inv.allocate (h : Inv sb x) (dev inum : Nat) (type : BitVec 16)
    (hfree : (x.dinode sb dev inum).type = 0) : Inv sb (x.allocate sb dev inum type) := by
  refine ⟨h.refs, h.uniq, h.locker, h.caller, h.held, fun k hk => ?_, h.clean, ?_⟩
  · have hfit := h.fits k hk
    unfold EntryOk at hfit ⊢
    have hdisk := dinode_write sb x dev inum { Dinode.zero with type := type }
      (x.born dev inum + 1) (x.table k).dev (x.table k).inum
    by_cases heq : (x.table k).dev = dev ∧ (x.table k).inum = inum
    · rw [heq.1, heq.2] at hfit
      exact hfit.alloc hfree
    · rw [if_neg heq] at hdisk
      have hborn : (x.allocate sb dev inum type).born (x.table k).dev (x.table k).inum =
          x.born (x.table k).dev (x.table k).inum := by
        by_cases hd : (x.table k).dev = dev
        · simp only [System.allocate, hd, update_self,
            update_of_ne (fun hi => heq ⟨hd, hi⟩)]
        · simp only [System.allocate, update_of_ne hd]
      change Fits (x.table k) (x.changed k) (x.copied k)
        ((x.allocate sb dev inum type).born (x.table k).dev (x.table k).inum)
        ((x.write sb dev inum { Dinode.zero with type := type } (x.born dev inum + 1)).dinode sb
          (x.table k).dev (x.table k).inum) (x.stage k)
      rw [hborn, hdisk]
      exact hfit
  · change update x.tag dev _ = update x.born dev _
    rw [h.tag]

/-- At the start there are no references. -/
theorem boot_inv (sb : Superblock) (blk : Nat → Nat → Block) : Inv sb (boot P blk) :=
  ⟨fun _ => rfl, fun _ _ hk => absurd rfl hk, nofun,
    nofun, nofun, fun _ hk => absurd rfl hk,
    fun _ _ => rfl, rfl⟩

variable [DecidableEq P]

theorem Inv.local (h : Inv sb x) (hlock : (x.table k).lock = some p)
    (hpc : ∀ s l, x.pc p = .inside s l → l = k) (e : Entry P) (c : Bool) (pc : Pc)
    (href : e.ref = (x.table k).ref) (hdev : e.dev = (x.table k).dev)
    (hinum : e.inum = (x.table k).inum) (he : e.lock = (x.table k).lock)
    (hoff : ∀ s l, pc = .inside s l → l = k)
    (hfit : Fits e c (x.copied k) (x.born (x.table k).dev (x.table k).inum)
      (x.dinode sb (x.table k).dev (x.table k).inum) (pc.on k)) :
    Inv sb { x with
      table := update x.table k e
      changed := update x.changed k c
      pc := update x.pc p pc } := by
  refine h.holder hlock ⟨fun q hq => update_of_ne hq _ _, hpc, ?_,
    fun l hl => update_of_ne hl _ _, fun _ _ => rfl,
    fun l hl => update_of_ne hl _ _, fun _ _ => rfl, fun _ _ _ => rfl, rfl, rfl⟩ rfl
    ?_ ?_ ?_ ?_ ?_
  · simp only [update_self]
    exact hoff
  · simp only [update_self, href]
  · simp only [update_self, hdev]
  · simp only [update_self, hinum]
  · simp only [update_self, he]
  · simp only [update_self]
    exact hfit

/-- An entry, its references and a process, with everything else as it was. -/
def System.put (x : System P) (p : P) (k : Fin NINODE) (e : Entry P) (o : List P) (pc : Pc) :
    System P :=
  { x with
    table := update x.table k e
    owners := update x.owners k o
    pc := update x.pc p pc }

/-- The step that the holder of the new entry is at. -/
def System.stageOf (x : System P) (p : P) (k : Fin NINODE) (e : Entry P) (pc : Pc) :
    Option Stage :=
  match e.lock with
  | none => none
  | some q => if q = p then pc.on k else (x.pc q).on k

theorem Inv.put (h : Inv sb x) {e : Entry P} {o : List P} {pc : Pc}
    (hpc : ∀ s l, x.pc p = .inside s l → l = k) (hoff : ∀ s l, pc = .inside s l → l = k)
    (refs : e.ref = o.length)
    (uniq : ∀ l, l ≠ k → o ≠ [] → x.owners l ≠ [] → e.dev = (x.table l).dev →
      e.inum ≠ (x.table l).inum)
    (locker : ∀ q, e.lock = some q → q ∈ o)
    (self : ∀ s, pc = .inside s k → p ∈ o ∧ (s.holds = true → e.lock = some p))
    (others : ∀ q s, q ≠ p → x.pc q = .inside s k → q ∈ o ∧ (s.holds = true → e.lock = some q))
    (fits : o ≠ [] → Fits e (x.changed k) (x.copied k) (x.born e.dev e.inum)
      (x.dinode sb e.dev e.inum) (x.stageOf p k e pc))
    (clean : o = [] → x.changed k = false) : Inv sb (x.put p k e o pc) := by
  have hcall : ∀ q s, (x.put p k e o pc).pc q = .inside s k →
      q ∈ o ∧ (s.holds = true → e.lock = some q) := by
    intro q s hq
    by_cases hqp : q = p
    · rw [hqp] at hq ⊢
      simp only [System.put, update_self] at hq
      exact self s hq
    · simp only [System.put, update_of_ne hqp] at hq
      exact others q s hqp hq
  have ho : Only sb x (x.put p k e o pc) p k := by
    refine ⟨fun q hq => update_of_ne hq _ _, hpc, ?_,
      fun l hl => update_of_ne hl _ _, fun l hl => update_of_ne hl _ _,
      fun _ _ => rfl, fun _ _ => rfl, fun _ _ _ => rfl, rfl, rfl⟩
    simp only [System.put, update_self]
    exact hoff
  have htab : (x.put p k e o pc).table k = e := update_self _ _ _
  have hown : (x.put p k e o pc).owners k = o := update_self _ _ _
  refine h.only ho (by rw [htab, hown, refs]) (by rw [htab, hown]; exact uniq)
    (by rw [htab, hown]; exact locker) (fun q s hq => ?_) (fun q s hq hs => ?_) (fun hne => ?_)
    (by rw [hown]; exact clean)
  · rw [hown]
    exact (hcall q s hq).1
  · rw [htab]
    exact (hcall q s hq).2 hs
  · have hstage : (x.put p k e o pc).stage k = x.stageOf p k e pc := by
      unfold System.stage System.stageOf
      rw [htab]
      cases e.lock with
      | none => rfl
      | some q =>
        by_cases hqp : q = p
        · simp only [hqp, if_true, System.put, update_self]
        · simp only [if_neg hqp, System.put, update_of_ne hqp]
    rw [hown] at hne
    unfold EntryOk
    rw [hstage, htab]
    exact fits hne

theorem Inv.addRef (h : Inv sb x) (pc : Pc) (hpc : ∀ s l, x.pc p ≠ .inside s l)
    (hoff : ∀ s l, pc ≠ .inside s l) (hne : x.owners k ≠ []) :
    Inv sb (x.put p k { x.table k with ref := (x.table k).ref + 1 } (p :: x.owners k) pc) := by
  have hon : ∀ c : Pc, (∀ s l, c ≠ .inside s l) → c.on k = none := by
    intro c hc
    cases c with
    | idle => rfl
    | inside s l => exact absurd rfl (hc s l)
    | allocating dev type inum | getting dev inum => rfl
  refine h.put (fun s l hl => absurd hl (hpc s l)) (fun s l hl => absurd hl (hoff s l)) ?_
    (fun l hl _ hlo hd hi => hl (h.uniq k l hne hlo hd hi).symm)
    (fun q hq => List.mem_cons_of_mem p (h.locker q k hq)) (fun s hs => absurd hs (hoff s k))
    (fun q s _ hq => ⟨List.mem_cons_of_mem p (h.caller q s k hq), h.held q s k hq⟩) (fun _ => ?_)
    (fun hc => absurd hc (List.cons_ne_nil _ _))
  · rw [List.length_cons, h.refs k]
    rfl
  · have hfit := h.fits k hne
    have hstage : x.stageOf p k { x.table k with ref := (x.table k).ref + 1 } pc = x.stage k := by
      unfold System.stageOf System.stage
      cases hl : (x.table k).lock with
      | none => rfl
      | some q =>
        by_cases hqp : q = p
        · simp only [hqp, if_true]
          rw [hon pc hoff, hon _ hpc]
        · simp only [hqp, if_false]
    rw [hstage]
    exact hfit

theorem Inv.newRef (h : Inv sb x) (pc : Pc) {dev inum : Nat} (hpc : ∀ s l, x.pc p ≠ .inside s l)
    (hoff : ∀ s l, pc ≠ .inside s l) (hnil : x.owners k = [])
    (hnew : ∀ l, x.owners l ≠ [] → (x.table l).dev = dev → (x.table l).inum ≠ inum) :
    Inv sb (x.put p k
      { x.table k with dev := dev, inum := inum, ref := 1, valid := false }
      (p :: x.owners k) pc) := by
  have hlock : (x.table k).lock = none := by
    cases hl : (x.table k).lock with
    | none => rfl
    | some q =>
      have hq := h.locker q k hl
      rw [hnil] at hq
      exact nomatch hq
  refine h.put (fun s l hl => absurd hl (hpc s l)) (fun s l hl => absurd hl (hoff s l)) ?_
    (fun l _ _ hlo hd hi => hnew l hlo hd.symm hi.symm)
    (fun q hq => absurd (hlock.symm.trans hq) (Option.some_ne_none q).symm)
    (fun s hs => absurd hs (hoff s k)) (fun q s _ hq => ?_) (fun _ => ?_)
    (fun hc => absurd hc (List.cons_ne_nil _ _))
  · rw [hnil]
    rfl
  · have hq' := h.caller q s k hq
    rw [hnil] at hq'
    exact nomatch hq'
  · have hstage : x.stageOf p k
        { x.table k with dev := dev, inum := inum, ref := 1, valid := false } pc = none := by
      unfold System.stageOf
      rw [hlock]
    rw [hstage]
    exact ⟨fun hv => absurd hv Bool.false_ne_true, fun hl => absurd hlock hl,
      fun _ => h.clean k hnil⟩

theorem Inv.dropRef (h : Inv sb x) (hpc : ∀ s l, x.pc p = .inside s l → s = .dropping ∧ l = k)
    (hmem : p ∈ x.owners k) (hspare : (x.table k).lock = some p → 2 ≤ (x.owners k).count p)
    (o : List P) (ref : Int) (href : ref = o.length)
    (hsub : ∀ q, q ∈ (x.owners k).erase p → q ∈ o) :
    Inv sb (x.put p k { x.table k with ref := ref } o .idle) := by
  have hother : ∀ q, q ≠ p → q ∈ x.owners k → q ∈ o :=
    fun q hq hqo => hsub q ((List.mem_erase_of_ne hq).mpr hqo)
  have hlocker : ∀ q, (x.table k).lock = some q → q ∈ o := by
    intro q hq
    by_cases hqp : q = p
    · -- The process keeps another reference for its lock.
      rw [hqp] at hq ⊢
      have hcount := hspare hq
      refine hsub p (List.count_pos_iff.mp ?_)
      rw [List.count_erase_self]
      omega
    · exact hother q hqp (h.locker q k hq)
  have hne : x.owners k ≠ [] := List.ne_nil_of_mem hmem
  have hfit := h.fits k hne
  -- The holder of the entry is at the same step as before.
  have hstage : x.stageOf p k { x.table k with ref := ref } .idle = x.stage k := by
    unfold System.stageOf
    cases hl : (x.table k).lock with
    | none => rw [System.stage_none x k hl]
    | some q =>
      rw [System.stage_some x q k hl]
      by_cases hqp : q = p
      · simp only [hqp, if_true]
        cases hx : x.pc p with
        | idle => rfl
        | inside s l =>
          rcases hpc s l hx with ⟨rfl, rfl⟩
          unfold EntryOk at hfit
          rw [System.stage_some x q l hl, hqp, hx, Pc.on, if_pos rfl] at hfit
          exact hfit.elim
        | allocating dev type inum | getting dev inum => rfl
      · simp only [hqp, if_false]
  refine h.put (fun s l hl => (hpc s l hl).2) (nofun) href
    (fun l hl _ hlo hd hi => hl (h.uniq k l hne hlo hd hi).symm) hlocker (nofun)
    (fun q s hq hqs => ⟨hother q hq (h.caller q s k hqs), h.held q s k hqs⟩) (fun _ => ?_)
    (fun hc => ?_)
  · rw [hstage]
    exact hfit
  · -- Nobody is left who could have locked the entry.
    cases hl : (x.table k).lock with
    | none => exact (h.free hne hl).1
    | some q =>
      have hq := hlocker q hl
      rw [hc] at hq
      exact nomatch hq

theorem Inv.lock (h : Inv sb x) {s : Stage} (hpc : ∀ s' l, x.pc p = .inside s' l → l = k)
    (hmem : p ∈ x.owners k) (hlock : (x.table k).lock = none)
    (hfit : Fits { x.table k with lock := some p } (x.changed k) (x.copied k)
      (x.born (x.table k).dev (x.table k).inum) (x.dinode sb (x.table k).dev (x.table k).inum)
      (some s)) :
    Inv sb (x.put p k { x.table k with lock := some p } (x.owners k) (.inside s k)) := by
  have hne : x.owners k ≠ [] := List.ne_nil_of_mem hmem
  refine h.put hpc (fun s' l hl => ?_) (h.refs k)
    (fun l hl _ hlo hd hi => hl (h.uniq k l hne hlo hd hi).symm) (fun q hq => ?_)
    (fun _ _ => ⟨hmem, fun _ => rfl⟩)
    (fun q s' _ hq => ⟨h.caller q s' k hq, fun hs => ?_⟩) (fun _ => ?_) (fun hc => absurd hc hne)
  · cases hl
    rfl
  · rw [← Option.some.inj hq]
    exact hmem
  · rw [h.held q s' k hq hs] at hlock
    exact nomatch hlock
  · have hstage : x.stageOf p k { x.table k with lock := some p } (.inside s k) = some s := by
      simp only [System.stageOf, if_true, Pc.on]
    rw [hstage]
    exact hfit

theorem Inv.unlock (h : Inv sb x) (pc : Pc) (hlock : (x.table k).lock = some p)
    (hpc : ∀ s l, x.pc p = .inside s l → l = k) (hoff : ∀ s l, pc = .inside s l → l = k)
    (hpc' : ∀ s, pc = .inside s k → s.holds = false) (hclean : x.changed k = false)
    (hfit : (x.table k).valid = true → Current (x.table k).d (x.changed k) (x.copied k)
      (x.born (x.table k).dev (x.table k).inum)
      (x.dinode sb (x.table k).dev (x.table k).inum)) :
    Inv sb (x.put p k { x.table k with lock := none } (x.owners k) pc) := by
  have hmem := h.locker p k hlock
  have hne : x.owners k ≠ [] := List.ne_nil_of_mem hmem
  refine h.put hpc hoff (h.refs k)
    (fun l hl _ hlo hd hi => hl (h.uniq k l hne hlo hd hi).symm) (nofun)
    (fun s hs => ⟨hmem, fun hh => ?_⟩) (fun q s hq hqs => ⟨h.caller q s k hqs, fun hs => ?_⟩)
    (fun _ => ⟨hfit, fun hc => absurd rfl hc, fun _ => hclean⟩) (fun hc => absurd hc hne)
  · rw [hpc' s hs] at hh
    exact nomatch hh
  · -- The inode was locked by this process and not by the other one.
    have hq' := h.held q s k hqs hs
    rw [hlock, Option.some.injEq] at hq'
    exact absurd hq'.symm hq

theorem Inv.move (h : Inv sb x) {pc : Pc} (hpc : ∀ s l, x.pc p ≠ .inside s l)
    (hoff : ∀ s l, pc ≠ .inside s l) : Inv sb (x.setPc p pc) := by
  have hon : ∀ q s l, (x.setPc p pc).pc q = .inside s l → x.pc q = .inside s l := by
    intro q s l hq
    by_cases hqp : q = p
    · rw [hqp] at hq
      simp only [System.setPc, update_self] at hq
      exact absurd hq (hoff s l)
    · simp only [System.setPc, update_of_ne hqp] at hq
      exact hq
  have hstage : ∀ l, (x.setPc p pc).stage l = x.stage l := by
    intro l
    unfold System.stage
    change (match (x.table l).lock with
      | none => none
      | some q => ((x.setPc p pc).pc q).on l) = _
    cases (x.table l).lock with
    | none => rfl
    | some q =>
      by_cases hqp : q = p
      · have hnone : ∀ c : Pc, (∀ s m, c ≠ .inside s m) → c.on l = none := by
          intro c hc
          cases c with
          | idle => rfl
          | inside s m => exact absurd rfl (hc s m)
          | allocating dev type inum | getting dev inum => rfl
        simp only [hqp, System.setPc, update_self]
        rw [hnone pc hoff, hnone _ hpc]
      · simp only [System.setPc, update_of_ne hqp]
  refine ⟨h.refs, h.uniq, h.locker, fun q s l hq => h.caller q s l (hon q s l hq),
    fun q s l hq => h.held q s l (hon q s l hq), fun l hl => ?_, h.clean, h.tag⟩
  have hfit := h.fits l hl
  unfold EntryOk at hfit ⊢
  rw [hstage]
  exact hfit

/-- The holder of an inode writes its copy, which stems from the inode on the disk. -/
theorem Inv.iupdate (h : Inv sb x) (pc : Pc) (hlock : (x.table k).lock = some p)
    (hpc : ∀ s l, x.pc p = .inside s l → l = k) (hoff : ∀ s l, pc = .inside s l → l = k)
    (hcopied : x.copied k = x.born (x.table k).dev (x.table k).inum)
    (hfit : Fits (x.table k) false (x.copied k) (x.born (x.table k).dev (x.table k).inum)
      (x.table k).d (pc.on k)) : Inv sb ((x.iupdate sb k).setPc p pc) := by
  have hdisk := dinode_write sb x (x.table k).dev (x.table k).inum (x.table k).d
    (x.copied k)
  have hne := List.ne_nil_of_mem (h.locker p k hlock)
  refine h.holder hlock ⟨fun q hq => update_of_ne hq _ _, hpc, ?_, fun _ _ => rfl,
    fun _ _ => rfl, fun l hl => update_of_ne hl _ _, fun _ _ => rfl, ?_, rfl, ?_⟩ rfl rfl
    rfl rfl rfl ?_
  · simp only [System.setPc, update_self]
    exact hoff
  · -- The entries of other processes are for other inodes.
    intro l hl hlo
    refine (hdisk _ _).trans (if_neg (fun hc => hl ?_))
    exact h.uniq l k hlo hne hc.1 hc.2
  · change update x.tag _ _ = x.tag
    rw [hcopied, h.tag]
    simp only [update_eq_self]
  · have hself := hdisk (x.table k).dev (x.table k).inum
    rw [if_pos ⟨rfl, rfl⟩] at hself
    simp only [System.setPc, update_self]
    have hchanged : (x.iupdate sb k).changed k = false := update_self _ _ _
    change Fits (x.table k) ((x.iupdate sb k).changed k) (x.copied k) _
      ((x.write sb (x.table k).dev (x.table k).inum (x.table k).d (x.copied k)).dinode sb
        (x.table k).dev (x.table k).inum) (pc.on k)
    rw [hself, hchanged]
    exact hfit

end Steps

end Xv6.Itable
