import Xv6.Itable.Protocol

/-!
# Runs of the Inode Table

Every step of the inode table keeps the invariant, and what follows for every run.

A process that frees an inode lets go of the table for a while: the inode is free on
the disk then, but still has its entry. `takenInTheWindow` is a run in which another
process is handed the inode at that point.

The code of the file system works on the same table, in steps of its own. They agree
with those here as far as the table is concerned.

## Theorems

* `table_sound`: What holds in every run.
* `staleCopy_differs`: The copy in an entry without references may be out of date.
* `iget_agrees`, `iput_agrees`, `advance_agrees`, `iunlock_agrees`: The file system does
  the same to its table.
-/

namespace Xv6.Itable

open Function

variable {P : Type} {sb : Superblock}

section Steps

variable [DecidableEq P] {x : System P} {p : P} {k : Fin NINODE} {y : System P}

theorem put_owners (x : System P) (p : P) (k : Fin NINODE) (e : Entry P) (pc : Pc) :
    x.put p k e (x.owners k) pc = (x.modify k (fun _ => e)).setPc p pc := by
  unfold System.put System.modify System.setPc
  rw [update_eq_self]

theorem put_pc (x : System P) (p : P) (k : Fin NINODE) (e : Entry P) (o : List P) :
    x.put p k e o (x.pc p) = (x.modify k (fun _ => e)).setOwners k o := by
  unfold System.put System.modify System.setOwners
  rw [update_eq_self]

theorem advance_inv (h : Inv sb x) {s : Stage} (hpc : x.pc p = .inside s k)
    (hy : advance sb x p k s = .done y) : Inv sb y := by
  have hself : ∀ s' l, x.pc p = .inside s' l → l = k := by
    intro s' l hl
    cases hpc.symm.trans hl
    rfl
  have hoff : ∀ s₀ s' l, Pc.inside s₀ k = .inside s' l → l = k := by
    intro s₀ s' l hl
    cases hl
    rfl
  have hmem := h.caller p s k hpc
  have hon : ∀ s' : Stage, (Pc.inside s' k).on k = some s' := fun s' => if_pos rfl
  cases s with
  | locking =>
    simp only [advance] at hy
    cases hl : (x.table k).lock with
    | some q =>
      rw [hl] at hy
      cases hy
    | none =>
      rw [hl] at hy
      cases hy
      have hfree := h.free (List.ne_nil_of_mem hmem) hl
      have hput := h.lock (s := .loading) hself hmem hl hfree
      rw [put_owners] at hput
      exact hput
  | loading =>
    rcases h.inside hpc rfl with ⟨hlock, hfit⟩
    simp only [advance] at hy
    by_cases hv : (x.table k).valid = true
    · rw [if_pos hv] at hy
      cases hy
      have hloc := h.local hlock hself (x.table k) (x.changed k) .idle rfl rfl rfl rfl
        (by rintro _ _ ⟨⟩) ⟨hfit.2, fun _ => hv, fun hc => ?_⟩
      · simp only [update_eq_self] at hloc
        exact hloc
      · rw [hlock] at hc
        cases hc
    · rw [if_neg hv] at hy
      cases hy
      -- The copy is now the inode on the disk.
      refine h.holder hlock ⟨fun q hq => update_of_ne hq _ _, hself, ?_,
        fun l hl => update_of_ne hl _ _, fun _ _ => rfl, fun _ _ => rfl,
        fun l hl => update_of_ne hl _ _, fun _ _ _ => rfl, rfl, rfl⟩ rfl ?_ ?_ ?_ ?_ ?_
      · simp only [System.setPc, update_self]
        exact hoff _
      · simp only [System.setPc, System.load, System.modify, update_self]
      · simp only [System.setPc, System.load, System.modify, update_self]
      · simp only [System.setPc, System.load, System.modify, update_self]
      · simp only [System.setPc, System.load, System.modify, update_self]
      · simp only [System.setPc, System.load, System.modify, update_self, hon]
        refine ⟨hfit.1, fun ht => ⟨by rw [h.tag], ht, ht, fun _ => rfl⟩⟩
  | loaded =>
    rcases h.inside hpc rfl with ⟨hlock, hfit⟩
    simp only [advance] at hy
    rcases Outcome.of_check hy with ⟨ht, hy⟩
    cases hy
    have hloc := h.local hlock hself { x.table k with valid := true } (x.changed k) .idle rfl
      rfl rfl rfl (by rintro _ _ ⟨⟩) ⟨fun _ => hfit.2 ht, fun _ => rfl, fun _ => hfit.1⟩
    simp only [update_eq_self] at hloc
    exact hloc
  | truncating =>
    rcases h.inside hpc rfl with ⟨hlock, hcopied, hdisk, htype, -⟩
    cases hy
    exact h.local hlock hself
      { x.table k with d := { (x.table k).d with size := 0, addrs := fun _ => 0 } } true
      (.inside .truncated k) rfl rfl rfl rfl (hoff _) (by
        rw [hon]
        exact ⟨hcopied, hdisk, htype, fun hc => by cases hc⟩)
  | truncated =>
    rcases h.inside hpc rfl with ⟨hlock, hcopied, -, htype, -⟩
    cases hy
    refine h.iupdate _ hlock hself (hoff _) hcopied ?_
    rw [hon]
    exact ⟨hcopied, htype, htype, fun _ => rfl⟩
  | clearing =>
    rcases h.inside hpc rfl with ⟨hlock, hcopied, hdisk, -, -⟩
    cases hy
    exact h.local hlock hself { x.table k with d := { (x.table k).d with type := 0 } } true
      (.inside .updating k) rfl rfl rfl rfl (hoff _) (by
        rw [hon]
        exact ⟨hcopied, hdisk⟩)
  | updating =>
    rcases h.inside hpc rfl with ⟨hlock, hcopied, -⟩
    cases hy
    refine h.iupdate _ hlock hself (hoff _) hcopied ?_
    rw [hon]
    rfl
  | invalidating =>
    rcases h.inside hpc rfl with ⟨hlock, hfit⟩
    cases hy
    have hloc := h.local hlock hself { x.table k with valid := false } (x.changed k)
      (.inside .unlocking k) rfl rfl rfl rfl (hoff _) (by
        rw [hon]
        exact ⟨hfit, rfl⟩)
    simp only [update_eq_self] at hloc
    exact hloc
  | unlocking =>
    rcases h.inside hpc rfl with ⟨hlock, hclean, hvalid⟩
    cases hy
    have hput := h.unlock (.inside .dropping k) hlock hself (hoff _) (fun s hs => by
      cases hs
      rfl) hclean (fun hv => by
      rw [hvalid] at hv
      cases hv)
    rw [put_owners] at hput
    exact hput
  | dropping =>
    cases hy
    have hnot : (x.table k).lock ≠ some p := by
      intro hc
      have hfit := h.fits k (List.ne_nil_of_mem hmem)
      unfold EntryOk at hfit
      rw [System.stage_some x p k hc, hpc, hon] at hfit
      exact hfit
    refine h.dropRef (fun s l hl => ?_) hmem (fun hc => absurd hc hnot) _ _ ?_ (fun _ hq => hq)
    · rw [hpc] at hl
      cases hl
      exact ⟨rfl, rfl⟩
    · rw [h.refs k, List.length_erase_of_mem hmem]
      have hpos := List.length_pos_of_mem hmem
      omega

theorem iget_inv (h : Inv sb x) {pc : Pc} (hpc : ∀ s l, x.pc p ≠ .inside s l)
    (hoff : ∀ s l, pc ≠ .inside s l) {dev inum : Nat}
    (hy : x.iget p dev inum = .done y) : Inv sb (y.setPc p pc) := by
  have hnil : ∀ l, x.owners l = [] ↔ (x.table l).ref = 0 := by
    intro l
    rw [h.refs l]
    exact ⟨fun hc => by rw [hc]; rfl,
      fun hc => List.eq_nil_of_length_eq_zero (Int.ofNat_inj.mp hc)⟩
  unfold System.iget at hy
  cases hfind : (List.finRange NINODE).find? (fun j => 0 < (x.table j).ref ∧
      (x.table j).dev = dev ∧ (x.table j).inum = inum) with
  | some k =>
    have hk := List.find?_some hfind
    rw [decide_eq_true_eq] at hk
    rw [hfind] at hy
    cases hy
    refine h.addRef (k := k) pc hpc hoff (fun hc => ?_)
    rw [(hnil k).mp hc] at hk
    exact absurd hk.1 (Int.lt_irrefl 0)
  | none =>
    rw [hfind] at hy
    cases hfree : (List.finRange NINODE).find? (fun j => (x.table j).ref = 0) with
    | none =>
      rw [hfree] at hy
      exact nomatch hy
    | some k =>
      have hk := List.find?_some hfree
      rw [decide_eq_true_eq] at hk
      rw [hfree] at hy
      cases hy
      refine h.newRef (k := k) pc hpc hoff ((hnil k).mpr hk) (fun l hl hd hi => ?_)
      have hno := List.find?_eq_none.mp hfind l (List.mem_finRange l)
      rw [decide_eq_true_eq] at hno
      refine hno ⟨?_, hd, hi⟩
      rw [h.refs l]
      exact Int.ofNat_lt.mpr (List.length_pos_iff.mpr hl)

/-- In `iput` the lock is free whenever it is asked for. -/
theorem iput_lock_free (h : Inv sb x) (hs : x.spare p k = true) (hone : (x.table k).ref = 1) :
    (x.table k).lock = none := by
  simp only [System.spare, decide_eq_true_eq] at hs
  have hlen : (x.owners k).length = 1 := by
    have href := h.refs k
    omega
  rcases List.length_eq_one_iff.mp hlen with ⟨q, hq⟩
  cases hl : (x.table k).lock with
  | none => rfl
  | some r =>
    -- Whoever has locked the inode has the only reference, and so has `p`.
    have hr := h.locker r k hl
    have hp := hs.2.1
    rw [hq, List.mem_singleton] at hr hp
    have hcount := hs.2.2 (by rw [hl, hr, hp])
    rw [hq, hp] at hcount
    have hle := List.count_le_length (a := q) (l := [q])
    simp only [List.length_singleton] at hle
    omega

theorem iput_inv (h : Inv sb x) (hs : x.spare p k = true)
    (hy : x.iput p k = .done y) : Inv sb y := by
  have hs' := hs
  simp only [System.spare, decide_eq_true_eq] at hs'
  rcases hs' with ⟨hpc, hmem, hspare⟩
  unfold System.iput at hy
  by_cases hlast : (x.table k).ref = 1 ∧ (x.table k).valid = true ∧ (x.table k).d.nlink = 0
  · have hl := iput_lock_free h hs hlast.1
    rw [if_pos hlast, hl] at hy
    cases hy
    have hfree := h.free (List.ne_nil_of_mem hmem) hl
    have hput := h.lock (s := .truncating) (fun s l hc => by rw [hpc] at hc; exact nomatch hc) hmem
      hl (hfree.2 hlast.2.1)
    rw [put_owners] at hput
    exact hput
  · rw [if_neg hlast] at hy
    cases hy
    have hpos := List.length_pos_of_mem hmem
    have hput := h.dropRef (fun s l hc => by rw [hpc] at hc; exact nomatch hc) hmem hspare
      ((x.owners k).erase p) ((x.table k).ref - 1)
      (by rw [h.refs k, List.length_erase_of_mem hmem]; omega) (fun _ hq => hq)
    rw [← hpc, put_pc] at hput
    exact hput

omit [DecidableEq P] in
theorem iget_keeps {dev inum : Nat} {z : System P} (hz : x.iget p dev inum = .done z) :
    z.pc = x.pc ∧ z.born = x.born := by
  unfold System.iget at hz
  split at hz
  · cases hz
    exact ⟨rfl, rfl⟩
  · split at hz
    · cases hz
      exact ⟨rfl, rfl⟩
    · exact nomatch hz

theorem step_inv (x : System P) (e : Event P) (y : System P) (h : Inv sb x)
    (hy : step sb x e = .done y) : Inv sb y := by
  -- A process that is in no call is in no call on an entry.
  have hout : ∀ {p : P} {C : Stage → Fin NINODE → Prop}, x.pc p = .idle →
      ∀ s l, x.pc p = .inside s l → C s l := fun hp s l hc => by cases hp.symm.trans hc
  have hidle : ∀ s l, Pc.idle ≠ .inside s l := by rintro _ _ ⟨⟩
  cases e with
  | iget p dev inum =>
    rcases Outcome.of_guard hy with ⟨hp, hy⟩
    have hinv := iget_inv h (hout hp) hidle hy
    have hsame : y.setPc p .idle = y := by
      unfold System.setPc
      rw [← hp, ← (iget_keeps hy).1, update_eq_self]
    rw [hsame] at hinv
    exact hinv
  | idup p k =>
    rcases Outcome.of_guard hy with ⟨hp, hy⟩
    cases hy
    have hput := h.addRef (x.pc p) (hout hp.1) (hout hp.1) (List.ne_nil_of_mem hp.2)
    rw [put_pc] at hput
    exact hput
  | pass p q k =>
    rcases Outcome.of_guard hy with ⟨hs, hy⟩
    cases hy
    simp only [System.spare, decide_eq_true_eq] at hs
    have hpos := List.length_pos_of_mem hs.2.1
    have hput := h.dropRef (hout hs.1) hs.2.1 hs.2.2
      (q :: (x.owners k).erase p) (x.table k).ref (by
        rw [h.refs k, List.length_cons, List.length_erase_of_mem hs.2.1]
        omega) (fun _ hq => List.mem_cons_of_mem q hq)
    rw [← hs.1, put_pc] at hput
    simp only [System.modify, update_eq_self] at hput
    exact hput
  | ilock p k =>
    rcases Outcome.of_guard hy with ⟨hp, hy⟩
    rcases Outcome.of_check hy with ⟨href, hy⟩
    cases hy
    have hne := List.ne_nil_of_mem hp.2
    have hput : Inv sb (x.put p k (x.table k) (x.owners k) (.inside .locking k)) := by
      refine h.put (hout hp.1)
        (fun s l hc => by cases hc; rfl) (h.refs k)
        (fun l hl _ hlo hd hi => hl (h.uniq k l hne hlo hd hi).symm) (fun q => h.locker q k)
        (fun s hs => ⟨hp.2, fun hh => by cases hs; cases hh⟩)
        (fun q s _ hq => ⟨h.caller q s k hq, h.held q s k hq⟩) (fun _ => ?_) (h.clean k)
      -- Waiting for its own lock, a holder is not better off than before.
      have hfit := h.fits k hne
      unfold EntryOk System.stage at hfit
      unfold System.stageOf
      cases hl : (x.table k).lock with
      | none =>
        rw [hl] at hfit
        exact hfit
      | some q =>
        rw [hl] at hfit
        by_cases hqp : q = p
        · simp only [hqp, if_true, Pc.on]
          simp only [hqp, hp.1, Pc.on] at hfit
          exact hfit
        · simp only [hqp, if_false]
          exact hfit
    rw [put_owners] at hput
    simp only [System.modify, update_eq_self] at hput
    exact hput
  | modify p k d =>
    rcases Outcome.of_guard hy with ⟨hp, hy⟩
    cases hy
    rcases hp with ⟨hh, ht⟩
    simp only [System.holds, decide_eq_true_eq] at hh
    rcases h.user hh.1 hh.2 with ⟨hvalid, hcopied, hdisk, -, -⟩
    have hloc := h.local hh.2 (hout hh.1)
      { x.table k with d := d } true (x.pc p) rfl rfl rfl rfl
      (hout hh.1) (by
        rw [hh.1]
        refine ⟨fun _ => ⟨hcopied, hdisk, ht, fun hc => by cases hc⟩,
          fun _ => hvalid, fun hc => ?_⟩
        exact absurd (hh.2.symm.trans hc) (Option.some_ne_none p))
    simp only [update_eq_self] at hloc
    exact hloc
  | iupdate p k =>
    rcases Outcome.of_guard hy with ⟨hh, hy⟩
    cases hy
    simp only [System.holds, decide_eq_true_eq] at hh
    rcases h.user hh.1 hh.2 with ⟨hvalid, hcopied, -, htype, -⟩
    have hupd := h.iupdate (x.pc p) hh.2 (hout hh.1)
      (hout hh.1) hcopied (by
        rw [hh.1]
        exact ⟨fun _ => ⟨hcopied, htype, htype, fun _ => rfl⟩, fun _ => hvalid, fun _ => rfl⟩)
    have hsame : (x.iupdate sb k).setPc p (x.pc p) = x.iupdate sb k := by
      unfold System.setPc
      change { x.iupdate sb k with pc := update x.pc p (x.pc p) } = _
      rw [update_eq_self]
      rfl
    rw [hsame] at hupd
    exact hupd
  | iunlock p k =>
    rcases Outcome.of_guard hy with ⟨hp, hy⟩
    rcases Outcome.of_check hy with ⟨hbad, hy⟩
    cases hy
    rcases not_or.mp hbad with ⟨hl, -⟩
    have hlock : (x.table k).lock = some p := Classical.not_not.mp hl
    have hput := h.unlock (x.pc p) hlock (hout hp.1)
      (hout hp.1) (fun s hc => by cases hp.1.symm.trans hc)
      (hp.2 hlock) (fun _ => (h.user hp.1 hlock).2)
    rw [put_owners] at hput
    simp only [System.setPc, System.modify, update_eq_self] at hput
    exact hput
  | iput p k =>
    rcases Outcome.of_guard hy with ⟨hs, hy⟩
    exact iput_inv h hs hy
  | ialloc p dev type =>
    rcases Outcome.of_guard hy with ⟨hp, hy⟩
    cases hy
    exact h.move (hout hp) (by rintro _ _ ⟨⟩)
  | step p =>
    simp only [step] at hy
    cases hpc : x.pc p with
    | idle =>
      rw [hpc] at hy
      cases hy
    | inside s k =>
      rw [hpc] at hy
      exact advance_inv h hpc hy
    | allocating dev type inum =>
      have hoff : ∀ s l, x.pc p ≠ .inside s l := fun s l hc => by cases hpc.symm.trans hc
      simp only [hpc] at hy
      by_cases hlt : inum < sb.ninodes
      · rw [if_pos hlt] at hy
        by_cases hfree : (x.dinode sb dev inum).type = 0
        · rw [if_pos hfree] at hy
          cases hy
          exact (h.allocate dev inum type hfree).move hoff (by rintro _ _ ⟨⟩)
        · rw [if_neg hfree] at hy
          cases hy
          exact h.move hoff (by rintro _ _ ⟨⟩)
      · rw [if_neg hlt] at hy
        cases hy
        exact h.move hoff hidle
    | getting dev inum =>
      have hoff : ∀ s l, x.pc p ≠ .inside s l := fun s l hc => by cases hpc.symm.trans hc
      rw [hpc] at hy
      rcases (Outcome.bind_eq_done _ _ _).mp hy with ⟨z, hget, hz⟩
      cases hz
      exact iget_inv h hoff hidle hget

theorem advance_born {k : Fin NINODE} {s : Stage}
    (hy : advance sb x p k s = .done y) : y.born = x.born := by
  cases s with
  | locking =>
    simp only [advance] at hy
    split at hy
    · cases hy
      rfl
    · exact nomatch hy
  | loading =>
    simp only [advance] at hy
    split at hy <;> cases hy <;> rfl
  | loaded =>
    cases (Outcome.of_check hy).2
    rfl
  | _ =>
    cases hy
    rfl

/-- Inodes are handed out and never taken back. -/
theorem step_born {x : System P} {e : Event P} (hy : step sb x e = .done y)
    (dev inum : Nat) : x.born dev inum ≤ y.born dev inum := by
  have hsame : y.born = x.born → x.born dev inum ≤ y.born dev inum :=
    fun hc => Nat.le_of_eq (by rw [hc])
  cases e with
  | iget p dev' inum' => exact hsame (iget_keeps (Outcome.of_guard hy).2).2
  | ilock p k | iunlock p k =>
    cases (Outcome.of_check (Outcome.of_guard hy).2).2
    exact Nat.le_refl _
  | iput p k =>
    have hy := (Outcome.of_guard hy).2
    unfold System.iput at hy
    split at hy
    · split at hy
      · cases hy
        exact Nat.le_refl _
      · exact nomatch hy
    · cases hy
      exact Nat.le_refl _
  | step p =>
    simp only [step] at hy
    cases hpc : x.pc p with
    | idle =>
      rw [hpc] at hy
      exact nomatch hy
    | inside s k =>
      rw [hpc] at hy
      exact hsame (advance_born hy)
    | allocating dev' type inum' =>
      simp only [hpc] at hy
      split at hy
      · split at hy
        · cases hy
          change _ ≤ update x.born dev' _ dev inum
          by_cases hd : dev = dev'
          · rw [hd, update_self]
            by_cases hi : inum = inum'
            · rw [hi, update_self]
              exact Nat.le_succ _
            · rw [update_of_ne hi]
          · rw [update_of_ne hd]
        · cases hy
          exact Nat.le_refl _
      · cases hy
        exact Nat.le_refl _
    | getting dev' inum' =>
      rw [hpc] at hy
      rcases (Outcome.bind_eq_done _ _ _).mp hy with ⟨z, hget, hz⟩
      cases hz
      exact hsame (iget_keeps hget).2
  | _ =>
    cases (Outcome.of_guard hy).2
    exact Nat.le_refl _

end Steps

section Runs

variable [DecidableEq P]

/-- In every run of the inode table, an inode has at most one entry with references;
    an entry with references that is valid and not locked agrees with the disk; `iput`
    never waits for the lock; and after `ialloc` has taken an inode, whoever has locked
    it sees an inode that was handed out then or later. -/
theorem table_sound (sb : Superblock) (blk : Nat → Nat → Block) (es : List (Event P))
    (y : System P) (h : runs (step sb) es (boot P blk) = .done y) :
    (∀ k l, 0 < (y.table k).ref → 0 < (y.table l).ref → (y.table k).dev = (y.table l).dev →
      (y.table k).inum = (y.table l).inum → k = l) ∧
    (∀ k, 0 < (y.table k).ref → (y.table k).valid = true → (y.table k).lock = none →
      (y.table k).d = y.dinode sb (y.table k).dev (y.table k).inum) ∧
    (∀ p k, y.spare p k = true → ∃ z, step sb y (.iput p k) = .done z) ∧
    (∀ es₁ es₂ p x dev type inum, es = es₁ ++ .step p :: es₂ →
      runs (step sb) es₁ (boot P blk) = .done x → x.pc p = .allocating dev type inum →
      inum < sb.ninodes → (x.dinode sb dev inum).type = 0 →
      ∀ q k, y.pc q = .idle → (y.table k).lock = some q → (y.table k).dev = dev →
        (y.table k).inum = inum →
        (y.table k).valid = true ∧ x.born dev inum < y.copied k ∧
          y.copied k = y.born dev inum ∧
          (y.changed k = false → (y.table k).d = y.dinode sb dev inum)) := by
  have hinv : Inv sb y := runs_invariant (step sb) (Inv sb) step_inv es _ y (boot_inv sb blk) h
  have hne : ∀ k, 0 < (y.table k).ref → y.owners k ≠ [] := by
    intro k hk hc
    rw [hinv.refs k, hc] at hk
    exact absurd hk (Int.lt_irrefl 0)
  refine ⟨fun k l hk hl => hinv.uniq k l (hne k hk) (hne l hl), fun k hk hv hl => ?_,
    fun p k hs => ?_, fun es₁ es₂ p x dev type inum hes hx hpc hlt hfree q k hq hlock hd hi => ?_⟩
  · rcases hinv.free (hne k hk) hl with ⟨hclean, hcur⟩
    exact (hcur hv).2.2.2 hclean
  · simp only [step, if_pos hs, System.iput]
    by_cases hlast : (y.table k).ref = 1 ∧ (y.table k).valid = true ∧ (y.table k).d.nlink = 0
    · rw [if_pos hlast, iput_lock_free hinv hs hlast.1]
      exact ⟨_, rfl⟩
    · rw [if_neg hlast]
      exact ⟨_, rfl⟩
  · -- The inode is counted when `ialloc` takes it, and the count only grows.
    rw [hes, runs_append, hx, Outcome.done_bind, runs_cons] at h
    have hstep : step sb x (.step p) =
        .done ((x.allocate sb dev inum type).setPc p (.getting dev inum)) := by
      simp only [step, hpc, if_pos hlt, if_pos hfree]
    rw [hstep, Outcome.done_bind] at h
    have hgrow : x.born dev inum + 1 ≤ y.born dev inum := by
      refine runs_invariant (step sb) (fun z => x.born dev inum + 1 ≤ z.born dev inum)
        (fun z e z' hz hzz => Nat.le_trans hz (step_born hzz dev inum)) es₂ _ y ?_ h
      simp only [System.setPc, System.allocate, update_self]
      exact Nat.le_refl _
    rcases hinv.user hq hlock with ⟨hvalid, hcopied, -, -, hsame⟩
    rw [hd, hi] at hcopied hsame
    exact ⟨hvalid, by rw [hcopied]; exact hgrow, hcopied, hsame⟩

/-- A superblock with three inodes, all of them free. -/
def threeInodes : Superblock :=
  { magic := FSMAGIC, size := 100, nblocks := 50, ninodes := 4, nlog := 30, logstart := 2
    inodestart := 32, bmapstart := 33 }

def firstEntry : Fin NINODE := ⟨0, by decide⟩
def secondEntry : Fin NINODE := ⟨1, by decide⟩

/-- The first process gives back an inode without links. When it is free on the disk, the
    second one is handed the same inode and waits for its lock. -/
def takenInTheWindow : List (Event (Fin 2)) :=
  [.ialloc 0 1 T_FILE, .step 0, .step 0, .ilock 0 firstEntry, .step 0, .step 0, .step 0,
    .iunlock 0 firstEntry, .iput 0 firstEntry, .step 0, .step 0, .step 0, .step 0,
    .ialloc 1 1 T_DIR, .step 1, .step 1, .ilock 1 firstEntry,
    .step 0, .step 0, .step 0, .step 1, .step 1, .step 1]

/-- The second process sees a new directory. -/
theorem table_sound_window :
    ∃ y, runs (step threeInodes) takenInTheWindow (boot (Fin 2) (fun _ _ _ => 0)) = .done y ∧
      (y.table firstEntry).lock = some 1 ∧ (y.table firstEntry).d.type = T_DIR ∧
      1 < y.copied firstEntry := by
  rcases Outcome.exists_of_decide (fun y => y.pc 1 = .idle ∧
      (y.table firstEntry).lock = some 1 ∧ (y.table firstEntry).d.type = T_DIR ∧
      (y.table firstEntry).dev = 1 ∧ (y.table firstEntry).inum = 1)
    (runs (step threeInodes) takenInTheWindow (boot (Fin 2) (fun _ _ _ => 0))) (by decide +kernel)
    with ⟨y, hy, hpc, hlock, htype, hdev, hinum⟩
  -- The second process has come to the inode, which is free on the disk.
  rcases Outcome.exists_of_decide (fun x => x.pc 1 = .allocating 1 T_DIR 1 ∧
      (x.dinode threeInodes 1 1).type = 0 ∧ x.born 1 1 = 1)
    (runs (step threeInodes) (takenInTheWindow.take 14) (boot (Fin 2) (fun _ _ _ => 0)))
    (by decide +kernel) with ⟨x, hx, hxp⟩
  have hnew := (table_sound threeInodes (fun _ _ _ => 0) takenInTheWindow y hy).2.2.2
    (takenInTheWindow.take 14) (takenInTheWindow.drop 15) 1 x 1 T_DIR 1 rfl hx hxp.1 (by decide)
    hxp.2.1 1 firstEntry hpc hlock hdev hinum
  rw [hxp.2.2] at hnew
  exact ⟨y, hy, hlock, htype, hnew.2.1⟩

/-- An inode is read into the second entry and given back, and comes back in the first
    one, where it is changed. -/
def rereadElsewhere : List (Event (Fin 1)) :=
  [.ialloc 0 1 T_FILE, .step 0, .step 0, .ialloc 0 1 T_FILE, .step 0, .step 0, .step 0,
    .ilock 0 secondEntry, .step 0, .step 0, .step 0,
    .modify 0 secondEntry { Dinode.zero with type := T_FILE, nlink := 1 },
    .iupdate 0 secondEntry, .iunlock 0 secondEntry, .iput 0 secondEntry, .iput 0 firstEntry,
    .iget 0 1 2, .ilock 0 firstEntry, .step 0, .step 0, .step 0,
    .modify 0 firstEntry { Dinode.zero with type := T_FILE, nlink := 2 },
    .iupdate 0 firstEntry, .iunlock 0 firstEntry]

/-- The entry without references is valid and not locked, and differs from the disk. -/
theorem staleCopy_differs :
    ∃ y, runs (step threeInodes) rereadElsewhere (boot (Fin 1) (fun _ _ _ => 0)) = .done y ∧
      (y.table secondEntry).ref = 0 ∧ (y.table secondEntry).valid = true ∧
      (y.table secondEntry).lock = none ∧ (y.table secondEntry).d.nlink = 1 ∧
      (y.dinode threeInodes (y.table secondEntry).dev (y.table secondEntry).inum).nlink = 2 :=
  Outcome.exists_of_decide _ _ (by decide +kernel)

end Runs

/-! ### The table of the file system -/

section Kernel

variable {sb : Superblock} {x : System (Fin NPROC)} {s : Kernel}

/-- The step of the file system that takes a process on from a stage, where it does
    something to the table. -/
def Stage.cmd (sb : Superblock) (x : System (Fin NPROC)) (p : Fin NPROC) (k : Fin NINODE) :
    Stage → Option Cmd
  | .locking => some (.acquire p k)
  | .loading =>
    if (x.table k).valid then none
    else some (.setInode k (x.dinode sb (x.table k).dev (x.table k).inum))
  | .loaded => some (.setValid k true)
  | .truncating => some (.setInode k { (x.table k).d with size := 0, addrs := fun _ => 0 })
  | .clearing => some (.setInode k { (x.table k).d with type := 0 })
  | .invalidating => some (.setValid k false)
  | .unlocking => some (.iputUnlock k)
  | .dropping => some (.iputDrop k)
  | .truncated | .updating => none

/-- Both models of the table search it in the same way, and change the same entry. -/
theorem iget_agrees (h : x.table = s.itable) (p : Fin NPROC) (dev inum : Nat) :
    Outcome.Both (fun y r => y.table = r.2.itable) (x.iget p dev inum)
      (perform (.iget dev inum) s) := by
  cases s
  subst h
  simp only [perform, System.iget, Kernel.iget]
  cases (List.finRange NINODE).find? (fun k => 0 < (x.table k).ref ∧ (x.table k).dev = dev ∧
      (x.table k).inum = inum) with
  | some k => rfl
  | none =>
    cases (List.finRange NINODE).find? (fun k => (x.table k).ref = 0) with
    | some k | none => rfl

/-- The first critical section of `iput`, with the drop of the reference where nothing
    has to be freed. -/
theorem iput_agrees (h : x.table = s.itable) (p : Fin NPROC) (k : Fin NINODE) :
    Outcome.Both (fun y t => y.table = t.itable) (x.iput p k)
      ((s.iputTest p k).bind (fun r =>
        if r.1 then .done r.2 else (perform (.iputDrop k) r.2).bind (fun r => .done r.2))) := by
  cases s
  subst h
  simp only [perform, System.iput, Kernel.iputTest]
  by_cases hlast : (x.table k).ref = 1 ∧ (x.table k).valid = true ∧ (x.table k).d.nlink = 0
  · -- The inode is to be freed, and both take its lock in the same section.
    simp only [if_pos hlast]
    cases (x.table k).lock with
    | none => rfl
    | some q => trivial
  · simp only [if_neg hlast]
    rfl

/-- The later steps of `ilock` and `iput`. The tests of `ilock` before its first step and
    after its last one are not part of the steps of the file system. -/
theorem advance_agrees (h : x.table = s.itable) (p : Fin NPROC) (k : Fin NINODE) (st : Stage)
    (href : st = .locking → 1 ≤ (x.table k).ref)
    (htype : st = .loaded → (x.table k).d.type ≠ 0) :
    Outcome.Both (fun y t => y.table = t.itable) (advance sb x p k st)
      ((st.cmd sb x p k).elim (.done s) (fun c => (perform c s).bind (fun r => .done r.2))) := by
  cases s
  subst h
  cases st with
  | locking =>
    have hge : ¬(x.table k).ref < 1 := Int.not_lt.mpr (href rfl)
    simp only [advance, Stage.cmd, Option.elim, perform, Kernel.acquire, if_neg hge]
    cases (x.table k).lock with
    | none => rfl
    | some q => trivial
  | loading =>
    simp only [advance, Stage.cmd]
    cases (x.table k).valid with
    | true | false => rfl
  | loaded =>
    simp only [advance, if_neg (htype rfl)]
    rfl
  | _ => rfl

theorem iunlock_agrees (h : x.table = s.itable) (p : Fin NPROC) (k : Fin NINODE)
    (hpc : x.pc p = .idle) (hclean : (x.table k).lock = some p → x.changed k = false) :
    Outcome.Both (fun y r => y.table = r.2.itable) (step sb x (.iunlock p k))
      (perform (.release p k) s) := by
  cases s
  subst h
  simp only [step, if_pos (And.intro hpc hclean), perform, Kernel.release]
  split
  · rfl
  · rfl

end Kernel

end Xv6.Itable
