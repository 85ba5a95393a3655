import Xv6.Fs.Change
import Xv6.Fs.Proc

/-!
# Rules for Kernel Programs

The weakest preconditions of the kernel's steps, and of the block allocator.

Steps that cannot fail have an equivalence as their rule, and `simp` carries a
proof through them. The rules of the others name what is needed. From here on
proofs talk about the volume: `Upd` says that blocks were written and what the
volume is after that.

The panics a program may end in are a parameter throughout. A transaction that
is too big for the log is always among them, and above the layer of blocks an
inode table that is full.
-/

namespace Xv6

open Function

/-- The weakest precondition of a kernel program. It is irreducible: proofs go
    through the rules below, and never look at the run itself. -/
@[irreducible] def wpk {α : Type} (E : Panic → Prop) (x : M α) (Q : α → Kernel → Prop)
    (s : Kernel) : Prop :=
  Prog.wp perform E x Q s

/-- More blocks were logged, as many as the header has room for. -/
structure LogSame (l l' : Log) : Prop where
  start : l'.start = l.start
  size : l'.size = l.size
  outstanding : l'.outstanding = l.outstanding
  committing : l'.committing = l.committing
  keeps : l.lh ⊆ l'.lh
  fits : l.lh.length ≤ LOGSIZE → l'.lh.length ≤ LOGSIZE

theorem LogSame.refl (l : Log) : LogSame l l := ⟨rfl, rfl, rfl, rfl, fun _ => id, id⟩

theorem LogSame.trans {l l' l'' : Log} (h : LogSame l l') (h' : LogSame l' l'') :
    LogSame l l'' :=
  ⟨h'.start.trans h.start, h'.size.trans h.size, h'.outstanding.trans h.outstanding,
    h'.committing.trans h.committing, fun _ hb => h'.keeps (h.keeps hb),
    fun hl => h'.fits (h.fits hl)⟩

section Steps

variable {E : Panic → Prop} {s : Kernel}

@[simp] theorem wp_pure {α : Type} (a : α) (Q : α → Kernel → Prop) :
    wpk E (pure a) Q s ↔ Q a s := by
  unfold wpk
  exact Iff.rfl

theorem wp_bind {α β : Type} (x : M α) (f : α → M β) (Q : β → Kernel → Prop) :
    wpk E (x >>= f) Q s ↔ wpk E x (fun a t => wpk E (f a) Q t) s := by
  unfold wpk
  exact Prog.wp_bind x f Q

@[simp] theorem wp_panic (α : Type) (e : Panic) (Q : α → Kernel → Prop) :
    wpk E (panic e : M α) Q s ↔ E e := by
  unfold wpk
  exact Iff.rfl

theorem wp_of_run {α : Type} {x : M α} {a : α} {t : Kernel} {Q : α → Kernel → Prop}
    (hx : Prog.run perform x s = .done (a, t)) (h : Q a t) : wpk E x Q s := by
  unfold wpk
  rw [Prog.wp, hx]
  exact h

theorem wp_issue (c : Cmd) (Q : c.Ans → Kernel → Prop) :
    wpk E (issue c) Q s ↔ Outcome.Meets E (fun r => Q r.1 r.2) (perform c s) := by
  unfold wpk
  exact Prog.wp_call c Q

@[simp] theorem wp_bread (b : Nat) (Q : Block → Kernel → Prop) :
    wpk E (bread b) Q s ↔ Q (s.blk b) s :=
  wp_issue (.bread b) Q

@[simp] theorem wp_bput (b : Nat) (d : Block) (Q : Unit → Kernel → Prop) :
    wpk E (bput b d) Q s ↔ Q () { s with blk := update s.blk b d } :=
  wp_issue (.bput b d) Q

@[simp] theorem wp_getInode (ip : Fin NINODE) (Q : Inode → Kernel → Prop) :
    wpk E (getInode ip) Q s ↔ Q (s.itable ip) s :=
  wp_issue (.inode ip) Q

@[simp] theorem wp_setInode (ip : Fin NINODE) (d : Dinode) (Q : Unit → Kernel → Prop) :
    wpk E (setInode ip d) Q s ↔ Q () (s.modInode ip (fun i => { i with d := d })) :=
  wp_issue (.setInode ip d) Q

@[simp] theorem wp_setValid (ip : Fin NINODE) (v : Bool) (Q : Unit → Kernel → Prop) :
    wpk E (setValid ip v) Q s ↔ Q () (s.modInode ip (fun i => { i with valid := v })) :=
  wp_issue (.setValid ip v) Q

@[simp] theorem wp_idup (ip : Fin NINODE) (Q : Unit → Kernel → Prop) :
    wpk E (idup ip) Q s ↔ Q () (s.modInode ip (fun i => { i with ref := i.ref + 1 })) :=
  wp_issue (.idup ip) Q

/-- `log_write` inside a transaction. -/
theorem wp_logWrite (hE : E .tooBigTransaction) (b : Nat) (Q : Unit → Kernel → Prop)
    (hop : 1 ≤ s.log.outstanding)
    (h : ∀ l, LogSame s.log l → b ∈ l.lh → Q () { s with log := l }) :
    wpk E (logWrite b) Q s := by
  refine (wp_issue (.logWrite b) Q).mpr ?_
  change Outcome.Meets E _ (s.log.logWrite b >>= _)
  rw [Outcome.meets_bind]
  unfold Log.logWrite
  by_cases hfull : s.log.lh.length ≥ LOGSIZE ∨ s.log.lh.length ≥ s.log.size - 1
  · rw [if_pos hfull]
    exact hE
  · rw [if_neg hfull, if_neg (by omega)]
    by_cases hb : b ∈ s.log.lh
    · rw [if_pos hb]
      exact h s.log (LogSame.refl _) hb
    · rw [if_neg hb]
      refine h { s.log with lh := s.log.lh ++ [b] } ⟨rfl, rfl, rfl, rfl,
        List.subset_append_left _ _, fun _ => ?_⟩ List.mem_concat_self
      rw [List.length_append, List.length_singleton]
      omega

end Steps

/-- Blocks were written, nothing else changed, and the volume is `V` now. -/
structure Upd (sb : Superblock) (s s' : Kernel) (V : Vol) : Prop where
  eq : s' = { s with blk := s'.blk, log := s'.log }
  log : LogSame s.log s'.log
  vol : vol sb s'.blk = V

theorem Upd.itable {sb : Superblock} {s s' : Kernel} {V : Vol} (h : Upd sb s s' V) :
    s'.itable = s.itable := by
  rw [h.eq]

theorem Upd.trans {sb : Superblock} {s s' s'' : Kernel} {V V' : Vol} (h : Upd sb s s' V)
    (h' : Upd sb s' s'' V') : Upd sb s s'' V' := by
  refine ⟨?_, h.log.trans h'.log, h'.vol⟩
  rw [h'.eq, h.eq]

section Alloc

variable {sb : Superblock} {E : Panic → Prop} {s : Kernel}

theorem scanBits_none (d : Block) (n bi : Nat) (h : scanBits d n bi = none) :
    ∀ k, bi ≤ k → k < bi + n → bitAt d k = true := by
  induction n generalizing bi with
  | zero =>
    intro k h₁ h₂
    omega
  | succ n ih =>
    intro k h₁ h₂
    unfold scanBits at h
    by_cases hb : bitAt d bi = false
    · rw [if_pos hb] at h
      exact nomatch h
    · rw [if_neg hb] at h
      by_cases hk : k = bi
      · rw [hk]
        exact Bool.eq_true_of_not_eq_false hb
      · exact ih (bi + 1) h k (by omega) (by omega)

theorem scanBits_some (d : Block) (n bi k : Nat) (h : scanBits d n bi = some k) :
    bi ≤ k ∧ k < bi + n ∧ bitAt d k = false := by
  induction n generalizing bi with
  | zero => exact nomatch h
  | succ n ih =>
    unfold scanBits at h
    by_cases hb : bitAt d bi = false
    · rw [if_pos hb, Option.some.injEq] at h
      rw [← h]
      exact ⟨le_refl _, by omega, hb⟩
    · rw [if_neg hb] at h
      rcases ih (bi + 1) h with ⟨h₁, h₂, h₃⟩
      exact ⟨by omega, by omega, h₃⟩

theorem vol_bit_eq (blk : Nat → Block) (b bi : Nat) (hb : b % BPB = 0) (hbi : bi < BPB)
    (hsize : b + bi < sb.size) : sb.bblock (b + bi) = sb.bblock b ∧ (b + bi) % BPB = bi ∧
      (vol sb blk).bit (b + bi) = bitAt (blk (sb.bblock b)) bi := by
  have hmod : (b + bi) % BPB = bi := by
    rw [Nat.add_mod, hb, Nat.zero_add, Nat.mod_mod, Nat.mod_eq_of_lt hbi]
  have hdiv : (b + bi) / BPB = b / BPB := by
    have hpos : 0 < BPB := by decide
    have h₁ := Nat.div_add_mod (b + bi) BPB
    have h₂ := Nat.div_add_mod b BPB
    rw [hmod] at h₁
    rw [hb] at h₂
    have : BPB * ((b + bi) / BPB) = BPB * (b / BPB) := by omega
    exact Nat.eq_of_mul_eq_mul_left hpos this
  have hblock : sb.bblock (b + bi) = sb.bblock b := by
    unfold Superblock.bblock
    rw [hdiv]
  refine ⟨hblock, hmod, ?_⟩
  change (if _ then _ else _) = _
  rw [if_pos hsize, hblock, hmod]

/-- The loop of `balloc`: it goes through the bitmap block by block until it
    finds a clear bit. -/
theorem ballocFrom_wp (hok : sb.Ok) (hE : E .tooBigTransaction) (hop : 1 ≤ s.log.outstanding)
    (hres : ∀ b, b < sb.datastart → (vol sb s.blk).bit b = true) (Q : Nat → Kernel → Prop)
    (n b : Nat) (hb : b % BPB = 0)
    (hnone : (∀ c, b ≤ c → c < b + n * BPB → c < sb.size → (vol sb s.blk).bit c = true) → Q 0 s)
    (hsome : ∀ c s', InData sb c → (vol sb s.blk).bit c = false →
      Upd sb s s' { vol sb s.blk with
        bit := update (vol sb s.blk).bit c true
        data := update (vol sb s.blk).data c (fun _ => 0) } → Q c s') :
    wpk E (ballocFrom sb n b) Q s := by
  induction n generalizing b with
  | zero =>
    unfold ballocFrom
    rw [wp_pure]
    refine hnone (fun c h₁ h₂ _ => ?_)
    omega
  | succ n ih =>
    unfold ballocFrom
    rw [wp_bind, wp_bread]
    cases hscan : scanBits (s.blk (sb.bblock b)) (min BPB (sb.size - b)) 0 with
    | none =>
      refine ih (b + BPB) (by rw [Nat.add_mod_right, hb]) (fun hrest => hnone ?_)
      intro c h₁ h₂ h₃
      by_cases hc : c < b + BPB
      · have hbit := scanBits_none _ _ _ hscan (c - b) (Nat.zero_le _) (by omega)
        have hvol := (@vol_bit_eq sb s.blk b (c - b) hb (by omega) (by omega)).2.2
        rw [show b + (c - b) = c by omega] at hvol
        rw [hvol, hbit]
      · refine hrest c (by omega) ?_ h₃
        rw [Nat.succ_mul] at h₂
        omega
    | some bi =>
      rcases scanBits_some _ _ _ _ hscan with ⟨_, hbi, hclear⟩
      rw [Nat.zero_add] at hbi
      have hlt : b + bi < sb.size := by omega
      rcases vol_bit_eq s.blk b bi hb (by omega) hlt with ⟨hblock, hmod, hvol⟩
      have hfree : (vol sb s.blk).bit (b + bi) = false := by rw [hvol, hclear]
      -- Blocks below the data area are marked used.
      have hdata : InData sb (b + bi) := by
        refine ⟨Nat.le_of_not_lt (fun hlow => ?_), hlt⟩
        rw [hres _ hlow] at hfree
        exact Bool.noConfusion hfree
      simp only [wp_bind, wp_bput, bzero]
      refine wp_logWrite hE _ _ hop (fun l hl _ => ?_)
      refine wp_logWrite hE _ _ (by rw [hl.outstanding]; exact hop) (fun l' hl' _ => ?_)
      rw [wp_pure]
      refine hsome (b + bi) _ hdata hfree ⟨rfl, hl.trans hl', ?_⟩
      have hset := vol_setBit hok s.blk (b + bi) hlt
      rw [hblock, hmod] at hset
      change vol sb (update (update s.blk (sb.bblock b) _) (b + bi) _) = _
      rw [vol_data hok _ _ hdata, hset]

/-- `balloc` returns a fresh block, or 0 if every block is in use. -/
theorem balloc_wp (hok : sb.Ok) (hE : E .tooBigTransaction) (hop : 1 ≤ s.log.outstanding)
    (hres : ∀ b, b < sb.datastart → (vol sb s.blk).bit b = true) {Q : Nat → Kernel → Prop}
    (hnone : (∀ c, c < sb.size → (vol sb s.blk).bit c = true) → Q 0 s)
    (hsome : ∀ c s', InData sb c → (vol sb s.blk).bit c = false →
      Upd sb s s' { vol sb s.blk with
        bit := update (vol sb s.blk).bit c true
        data := update (vol sb s.blk).data c (fun _ => 0) } → Q c s') :
    wpk E (balloc sb) Q s := by
  refine ballocFrom_wp hok hE hop hres Q _ 0 (Nat.zero_mod _) (fun hall => hnone ?_) hsome
  intro c hc
  refine hall c (Nat.zero_le _) ?_ hc
  -- The bitmap blocks looked at cover the disk.
  have hpos : 0 < BPB := by decide
  have hdiv := Nat.div_add_mod (sb.size + BPB - 1) BPB
  have hmod := Nat.mod_lt (sb.size + BPB - 1) hpos
  rw [Nat.mul_comm] at hdiv
  omega

theorem wp_write (hok : sb.Ok) (hE : E .tooBigTransaction) (hop : 1 ≤ s.log.outstanding) {α : Type}
    {b : Nat} (hb : InData sb b) {x : Block} {rest : M α} {Q : α → Kernel → Prop}
    (h : ∀ s', Upd sb s s' { vol sb s.blk with
      data := update (vol sb s.blk).data b x } → wpk E rest Q s') :
    wpk E (bput b x >>= fun _ => logWrite b >>= fun _ => rest) Q s := by
  rw [wp_bind, wp_bput, wp_bind]
  exact wp_logWrite hE _ _ hop (fun l hl _ => h _ ⟨rfl, hl, vol_data hok s.blk b hb x⟩)

theorem iupdate_wp (hok : sb.Ok) (hE : E .tooBigTransaction) (hop : 1 ≤ s.log.outstanding)
    (ip : Fin NINODE) (hi : (s.itable ip).inum < sb.ninodes) (Q : Unit → Kernel → Prop)
    (h : ∀ s', Upd sb s s' { vol sb s.blk with
      dino := update (vol sb s.blk).dino (s.itable ip).inum (s.itable ip).d } →
      Q () s') :
    wpk E (iupdate sb ip) Q s := by
  unfold iupdate
  simp only [wp_bind, wp_getInode, wp_bread, wp_bput]
  refine wp_logWrite hE _ _ hop (fun l hl _ => h _ ⟨rfl, hl, ?_⟩)
  exact vol_putDinode hok s.blk hi _

end Alloc

end Xv6
