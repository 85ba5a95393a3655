import Xv6.Fs.Counted
import Xv6.Fs.Uses

/-!
# Programs without References

Most of `kernel/fs.c` works on blocks and on an inode it was given. Such a
program takes no references and gives none up, whatever the answers to its steps
are, so it leaves every view alone.

## Main definitions

* `Cmd.Quiet`: Steps that are of no concern to any view.
* `Neutral`: Programs of quiet steps.
* `owp`: The weakest precondition of a program on the view of its process.
-/

namespace Xv6

/-- Steps that are of no concern to any view. -/
def Cmd.Quiet : Cmd → Prop
  | panic e => ¬BadCount e
  | bread _ => True
  | bput _ _ => True
  | logWrite _ => True
  | inode _ => True
  | setInode _ _ => True
  | setValid _ _ => True
  | setOff _ _ => True
  | _ => False

/-- Programs of quiet steps. -/
def Neutral {α : Type} : M α → Prop
  | .ret _ => True
  | .act c k => c.Quiet ∧ ∀ r, Neutral (k r)

/-- The weakest precondition of a program on the view of its process. It is
    irreducible for the same reason as `wpk`. -/
@[irreducible] def owp {α : Type} (p : Fin NPROC) (x : M α) (Q : α → View → Prop) (v : View) :
    Prop :=
  lwp (Local p) x Q v

section Rules

variable {α β : Type} {p : Fin NPROC} {v : View}

@[simp] theorem owp_pure (a : α) (Q : α → View → Prop) : owp p (pure a) Q v ↔ Q a v := by
  unfold owp
  exact Iff.rfl

theorem owp_bind (x : M α) (f : α → M β) (Q : β → View → Prop) :
    owp p (x >>= f) Q v ↔ owp p x (fun a u => owp p (f a) Q u) v := by
  unfold owp
  exact lwp_bind (Local p) x f Q v

theorem owp_ret {a : α} {Q : α → View → Prop} (h : Q a v) :
    owp p (pure a) Q v := (owp_pure a Q).mpr h

theorem owp_seq {x : M α} {f : α → M β} {Q : β → View → Prop}
    (h : owp p x (fun a u => owp p (f a) Q u) v) : owp p (x >>= f) Q v :=
  (owp_bind x f Q).mpr h

theorem owp_issue (c : Cmd) (Q : c.Ans → View → Prop) :
    owp p (issue c) Q v ↔ Local p c v Q := by
  unfold owp
  exact Iff.rfl

theorem owp_panic {e : Panic} (Q : α → View → Prop) (he : ¬BadCount e) :
    owp p (panic e) Q v := by
  unfold owp
  exact he

theorem neutral_pure (a : α) : Neutral (pure a : M α) := trivial

theorem Neutral.bind {x : M α} {f : α → M β} (hx : Neutral x) (hf : ∀ a, Neutral (f a)) :
    Neutral (x >>= f) := by
  induction x with
  | ret a => exact hf a
  | act c k ih => exact ⟨hx.1, fun r => ih r (hx.2 r)⟩

theorem owp_neutral {x : M α} (hx : Neutral x) {Q : α → View → Prop} (hQ : ∀ a, Q a v) :
    owp p x Q v := by
  unfold owp
  induction x with
  | ret a => exact hQ a
  | act c k ih =>
    have hk : ∀ r, lwp (Local p) (k r) Q v := fun r => ih r (hx.2 r)
    cases c with
    | panic e => exact hx.1
    | bread b => exact hk
    | bput b d | logWrite b => exact hk ()
    | inode i => exact hk
    | setInode i d | setValid i b | setOff f off => exact hk ()
    | _ => exact absurd hx.1 id

theorem owp_skip {x : M α} (hx : Neutral x) {f : α → M β} {Q : β → View → Prop}
    (h : ∀ a, owp p (f a) Q v) : owp p (x >>= f) Q v :=
  owp_seq (owp_neutral hx h)

end Rules

section Blocks

variable (sb : Superblock)

theorem neutral_bread (b : Nat) : Neutral (bread b) := ⟨trivial, fun _ => trivial⟩

theorem neutral_bput (b : Nat) (d : Block) : Neutral (bput b d) := ⟨trivial, fun _ => trivial⟩

theorem neutral_logWrite (b : Nat) : Neutral (logWrite b) := ⟨trivial, fun _ => trivial⟩

theorem neutral_getInode (ip : Fin NINODE) : Neutral (getInode ip) := ⟨trivial, fun _ => trivial⟩

theorem neutral_setInode (ip : Fin NINODE) (d : Dinode) : Neutral (setInode ip d) :=
  ⟨trivial, fun _ => trivial⟩

theorem neutral_setValid (ip : Fin NINODE) (b : Bool) : Neutral (setValid ip b) :=
  ⟨trivial, fun _ => trivial⟩

theorem neutral_setOff (f : Fin NFILE) (off : BitVec 32) : Neutral (setOff f off) :=
  ⟨trivial, fun _ => trivial⟩

theorem neutral_panic {α : Type} {e : Panic} (he : ¬BadCount e) : Neutral (panic e : M α) :=
  ⟨he, fun r => r.elim⟩

theorem neutral_ite {α : Type} (c : Prop) [Decidable c] {x y : M α} (hx : Neutral x)
    (hy : Neutral y) : Neutral (if c then x else y) := by
  split
  · exact hx
  · exact hy

theorem neutral_of_uses {α : Type} {x : M α} (h : Prog.Uses Cmd.Quiet x) : Neutral x := by
  induction x with
  | ret a => trivial
  | act c k ih => exact ⟨h.1, fun r => ih r (h.2 r)⟩

theorem quiet_blockSteps : BlockSteps Cmd.Quiet where
  bread _ := trivial
  bput _ _ := trivial
  logWrite _ := trivial
  inode _ := trivial
  setInode _ _ := trivial
  freeing := by
    change ¬BadCount _
    decide
  range := by
    change ¬BadCount _
    decide

theorem neutral_iupdate (ip : Fin NINODE) : Neutral (iupdate sb ip) :=
  neutral_of_uses ((layered_uses quiet_blockSteps).iupdate sb ip)

theorem neutral_itrunc (ip : Fin NINODE) : Neutral (itrunc sb ip) :=
  neutral_of_uses ((layered_uses quiet_blockSteps).itrunc sb ip)

theorem neutral_readi (ip : Fin NINODE) (dst : Dest) (off n : BitVec 32) :
    Neutral (readi sb ip dst off n) :=
  neutral_of_uses ((layered_uses quiet_blockSteps).readi sb ip dst off n)

theorem neutral_writei (ip : Fin NINODE) (src : Source) (off n : BitVec 32) :
    Neutral (writei sb ip src off n) :=
  neutral_of_uses (uses_writei quiet_blockSteps sb ip src off n)

theorem neutral_freeSlotFrom (dp : Fin NINODE) (size fuel off : Nat) :
    Neutral (freeSlotFrom sb dp size fuel off) := by
  induction fuel generalizing off with
  | zero => exact neutral_pure _
  | succ fuel ih =>
    refine neutral_ite _ ((neutral_readi sb dp _ _ _).bind (fun r => ?_)) (neutral_pure _)
    exact neutral_ite _ (neutral_panic (by decide)) (neutral_ite _ (neutral_pure _) (ih _))

theorem neutral_isdiremptyFrom (dp : Fin NINODE) (size fuel off : Nat) :
    Neutral (isdiremptyFrom sb dp size fuel off) := by
  induction fuel generalizing off with
  | zero => exact neutral_pure _
  | succ fuel ih =>
    refine neutral_ite _ ((neutral_readi sb dp _ _ _).bind (fun r => ?_)) (neutral_pure _)
    exact neutral_ite _ (neutral_panic (by decide)) (neutral_ite _ (neutral_pure _) (ih _))

theorem neutral_isdirempty (dp : Fin NINODE) : Neutral (isdirempty sb dp) :=
  (neutral_getInode dp).bind (fun _ => neutral_isdiremptyFrom sb dp _ _ _)

theorem neutral_loadsegFrom (ip : Fin NINODE) (offset : BitVec 32) (sz fuel i : Nat) :
    Neutral (loadsegFrom sb ip offset sz fuel i) := by
  induction fuel generalizing i with
  | zero => exact neutral_pure _
  | succ fuel ih =>
    refine neutral_ite _ ((neutral_readi sb ip _ _ _).bind (fun r => ?_)) (neutral_pure _)
    exact neutral_ite _ (neutral_pure _) (ih _)

theorem neutral_loadFrom (ip : Fin NINODE) (mem : ExecMem) (n i : Nat) (off : BitVec 32) :
    Neutral (loadFrom sb ip mem n i off) := by
  induction n generalizing i off with
  | zero => exact neutral_pure _
  | succ n ih =>
    refine (neutral_readi sb ip _ _ _).bind (fun r => ?_)
    refine neutral_ite _ (neutral_pure _) (neutral_ite _ (ih _ _) (neutral_ite _ (neutral_pure _)
      (neutral_ite _ (neutral_pure _) (neutral_ite _ (neutral_pure _) (neutral_ite _
      (neutral_pure _) ?_)))))
    exact (neutral_loadsegFrom sb ip _ _ _ _).bind (fun l => neutral_ite _ (neutral_pure _)
      (ih _ _))

end Blocks

end Xv6
