import Xv6.Fs.Inode
import Xv6.Lib.Issued

/-!
# The Steps of the Inode Layer

The functions of `fs.c` below `dirlookup` access blocks and the inode that
their caller holds, and nothing else: no locks, no reference counts, no
transactions of their own. And a block that they change is logged before they
do anything else, except where `writei` copies from user memory.

A property of programs that holds of such accesses and of sequences holds of
all of these functions. This is said once, for any such property.

## Main definitions

* `finish`: The part of `writei` behind its loop.
* `Layered`: A property that the programs of the inode layer have.
* `BlockSteps`: A property that the steps of the inode layer have.
* `Cmd.Prompt`: The steps that never wait.
-/

namespace Xv6

/-- The end of `writei`, from the values of `tot` and `off` on. -/
def finish (sb : Superblock) (ip : Fin NINODE) (r : Nat × Nat) : M Int := do
  let i ← getInode ip
  if i.d.size.toNat < r.2 then setInode ip { i.d with size := BitVec.ofNat 32 r.2 }
  iupdate sb ip
  return r.1

/-- A property of programs that holds of the accesses of the inode layer, where
    a block that is changed is logged at once, and of sequences. -/
structure Layered (X : ∀ {α : Type}, M α → Prop) : Prop where
  ret : ∀ {α : Type} (a : α), X (pure a : M α)
  bind : ∀ {α β : Type} {x : M α} {f : α → M β}, X x → (∀ a, X (f a)) → X (x >>= f)
  bread : ∀ b, X (Xv6.bread b)
  store : ∀ b d, X (bput b d >>= fun _ => logWrite b)
  getInode : ∀ ip, X (Xv6.getInode ip)
  setInode : ∀ ip d, X (Xv6.setInode ip d)
  freeing : X (panic .freeingFreeBlock : M Unit)
  range : X (panic .bmapOutOfRange : M Nat)

namespace Layered

variable {X : ∀ {α : Type}, M α → Prop} (hX : Layered X) (sb : Superblock)

theorem ite {α : Type} (c : Prop) [Decidable c] {x y : M α} (hx : X x) (hy : X y) :
    X (if c then x else y) := by
  split
  · exact hx
  · exact hy

include hX

theorem ballocFrom (n b : Nat) : X (Xv6.ballocFrom sb n b) := by
  induction n generalizing b with
  | zero => exact hX.ret 0
  | succ n ih =>
    refine hX.bind (hX.bread _) (fun d => ?_)
    split
    · rename_i bi _
      have htake := hX.bind (hX.store (sb.bblock b) (setBit d bi)) (fun _ =>
        hX.bind (hX.store (b + bi) (fun _ => 0)) (fun _ => hX.ret (b + bi)))
      exact htake
    · exact ih (b + BPB)

theorem balloc : X (Xv6.balloc sb) := hX.ballocFrom sb _ 0

theorem bfree (b : Nat) : X (Xv6.bfree sb b) :=
  hX.bind (hX.bread _) (fun _ => ite _ hX.freeing (hX.store _ _))

theorem iupdate (ip : Fin NINODE) : X (Xv6.iupdate sb ip) :=
  hX.bind (hX.getInode ip) (fun _ => hX.bind (hX.bread _) (fun _ => hX.store _ _))

/-- Allocate a block and note its number, which is how `bmap` goes on at each of
    its three places. -/
theorem ballocNote (f : Nat → M Unit) (hf : ∀ b, X (f b)) :
    X (do
      let addr ← Xv6.balloc sb
      if addr = 0 then return 0
      else
        f addr
        return addr) :=
  hX.bind (hX.balloc sb) (fun b => ite _ (hX.ret 0) (hX.bind (hf b) (fun _ => hX.ret b)))

theorem bmapIndirect (ip : Fin NINODE) : X (Xv6.bmapIndirect sb ip) :=
  hX.bind (hX.getInode ip) (fun _ =>
    ite _ (hX.ballocNote sb _ (fun _ => hX.setInode _ _)) (hX.ret _))

theorem bmap (ip : Fin NINODE) (bn : Nat) : X (Xv6.bmap sb ip bn) := by
  refine hX.bind (hX.getInode ip) (fun i => ite _ ?_ (ite _ ?_ ?_))
  · exact ite _ (hX.ballocNote sb _ (fun _ => hX.setInode _ _)) (hX.ret _)
  · refine hX.bind (hX.bmapIndirect sb ip) (fun ind => ite _ (hX.ret 0) ?_)
    refine hX.bind (hX.bread ind) (fun d => ite _ ?_ (hX.ret _))
    exact hX.ballocNote sb (fun b => do
      bput ind (putAddr d (bn - NDIRECT) b)
      logWrite ind) (fun b => hX.store _ _)
  · exact hX.range

theorem freeDirect (ip : Fin NINODE) (n k : Nat) : X (Xv6.freeDirect sb ip n k) := by
  induction n generalizing k with
  | zero => exact hX.ret ()
  | succ n ih =>
    refine hX.bind (hX.getInode ip) (fun i => ite _ (ih (k + 1)) ?_)
    exact hX.bind (hX.bfree sb _) (fun _ => hX.bind (hX.setInode _ _) (fun _ => ih (k + 1)))

theorem freeIndirect (d : Block) (n j : Nat) : X (Xv6.freeIndirect sb d n j) := by
  induction n generalizing j with
  | zero => exact hX.ret ()
  | succ n ih => exact ite _ (ih (j + 1)) (hX.bind (hX.bfree sb _) (fun _ => ih (j + 1)))

theorem itrunc (ip : Fin NINODE) : X (Xv6.itrunc sb ip) := by
  refine hX.bind (hX.freeDirect sb ip _ _) (fun _ => hX.bind (hX.getInode ip) (fun i => ?_))
  refine ite _ (hX.bind (hX.setInode _ _) (fun _ => hX.iupdate sb ip)) ?_
  refine hX.bind (hX.bread _) (fun d => hX.bind (hX.freeIndirect sb d _ _) (fun _ => ?_))
  exact hX.bind (hX.bfree sb _) (fun _ => hX.bind (hX.setInode _ _) (fun _ =>
    hX.iupdate sb ip))

theorem readLoop (ip : Fin NINODE) (dst : Dest) (n fuel tot off : Nat) (bs : List Byte) :
    X (Xv6.readLoop sb ip dst n fuel tot off bs) := by
  induction fuel generalizing tot off bs with
  | zero => exact hX.ret _
  | succ fuel ih =>
    refine ite _ ?_ (hX.ret _)
    refine hX.bind (hX.bmap sb ip _) (fun a => ite _ (hX.ret _) ?_)
    exact hX.bind (hX.bread a) (fun d => ite _ (ih _ _ _) (hX.ret _))

theorem readi (ip : Fin NINODE) (dst : Dest) (off n : BitVec 32) :
    X (Xv6.readi sb ip dst off n) :=
  hX.bind (hX.getInode ip) (fun _ => ite _ (hX.ret _) (hX.readLoop sb ip dst _ _ _ _ _))

theorem finish (ip : Fin NINODE) (r : Nat × Nat) : X (Xv6.finish sb ip r) := by
  refine hX.bind (hX.getInode ip) (fun i => ite _ ?_ ?_)
  · exact hX.bind (hX.setInode _ _) (fun _ => hX.bind (hX.iupdate sb ip) (fun _ => hX.ret _))
  · exact hX.bind (hX.iupdate sb ip) (fun _ => hX.ret _)

theorem writei (ip : Fin NINODE) (src : Source) (off n : BitVec 32)
    (hloop : X (writeLoop sb ip src n.toNat n.toNat 0 off.toNat)) :
    X (Xv6.writei sb ip src off n) :=
  hX.bind (hX.getInode ip) (fun _ => ite _ (hX.ret _) (ite _ (hX.ret _)
    (hX.bind hloop (fun r => hX.finish sb ip r))))

end Layered

/-- A property that the steps of the inode layer have. -/
structure BlockSteps (P : Cmd → Prop) : Prop where
  bread : ∀ b, P (.bread b)
  bput : ∀ b d, P (.bput b d)
  logWrite : ∀ b, P (.logWrite b)
  inode : ∀ ip, P (.inode ip)
  setInode : ∀ ip d, P (.setInode ip d)
  freeing : P (.panic .freeingFreeBlock)
  range : P (.panic .bmapOutOfRange)

section

variable {P : Cmd → Prop}

theorem uses_panic {α : Type} {e : Panic} (he : P (.panic e)) : Prog.Uses P (panic e : M α) :=
  ⟨he, fun r => r.elim⟩

theorem layered_uses (hP : BlockSteps P) : Layered (fun x => Prog.Uses P x) where
  ret := Prog.uses_ret
  bind := Prog.Uses.bind
  bread b := Prog.uses_call (hP.bread b)
  store b d := (Prog.uses_call (hP.bput b d)).bind (fun _ => Prog.uses_call (hP.logWrite b))
  getInode ip := Prog.uses_call (hP.inode ip)
  setInode ip d := Prog.uses_call (hP.setInode ip d)
  freeing := uses_panic hP.freeing
  range := uses_panic hP.range

/-- A copy that fails leaves its block changed and not logged. -/
theorem uses_writeLoop (hP : BlockSteps P) (sb : Superblock) (ip : Fin NINODE) (src : Source)
    (n fuel tot off : Nat) : Prog.Uses P (writeLoop sb ip src n fuel tot off) := by
  have hX := layered_uses hP
  induction fuel generalizing tot off with
  | zero => exact Prog.uses_ret _
  | succ fuel ih =>
    refine Prog.uses_ite _ ?_ (Prog.uses_ret _)
    refine (hX.bmap sb ip _).bind (fun a => Prog.uses_ite _ (Prog.uses_ret _) ?_)
    refine (hX.bread a).bind (fun d => (Prog.uses_call (hP.bput _ _)).bind (fun _ => ?_))
    exact Prog.uses_ite _ ((Prog.uses_call (hP.logWrite a)).bind (fun _ => ih _ _))
      (Prog.uses_ret _)

theorem uses_writei (hP : BlockSteps P) (sb : Superblock) (ip : Fin NINODE) (src : Source)
    (off n : BitVec 32) : Prog.Uses P (writei sb ip src off n) :=
  (layered_uses hP).writei sb ip src off n (uses_writeLoop hP sb ip src _ _ _ _)

end

/-- A step that never waits. -/
def Cmd.Prompt (c : Cmd) : Prop := ∀ s, perform c s ≠ .wait

theorem prompt_logWrite (b : Nat) : (Cmd.logWrite b).Prompt := by
  intro s h
  change (s.log.logWrite b >>= fun r => Outcome.done ((), { s with log := r.1 })) = _ at h
  unfold Log.logWrite at h
  split at h
  · cases h
  · split at h
    · cases h
    · split at h <;> cases h

theorem prompt_iget (dev inum : Nat) : (Cmd.iget dev inum).Prompt := by
  intro s h
  change s.iget dev inum = _ at h
  unfold Kernel.iget at h
  split at h
  · cases h
  · split at h <;> cases h

theorem prompt_blockSteps : BlockSteps Cmd.Prompt where
  bread _ _ h := nomatch h
  bput _ _ _ h := nomatch h
  logWrite := prompt_logWrite
  inode _ _ h := nomatch h
  setInode _ _ _ h := nomatch h
  freeing _ h := nomatch h
  range _ h := nomatch h

/-- The functions of the inode layer never wait. -/
theorem writei_not_wait (sb : Superblock) (ip : Fin NINODE) (src : Source) (off n : BitVec 32)
    (s : Kernel) : Prog.run perform (writei sb ip src off n) s ≠ .wait :=
  (uses_writei prompt_blockSteps sb ip src off n).not_wait s

theorem readi_not_wait (sb : Superblock) (ip : Fin NINODE) (dst : Dest) (off n : BitVec 32)
    (s : Kernel) : Prog.run perform (readi sb ip dst off n) s ≠ .wait :=
  ((layered_uses prompt_blockSteps).readi sb ip dst off n).not_wait s

end Xv6
