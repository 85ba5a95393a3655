import Mathlib.Data.Finset.Card
import Xv6.Fs.Bitmap
import Xv6.Fs.Copy
import Xv6.Fs.File
import Xv6.Fs.Uses

/-!
# The Blocks a Write Logs

How many blocks `writei` logs, whatever happens on the way.

A block that is new to a file costs two entries of the log, one for the block
and one for the bitmap block that covers it; a block that is already there
costs one. On top of these come the inode, the indirect block, and the bitmap
block of the indirect block if that is new. The last two are paid at most once
in a call, however many blocks are looked up through them.

`LogBound` keeps this account over a piece of a call. The indirect block has a
set of its own, because every piece may log it and it must be counted once.

## Main definitions

* `loggedBlocks`: The blocks that a run logs.
* `LogBound`: An account of the blocks that a piece of a call logs.
* `blocksOf`: The number of blocks that a range of bytes lies in.

## Theorems

* `writeLoop_bound`: What the loop of `writei` logs.
* `writei_logged`: A chunk of `filewrite` logs at most `MAXOPBLOCKS` blocks.
-/

namespace Xv6

open Function Finset Prog

/-- The block that a step logs. -/
def Cmd.logged : Cmd → Option Nat
  | logWrite b => some b
  | _ => none

/-- The blocks that a run logs. -/
def loggedBlocks {α : Type} (x : M α) (s : Kernel) : Finset Nat :=
  ((Prog.issued perform x s).filterMap Cmd.logged).toFinset

section Steps

variable {α β : Type} {s : Kernel} {k : Fin NINODE}

theorem logged_pure (a : α) : loggedBlocks (pure a) s = ∅ := rfl

theorem logged_bread (b : Nat) (f : Block → M α) :
    loggedBlocks (bread b >>= f) s = loggedBlocks (f (s.blk b)) s := rfl

theorem logged_bput (b : Nat) (d : Block) (f : Unit → M α) :
    loggedBlocks (bput b d >>= f) s =
      loggedBlocks (f ()) { s with blk := update s.blk b d } := rfl

theorem logged_getInode (f : Inode → M α) :
    loggedBlocks (getInode k >>= f) s = loggedBlocks (f (s.itable k)) s := rfl

theorem logged_setInode (d : Dinode) (f : Unit → M α) :
    loggedBlocks (setInode k d >>= f) s =
      loggedBlocks (f ()) (s.modInode k (fun i => { i with d := d })) := rfl

theorem logged_bind_done {x : M α} {a : α} {t : Kernel} (f : α → M β)
    (h : run perform x s = .done (a, t)) :
    loggedBlocks (x >>= f) s = loggedBlocks x s ∪ loggedBlocks (f a) t := by
  unfold loggedBlocks
  rw [issued_bind_done perform x f s h, List.filterMap_append, List.toFinset_append]

theorem logged_bind_stop {x : M α} (f : α → M β) (h : ∀ r, run perform x s ≠ .done r) :
    loggedBlocks (x >>= f) s = loggedBlocks x s := by
  unfold loggedBlocks
  rw [issued_bind_stop perform x f s h]

/-- What a sequence logs is what its parts do. -/
theorem logged_bind_subset {x : M α} {f : α → M β} {D : Finset Nat} (hx : loggedBlocks x s ⊆ D)
    (hf : ∀ a t, run perform x s = .done (a, t) → loggedBlocks (f a) t ⊆ D) :
    loggedBlocks (x >>= f) s ⊆ D := by
  by_cases hdone : ∃ r, run perform x s = .done r
  · rcases hdone with ⟨r, hrun⟩
    rw [logged_bind_done f hrun]
    exact union_subset hx (hf r.1 r.2 hrun)
  · rw [logged_bind_stop f (fun r hr => hdone ⟨r, hr⟩)]
    exact hx

theorem logWrite_done {b : Nat} {a : Unit} {t : Kernel}
    (h : run perform (logWrite b) s = .done (a, t)) : t = { s with log := t.log } := by
  rcases (Outcome.bind_eq_done _ _ _).mp ((run_call perform (.logWrite b) s).symm.trans h)
    with ⟨r, _, hr⟩
  cases hr
  rfl

theorem logged_logWrite {D : Finset Nat} {b : Nat} {f : Unit → M α} (hb : b ∈ D)
    (h : ∀ l, loggedBlocks (f ()) { s with log := l } ⊆ D) :
    loggedBlocks (logWrite b >>= f) s ⊆ D := by
  refine logged_bind_subset ?_ (fun a t hrun => ?_)
  · have hone : loggedBlocks (logWrite b) s = {b} := by
      change ((issued perform (call (.logWrite b)) s).filterMap _).toFinset = _
      rw [issued_call]
      rfl
    rw [hone]
    exact singleton_subset_iff.mpr hb
  · rw [logWrite_done hrun]
    exact h t.log

end Steps

section Balloc

variable {sb : Superblock} {s : Kernel}

theorem ballocTake_logged (d : Block) (c : Nat) :
    loggedBlocks (ballocTake sb d c) s ⊆ {sb.bblock c, c} := by
  unfold ballocTake bzero
  rw [logged_bput]
  refine logged_logWrite (mem_insert_self _ _) (fun l => ?_)
  change loggedBlocks (bput c (fun _ => 0) >>= fun _ => logWrite c >>= fun _ => pure c) _ ⊆ _
  rw [logged_bput]
  exact logged_logWrite (mem_insert_of_mem (mem_singleton_self c))
    (fun l => empty_subset _)

theorem ballocTake_done {d : Block} {c a : Nat} {t : Kernel}
    (h : run perform (ballocTake sb d c) s = .done (a, t)) : a = c ∧ t.itable = s.itable := by
  unfold ballocTake bzero at h
  rw [run_bput] at h
  rcases run_bind_inv h with ⟨_, t₁, h₁, h⟩
  change run perform (bput c (fun _ => 0) >>= fun _ => logWrite c >>= fun _ => pure c) _ = _ at h
  rw [run_bput] at h
  rcases run_bind_inv h with ⟨_, t₂, h₂, h⟩
  cases h
  rw [logWrite_done h₂, logWrite_done h₁]
  exact ⟨rfl, rfl⟩

/-- `balloc` finds nothing and logs nothing, or it finds a block and logs that
    and its bitmap block. -/
theorem balloc_logged :
    (run perform (balloc sb) s = .done (0, s) ∧ loggedBlocks (balloc sb) s = ∅) ∨
    ∃ c, c < sb.size ∧ loggedBlocks (balloc sb) s ⊆ {sb.bblock c, c} ∧
      ∀ a t, run perform (balloc sb) s = .done (a, t) → a = c ∧ t.itable = s.itable := by
  by_cases hall : ∀ b, b < sb.size → marked sb s.blk b = true
  · exact Or.inl ⟨balloc_run_none hall, balloc_none (fun x => loggedBlocks x s) logged_bread hall⟩
  · rcases exists_firstFree hall with ⟨c, hc⟩
    refine Or.inr ⟨c, hc.lt, ?_, fun a t h => ?_⟩
    · rw [balloc_first (fun x => loggedBlocks x s) logged_bread hc]
      exact ballocTake_logged _ c
    · rw [balloc_run hc] at h
      exact ballocTake_done h

end Balloc

/-- The steps that blocks are accessed with. Among them only `log_write` panics
    because of the log, and none waits. -/
def Cmd.Plain : Cmd → Prop
  | panic e => e ≠ .tooBigTransaction
  | bread _ => True
  | bput _ _ => True
  | logWrite _ => True
  | inode _ => True
  | setInode _ _ => True
  | _ => False

theorem plain_blockSteps : BlockSteps Cmd.Plain where
  bread _ := trivial
  bput _ _ := trivial
  logWrite _ := trivial
  inode _ := trivial
  setInode _ _ := trivial
  freeing := fun h => Panic.noConfusion h
  range := fun h => Panic.noConfusion h

theorem room_note {l : Log} {B : Finset Nat} {b : Nat} (hb : b ∈ B)
    (h : l.Room ((B \ l.lh.toFinset).card + 1)) :
    (l.note b).Room ((B \ (l.note b).lh.toFinset).card + 1) := by
  by_cases hmem : b ∈ l.lh
  · rw [Log.note, if_pos hmem]
    exact h
  · have hset : (l.note b).lh.toFinset = insert b l.lh.toFinset := by
      rw [Log.note, if_neg hmem, List.toFinset_append, List.toFinset_cons, List.toFinset_nil,
        union_comm, insert_union, empty_union]
    have hin : b ∈ B \ l.lh.toFinset :=
      mem_sdiff.mpr ⟨hb, fun hc => hmem (List.mem_toFinset.mp hc)⟩
    have hcard : (B \ (l.note b).lh.toFinset).card + 1 = (B \ l.lh.toFinset).card := by
      rw [hset, sdiff_insert, card_erase_add_one hin]
    rw [hcard]
    exact h.note b

/-- A run that logs blocks in `B` only does not fill the log, if there was room
    for these blocks and one more. -/
theorem run_of_room {α : Type} {x : M α} (hx : Prog.Uses Cmd.Plain x) (B : Finset Nat)
    (s : Kernel) (hB : loggedBlocks x s ⊆ B)
    (hroom : s.log.Room ((B \ s.log.lh.toFinset).card + 1)) :
    run perform x s ≠ .wait ∧ run perform x s ≠ .panic .tooBigTransaction ∧
      ∀ a t, run perform x s = .done (a, t) → t.log.Room 1 := by
  induction x generalizing s with
  | ret a =>
    refine ⟨nofun, nofun, fun b t h => ?_⟩
    cases h
    exact hroom.mono (by omega)
  | act c k ih =>
    cases c with
    | panic e =>
      refine ⟨nofun, fun h => hx.1 ?_, nofun⟩
      cases h
      rfl
    | bread b => exact ih (s.blk b) (hx.2 _) s hB hroom
    | bput b d => exact ih () (hx.2 _) { s with blk := update s.blk b d } hB hroom
    | inode i => exact ih (s.itable i) (hx.2 _) s hB hroom
    | setInode i d =>
      exact ih () (hx.2 _) (s.modInode i (fun j => { j with d := d })) hB hroom
    | logWrite b =>
      have hstep : perform (.logWrite b) s = .done ((), { s with log := s.log.note b }) := by
        change (s.log.logWrite b >>= _) = _
        rw [Log.logWrite_of_room (hroom.mono (by omega))]
        rfl
      have hlog : loggedBlocks (.act (.logWrite b) k) s =
          insert b (loggedBlocks (k ()) { s with log := s.log.note b }) := by
        unfold loggedBlocks
        rw [issued_act_done perform _ k s hstep]
        exact List.toFinset_cons
      rw [hlog, insert_subset_iff] at hB
      rw [run_act, hstep]
      exact ih () (hx.2 _) _ hB.2 (room_note hB.1 hroom)
    | _ => exact absurd hx.1 id

/-- The indirect block of inode `k`, if there is one. -/
def indirect (s : Kernel) (k : Fin NINODE) : Finset Nat :=
  if (s.itable k).d.addr NDIRECT = 0 then ∅ else {(s.itable k).d.addr NDIRECT}

/-- What a piece `x` of a call on inode `k` logs besides the blocks in `X`: the
    blocks in `D`, and in `J` the indirect block. There are at most `n` blocks in
    `D`, and one more if the piece has allocated the indirect block. The blocks
    in `R a` are accounted for when the result is `a`. -/
structure LogBound {α : Type} (X : Finset Nat) (R : α → Finset Nat) (x : M α) (s : Kernel)
    (k : Fin NINODE) (n : Nat) (D J : Finset Nat) : Prop where
  sub : loggedBlocks x s ⊆ X ∪ (D ∪ J)
  one : J.card ≤ 1
  old : (indirect s k).Nonempty → J ⊆ indirect s k
  card : D.card + (indirect s k).card ≤ n + 1
  ends : ∀ a s', Prog.run perform x s = .done (a, s') →
    J ⊆ indirect s' k ∧ indirect s k ⊆ indirect s' k ∧ R a ⊆ X ∪ D ∧
      D.card + (indirect s k).card ≤ n + (indirect s' k).card

section Bounds

variable {α β : Type} {X : Finset Nat} {R : α → Finset Nat} {s t : Kernel} {k : Fin NINODE}
  {n m : Nat} {D J : Finset Nat}

theorem indirect_congr (h : (t.itable k).d.addr NDIRECT = (s.itable k).d.addr NDIRECT) :
    indirect t k = indirect s k := by
  unfold indirect
  rw [h]

theorem indirect_card_le (s : Kernel) (k : Fin NINODE) : (indirect s k).card ≤ 1 := by
  unfold indirect
  split
  · exact Nat.zero_le _
  · exact Nat.le_refl _

theorem indirect_eq (h : indirect s k ⊆ indirect t k) (hs : (indirect s k).Nonempty) :
    indirect s k = indirect t k :=
  eq_of_subset_of_card_le h
    (Nat.le_trans (indirect_card_le t k) (card_pos.mpr hs))

theorem LogBound.mono {x : M α} (h : LogBound X R x s k n D J) (hn : n ≤ m) :
    LogBound X R x s k m D J := by
  refine ⟨h.sub, h.one, h.old, by have := h.card; omega, fun a s' hrun => ?_⟩
  rcases h.ends a s' hrun with ⟨h₁, h₂, h₃, h₄⟩
  exact ⟨h₁, h₂, h₃, by omega⟩

theorem LogBound.free {x : M α} (hx : loggedBlocks x s ⊆ X)
    (hrun : ∀ a s', run perform x s = .done (a, s') →
      indirect s' k = indirect s k ∧ R a ⊆ X) : LogBound X R x s k 0 ∅ ∅ := by
  have hle := indirect_card_le s k
  refine ⟨hx.trans subset_union_left, Nat.zero_le _, fun _ => empty_subset _, ?_,
    fun a s' hr => ?_⟩
  · rw [card_empty]
    omega
  · rcases hrun a s' hr with ⟨hi, hR⟩
    rw [hi, card_empty]
    exact ⟨empty_subset _, Finset.Subset.refl _, hR.trans subset_union_left,
      Nat.le_refl _⟩

theorem LogBound.idle {x : M α} {a : α} (hlog : loggedBlocks x s = ∅)
    (hrun : run perform x s = .done (a, s)) (ha : R a ⊆ X) :
    ∃ D J, LogBound X R x s k n D J := by
  refine ⟨∅, ∅, LogBound.mono (LogBound.free ?_ (fun b s' hr => ?_)) (Nat.zero_le n)⟩
  · rw [hlog]
    exact empty_subset _
  · cases hrun.symm.trans hr
    exact ⟨rfl, ha⟩

theorem LogBound.ret (a : α) : ∃ D J, LogBound X (fun _ => ∅) (pure a) s k n D J :=
  LogBound.idle rfl rfl (empty_subset _)

theorem LogBound.getInode {f : Inode → M α} {l : Fin NINODE}
    (h : LogBound X R (f (s.itable l)) s k n D J) :
    LogBound X R (getInode l >>= f) s k n D J :=
  ⟨h.sub, h.one, h.old, h.card, h.ends⟩

theorem LogBound.bread {f : Block → M α} {b : Nat} (h : LogBound X R (f (s.blk b)) s k n D J) :
    LogBound X R (bread b >>= f) s k n D J :=
  ⟨h.sub, h.one, h.old, h.card, h.ends⟩

theorem LogBound.bput {f : Unit → M α} {b : Nat} {d : Block}
    (h : LogBound X R (f ()) { s with blk := update s.blk b d } k n D J) :
    LogBound X R (bput b d >>= f) s k n D J :=
  ⟨h.sub, h.one, h.old, h.card, h.ends⟩

/-- Accounts add up. What the first part has accounted for is free for the
    second, and the indirect block is counted once. -/
theorem LogBound.bind {R' : β → Finset Nat} {x : M α} {f : α → M β}
    (h₁ : LogBound X R x s k n D J)
    (h₂ : ∀ a t, run perform x s = .done (a, t) →
      ∃ D' J', LogBound (X ∪ D) R' (f a) t k m D' J') :
    ∃ D' J', LogBound X R' (x >>= f) s k (n + m) D' J' := by
  by_cases hdone : ∃ r, run perform x s = .done r
  · rcases hdone with ⟨⟨a, t⟩, hrun⟩
    rcases h₂ a t hrun with ⟨D', J', h₂⟩
    rcases h₁.ends a t hrun with ⟨hJ, hind, _, hcard⟩
    have hunion := card_union_le D D'
    have hcard' := h₂.card
    refine ⟨D ∪ D', J ∪ J', ?_, ?_, fun hs => ?_, by omega, fun b s' hb => ?_⟩
    · rw [logged_bind_done f hrun]
      have hsub₁ := h₁.sub
      have hsub₂ := h₂.sub
      grind
    · rcases (indirect t k).eq_empty_or_nonempty with hemp | hne
      · rw [hemp, subset_empty] at hJ
        rw [hJ, empty_union]
        exact h₂.one
      · exact Nat.le_trans (card_le_card (union_subset hJ (h₂.old hne)))
          (indirect_card_le t k)
    · have heq := indirect_eq hind hs
      refine union_subset (h₁.old hs) ?_
      rw [heq] at hs ⊢
      exact h₂.old hs
    · rw [run_bind, hrun] at hb
      rcases h₂.ends b s' hb with ⟨hJ', hind', hR', hcard''⟩
      refine ⟨union_subset (hJ.trans hind') hJ', hind.trans hind', ?_, by omega⟩
      rw [← union_assoc]
      exact hR'
  · have hno : ∀ r, run perform x s ≠ .done r := fun r hr => hdone ⟨r, hr⟩
    refine ⟨D, J, ?_, h₁.one, h₁.old, by have := h₁.card; omega, fun b s' hb => ?_⟩
    · rw [logged_bind_stop f hno]
      exact h₁.sub
    · rcases run_bind_inv hb with ⟨a, t, hrun, _⟩
      exact absurd hrun (hno _)

theorem LogBound.logWrite {f : Unit → M α} {b : Nat} (hb : b ∈ X)
    (h : ∀ l, ∃ D J, LogBound X R (f ()) { s with log := l } k n D J) :
    ∃ D J, LogBound X R (logWrite b >>= f) s k n D J := by
  have hfirst : LogBound X (fun _ => ∅) (Xv6.logWrite b) s k 0 ∅ ∅ := by
    refine LogBound.free ?_ (fun a s' hrun => ?_)
    · exact logged_logWrite hb (fun l => empty_subset _)
    · rw [logWrite_done hrun]
      exact ⟨rfl, empty_subset _⟩
  rw [← Nat.zero_add n]
  refine hfirst.bind (fun a t hrun => ?_)
  rw [logWrite_done hrun, union_empty]
  exact h t.log

end Bounds

section Bmap

variable {sb : Superblock} {s : Kernel} {k : Fin NINODE}

/-- The way `bmap` gets a block: `balloc`, and storing the address. -/
def ballocStore (sb : Superblock) (store : Nat → M Unit) : M Nat := do
  let addr ← balloc sb
  if addr = 0 then return 0
  else
    store addr
    return addr

theorem ballocStore_logged (store : Nat → M Unit) {L : Finset Nat}
    (hL : ∀ c t, loggedBlocks (store c) t ⊆ L) :
    (run perform (ballocStore sb store) s = .done (0, s) ∧
      loggedBlocks (ballocStore sb store) s = ∅) ∨
    ∃ c, c < sb.size ∧ loggedBlocks (ballocStore sb store) s ⊆ {sb.bblock c, c} ∪ L ∧
      ∀ a s', run perform (ballocStore sb store) s = .done (a, s') →
        a = c ∧ ∃ t, t.itable = s.itable ∧
          (c = 0 ∧ s' = t ∨ c ≠ 0 ∧ run perform (store c) t = .done ((), s')) := by
  unfold ballocStore
  rcases @balloc_logged sb s with ⟨hrun, hlog⟩ | ⟨c, hc, hlog, hends⟩
  · refine Or.inl ⟨?_, ?_⟩
    · rw [run_bind, hrun, Outcome.done_bind, if_pos rfl]
      rfl
    · rw [logged_bind_done _ hrun, hlog, if_pos rfl, logged_pure, union_empty]
  · refine Or.inr ⟨c, hc, ?_, fun a s' hrun => ?_⟩
    · refine logged_bind_subset (hlog.trans subset_union_left) (fun a t _ => ?_)
      split
      · exact empty_subset _
      · exact logged_bind_subset ((hL a t).trans subset_union_right)
          (fun _ _ _ => empty_subset _)
    · rcases run_bind_inv hrun with ⟨b, t, hb, hrest⟩
      rcases hends b t hb with ⟨rfl, htab⟩
      by_cases hb0 : b = 0
      · rw [if_pos hb0] at hrest
        cases hrest
        exact ⟨hb0.symm, s', htab, Or.inl ⟨hb0, rfl⟩⟩
      · rw [if_neg hb0] at hrest
        rcases run_bind_inv hrest with ⟨_, t', hstore, hret⟩
        cases hret
        exact ⟨rfl, t, htab, Or.inr ⟨hb0, hstore⟩⟩

/-- Block `a`, if it is one. -/
def ofAddr (a : Nat) : Finset Nat := if a = 0 then ∅ else {a}

theorem ofAddr_subset {a : Nat} {D : Finset Nat} (h : a ≠ 0 → a ∈ D) : ofAddr a ⊆ D := by
  unfold ofAddr
  split
  · exact empty_subset _
  · next ha => exact singleton_subset_iff.mpr (h ha)

theorem ballocStore_bound {X : Finset Nat} (store : Nat → M Unit) {L : Finset Nat}
    (hL : ∀ c t, loggedBlocks (store c) t ⊆ L) (hLJ : L ⊆ indirect s k)
    (hstore : ∀ c t s', c < sb.size → t.itable = s.itable →
      run perform (store c) t = .done ((), s') → indirect s' k = indirect s k) :
    ∃ D J, LogBound X ofAddr (ballocStore sb store) s k 2 D J := by
  have hle := indirect_card_le s k
  rcases @ballocStore_logged sb s store L hL with ⟨hrun, hlog⟩ | ⟨c, hc, hlog, hends⟩
  · exact LogBound.idle hlog hrun (ofAddr_subset (fun h => absurd rfl h))
  · have htwo : ({sb.bblock c, c} : Finset Nat).card ≤ 2 := card_le_two
    refine ⟨{sb.bblock c, c}, L, ?_, ?_, fun _ => hLJ, by omega, fun a s' hr => ?_⟩
    · exact hlog.trans subset_union_right
    · exact Nat.le_trans (card_le_card hLJ) hle
    · rcases hends a s' hr with ⟨rfl, t, htab, hcase⟩
      have hsame : indirect s' k = indirect s k := by
        rcases hcase with ⟨_, rfl⟩ | ⟨_, hrun⟩
        · exact indirect_congr (by rw [htab])
        · exact hstore a t s' hc htab hrun
      rw [hsame]
      refine ⟨hLJ, Finset.Subset.refl _, ofAddr_subset (fun _ => ?_), by omega⟩
      exact mem_union_right _ (mem_insert_of_mem (mem_singleton_self _))

/-- A block that is there is returned, to be logged later. -/
theorem LogBound.hit {X : Finset Nat} (a : Nat) : LogBound X ofAddr (pure a) s k 1 {a} ∅ := by
  have hle := indirect_card_le s k
  refine ⟨empty_subset _, Nat.zero_le _, fun _ => empty_subset _, ?_,
    fun b s' hrun => ?_⟩
  · rw [card_singleton]
    omega
  · cases hrun
    rw [card_singleton]
    exact ⟨empty_subset _, Finset.Subset.refl _, ofAddr_subset (fun _ =>
      mem_union_right _ (mem_singleton_self _)), Nat.le_refl _⟩

/-- The part of `bmap` that looks into the indirect block. -/
def bmapEntry (sb : Superblock) (ind j : Nat) : M Nat := do
  let d ← bread ind
  if addrAt d j = 0 then ballocStore sb (fun addr => do
    bput ind (putAddr d j addr)
    logWrite ind)
  else return addrAt d j

theorem bmapEntry_bound {X : Finset Nat} (ind j : Nat) (hind : indirect s k = {ind}) :
    ∃ D J, LogBound X ofAddr (bmapEntry sb ind j) s k
      (if addrAt (s.blk ind) j = 0 then 2 else 1) D J := by
  unfold bmapEntry
  by_cases ha : addrAt (s.blk ind) j = 0
  · rw [if_pos ha]
    have hb := @ballocStore_bound sb s k X (fun addr => do
      bput ind (putAddr (s.blk ind) j addr)
      logWrite ind) {ind} (fun c t => ?_) (by rw [hind]) (fun c t s' _ htab hrun => ?_)
    · rcases hb with ⟨D, J, hb⟩
      refine ⟨D, J, LogBound.bread ?_⟩
      rw [if_pos ha]
      exact hb
    · rw [logged_bput]
      exact logged_logWrite (mem_singleton_self _) (fun l => empty_subset _)
    · rw [run_bput] at hrun
      rw [logWrite_done hrun]
      exact indirect_congr (by rw [htab])
  · rw [if_neg ha]
    refine ⟨{addrAt (s.blk ind) j}, ∅, LogBound.bread ?_⟩
    rw [if_neg ha]
    exact LogBound.hit _

/-- The indirect block is there already. -/
theorem bmapIndirect_hit (h12 : (s.itable k).d.addr NDIRECT ≠ 0) :
    run perform (bmapIndirect sb k) s = .done ((s.itable k).d.addr NDIRECT, s) ∧
      loggedBlocks (bmapIndirect sb k) s = ∅ := by
  unfold bmapIndirect
  rw [run_getInode, logged_getInode, if_neg h12]
  exact ⟨rfl, rfl⟩

/-- The indirect block is allocated. Its bitmap block is the one block that the
    account has room for when the inode has no indirect block yet. -/
theorem bmapIndirect_logged (hsize : sb.size < 2 ^ 32) (h12 : (s.itable k).d.addr NDIRECT = 0) :
    (run perform (bmapIndirect sb k) s = .done (0, s) ∧
      loggedBlocks (bmapIndirect sb k) s = ∅) ∨
    ∃ c, loggedBlocks (bmapIndirect sb k) s ⊆ {sb.bblock c, c} ∧
      ∀ a s', run perform (bmapIndirect sb k) s = .done (a, s') →
        a = c ∧ (c = 0 → s'.itable = s.itable) ∧ (c ≠ 0 → indirect s' k = {c}) := by
  have hprog : ∀ {β : Type} (F : M Nat → β),
      (∀ f : Inode → M Nat, F (getInode k >>= f) = F (f (s.itable k))) →
      F (bmapIndirect sb k) =
        F (ballocStore sb (fun addr => setInode k ((s.itable k).d.setAddr NDIRECT addr))) := by
    intro β F hF
    unfold bmapIndirect
    rw [hF, if_pos h12]
    rfl
  rw [hprog (fun x => run perform x s) (fun f => run_getInode f),
    hprog (fun x => loggedBlocks x s) (fun f => logged_getInode f)]
  rcases @ballocStore_logged sb s (fun addr =>
    setInode k ((s.itable k).d.setAddr NDIRECT addr)) ∅ (fun _ _ => empty_subset _) with
    hnone | ⟨c, hc, hlog, hends⟩
  · exact Or.inl hnone
  · rw [union_empty] at hlog
    refine Or.inr ⟨c, hlog, fun a s' hrun => ?_⟩
    rcases hends a s' hrun with ⟨rfl, t, htab, ⟨h0, rfl⟩ | ⟨h0, hset⟩⟩
    · exact ⟨rfl, fun _ => htab, fun hne => absurd h0 hne⟩
    · refine ⟨rfl, fun hz => absurd hz h0, fun _ => ?_⟩
      cases hset
      have haddr : (((t.modInode k (fun i => { i with
          d := (s.itable k).d.setAddr NDIRECT a })).itable k).d).addr NDIRECT = a := by
        simp only [Kernel.modInode, update_self]
        rw [Dinode.addr_setAddr _ _ (Nat.lt_succ_self _) (by omega), if_pos rfl]
      rw [indirect, haddr, if_neg h0]

/-- What `bmap` logs: nothing if the block is there, and else the block and its
    bitmap block. The block returned is accounted for either way. -/
theorem bmap_bound (hsize : sb.size < 2 ^ 32) {X : Finset Nat} (bn : Nat) :
    ∃ D J, LogBound X ofAddr (bmap sb k bn) s k
      (if ptrOf s.blk (s.itable k).d (posOf bn) = 0 then 2 else 1) D J := by
  by_cases hdir : bn < NDIRECT
  · have hptr : ptrOf s.blk (s.itable k).d (posOf bn) = (s.itable k).d.addr bn := by
      rw [posOf, if_pos hdir, ptrOf_direct _ _ _ (Nat.lt_succ_of_lt hdir)]
    rw [hptr]
    unfold bmap
    by_cases ha : (s.itable k).d.addr bn = 0
    · rw [if_pos ha]
      have hb := @ballocStore_bound sb s k X
        (fun addr => setInode k ((s.itable k).d.setAddr bn addr)) ∅
        (fun _ _ => empty_subset _) (empty_subset _)
        (fun c t s' hc htab hrun => ?_)
      · rcases hb with ⟨D, J, hb⟩
        refine ⟨D, J, LogBound.getInode ?_⟩
        rw [if_pos hdir, if_pos ha]
        exact hb
      · cases hrun
        refine indirect_congr ?_
        simp only [Kernel.modInode, update_self]
        rw [Dinode.addr_setAddr _ _ (Nat.lt_succ_of_lt hdir) (by omega),
          if_neg (Nat.ne_of_gt hdir)]
    · rw [if_neg ha]
      refine ⟨{(s.itable k).d.addr bn}, ∅, LogBound.getInode ?_⟩
      rw [if_pos hdir, if_neg ha]
      exact LogBound.hit _
  · by_cases hj : bn - NDIRECT < NINDIRECT
    · have hprog : ∀ {n : Nat}, (∃ D J, LogBound X ofAddr (bmapIndirect sb k >>= fun ind =>
          if ind = 0 then return 0 else bmapEntry sb ind (bn - NDIRECT)) s k n D J) →
          ∃ D J, LogBound X ofAddr (bmap sb k bn) s k n D J := by
        rintro n ⟨D, J, h⟩
        unfold bmap
        refine ⟨D, J, LogBound.getInode ?_⟩
        rw [if_neg hdir, if_pos hj]
        exact h
      apply hprog
      by_cases h12 : (s.itable k).d.addr NDIRECT = 0
      · have hptr : ptrOf s.blk (s.itable k).d (posOf bn) = 0 := by
          rw [posOf_indirect hdir, ptrOf, if_neg (by omega), if_neg (fun hc => hc.2 h12)]
        have hind : indirect s k = ∅ := if_pos h12
        rw [if_pos hptr]
        rcases bmapIndirect_logged hsize h12 with ⟨hrun, hlog⟩ | ⟨c, hlog, hends⟩
        · -- No block for the indirect block: `bmap` returns 0.
          refine LogBound.idle ?_ ?_ (ofAddr_subset (fun h => absurd rfl h))
          · rw [logged_bind_done _ hrun, hlog, if_pos rfl, logged_pure, union_empty]
          · rw [run_bind, hrun, Outcome.done_bind, if_pos rfl]
            rfl
        · by_cases hc : c = 0
          · -- Block 0 was free; taken for an address it means that there is none.
            have htwo : ({sb.bblock c, c} : Finset Nat).card ≤ 2 := card_le_two
            refine ⟨{sb.bblock c, c}, ∅, ?_, Nat.zero_le _, fun _ => empty_subset _, ?_,
              fun a s' hr => ?_⟩
            · refine (logged_bind_subset hlog (fun a t hr => ?_)).trans
                (subset_union_left.trans subset_union_right)
              rw [if_pos ((hends a t hr).1.trans hc)]
              exact empty_subset _
            · rw [hind, card_empty]
              omega
            · rcases run_bind_inv hr with ⟨b, t, hb, hrest⟩
              rcases hends b t hb with ⟨hbc, htab, _⟩
              rw [if_pos (hbc.trans hc)] at hrest
              cases hrest
              have hsame : indirect s' k = indirect s k := indirect_congr (by rw [htab hc])
              rw [hsame]
              exact ⟨empty_subset _, Finset.Subset.refl _,
                ofAddr_subset (fun h => absurd rfl h), by omega⟩
          · have hfirst : LogBound X (fun _ => ∅) (bmapIndirect sb k) s k 0 {sb.bblock c} {c} := by
              refine ⟨?_, Nat.le_refl _, fun hne => ?_, ?_, fun a s' hr => ?_⟩
              · exact hlog.trans subset_union_right
              · rw [hind] at hne
                exact absurd hne not_nonempty_empty
              · rw [hind, card_empty, card_singleton]
              · rw [hind, (hends a s' hr).2.2 hc]
                exact ⟨Finset.Subset.refl _, empty_subset _, empty_subset _,
                  Nat.le_refl _⟩
            rw [← Nat.zero_add 2]
            refine hfirst.bind (fun a t hr => ?_)
            rcases hends a t hr with ⟨rfl, _, hnew⟩
            rw [if_neg hc]
            rcases @bmapEntry_bound sb t k (X ∪ {sb.bblock a}) a (bn - NDIRECT) (hnew hc) with
              ⟨D, J, h⟩
            refine ⟨D, J, h.mono ?_⟩
            split <;> omega
      · have hptr : ptrOf s.blk (s.itable k).d (posOf bn) =
            addrAt (s.blk ((s.itable k).d.addr NDIRECT)) (bn - NDIRECT) := by
          rw [posOf_indirect hdir, ptrOf_indirect _ hj h12]
        rcases @bmapIndirect_hit sb s k h12 with ⟨hrun, hlog⟩
        rw [hptr]
        rcases LogBound.idle (X := X) (R := fun _ => ∅) (k := k) (n := 0) hlog hrun
          (empty_subset _) with ⟨D, J, hfirst⟩
        rw [← Nat.zero_add (if addrAt (s.blk ((s.itable k).d.addr NDIRECT)) (bn - NDIRECT) = 0
          then 2 else 1)]
        refine hfirst.bind (fun a t hr => ?_)
        rw [hrun] at hr
        cases hr
        rw [if_neg h12]
        exact bmapEntry_bound _ _ (if_neg h12)
    · refine ⟨∅, ∅, LogBound.mono (n := 0) ?_ (Nat.zero_le _)⟩
      unfold bmap
      refine LogBound.getInode ?_
      rw [if_neg hdir, if_neg hj]
      refine LogBound.free (empty_subset _) (fun a s' hrun => ?_)
      cases hrun

end Bmap

/-- The number of blocks that `m` bytes from offset `off` on lie in. -/
def blocksOf (off m : Nat) : Nat := if m = 0 then 0 else (off % BSIZE + m - 1) / BSIZE + 1

theorem blocksOf_cut (off m : Nat) (hm : 0 < m) :
    blocksOf off m = 1 + blocksOf (off + min m (BSIZE - off % BSIZE))
      (m - min m (BSIZE - off % BSIZE)) := by
  unfold blocksOf
  rw [if_neg (by omega)]
  by_cases hlast : m ≤ BSIZE - off % BSIZE
  · rw [Nat.min_eq_left hlast, Nat.sub_self, if_pos rfl]
    unfold BSIZE at hlast ⊢
    omega
  · rw [Nat.min_eq_right (by omega), if_neg (by omega)]
    unfold BSIZE at hlast ⊢
    omega

section Write

variable {sb : Superblock} {s : Kernel} {k : Fin NINODE}

/-- What is left of a write costs two blocks for each block of the file, or one
    for the first of them if it is there. -/
def budget (s : Kernel) (k : Fin NINODE) (off m : Nat) : Nat :=
  if m = 0 then 0
  else (if ptrOf s.blk (s.itable k).d (posOf (off / BSIZE)) = 0 then 2 else 1) +
    2 * (blocksOf off m - 1)

theorem budget_le (s : Kernel) (k : Fin NINODE) (off m : Nat) :
    budget s k off m ≤ 2 * blocksOf off m := by
  unfold budget
  split
  · exact Nat.zero_le _
  · next hm =>
    have hpos := blocksOf_cut off m (Nat.pos_of_ne_zero hm)
    split <;> omega

theorem writeLoop_bound (hsize : sb.size < 2 ^ 32) (src : Source) (n fuel : Nat) (X : Finset Nat)
    (s : Kernel) (tot off : Nat) :
    ∃ D J, LogBound X (fun _ => ∅) (writeLoop sb k src n fuel tot off) s k
      (budget s k off (n - tot)) D J := by
  induction fuel generalizing X s tot off with
  | zero => exact LogBound.ret _
  | succ fuel ih =>
    unfold writeLoop
    by_cases hlt : tot < n
    · rw [if_pos hlt, budget, if_neg (by omega)]
      have hcut := blocksOf_cut off (n - tot) (by omega)
      generalize hm : min (n - tot) (BSIZE - off % BSIZE) = m at hcut
      rcases @bmap_bound sb s k hsize X (off / BSIZE) with ⟨D, J, hfirst⟩
      refine hfirst.bind (fun a t hrun => ?_)
      by_cases ha : a = 0
      · rw [if_pos ha]
        exact LogBound.ret _
      · have hmem : a ∈ X ∪ D := by
          have hsub := (hfirst.ends a t hrun).2.2.1
          rw [ofAddr, if_neg ha] at hsub
          exact singleton_subset_iff.mp hsub
        have hrest : ∀ u, ∃ D' J', LogBound (X ∪ D) (fun _ => ∅)
            (writeLoop sb k src n fuel (tot + m) (off + m)) u k
            (2 * (blocksOf off (n - tot) - 1)) D' J' := by
          intro u
          rcases ih (X ∪ D) u (tot + m) (off + m) with ⟨D', J', h⟩
          have hle := budget_le u k (off + m) (n - (tot + m))
          refine ⟨D', J', h.mono ?_⟩
          rw [Nat.sub_sub] at hcut
          omega
        -- Whether or not the copy succeeds.
        have hcopy : ∀ u, ∃ D' J', LogBound (X ∪ D) (fun _ => ∅) (do
            if (src.fetch tot m).2 then
              logWrite a
              writeLoop sb k src n fuel (tot + m) (off + m)
            else return (tot, off)) u k (2 * (blocksOf off (n - tot) - 1)) D' J' := by
          intro u
          split
          · exact LogBound.logWrite hmem (fun l => hrest _)
          · exact LogBound.ret _
        rw [if_neg ha]
        rcases hcopy { t with blk := update t.blk a (Bytes.splice (t.blk a)
          (off % BSIZE) (src.fetch tot m).1) } with ⟨D', J', h⟩
        exact ⟨D', J', LogBound.bread (LogBound.bput h)⟩
    · rw [if_neg hlt]
      exact LogBound.ret _

theorem iupdate_logged {α : Type} (r : α) :
    loggedBlocks (iupdate sb k >>= fun _ => pure r) s ⊆ {sb.iblock (s.itable k).inum} := by
  refine logged_bind_subset ?_ (fun _ _ _ => empty_subset _)
  unfold iupdate
  rw [logged_getInode, logged_bread, logged_bput]
  exact logged_logWrite (mem_singleton_self _) (fun l => empty_subset _)

/-- A file has a block wherever it has a byte. -/
def NoHoles (s : Kernel) (k : Fin NINODE) : Prop :=
  ∀ bn, bn * BSIZE < (s.itable k).d.size.toNat → ptrOf s.blk (s.itable k).d (posOf bn) ≠ 0

/-- A chunk costs seven blocks for its contents, whether it starts at a block
    boundary and lies in three blocks, or lies in four of which the first is
    there. -/
theorem budget_chunk (hholes : NoHoles s k) (off m : Nat) (hm : m ≤ maxWrite)
    (hoff : off ≤ (s.itable k).d.size.toNat) : budget s k off m ≤ 7 := by
  have hmax : maxWrite = 3072 := by decide
  have hle := budget_le s k off m
  by_cases hstart : off % BSIZE = 0
  · have hthree : blocksOf off m ≤ 3 := by
      unfold blocksOf
      unfold BSIZE at hstart ⊢
      split <;> omega
    omega
  · have hfour : blocksOf off m ≤ 4 := by
      unfold blocksOf
      unfold BSIZE at hstart ⊢
      split <;> omega
    have hfirst := hholes (off / BSIZE) (by unfold BSIZE at hstart ⊢; omega)
    unfold budget
    rw [if_neg hfirst]
    split <;> omega

theorem writeLoop_logged (hsize : sb.size < 2 ^ 32) (hholes : NoHoles s k) (src : Source)
    (n off : Nat) (hn : n ≤ maxWrite) (hoff : off ≤ (s.itable k).d.size.toNat) :
    (loggedBlocks (writeLoop sb k src n n 0 off) s).card + 1 ≤ MAXOPBLOCKS := by
  rcases @writeLoop_bound sb k hsize src n n ∅ s 0 off with ⟨D, J, h⟩
  have hbudget := budget_chunk hholes off (n - 0) hn hoff
  have hcard := card_le_card h.sub
  have hunion := card_union_le D J
  have h₁ := h.one
  have h₂ := h.card
  have hmax : MAXOPBLOCKS = 10 := rfl
  rw [empty_union] at hcard
  omega

/-- A chunk of `filewrite` logs at most `MAXOPBLOCKS` different blocks, however
    the disk is laid out and whether or not the write gets to its end. -/
theorem writei_logged (sb : Superblock) (hsize : sb.size < 2 ^ 32) (s : Kernel) (k : Fin NINODE)
    (hholes : NoHoles s k) (src : Source) (off n : BitVec 32) (hn : n.toNat ≤ maxWrite) :
    (loggedBlocks (writei sb k src off n) s).card ≤ MAXOPBLOCKS := by
  unfold writei
  rw [logged_getInode]
  by_cases hout : (s.itable k).d.size < off ∨ off + n < off
  · rw [if_pos hout]
    exact Nat.zero_le _
  · rw [if_neg hout]
    by_cases hbig : MAXFILE * BSIZE < (off + n).toNat
    · rw [if_pos hbig]
      exact Nat.zero_le _
    · rw [if_neg hbig]
      have hoff : off.toNat ≤ (s.itable k).d.size.toNat :=
        Nat.le_of_not_lt (fun hc => hout (Or.inl hc))
      have hloop := @writeLoop_logged sb s k hsize hholes src n.toNat off.toNat hn hoff
      by_cases hdone : ∃ r, run perform (writeLoop sb k src n.toNat n.toNat 0 off.toNat) s =
          .done r
      · rcases hdone with ⟨⟨r, t⟩, hrun⟩
        rw [logged_bind_done _ hrun, logged_getInode]
        have hend : loggedBlocks (do
            if (t.itable k).d.size.toNat < r.2 then
              setInode k { (t.itable k).d with size := BitVec.ofNat 32 r.2 }
            iupdate sb k
            return (r.1 : Int)) t ⊆ {sb.iblock (t.itable k).inum} := by
          by_cases hgrow : (t.itable k).d.size.toNat < r.2
          · rw [if_pos hgrow, logged_setInode]
            have hinum : ((t.modInode k (fun i => { i with
                d := { (t.itable k).d with size := BitVec.ofNat 32 r.2 } })).itable k).inum =
                (t.itable k).inum := by
              simp only [Kernel.modInode, update_self]
            rw [← hinum]
            exact iupdate_logged _
          · rw [if_neg hgrow]
            exact iupdate_logged _
        refine Nat.le_trans (card_le_card (union_subset_union_right hend))
          (Nat.le_trans (card_union_le _ _) ?_)
        rw [card_singleton]
        exact hloop
      · rw [logged_bind_stop _ (fun r hr => hdone ⟨r, hr⟩)]
        exact Nat.le_of_succ_le hloop

end Write

/-- The kernel in a transaction, with a file of one byte, in block 46, as entry 0 of its
    table. The blocks up to this one are in use. -/
def oneByte : Kernel :=
  (lowMarks 0x7f).modInode ⟨0, ninode_pos⟩ (fun i =>
    { i with d := { Dinode.zero with type := T_FILE, size := 1 }.setAddr 0 46 })

/-- A full chunk from user memory is written behind the one byte of a file. It goes to that
    block and to three new ones. -/
theorem writei_logged_oneByte :
    (loggedBlocks (writei mkfsSb ⟨0, by decide⟩ (.user (fun _ => some 7) 0x1000) 1 3072)
      oneByte).card ≤ MAXOPBLOCKS ∧
    {46, 47, 48, 49} ⊆ loggedBlocks (writei mkfsSb ⟨0, by decide⟩
      (.user (fun _ => some 7) 0x1000) 1 3072) oneByte := by
  refine ⟨writei_logged mkfsSb (by decide) oneByte _ (fun bn hbn => ?_) _ _ _ (by decide),
    by decide +kernel⟩
  have h1 : (oneByte.itable ⟨0, by decide⟩).d.size.toNat = 1 := by decide
  rw [h1] at hbn
  rw [show bn = 0 by unfold BSIZE at hbn; omega]
  decide

end Xv6
