import Xv6.Fs.View

/-!
# Steps Keep the Counts

Every step that a view permits keeps reference counts exact, whatever the other
processes are in the middle of.

The steps change the inode table, the file table, the pipes, the log or the
process table. There is one lemma for a change to each of them, which says what
has to be true of the entry and of the view; the lemmas for the steps follow
from these.
-/

namespace Xv6

open Function

section Facts

variable {s : Kernel} {W : Fin NPROC → View} {p : Fin NPROC} {v w : View}

theorem unowned_update (h : v.procs = (W p).procs) (q : Fin NPROC) (n : Nat) :
    unowned (update W p v) q n = unowned W q n := by
  unfold unowned
  simp only [update_proj View.procs h]

theorem not_gone {st : ProcState} {c : Prop} [Decidable c]
    (h : st = if c then .runnable else .used) : ¬(st = .unused ∨ st = .zombie) := by
  rw [h]
  split <;> decide

/-- An entry changes, and is not for the inode of another one. -/
theorem Sole.update {t : Fin NINODE → Inode} (h : Sole t) (k : Fin NINODE) (x : Inode)
    (hx : ∀ j, j ≠ k → 0 < x.ref → 0 < (t j).ref → ¬(x.dev = (t j).dev ∧ x.inum = (t j).inum)) :
    Sole (Function.update t k x) := by
  intro i j hi hj hdev hinum
  by_cases hik : i = k
  · by_cases hjk : j = k
    · rw [hik, hjk]
    · rw [hik, update_self] at hi hdev hinum
      rw [update_of_ne hjk] at hj hdev hinum
      exact absurd ⟨hdev, hinum⟩ (hx j hjk hi hj)
  · rw [update_of_ne hik] at hi hdev hinum
    by_cases hjk : j = k
    · rw [hjk, update_self] at hj hdev hinum
      exact absurd ⟨hdev.symm, hinum.symm⟩ (hx i hik hj hi)
    · rw [update_of_ne hjk] at hj hdev hinum
      exact h i j hi hj hdev hinum

/-- An entry stays that of its inode, and gets no first reference. -/
theorem Sole.keep {t : Fin NINODE → Inode} (h : Sole t) (k : Fin NINODE) (x : Inode)
    (href : 0 < x.ref → 0 < (t k).ref) (hdev : x.dev = (t k).dev) (hinum : x.inum = (t k).inum) :
    Sole (Function.update t k x) := by
  refine h.update k x (fun j hj hpos hjpos hsame => hj ?_)
  rw [hdev, hinum] at hsame
  exact (h k j (href hpos) hjpos hsame.1 hsame.2).symm

variable (h : Counted s W)

include h

theorem Counted.fil_le (f : Fin NFILE) :
    ((W p).fil f : Int) ≤ (s.ftable f).ref := by
  have hs := le_sum (fun q => (W q).fil f) p
  rw [h.files]
  omega

theorem Counted.fil_add_le {q : Fin NPROC} (hpq : q ≠ p) (f : Fin NFILE) :
    ((W q).fil f + (W p).fil f : Int) ≤ (s.ftable f).ref := by
  have hs := add_le_sum (fun q => (W q).fil f) hpq
  rw [h.files]
  omega

theorem Counted.ref_nonneg (f : Fin NFILE) : 0 ≤ (s.ftable f).ref := by
  rw [h.files]
  exact Int.natCast_nonneg _

theorem Counted.reach {k : Fin NINODE} (hk : (W p).Reach k) :
    1 ≤ (s.itable k).ref := by
  rw [h.inodes]
  rcases hk with hk | ⟨f, hf, hs⟩
  · have hs := le_sum (fun q => (W q).ino k) p
    omega
  · have hone : (s.ftable f).inodes k = 1 := if_pos (h.seen p f k hs hf)
    have hs := le_sum (fun f => (s.ftable f).inodes k) f
    omega

/-- Control over a process is with one view. -/
theorem Counted.procs_none {q : Fin NPROC} (hq : (W p).procs q ≠ none) (p' : Fin NPROC)
    (hp : p' ≠ p) : (W p').procs q = none := by
  by_contra hc
  exact hp (h.owner p' p q hc hq)

/-- The process table changes, apart from what the counts depend on. -/
theorem Counted.congr_proc (g : Fin NPROC → Proc)
    (hproc : ∀ q, (g q).fds = (s.proc q).fds)
    (hstate : ∀ q, (g q).state = (s.proc q).state ∨
      (s.proc q).state = .zombie ∧ (g q).state = .unused) : Counted { s with proc := g } W := by
  refine { h with inodes := ?_, files := ?_, procs := fun p q o ho => ?_, gone := fun q hq => ?_ }
  · simp only [hproc]
    exact h.inodes
  · simp only [hproc]
    exact h.files
  · rcases h.procs p q o ho with ⟨h₁, h₂⟩
    refine ⟨(hproc q).trans h₁, ?_⟩
    rcases hstate q with hsame | ⟨hz, _⟩
    · exact hsame.trans h₂
    · exact absurd (Or.inr hz) (not_gone h₂)
  · refine (hproc q).trans ?_
    rcases hstate q with hsame | ⟨hz, _⟩
    · simp only [hsame] at hq
      exact h.gone q hq
    · exact h.gone q (Or.inr hz)

theorem Counted.refs (hw : W p = w) (t : Fin NINODE → Inode)
    (T : Fin NFILE → File) (ps : List PipePage) (l : Log) (hprocs : v.procs = w.procs)
    (hops : l.outstanding + w.ops = s.log.outstanding + v.ops) (hidle : l.committing = false)
    (hlock : ∀ k q, (t k).lock = some q ↔ (update W p v q).lock k = true)
    (hino : ∀ k, (t k).ref + (∑ f, (s.ftable f).inodes k + w.ino k : Nat) =
      (s.itable k).ref + (∑ f, (T f).inodes k + v.ino k : Nat))
    (hfil : ∀ f, (T f).ref + w.fil f = (s.ftable f).ref + v.fil f)
    (hfree : ∀ f, (T f).ref = 0 → (T f).type = .none)
    (hends : ∀ pi wr, endOpen ps pi wr + (∑ f, (s.ftable f).ends pi wr + w.pip pi wr) =
      endOpen s.pipes pi wr + (∑ f, (T f).ends pi wr + v.pip pi wr))
    (hpages : ∀ x ∈ ps, x.freed = if x.readopen = false ∧ x.writeopen = false then 1 else 0)
    (hgood : v.Good)
    (hfresh : ∀ f, v.fresh f = true → (T f).ref = 1 ∧ (T f).type = .none ∧ v.fil f = 1)
    (hseen : ∀ f k, v.seen f = some k → 1 ≤ v.fil f → (T f).type.isInode = true ∧ (T f).ip = k)
    (hothers : ∀ q f, q ≠ p → 1 ≤ (W q).fil f → (T f).type = (s.ftable f).type ∧
      (T f).ip = (s.ftable f).ip ∧ ((W q).fresh f = true → (T f).ref = (s.ftable f).ref))
    (hsole : Sole t) :
    Counted { s with itable := t, ftable := T, pipes := ps, log := l } (update W p v) := by
  subst hw
  have hown := unowned_update hprocs
  refine ⟨fun k => ?_, fun f => ?_, hfree, fun pi wr => ?_, hpages, ?_, hidle, hlock,
    (forall_update_iff W (fun _ u => u.Good)).mpr ⟨hgood, fun q _ => h.good q⟩,
    (forall_update_iff W (fun _ u => ∀ f, u.fresh f = true →
      (T f).ref = 1 ∧ (T f).type = .none ∧ u.fil f = 1)).mpr ⟨hfresh, fun q hq f hf => ?_⟩,
    (forall_update_iff W (fun _ u => ∀ f k, u.seen f = some k → 1 ≤ u.fil f →
      (T f).type.isInode = true ∧ (T f).ip = k)).mpr ⟨hseen, fun q hq f k hs hf => ?_⟩,
    fun q r o => ?_, fun q q' r => ?_, h.gone, hsole⟩
  · have hsum := sum_update (fun _ u => u.ino k) W p v
    have hold := h.inodes k
    have hk := hino k
    simp only [hown]
    omega
  · have hsum := sum_update (fun _ u => u.fil f) W p v
    have hold := h.files f
    have hf := hfil f
    simp only [hown]
    omega
  · have hsum := sum_update (fun _ u => u.pip pi wr) W p v
    have hold := h.ends pi wr
    have hp := hends pi wr
    simp only
    omega
  · have hsum := sum_update (fun _ u => u.ops) W p v
    have hold := h.ops
    simp only
    omega
  · rcases h.fresh q f hf with ⟨h₁, h₂, h₃⟩
    rcases hothers q f hq (Nat.le_of_eq h₃.symm) with ⟨ht, _, hr⟩
    exact ⟨(hr hf).trans h₁, ht.trans h₂, h₃⟩
  · rcases hothers q f hq hf with ⟨ht, hi, _⟩
    rcases h.seen q f k hs hf with ⟨h₁, h₂⟩
    exact ⟨by rw [ht]; exact h₁, hi.trans h₂⟩
  · rw [update_proj View.procs hprocs]
    exact h.procs q r o
  · rw [update_proj View.procs hprocs, update_proj View.procs hprocs]
    exact h.owner q q' r

theorem Counted.lock_same (t : Fin NINODE → Inode) (hlock : v.lock = (W p).lock)
    (ht : ∀ k, (t k).lock = (s.itable k).lock) (k : Fin NINODE) (q : Fin NPROC) :
    (t k).lock = some q ↔ (update W p v q).lock k = true := by
  rw [update_proj View.lock hlock, ht]
  exact h.lock k q

theorem Counted.setRef (hw : W p = w) (k : Fin NINODE) (x : Inode) (n : Fin NINODE → Nat)
    (hlock : x.lock = (s.itable k).lock) (href : x.ref + w.ino k = (s.itable k).ref + n k)
    (hother : ∀ l, l ≠ k → n l = w.ino l) (hgood : View.Good { w with ino := n })
    (hsole : Sole (Function.update s.itable k x)) :
    Counted { s with itable := update s.itable k x } (update W p { w with ino := n }) := by
  subst hw
  refine h.refs rfl _ s.ftable s.pipes s.log rfl rfl h.idle
    (h.lock_same _ rfl (update_proj Itable.Entry.lock hlock)) (fun l => ?_) (fun f => rfl) h.free
    (fun pi wr => rfl) h.pages hgood (h.fresh p) (h.seen p)
    (fun q f _ _ => ⟨rfl, rfl, fun _ => rfl⟩) hsole
  by_cases hl : l = k
  · rw [hl, update_self]
    simp only
    omega
  · rw [update_of_ne hl]
    simp only [hother l hl]

theorem Counted.setFile (hw : W p = w) (f : Fin NFILE) (x : File)
    (hprocs : v.procs = w.procs) (hops : v.ops = w.ops) (hlock : v.lock = w.lock)
    (href : x.ref + w.fil f = (s.ftable f).ref + v.fil f)
    (hfil : ∀ g, g ≠ f → v.fil g = w.fil g)
    (hino : ∀ k, (s.ftable f).inodes k + w.ino k = x.inodes k + v.ino k)
    (hends : ∀ pi wr, (s.ftable f).ends pi wr + w.pip pi wr = x.ends pi wr + v.pip pi wr)
    (hfree : x.ref = 0 → x.type = .none) (hgood : v.Good)
    (hfresh : ∀ g, g ≠ f → v.fresh g = w.fresh g)
    (hfresh' : v.fresh f = true → x.ref = 1 ∧ x.type = .none ∧ v.fil f = 1)
    (hseen : ∀ g, g ≠ f → v.seen g = w.seen g)
    (hseen' : ∀ k, v.seen f = some k → 1 ≤ v.fil f → x.type.isInode = true ∧ x.ip = k)
    (hothers : (∀ q, q ≠ p → (W q).fil f = 0) ∨
      1 ≤ w.fil f ∧ x.type = (s.ftable f).type ∧ x.ip = (s.ftable f).ip) :
    Counted { s with ftable := update s.ftable f x } (update W p v) := by
  subst hw
  refine h.refs rfl s.itable _ s.pipes s.log hprocs (by rw [hops]) h.idle
    (h.lock_same _ hlock (fun _ => rfl)) (fun k => ?_)
    ((forall_update_iff s.ftable (fun g y => y.ref + (W p).fil g =
      (s.ftable g).ref + v.fil g)).mpr ⟨href, fun g hg => by rw [hfil g hg]⟩)
    ((forall_update_iff s.ftable (fun _ y => y.ref = 0 → y.type = .none)).mpr
      ⟨hfree, fun g _ => h.free g⟩) (fun pi wr => ?_) h.pages hgood
    ((forall_update_iff s.ftable (fun g y => v.fresh g = true →
      y.ref = 1 ∧ y.type = .none ∧ v.fil g = 1)).mpr ⟨hfresh', fun g hg => ?_⟩)
    ((forall_update_iff s.ftable (fun g y => ∀ k, v.seen g = some k → 1 ≤ v.fil g →
      y.type.isInode = true ∧ y.ip = k)).mpr ⟨hseen', fun g hg => ?_⟩) (fun q g hq hg => ?_)
    h.sole
  · have hsum := sum_update (fun _ (y : File) => y.inodes k) s.ftable f x
    have hk := hino k
    omega
  · have hsum := sum_update (fun _ (y : File) => y.ends pi wr) s.ftable f x
    have hp := hends pi wr
    omega
  · rw [hfresh g hg, hfil g hg]
    exact h.fresh p g
  · rw [hseen g hg, hfil g hg]
    exact h.seen p g
  · by_cases hgf : g = f
    · rw [hgf] at hg ⊢
      rw [update_self]
      rcases hothers with hnone | ⟨hp, ht, hi⟩
      · have := hnone q hq
        omega
      · refine ⟨ht, hi, fun hfr => ?_⟩
        -- Somebody else's fresh file is not in the view's hands as well.
        have h₁ := (h.fresh q f hfr).1
        have h₂ := h.fil_add_le hq f
        omega
    · rw [update_of_ne hgf]
      exact ⟨rfl, rfl, fun _ => rfl⟩

theorem Counted.setLock (k : Fin NINODE) (x : Inode) (b : Bool)
    (href : x.ref = (s.itable k).ref) (hdev : x.dev = (s.itable k).dev)
    (hinum : x.inum = (s.itable k).inum)
    (hx : if b then (s.itable k).lock = none ∧ x.lock = some p ∧ (W p).Reach k
      else (s.itable k).lock = some p ∧ x.lock = none) :
    Counted { s with itable := update s.itable k x }
      (update W p ((W p).setLock k b)) := by
  have hother : ∀ q, q ≠ p → (W q).lock k = false := by
    intro q hq
    by_contra hc
    have hl := (h.lock k q).mpr (Bool.eq_true_of_not_eq_false hc)
    cases b with
    | true => exact nomatch hx.1.symm.trans hl
    | false =>
      rw [hx.1] at hl
      exact hq (Option.some.inj hl).symm
  refine h.refs rfl _ s.ftable s.pipes s.log rfl rfl h.idle (fun l q => ?_)
    (fun l => by rw [update_proj Itable.Entry.ref href]; rfl) (fun f => rfl) h.free
    (fun pi wr => rfl) h.pages (fun l hl => ?_) (h.fresh p) (h.seen p)
    (fun q f _ _ => ⟨rfl, rfl, fun _ => rfl⟩) (h.sole.keep k x (fun hpos => href ▸ hpos) hdev hinum)
  · by_cases hl : l = k
    · rw [hl, update_self]
      by_cases hq : q = p
      · rw [hq, update_self, View.lock_setLock, if_pos rfl]
        cases b with
        | true => exact ⟨fun _ => rfl, fun _ => hx.2.1⟩
        | false =>
          rw [hx.2]
          exact iff_of_false nofun nofun
      · rw [update_of_ne hq, hother q hq]
        refine iff_of_false (fun hc => ?_) Bool.false_ne_true
        cases b with
        | true => exact hq (Option.some.inj (hx.2.1.symm.trans hc)).symm
        | false => exact nomatch hx.2.symm.trans hc
    · have hsame : (update W p ((W p).setLock k b) q).lock l = (W q).lock l :=
        update_proj (fun u : View => u.lock l) (by rw [View.lock_setLock, if_neg hl]) q
      rw [update_of_ne hl, hsame]
      exact h.lock l q
  · rw [View.lock_setLock] at hl
    by_cases hlk : l = k
    · rw [if_pos hlk] at hl
      rw [hl] at hx
      rw [hlk]
      exact hx.2.2
    · rw [if_neg hlk] at hl
      exact h.good p l hl

theorem Counted.setOps (l : Log) (n : Nat)
    (hout : l.outstanding + (W p).ops = s.log.outstanding + n) (hcom : l.committing = false) :
    Counted { s with log := l } (update W p ((W p).setOps n)) := by
  exact h.refs rfl s.itable s.ftable s.pipes l rfl hout hcom (h.lock_same _ rfl (fun _ => rfl))
    (fun _ => rfl) (fun _ => rfl) h.free (fun _ _ => rfl) h.pages (h.good p) (h.fresh p) (h.seen p)
    (fun q f _ _ => ⟨rfl, rfl, fun _ => rfl⟩) h.sole

/-- Control over process `q` changes hands, or what `q` has open changes while
    somebody has control. The counts of the other processes stay. -/
theorem Counted.setProc (hw : W p = w) (q : Fin NPROC) (x : Proc)
    (hpip : v.pip = w.pip) (hops : v.ops = w.ops) (hlock : v.lock = w.lock)
    (hino : ∀ k, unowned (update W p v) q (x.fds.cwds k) + v.ino k =
      unowned W q ((s.proc q).fds.cwds k) + w.ino k)
    (hfil : ∀ f, unowned (update W p v) q (x.fds.slots f) + v.fil f =
      unowned W q ((s.proc q).fds.slots f) + w.fil f)
    (hprocs : ∀ r, r ≠ q → v.procs r = w.procs r)
    (hq : ∀ o, v.procs q = some o →
      x.fds = o ∧ x.state = (if q = p then .runnable else .used))
    (hsame : ∀ p', p' ≠ p → (W p').procs q = none) (hgood : v.Good)
    (hfresh : ∀ f, v.fresh f = true → w.fresh f = true ∧ v.fil f = 1)
    (hseen : ∀ f k, v.seen f = some k → 1 ≤ v.fil f → w.seen f = some k ∧ 1 ≤ w.fil f)
    (hgone : x.state = .unused ∨ x.state = .zombie → x.fds = .empty) :
    Counted { s with proc := update s.proc q x } (update W p v) := by
  subst hw
  -- Nothing changes for the other processes.
  have hrest : ∀ r, r ≠ q → ∀ p', (update W p v p').procs r = (W p').procs r :=
    fun r hr => update_proj (fun u : View => u.procs r) (hprocs r hr)
  have hsum : ∀ g : Proc → Nat,
      ∑ r, unowned (update W p v) r (g (update s.proc q x r)) +
        unowned W q (g (s.proc q)) =
      ∑ r, unowned W r (g (s.proc r)) + unowned (update W p v) q (g x) := by
    intro g
    have hfun : (fun r => unowned (update W p v) r (g (update s.proc q x r))) =
        update (fun r => unowned W r (g (s.proc r))) q
          (unowned (update W p v) q (g x)) := by
      funext r
      by_cases hr : r = q
      · rw [hr, update_self, update_self]
      · rw [update_of_ne hr, update_of_ne hr]
        unfold unowned
        simp only [hrest r hr]
    rw [hfun]
    exact sum_update (fun _ n => n) (fun r => unowned W r (g (s.proc r))) q _
  refine ⟨fun k => ?_, fun f => ?_, h.free, fun pi wr => ?_, h.pages, ?_, h.idle, fun k r => ?_,
    (forall_update_iff W (fun _ u => u.Good)).mpr ⟨hgood, fun r _ => h.good r⟩,
    (forall_update_iff W (fun _ u => ∀ f, u.fresh f = true → (s.ftable f).ref = 1 ∧
      (s.ftable f).type = .none ∧ u.fil f = 1)).mpr ⟨fun f hf => ?_, fun r _ => h.fresh r⟩,
    (forall_update_iff W (fun _ u => ∀ f k, u.seen f = some k → 1 ≤ u.fil f →
      (s.ftable f).type.isInode = true ∧ (s.ftable f).ip = k)).mpr
      ⟨fun f k hs hf => ?_, fun r _ => h.seen r⟩, fun r r' o ho => ?_,
    fun r r' q' hr hr' => ?_, (forall_update_iff s.proc (fun _ y =>
      y.state = .unused ∨ y.state = .zombie → y.fds = .empty)).mpr ⟨hgone, fun r _ => h.gone r⟩,
    h.sole⟩
  · have h₁ := hsum (fun y => y.fds.cwds k)
    have h₂ := sum_update (fun _ u => u.ino k) W p v
    have h₃ := hino k
    have h₄ := h.inodes k
    simp only at h₁ h₂ ⊢
    omega
  · have h₁ := hsum (fun y => y.fds.slots f)
    have h₂ := sum_update (fun _ u => u.fil f) W p v
    have h₃ := hfil f
    have h₄ := h.files f
    simp only at h₁ h₂ ⊢
    omega
  · simp only [update_proj View.pip hpip]
    exact h.ends pi wr
  · simp only [update_proj View.ops hops]
    exact h.ops
  · rw [update_proj View.lock hlock]
    exact h.lock k r
  · rcases hfresh f hf with ⟨hf', hone⟩
    rcases h.fresh p f hf' with ⟨h₁, h₂, _⟩
    exact ⟨h₁, h₂, hone⟩
  · rcases hseen f k hs hf with ⟨hs', hf'⟩
    exact h.seen p f k hs' hf'
  · change (update s.proc q x r').fds = o ∧ (update s.proc q x r').state = _
    by_cases hr' : r' = q
    · rw [hr'] at ho ⊢
      rw [update_self]
      by_cases hr : r = p
      · rw [hr, update_self] at ho
        rw [hr]
        exact hq o ho
      · rw [update_of_ne hr, hsame r hr] at ho
        exact nomatch ho
    · rw [update_of_ne hr']
      rw [hrest r' hr'] at ho
      exact h.procs r r' o ho
  · by_cases hqq : q' = q
    · -- Nobody else has had control over `q`.
      have hown : ∀ r, (update W p v r).procs q' ≠ none → r = p := by
        intro r hr
        by_contra hc
        rw [update_of_ne hc, hqq] at hr
        exact hr (hsame r hc)
      rw [hown r hr, hown r' hr']
    · rw [hrest q' hqq] at hr hr'
      exact h.owner r r' q' hr hr'

end Facts

/-- The outcome of a step of process `p` keeps the counts. -/
def Keeps {A : Type} (W : Fin NPROC → View) (p : Fin NPROC) (Q : A → View → Prop)
    (o : Outcome Panic (A × Kernel)) : Prop :=
  Outcome.Meets (fun e => ¬BadCount e)
    (fun r => ∃ v, Q r.1 v ∧ Counted r.2 (update W p v)) o

/-- A step of process `p` keeps the counts when its view permits it. -/
def CountKept (p : Fin NPROC) (c : Cmd) : Prop :=
  ∀ s W Q, Counted s W → Local p c (W p) Q → Keeps W p Q (perform c s)

section Steps

variable {s : Kernel} {W : Fin NPROC → View} {p : Fin NPROC}

theorem Keeps.same {A : Type} {Q : A → View → Prop} {a : A} {s' : Kernel} (h : Counted s' W)
    (hQ : Q a (W p)) : Keeps W p Q (.done (a, s')) := by
  refine ⟨W p, hQ, ?_⟩
  rw [update_eq_self]
  exact h

theorem counted_logWrite (b : Nat) : CountKept p (.logWrite b) := by
  intro s W Q h hQ
  unfold Keeps
  change Outcome.Meets _ _ (s.log.logWrite b >>= _)
  rw [Outcome.meets_bind]
  unfold Log.logWrite
  split
  · change ¬BadCount _
    decide
  · split
    · change ¬BadCount _
      decide
    · split
      · exact Keeps.same { h with } hQ
      · exact Keeps.same { h with } hQ

theorem counted_beginOp : CountKept p .beginOp := by
  intro s W Q h hQ
  unfold Keeps
  change Outcome.Meets _ _ (s.log.beginOp >>= _)
  rw [Outcome.meets_bind]
  unfold Log.beginOp
  split
  · trivial
  · split
    · trivial
    · refine ⟨_, hQ, h.setOps _ _ ?_ h.idle⟩
      simp only
      omega

theorem counted_endOp : CountKept p .endOp := by
  rintro s W Q h ⟨hop, hQ⟩
  have hle := le_sum (fun q => (W q).ops) p
  have hout := h.ops
  unfold Keeps
  change Outcome.Meets _ _ (s.log.endOp >>= _)
  rw [Outcome.meets_bind]
  unfold Log.endOp
  rw [if_neg (by rw [h.idle]; exact Bool.false_ne_true)]
  split
  · refine ⟨_, hQ, h.setOps _ _ ?_ rfl⟩
    simp only [if_true, Log.commitDone]
    omega
  · refine ⟨_, hQ, h.setOps _ _ ?_ h.idle⟩
    simp only [Bool.false_eq_true, if_false]
    omega

theorem Counted.hold (h : Counted s W) (k : Fin NINODE) (x : Inode)
    (hlock : x.lock = (s.itable k).lock) (href : x.ref = (s.itable k).ref + 1)
    (hsole : Sole (update s.itable k x)) :
    Counted { s with itable := update s.itable k x }
      (update W p ((W p).hold k)) := by
  refine h.setRef rfl k x ((W p).ino + Pi.single k 1) hlock ?_ (fun l hl => ?_)
    ((h.good p).mono rfl (fun _ => Nat.le_add_right _ _) (fun _ => le_rfl) (fun _ _ _ hs => hs))
    hsole
  · rw [Pi.add_apply, Pi.single_eq_same, href]
    omega
  · rw [Pi.add_apply, Pi.single_eq_of_ne hl, Nat.add_zero]

theorem counted_iget (dev inum : Nat) : CountKept p (.iget dev inum) := by
  intro s W Q h hQ
  change Keeps W p Q (s.iget dev inum)
  unfold Kernel.iget
  split
  · next k hk =>
    have hfound := List.find?_some hk
    rw [decide_eq_true_eq] at hfound
    exact ⟨_, hQ k, h.hold k _ rfl rfl (h.sole.keep k _ (fun _ => hfound.1) rfl rfl)⟩
  · next hnone =>
    split
    · next k hk =>
      have hzero := List.find?_some hk
      rw [decide_eq_true_eq] at hzero
      refine ⟨_, hQ k, h.hold k _ rfl ?_ (h.sole.update k _ (fun j _ _ hpos hsame => ?_))⟩
      · rw [hzero]
        rfl
      · -- The inode has no entry yet.
        exact List.find?_eq_none.mp hnone j (List.mem_finRange j)
          (decide_eq_true ⟨hpos, hsame.1.symm, hsame.2.symm⟩)
    · change ¬BadCount _
      decide

theorem counted_iputDrop (k : Fin NINODE) : CountKept p (.iputDrop k) := by
  rintro s W Q h ⟨u, hW, hgood, hQ⟩
  refine ⟨u, hQ, h.setRef hW k { s.itable k with ref := (s.itable k).ref - 1 } u.ino rfl ?_
    (fun l hl => ?_) hgood (h.sole.keep k _ (fun hpos => by simp only at hpos; omega) rfl rfl)⟩
  · change _ + ((u.ino k + (Pi.single k 1 : Fin NINODE → Nat) k : Nat) : Int) = _
    rw [Pi.single_eq_same]
    simp only
    omega
  · change _ = u.ino l + (Pi.single k 1 : Fin NINODE → Nat) l
    rw [Pi.single_eq_of_ne hl, Nat.add_zero]

theorem Counted.lockFree (h : Counted s W) {k : Fin NINODE} (hreach : (W p).Reach k)
    (hnone : ¬(s.itable k).lock.isSome = true) :
    (W p).lock k = false ∧ Counted (s.modInode k (fun i => { i with lock := some p }))
      (update W p ((W p).setLock k true)) := by
  have hfree : (s.itable k).lock = none := Option.not_isSome_iff_eq_none.mp hnone
  refine ⟨?_, h.setLock k _ true rfl rfl rfl ⟨hfree, rfl, hreach⟩⟩
  by_contra hc
  exact nomatch hfree.symm.trans ((h.lock k p).mpr (Bool.eq_true_of_not_eq_false hc))

theorem counted_acquire (q : Fin NPROC) (k : Fin NINODE) : CountKept p (.acquire q k) := by
  rintro s W Q h ⟨rfl, hreach, hQ⟩
  change Keeps W q Q (s.acquire q k)
  unfold Kernel.acquire
  have hpos := h.reach hreach
  rw [if_neg (by omega)]
  split
  · trivial
  · next hnone =>
    have hfree := h.lockFree hreach hnone
    exact ⟨_, hQ hfree.1, hfree.2⟩

theorem counted_release (q : Fin NPROC) (k : Fin NINODE) : CountKept p (.release q k) := by
  rintro s W Q h ⟨rfl, hl, hQ⟩
  have hlock := (h.lock k q).mpr hl
  have hpos := h.reach (h.good q k hl)
  change Keeps W q Q (s.release q k)
  unfold Kernel.release
  rw [if_neg (fun hc => hc.elim (fun hc => hc hlock) (fun hc => by omega))]
  exact ⟨_, hQ, h.setLock k _ false rfl rfl rfl ⟨hlock, rfl⟩⟩

theorem counted_iputTest (q : Fin NPROC) (k : Fin NINODE) : CountKept p (.iputTest q k) := by
  rintro s W Q h ⟨rfl, hown, hyes, hno⟩
  change Keeps W q Q (s.iputTest q k)
  unfold Kernel.iputTest
  split
  · split
    · trivial
    · next hnone =>
      have hfree := h.lockFree (Or.inl hown) hnone
      exact ⟨_, hyes hfree.1, hfree.2⟩
  · exact Keeps.same h hno

theorem counted_filealloc : CountKept p .filealloc := by
  rintro s W Q h ⟨hnone, hsome⟩
  change Keeps W p Q (.done s.filealloc)
  unfold Kernel.filealloc
  split
  · next f hf =>
    have hzero := List.find?_some hf
    rw [decide_eq_true_eq] at hzero
    have hfil : ∀ q, (W q).fil f = 0 := by
      intro q
      have := h.fil_le (p := q) f
      omega
    refine ⟨_, hsome f (hfil p), ?_⟩
    refine h.setFile rfl f { s.ftable f with ref := 1 } rfl rfl rfl ?_
      (fun g hg => View.fil_holdFile_of_ne _ hg) (fun k => rfl)
      (fun pi wr => rfl) (fun hc => absurd hc Int.one_ne_zero) ?_ (fun g hg => update_of_ne hg _ _)
      (fun _ => ⟨rfl, h.free f hzero, ?_⟩) (fun g hg => update_of_ne hg _ _) (fun k hk => ?_)
      (Or.inl (fun q _ => hfil q))
    · change 1 + ((W p).fil f : Int) = (s.ftable f).ref + (((W p).holdFile f).fil f : Nat)
      rw [View.fil_holdFile_self]
      omega
    · refine (h.good p).mono rfl (fun _ => le_rfl) (fun _ => Nat.le_add_right _ _)
        (fun g k hg hs => (update_of_ne (fun hc => ?_) _ _).trans hs)
      rw [hc, hfil p] at hg
      omega
    · exact ((W p).fil_holdFile_self f).trans (by rw [hfil p])
    · rw [View.seen_see] at hk
      exact nomatch hk
  · exact Keeps.same h hnone

theorem counted_filedup (f : Fin NFILE) : CountKept p (.filedup f) := by
  rintro s W Q h ⟨hf, hfr, hQ⟩
  have hle := h.fil_le (p := p) f
  change Keeps W p Q (s.filedup f)
  unfold Kernel.filedup
  rw [if_neg (by omega)]
  refine ⟨_, hQ, h.setFile rfl f { s.ftable f with ref := (s.ftable f).ref + 1 } rfl rfl rfl ?_
    (fun g hg => View.fil_holdFile_of_ne _ hg) (fun k => rfl) (fun pi wr => rfl) (fun hc => ?_)
    ((h.good p).mono rfl (fun _ => le_rfl) (fun _ => Nat.le_add_right _ _) (fun _ _ _ hs => hs))
    (fun g _ => rfl) (fun hc => nomatch (hfr.symm.trans hc)) (fun g _ => rfl)
    (fun k hk _ => h.seen p f k hk hf) (Or.inr ⟨hf, rfl, rfl⟩)⟩
  · rw [View.fil_holdFile_self]
    simp only
    omega
  · simp only at hc
    omega

theorem counted_filedrop (f : Fin NFILE) : CountKept p (.filedrop f) := by
  rintro s W Q h ⟨u, hW, hnone, hsome⟩
  have hfresh := h.fresh p f
  have hseen := h.seen p f
  have hle := h.fil_le (p := p) f
  have hothers := fun q (hq : q ≠ p) => h.fil_add_le hq f
  have hfil := u.fil_holdFile_self f
  have hfil' := fun g (hg : g ≠ f) => (u.fil_holdFile_of_ne hg).symm
  rw [hW] at hnone hsome hfresh hseen hle hothers
  change Keeps W p Q (s.filedrop f)
  unfold Kernel.filedrop
  rw [if_neg (by omega)]
  split
  · have hnf : (u.holdFile f).fresh f = false := by
      by_contra hc
      have := (hfresh (Bool.eq_true_of_not_eq_false hc)).1
      omega
    rcases hnone hnf with ⟨hgood, hQ⟩
    refine ⟨u, hQ, h.setFile hW f { s.ftable f with ref := (s.ftable f).ref - 1 } rfl rfl rfl ?_
      hfil' (fun _ => rfl) (fun _ _ => rfl) (fun hc => ?_) hgood (fun _ _ => rfl)
      (fun hc => nomatch (hnf.symm.trans hc)) (fun _ _ => rfl)
      (fun k hk _ => hseen k hk (by omega)) (Or.inr ⟨by omega, rfl, rfl⟩)⟩
    · simp only
      omega
    · simp only at hc
      omega
  · rcases hsome (s.ftable f) (fun hc => (hfresh hc).2.1) with ⟨hgood, hQ⟩
    refine ⟨_, hQ, h.setFile hW f { s.ftable f with ref := 0, type := .none } rfl rfl rfl ?_ hfil'
      (fun k => ?_) (fun pi wr => ?_) (fun _ => rfl) hgood (fun g hg => update_of_ne hg _ _)
      (fun hc => nomatch ((u.fresh_setFresh f false).symm.trans hc))
      (fun _ _ => rfl) (fun k _ hc => ?_) (Or.inl (fun q hq => ?_))⟩
    · change 0 + ((u.holdFile f).fil f : Int) = (s.ftable f).ref + (u.fil f : Int)
      omega
    · change (s.ftable f).inodes k + u.ino k = 0 + (u.ino k + (s.ftable f).inodes k)
      omega
    · change (s.ftable f).ends pi wr + u.pip pi wr = 0 + (u.pip pi wr + (s.ftable f).ends pi wr)
      omega
    · change 1 ≤ u.fil f at hc
      omega
    · have := hothers q hq
      omega

/-- A file that has been allocated gets its contents: what it refers to passes from
    the view to the file. -/
theorem Counted.fill {v w : View} (h : Counted s W) (hw : W p = w) (f : Fin NFILE) (x : File)
    (hfr : w.fresh f = true) (href : x.ref = (s.ftable f).ref)
    (hprocs : v.procs = w.procs) (hops : v.ops = w.ops) (hlock : v.lock = w.lock)
    (hfil : v.fil = w.fil) (hfresh : v.fresh = update w.fresh f false)
    (hino : ∀ k, w.ino k = x.inodes k + v.ino k)
    (hends : ∀ pi wr, w.pip pi wr = x.ends pi wr + v.pip pi wr) (hgood : v.Good)
    (hseen : ∀ g, g ≠ f → v.seen g = w.seen g)
    (hseen' : ∀ k, v.seen f = some k → w.seen f = some k ∨ x.type.isInode = true ∧ x.ip = k) :
    Counted { s with ftable := update s.ftable f x } (update W p v) := by
  subst hw
  rcases h.fresh p f hfr with ⟨h₁, h₂, h₃⟩
  have hnot : ∀ k, (W p).seen f ≠ some k := by
    intro k hk
    have hc := (h.seen p f k hk (Nat.le_of_eq h₃.symm)).1
    rw [h₂] at hc
    exact nomatch hc
  refine h.setFile rfl f x hprocs hops hlock ?_ (fun g _ => congrFun hfil g) (fun k => ?_)
    (fun pi wr => ?_) (fun hc => ?_) hgood (fun g hg => ?_) (fun hc => ?_) hseen
    (fun k hk _ => (hseen' k hk).resolve_left (hnot k)) (Or.inl (fun q hq => ?_))
  · rw [href, hfil]
  · have hold : (s.ftable f).inodes k = 0 := if_neg (fun hc => by
      rw [h₂] at hc
      exact nomatch hc.1)
    rw [hold, hino k, Nat.zero_add]
  · have hold : (s.ftable f).ends pi wr = 0 := if_neg (fun hc => by
      rw [h₂] at hc
      exact nomatch hc.1)
    rw [hold, hends pi wr, Nat.zero_add]
  · rw [href, h₁] at hc
    exact nomatch hc
  · rw [hfresh, update_of_ne hg]
  · rw [hfresh, update_self] at hc
    exact nomatch hc
  · have := h.fil_add_le hq f
    omega

theorem Counted.openInode {u : View} (h : Counted s W) (f : Fin NFILE) (k : Fin NINODE) (x : File)
    (hW : W p = u.hold k) (hfr : (W p).fresh f = true) (href : x.ref = (s.ftable f).ref)
    (htype : x.type.isInode = true) (hip : x.ip = k) :
    Counted { s with ftable := update s.ftable f x }
      (update W p ((u.setFresh f false).see f (some k))) := by
  have hgood := h.good p
  have hseen := h.seen p f
  have hfresh := h.fresh p f hfr
  rw [hW] at hgood hseen hfresh hfr
  refine h.fill hW f x hfr href rfl rfl rfl rfl rfl (fun l => ?_) (fun pi wr => ?_)
    (fun l hl => ?_) (fun g hg => update_of_ne hg _ _) (fun l hl => Or.inr ?_)
  · have hnew : x.inodes l = (Pi.single k 1 : Fin NINODE → Nat) l := by
      unfold File.inodes
      rw [hip, Pi.single_apply]
      simp only [htype, true_and, @eq_comm _ k l]
    rw [hnew]
    exact Nat.add_comm _ _
  · have hnew : x.ends pi wr = 0 := if_neg (fun hc => by
      rw [hc.1] at htype
      exact nomatch htype)
    rw [hnew]
    exact (Nat.zero_add _).symm
  · by_cases hlk : l = k
    · refine Or.inr ⟨f, Nat.le_of_eq hfresh.2.2.symm, ?_⟩
      rw [hlk]
      exact update_self _ _ _
    · rcases hgood l hl with ho | ⟨g, hg, hs⟩
      · change 1 ≤ u.ino l + (Pi.single k 1 : Fin NINODE → Nat) l at ho
        rw [Pi.single_eq_of_ne hlk] at ho
        exact Or.inl ho
      · -- The file has not been seen: it had no type.
        have hgf : g ≠ f := fun hc => by
          rw [hc] at hs hg
          have := (hseen l hs hg).1
          rw [hfresh.2.1] at this
          exact nomatch this
        exact Or.inr ⟨g, hg, (update_of_ne hgf _ _).trans hs⟩
  · rw [View.seen_see] at hl
    exact ⟨htype, hip.trans (Option.some.inj hl)⟩

theorem counted_openInode (f : Fin NFILE) (k : Fin NINODE) (dev : Option (BitVec 16))
    (rd wr : Bool) : CountKept p (.openInode f k dev rd wr) := by
  rintro s W Q h ⟨u, hW, hfr, hQ⟩
  refine ⟨_, hQ, ?_⟩
  cases dev with
  | none | some major => exact h.openInode f k _ hW hfr rfl rfl rfl

theorem counted_openPipe (f : Fin NFILE) (pi : Nat) (wr : Bool) :
    CountKept p (.openPipe f pi wr) := by
  rintro s W Q h ⟨u, hW, hfr, hQ⟩
  have hgood := h.good p
  rw [hW] at hgood hfr
  refine ⟨_, hQ, h.fill hW f { s.ftable f with
    type := .pipe, readable := !wr, writable := wr, pipe := pi } hfr rfl rfl rfl rfl rfl rfl
    (fun l => (Nat.zero_add _).symm) (fun a b => ?_) hgood (fun g hg => rfl)
    (fun l hl => Or.inl hl)⟩
  change u.pip a b + (Pi.single pi (Pi.single wr 1) : Nat → Bool → Nat) a b =
    (if FdType.pipe = .pipe ∧ pi = a ∧ wr = b then 1 else 0) + u.pip a b
  by_cases ha : a = pi
  · rw [ha, Pi.single_eq_same, Pi.single_apply]
    simp only [true_and, @eq_comm _ wr b]
    exact Nat.add_comm _ _
  · rw [Pi.single_eq_of_ne ha, if_neg (fun hc => ha hc.2.1.symm)]
    exact Nat.add_comm _ _

theorem Counted.setPipes {w : View} (h : Counted s W) (hw : W p = w) (ps : List PipePage)
    (n : Nat → Bool → Nat)
    (hends : ∀ pi wr, endOpen ps pi wr + w.pip pi wr = endOpen s.pipes pi wr + n pi wr)
    (hpages : ∀ x ∈ ps, x.freed = if x.readopen = false ∧ x.writeopen = false then 1 else 0) :
    Counted { s with pipes := ps } (update W p { w with pip := n }) := by
  subst hw
  refine h.refs rfl s.itable s.ftable ps s.log rfl rfl h.idle (h.lock_same _ rfl (fun _ => rfl))
    (fun _ => rfl) (fun _ => rfl) h.free (fun pi wr => ?_) hpages (h.good p) (h.fresh p)
    (h.seen p) (fun q f _ _ => ⟨rfl, rfl, fun _ => rfl⟩) h.sole
  have hp := hends pi wr
  simp only
  omega

theorem counted_pipealloc : CountKept p .pipealloc := by
  intro s W Q h hQ
  refine ⟨_, hQ s.pipes.length, ?_⟩
  refine h.setPipes rfl _ _ (fun a b => ?_) (fun x hx => ?_)
  · change _ = _ + ((W p).pip a b +
      (Pi.single s.pipes.length (Pi.single false 1) : Nat → Bool → Nat) a b +
      (Pi.single s.pipes.length (Pi.single true 1) : Nat → Bool → Nat) a b)
    unfold endOpen
    by_cases ha : a = s.pipes.length
    · rw [ha, List.getElem?_concat_length, List.getElem?_eq_none (Nat.le_refl _),
        Pi.single_eq_same, Pi.single_eq_same]
      cases b with
      | false =>
        rw [Pi.single_eq_same, Pi.single_eq_of_ne Bool.false_ne_true]
        simp only [PipePage.isOpen, Bool.false_eq_true, if_false, if_true]
        omega
      | true =>
        rw [Pi.single_eq_same, Pi.single_eq_of_ne Bool.false_ne_true.symm]
        simp only [PipePage.isOpen, if_true]
        omega
    · have hget : (s.pipes ++ [({ readopen := true, writeopen := true, freed := 0 } :
          PipePage)])[a]? = s.pipes[a]? := by
        by_cases hlt : a < s.pipes.length
        · rw [List.getElem?_append_left hlt]
        · have hlen : (s.pipes ++ [({ readopen := true, writeopen := true, freed := 0 } :
              PipePage)]).length ≤ a := by
            rw [List.length_append, List.length_singleton]
            omega
          rw [List.getElem?_eq_none hlen, List.getElem?_eq_none (Nat.le_of_not_lt hlt)]
      rw [hget, Pi.single_eq_of_ne ha, Pi.single_eq_of_ne ha]
      rfl
  · rcases List.mem_append.mp hx with hold | hnew
    · exact h.pages x hold
    · rw [List.mem_singleton.mp hnew]
      rfl

theorem counted_pipeclose (pi : Nat) (wr : Bool) : CountKept p (.pipeclose pi wr) := by
  rintro s W Q h ⟨u, hW, hQ⟩
  -- The end is open, since somebody holds it.
  have hopen : ∃ x, s.pipes[pi]? = some x ∧ x.isOpen wr = true := by
    have hpos := h.ends pi wr
    have hle := le_sum (fun q => (W q).pip pi wr) p
    have hone : (W p).pip pi wr = u.pip pi wr + 1 := by
      rw [hW]
      change u.pip pi wr + (Pi.single pi (Pi.single wr 1) : Nat → Bool → Nat) pi wr = _
      rw [Pi.single_eq_same, Pi.single_eq_same]
    unfold endOpen at hpos
    cases hx : s.pipes[pi]? with
    | none =>
      rw [hx] at hpos
      simp only at hpos
      omega
    | some x =>
      refine ⟨x, rfl, ?_⟩
      by_contra hc
      rw [hx] at hpos
      simp only [if_neg hc] at hpos
      omega
  rcases hopen with ⟨x, hx, hxo⟩
  refine ⟨u, hQ, ?_⟩
  change Counted { s with pipes := s.pipes.modify pi (PipePage.shut wr) } _
  refine h.setPipes hW _ u.pip (fun a b => ?_) (fun y hy => ?_)
  · change _ + (u.pip a b + (Pi.single pi (Pi.single wr 1) : Nat → Bool → Nat) a b) = _
    unfold endOpen
    by_cases ha : a = pi
    · rw [ha, List.getElem?_modify_eq, hx, Pi.single_eq_same, Pi.single_apply]
      simp only [Option.map_eq_map, Option.map_some, PipePage.isOpen_shut]
      by_cases hb : b = wr
      · rw [if_pos hb, if_pos hb, hb, if_pos hxo, if_neg Bool.false_ne_true]
        omega
      · rw [if_neg hb, if_neg hb, Nat.add_zero]
    · rw [List.getElem?_modify_ne _ _ (fun hc => ha hc.symm), Pi.single_eq_of_ne ha]
      rfl
  · rcases List.mem_iff_getElem?.mp hy with ⟨a, hya⟩
    by_cases ha : a = pi
    · rw [ha, List.getElem?_modify_eq, hx] at hya
      rw [← Option.some.inj hya]
      exact x.freed_shut wr hxo (h.pages x (List.mem_of_getElem? hx))
    · rw [List.getElem?_modify_ne _ _ (fun hc => ha hc.symm)] at hya
      exact h.pages y (List.mem_of_getElem? hya)

theorem Counted.setFds (h : Counted s W) {q : Fin NPROC} {o : Fds} (x : Proc)
    (hq : (W p).procs q = some o) (hstate : x.state = (s.proc q).state) :
    Counted { s with proc := update s.proc q x } (update W p ((W p).setFds q x.fds)) := by
  have hne : (W p).procs q ≠ none := by
    rw [hq]
    exact nofun
  have hne' : ((W p).setFds q x.fds).procs q = some x.fds := update_self _ _ _
  have hzero : ∀ n, unowned W q n = 0 := fun n => if_pos ⟨p, hne⟩
  have hzero' : ∀ n, unowned (update W p ((W p).setFds q x.fds)) q n = 0 := by
    refine fun n => if_pos ⟨p, ?_⟩
    rw [update_self, hne']
    exact nofun
  have hstate' : x.state = if q = p then .runnable else .used :=
    hstate.trans (h.procs p q o hq).2
  refine h.setProc rfl q x rfl rfl rfl (fun k => ?_) (fun f => ?_)
    (fun r hr => update_of_ne hr _ _) (fun a ha => ?_) (h.procs_none hne) (h.good p)
    (fun f hf => ⟨hf, (h.fresh p f hf).2.2⟩) (fun f k hs hf => ⟨hs, hf⟩)
    (fun hc => absurd hc (not_gone hstate'))
  · rw [hzero, hzero']
    rfl
  · rw [hzero, hzero']
    rfl
  · rw [hne'] at ha
    exact ⟨Option.some.inj ha, hstate'⟩

theorem counted_setOfile (q : Fin NPROC) (fd : Fin NOFILE) (f : Option (Fin NFILE)) :
    CountKept p (.setOfile q fd f) := by
  rintro s W Q h ⟨o, ho, hQ⟩
  rw [← (h.procs p q o ho).1] at hQ
  exact ⟨_, hQ, h.setFds _ ho rfl⟩

theorem counted_setCwd (q : Fin NPROC) (k : Option (Fin NINODE)) : CountKept p (.setCwd q k) := by
  rintro s W Q h ⟨o, ho, hQ⟩
  rw [← (h.procs p q o ho).1] at hQ
  exact ⟨_, hQ, h.setFds _ ho rfl⟩

theorem Counted.take (h : Counted s W) (q : Fin NPROC) (x : Proc)
    (hnot : ∀ p', (W p').procs q = none) (hx : x.fds = (s.proc q).fds)
    (hstate : x.state = if q = p then .runnable else .used)
    (hseen : (∀ f, (W p).seen f = none) ∨ x.fds = .empty) :
    Counted { s with proc := update s.proc q x }
      (update W p ((W p).take q x.fds)) := by
  have hown : ∀ n, unowned W q n = n := by
    refine fun n => if_neg ?_
    rintro ⟨p', hp'⟩
    exact hp' (hnot p')
  have hne' : ((W p).take q x.fds).procs q = some x.fds := update_self _ _ _
  have hzero' : ∀ n, unowned (update W p ((W p).take q x.fds)) q n = 0 := by
    refine fun n => if_pos ⟨p, ?_⟩
    rw [update_self, hne']
    exact nofun
  have hfil : ∀ f, ((W p).take q x.fds).fil f = (W p).fil f + x.fds.slots f := fun _ => rfl
  -- A fresh file is in no descriptor yet.
  have hfresh : ∀ f, (W p).fresh f = true → x.fds.slots f = 0 := by
    intro f hf
    have h₁ := h.fresh p f hf
    have h₂ := h.files f
    have h₃ := le_sum (fun r => unowned W r ((s.proc r).fds.slots f)) q
    have h₄ := le_sum (fun r => (W r).fil f) p
    simp only [hown] at h₃
    rw [hx]
    omega
  refine h.setProc rfl q x rfl rfl rfl (fun k => ?_) (fun f => ?_)
    (fun r hr => update_of_ne hr _ _) (fun a ha => ?_) (fun p' _ => hnot p')
    ((h.good p).mono rfl (fun _ => Nat.le_add_right _ _) (fun _ => Nat.le_add_right _ _)
      (fun _ _ _ hs => hs)) (fun f hf => ⟨hf, ?_⟩) (fun f k hs hf => ⟨hs, ?_⟩)
    (fun hc => absurd hc (not_gone hstate))
  · rw [hown, hzero', ← hx]
    change 0 + ((W p).ino k + x.fds.cwds k) = _
    omega
  · rw [hown, hzero', ← hx, hfil]
    omega
  · rw [hne'] at ha
    exact ⟨Option.some.inj ha, hstate⟩
  · rw [hfil, hfresh f hf, (h.fresh p f hf).2.2]
  · rcases hseen with hno | hempty
    · exact nomatch ((hno f).symm.trans hs)
    · rw [hfil, hempty, Fds.slots_empty] at hf
      exact hf

theorem Counted.give (h : Counted s W) (q : Fin NPROC) (u : View) (o : Fds) (x : Proc)
    (hW : W p = u.take q o) (hu : u.procs q = none) (hgood : u.Good)
    (hfresh : ∀ f, u.fresh f = true → o.slots f = 0) (hx : x.fds = o)
    (hgone : x.state = .unused ∨ x.state = .zombie → o = .empty) :
    Counted { s with proc := update s.proc q x } (update W p u) := by
  have hq : (W p).procs q = some o := by
    rw [hW]
    exact update_self _ _ _
  have hne : (W p).procs q ≠ none := by
    rw [hq]
    exact nofun
  have hothers := h.procs_none hne
  have hzero : ∀ n, unowned W q n = 0 := fun n => if_pos ⟨p, hne⟩
  have hown : ∀ n, unowned (update W p u) q n = n := by
    refine fun n => if_neg ?_
    rintro ⟨p', hp'⟩
    by_cases hpp : p' = p
    · rw [hpp, update_self] at hp'
      exact hp' hu
    · rw [update_of_ne hpp] at hp'
      exact hp' (hothers p' hpp)
  refine h.setProc hW q x rfl rfl rfl (fun k => ?_) (fun f => ?_)
    (fun r hr => (update_of_ne hr _ _).symm) (fun a ha => nomatch hu.symm.trans ha) hothers hgood
    (fun f hf => ⟨hf, ?_⟩) (fun f k hs hf => ⟨hs, Nat.le_trans hf (Nat.le_add_right _ _)⟩)
    (fun hc => hx.trans (hgone hc))
  · rw [hown, hzero, hx, Nat.zero_add]
    exact Nat.add_comm _ _
  · rw [hown, hzero, hx, Nat.zero_add]
    exact Nat.add_comm _ _
  · have hone := h.fresh p f
    rw [hW] at hone
    have hsum : u.fil f + o.slots f = 1 := (hone hf).2.2
    rw [hfresh f hf] at hsum
    exact hsum

theorem counted_allocproc : CountKept p .allocproc := by
  rintro s W Q h ⟨hp, hnone, hsome⟩
  change Keeps W p Q (.done s.allocproc)
  unfold Kernel.allocproc
  split
  · next q hq =>
    have hunused := List.find?_some hq
    rw [decide_eq_true_eq] at hunused
    have hempty := h.gone q (Or.inl hunused)
    -- Nobody controls a slot that is not in use.
    have hnot : ∀ p', (W p').procs q = none := by
      intro p'
      cases hc : (W p').procs q with
      | none => rfl
      | some o => exact absurd (Or.inl hunused) (not_gone (h.procs p' q o hc).2)
    have hqp : q ≠ p := by
      rintro rfl
      exact hp (hnot q)
    have ht := h.take (p := p) q { s.proc q with state := .used } hnot rfl
      (by rw [if_neg hqp]) (Or.inr hempty)
    have hfds : ({ s.proc q with state := .used } : Proc).fds = Fds.empty := hempty
    rw [hfds] at ht
    exact ⟨_, hsome q hqp (hnot p), ht⟩
  · exact Keeps.same h hnone

/-- The children of a process go to `initproc`. -/
def Proc.reparent (p : Fin NPROC) (x : Proc) : Proc :=
  if x.parent = some p then { x with parent := some initproc } else x

theorem Proc.reparent_fds (x : Proc) : (x.reparent p).fds = x.fds := by
  unfold Proc.reparent
  split <;> rfl

theorem Proc.reparent_state (x : Proc) : (x.reparent p).state = x.state := by
  unfold Proc.reparent
  split <;> rfl

theorem Kernel.zombie_eq : s.zombie p = { s with
    proc := update (fun q => (s.proc q).reparent p) p
      { (s.proc p).reparent p with state := .zombie } } := by
  unfold Kernel.zombie
  congr 1
  funext q
  by_cases hq : q = p
  · rw [hq, update_self]
    exact if_pos rfl
  · rw [update_of_ne hq]
    exact if_neg hq

theorem Counted.giveEmpty (h : Counted s W) {q : Fin NPROC} {u : View} (x : Proc)
    (hW : W p = u.take q .empty) (hu : u.procs q = none) (hx : x.fds = (s.proc q).fds) :
    Counted { s with proc := update s.proc q x } (update W p u) := by
  have hgood := h.good p
  have hfds := h.procs p q .empty
  rw [hW] at hgood hfds
  exact h.give q u .empty x hW hu (View.good_of_take_empty hgood)
    (fun f _ => congrFun Fds.slots_empty f) (hx.trans (hfds (update_self _ _ _)).1) (fun _ => rfl)

theorem counted_zombie (q : Fin NPROC) : CountKept p (.zombie q) := by
  rintro s W Q h ⟨rfl, u, hW, hu, hQ⟩
  have hparents := h.congr_proc (fun r => (s.proc r).reparent q) (fun r => Proc.reparent_fds _)
    (fun r => Or.inl (Proc.reparent_state _))
  refine ⟨u, hQ, ?_⟩
  change Counted (s.zombie q) _
  rw [Kernel.zombie_eq]
  exact hparents.giveEmpty _ hW hu rfl

theorem counted_freeproc (q : Fin NPROC) : CountKept p (.freeproc q) := by
  rintro s W Q h ⟨_, u, hW, hu, hQ⟩
  exact ⟨u, hQ, h.giveEmpty _ hW hu rfl⟩

theorem counted_setRunnable (q : Fin NPROC) : CountKept p (.setRunnable q) := by
  rintro s W Q h ⟨_, u, o, hW, hu, hgood, hfresh, hQ⟩
  have hfds := (h.procs p q o (by rw [hW]; exact update_self _ _ _)).1
  exact ⟨u, hQ, h.give q u o { s.proc q with state := .runnable } hW hu hgood
    (fun f hf => nomatch ((hfresh f).symm.trans hf)) hfds
    (fun hc => by rcases hc with hc | hc <;> exact nomatch hc)⟩

theorem counted_file (f : Fin NFILE) : CountKept p (.file f) := by
  rintro s W Q h ⟨hf, hQ⟩
  have hx := hQ (s.ftable f) (fun k hk => h.seen p f k hk hf)
  split at hx
  · next ht =>
    refine ⟨_, hx, ?_⟩
    have hset := h.setFile (v := (W p).see f (some (s.ftable f).ip)) rfl f (s.ftable f) rfl rfl rfl
      rfl (fun _ _ => rfl) (fun _ => rfl) (fun _ _ => rfl) (h.free f)
      ((h.good p).mono rfl (fun _ => le_rfl) (fun _ => le_rfl) (fun g l hg hs => ?_))
      (fun _ _ => rfl) (h.fresh p f) (fun g hg => update_of_ne hg _ _)
      (fun k hk _ => ?_) (Or.inr ⟨hf, rfl, rfl⟩)
    · rw [update_eq_self] at hset
      exact hset
    · by_cases hgf : g = f
      · rw [hgf] at hs hg ⊢
        rw [View.seen_see, (h.seen p f l hs hg).2]
      · exact (update_of_ne hgf _ _).trans hs
    · rw [View.seen_see] at hk
      exact ⟨ht, Option.some.inj hk⟩
  · exact Keeps.same h hx

theorem counted_reap (q : Fin NPROC) : CountKept p (.reap q) := by
  intro s W Q h hQ
  change Keeps W p Q (.done (s.reap q))
  unfold Kernel.reap
  split
  · next r hr =>
    have hz := List.find?_some hr
    rw [decide_eq_true_eq] at hz
    refine Keeps.same (h.congr_proc _ (update_proj Proc.fds rfl) (fun r' => ?_)) (hQ _)
    by_cases hr' : r' = r
    · rw [hr', update_self]
      exact Or.inr ⟨hz.2, rfl⟩
    · rw [update_of_ne hr']
      exact Or.inl rfl
  · exact Keeps.same h (hQ _)

theorem Counted.modInode (h : Counted s W) (k : Fin NINODE) (g : Inode → Inode)
    (hg : ∀ i, (g i).ref = i.ref ∧ (g i).lock = i.lock ∧ (g i).dev = i.dev ∧ (g i).inum = i.inum) :
    Counted (s.modInode k g) W := by
  rcases hg (s.itable k) with ⟨href, hlock, hdev, hinum⟩
  refine { h with
    inodes := fun l => (update_proj Itable.Entry.ref href l).trans (h.inodes l)
    lock := fun l q => ?_
    sole := h.sole.keep k _ (fun hpos => href ▸ hpos) hdev hinum }
  rw [← h.lock l q, ← update_proj Itable.Entry.lock hlock l]
  rfl

end Steps

/-- Every step that the view of its process permits keeps the counts. -/
theorem counted_discipline : Discipline perform Local Counted BadCount := by
  refine ⟨fun s W p c Q h hL => ?_⟩
  change Keeps W p Q (perform c s)
  cases c with
  | panic e => exact hL
  | bread b => exact Keeps.same h (hL _)
  | bput b d =>
    exact Keeps.same { h with } hL
  | logWrite b => exact counted_logWrite b s W Q h hL
  | beginOp => exact counted_beginOp s W Q h hL
  | endOp => exact counted_endOp s W Q h hL
  | iget dev inum => exact counted_iget dev inum s W Q h hL
  | idup k =>
    have hpos := h.reach (Or.inl hL.1)
    exact ⟨_, hL.2, h.hold k _ rfl rfl (h.sole.keep k _ (fun _ => by omega) rfl rfl)⟩
  | acquire q k => exact counted_acquire q k s W Q h hL
  | release q k => exact counted_release q k s W Q h hL
  | inode k => exact Keeps.same h (hL _)
  | setInode k d | setValid k b =>
    exact Keeps.same (h.modInode k _ (fun _ => ⟨rfl, rfl, rfl, rfl⟩)) hL
  | iputTest q k => exact counted_iputTest q k s W Q h hL
  | iputUnlock k =>
    exact ⟨_, hL.2, h.setLock k _ false rfl rfl rfl ⟨(h.lock k p).mpr hL.1, rfl⟩⟩
  | iputDrop k => exact counted_iputDrop k s W Q h hL
  | filealloc => exact counted_filealloc s W Q h hL
  | filedup f => exact counted_filedup f s W Q h hL
  | filedrop f => exact counted_filedrop f s W Q h hL
  | file f => exact counted_file f s W Q h hL
  | openInode f k dev rd wr => exact counted_openInode f k dev rd wr s W Q h hL
  | openPipe f pi wr => exact counted_openPipe f pi wr s W Q h hL
  | setOff f off =>
    have hsame : ∀ {β : Type} (g : File → β), g { s.ftable f with off := off } = g (s.ftable f) →
        ∀ f', g (update s.ftable f { s.ftable f with off := off } f') = g (s.ftable f') :=
      fun g hg => update_proj g hg
    refine Keeps.same { h with
      inodes := fun k => ?_, files := fun f => ?_, free := fun f => ?_, ends := fun pi wr => ?_
      fresh := fun q f => ?_, seen := fun q f k => ?_ } hL
    · have hsum := Finset.sum_congr (Eq.refl Finset.univ)
        (fun f _ => hsame (File.inodes · k) rfl f)
      exact (h.inodes k).trans (by rw [← hsum]; rfl)
    · exact (hsame File.ref rfl f).trans (h.files f)
    · exact hsame (fun y => y.ref = 0 → y.type = .none) rfl f ▸ h.free f
    · have hsum := Finset.sum_congr (Eq.refl Finset.univ)
        (fun f _ => hsame (File.ends · pi wr) rfl f)
      exact (h.ends pi wr).trans (by rw [← hsum]; rfl)
    · exact hsame (fun y => _ → y.ref = 1 ∧ y.type = .none ∧ _) rfl f ▸ h.fresh q f
    · exact hsame (fun y => _ → _ → y.type.isInode = true ∧ y.ip = k) rfl f ▸ h.seen q f k
  | pipealloc => exact counted_pipealloc s W Q h hL
  | pipeclose pi wr => exact counted_pipeclose pi wr s W Q h hL
  | ofile q fd =>
    rcases hL with ⟨o, ho, hQ⟩
    rw [← (h.procs p q o ho).1] at hQ
    exact Keeps.same h hQ
  | setOfile q fd f => exact counted_setOfile q fd f s W Q h hL
  | cwd q =>
    rcases hL with ⟨o, ho, hQ⟩
    rw [← (h.procs p q o ho).1] at hQ
    exact Keeps.same h hQ
  | setCwd q k => exact counted_setCwd q k s W Q h hL
  | allocproc => exact counted_allocproc s W Q h hL
  | freeproc q => exact counted_freeproc q s W Q h hL
  | setParent q r =>
    exact Keeps.same (h.congr_proc _ (update_proj Proc.fds rfl)
      (fun q' => Or.inl (update_proj Proc.state (by rfl) q'))) hL
  | setRunnable q => exact counted_setRunnable q s W Q h hL
  | zombie q => exact counted_zombie q s W Q h hL
  | reap q => exact counted_reap q s W Q h hL

end Xv6
