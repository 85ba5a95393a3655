import Xv6.Sched.Naps
import Xv6.Sched.Tree

/-!
# The Invariant of the Machine

The parts of the invariant together, and the steps that write no slot.

Most steps have to do with one or two parts only. A step that changes nothing
but the record of what happened, or what a thread knows, is `Inv.note`. The
locks are taken and given up by `Inv.acquire` and `Inv.release`, whatever they
protect.

## Main definitions

* `Inv`: The invariant.
-/

namespace Xv6.Sched

open Function (update update_eq_self update_of_ne update_self)

open Sched.View

theorem Nap.eq_wait_of_lock {np : Nat} {D : Type} {w : Nap D} (h : (w.lock : Lock np) = .wait) :
    w = .wait := by
  cases w <;> simp only [Nap.lock, reduceCtorEq] at h ⊢

section Inv

variable {np nc : Nat} {D : Type} {init : Fin np} {m m' : Machine np nc D}
  {W : Thread np nc → View np D} {c : Fin nc} {v' : View np D}

/-- The invariant: the machine and the views of all threads. -/
structure Inv (init : Fin np) (m : Machine np nc D) (W : Thread np nc → View np D) : Prop where
  owned : Owned m W
  cpus : Cpus m W
  tree : Tree init m W
  trace : Trace m W
  naps : Naps m W
  kills : Kills m W

/-- The machines differ in the record only. -/
structure Machine.Like (m m' : Machine np nc D) : Prop where
  slot : m'.slot = m.slot
  parent : m'.parent = m.parent
  key : m'.key = m.key
  lock : m'.lock = m.lock
  noff : m'.noff = m.noff
  cproc : m'.cproc = m.cproc
  on : m'.on = m.on
  count : m'.ghost.count = m.ghost.count
  exits : m'.ghost.exits = m.ghost.exits
  reaps : m'.ghost.reaps = m.ghost.reaps

/-- The views differ only in what the thread knows or has seen. -/
structure View.Like (v v' : View np D) : Prop where
  slot : v'.slot = v.slot
  tab : v'.tab = v.tab
  pid : v'.pid = v.pid
  key : v'.key = v.key
  depth : v'.depth = v.depth
  cproc : v'.cproc = v.cproc
  born : v'.born = v.born
  named : v'.named = v.named
  reaping : v'.reaping = v.reaping
  picked : v'.picked = v.picked

theorem View.owns_congr {v v' : View np D} (hslot : v'.slot = v.slot) (htab : v'.tab = v.tab)
    (hpid : v'.pid = v.pid) (hkey : v'.key = v.key) (l : Lock np) : v'.owns l ↔ v.owns l := by
  cases l <;> simp only [owns, hslot, htab, hpid, hkey]

/-- The views differ only in the locks, what they protect, and who is awake. -/
structure View.Carry (v v' : View np D) : Prop where
  cproc : v'.cproc = v.cproc
  born : v'.born = v.born
  named : v'.named = v.named
  reaping : v'.reaping = v.reaping
  picked : v'.picked = v.picked
  commit : v'.commit = v.commit
  window : v'.window = v.window
  struck : v'.struck = v.struck

theorem Machine.table_congr (hslot : m'.slot = m.slot) (hparent : m'.parent = m.parent) :
    m'.table = m.table := by
  unfold Machine.table
  rw [hslot, hparent]

/-- A step on CPU `c` keeps the invariant, with a view in `post` for its thread. The
    only panic is that of `init` when it exits. -/
def Kept (init : Fin np) (m : Machine np nc D) (W : Thread np nc → View np D) (c : Fin nc)
    (i : Input D) (cmd : Cmd np D) (post : cmd.Ans → View np D → Prop) : Prop :=
  Outcome.Meets (fun e => e = .initExiting)
    (fun r => ∃ v, post r.1 v ∧ Inv init r.2 (update W (m.cur c) v))
    (perform c i cmd m)

/-- A step keeps the invariant if the view of its thread permits it. -/
def StepKept (init : Fin np) (m : Machine np nc D) (W : Thread np nc → View np D) (c : Fin nc)
    (i : Input D) (cmd : Cmd np D) : Prop :=
  ∀ post, Local init (m.cur c) cmd (W (m.cur c)) post → Kept init m W c i cmd post

namespace Inv

variable (h : Inv init m W)

include h

theorem inj (c' : Fin nc) (he : m.cur c' = m.cur c) : c' = c :=
  h.owned.holds.inj c' c he

theorem cpus_same (hslot : m'.slot = m.slot) (hon : m'.on = m.on) (hcproc : m'.cproc = m.cproc)
    (vcproc : v'.cproc = (W (m.cur c)).cproc)
    (vidle : m.cur c = .sched c → v'.depth = 0 → v'.cproc = none)
    (vrun : ∀ p, m.cur c = .proc p → v'.slot p = none → (m.slot p).state = .running)
    (vpicked : v'.picked = (W (m.cur c)).picked)
    (vslot : ∀ q, v'.picked = some q → v'.slot q = (W (m.cur c)).slot q) :
    Cpus m' (update W (m.cur c) v') := by
  refine h.cpus.change h.inj hon ?_ (fun c' _ => by rw [hcproc]) (fun p hp => ?_) vidle
    (fun p hp hs => ?_) (fun p _ hs _ => ?_) (fun q hq => ?_) (fun p _ hd => ?_)
  · rw [hcproc, vcproc]
    exact h.cpus.cproc c
  · rw [vcproc, hp]
    exact h.cpus.self p
  · rw [hslot]
    exact vrun p hp hs
  · rw [hslot]
    exact hs
  · rw [vslot q hq]
    rw [vpicked] at hq
    exact h.cpus.picked _ q hq
  · rw [hslot] at hd
    exact hd

/-- Whether the current thread of a process runs without its lock. -/
theorem running {p : Fin np} (hp : m.cur c = .proc p)
    (hs : (W (m.cur c)).slot p = none) : (m.slot p).state = .running := by
  rw [hp] at hs
  exact h.cpus.run c p (Machine.on_of_cur hp) hs

theorem idle (hc : m.cur c = .sched c) (hd : (W (m.cur c)).depth = 0) :
    (W (m.cur c)).cproc = none := by
  rw [hc] at hd ⊢
  exact h.cpus.idle c (Machine.off_of_cur hc).1 hd

/-- A picked process is in the view of the scheduler that picked it. -/
theorem picked_ne_none {t : Thread np nc} {q : Fin np}
    (hq : (W t).picked = some q) : (W t).slot q ≠ none := by
  rcases (h.cpus.picked t q hq).2.1 with ⟨x, hx, _⟩
  exact owns_proc hx

theorem owned_same (hm : (m'.slot, m'.parent, m'.key, m'.lock, m'.noff, m'.on) =
      (m.slot, m.parent, m.key, m.lock, m.noff, m.on))
    (hv : (v'.slot, v'.tab, v'.pid, v'.key, v'.depth) = ((W (m.cur c)).slot, (W (m.cur c)).tab,
      (W (m.cur c)).pid, (W (m.cur c)).key, (W (m.cur c)).depth)) :
    Owned m' (update W (m.cur c) v') := by
  simp only [Prod.mk.injEq] at hm hv
  rcases hm with ⟨hslot, hparent, hkey, hlock, hnoff, hon⟩
  rcases hv with ⟨vslot, vtab, vpid, vkey, vdepth⟩
  have htab := Machine.table_congr hslot hparent
  refine h.owned.change hlock hnoff hon (owns_congr vslot vtab vpid vkey) vdepth
    (fun q x hx => ?_) (fun T hT => ?_) (fun k x hx => ?_) (fun q _ => by rw [hslot])
    (fun _ => htab) (fun k _ => by rw [hkey])
  · rw [vslot] at hx
    rw [hslot]
    exact h.owned.slot _ q x hx
  · rw [vtab] at hT
    rw [htab]
    exact h.owned.tab _ T hT
  · rw [vkey] at hx
    rw [hkey]
    exact h.owned.key _ k x hx

theorem soft (hm : m.Like m') (hv : (W (m.cur c)).Like v') (hnaps : Naps m' (update W (m.cur c) v'))
    (hkills : Kills m' (update W (m.cur c) v')) :
    Inv init m' (update W (m.cur c) v') := by
  refine ⟨?_, ?_, ?_, ?_, hnaps, hkills⟩
  · exact h.owned_same (by rw [hm.slot, hm.parent, hm.key, hm.lock, hm.noff, hm.on])
      (by rw [hv.slot, hv.tab, hv.pid, hv.key, hv.depth])
  · refine h.cpus_same hm.slot hm.on hm.cproc hv.cproc (fun hc hd => ?_) (fun p hp hs => ?_)
      hv.picked (fun q _ => by rw [hv.slot])
    · rw [hv.depth] at hd
      rw [hv.cproc]
      exact h.idle hc hd
    · rw [hv.slot] at hs
      exact h.running hp hs
  · refine h.tree.congr (SameLife.refl hm.slot) hm.parent hv.born hv.named hv.reaping
      (fun q hq => ?_)
    rw [hv.reaping] at hq
    rw [hv.tab, hv.slot]
    exact ⟨(h.tree.reaping _ q hq).1, (h.tree.reaping _ q hq).2.1⟩
  · exact h.trace.congr hm.exits hm.reaps (le_of_eq hm.count.symm)
      (fun q => Or.inr (by rw [hm.slot]; exact SameEnd.refl _))
      (fun _ _ => exists_reaping hv.reaping.trans)

theorem naps_same (howns : ∀ l, v'.owns l ↔ (W (m.cur c)).owns l)
    (hslot : m'.slot = m.slot) (hparent : m'.parent = m.parent) (hkey : m'.key = m.key)
    (vcommit : v'.commit = (W (m.cur c)).commit)
    (vclear : ∀ w p, v'.clear w p → (W (m.cur c)).clear w p ∨
      ((W (m.cur c)).owns w.lock ∧ (m'.Excused w ∨ (m.slot p).nap ≠ some w)))
    (hrude : ∀ i, m.ghost.rude i = true → m'.ghost.rude i = true) :
    Naps m' (update W (m.cur c) v') := by
  refine h.naps.change (fun p => by rw [hslot]; exact Naps.Same.refl _) hrude vcommit
    (fun p _ _ hs => (howns (.proc p)).mpr hs) (fun w p hw => ?_)
    (fun w p hno _ hr => Or.inr (Naps.ready_of_same (Machine.table_congr hslot hparent) hkey
      (fun w hw => (howns _).mpr hw) hno hr))
  rw [howns]
  rcases vclear w p hw with hold | hnew
  · refine (h.naps.clear _ w p hold).imp_right (Or.imp_left ?_)
    rintro ⟨i, hw, hi⟩
    exact ⟨i, hw, hrude i hi⟩
  · exact hnew

/-- What the thread knows or has seen changes, or the record of it. -/
theorem note (hm : m.Like m') (hv : (W (m.cur c)).Like v')
    (vcommit : v'.commit = (W (m.cur c)).commit)
    (vclear : ∀ w p, v'.clear w p → (W (m.cur c)).clear w p ∨
      ((W (m.cur c)).owns w.lock ∧ (m'.Excused w ∨ (m.slot p).nap ≠ some w)))
    (hrude : ∀ i, m.ghost.rude i = true → m'.ghost.rude i = true)
    (hkills : Kills m' (update W (m.cur c) v')) : Inv init m' (update W (m.cur c) v') :=
  h.soft hm hv (h.naps_same (owns_congr hv.slot hv.tab hv.pid hv.key) hm.slot hm.parent
    hm.key vcommit vclear hrude) hkills

/-- A step that writes no slot and changes nothing that its thread is in the middle
    of: the parts that are left are about locks and what they protect. -/
theorem carry (hv : (W (m.cur c)).Carry v') (hslot : m'.slot = m.slot)
    (hparent : m'.parent = m.parent) (hon : m'.on = m.on) (hcproc : m'.cproc = m.cproc)
    (hghost : m'.ghost = m.ghost)
    (vidle : m.cur c = .sched c → v'.depth = 0 → (W (m.cur c)).cproc = none)
    (vrun : ∀ p, m.cur c = .proc p → v'.slot p = none → (m.slot p).state = .running)
    (vslot : ∀ q, (W (m.cur c)).picked = some q → v'.slot q = (W (m.cur c)).slot q)
    (vreap : ∀ q, (W (m.cur c)).reaping = some q → v'.tab ≠ none ∧ v'.slot q ≠ none)
    (howned : Owned m' (update W (m.cur c) v')) (hnaps : Naps m' (update W (m.cur c) v')) :
    Inv init m' (update W (m.cur c) v') := by
  refine ⟨howned, ?_, ?_, ?_, hnaps, ?_⟩
  · refine h.cpus_same hslot hon hcproc hv.cproc (fun hc hd => ?_) vrun hv.picked (fun q hq => ?_)
    · rw [hv.cproc]
      exact vidle hc hd
    · rw [hv.picked] at hq
      exact vslot q hq
  · refine h.tree.congr (SameLife.refl hslot) hparent hv.born hv.named hv.reaping (fun q hq => ?_)
    rw [hv.reaping] at hq
    exact vreap q hq
  · exact h.trace.congr (by rw [hghost]) (by rw [hghost]) (by rw [hghost])
      (fun q => Or.inr (by rw [hslot]; exact SameEnd.refl _))
      (fun _ _ => exists_reaping hv.reaping.trans)
  · exact h.kills.congr (by rw [hslot, hghost]) (by rw [hv.window, hv.struck])

/-! ### Locks -/

theorem not_commit {q : Fin np} (hl : m.lock (.proc q) = none) :
    (W (.proc q)).commit = none := by
  cases hw : (W (.proc q)).commit with
  | none => rfl
  | some w =>
    rcases h.naps.commit _ w hw with ⟨p, hp, hs, _⟩
    rw [← Thread.proc.inj hp] at hs
    exact absurd hs (h.owned.holds.free_iff.mp hl (.proc q))

theorem acquire (l : Lock np) (hl : m.lock l = none)
    (howns : ∀ l', v'.owns l' ↔ l' = l ∨ (W (m.cur c)).owns l') (hv : (W (m.cur c)).Carry v')
    (hdepth : v'.depth = (W (m.cur c)).depth + 1)
    (hslot : ∀ q x, v'.slot q = some x → m.slot q = x)
    (htab : ∀ T, v'.tab = some T → T = m.table)
    (hkey : ∀ k x, v'.key k = some x → m.key k = x)
    (hclear : ∀ w p, v'.clear w p → (W (m.cur c)).clear w p ∨
      (v'.owns w.lock ∧ (m.Excused w ∨ (m.slot p).nap ≠ some w))) :
    Inv init { m with
      lock := update m.lock l (some c)
      noff := update m.noff c (m.noff c + 1) } (update W (m.cur c) v') := by
  -- What the thread held it still holds.
  have hold : ∀ l', (W (m.cur c)).owns l' → v'.owns l' := fun l' ho => (howns l').mpr (Or.inr ho)
  have hsame : ∀ q, (W (m.cur c)).slot q ≠ none → v'.slot q = (W (m.cur c)).slot q := by
    intro q hq
    rcases Option.ne_none_iff_exists'.mp hq with ⟨x, hx⟩
    rcases Option.ne_none_iff_exists'.mp (hold (.proc q) hq) with ⟨y, hy⟩
    rw [hx, hy, ← hslot q y hy, h.owned.slot _ q x hx]
  refine h.carry hv rfl rfl rfl rfl rfl (fun _ hd => ?_) (fun p hp hs => ?_)
    (fun q hq => hsame q (h.picked_ne_none hq)) (fun q hq => ?_)
    (h.owned.acquire l hl howns hdepth hslot htab hkey) ?_
  · rw [hdepth] at hd
    exact absurd hd (Nat.succ_ne_zero _)
  · refine h.running hp ?_
    by_contra hc
    exact hold (.proc p) hc hs
  · rcases h.tree.reaping _ q hq with ⟨h₁, h₂, _⟩
    exact ⟨hold .wait h₁, hold (.proc q) h₂⟩
  · refine h.naps.change (fun p => Naps.Same.refl _) (fun _ => id) hv.commit
      (fun p _ _ => hold (.proc p)) (fun w p hw => ?_)
      (fun w p hno _ hr => Or.inr (Naps.ready_of_same rfl rfl (fun w => hold w.lock) hno hr))
    rcases hclear w p hw with hold' | hnew
    · exact ⟨hold _ (h.naps.clear _ w p hold').1, (h.naps.clear _ w p hold').2⟩
    · exact hnew

theorem release (l : Lock np) (ho : (W (m.cur c)).owns l)
    (howns : ∀ l', v'.owns l' ↔ l' ≠ l ∧ (W (m.cur c)).owns l') (hv : (W (m.cur c)).Carry v')
    (hdepth : v'.depth = (W (m.cur c)).depth - 1)
    (hslot : ∀ q, l ≠ .proc q → v'.slot q = (W (m.cur c)).slot q)
    (htab : ∀ T, v'.tab = some T → (W (m.cur c)).tab = some T)
    (hkey : ∀ k x, v'.key k = some x → (W (m.cur c)).key k = some x)
    (hidle : m.cur c = .sched c → (W (m.cur c)).cproc = none)
    (hself : ∀ q, l = .proc q → m.cur c = .proc q → (m.slot q).state = .running ∧
      (W (m.cur c)).commit = none)
    (hpicked : ∀ q, l = .proc q → (W (m.cur c)).picked ≠ some q)
    (hreaping : ∀ q, (W (m.cur c)).reaping = some q → l ≠ .wait ∧ l ≠ .proc q)
    (hclear : ∀ w p, v'.clear w p → w.lock ≠ l ∧ ((W (m.cur c)).clear w p ∨
      ((W (m.cur c)).owns w.lock ∧ (m.slot p).nap ≠ some w)))
    (hquiet : ∀ w p, w.lock = l → (m.slot p).nap = some w → m.Ready w p → m.Excused w) :
    Inv init { m with
      lock := update m.lock l none
      noff := update m.noff c (m.noff c - 1) } (update W (m.cur c) v') := by
  have hkeep : ∀ l', l ≠ l' → (W (m.cur c)).owns l' → v'.owns l' :=
    fun l' hl ho => (howns l').mpr ⟨hl.symm, ho⟩
  have hslot' : ∀ q x, v'.slot q = some x → (W (m.cur c)).slot q = some x := by
    intro q x hx
    rw [hslot q (fun hl => ((howns _).mp (owns_proc hx)).1 hl.symm)] at hx
    exact hx
  refine h.carry hv rfl rfl rfl rfl rfl (fun hc _ => hidle hc) (fun p hp hs => ?_)
    (fun q hq => hslot q (fun hl => hpicked q hl hq)) (fun q hq => ?_)
    (h.owned.release l ho howns hdepth hslot' htab hkey) ?_
  · by_cases hl : l = .proc p
    · exact (hself p hl hp).1
    · rw [hslot p hl] at hs
      exact h.running hp hs
  · rcases h.tree.reaping _ q hq with ⟨h₁, h₂, _⟩
    exact ⟨hkeep .wait (hreaping q hq).1 h₁, hkeep (.proc q) (hreaping q hq).2 h₂⟩
  · refine h.naps.change (fun p => Naps.Same.refl _) (fun _ => id) hv.commit
      (fun p hp hc hs => hkeep (.proc p) (fun hl => hc (hself p hl hp).2) hs) (fun w p hw => ?_)
      (fun w p hno hw hr => ?_)
    · rw [howns]
      rcases hclear w p hw with ⟨hl, hc | ⟨hown, hn⟩⟩
      · exact ⟨⟨hl, (h.naps.clear _ w p hc).1⟩, (h.naps.clear _ w p hc).2⟩
      · exact ⟨⟨hl, hown⟩, Or.inr hn⟩
    · by_cases hl : w.lock = l
      · exact Or.inl (hquiet w p hl hw hr)
      · exact Or.inr ⟨fun ho => hno (hkeep _ (fun he => hl he.symm) ho), hr⟩

/-- What the current thread finds in a slot whose lock is free. -/
theorem admits {q : Fin np} (hl : m.lock (.proc q) = none)
    (hq : (W (m.cur c)).slot q = none) : Admits (m.cur c) (W (m.cur c)) q (m.slot q) := by
  have hcommit := h.not_commit hl
  refine ⟨fun ht => ?_, fun _ => h.naps.napOk hcommit, fun hb => (h.tree.born _ q hb).1,
    fun T hT => ?_⟩
  · have hrun := h.running ht hq
    refine ⟨hrun, ?_⟩
    cases hw : (m.slot q).nap with
    | none => rfl
    | some w =>
      have := (h.naps.napOk hcommit w hw).1
      rw [hrun] at this
      exact nomatch this
  · rw [h.owned.tab _ T hT]
    exact decide_eq_true_iff

theorem perform_acquire (i : Input D) (l : Lock np)
    (ho : ¬(W (m.cur c)).owns l) (post : Unit → View np D → Prop)
    (hfree : m.lock l = none → ∃ v, post () v ∧ Inv init { m with
      lock := update m.lock l (some c)
      noff := update m.noff c (m.noff c + 1) } (update W (m.cur c) v)) :
    Kept init m W c i (.acquire l) post := by
  refine (Outcome.meets_bind _ (m.acquire c l) _).mpr ?_
  unfold Machine.acquire
  cases hl : m.lock l with
  | none => exact hfree hl
  | some c' =>
    have hne : c' ≠ c := fun he => ho ((h.owned.holds.lock l c).mp (by rw [hl, he]))
    simp only [if_neg hne]
    trivial

theorem perform_release (i : Input D) (l : Lock np)
    (ho : (W (m.cur c)).owns l) (post : Unit → View np D → Prop)
    (hok : ∃ v, post () v ∧ Inv init { m with
      lock := update m.lock l none
      noff := update m.noff c (m.noff c - 1) } (update W (m.cur c) v)) :
    Kept init m W c i (.release l) post := by
  refine (Outcome.meets_bind _ (m.release c l) _).mpr ?_
  unfold Machine.release
  have hl : ¬m.lock l ≠ some c := not_not_intro ((h.owned.holds.lock l c).mpr ho)
  have hn : ¬m.noff c < 1 := by
    rw [h.owned.holds.noff c]
    exact Nat.not_lt.mpr (h.owned.holds.depth_pos ho)
  rw [if_neg hl, if_neg hn]
  exact hok

theorem acquire_proc (i : Input D) (q : Fin np) :
    StepKept init m W c i (.acquire (.proc q)) := by
  intro post hloc
  rcases hloc with ⟨hq, hpost⟩
  refine h.perform_acquire i (.proc q) (fun hc => hc hq) post (fun hl => ?_)
  refine ⟨_, hpost (m.slot q) (h.admits hl hq), ?_⟩
  refine h.acquire _ hl (owns_lockSlot _ q _)
    (by constructor <;> rfl) rfl (fun r x hx => ?_) (h.owned.tab _)
    (h.owned.key _) (fun _ _ => Or.inl)
  by_cases hr : r = q
  · rw [hr, slot_lockSlot_self, Option.some.injEq] at hx
    rw [hr]
    exact hx
  · rw [slot_lockSlot_of_ne _ _ hr] at hx
    exact h.owned.slot _ r x hx

theorem acquire_wait (i : Input D) : StepKept init m W c i (.acquire .wait) := by
  intro post hloc
  rcases hloc with ⟨htab, _, hpost⟩
  refine h.perform_acquire i .wait (fun hc => hc htab) post (fun hl => ?_)
  refine ⟨_, hpost m.table (fun q hq => ?_), ?_⟩
  · rw [show m.table.dead q = decide ((m.slot q).state = .zombie) from rfl,
      (h.tree.born _ q hq).1]
    rfl
  · refine h.acquire _ hl (owns_lockTab _ _)
      (by constructor <;> rfl) rfl (h.owned.slot _)
      (fun T hT => (Option.some.inj hT).symm) (h.owned.key _) (fun w p hw => ?_)
    rcases hw with hw | ⟨hw, hr⟩
    · exact Or.inl hw
    · -- Nobody holds the lock, so nobody sleeps who has a zombie child.
      rw [hw]
      refine Or.inr ⟨(owns_lockTab _ _ _).mpr (Or.inl rfl), ?_⟩
      by_cases hnap : (m.slot p).nap = some .wait
      · exact Or.inl (h.naps.quiet .wait p (h.owned.holds.free_iff.mp hl) hnap
          (Or.inl ⟨rfl, hr⟩))
      · exact Or.inr hnap

theorem acquire_pid (i : Input D) : StepKept init m W c i (.acquire .pid) := by
  intro post hloc
  rcases hloc with ⟨hpid, hpost⟩
  refine h.perform_acquire i _ (fun hc => ?_) post (fun hl => ?_)
  · have : (W (m.cur c)).pid = true := hc
    rw [hpid] at this
    exact Bool.false_ne_true this
  · exact ⟨_, hpost, h.acquire _ hl (owns_lockPid _)
      (by constructor <;> rfl) rfl (h.owned.slot _) (h.owned.tab _)
      (h.owned.key _) (fun _ _ => Or.inl)⟩

theorem acquire_key (i : Input D) (k : Key) :
    StepKept init m W c i (.acquire (.key k)) := by
  intro post hloc
  rcases hloc with ⟨hk, hpost⟩
  refine h.perform_acquire i (.key k) (fun hc => hc hk) post (fun hl => ?_)
  refine ⟨_, hpost (m.key k), ?_⟩
  refine h.acquire _ hl (owns_lockKey _ k _)
    (by constructor <;> rfl) rfl (h.owned.slot _) (h.owned.tab _)
    (fun k' x hx => ?_) (fun w p hw => ?_)
  · change update (W (m.cur c)).key k (some (m.key k)) k' = some x at hx
    by_cases hkk : k' = k
    · subst hkk
      rw [update_self] at hx
      exact Option.some.inj hx
    · rw [update_of_ne hkk] at hx
      exact h.owned.key _ k' x hx
  · rcases hw with hw | hw
    · exact Or.inl hw
    · have hlock : (w.lock : Lock np) = .key k := Nap.lock_of_readyAt hw
      refine Or.inr ⟨(owns_lockKey _ _ _ _).mpr (Or.inl hlock), ?_⟩
      by_cases hnap : (m.slot p).nap = some w
      · refine Or.inl (h.naps.quiet w p ?_ hnap (Or.inr ⟨k, hw⟩))
        rw [hlock]
        exact h.owned.holds.free_iff.mp hl
      · exact Or.inr hnap

theorem release_proc (i : Input D) (q : Fin np) :
    StepKept init m W c i (.release (.proc q)) := by
  intro post hloc
  rcases hloc with ⟨x, hx, hmay, hpost⟩
  have hslot := h.owned.slot _ q x hx
  have hown := owns_proc hx
  refine h.perform_release i _ hown post ⟨_, hpost, ?_⟩
  refine h.release _ hown (owns_unlockSlot _ q x)
    (by constructor <;> rfl) rfl (fun r hr => ?_) (fun _ => id)
    (fun _ _ => id) (hmay.sched c) (fun r hr hcur => ?_) (fun r hr => ?_)
    (fun r hr => ⟨nofun, fun hc => ?_⟩) (fun w p hw => ⟨w.lock_ne_proc q, ?_⟩)
    (fun w p hl => absurd hl (w.lock_ne_proc q))
  · exact update_of_ne (fun he => hr (by rw [he])) _ _
  · rw [← Lock.proc.inj hr] at hcur ⊢
    rw [hslot]
    exact hmay.self hcur
  · rw [← Lock.proc.inj hr]
    exact hmay.picked
  · rw [← Lock.proc.inj hc] at hr
    exact hmay.reaping hr
  · -- What was seen in the slot is true, and what was known is still true.
    rcases hw with hw | ⟨hp, hn, ho⟩
    · exact Or.inl hw
    · rw [hp, hslot]
      exact Or.inr ⟨ho, hn⟩

theorem release_wait (i : Input D) : StepKept init m W c i (.release .wait) := by
  intro post hloc
  rcases hloc with ⟨hreap, hsched, T, hT, hready, hpost⟩
  have hown := owns_wait hT
  refine h.perform_release i _ hown post ⟨_, hpost, ?_⟩
  refine h.release _ hown (owns_unlockTab _)
    (by constructor <;> rfl) rfl (fun _ _ => rfl) nofun (fun _ _ => id)
    (fun hc => absurd hc (hsched c)) nofun nofun (fun r hr => nomatch hreap.symm.trans hr)
    (fun w p hw => ⟨fun hl => hw.2 (Nap.eq_wait_of_lock hl), Or.inl hw.1⟩)
    (fun w p hl hnap hr => ?_)
  have hwait := Nap.eq_wait_of_lock hl
  rw [hwait] at hnap hr ⊢
  rcases hr with ⟨_, hr⟩ | ⟨k, hr⟩
  · rw [← h.owned.tab _ T hT] at hr
    exact (h.naps.clear _ _ p (hready p hr)).2.resolve_right (fun hne => hne hnap)
  · exact hr.elim

theorem release_pid (i : Input D) : StepKept init m W c i (.release .pid) := by
  intro post hloc
  rcases hloc with ⟨hpid, hsched, hpost⟩
  refine h.perform_release i .pid hpid post ⟨_, hpost, ?_⟩
  exact h.release .pid hpid (owns_unlockPid _)
    (by constructor <;> rfl) rfl (fun _ _ => rfl) (fun _ => id)
    (fun _ _ => id) (fun hc => absurd hc (hsched c)) nofun nofun (fun _ _ => ⟨nofun, nofun⟩)
    (fun w p hw => ⟨w.lock_ne_pid, Or.inl hw⟩) (fun w p hl => absurd hl w.lock_ne_pid)

theorem release_key (i : Input D) (k : Key) :
    StepKept init m W c i (.release (.key k)) := by
  intro post hloc
  rcases hloc with ⟨hsched, x, hx, hready, hpost⟩
  have hown := owns_key hx
  refine h.perform_release i _ hown post ⟨_, hpost, ?_⟩
  refine h.release _ hown (owns_unlockKey _ k)
    (by constructor <;> rfl) rfl (fun _ _ => rfl) (fun _ => id)
    (fun k' y hy => ?_) (hsched c) nofun nofun (fun _ _ => ⟨nofun, nofun⟩)
    (fun w p hw => ⟨hw.2, Or.inl hw.1⟩) (fun w p hl hnap hr => ?_)
  · change update (W (m.cur c)).key k none k' = some y at hy
    by_cases hkk : k' = k
    · subst hkk
      rw [update_self] at hy
      exact nomatch hy
    · rw [update_of_ne hkk] at hy
      exact hy
  · rcases hr with ⟨hwait, _⟩ | ⟨k', hr⟩
    · rw [hwait] at hl
      exact nomatch hl
    · have hkk : k' = k :=
        Lock.key.inj (((Nap.lock_of_readyAt hr : (w.lock : Lock np) = _).symm).trans hl)
      subst hkk
      rw [h.owned.key _ k' x hx] at hr
      exact (h.naps.clear _ _ p (hready w p hr)).2.resolve_right (fun hne => hne hnap)

/-! ### Steps that only look -/

theorem keep {P : View np D → Prop} (hp : P (W (m.cur c))) :
    ∃ v, P v ∧ Inv init m (update W (m.cur c) v) :=
  ⟨W (m.cur c), hp, by rw [update_eq_self]; exact h⟩

theorem holding (i : Input D) (l : Lock np) :
    StepKept init m W c i (.holding l) := by
  intro post hloc
  refine h.keep (P := post (decide (m.lock l = some c))) ?_
  by_cases hl : m.lock l = some c
  · rw [decide_eq_true hl]
    exact hloc.1 ((h.owned.holds.lock l c).mp hl)
  · rw [decide_eq_false hl]
    exact hloc.2 (fun ho => hl ((h.owned.holds.lock l c).mpr ho))

theorem noff (i : Input D) : StepKept init m W c i .noff := by
  intro post hloc
  refine h.keep (P := post (m.noff c)) ?_
  rw [h.owned.holds.noff c]
  exact hloc

theorem read (i : Input D) (q : Fin np) : StepKept init m W c i (.read q) := by
  intro post hloc
  refine h.keep (P := post (m.slot q)) ?_
  rcases hloc with ⟨x, hx, hpost⟩ | ⟨hcur, hs, hpost⟩
  · rw [h.owned.slot _ q x hx]
    exact hpost
  · exact hpost _ (h.running hcur hs)

theorem parent (i : Input D) (q : Fin np) :
    StepKept init m W c i (.parent q) := by
  intro post hloc
  refine h.keep (P := post (m.parent q)) ?_
  rcases hloc with ⟨T, hT, hpost⟩
  rw [h.owned.tab _ T hT] at hpost
  exact hpost

theorem get (i : Input D) (k : Key) : StepKept init m W c i (.get k) := by
  intro post hloc
  refine h.keep (P := post (m.key k)) ?_
  rcases hloc with ⟨x, hx, hpost⟩
  rw [h.owned.key _ k x hx]
  exact hpost

/-! ### What is known and recorded -/

theorem myproc (i : Input D) : StepKept init m W c i .myproc := by
  intro post hloc
  refine ⟨(W (m.cur c)).knowSelf (m.cur c), ?_, ?_⟩
  · change post (m.cproc c) _
    rw [h.cpus.cproc c]
    exact hloc
  · refine h.note (by constructor <;> rfl)
      (by constructor <;> rfl) rfl (fun w p hw => ?_) (fun _ => id)
      (h.kills.congr rfl rfl)
    rcases hw with hw | ⟨hcur, hcommit, hs, ho⟩
    · exact Or.inl hw
    · -- The process runs, and has not decided to sleep.
      refine Or.inr ⟨ho, Or.inr (fun hnap => ?_)⟩
      rcases h.naps.nap p w hnap with hc | ⟨hc, _⟩
      · rw [← hcur, hcommit] at hc
        exact nomatch hc
      · rw [h.running hcur hs] at hc
        exact nomatch hc

theorem setNextpid (n : BitVec 32) :
    Inv init { m with nextpid := n } (update W (m.cur c) (W (m.cur c))) :=
  h.note (by constructor <;> rfl)
    (by constructor <;> rfl) rfl (fun _ _ => Or.inl) (fun _ => id)
    (h.kills.congr rfl rfl)

theorem spawn :
    Inv init m (update W (m.cur c) { W (m.cur c) with spawned := true }) :=
  h.note (by constructor <;> rfl)
    (by constructor <;> rfl) rfl (fun _ _ => Or.inl) (fun _ => id)
    (h.kills.congr rfl rfl)

theorem copyout (f : Fin np → Option Int) :
    Inv init { m with status := f } (update W (m.cur c) (W (m.cur c))) :=
  h.note (by constructor <;> rfl)
    (by constructor <;> rfl) rfl (fun _ _ => Or.inl) (fun _ => id)
    (h.kills.congr rfl rfl)

theorem window (p : Fin np) (b : Bool) (ht : m.cur c = .proc p)
    (hb : b = true → (m.slot p).killed = false) :
    Inv init { m with ghost := { m.ghost with window := update m.ghost.window p b } }
      (update W (m.cur c) { W (m.cur c) with window := b }) := by
  refine h.note (by constructor <;> rfl)
    (by constructor <;> rfl) rfl (fun _ _ => Or.inl) (fun _ => id)
    (h.kills.ghostStep rfl rfl rfl (fun r hr => ?_) (fun r hr => ?_) (fun r hr hw _ => ?_)
      (fun r hr => Or.inl hr) (fun pid hs => hs))
  · rw [Thread.proc.inj (hr.symm.trans ht)]
    exact update_self _ _ _
  · exact update_of_ne (fun he => hr (by rw [he, ht])) _ _
  · rw [Thread.proc.inj (hr.symm.trans ht)]
    exact hb hw

theorem rude (j : Nat) (hown : (W (m.cur c)).key (.pipe j) ≠ none) :
    Inv init { m with ghost := { m.ghost with rude := update m.ghost.rude j true } }
      (update W (m.cur c) { W (m.cur c) with
        clear := fun w p => (W (m.cur c)).clear w p ∨ w = .read j }) := by
  refine h.note (by constructor <;> rfl) (by constructor <;> rfl) rfl (fun w p hw => ?_)
    (fun i hi => ?_) (h.kills.congr rfl rfl)
  · refine hw.imp_right (fun hw => ?_)
    rw [hw]
    exact ⟨hown, Or.inl ⟨j, rfl, update_self _ _ _⟩⟩
  · change update m.ghost.rude j true i = true
    by_cases hij : i = j
    · rw [hij, update_self]
    · rw [update_of_ne hij]
      exact hi

theorem returned (pid : BitVec 32) (r : Int) (hr : r = 0 → (W (m.cur c)).struck = some pid) :
    Inv init { m with ghost := { m.ghost with returned := (pid, r) :: m.ghost.returned } }
      (update W (m.cur c) { W (m.cur c) with struck := none }) := by
  refine h.note (by constructor <;> rfl)
    (by constructor <;> rfl) rfl (fun _ _ => Or.inl) (fun _ => id)
    (h.kills.ghostStep rfl rfl rfl (fun p hp => ?_) (fun p _ => rfl) (fun p hp hw hu => ?_)
      (fun s hs => ?_) nofun)
  · exact (h.kills.window p).trans (by rw [hp])
  · refine h.kills.spared hu p ?_
    rw [h.kills.window p, ← hp]
    exact hw
  · rcases List.mem_cons.mp hs with hs | hs
    · rw [hs]
      exact Or.inr (fun h0 => h.kills.struck _ pid (hr h0))
    · exact Or.inl hs

/-! ### Variables, parents and the current process -/

theorem set (k : Key) (x : k.Val D) (hk : (W (m.cur c)).key k ≠ none) :
    Inv init { m with key := update m.key k x }
      (update W (m.cur c) ((W (m.cur c)).setKey k x)) := by
  have howns : ∀ l, ((W (m.cur c)).setKey k x).owns l ↔ (W (m.cur c)).owns l := by
    intro l
    cases l with
    | key k' =>
      refine (update_some_ne_none (W (m.cur c)).key k k' x).trans ⟨fun hor => ?_, Or.inr⟩
      rcases hor with he | hne
      · rw [he]
        exact hk
      · exact hne
    | _ => exact Iff.rfl
  refine h.carry (by constructor <;> rfl) rfl rfl rfl rfl rfl
    h.idle (fun _ => h.running) (fun _ _ => rfl)
    (fun q hq => ⟨(h.tree.reaping _ q hq).1, (h.tree.reaping _ q hq).2.1⟩) ?_ ?_
  · refine h.owned.change rfl rfl rfl howns rfl (h.owned.slot _) (h.owned.tab _)
      (fun k' y hy => ?_) (fun _ _ => rfl) (fun _ => rfl) (fun k' hk' => ?_)
    · change update (W (m.cur c)).key k (some x) k' = some y at hy
      by_cases hkk : k' = k
      · subst hkk
        rw [update_self] at hy
        rw [← Option.some.inj hy]
        exact update_self _ _ _
      · rw [update_of_ne hkk] at hy
        rw [← h.owned.key _ k' y hy]
        exact update_of_ne hkk _ _
    · exact update_of_ne (fun he => hk' (by rw [he]; exact hk)) _ _
  · refine h.naps.change (fun p => Naps.Same.refl _) (fun _ => id) rfl (fun _ _ _ hs => hs)
      (fun w p hw => ?_)
      (fun w p hno hnap hr => Or.inr ⟨fun ho => hno ((howns _).mpr ho), ?_⟩)
    · rw [howns]
      exact h.naps.clear _ w p hw
    · -- The variable is not one for which somebody waits whose lock is free.
      rcases hr with hr | ⟨k', hr⟩
      · exact Or.inl hr
      · refine Or.inr ⟨k', ?_⟩
        have hkk : k' ≠ k := by
          intro he
          refine hno ((howns _).mpr ?_)
          rw [show (w.lock : Lock np) = .key k' from Nap.lock_of_readyAt hr, he]
          exact hk
        change w.readyAt k' (update m.key k x k') at hr
        rw [update_of_ne hkk] at hr
        exact hr

theorem setProc (o : Option (Fin np)) (ht : ∃ c', m.cur c = .sched c')
    (ho : o = none ∨ (W (m.cur c)).depth = 1) :
    Inv init { m with cproc := update m.cproc c o }
      (update W (m.cur c) { W (m.cur c) with cproc := o }) := by
  rcases ht with ⟨c', hc'⟩
  have hproc : ∀ p, m.cur c ≠ .proc p := fun p hp => by
    rw [hc'] at hp
    exact nomatch hp
  refine ⟨h.owned_same rfl rfl, ?_, ?_, ?_, ?_, h.kills.congr rfl rfl⟩
  · refine h.cpus.change h.inj rfl (update_self _ _ _)
      (fun c'' hc'' => update_of_ne hc'' _ _) (fun p hp => absurd hp (hproc p))
      (fun _ hd => ?_) (fun p hp => absurd hp (hproc p)) (fun _ _ hs _ => hs) (h.cpus.picked _)
      (fun _ _ hd => hd)
    refine ho.resolve_right (fun h1 => ?_)
    have hd' : (W (m.cur c)).depth = 0 := hd
    omega
  · exact h.tree.congr (SameLife.refl rfl) rfl rfl rfl rfl
      (fun q hq => ⟨(h.tree.reaping _ q hq).1, (h.tree.reaping _ q hq).2.1⟩)
  · exact h.trace.congr rfl rfl (le_refl _) (fun q => Or.inr (SameEnd.refl _))
      (fun _ _ => exists_reaping id)
  · exact h.naps_same (owns_congr rfl rfl rfl rfl) rfl rfl rfl rfl (fun _ _ => Or.inl) (fun _ => id)

theorem setParent (q : Fin np) (o : Option (Fin np)) {T : Table np}
    (hT : (W (m.cur c)).tab = some T) (named : Bool)
    (hchild : ∀ r, o = some r → (m.slot r).state.alive = true)
    (horphan : o = none → (W (m.cur c)).reaping = some q)
    (hunused : (m.slot q).state = .unused → o = none)
    (hborn' : ∀ t', t' ≠ m.cur c → (W t').born ≠ some q)
    (hself : (W (m.cur c)).born = some q → ∃ p, m.cur c = .proc p ∧
      o = if named then some p else none)
    (hnamed : (W (m.cur c)).born ≠ some q → named = (W (m.cur c)).named) :
    Inv init { m with parent := update m.parent q o }
      (update W (m.cur c)
        { (W (m.cur c)).setTab (T.setParent q o) with named := named }) := by
  have hne : ∀ {a : Table np}, some a ≠ none := nofun
  have hown := owns_wait hT
  have howns : ∀ l, ({ (W (m.cur c)).setTab (T.setParent q o) with named := named } :
      View np D).owns l ↔ (W (m.cur c)).owns l := by
    intro l
    cases l with
    | wait => exact ⟨fun _ => hown, fun _ => hne⟩
    | _ => exact Iff.rfl
  refine ⟨?_, ?_, ?_, h.trace.congr rfl rfl (le_refl _) (fun r => Or.inr (SameEnd.refl _))
    (fun _ _ => exists_reaping id), ?_, h.kills.congr rfl rfl⟩
  · refine h.owned.change rfl rfl rfl howns rfl (h.owned.slot _) (fun T' hT' => ?_)
      (h.owned.key _) (fun _ _ => rfl) (fun hno => absurd hown hno) (fun _ _ => rfl)
    rw [← Option.some.inj hT', h.owned.tab _ T hT]
    rfl
  · exact h.cpus_same rfl rfl rfl rfl h.idle (fun _ => h.running) rfl (fun _ _ => rfl)
  · exact h.tree.setParent q o hchild horphan hunused hborn' rfl hself hnamed rfl
      (fun r hr => ⟨hne, (h.tree.reaping _ r hr).2.1⟩)
  · refine h.naps.change (fun p => Naps.Same.refl _) (fun _ => id) rfl (fun _ _ _ hs => hs)
      (fun w p hw => ?_)
      (fun w p hno hnap hr => Or.inr ⟨fun ho => hno ((howns _).mpr ho), ?_⟩)
    · rw [howns]
      exact h.naps.clear _ w p hw
    · -- The thread holds the lock of those who wait for their children.
      rcases hr with ⟨hwait, _⟩ | hr
      · rw [hwait] at hno
        exact absurd ((howns .wait).mpr hown) hno
      · exact Or.inr hr

theorem setParent_none (i : Input D) (q : Fin np) :
    StepKept init m W c i (.setParent q none) := by
  intro post hloc
  rcases hloc with ⟨hborn, hnamed, _, hpost⟩ | ⟨hreap, T, hT, hpost⟩
  · -- The slot has no parent yet.
    have hpar : m.parent q = none := by
      rcases (h.tree.born _ q hborn).2 with ⟨p, _, hp⟩
      rw [hnamed] at hp
      exact hp
    have hsame : ({ m with parent := update m.parent q none } : Machine np nc D) = m := by
      rw [← hpar, update_eq_self]
    change ∃ v, post () v ∧ Inv init { m with parent := update m.parent q none } _
    rw [hsame]
    exact h.keep hpost
  · have hzom := (h.tree.reaping _ q hreap).2.2
    have hnot := h.tree.born_ne (q := q) (by rw [hzom]; exact nofun)
    exact ⟨_, hpost, h.setParent q none hT _ nofun (fun _ => hreap) (fun _ => rfl)
      (fun t _ => hnot t) (fun hb => absurd hb (hnot _)) (fun _ => rfl)⟩

theorem setParent_some (i : Input D) (q r : Fin np) :
    StepKept init m W c i (.setParent q (some r)) := by
  intro post hloc
  rcases hloc with ⟨T, hT, hfork | hreparent⟩
  · rcases hfork with ⟨hcur, hs, hborn, _, hpost⟩
    refine ⟨_, hpost, h.setParent q (some r) hT true (fun s hs' => ?_) nofun (fun hu => ?_)
      (fun t ht hb => ht (h.tree.bornInj _ _ q hb hborn)) (fun _ => ⟨r, hcur, rfl⟩)
      (fun hb => absurd hborn hb)⟩
    · rw [← Option.some.inj hs', h.running hcur hs]
      rfl
    · rw [(h.tree.born _ q hborn).1] at hu
      exact nomatch hu
  · rcases hreparent with ⟨hr, hborn, ⟨p, hcur, hpar⟩, hpost⟩
    rw [h.owned.tab _ T hT] at hpar
    have hpar' : m.parent q = some p := hpar
    refine ⟨_, hpost, h.setParent q (some r) hT _ (fun s hs => ?_) nofun (fun hu => ?_)
      (fun t ht hb => ?_) (fun hb => nomatch hborn.symm.trans hb) (fun _ => rfl)⟩
    · rw [← Option.some.inj hs, hr]
      exact h.tree.root
    · rw [h.tree.unused q hu] at hpar'
      exact nomatch hpar'
    · -- A child that another thread makes has that thread's process for a parent, or none.
      rcases (h.tree.born t q hb).2 with ⟨p', ht', hp'⟩
      rw [hpar'] at hp'
      by_cases hn : (W t).named = true
      · rw [if_pos hn, Option.some.injEq] at hp'
        exact ht (by rw [ht', hcur, hp'])
      · rw [if_neg hn] at hp'
        exact nomatch hp'

theorem reaped (i : Input D) (q p : Fin np) (e : Exit) :
    StepKept init m W c i (.reaped q p e) := by
  intro post hloc
  rcases hloc with ⟨_, _, hnone, ⟨T, hT, hpar⟩, ⟨x, hx, hzom, rfl⟩, hpost⟩
  have hslot := h.owned.slot _ q x hx
  subst hslot
  have hpar' : m.parent q = some p := by
    rw [h.owned.tab _ T hT] at hpar
    exact hpar
  -- Whoever frees a process holds `wait_lock`.
  have hother : ∀ t, t ≠ m.cur c → ∀ r, (W t).reaping ≠ some r := fun t ht r hr =>
    ht (h.owned.holds.excl (h.tree.owns_wait hr) (owns_wait hT))
  refine ⟨_, hpost, h.owned_same rfl rfl, ?_, ?_, ?_, ?_, h.kills.congr rfl rfl⟩
  · exact h.cpus_same rfl rfl rfl rfl h.idle (fun _ => h.running) rfl (fun _ _ => rfl)
  · refine h.tree.setState q rfl (fun _ _ => rfl) (fun hq => ?_)
      (fun hr => hr.elim (fun r hr => h.tree.child r q hr)) (fun hc => ?_) (h.tree.unused q)
      (fun t ht hb => ?_) (h.tree.born _) (fun r hr => Or.inr hr) (fun t ht => hother t ht q)
      (fun r hr => ⟨fun hc => ?_, fun hc => ?_⟩) (fun r hr => ?_)
    · rw [hq]
      exact h.tree.root
    · exact nomatch hpar'.symm.trans hc
    · exact h.tree.born_ne (by rw [hzom]; exact nofun) t hb
    · exact nomatch hnone.symm.trans hc
    · exact absurd (Option.some.inj hc).symm hr
    · rw [← Option.some.inj hr]
      exact ⟨owns_wait hT, owns_proc hx, hzom⟩
  · refine h.trace.reaped q p hzom hpar' (fun t => ?_) rfl hnone
    by_cases ht : t = m.cur c
    · rw [ht, hnone]
      exact nofun
    · exact hother t ht q
  · exact h.naps_same (owns_congr rfl rfl rfl rfl) rfl rfl rfl rfl (fun _ _ => Or.inl) (fun _ => id)

/-! ### Switches -/

theorem switch {t₀ t : Thread np nc} {q : Fin np} {x : Slot np D}
    {o : Option (Fin np)} (hcur : m.cur c = t₀) (hpark : ∀ c', m.cur c' ≠ t)
    (hq : (W t₀).slot q = some x) (hone : (W t₀).depth = 1) (hcommit : (W t₀).commit = none)
    (hcp : (W (.sched c)).cproc = some q) (hoff : ∀ c', c' ≠ c → m.on c' ≠ some q)
    (hway : (t₀ = .proc q ∧ t = .sched c ∧ o = none ∧
      (x.state.dormant = true → (W (.proc q)).park q = .home q)) ∨
      (t₀ = .sched c ∧ t = .proc q ∧ o = some q)) :
    Inv init (m.switch c o) (switchViews W t₀ t q x) := by
  have hne : t ≠ t₀ := fun he => hpark c (hcur.trans he.symm)
  have hreap : (W t₀).reaping = none := by
    cases hr : (W t₀).reaping with
    | none => rfl
    | some r =>
      exact nomatch h.owned.holds.only hone (owns_proc hq) (h.tree.owns_wait hr)
  refine ⟨?_, h.cpus.switch h.owned hcur hpark hq hcp hoff hway,
    h.tree.switch hne hreap (h.tree.not_reaping h.owned hpark), h.trace.switch hne,
    h.naps.switch hne hcommit (h.naps.not_commit h.owned hpark), h.kills.switch hne⟩
  subst hcur
  refine h.owned.switch hq hone hpark o ?_
  rcases hway with ⟨_, rfl, rfl, _⟩ | ⟨_, rfl, rfl⟩
  · exact Machine.cur_of_off (update_self _ _ _)
  · exact Machine.cur_of_on (update_self _ _ _)

theorem leave {p : Fin np} {x : Slot np D} (hcur : m.cur c = .proc p)
    (hq : (W (.proc p)).slot p = some x) (hone : (W (.proc p)).depth = 1)
    (hcommit : (W (.proc p)).commit = none)
    (hhome : x.state.dormant = true → (W (.proc p)).park p = .home p) :
    Inv init (m.switch c none) (switchViews W (.proc p) (.sched c) p x) := by
  have hon := Machine.on_of_cur hcur
  refine h.switch hcur (fun c' hc' => ?_) hq hone hcommit (h.cpus.away c p hon)
    (fun c' hc' he => hc' (h.inj c' ((Machine.cur_of_on he).trans hcur.symm)))
    (Or.inl ⟨rfl, rfl, rfl, hhome⟩)
  rcases Machine.off_of_cur hc' with ⟨hoff, hcc⟩
  rw [← hcc, hon] at hoff
  exact nomatch hoff

theorem enter {q : Fin np} {x : Slot np D} (hcur : m.cur c = .sched c)
    (hq : (W (.sched c)).slot q = some x) (hpick : (W (.sched c)).picked = some q)
    (hone : (W (.sched c)).depth = 1) (hcp : (W (.sched c)).cproc = some q) :
    Inv init (m.switch c (some q)) (switchViews W (.sched c) (.proc q) q x) := by
  rcases h.cpus.picked _ q hpick with ⟨_, _, hoff⟩
  have hcommit : (W (.sched c)).commit = none := by
    cases hw : (W (.sched c)).commit with
    | none => rfl
    | some w =>
      rcases h.naps.commit _ w hw with ⟨p, hp, _⟩
      exact nomatch hp
  exact h.switch hcur (fun c' he => hoff c' (Machine.on_of_cur he)) hq hone hcommit hcp
    (fun c' _ => hoff c') (Or.inr ⟨rfl, rfl, rfl⟩)

end Inv

end Inv

end Xv6.Sched
