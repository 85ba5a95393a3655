import Xv6.Sched.Inv

/-!
# Writes to the Process Table

The steps that write a slot keep the invariant.

Whoever writes a slot holds its lock. Most writes neither begin nor end a
process, and then only the CPUs, the sleepers and `kill` are concerned
(`Writing.mild`). The others are those of `allocproc`, `freeproc`, `fork` and
`exit`.
-/

namespace Xv6.Sched

open Function (update update_eq_self update_of_ne update_self)

section Writes

variable {np nc : Nat} {D : Type} {init : Fin np} {m : Machine np nc D}
  {W : Thread np nc → View np D} {c : Fin nc} {v' : View np D} {q : Fin np} {x : Slot np D}

namespace Machine

variable (m) (w : Write np D)

theorem write_slot_self (q : Fin np) :
    (m.write q w).slot q = w.apply m.ghost.count (m.slot q) :=
  update_self _ _ _

theorem write_slot_of_ne {q r : Fin np} (h : r ≠ q) : (m.write q w).slot r = m.slot r :=
  update_of_ne h _ _

theorem write_table (q : Fin np) : (m.write q w).table =
    m.table.setDead q (decide ((w.apply m.ghost.count (m.slot q)).state = .zombie)) := by
  unfold Machine.table Table.setDead
  congr 1
  funext r
  by_cases hr : r = q
  · rw [hr, update_self, write_slot_self]
  · rw [update_of_ne hr, write_slot_of_ne m w hr]

theorem write_table_same {q : Fin np}
    (h : (w.apply m.ghost.count (m.slot q)).state = .zombie ↔ (m.slot q).state = .zombie) :
    (m.write q w).table = m.table := by
  rw [write_table]
  unfold Table.setDead
  rw [show decide ((w.apply m.ghost.count (m.slot q)).state = .zombie) = m.table.dead q from
    decide_eq_decide.mpr h, update_eq_self]

theorem write_count (q : Fin np) : (m.write q w).ghost.count = m.ghost.count + 1 := by
  cases w <;> rfl

theorem write_reaps (q : Fin np) : (m.write q w).ghost.reaps = m.ghost.reaps := by
  cases w <;> rfl

theorem write_window (q : Fin np) : (m.write q w).ghost.window = m.ghost.window := by
  cases w <;> rfl

theorem write_returned (q : Fin np) : (m.write q w).ghost.returned = m.ghost.returned := by
  cases w <;> rfl

theorem write_rude (q : Fin np) : (m.write q w).ghost.rude = m.ghost.rude := by
  cases w <;> rfl

end Machine

theorem View.tab_iff {v : View np D} {T T' : Table np} (h : v.tab = some T)
    (h' : v'.tab = some T') : v'.tab = none ↔ v.tab = none := by
  rw [h', h]
  exact ⟨nofun, nofun⟩

theorem reap_iff {v : View np D} (h : v.reaping ≠ some q) (hv : v'.reaping = v.reaping)
    (r : Fin np) : v'.reaping = some r ↔ r ≠ q ∧ v.reaping = some r := by
  rw [hv]
  exact ⟨fun hr => ⟨fun he => h (by rw [← he]; exact hr), hr⟩, And.right⟩

/-- The current thread of CPU `c` writes slot `q`, which it has locked. The slot is
    `x` before and `y` after the write, and the view of the thread is `v'`, apart
    from what the thread is in the middle of. -/
structure Writing (init : Fin np) (m : Machine np nc D) (W : Thread np nc → View np D)
    (c : Fin nc) (q : Fin np) (w : Write np D) (x y : Slot np D) (v' : View np D) : Prop where
  inv : Inv init m W
  own : (W (m.cur c)).slot q = some x
  apply : w.apply m.ghost.count x = y
  slot : v'.slot = update (W (m.cur c)).slot q (some y)
  pid : v'.pid = (W (m.cur c)).pid
  key : v'.key = (W (m.cur c)).key
  depth : v'.depth = (W (m.cur c)).depth
  cproc : v'.cproc = (W (m.cur c)).cproc
  window : v'.window = (W (m.cur c)).window

namespace Writing

variable {w : Write np D} {y : Slot np D} (k : Writing init m W c q w x y v')

theorem other (_ : Writing init m W c q w x y v') {r : Fin np} (hr : r ≠ q) :
    (m.write q w).slot r = m.slot r :=
  Machine.write_slot_of_ne m w hr

include k

theorem was : m.slot q = x := k.inv.owned.slot _ q x k.own

theorem self : (m.write q w).slot q = y := by
  rw [Machine.write_slot_self, k.was, k.apply]

theorem ne_none : (W (m.cur c)).slot q ≠ none := View.owns_proc k.own

theorem slot_ne {r : Fin np} (hr : (W (m.cur c)).slot r ≠ none) : v'.slot r ≠ none := by
  rw [k.slot]
  exact (update_some_ne_none _ q r y).mpr (Or.inr hr)

theorem owns (vtab : v'.tab = none ↔ (W (m.cur c)).tab = none) (l : Lock np) :
    v'.owns l ↔ (W (m.cur c)).owns l := by
  cases l with
  | proc r =>
    refine ⟨fun hr => ?_, k.slot_ne⟩
    change v'.slot r ≠ none at hr
    rw [k.slot] at hr
    rcases (update_some_ne_none (W (m.cur c)).slot q r y).mp hr with he | hne
    · rw [he]
      exact k.ne_none
    · exact hne
  | wait => exact not_congr vtab
  | pid => unfold View.owns; rw [k.pid]
  | key j => unfold View.owns; rw [k.key]

theorem owned (vtab : v'.tab = none ↔ (W (m.cur c)).tab = none)
    (htab : ∀ T, v'.tab = some T → T = (m.write q w).table)
    (otab : ¬(W (m.cur c)).owns .wait → (m.write q w).table = m.table) :
    Owned (m.write q w) (update W (m.cur c) v') := by
  refine k.inv.owned.change rfl rfl rfl (k.owns vtab) k.depth (fun r z hz => ?_) htab
    (fun j z hz => ?_) (fun r hr => ?_) otab (fun _ _ => rfl)
  · rw [k.slot] at hz
    by_cases hr : r = q
    · rw [hr, update_self, Option.some.injEq] at hz
      rw [hr, k.self]
      exact hz
    · rw [update_of_ne hr] at hz
      rw [k.other hr]
      exact k.inv.owned.slot _ r z hz
  · rw [k.key] at hz
    exact k.inv.owned.key _ j z hz
  · exact k.other (fun he => hr (by rw [he]; exact k.ne_none))

theorem table_same (h : y.state = .zombie ↔ x.state = .zombie) :
    (m.write q w).table = m.table := by
  refine m.write_table_same w ?_
  rw [k.was, k.apply]
  exact h

theorem owned_same (h : y.state = .zombie ↔ x.state = .zombie)
    (vtab : v'.tab = (W (m.cur c)).tab) : Owned (m.write q w) (update W (m.cur c) v') := by
  refine k.owned (by rw [vtab]) (fun T hT => ?_) (fun _ => k.table_same h)
  rw [vtab] at hT
  rw [k.table_same h]
  exact k.inv.owned.tab _ T hT

theorem owned_dead {T : Table np} (hT : (W (m.cur c)).tab = some T)
    (vtab : v'.tab = some (T.setDead q (decide (y.state = .zombie)))) :
    Owned (m.write q w) (update W (m.cur c) v') := by
  refine k.owned (View.tab_iff hT vtab) (fun T' hT' => ?_)
    (fun hno => absurd (View.owns_wait hT) hno)
  rw [vtab, Option.some.injEq] at hT'
  rw [Machine.write_table, k.was, k.apply, ← hT', k.inv.owned.tab _ T hT]

theorem cpus (hrun : m.cur c ≠ .proc q → x.state = .running → y.state = .running)
    (hdormant : m.cur c ≠ .proc q → y.state.dormant = true → x.state.dormant = true)
    (hpicked : ∀ r, v'.picked = some r → (W (m.cur c)).picked = some r ∨
      (r = q ∧ x.state ≠ .running ∧ y.state = .running ∧ ∃ c', m.cur c = .sched c')) :
    Cpus (m.write q w) (update W (m.cur c) v') := by
  have h := k.inv
  refine h.cpus.change h.inj rfl ?_ (fun _ _ => rfl) (fun p hp => ?_) (fun hc hd => ?_)
    (fun p hp hs => ?_) (fun p hp hs _ => ?_) (fun r hr => ?_) (fun p hp hd => ?_)
  · rw [k.cproc]
    exact h.cpus.cproc c
  · rw [k.cproc, hp]
    exact h.cpus.self p
  · rw [k.depth] at hd
    rw [k.cproc]
    exact h.idle hc hd
  · rw [k.slot] at hs
    have hpq : p ≠ q := fun he => by
      rw [he, update_self] at hs
      exact nomatch hs
    rw [update_of_ne hpq] at hs
    rw [k.other hpq]
    exact h.running hp hs
  · by_cases hpq : p = q
    · rw [hpq] at hp hs ⊢
      rw [k.was] at hs
      rw [k.self]
      exact hrun hp hs
    · rw [k.other hpq]
      exact hs
  · rcases hpicked r hr with hold | ⟨hrq, hne, hy, hc'⟩
    · rcases h.cpus.picked _ r hold with ⟨⟨c', hc'⟩, ⟨z, hz, hzr⟩, h₃⟩
      refine ⟨⟨c', hc'⟩, ?_, h₃⟩
      by_cases hrq : r = q
      · rw [hrq, k.own, Option.some.injEq] at hz
        rw [← hz] at hzr
        exact ⟨y, by rw [k.slot, hrq, update_self], hrun (by rw [hc']; exact nofun) hzr⟩
      · exact ⟨z, by rw [k.slot, update_of_ne hrq]; exact hz, hzr⟩
    · rw [hrq]
      refine ⟨hc', ⟨y, by rw [k.slot, update_self], hy⟩, ?_⟩
      refine h.cpus.off_cpu h.owned k.own (fun he => ?_) hne
      rcases hc' with ⟨c', hc'⟩
      rw [hc'] at he
      exact nomatch he
  · by_cases hpq : p = q
    · rw [hpq] at hp hd ⊢
      rw [k.self] at hd
      rw [k.was]
      exact hdormant hp hd
    · rw [k.other hpq] at hd
      exact hd

theorem naps (vtab : v'.tab = none ↔ (W (m.cur c)).tab = none)
    (otab : ¬(W (m.cur c)).owns .wait → (m.write q w).table = m.table)
    (hclear : ∀ w' p, v'.clear w' p → (W (m.cur c)).clear w' p)
    (hcommit : m.cur c ≠ .proc q → v'.commit = (W (m.cur c)).commit)
    (hasleep : y.state = .sleeping → y.nap ≠ none)
    (hnap : ∀ w', y.nap = some w' → (m.cur c = .proc q ∧ v'.commit = some w') ∨
      (y.state = .sleeping ∧ y.chan = some (w'.chan q)))
    (hnew : ∀ w', y.nap = some w' → x.nap = some w' ∨
      (W (m.cur c)).owns w'.lock ∧ ¬v'.clear w' q)
    (hself : m.cur c = .proc q → ∀ w', v'.commit = some w' →
      y.nap = some w' ∧ y.state = .running) : Naps (m.write q w) (update W (m.cur c) v') := by
  rw [← k.self] at hasleep hnap hnew hself
  rw [← k.was] at hnew
  exact k.inv.naps.slotStep k.inv.owned k.ne_none (fun r hr => k.other hr) (m.write_rude w q) otab
    rfl (k.owns vtab) hclear hcommit hasleep hnap hnew hself

theorem naps_same (hsame : Naps.Same x y) (vtab : v'.tab = none ↔ (W (m.cur c)).tab = none)
    (otab : ¬(W (m.cur c)).owns .wait → (m.write q w).table = m.table)
    (vcommit : v'.commit = (W (m.cur c)).commit) (vclear : v'.clear = (W (m.cur c)).clear) :
    Naps (m.write q w) (update W (m.cur c) v') := by
  have h := k.inv.naps
  refine k.naps vtab otab (fun w' p hw => ?_) (fun _ => vcommit) (fun hy => ?_) (fun w' hw => ?_)
    (fun w' hw => Or.inl (hsame.nap.symm.trans hw)) (fun ht w' hw => ?_)
  · rw [vclear] at hw
    exact hw
  · have hx := hsame.sleeping.mp hy
    rw [← k.was] at hx
    rw [hsame.nap, ← k.was]
    exact h.asleep q hx
  · rw [hsame.nap, ← k.was] at hw
    rcases h.nap q w' hw with hc | ⟨hs, hch⟩
    · -- Only the process itself is on its way to sleep.
      rcases h.commit _ w' hc with ⟨p, hp, hslot, _⟩
      rw [← Thread.proc.inj hp] at hslot
      have ht : Thread.proc q = m.cur c := by
        by_contra hne
        exact hslot (k.inv.owned.slot_none k.ne_none hne)
      rw [ht] at hc
      exact Or.inl ⟨ht.symm, vcommit.trans hc⟩
    · rw [k.was] at hs hch
      exact Or.inr ⟨hsame.sleeping.mpr hs, (hsame.chan hs).trans hch⟩
  · rw [vcommit] at hw
    rcases h.commit _ w' hw with ⟨p, hp, _, hn, hr⟩
    rw [← Thread.proc.inj (ht.symm.trans hp), k.was] at hn hr
    refine ⟨hsame.nap.trans hn, hsame.running ?_ hr⟩
    rw [hn]
    exact nofun

theorem kills (huntimely : (m.write q w).ghost.untimely = false → m.ghost.untimely = false)
    (hstruck : ∀ s ∈ (m.write q w).ghost.struck, s ∈ m.ghost.struck ∨
      s.before = x ∧ x.pid = s.pid)
    (hstruck' : ∀ s ∈ m.ghost.struck, s ∈ (m.write q w).ghost.struck)
    (hspared : (m.write q w).ghost.untimely = false → m.ghost.window q = true → y.killed = false)
    (hnap : (m.write q w).ghost.untimely = false → ∀ w', y.nap = some w' → w'.killable = true →
      y.killed = false)
    (hpid : y.state = .unused → y.pid = 0)
    (hunused : (m.write q w).Named → y.state = .unused → y.killed = false)
    (hhit : (m.write q w).Named → y.killed = true → y.hit = true)
    (vstruck : ∀ pid, v'.struck = some pid → ∃ s ∈ (m.write q w).ghost.struck, s.pid = pid) :
    Kills (m.write q w) (update W (m.cur c) v') := by
  rw [← k.self] at hspared hnap hpid hunused hhit
  refine k.inv.kills.slotStep q (fun r hr => k.other hr) huntimely (m.write_window w q)
    (m.write_returned w q) (fun s hs => (hstruck s hs).imp_right (fun h => ?_)) hstruck' hspared
    hnap hpid hunused hhit k.window vstruck
  rw [h.1, k.was]
  exact ⟨rfl, h.2⟩

theorem kills_same (huntimely : (m.write q w).ghost.untimely = m.ghost.untimely)
    (hstruck : (m.write q w).ghost.struck = m.ghost.struck) (hkilled : y.killed = x.killed)
    (hhit : y.hit = x.hit) (hunused : y.state ≠ .unused)
    (hnap : ∀ w', y.nap = some w' → w'.killable = true →
      x.nap = some w' ∨ (W (m.cur c)).window = true ∧ m.cur c = .proc q)
    (vstruck : v'.struck = (W (m.cur c)).struck) :
    Kills (m.write q w) (update W (m.cur c) v') := by
  have h := k.inv.kills
  refine k.kills (fun hu => by rw [huntimely] at hu; exact hu)
    (by rw [hstruck]; exact fun _ => Or.inl) (by rw [hstruck]; exact fun _ => id)
    (fun hu hw => ?_) (fun hu w' hw hk => ?_) (fun hs => absurd hs hunused)
    (fun _ hs => absurd hs hunused) (fun hn hk => ?_) (fun pid hs => ?_)
  · rw [huntimely] at hu
    rw [hkilled, ← k.was]
    exact h.spared hu q hw
  · rw [huntimely] at hu
    rw [hkilled, ← k.was]
    rcases hnap w' hw hk with hold | ⟨hwin, hcur⟩
    · exact h.nap hu q w' (by rw [k.was]; exact hold) hk
    · refine h.spared hu q ?_
      rw [h.window q, ← hcur]
      exact hwin
  · rw [hkilled, ← k.was] at hk
    rw [hhit, ← k.was]
    refine h.hit (fun s hs => hn s ?_) q hk
    rw [hstruck]
    exact hs
  · rw [vstruck] at hs
    rw [hstruck]
    exact h.struck _ pid hs

theorem tree (vtab : v'.tab = none ↔ (W (m.cur c)).tab = none)
    (hlife : y.state.alive = true ∨ q ≠ init ∧ ∀ r, m.parent r ≠ some q)
    (horphan : m.parent q = none → q = init ∨ y.state = .unused ∨ y.state = .used)
    (hunused : y.state = .unused → m.parent q = none)
    (hborn' : ∀ t, t ≠ m.cur c → (W t).born ≠ some q)
    (hborn : ∀ r, v'.born = some r →
      (r = q ∧ y.state = .used ∧ v'.named = false ∧ m.parent q = none ∧ ∃ p, m.cur c = .proc p) ∨
      (r ≠ q ∧ (W (m.cur c)).born = some r ∧ v'.named = (W (m.cur c)).named))
    (hreap' : ∀ t, t ≠ m.cur c → (W t).reaping ≠ some q)
    (hreap : ∀ r, v'.reaping = some r ↔ r ≠ q ∧ (W (m.cur c)).reaping = some r) :
    Tree init (m.write q w) (update W (m.cur c) v') := by
  have h := k.inv.tree
  refine h.setState q rfl (fun r hr => k.other hr) (fun he => ?_) (fun ⟨r, hr⟩ => ?_) ?_ ?_ hborn'
    (fun r hr => ?_) (fun r hr => ?_) hreap' (fun r hr => ?_) (fun r hr => ?_)
  · rw [k.self]
    exact hlife.resolve_right (fun hn => hn.1 he)
  · rw [k.self]
    exact hlife.resolve_right (fun hn => hn.2 r hr)
  · rw [k.self]
    exact horphan
  · rw [k.self]
    exact hunused
  · rcases hborn r hr with ⟨hrq, hy, hn, hpar, p, hp⟩ | ⟨hrq, hold, hn⟩
    · rw [hrq, k.self, hn]
      exact ⟨hy, p, hp, hpar⟩
    · rw [k.other hrq, hn]
      exact h.born _ r hold
  · exact (hborn r hr).imp And.left (fun hc => hc.2.1)
  · rw [hreap r]
    exact ⟨fun hc => ⟨hr, hc⟩, And.right⟩
  · rcases (hreap r).mp hr with ⟨hrq, hold⟩
    rcases h.reaping _ r hold with ⟨h₁, h₂, h₃⟩
    rw [k.other hrq]
    exact ⟨fun hn => h₁ (vtab.mp hn), k.slot_ne h₂, h₃⟩

theorem trace (hexits : (m.write q w).ghost.exits = m.ghost.exits)
    (hslot : y.state = .unused ∨ SameEnd x y)
    (hreap : ∀ r, ((m.write q w).slot r).state ≠ .unused → (∃ t, (W t).reaping = some r) →
      ∃ t, (update W (m.cur c) v' t).reaping = some r) :
    Trace (m.write q w) (update W (m.cur c) v') := by
  refine k.inv.trace.congr hexits (m.write_reaps w q) ?_ (fun r => ?_) hreap
  · rw [Machine.write_count]
    exact Nat.le_succ _
  · by_cases hr : r = q
    · rw [hr, k.self, k.was]
      exact hslot
    · rw [k.other hr]
      exact Or.inr (SameEnd.refl _)

end Writing

/-- A write that neither begins nor ends a process. -/
structure Mild (x y : Slot np D) : Prop where
  alive : y.state.alive = x.state.alive
  unused : y.state = .unused ↔ x.state = .unused
  used : y.state = .used ↔ x.state = .used
  zombie : y.state = .zombie ↔ x.state = .zombie
  inc : y.inc = x.inc
  ending : x.state = .zombie → y.ending = x.ending

theorem Mild.of_alive {x y : Slot np D} (hx : x.state.alive = true) (hy : y.state.alive = true)
    (hinc : y.inc = x.inc) : Mild x y := by
  cases hxs : x.state <;> rw [hxs] at hx <;> first | exact absurd hx Bool.false_ne_true | skip
  all_goals
    cases hys : y.state <;> rw [hys] at hy <;> first | exact absurd hy Bool.false_ne_true | skip
  all_goals
    refine ⟨?_, ?_, ?_, ?_, hinc, ?_⟩ <;> simp only [hxs, hys, reduceCtorEq, State.alive,
      false_implies]

theorem Mild.dormant {x y : Slot np D} (h : Mild x y) (hy : y.state.dormant = true) :
    x.state.dormant = true := by
  cases hys : y.state with
  | unused => rw [h.unused.mp hys]; rfl
  | used => rw [h.used.mp hys]; rfl
  | zombie => rw [h.zombie.mp hys]; rfl
  | _ => rw [hys] at hy; exact nomatch hy

theorem Writing.mild {w : Write np D} {y : Slot np D} (k : Writing init m W c q w x y v')
    (hmild : Mild x y) (hexits : (m.write q w).ghost.exits = m.ghost.exits)
    (vtab : v'.tab = (W (m.cur c)).tab) (vborn : v'.born = (W (m.cur c)).born)
    (vnamed : v'.named = (W (m.cur c)).named) (vreap : v'.reaping = (W (m.cur c)).reaping)
    (hrun : m.cur c ≠ .proc q → x.state = .running → y.state = .running)
    (hpicked : ∀ r, v'.picked = some r → (W (m.cur c)).picked = some r ∨
      (r = q ∧ x.state ≠ .running ∧ y.state = .running ∧ ∃ c', m.cur c = .sched c'))
    (hnaps : (m.write q w).table = m.table → Naps (m.write q w) (update W (m.cur c) v'))
    (hkills : Kills (m.write q w) (update W (m.cur c) v')) :
    Inv init (m.write q w) (update W (m.cur c) v') := by
  have h := k.inv.tree
  refine ⟨k.owned_same hmild.zombie vtab, k.cpus hrun (fun _ => hmild.dormant) hpicked, ?_, ?_,
    hnaps (k.table_same hmild.zombie), hkills⟩
  · refine h.congr (fun r => ?_) rfl vborn vnamed vreap (fun r hr => ?_)
    · by_cases hr : r = q
      · rw [hr, k.self, k.was]
        exact ⟨hmild.alive, hmild.unused, hmild.used, hmild.zombie⟩
      · rw [k.other hr]
        exact ⟨rfl, Iff.rfl, Iff.rfl, Iff.rfl⟩
    · rw [vreap] at hr
      rw [vtab]
      exact ⟨(h.reaping _ r hr).1, k.slot_ne (h.reaping _ r hr).2.1⟩
  · exact k.trace hexits (Or.inr ⟨hmild.unused, hmild.zombie, hmild.inc, hmild.ending⟩)
      (fun _ _ => exists_reaping vreap.trans)

/-- A write keeps the invariant, with a view in `post` for its thread. -/
def WriteKept (init : Fin np) (m : Machine np nc D) (W : Thread np nc → View np D) (c : Fin nc)
    (q : Fin np) (w : Write np D) (post : View np D → Prop) : Prop :=
  ∃ v, post v ∧ Inv init (m.write q w) (update W (m.cur c) v)

theorem WriteKept.of {w : Write np D} {y : Slot np D} {post : View np D → Prop} (hpost : post v')
    (k : Writing init m W c q w x y v')
    (h : Writing init m W c q w x y v' → Inv init (m.write q w) (update W (m.cur c) v')) :
    WriteKept init m W c q w post :=
  ⟨v', hpost, h k⟩

namespace Inv

variable {post : View np D → Prop} (h : Inv init m W) (hq : (W (m.cur c)).slot q = some x)

include h hq

/-! ### Writes to a process that is alive -/

theorem write_run (hmove : Move init (m.cur c) (W (m.cur c)) q x .run post) :
    WriteKept init m W c q .run post := by
  rcases hmove with ⟨hsched, hx, hpost⟩
  refine .of (y := Write.run.apply 0 x) hpost
    ⟨h, hq, rfl, rfl, rfl, rfl, rfl, rfl, rfl⟩ (fun k => ?_)
  refine k.mild (.of_alive (by rw [hx]; rfl) rfl rfl) rfl rfl rfl rfl rfl (fun _ _ => rfl)
    (fun r hr => Or.inr ?_) (fun htab => ?_) ?_
  · rw [hx]
    exact ⟨(Option.some.inj hr).symm, nofun, rfl, hsched⟩
  · exact k.naps_same (.of_awake hx rfl nofun nofun rfl (fun _ _ => rfl)) Iff.rfl (fun _ => htab)
      rfl rfl
  · exact k.kills_same rfl rfl rfl rfl nofun (fun w hw _ => Or.inl hw) rfl

theorem write_yield (hmove : Move init (m.cur c) (W (m.cur c)) q x .yield post) :
    WriteKept init m W c q .yield post := by
  rcases hmove with ⟨hcur, hx, hcommit, hpost⟩
  have hnap := h.naps.nap_none h.owned hq (fun _ => hcommit) (by rw [hx]; exact nofun)
  refine .of (y := Write.yield.apply 0 x) hpost
    ⟨h, hq, rfl, rfl, rfl, rfl, rfl, rfl, rfl⟩ (fun k => ?_)
  refine k.mild (.of_alive (by rw [hx]; rfl) rfl rfl) rfl rfl rfl rfl rfl
    (fun hne => absurd hcur hne) (fun _ => Or.inl) (fun htab => ?_) ?_
  · exact k.naps_same (.of_awake hx rfl nofun nofun rfl (fun hne => absurd hnap hne)) Iff.rfl
      (fun _ => htab) rfl rfl
  · exact k.kills_same rfl rfl rfl rfl nofun (fun w hw _ => Or.inl hw) rfl

theorem write_tidy (hmove : Move init (m.cur c) (W (m.cur c)) q x .tidy post) :
    WriteKept init m W c q .tidy post := by
  rcases hmove with ⟨hcur, hx, _, hpost⟩
  refine .of (y := Write.tidy.apply 0 x) hpost
    ⟨h, hq, rfl, rfl, rfl, rfl, rfl, rfl, rfl⟩ (fun k => ?_)
  refine k.mild ⟨rfl, Iff.rfl, Iff.rfl, Iff.rfl, rfl, fun _ => rfl⟩ rfl rfl rfl rfl rfl
    (fun hne => absurd hcur hne) (fun _ => Or.inl) (fun htab => ?_) ?_
  · exact k.naps_same (.of_awake hx hx nofun nofun rfl (fun _ _ => rfl)) Iff.rfl (fun _ => htab)
      rfl rfl
  · refine k.kills_same rfl rfl rfl rfl ?_ (fun w hw _ => Or.inl hw) rfl
    change x.state ≠ .unused
    rw [hx]
    exact nofun

theorem write_setkilled (hmove : Move init (m.cur c) (W (m.cur c)) q x .setkilled post) :
    WriteKept init m W c q .setkilled post := by
  rcases hmove with ⟨hcur, hx, hcommit, hwindow, hpost⟩
  have hnap := h.naps.nap_none h.owned hq (fun _ => hcommit) (by rw [hx]; rintro ⟨⟩)
  refine .of (y := Write.setkilled.apply 0 x) hpost
    ⟨h, hq, rfl, rfl, rfl, rfl, rfl, rfl, rfl⟩ (fun k => ?_)
  refine k.mild ⟨rfl, Iff.rfl, Iff.rfl, Iff.rfl, rfl, fun _ => rfl⟩ rfl rfl rfl rfl rfl
    (fun hne => absurd hcur hne) (fun _ => Or.inl) (fun htab => ?_) ?_
  · exact k.naps_same ⟨rfl, Iff.rfl, fun _ => rfl, fun _ hr => hr⟩ Iff.rfl (fun _ => htab) rfl rfl
  · refine k.kills id (fun _ => Or.inl) (fun _ => id) (fun _ hw => ?_)
      (fun _ w hw _ => ?_) (fun hs => ?_) (fun _ hs => ?_) (fun _ _ => rfl) (h.kills.struck _)
    · rw [h.kills.window q, ← hcur, hwindow] at hw
      cases hw
    · cases hnap.symm.trans hw
    · cases hx.symm.trans hs
    · cases hx.symm.trans hs

theorem write_commit (w : Nap D)
    (hmove : Move init (m.cur c) (W (m.cur c)) q x (.commit w) post) :
    WriteKept init m W c q (.commit w) post := by
  rcases hmove with ⟨hcur, hx, _, hlock, hkillable, hpost⟩
  have hown : (W (m.cur c)).owns w.lock := by
    rcases hlock with ⟨j, z, hl, hj, _⟩ | ⟨hw, T, hT, _⟩
    · rw [hl]
      exact View.owns_key hj
    · rw [hw]
      exact View.owns_wait hT
  refine .of (y := (Write.commit w : Write np D).apply 0 x) hpost
    ⟨h, hq, rfl, rfl, rfl, rfl, rfl, rfl, rfl⟩ (fun k => ?_)
  refine k.mild ⟨rfl, Iff.rfl, Iff.rfl, Iff.rfl, rfl, fun _ => rfl⟩ rfl rfl rfl rfl rfl
    (fun hne => absurd hcur hne) (fun _ => Or.inl) (fun htab => ?_) ?_
  · exact k.naps Iff.rfl (fun _ => htab) (fun w' p hc => hc.1) (fun hne => absurd hcur hne)
      (fun _ => nofun) (fun w' hw => Or.inl ⟨hcur, hw⟩)
      (fun w' hw => Or.inr ⟨by rw [← Option.some.inj hw]; exact hown,
        fun hc => hc.2 rfl (Option.some.inj hw).symm⟩)
      (fun _ w' hw => ⟨hw, hx⟩)
  · refine k.kills_same rfl rfl rfl rfl ?_ (fun w' hw hk => ?_) rfl
    · change x.state ≠ .unused
      rw [hx]
      exact nofun
    · rw [← Option.some.inj hw] at hk
      exact Or.inr ⟨hkillable hk, hcur⟩

theorem write_sleep (ch : Chan np)
    (hmove : Move init (m.cur c) (W (m.cur c)) q x (.sleep ch) post) :
    WriteKept init m W c q (.sleep ch) post := by
  rcases hmove with ⟨hcur, hx, ⟨w, hcommit, hch⟩, _, hpost⟩
  -- The reason to sleep is the one the process has decided on.
  have hnap : x.nap = some w := by
    rcases h.naps.commit _ w hcommit with ⟨p, hp, _, hn, _⟩
    rw [← Thread.proc.inj (hcur.symm.trans hp), h.owned.slot _ q x hq] at hn
    exact hn
  refine .of (y := (Write.sleep ch : Write np D).apply 0 x) hpost
    ⟨h, hq, rfl, rfl, rfl, rfl, rfl, rfl, rfl⟩ (fun k => ?_)
  refine k.mild (.of_alive (by rw [hx]; rfl) rfl rfl) rfl rfl rfl rfl rfl
    (fun hne => absurd hcur hne) (fun _ => Or.inl) (fun htab => ?_) ?_
  · refine k.naps Iff.rfl (fun _ => htab) (fun w' p hc => hc) (fun hne => absurd hcur hne)
      (fun _ hn => nomatch hnap.symm.trans hn) (fun w' hw => Or.inr ⟨rfl, ?_⟩)
      (fun w' hw => Or.inl hw) (nofun)
    rw [← Option.some.inj (hnap.symm.trans hw), ← hch]
    rfl
  · exact k.kills_same rfl rfl rfl rfl nofun (fun w' hw _ => Or.inl hw) rfl

theorem write_wake (hmove : Move init (m.cur c) (W (m.cur c)) q x .wake post) :
    WriteKept init m W c q .wake post := by
  rcases hmove with ⟨hcur, hx, hpost⟩
  refine .of (y := Write.wake.apply 0 x) hpost
    ⟨h, hq, rfl, rfl, rfl, rfl, rfl, rfl, rfl⟩ (fun k => ?_)
  refine k.mild (.of_alive (by rw [hx]; rfl) rfl rfl) rfl rfl rfl rfl rfl
    (fun _ hr => nomatch hx.symm.trans hr) (fun _ => Or.inl) (fun htab => ?_) ?_
  · exact k.naps Iff.rfl (fun _ => htab) (fun _ _ hc => hc) (fun _ => rfl) nofun
      (nofun) (nofun) (fun he => absurd he hcur)
  · exact k.kills_same rfl rfl rfl rfl nofun (nofun) rfl

/-! ### `kill` -/

omit h hq in
theorem kill_apply_sleeping (n : Nat) (pid : BitVec 32) (hx : x.state = .sleeping) :
    (Write.kill pid : Write np D).apply n x =
      { x with killed := true, hit := true, state := .runnable, nap := none } := by
  simp only [Write.apply, if_pos hx]

omit h hq in
theorem kill_apply_awake (n : Nat) (pid : BitVec 32) (hx : x.state ≠ .sleeping) :
    (Write.kill pid : Write np D).apply n x = { x with killed := true, hit := true } := by
  simp only [Write.apply, if_neg hx]

omit h hq in
theorem mild_kill (n : Nat) (pid : BitVec 32) :
    Mild x ((Write.kill pid : Write np D).apply n x) := by
  by_cases hx : x.state = .sleeping
  · rw [kill_apply_sleeping n pid hx]
    exact Mild.of_alive (by rw [hx]; rfl) rfl rfl
  · rw [kill_apply_awake n pid hx]
    exact ⟨rfl, Iff.rfl, Iff.rfl, Iff.rfl, rfl, fun _ => rfl⟩

omit h hq in
theorem pid_kill (n : Nat) (pid : BitVec 32) :
    ((Write.kill pid : Write np D).apply n x).pid = x.pid := by
  by_cases hx : x.state = .sleeping
  · rw [kill_apply_sleeping n pid hx]
  · rw [kill_apply_awake n pid hx]

theorem write_kill (pid : BitVec 32)
    (hmove : Move init (m.cur c) (W (m.cur c)) q x (.kill pid) post) :
    WriteKept init m W c q (.kill pid) post := by
  rcases hmove with ⟨hpid, hcommit, hpost⟩
  have hslot := h.owned.slot _ q x hq
  have hfree : x.state = .unused → x.pid = 0 := by
    rw [← hslot]
    exact h.kills.pid q
  have hy : ((Write.kill pid : Write np D).apply 0 x).state ≠ .sleeping ∧
      ((Write.kill pid : Write np D).apply 0 x).nap = none ∧
      ((Write.kill pid : Write np D).apply 0 x).hit = true ∧
      (x.state = .running → ((Write.kill pid : Write np D).apply 0 x).state = .running) := by
    by_cases hx : x.state = .sleeping
    · rw [kill_apply_sleeping 0 pid hx]
      exact ⟨by rintro ⟨⟩, rfl, rfl, fun hr => by cases hx.symm.trans hr⟩
    · have hnone := h.naps.nap_none h.owned hq hcommit hx
      rw [kill_apply_awake 0 pid hx]
      exact ⟨hx, hnone, rfl, id⟩
  rcases hy with ⟨hawake, hnap, hhit, hrun⟩
  refine .of (y := (Write.kill pid : Write np D).apply 0 x) hpost
    ⟨h, hq, rfl, rfl, rfl, rfl, rfl, rfl, rfl⟩ (fun k => ?_)
  refine k.mild (mild_kill 0 pid) rfl rfl rfl rfl rfl (fun _ => hrun) (fun _ => Or.inl)
    (fun htab => ?_) ?_
  · exact k.naps Iff.rfl (fun _ => htab) (fun _ _ hc => hc) (fun _ => rfl)
      (fun hs => absurd hs hawake) (fun _ hw => by cases hnap.symm.trans hw)
      (fun _ hw => by cases hnap.symm.trans hw)
      (fun ht _ hw => by cases (hcommit ht).symm.trans hw)
  · refine k.kills (fun hu => (Bool.or_eq_false_iff.mp hu).1) (fun s hs => ?_)
      (fun s hs => List.mem_cons_of_mem _ hs) (fun hu hw => ?_)
      (fun _ w hw _ => by cases hnap.symm.trans hw) (fun hs => ?_) (fun hn hs => ?_)
      (fun _ _ => hhit)
      (fun pid' hs => ⟨⟨pid, q, m.slot q⟩, List.mem_cons_self, Option.some.inj hs⟩)
    · rcases List.mem_cons.mp hs with hs | hs
      · rw [hs]
        exact Or.inr ⟨hslot, hpid⟩
      · exact Or.inl hs
    · rw [(Bool.or_eq_false_iff.mp hu).2] at hw
      cases hw
    · rw [pid_kill]
      exact hfree ((mild_kill 0 pid).unused.mp hs)
    · -- A free slot is hit only by `kill(0)`.
      exact absurd (hpid.symm.trans (hfree ((mild_kill 0 pid).unused.mp hs)))
        (hn _ List.mem_cons_self)

/-! ### The beginning and the end of a process -/

theorem write_alloc (pid : BitVec 32)
    (hmove : Move init (m.cur c) (W (m.cur c)) q x (.alloc pid) post) :
    WriteKept init m W c q (.alloc pid) post := by
  rcases hmove with ⟨hx, hborn, ⟨p, hcur, hpq⟩, hpost⟩
  refine .of (y := (Write.alloc pid : Write np D).apply m.ghost.count x) (hpost m.ghost.count)
    ⟨h, hq, rfl, rfl, rfl, rfl, rfl, rfl, rfl⟩ (fun k => ?_)
  have hfree : (m.slot q).state = .unused := by rw [k.was]; exact hx
  have hzom : ((Write.alloc pid : Write np D).apply m.ghost.count x).state = .zombie ↔
      x.state = .zombie := by
    rw [hx]
    constructor <;> rintro ⟨⟩
  -- A free slot is nobody's business.
  have hreap := h.tree.reaping_ne (q := q) (by rw [hfree]; rintro ⟨⟩)
  refine ⟨k.owned_same hzom rfl, ?_, ?_, ?_, ?_, ?_⟩
  · exact k.cpus (fun _ hr => by cases hx.symm.trans hr) (fun _ _ => by rw [hx]; rfl)
      (fun _ => Or.inl)
  · exact k.tree Iff.rfl (Or.inr (h.tree.dead (by rw [hfree]; rfl)))
      (fun _ => Or.inr (Or.inr rfl)) (by intros; contradiction)
      (fun t _ => h.tree.born_ne (by rw [hfree]; rintro ⟨⟩) t)
      (fun r hr => Or.inl ⟨(Option.some.inj hr).symm, rfl, rfl, h.tree.unused q hfree, p, hcur⟩)
      (fun t _ => hreap t) (reap_iff (hreap _) rfl)
  · exact h.trace.alloc q rfl rfl rfl (fun r hr => k.other hr) (by rw [k.self]; rfl)
      (by rw [k.self]; rfl) rfl
  · exact k.naps_same (.of_awake hx rfl (by rintro ⟨⟩) (by rintro ⟨⟩) rfl (by rintro _ ⟨⟩)) Iff.rfl
      (fun _ => k.table_same hzom) rfl rfl
  · refine k.kills id (fun _ => Or.inl) (fun _ => id) (fun hu hw => ?_)
      (fun hu w hw hk => ?_) (by rintro ⟨⟩) (by rintro _ ⟨⟩) (fun hn hk => ?_) (h.kills.struck _)
    · rw [← h.kills.spared hu q hw, k.was]
      rfl
    · rw [← h.kills.nap hu q w (by rw [k.was]; exact hw) hk, k.was]
      rfl
    · -- The flag of a free slot is clear.
      have := h.kills.unused hn q hfree
      rw [k.was] at this
      cases this.symm.trans hk

theorem write_ready (hmove : Move init (m.cur c) (W (m.cur c)) q x .ready post) :
    WriteKept init m W c q .ready post := by
  rcases hmove with ⟨_, hx, hborn, hnamed, _, hpost⟩
  refine .of (y := Write.ready.apply 0 x) hpost
    ⟨h, hq, rfl, rfl, rfl, rfl, rfl, rfl, rfl⟩ (fun k => ?_)
  have hzom : ((Write.ready : Write np D).apply 0 x).state = .zombie ↔ x.state = .zombie := by
    rw [hx]
    exact ⟨nofun, nofun⟩
  have hreap := h.tree.reaping_ne (q := q) (by rw [k.was, hx]; exact nofun)
  refine ⟨k.owned_same hzom rfl, ?_, ?_, ?_, ?_, ?_⟩
  · exact k.cpus (fun _ hr => nomatch hx.symm.trans hr) (nofun)
      (fun _ => Or.inl)
  · refine k.tree Iff.rfl (Or.inl rfl) (fun hn => ?_) nofun
      (fun t ht hb => ht (h.tree.bornInj _ _ q hb hborn)) nofun (fun t _ => hreap t)
      (reap_iff (hreap _) rfl)
    rcases (h.tree.born _ q hborn).2 with ⟨p, _, hp⟩
    rw [hnamed, hn, if_pos rfl] at hp
    exact nomatch hp
  · refine k.trace rfl (Or.inr ⟨?_, hzom, rfl, fun hz => nomatch hx.symm.trans hz⟩)
      (fun _ _ => exists_reaping id)
    rw [hx]
    exact ⟨nofun, nofun⟩
  · exact k.naps_same (.of_awake hx rfl nofun nofun rfl nofun) Iff.rfl
      (fun _ => k.table_same hzom) rfl rfl
  · exact k.kills_same rfl rfl rfl rfl nofun (fun w' hw _ => Or.inl hw) rfl

theorem write_exit (status : Int)
    (hmove : Move init (m.cur c) (W (m.cur c)) q x (.exit status) post) :
    WriteKept init m W c q (.exit status) post := by
  rcases hmove with ⟨hcur, hinit, hx, hcommit, T, hT, hchildren, hpost⟩
  refine .of (y := (Write.exit status : Write np D).apply 0 x) hpost
    ⟨h, hq, rfl, rfl, rfl, rfl, rfl, rfl, rfl⟩ (fun k => ?_)
  have hrun : (m.slot q).state = .running := by rw [k.was]; exact hx
  have hown := View.owns_wait hT
  have hreap := h.tree.reaping_ne (q := q) (by rw [hrun]; exact nofun)
  have hborn := h.tree.born_ne (q := q) (by rw [hrun]; exact nofun)
  have hnap := h.naps.nap_none h.owned hq (fun _ => hcommit) (by rw [hx]; exact nofun)
  refine ⟨k.owned_dead hT rfl, ?_, ?_, ?_, ?_, ?_⟩
  · exact k.cpus (fun hne => absurd hcur hne) (fun hne => absurd hcur hne) (fun _ => Or.inl)
  · -- A process that ends has no children left.
    rw [h.owned.tab _ T hT] at hchildren
    refine k.tree (View.tab_iff hT rfl) (Or.inr ⟨hinit, hchildren⟩) (fun hn => ?_) nofun
      (fun t _ => hborn t)
      (fun r hr => Or.inr ⟨fun he => hborn _ (by rw [← he]; exact hr), hr, rfl⟩)
      (fun t _ => hreap t) (reap_iff (hreap _) rfl)
    rcases h.tree.orphan q hn with h₁ | h₁ | h₁ | ⟨t, h₁⟩
    · exact absurd h₁ hinit
    · exact nomatch hrun.symm.trans h₁
    · exact nomatch hrun.symm.trans h₁
    · exact absurd h₁ (hreap t)
  · exact h.trace.ended q hrun (by rw [k.self, ← k.was]; rfl) rfl rfl (fun r hr => k.other hr)
      (by rw [k.self, k.was]; rfl) (by rw [k.self]; rfl) rfl
  · exact k.naps_same (.of_awake hx rfl nofun nofun rfl (fun hne => absurd hnap hne))
      (View.tab_iff hT rfl) (fun hno => absurd hown hno) rfl rfl
  · exact k.kills_same rfl rfl rfl rfl nofun (fun w' hw _ => Or.inl hw) rfl

omit h hq in
/-- The parts that do not depend on why a slot is freed. -/
theorem naps_kills_free (k : Writing init m W c q .free x (Write.free.apply 0 x) v')
    (hcur : m.cur c ≠ .proc q) (hx : x.state ≠ .sleeping)
    (vtab : v'.tab = none ↔ (W (m.cur c)).tab = none)
    (otab : ¬(W (m.cur c)).owns .wait → (m.write q .free).table = m.table)
    (vcommit : v'.commit = (W (m.cur c)).commit) (vclear : v'.clear = (W (m.cur c)).clear)
    (vstruck : v'.struck = (W (m.cur c)).struck) :
    Naps (m.write q .free) (update W (m.cur c) v') ∧
      Kills (m.write q .free) (update W (m.cur c) v') := by
  have hnap := k.inv.naps.nap_none k.inv.owned k.own (fun he => absurd he hcur) hx
  constructor
  · exact k.naps_same ⟨hnap.symm, ⟨nofun, fun hs => absurd hs hx⟩, fun hs => absurd hs hx,
      fun hne => absurd hnap hne⟩ vtab otab vcommit vclear
  · refine k.kills id (fun _ => Or.inl) (fun _ => id) (fun _ _ => rfl)
      (fun _ _ _ _ => rfl) (fun _ => rfl) (fun _ _ => rfl) nofun (fun pid hs => ?_)
    rw [vstruck] at hs
    exact k.inv.kills.struck _ pid hs

theorem write_free_born (hcur : m.cur c ≠ .proc q) (hx : x.state = .used)
    (hborn : (W (m.cur c)).born = some q) (hnamed : (W (m.cur c)).named = false)
    (hpost : post { (W (m.cur c)).setSlot q (Write.free.apply 0 x) with
      born := none, spawned := false }) : WriteKept init m W c q .free post := by
  refine .of (y := Write.free.apply 0 x) hpost
    ⟨h, hq, rfl, rfl, rfl, rfl, rfl, rfl, rfl⟩ (fun k => ?_)
  have hused : (m.slot q).state = .used := by rw [k.was]; exact hx
  have hzom : ((Write.free : Write np D).apply 0 x).state = .zombie ↔ x.state = .zombie := by
    rw [hx]
    exact ⟨nofun, nofun⟩
  have hreap := h.tree.reaping_ne (q := q) (by rw [hused]; exact nofun)
  rcases naps_kills_free k hcur (by rw [hx]; exact nofun) Iff.rfl (fun _ => k.table_same hzom) rfl
    rfl rfl with ⟨hnaps, hkills⟩
  refine ⟨k.owned_same hzom rfl, ?_, ?_, ?_, hnaps, hkills⟩
  · exact k.cpus (fun _ hr => nomatch hx.symm.trans hr) (fun _ _ => by rw [hx]; rfl)
      (fun _ => Or.inl)
  · refine k.tree Iff.rfl (Or.inr (h.tree.dead (by rw [hused]; rfl)))
      (fun _ => Or.inr (Or.inl rfl)) (fun _ => ?_)
      (fun t ht hb => ht (h.tree.bornInj _ _ q hb hborn)) nofun (fun t _ => hreap t)
      (reap_iff (hreap _) rfl)
    rcases (h.tree.born _ q hborn).2 with ⟨p, _, hp⟩
    rw [hnamed] at hp
    exact hp
  · exact k.trace rfl (Or.inl rfl) (fun _ _ => exists_reaping id)

theorem write_free_reap (hcur : m.cur c ≠ .proc q) (hreaping : (W (m.cur c)).reaping = some q)
    {T : Table np} (hT : (W (m.cur c)).tab = some T) (hTq : T.parent q = none)
    (hpost : post { ((W (m.cur c)).setSlot q (Write.free.apply 0 x)).setTab (T.setDead q false) with
      reaping := none }) : WriteKept init m W c q .free post := by
  refine .of (y := Write.free.apply 0 x) hpost
    ⟨h, hq, rfl, rfl, rfl, rfl, rfl, rfl, rfl⟩ (fun k => ?_)
  have hzom := (h.tree.reaping _ q hreaping).2.2
  have hx : x.state = .zombie := by rw [← k.was]; exact hzom
  have hown := View.owns_wait hT
  have hborn := h.tree.born_ne (q := q) (by rw [hzom]; exact nofun)
  -- Nobody else frees a process at the same time.
  have hother : ∀ t, t ≠ m.cur c → ∀ r, (W t).reaping ≠ some r := fun t ht r hr =>
    ht (h.owned.holds.excl (h.tree.owns_wait hr) hown)
  rcases naps_kills_free k hcur (by rw [hx]; exact nofun) (View.tab_iff hT rfl)
    (fun hno => absurd hown hno) rfl rfl rfl with ⟨hnaps, hkills⟩
  refine ⟨k.owned_dead hT rfl, ?_, ?_, ?_, hnaps, hkills⟩
  · exact k.cpus (fun _ hr => nomatch hx.symm.trans hr) (fun _ _ => by rw [hx]; rfl)
      (fun _ => Or.inl)
  · rw [h.owned.tab _ T hT] at hTq
    exact k.tree (View.tab_iff hT rfl) (Or.inr (h.tree.dead (by rw [hzom]; rfl)))
      (fun _ => Or.inr (Or.inl rfl)) (fun _ => hTq) (fun t _ => hborn t)
      (fun r hr => Or.inr ⟨fun he => hborn _ (by rw [← he]; exact hr), hr, rfl⟩)
      (fun t ht => hother t ht q)
      (fun r => ⟨nofun, fun hc => absurd (Option.some.inj (hc.2.symm.trans hreaping)) hc.1⟩)
  · refine k.trace rfl (Or.inl rfl) (fun r hr ⟨t, ht⟩ => ?_)
    by_cases htc : t = m.cur c
    · rw [htc, hreaping, Option.some.injEq] at ht
      rw [← ht, k.self] at hr
      exact absurd rfl hr
    · exact absurd ht (hother t htc r)

theorem write_free (hmove : Move init (m.cur c) (W (m.cur c)) q x .free post) :
    WriteKept init m W c q .free post := by
  rcases hmove with ⟨hcur, ⟨hx, hborn, hnamed, hpost⟩ | ⟨hreap, T, hT, hTq, hpost⟩⟩
  · exact h.write_free_born hq hcur hx hborn hnamed hpost
  · exact h.write_free_reap hq hcur hreap hT hTq hpost

theorem write (w : Write np D) (hmove : Move init (m.cur c) (W (m.cur c)) q x w post) :
    WriteKept init m W c q w post := by
  cases w with
  | alloc pid => exact h.write_alloc hq pid hmove
  | free => exact h.write_free hq hmove
  | ready => exact h.write_ready hq hmove
  | exit status => exact h.write_exit hq status hmove
  | run => exact h.write_run hq hmove
  | yield => exact h.write_yield hq hmove
  | commit w => exact h.write_commit hq w hmove
  | sleep ch => exact h.write_sleep hq ch hmove
  | tidy => exact h.write_tidy hq hmove
  | wake => exact h.write_wake hq hmove
  | kill pid => exact h.write_kill hq pid hmove
  | setkilled => exact h.write_setkilled hq hmove

omit hq in
/-- Every step but a switch that the view of the current thread permits keeps the
    invariant. -/
theorem perform (i : Input D) (cmd : Cmd np D)
    (hswtch : ∀ o, cmd ≠ .swtch o) (post : cmd.Ans → View np D → Prop)
    (hloc : Local init (m.cur c) cmd (W (m.cur c)) post) : Kept init m W c i cmd post := by
  cases cmd with
  | panic e => exact hloc
  | acquire l =>
    cases l with
    | proc q => exact h.acquire_proc i q post hloc
    | wait => exact h.acquire_wait i post hloc
    | pid => exact h.acquire_pid i post hloc
    | key k => exact h.acquire_key i k post hloc
  | release l =>
    cases l with
    | proc q => exact h.release_proc i q post hloc
    | wait => exact h.release_wait i post hloc
    | pid => exact h.release_pid i post hloc
    | key k => exact h.release_key i k post hloc
  | holding l => exact h.holding i l post hloc
  | noff => exact h.noff i post hloc
  | cpuid => exact h.keep (P := post c.val) (hloc c.val)
  | myproc => exact h.myproc i post hloc
  | setProc o => exact ⟨_, hloc.2.2, h.setProc o hloc.1 hloc.2.1⟩
  | read q => exact h.read i q post hloc
  | dump q => exact h.keep (P := post (m.slot q)) (hloc.2 (m.slot q))
  | write q w =>
    rcases hloc with ⟨x, hx, hmove⟩
    exact h.write hx w hmove
  | parent q => exact h.parent i q post hloc
  | setParent q o =>
    cases o with
    | none => exact h.setParent_none i q post hloc
    | some r => exact h.setParent_some i q r post hloc
  | nextpid => exact h.keep (P := post m.nextpid) (hloc.2 m.nextpid)
  | setNextpid n => exact ⟨_, hloc.2, h.setNextpid n⟩
  | get k => exact h.get i k post hloc
  | set k x => exact ⟨_, hloc.2, h.set k x hloc.1⟩
  | swtch o => exact absurd rfl (hswtch o)
  | spawn q => exact ⟨_, hloc.2.2.2, h.spawn⟩
  | flip => exact h.keep (P := post i.flip) (hloc i.flip)
  | copyout p status => exact ⟨_, hloc i.flip, h.copyout _⟩
  | trap => exact h.keep (P := post i.trap) (hloc i.trap)
  | window p b =>
    rcases hloc with ⟨ht, hb, hpost⟩
    refine ⟨_, hpost, h.window p b ht (fun hbt => ?_)⟩
    rcases hb hbt with ⟨x, hx, hk, _⟩
    rw [h.owned.slot _ p x hx]
    exact hk
  | rude j => exact ⟨_, hloc.2, h.rude j hloc.1⟩
  | reaped q p e => exact h.reaped i q p e post hloc
  | returned pid r => exact ⟨_, hloc.2, h.returned pid r hloc.1⟩

end Inv

end Writes

end Xv6.Sched
