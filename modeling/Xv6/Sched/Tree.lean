import Xv6.Sched.Owned

/-!
# The Process Tree

The part of the invariant about parents, children and what `wait` returns.

Every process that is a parent is alive, whether or not anybody holds
`wait_lock`: a process ends only after it has given away its children, and only
the process itself makes more. A slot without a parent is one that is free, that
is not finished, or that somebody is about to free. A child that is not yet
runnable belongs to the thread that makes it.

The record of what happened is tied to the slots by their incarnations. Each
ends once and is returned once.

## Main definitions

* `Tree`: Parents and children.
* `Trace`: What has ended, and what has been returned.
-/

namespace Xv6.Sched

open Function (forall_update_iff update update_of_ne update_self)

/-- A process that can run, now or later. -/
def State.alive : State → Bool
  | sleeping => true
  | runnable => true
  | running => true
  | _ => false

section Tree

variable {np nc : Nat} {D : Type} {init : Fin np} {m m' : Machine np nc D}
  {W : Thread np nc → View np D} {t : Thread np nc} {v' : View np D}

/-- Parents and children. -/
structure Tree (init : Fin np) (m : Machine np nc D) (W : Thread np nc → View np D) : Prop where
  root : (m.slot init).state.alive = true
  child : ∀ q r, m.parent q = some r → (m.slot r).state.alive = true
  orphan : ∀ q, m.parent q = none → q = init ∨ (m.slot q).state = .unused ∨
    (m.slot q).state = .used ∨ ∃ t, (W t).reaping = some q
  unused : ∀ q, (m.slot q).state = .unused → m.parent q = none
  born : ∀ t q, (W t).born = some q → (m.slot q).state = .used ∧
    ∃ p, t = .proc p ∧ m.parent q = if (W t).named then some p else none
  bornInj : ∀ t t' q, (W t).born = some q → (W t').born = some q → t = t'
  reaping : ∀ t q, (W t).reaping = some q → (W t).tab ≠ none ∧ (W t).slot q ≠ none ∧
    (m.slot q).state = .zombie

/-- The slots of two machines are alike as far as the tree is concerned. -/
def SameLife (m m' : Machine np nc D) : Prop :=
  ∀ q, (m'.slot q).state.alive = (m.slot q).state.alive ∧
    ((m'.slot q).state = .unused ↔ (m.slot q).state = .unused) ∧
    ((m'.slot q).state = .used ↔ (m.slot q).state = .used) ∧
    ((m'.slot q).state = .zombie ↔ (m.slot q).state = .zombie)

theorem SameLife.refl {m : Machine np nc D} (h : m'.slot = m.slot) : SameLife m m' := by
  intro q
  rw [h]
  exact ⟨rfl, Iff.rfl, Iff.rfl, Iff.rfl⟩

theorem exists_reaping {q : Fin np} (hreap : (W t).reaping = some q → v'.reaping = some q)
    (h : ∃ t, (W t).reaping = some q) : ∃ t', (update W t v' t').reaping = some q := by
  rcases h with ⟨t', ht'⟩
  refine ⟨t', ?_⟩
  by_cases he : t' = t
  · rw [he] at ht' ⊢
    rw [update_self]
    exact hreap ht'
  · rw [update_of_ne he]
    exact ht'

namespace Tree

variable (h : Tree init m W)

include h

theorem dead {q : Fin np} (hq : (m.slot q).state.alive = false) :
    q ≠ init ∧ ∀ r, m.parent r ≠ some q := by
  refine ⟨fun he => ?_, fun r hr => ?_⟩
  · have hroot := h.root
    rw [← he, hq] at hroot
    cases hroot
  · have hlive := h.child r q hr
    rw [hq] at hlive
    cases hlive

theorem reaping_ne {q : Fin np} (hq : (m.slot q).state ≠ .zombie)
    (t : Thread np nc) : (W t).reaping ≠ some q :=
  fun hr => hq (h.reaping t q hr).2.2

/-- Whoever frees a process holds `wait_lock`. -/
theorem owns_wait {q : Fin np} (hr : (W t).reaping = some q) :
    (W t).owns .wait :=
  (h.reaping t q hr).1

theorem born_ne {q : Fin np} (hq : (m.slot q).state ≠ .used)
    (t : Thread np nc) : (W t).born ≠ some q :=
  fun hb => hq (h.born t q hb).1

theorem congr (hlife : SameLife m m') (hparent : m'.parent = m.parent)
    (hborn : v'.born = (W t).born) (hnamed : v'.named = (W t).named)
    (hreap : v'.reaping = (W t).reaping)
    (hkeep : ∀ q, v'.reaping = some q → v'.tab ≠ none ∧ v'.slot q ≠ none) :
    Tree init m' (update W t v') := by
  have hall : ∀ t', (update W t v' t').born = (W t').born ∧
      (update W t v' t').named = (W t').named :=
    (forall_update_iff W (fun t' u => u.born = (W t').born ∧ u.named = (W t').named)).mpr
      ⟨⟨hborn, hnamed⟩, fun _ _ => ⟨rfl, rfl⟩⟩
  refine ⟨?_, fun q r hq => ?_, fun q hq => ?_, fun q hq => ?_, fun t' q hq => ?_,
    fun t₁ t₂ q h₁ h₂ => ?_, ?_⟩
  · rw [(hlife init).1]
    exact h.root
  · rw [hparent] at hq
    rw [(hlife r).1]
    exact h.child q r hq
  · rw [hparent] at hq
    rw [(hlife q).2.1, (hlife q).2.2.1]
    exact (h.orphan q hq).imp_right (Or.imp_right (Or.imp_right (exists_reaping hreap.trans)))
  · rw [hparent]
    exact h.unused q ((hlife q).2.1.mp hq)
  · rw [(hall t').1] at hq
    rw [(hall t').2, hparent, (hlife q).2.2.1]
    exact h.born t' q hq
  · rw [(hall t₁).1] at h₁
    rw [(hall t₂).1] at h₂
    exact h.bornInj t₁ t₂ q h₁ h₂
  · refine (forall_update_iff W (fun t' u => ∀ q, u.reaping = some q → u.tab ≠ none ∧
      u.slot q ≠ none ∧ (m'.slot q).state = .zombie)).mpr ⟨fun q hq => ?_, fun t' _ q hq => ?_⟩
    · rcases hkeep q hq with ⟨h₁, h₂⟩
      rw [hreap] at hq
      exact ⟨h₁, h₂, (hlife q).2.2.2.mpr (h.reaping t q hq).2.2⟩
    · rcases h.reaping t' q hq with ⟨h₁, h₂, h₃⟩
      exact ⟨h₁, h₂, (hlife q).2.2.2.mpr h₃⟩

/-- One slot changes its state, and nobody else has to do with it. The thread
    may begin or end to make a child, or end to free one. -/
theorem setState (q : Fin np) (hparent : m'.parent = m.parent)
    (hother : ∀ r, r ≠ q → m'.slot r = m.slot r)
    (hinit : q = init → (m'.slot q).state.alive = true)
    (hchild : (∃ r, m.parent r = some q) → (m'.slot q).state.alive = true)
    (horphan : m.parent q = none → q = init ∨ (m'.slot q).state = .unused ∨
      (m'.slot q).state = .used)
    (hunused : (m'.slot q).state = .unused → m.parent q = none)
    (hborn' : ∀ t', t' ≠ t → (W t').born ≠ some q)
    (hborn : ∀ r, v'.born = some r → (m'.slot r).state = .used ∧
      ∃ p, t = .proc p ∧ m.parent r = if v'.named then some p else none)
    (hinj : ∀ r, v'.born = some r → r = q ∨ (W t).born = some r)
    (hreap' : ∀ t', t' ≠ t → (W t').reaping ≠ some q)
    (hreap : ∀ r, r ≠ q → ((W t).reaping = some r ↔ v'.reaping = some r))
    (hkeep : ∀ r, v'.reaping = some r → v'.tab ≠ none ∧ v'.slot r ≠ none ∧
      (m'.slot r).state = .zombie) :
    Tree init m' (update W t v') := by
  refine ⟨?_, fun r s hr => ?_, fun r hr => ?_, fun r hr => ?_, ?_, fun t₁ t₂ r h₁ h₂ => ?_, ?_⟩
  · by_cases hq : init = q
    · rw [hq]
      exact hinit hq.symm
    · rw [hother init hq]
      exact h.root
  · rw [hparent] at hr
    by_cases hq : s = q
    · rw [hq] at hr ⊢
      exact hchild ⟨r, hr⟩
    · rw [hother s hq]
      exact h.child r s hr
  · rw [hparent] at hr
    by_cases hq : r = q
    · rw [hq] at hr ⊢
      exact (horphan hr).imp_right (Or.imp_right Or.inl)
    · rw [hother r hq]
      exact (h.orphan r hr).imp_right
        (Or.imp_right (Or.imp_right (exists_reaping (hreap r hq).mp)))
  · rw [hparent]
    by_cases hq : r = q
    · rw [hq] at hr ⊢
      exact hunused hr
    · rw [hother r hq] at hr
      exact h.unused r hr
  · refine (forall_update_iff W (fun t' u => ∀ r, u.born = some r →
      (m'.slot r).state = .used ∧ ∃ p, t' = .proc p ∧
        m'.parent r = if u.named then some p else none)).mpr ⟨fun r hr => ?_, fun t' ht' r hr => ?_⟩
    · rw [hparent]
      exact hborn r hr
    · have hq : r ≠ q := fun he => hborn' t' ht' (by rw [hr, he])
      rw [hother r hq, hparent]
      exact h.born t' r hr
  · -- Nobody else is making the child of the current thread.
    have hone : ∀ t', t' ≠ t → v'.born = some r → (W t').born = some r → False := by
      intro t' ht' hv hw
      rcases hinj r hv with hr | hr
      · exact hborn' t' ht' (by rw [hw, hr])
      · exact ht' (h.bornInj t' t r hw hr)
    by_cases h₁' : t₁ = t
    · by_cases h₂' : t₂ = t
      · rw [h₁', h₂']
      · rw [h₁', update_self] at h₁
        rw [update_of_ne h₂'] at h₂
        exact (hone t₂ h₂' h₁ h₂).elim
    · rw [update_of_ne h₁'] at h₁
      by_cases h₂' : t₂ = t
      · rw [h₂', update_self] at h₂
        exact (hone t₁ h₁' h₂ h₁).elim
      · rw [update_of_ne h₂'] at h₂
        exact h.bornInj t₁ t₂ r h₁ h₂
  · refine (forall_update_iff W (fun t' u => ∀ r, u.reaping = some r → u.tab ≠ none ∧
      u.slot r ≠ none ∧ (m'.slot r).state = .zombie)).mpr ⟨hkeep, fun t' ht' r hr => ?_⟩
    have hq : r ≠ q := fun he => hreap' t' ht' (by rw [hr, he])
    rw [hother r hq]
    exact h.reaping t' r hr

theorem setParent (q : Fin np) (o : Option (Fin np))
    (hchild : ∀ r, o = some r → (m.slot r).state.alive = true)
    (horphan : o = none → v'.reaping = some q) (hunused : (m.slot q).state = .unused → o = none)
    (hborn' : ∀ t', t' ≠ t → (W t').born ≠ some q) (hborn : v'.born = (W t).born)
    (hself : v'.born = some q → ∃ p, t = .proc p ∧ o = if v'.named then some p else none)
    (hnamed : v'.born ≠ some q → v'.named = (W t).named) (hreap : v'.reaping = (W t).reaping)
    (hkeep : ∀ q, v'.reaping = some q → v'.tab ≠ none ∧ v'.slot q ≠ none) :
    Tree init { m with parent := update m.parent q o } (update W t v') := by
  have hof : ∀ r, r ≠ q → update m.parent q o r = m.parent r := fun r hr => update_of_ne hr _ _
  refine ⟨h.root, ?_, fun r hr => ?_, ?_, ?_, fun t₁ t₂ r h₁ h₂ => ?_, ?_⟩
  · exact (forall_update_iff m.parent (fun _ x => ∀ s, x = some s →
      (m.slot s).state.alive = true)).mpr ⟨hchild, fun r _ => h.child r⟩
  · change update m.parent q o r = none at hr
    by_cases hq : r = q
    · rw [hq, update_self] at hr
      refine Or.inr (Or.inr (Or.inr ⟨t, ?_⟩))
      rw [update_self, hq]
      exact horphan hr
    · rw [hof r hq] at hr
      exact (h.orphan r hr).imp_right (Or.imp_right (Or.imp_right (exists_reaping hreap.trans)))
  · exact (forall_update_iff m.parent (fun r x => (m.slot r).state = .unused →
      x = none)).mpr ⟨hunused, fun r _ => h.unused r⟩
  · refine (forall_update_iff W (fun t' u => ∀ r, u.born = some r →
      (m.slot r).state = .used ∧ ∃ p, t' = .proc p ∧ update m.parent q o r =
        if u.named then some p else none)).mpr ⟨fun r hr => ?_, fun t' ht' r hr => ?_⟩
    · rcases h.born t r (hborn.symm.trans hr) with ⟨hstate, p, htp, hpar⟩
      refine ⟨hstate, ?_⟩
      by_cases hq : r = q
      · rw [hq, update_self]
        exact hself (by rw [hr, hq])
      · rw [hof r hq, hnamed (fun he => hq (Option.some.inj (hr.symm.trans he)))]
        exact ⟨p, htp, hpar⟩
    · rw [hof r (fun he => hborn' t' ht' (by rw [hr, he]))]
      exact h.born t' r hr
  · have hall : ∀ t', (update W t v' t').born = (W t').born :=
      (forall_update_iff W (fun t' u => u.born = (W t').born)).mpr
        ⟨hborn, fun _ _ => rfl⟩
    rw [hall] at h₁ h₂
    exact h.bornInj t₁ t₂ r h₁ h₂
  · refine (forall_update_iff W (fun t' u => ∀ q, u.reaping = some q → u.tab ≠ none ∧
      u.slot q ≠ none ∧ (m.slot q).state = .zombie)).mpr
        ⟨fun q hq => ?_, fun t' _ => h.reaping t'⟩
    exact ⟨(hkeep q hq).1, (hkeep q hq).2, (h.reaping t q (hreap.symm.trans hq)).2.2⟩

theorem not_reaping (ho : Owned m W) (hpark : ∀ c, m.cur c ≠ t) :
    (W t).reaping = none := by
  cases hq : (W t).reaping with
  | none => rfl
  | some q =>
    exact absurd (h.owns_wait hq) (ho.holds.idle (ho.holds.parked t hpark) _)

theorem switch {c : Fin nc} {o : Option (Fin np)} {t₀ : Thread np nc} {q : Fin np} {x : Slot np D}
    (hne : t ≠ t₀) (h₀ : (W t₀).reaping = none) (h₁ : (W t).reaping = none) :
    Tree init (m.switch c o) (switchViews W t₀ t q x) := by
  have hall := switchViews_proj (W := W) (q := q) (x := x)
    (fun u => (u.born, u.named, u.reaping)) hne (fun _ => rfl) (fun _ => rfl)
  simp only [Prod.mk.injEq] at hall
  refine ⟨h.root, h.child, fun r hr => ?_, h.unused, fun t' r hr => ?_, fun t₁ t₂ r h₁ h₂ => ?_,
    fun t' r hr => ?_⟩
  · exact (h.orphan r hr).imp_right (Or.imp_right (Or.imp_right (Exists.imp
      (fun t' ht' => (hall t').2.2.trans ht'))))
  · rw [(hall t').1] at hr
    rw [(hall t').2.1]
    exact h.born t' r hr
  · rw [(hall t₁).1] at h₁
    rw [(hall t₂).1] at h₂
    exact h.bornInj t₁ t₂ r h₁ h₂
  · rw [(hall t').2.2] at hr
    have hn₀ : t' ≠ t₀ := by rintro rfl; exact nomatch h₀.symm.trans hr
    have hn₁ : t' ≠ t := by rintro rfl; exact nomatch h₁.symm.trans hr
    rw [switchViews_other hn₀ hn₁]
    exact h.reaping t' r hr

end Tree

end Tree

section Trace

variable {np nc : Nat} {D : Type} {m m' : Machine np nc D} {W : Thread np nc → View np D}
  {t : Thread np nc} {v' : View np D}

/-- What has ended, and what has been returned. -/
structure Trace (m : Machine np nc D) (W : Thread np nc → View np D) : Prop where
  inc : ∀ q, (m.slot q).state ≠ .unused → (m.slot q).inc < m.ghost.count
  incInj : ∀ q r, (m.slot q).state ≠ .unused → (m.slot r).state ≠ .unused →
    (m.slot q).inc = (m.slot r).inc → q = r
  exit : ∀ e ∈ m.ghost.exits, e.inc < m.ghost.count
  exitNodup : (m.ghost.exits.map Exit.inc).Nodup
  dead : ∀ q, (m.slot q).state = .zombie → (m.slot q).ending ∈ m.ghost.exits
  live : ∀ q, (m.slot q).state ≠ .unused → (m.slot q).state ≠ .zombie →
    ∀ e ∈ m.ghost.exits, e.inc ≠ (m.slot q).inc
  reap : ∀ r ∈ m.ghost.reaps, r.exit ∈ m.ghost.exits ∧ r.parent = some r.caller
  reapNodup : (m.ghost.reaps.map (fun r => r.exit.inc)).Nodup
  gone : ∀ r ∈ m.ghost.reaps, ∀ q, (m.slot q).state ≠ .unused →
    (m.slot q).inc = r.exit.inc → ∃ t, (W t).reaping = some q

/-- The slots of two machines are alike as far as the record is concerned. -/
def SameEnd (x y : Slot np D) : Prop :=
  (y.state = .unused ↔ x.state = .unused) ∧ (y.state = .zombie ↔ x.state = .zombie) ∧
    y.inc = x.inc ∧ (x.state = .zombie → y.ending = x.ending)

theorem SameEnd.refl (x : Slot np D) : SameEnd x x := ⟨Iff.rfl, Iff.rfl, rfl, fun _ => rfl⟩

namespace Trace

/-- Steps that leave the record alone. A slot may become free. -/
theorem congr (h : Trace m W) (hexits : m'.ghost.exits = m.ghost.exits)
    (hreaps : m'.ghost.reaps = m.ghost.reaps) (hcount : m.ghost.count ≤ m'.ghost.count)
    (hslot : ∀ q, (m'.slot q).state = .unused ∨ SameEnd (m.slot q) (m'.slot q))
    (hreap : ∀ q, (m'.slot q).state ≠ .unused → (∃ t, (W t).reaping = some q) →
      ∃ t', (update W t v' t').reaping = some q) :
    Trace m' (update W t v') := by
  -- A slot that is in use was in use, with the same incarnation.
  have hold : ∀ q, (m'.slot q).state ≠ .unused → (m.slot q).state ≠ .unused ∧
      SameEnd (m.slot q) (m'.slot q) := by
    intro q hq
    have hsame := (hslot q).resolve_left hq
    exact ⟨fun hc => hq (hsame.1.mpr hc), hsame⟩
  refine ⟨fun q hq => ?_, fun q r hq hr he => ?_, fun e he => ?_, ?_, fun q hq => ?_,
    fun q hq hz e he => ?_, fun r hr => ?_, ?_, fun r hr q hq he => ?_⟩
  · rcases hold q hq with ⟨h₁, h₂⟩
    rw [h₂.2.2.1]
    exact Nat.lt_of_lt_of_le (h.inc q h₁) hcount
  · rcases hold q hq with ⟨h₁, h₂⟩
    rcases hold r hr with ⟨h₃, h₄⟩
    rw [h₂.2.2.1, h₄.2.2.1] at he
    exact h.incInj q r h₁ h₃ he
  · rw [hexits] at he
    exact Nat.lt_of_lt_of_le (h.exit e he) hcount
  · rw [hexits]
    exact h.exitNodup
  · have hne : (m'.slot q).state ≠ .unused := by
      rw [hq]
      exact nofun
    have hz := (hold q hne).2.2.1.mp hq
    rw [hexits, (hold q hne).2.2.2.2 hz]
    exact h.dead q hz
  · rcases hold q hq with ⟨h₁, h₂⟩
    rw [hexits] at he
    rw [h₂.2.2.1]
    exact h.live q h₁ (fun hc => hz (h₂.2.1.mpr hc)) e he
  · rw [hreaps] at hr
    rw [hexits]
    exact h.reap r hr
  · rw [hreaps]
    exact h.reapNodup
  · rw [hreaps] at hr
    rcases hold q hq with ⟨h₁, h₂⟩
    rw [h₂.2.2.1] at he
    exact hreap q hq (h.gone r hr q h₁ he)

theorem alloc (h : Trace m W) (q : Fin np) (hexits : m'.ghost.exits = m.ghost.exits)
    (hreaps : m'.ghost.reaps = m.ghost.reaps) (hcount : m'.ghost.count = m.ghost.count + 1)
    (hother : ∀ r, r ≠ q → m'.slot r = m.slot r) (hq : (m'.slot q).inc = m.ghost.count)
    (hstate : (m'.slot q).state = .used) (hreap : v'.reaping = (W t).reaping) :
    Trace m' (update W t v') := by
  have hnew : ∀ r, r ≠ q → (m'.slot r).state ≠ .unused → (m'.slot r).inc ≠ (m'.slot q).inc := by
    intro r hr hu he
    rw [hother r hr] at hu he
    have := h.inc r hu
    omega
  have hzom : (m'.slot q).state ≠ .zombie := by
    rw [hstate]
    exact nofun
  refine ⟨fun r hr => ?_, fun r s hr hs he => ?_, fun e he => ?_, ?_, fun r hr => ?_,
    fun r hr hz e he => ?_, fun r hr => ?_, ?_, fun r hr s hs he => ?_⟩
  · by_cases hrq : r = q
    · rw [hrq, hq, hcount]
      exact Nat.lt_succ_self _
    · rw [hother r hrq] at hr ⊢
      have := h.inc r hr
      omega
  · by_cases hrq : r = q
    · by_cases hsq : s = q
      · rw [hrq, hsq]
      · rw [hrq] at he
        exact absurd he.symm (hnew s hsq hs)
    · by_cases hsq : s = q
      · rw [hsq] at he
        exact absurd he (hnew r hrq hr)
      · rw [hother r hrq] at hr he
        rw [hother s hsq] at hs he
        exact h.incInj r s hr hs he
  · rw [hexits] at he
    have := h.exit e he
    omega
  · rw [hexits]
    exact h.exitNodup
  · have hrq : r ≠ q := fun he => hzom (by rw [← he]; exact hr)
    rw [hother r hrq] at hr ⊢
    rw [hexits]
    exact h.dead r hr
  · rw [hexits] at he
    by_cases hrq : r = q
    · rw [hrq, hq]
      have := h.exit e he
      omega
    · rw [hother r hrq] at hr hz ⊢
      exact h.live r hr hz e he
  · rw [hreaps] at hr
    rw [hexits]
    exact h.reap r hr
  · rw [hreaps]
    exact h.reapNodup
  · rw [hreaps] at hr
    have hsq : s ≠ q := by
      intro hsq
      rw [hsq, hq] at he
      have := h.exit _ (h.reap r hr).1
      omega
    rw [hother s hsq] at hs he
    exact exists_reaping hreap.trans (h.gone r hr s hs he)

theorem ended (h : Trace m W) (q : Fin np) (hlive : (m.slot q).state = .running)
    (hexits : m'.ghost.exits = (m'.slot q).ending :: m.ghost.exits)
    (hreaps : m'.ghost.reaps = m.ghost.reaps) (hcount : m'.ghost.count = m.ghost.count + 1)
    (hother : ∀ r, r ≠ q → m'.slot r = m.slot r) (hinc : (m'.slot q).inc = (m.slot q).inc)
    (hstate : (m'.slot q).state = .zombie) (hreap : v'.reaping = (W t).reaping) :
    Trace m' (update W t v') := by
  have hused : (m.slot q).state ≠ .unused := by
    rw [hlive]
    exact nofun
  have hzom : (m.slot q).state ≠ .zombie := by
    rw [hlive]
    exact nofun
  -- Being in use and the incarnations have not changed.
  have hsame : ∀ r, ((m'.slot r).state ≠ .unused → (m.slot r).state ≠ .unused) ∧
      (m'.slot r).inc = (m.slot r).inc := by
    intro r
    by_cases hrq : r = q
    · rw [hrq]
      exact ⟨fun _ => hused, hinc⟩
    · rw [hother r hrq]
      exact ⟨id, rfl⟩
  refine ⟨fun r hr => ?_, fun r s hr hs he => ?_, fun e he => ?_, ?_, fun r hr => ?_,
    fun r hr hz e he => ?_, fun r hr => ?_, ?_, fun r hr s hs he => ?_⟩
  · rw [(hsame r).2, hcount]
    have := h.inc r ((hsame r).1 hr)
    omega
  · rw [(hsame r).2, (hsame s).2] at he
    exact h.incInj r s ((hsame r).1 hr) ((hsame s).1 hs) he
  · rw [hexits, List.mem_cons] at he
    rw [hcount]
    rcases he with he | he
    · rw [he]
      change (m'.slot q).inc < _
      rw [hinc]
      have := h.inc q hused
      omega
    · have := h.exit e he
      omega
  · rw [hexits, List.map_cons, List.nodup_cons]
    refine ⟨fun hm => ?_, h.exitNodup⟩
    rcases List.mem_map.mp hm with ⟨e, he, hee⟩
    have hne := h.live q hused hzom e he
    rw [hee] at hne
    exact hne hinc
  · rw [hexits, List.mem_cons]
    by_cases hrq : r = q
    · rw [hrq]
      exact Or.inl rfl
    · rw [hother r hrq] at hr ⊢
      exact Or.inr (h.dead r hr)
  · have hrq : r ≠ q := fun he => hz (by rw [he]; exact hstate)
    rw [hexits, List.mem_cons] at he
    rw [hother r hrq] at hr hz ⊢
    rcases he with he | he
    · rw [he]
      change (m'.slot q).inc ≠ _
      rw [hinc]
      exact fun hc => hrq (h.incInj q r hused hr hc).symm
    · exact h.live r hr hz e he
  · rw [hreaps] at hr
    rw [hexits]
    exact ⟨List.mem_cons_of_mem _ (h.reap r hr).1, (h.reap r hr).2⟩
  · rw [hreaps]
    exact h.reapNodup
  · rw [hreaps] at hr
    rw [(hsame s).2] at he
    exact exists_reaping hreap.trans (h.gone r hr s ((hsame s).1 hs) he)

theorem reaped (h : Trace m W) (q p : Fin np) (hzom : (m.slot q).state = .zombie)
    (hpar : m.parent q = some p) (hnot : ∀ t, (W t).reaping ≠ some q)
    (hself : v'.reaping = some q) (hnone : (W t).reaping = none) :
    Trace { m with ghost := { m.ghost with
      reaps := ⟨(m.slot q).ending, p, m.parent q⟩ :: m.ghost.reaps } } (update W t v') := by
  have hused : (m.slot q).state ≠ .unused := by
    rw [hzom]
    exact nofun
  refine ⟨h.inc, h.incInj, h.exit, h.exitNodup, h.dead, h.live, ?_, ?_, fun r hr s hs he => ?_⟩
  · exact List.forall_mem_cons.mpr ⟨⟨h.dead q hzom, hpar⟩, h.reap⟩
  · refine List.nodup_cons.mpr ⟨fun hm => ?_, h.reapNodup⟩
    rcases List.mem_map.mp hm with ⟨r, hr, he⟩
    rcases h.gone r hr q hused he.symm with ⟨t', ht'⟩
    exact hnot t' ht'
  · rcases List.mem_cons.mp hr with hr | hr
    · -- The incarnation is that of the zombie.
      rw [hr] at he
      rw [h.incInj s q hs hused he]
      exact ⟨t, by rw [update_self]; exact hself⟩
    · exact exists_reaping (fun hc => nomatch hnone.symm.trans hc) (h.gone r hr s hs he)

theorem switch {c : Fin nc} {o : Option (Fin np)} {t₀ : Thread np nc} {q : Fin np} {x : Slot np D}
    (h : Trace m W) (hne : t ≠ t₀) : Trace (m.switch c o) (switchViews W t₀ t q x) := by
  refine ⟨h.inc, h.incInj, h.exit, h.exitNodup, h.dead, h.live, h.reap, h.reapNodup,
    fun r hr s hs he => (h.gone r hr s hs he).imp (fun t' ht' => ?_)⟩
  exact (switchViews_proj View.reaping hne (fun _ => rfl) (fun _ => rfl) t').trans ht'

end Trace

end Trace

end Xv6.Sched
