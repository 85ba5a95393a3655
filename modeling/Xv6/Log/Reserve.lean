import Mathlib.Data.Finset.Card
import Xv6.Log.Header

/-!
# Log Space Reservation

Whether the admission test of `begin_op` keeps `log_write` from overflowing
the log, for any number of processes running operations in any order.

It does not, and the reason is spread over three files. `begin_op` admits an
operation as long as `LOGSIZE` blocks would hold everything logged and
everything still reserved. `mkfs` makes the log `LOGSIZE` blocks long with the
header included, so only `LOGSIZE - 1` blocks can be logged. And `log_write`
tests for space before it looks for the block among those already logged, so
with `LOGSIZE - 1` blocks logged even rewriting one of them panics. Three
operations of `MAXOPBLOCKS` blocks each are admitted together and overflow.

`FitsLog` is what a run has to satisfy instead. It is a count over the events
of the run and mentions no state of the log: at every `log_write`, the blocks
logged since the last commit number at most `LOGSIZE - 2`.
`log_reservation_iff` says that this is exact.

## Main definitions

* `Ops`: The log and the operations in progress.
* `step`: One critical section of one process.
* `logged`: The blocks logged since the last commit.
* `FitsLog`: Every `log_write` of the run comes early enough.

## Theorems

* `log_overflow`: So the reservation is unsound.
* `log_reservation_iff`: A run is free of the panic exactly if it fits.
-/

namespace Xv6.Reserve

open Function

/-- The log, and for each process the blocks its operation has logged so far,
    or `none` outside an operation. -/
structure Ops (P : Type) where
  log : Log
  op : P → Option (Finset Nat)

/-- The critical sections of the operations, and the end of a commit. -/
inductive Event (P : Type) where
  | begin (p : P)
  | write (p : P) (b : Nat)
  | finish (p : P)
  | commit

/-- A file system made by `mkfs`, just mounted. -/
def boot (P : Type) : Ops P := { log := Log.initlog mkfsSb, op := fun _ => none }

variable {P : Type} {es : List (Event P)} {bs : Finset Nat}

/-- The blocks logged since the last commit, with one more event. -/
def Event.tally (bs : Finset Nat) : Event P → Finset Nat
  | .write _ b => insert b bs
  | .commit => ∅
  | _ => bs

/-- The blocks a run has logged since its last commit. -/
def logged (es : List (Event P)) : Finset Nat := es.foldl Event.tally ∅

/-- At every `log_write` of the run, at most `LOGSIZE - 2` blocks have been
    logged since the last commit. -/
def FitsLog (es : List (Event P)) : Prop :=
  ∀ es₁ p b es₂, es = es₁ ++ Event.write p b :: es₂ → (logged es₁).card ≤ LOGSIZE - 2

theorem logged_snoc (es : List (Event P)) (e : Event P) :
    logged (es ++ [e]) = Event.tally (logged es) e := by
  simp only [logged, List.foldl_append, List.foldl_cons, List.foldl_nil]

theorem fitsLog_snoc (es : List (Event P)) (e : Event P) :
    FitsLog (es ++ [e]) ↔
      FitsLog es ∧ ∀ p b, e = .write p b → (logged es).card ≤ LOGSIZE - 2 := by
  constructor
  · intro h
    refine ⟨fun es₁ p b es₂ hes => h es₁ p b (es₂ ++ [e]) ?_, fun p b he => h es p b [] ?_⟩
    · rw [hes, List.append_assoc, List.cons_append]
    · rw [he]
  · rintro ⟨h, hlast⟩ es₁ p b es₂ hes
    rcases List.eq_nil_or_concat es₂ with hnil | ⟨es₃, f, hsnoc⟩
    · -- The write is the new event.
      rw [hnil] at hes
      rcases List.append_inj' hes rfl with ⟨hpre, he⟩
      rw [← hpre]
      exact hlast p b (by simpa only [List.cons.injEq, and_true] using he)
    · -- The write was there before.
      rw [hsnoc, List.concat_eq_append, ← List.cons_append, ← List.append_assoc] at hes
      exact h es₁ p b es₃ (List.append_inj' hes rfl).1

/-- What holds after a run that has not panicked. The processes inside an
    operation are finite in number and `log.outstanding` counts them, so
    neither of the other two assertions of the log can fire. -/
structure Inv (es : List (Event P)) (s : Ops P) : Prop where
  size : s.log.size = LOGSIZE
  nodup : s.log.lh.Nodup
  blocks : s.log.lh.toFinset = logged es
  active : ∃ A : Finset P, (∀ p, p ∈ A ↔ (s.op p).isSome = true) ∧ A.card = s.log.outstanding
  idle : s.log.committing = true → s.log.outstanding = 0

theorem length_lh {s : Ops P} (h : Inv es s) :
    s.log.lh.length = (logged es).card := by
  rw [← h.blocks, List.toFinset_card_of_nodup h.nodup]

theorem outstanding_pos {s : Ops P} (h : Inv es s) {p : P} (hp : s.op p = some bs) :
    1 ≤ s.log.outstanding := by
  rcases h.active with ⟨A, hA, hcard⟩
  have hmem : p ∈ A := (hA p).mpr (by rw [hp, Option.isSome_some])
  rw [← hcard]
  exact Finset.card_pos.mpr ⟨p, hmem⟩

theorem inv_boot : Inv ([] : List (Event P)) (boot P) := by
  refine ⟨rfl, List.nodup_nil, rfl, ⟨∅, fun p => ?_, rfl⟩, fun _ => rfl⟩
  simp only [Finset.notMem_empty, boot, Option.isSome_none, Bool.false_eq_true]

variable [DecidableEq P]

/-- One critical section. A process logs only inside an operation, and no
    more than `MAXOPBLOCKS` distinct blocks in one operation: any other event
    is not part of a run. -/
def step (s : Ops P) : Event P → Outcome Panic (Ops P)
  | .begin p =>
    match s.op p with
    | some _ => .wait
    | none => do
      let l ← s.log.beginOp
      return { log := l, op := update s.op p (some ∅) }
  | .write p b =>
    match s.op p with
    | none => .wait
    | some bs =>
      if (insert b bs).card ≤ MAXOPBLOCKS then do
        let r ← s.log.logWrite b
        return { log := r.1, op := update s.op p (some (insert b bs)) }
      else .wait
  | .finish p =>
    match s.op p with
    | none => .wait
    | some _ => do
      let r ← s.log.endOp
      return { log := r.1, op := update s.op p none }
  | .commit => if s.log.committing then .done { s with log := s.log.commitDone } else .wait

/-- Three operations, each logging ten blocks of its own. -/
def threeOps : List (Event (Fin 3)) :=
  [.begin 0, .begin 1, .begin 2] ++
    (List.range 10).map (fun b => .write 0 (100 + b)) ++
    (List.range 10).map (fun b => .write 1 (200 + b)) ++
    (List.range 10).map (fun b => .write 2 (300 + b))

/-- The admission test lets three operations in, and the last block of the
    third one overflows the log. -/
theorem threeOps_panics :
    runs step threeOps (boot (Fin 3)) = .panic .tooBigTransaction := by
  rfl

/-- So there is a run of legal operations in which `log_write` panics. -/
theorem log_overflow : ¬ ∀ es : List (Event (Fin 3)),
    runs step es (boot (Fin 3)) ≠ .panic .tooBigTransaction :=
  fun h => h threeOps threeOps_panics

theorem inv_begin {s s' : Ops P} {p : P} (h : Inv es s)
    (hs : step s (.begin p) = .done s') : Inv (es ++ [.begin p]) s' := by
  cases hp : s.op p with
  | some bs => simp only [step, hp, reduceCtorEq] at hs
  | none =>
    simp only [step, hp, Outcome.bind_eq_done, Outcome.pure_eq, Outcome.done.injEq] at hs
    rcases hs with ⟨l, hl, rfl⟩
    unfold Log.beginOp at hl
    by_cases hc : s.log.committing = true
    · simp only [hc, if_true, reduceCtorEq] at hl
    · rw [if_neg hc] at hl
      by_cases hfull : s.log.lh.length + (s.log.outstanding + 1) * MAXOPBLOCKS > LOGSIZE
      · simp only [if_pos hfull, reduceCtorEq] at hl
      · rw [if_neg hfull, Outcome.done.injEq] at hl
        rcases h.active with ⟨A, hA, hcard⟩
        have hpA : p ∉ A := by
          rw [hA p, hp]
          exact Bool.false_ne_true
        refine ⟨by rw [← hl]; exact h.size, by rw [← hl]; exact h.nodup, ?_, ?_, ?_⟩
        · rw [← hl, logged_snoc]
          exact h.blocks
        · refine ⟨insert p A, fun q => ?_, ?_⟩
          · by_cases hq : q = p
            · simp only [hq, update_self, Finset.mem_insert_self, Option.isSome_some]
            · simp only [update_of_ne hq, ← hA q, Finset.mem_insert, hq, false_or]
          · rw [← hl, Finset.card_insert_of_notMem hpA, hcard]
        · intro hcom
          rw [← hl] at hcom
          exact absurd hcom hc

/-- Ending an operation: the assertion of `end_op` holds, because no commit
    runs while an operation is outstanding. -/
theorem inv_finish {s : Ops P} {p : P} (h : Inv es s) (hp : s.op p = some bs) :
    ∃ s', step s (.finish p) = .done s' ∧ Inv (es ++ [.finish p]) s' := by
  have hpos := outstanding_pos h hp
  have hc : ¬ s.log.committing = true := by
    intro hc
    have := h.idle hc
    omega
  rcases h.active with ⟨A, hA, hcard⟩
  have hpA : p ∈ A := (hA p).mpr (by rw [hp, Option.isSome_some])
  -- One process fewer is active, whichever branch is taken.
  have hactive : ∀ n, n = s.log.outstanding - 1 → ∃ B : Finset P,
      (∀ q, q ∈ B ↔ (update s.op p none q).isSome = true) ∧ B.card = n := by
    intro n hn
    refine ⟨A.erase p, fun q => ?_, by rw [Finset.card_erase_of_mem hpA, hcard, hn]⟩
    by_cases hq : q = p
    · rw [hq, update_self]
      simp only [Finset.mem_erase, ne_eq, not_true_eq_false, false_and, Option.isSome_none,
        Bool.false_eq_true]
    · rw [update_of_ne hq, ← hA q, Finset.mem_erase]
      simp only [ne_eq, hq, not_false_eq_true, true_and]
  by_cases hlast : s.log.outstanding - 1 = 0
  · refine ⟨{ log := { s.log with outstanding := s.log.outstanding - 1, committing := true },
              op := update s.op p none }, ?_, h.size, h.nodup, ?_, hactive _ rfl,
              fun _ => hlast⟩
    · simp only [step, hp, Log.endOp, if_neg hc, if_pos hlast]
      rfl
    · rw [logged_snoc]
      exact h.blocks
  · refine ⟨{ log := { s.log with outstanding := s.log.outstanding - 1 },
              op := update s.op p none }, ?_, h.size, h.nodup, ?_, hactive _ rfl,
              fun hcom => absurd hcom hc⟩
    · simp only [step, hp, Log.endOp, if_neg hc, if_neg hlast]
      rfl
    · rw [logged_snoc]
      exact h.blocks

theorem inv_write {s : Ops P} {p : P} {b : Nat} (h : Inv es s) (hp : s.op p = some bs)
    (hop : (insert b bs).card ≤ MAXOPBLOCKS) (hroom : (logged es).card ≤ LOGSIZE - 2) :
    ∃ s', step s (.write p b) = .done s' ∧ Inv (es ++ [.write p b]) s' := by
  have hpos := outstanding_pos h hp
  have hlen := length_lh h
  have hsize := h.size
  have hfit : ¬ (s.log.lh.length ≥ LOGSIZE ∨ s.log.lh.length ≥ s.log.size - 1) := by
    rw [hlen, hsize]
    simp only [LOGSIZE, MAXOPBLOCKS] at hroom ⊢
    omega
  have hactive : ∃ A : Finset P,
      (∀ q, q ∈ A ↔ (update s.op p (some (insert b bs)) q).isSome = true) ∧
        A.card = s.log.outstanding := by
    rcases h.active with ⟨A, hA, hcard⟩
    refine ⟨A, fun q => ?_, hcard⟩
    by_cases hq : q = p
    · rw [hq, update_self, hA p, hp]
      simp only [Option.isSome_some]
    · rw [update_of_ne hq, hA q]
  by_cases hmem : b ∈ s.log.lh
  · -- Absorbed: the block is in the log already.
    refine ⟨{ log := s.log, op := update s.op p (some (insert b bs)) }, ?_, h.size,
      h.nodup, ?_, hactive, h.idle⟩
    · simp only [step, hp, if_pos hop, Log.logWrite, if_neg hfit, if_pos hmem,
        if_neg (show ¬ s.log.outstanding < 1 by omega)]
      rfl
    · rw [logged_snoc, Event.tally, ← h.blocks]
      exact (Finset.insert_eq_of_mem (List.mem_toFinset.mpr hmem)).symm
  · refine ⟨{ log := { s.log with lh := s.log.lh ++ [b] },
              op := update s.op p (some (insert b bs)) }, ?_, h.size, ?_, ?_, hactive,
              h.idle⟩
    · simp only [step, hp, if_pos hop, Log.logWrite, if_neg hfit, if_neg hmem,
        if_neg (show ¬ s.log.outstanding < 1 by omega)]
      rfl
    · exact List.Nodup.append h.nodup (List.nodup_singleton b)
        (List.disjoint_singleton.mpr hmem)
    · rw [logged_snoc, Event.tally, ← h.blocks, List.toFinset_append, List.toFinset_cons,
        List.toFinset_nil, Finset.union_insert, Finset.union_empty]

/-- Logging a block without room: the assertion fires. -/
theorem write_panics {s : Ops P} {p : P} {b : Nat} (h : Inv es s) (hp : s.op p = some bs)
    (hop : (insert b bs).card ≤ MAXOPBLOCKS) (hroom : ¬ (logged es).card ≤ LOGSIZE - 2) :
    step s (.write p b) = .panic .tooBigTransaction := by
  have hfull : s.log.lh.length ≥ LOGSIZE ∨ s.log.lh.length ≥ s.log.size - 1 := by
    rw [length_lh h, h.size]
    simp only [LOGSIZE, MAXOPBLOCKS] at hroom ⊢
    omega
  simp only [step, hp, if_pos hop, Log.logWrite, if_pos hfull]
  rfl

/-- A run that is not stuck either completes, and then it fits, or overflows
    the log, and then it does not. By induction on the run, its last event
    taken off: the invariant describes the state that event is taken in. -/
theorem runs_cases (hrun : runs step es (boot P) ≠ .wait) :
    (∃ s, runs step es (boot P) = .done s ∧ Inv es s ∧ FitsLog es) ∨
      (runs step es (boot P) = .panic .tooBigTransaction ∧ ¬ FitsLog es) := by
  induction es using List.reverseRecOn with
  | nil =>
    refine Or.inl ⟨boot P, rfl, inv_boot, ?_⟩
    intro es₁ p b es₂ hes
    simp only [List.nil_eq, List.append_eq_nil_iff, reduceCtorEq, and_false] at hes
  | append_singleton es e ih =>
    rw [runs_append] at hrun ⊢
    have hpre : runs step es (boot P) ≠ .wait := by
      intro hw
      rw [hw] at hrun
      exact hrun rfl
    rcases ih hpre with ⟨s, hs, hinv, hfit⟩ | ⟨hpanic, hfit⟩
    · rw [hs] at hrun ⊢
      simp only [Outcome.done_bind, runs_cons] at hrun ⊢
      -- An event that completes has to keep the invariant and the count.
      have hdone : ∀ s', step s e = .done s' → Inv (es ++ [e]) s' →
          (∀ p b, e = .write p b → (logged es).card ≤ LOGSIZE - 2) →
          (∃ t, (step s e >>= runs step []) = .done t ∧ Inv (es ++ [e]) t ∧
            FitsLog (es ++ [e])) ∨
          ((step s e >>= runs step []) = .panic .tooBigTransaction ∧ ¬ FitsLog (es ++ [e])) := by
        intro s' hs' hi hw
        exact Or.inl ⟨s', by rw [hs']; rfl, hi, (fitsLog_snoc es e).mpr ⟨hfit, hw⟩⟩
      cases e with
      | begin p =>
        cases hst : step s (.begin p) with
        | done s' =>
          rw [← hst]
          exact hdone s' hst (inv_begin hinv hst)
            (fun q b hq => by simp only [reduceCtorEq] at hq)
        | wait =>
          rw [hst] at hrun
          exact absurd rfl hrun
        | panic m =>
          exfalso
          revert hst
          simp only [step, Log.beginOp]
          split
          · exact fun hst => by simp only [reduceCtorEq] at hst
          · split
            · exact fun hst => by simp only [Outcome.wait_bind, reduceCtorEq] at hst
            · split
              · exact fun hst => by simp only [Outcome.wait_bind, reduceCtorEq] at hst
              · exact fun hst => by
                  simp only [Outcome.done_bind, Outcome.pure_eq, reduceCtorEq] at hst
      | write p b =>
        cases hp : s.op p with
        | none => simp only [step, hp, Outcome.wait_bind, ne_eq, not_true_eq_false] at hrun
        | some bs =>
          by_cases hop : (insert b bs).card ≤ MAXOPBLOCKS
          · by_cases hroom : (logged es).card ≤ LOGSIZE - 2
            · rcases inv_write hinv hp hop hroom with ⟨s', hs', hi⟩
              exact hdone s' hs' hi (fun _ _ _ => hroom)
            · refine Or.inr ⟨?_, fun hf => hroom ?_⟩
              · rw [write_panics hinv hp hop hroom]
                rfl
              · exact ((fitsLog_snoc es _).mp hf).2 p b rfl
          · simp only [step, hp, if_neg hop, Outcome.wait_bind, ne_eq,
              not_true_eq_false] at hrun
      | finish p =>
        cases hp : s.op p with
        | none => simp only [step, hp, Outcome.wait_bind, ne_eq, not_true_eq_false] at hrun
        | some bs =>
          rcases inv_finish hinv hp with ⟨s', hs', hi⟩
          exact hdone s' hs' hi (fun q b hq => by simp only [reduceCtorEq] at hq)
      | commit =>
        by_cases hc : s.log.committing = true
        · refine hdone { s with log := s.log.commitDone } (by simp only [step, if_pos hc])
            ⟨hinv.size, List.nodup_nil, ?_, hinv.active, ?_⟩
            (fun q b hq => by simp only [reduceCtorEq] at hq)
          · rw [logged_snoc]
            rfl
          · exact nofun
        · simp only [step, if_neg hc, Outcome.wait_bind, ne_eq, not_true_eq_false] at hrun
    · refine Or.inr ⟨by rw [hpanic]; rfl, fun hf => hfit ((fitsLog_snoc es e).mp hf).1⟩

/-- The reservation is sound for exactly the runs that fit. For any run of
    operations by any number of processes, each logging at most `MAXOPBLOCKS`
    distinct blocks between its `begin_op` and its `end_op`, the assertion of
    `log_write` stays silent if and only if at every `log_write` at most
    `LOGSIZE - 2` blocks have been logged since the last commit. -/
theorem log_reservation_iff (es : List (Event P)) (hrun : runs step es (boot P) ≠ .wait) :
    runs step es (boot P) ≠ .panic .tooBigTransaction ↔ FitsLog es := by
  rcases runs_cases hrun with ⟨s, hs, _, hfit⟩ | ⟨hpanic, hfit⟩
  · rw [hs]
    simp only [ne_eq, reduceCtorEq, not_false_eq_true, hfit]
  · simp only [hpanic, ne_eq, not_true_eq_false, hfit]

/-- The overflowing run is a run, so it does not fit. -/
theorem threeOps_not_fits : ¬ FitsLog threeOps := by
  have hrun : runs step threeOps (boot (Fin 3)) ≠ .wait := by
    rw [threeOps_panics]
    exact nofun
  exact fun hf => (log_reservation_iff threeOps hrun).mpr hf threeOps_panics

end Xv6.Reserve
