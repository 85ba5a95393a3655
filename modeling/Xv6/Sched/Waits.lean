import Xv6.Pipe.Fifo
import Xv6.Sched.Calls

/-!
# Waiting on Views

What the loops that wait do to the view of their thread, and the programs at all
labels.

A program that starts where its label says comes to its next label with the view
that belongs there, `Ends`: nothing is held in user space, and a loop holds its
lock and knows that nobody sleeps whose wait has come to an end. The exception
is a writer that has put bytes into a pipe and has not yet woken the readers.

To the pipe itself a round does what the steps of `Pipe` do.

## Main definitions

* `KeyOk`: What the holder of the lock of a variable knows.
* `Ends`: The view of a process at a label.

## Theorems

* `pipewriteRound_swp`, `pipereadRound_swp` and others: The rounds of the loops.
* `pipewriteRound_follows`, `pipereadRound_follows`: The rounds follow the steps of `Pipe`.
* `code_swp`: The program of a process at a label comes to its next label.
-/

namespace Xv6.Sched

open Sched.View

/-! ### Waiting for a variable -/

section Waits

variable {np nc : Nat} {D : Type} {init p : Fin np} {b : Bool} {k : Key} {x : k.Val D}
  {c : Nap D → Fin np → Prop}

/-- Nobody sleeps for a variable whose wait has come to an end, except for `w₀`, as
    the holder of its lock knows. -/
structure KeyOk (np : Nat) (k : Key) (x : k.Val D) (but : Nap D → Prop)
    (c : Nap D → Fin np → Prop) : Prop where
  ready : ∀ w q, w.readyAt k x → ¬but w → c w q
  only : ∀ w q, c w q → (w.lock : Lock np) = .key k

theorem keyOk_start (x : k.Val D) :
    KeyOk np k x (fun _ => False) (fun (w : Nap D) _ => w.readyAt k x) :=
  ⟨fun _ _ h _ => h, fun _ _ h => Nap.lock_of_readyAt h⟩

theorem KeyOk.sure (h : KeyOk np k x (fun _ => False) c) {w : Nap D} {q : Fin np}
    (hw : w.readyAt k x) : c w q :=
  h.ready w q hw id

theorem KeyOk.of_scan {but : Nap D → Prop} (h : KeyOk np k x but c)
    {c' : Nap D → Fin np → Prop} (hold : ∀ w q, c w q → c' w q)
    (hup : ∀ w q, c' w q → c w q ∨ (inKey p k x b c).owns w.lock) :
    KeyOk np k x but c' := by
  refine ⟨fun w q hw hb => hold _ q (h.ready w q hw hb), fun w q hw => ?_⟩
  rcases hup w q hw with hw | ho
  · exact h.only w q hw
  · exact owns_inKey.mp ho

theorem KeyOk.weaken {but but' : Nap D → Prop} (h : KeyOk np k x but c)
    (hb : ∀ w, w.readyAt k x → but w → but' w) : KeyOk np k x but' c :=
  ⟨fun w q hw hn => h.ready w q hw (fun hw' => hn (hb w hw hw')), h.only⟩

/-- The lock is given up when nobody has to be woken. -/
theorem release_inKey (h : KeyOk np k x (fun _ => False) c) {Q : Unit → View np D → Prop}
    (hQ : Q () (home p)) :
    swp init (.proc p : Thread np nc) (release (.key k)) Q (inKey p k x false c) := by
  refine release_key_swp (x := x) key_inKey nofun (fun w q hw => h.sure hw) ?_
  rw [unlockKey_inKey h.only]
  exact hQ

theorem wakeup_inKey {but : Nap D → Prop} (h : KeyOk np k x but c) {ch : Chan np}
    (hch : ∀ w (q : Fin np), w.readyAt k x → but w → w.chan q = ch)
    {Q : Unit → View np D → Prop}
    (hQ : ∀ c', KeyOk np k x (fun _ => False) c' → Q () (inKey p k x b c')) :
    swp init (.proc p : Thread np nc) (wakeup (some ch)) Q (inKey p k x b c) := by
  refine wakeup_swp scan_inKey (fun c' hold hnew hup => ?_)
  refine hQ c' ⟨fun w q hw _ => ?_, (h.of_scan hold hup).only⟩
  by_cases hb : but w
  · refine hnew w q (hch w q hw hb) (owns_inKey.mpr ?_)
    exact Nap.lock_of_readyAt hw
  · exact hold w q (h.ready w q hw hb)

theorem killed_inKey {but : Nap D → Prop} (h : KeyOk np k x but c) {waits : Bool}
    {Q : Bool → View np D → Prop}
    (hQ : ∀ b c', KeyOk np k x but c' → Q b (inKey p k x (waits && !b) c')) :
    swp init (.proc p : Thread np nc) (killed p waits) Q (inKey p k x false c) := by
  refine killed_swp rfl scan_inKey (fun b c' hold hup => ?_)
  have := hQ b c' (h.of_scan hold hup)
  cases waits with
  | true | false => exact this

theorem sleep_inKey (h : KeyOk np k x (fun _ => False) c) (w : Nap D)
    (hl : (w.lock : Lock np) = .key k) (hnot : ¬w.readyAt k x)
    (hkill : w.killable = true → b = true) (Q : Unit → View np D → Prop)
    (hQ : ∀ y c', KeyOk np k y (fun _ => False) c' → Q () (inKey p k y false c')) :
    swp init (.proc p : Thread np nc) (sleep p (w.chan p) (.key k) w) Q
      (inKey p k x b c) :=
  sleep_key_swp hl hnot (fun _ _ hw => h.sure hw) h.only hkill
    (fun y => hQ y _ (keyOk_start y))

theorem get_inKey {Q : k.Val D → View np D → Prop} (hQ : Q x (inKey p k x b c)) :
    swp init (.proc p : Thread np nc) (get k) Q (inKey p k x b c) :=
  get_swp key_inKey hQ

theorem set_inKey {y : k.Val D} {Q : Unit → View np D → Prop}
    (hQ : Q () (inKey p k y b c)) :
    swp init (.proc p : Thread np nc) (set k y) Q (inKey p k x b c) := by
  refine set_swp key_inKey_ne_none ?_
  rw [setKey_inKey]
  exact hQ

theorem acquire_inKey {Q : Unit → View np D → Prop}
    (hQ : ∀ (x : k.Val D) c, KeyOk np k x (fun _ => False) c →
      Q () (inKey p k x false c)) :
    swp init (.proc p : Thread np nc) (acquire (.key k)) Q (home p) := by
  refine acquire_key_swp rfl (fun x => ?_)
  rw [lockKey_home]
  exact hQ x _ (keyOk_start x)

theorem KeyOk.change {y : k.Val D} {but but' : Nap D → Prop} (h : KeyOk np k x but c)
    (hxy : ∀ w, w.readyAt k y → ¬but' w → w.readyAt k x ∧ ¬but w) : KeyOk np k y but' c :=
  ⟨fun w q hw hb => h.ready w q (hxy w hw hb).1 (hxy w hw hb).2, h.only⟩

end Waits

/-! ### The programs at the labels -/

/-- The view of a process at a label. -/
def Ends {np : Nat} {D : Type} (p : Fin np) : Label D → View np D → Prop
  | .user _, v => v = .home p
  | .trapret _, v => v = .home p
  | .wait _, v => ∃ T c, v = .inTab p T false c ∧ TabOk T c
  | .pipewrite i _ _ _ accepted, v => ∃ x c, v = .inKey p (.pipe i) x false c ∧
      KeyOk np (.pipe i) x (fun w => accepted = true ∧ w = .read i) c
  | .piperead i _ _, v => ∃ x c, v = .inKey p (.pipe i) x false c ∧
      KeyOk np (.pipe i) x (fun _ => False) c
  | .sysSleep _ _, v => ∃ x c, v = .inKey p .ticks x false c ∧
      KeyOk np .ticks x (fun _ => False) c
  | .consoleread _ _ _, v => ∃ x c, v = .inKey p .cons x false c ∧
      KeyOk np .cons x (fun _ => False) c
  | .section n _, v => ∃ x c, v = .inKey p (.data n) x false c ∧
      KeyOk np (.data n) x (fun _ => False) c
  | .sched, _ => False

section Programs

variable {np nc : Nat} {D : Type} {init p : Fin np} {c : Nap D → Fin np → Prop}
  {x : Pipe}

theorem ends_home (l : Int) : Ends (D := D) p (.trapret l) (home p) := rfl

/-- The wait of a round that is killable: the process gives up, or it sleeps and the round
    starts again. -/
theorem killableWait_swp {k : Key} {x : k.Val D} (w : Nap D) (l : Label D)
    (h : KeyOk np k x (fun _ => False) c) (hl : (w.lock : Lock np) = .key k)
    (hnot : ¬w.readyAt k x)
    (hagain : ∀ y c', KeyOk np k y (fun _ => False) c' → Ends p l (inKey p k y false c')) :
    swp init (.proc p : Thread np nc)
      (do if ← killed p true then
            release (.key k)
            return .trapret (-1)
          else
            sleep p (w.chan p) (.key k) w
            return l) (Ends p) (inKey p k x false c) := by
  refine swp_seq (killed_inKey h (fun b c' hok => ?_))
  cases b with
  | true =>
    refine swp_if_pos rfl (swp_seq (release_inKey hok ?_))
    exact swp_ret (ends_home (-1))
  | false =>
    refine swp_if_neg Bool.false_ne_true (swp_seq ?_)
    exact sleep_inKey hok w hl hnot (fun _ => rfl) _
      (fun y c₃ hok₃ => swp_ret (hagain y c₃ hok₃))

theorem waitRound_swp (addr : Bool) {T : Table np} (h : TabOk T c) :
    swp init (.proc p : Thread np nc) (waitRound p addr) (Ends p) (inTab p T false c) := by
  unfold waitRound
  refine swp_seq (waitFrom_swp addr _ false c h _ (fun n => swp_ret (ends_home n))
    (fun havekids c' hok hdead => ?_))
  have hnot : ¬T.Ready p := by
    rintro ⟨q, hq, hd⟩
    rw [hdead q (List.mem_finRange q) hq] at hd
    exact Bool.false_ne_true hd
  cases havekids with
  | false =>
    refine swp_if_pos rfl (swp_seq (release_inTab hok _ ?_))
    exact swp_ret (ends_home (-1))
  | true =>
    refine swp_if_neg Bool.false_ne_true (swp_seq (killed_inTab hok
      (fun b c'' hok' => ?_)))
    cases b with
    | true =>
      refine swp_if_pos rfl (swp_seq (release_inTab hok' _ ?_))
      exact swp_ret (ends_home (-1))
    | false =>
      refine swp_if_neg Bool.false_ne_true (swp_seq ?_)
      refine sleep_wait_swp hnot hok'.ready hok'.only (fun T' => swp_ret ?_)
      exact ⟨T', _, rfl, tabOk_start T'⟩

/-! ### Pipes -/

theorem Nap.pipe_of_readyAt {w : Nap D} {i : Nat} (h : w.readyAt (.pipe i) x) :
    (w = .read i ∧ (x.empty = false ∨ x.writeopen = false)) ∨
      (w = .write i ∧ (x.full = false ∨ x.readopen = false)) := by
  cases w with
  | read j => exact Or.inl ⟨by rw [show j = i from h.1], h.2⟩
  | write j => exact Or.inr ⟨by rw [show j = i from h.1], h.2⟩
  | wait | ticks ticks0 n | cons | await n c ch => exact h.elim

theorem pipewriteEnd_swp (i n : Nat) {accepted : Bool}
    (h : KeyOk np (.pipe i) x (fun w => accepted = true ∧ w = .read i) c) :
    swp init (.proc p : Thread np nc) (pipewriteEnd i n) (Ends p)
      (inKey p (.pipe i) x false c) := by
  unfold pipewriteEnd
  refine swp_seq (wakeup_inKey h (fun w q _ hw => by rw [hw.2]; rfl) (fun c' hok => ?_))
  refine swp_seq (release_inKey hok ?_)
  exact swp_ret (ends_home n)

/-- A writer that gives up may leave readers asleep, and this is recorded. -/
theorem pipewriteBad_swp {i : Nat} {accepted : Bool}
    (h : KeyOk np (.pipe i) x (fun w => accepted = true ∧ w = .read i) c) :
    swp init (.proc p : Thread np nc) (pipewriteBad i accepted) (Ends p)
      (inKey p (.pipe i) x false c) := by
  unfold pipewriteBad
  cases accepted with
  | true =>
    refine swp_if_pos rfl (swp_seq ((swp_issue (.rude i) _).mpr ⟨key_inKey_ne_none, swp_seq ?_⟩))
    have hok : KeyOk np (.pipe i) x (fun _ => False) (fun w q => c w q ∨ w = .read i) := by
      refine ⟨fun w q hw _ => ?_, fun w q hw => ?_⟩
      · by_cases hr : w = .read i
        · exact Or.inr hr
        · exact Or.inl (h.ready w q hw (fun hb => hr hb.2))
      · rcases hw with hw | hw
        · exact h.only w q hw
        · rw [hw]
          rfl
    exact release_inKey hok (swp_ret (ends_home (-1)))
  | false =>
    refine swp_if_neg Bool.false_ne_true (swp_seq ?_)
    refine release_inKey (h.weaken (fun w _ hw => Bool.false_ne_true hw.1)) ?_
    exact swp_ret (ends_home (-1))

theorem pipewriteRound_swp {i : Nat} (src : Pipe.Src) (n : Int) (k : Nat) {accepted : Bool}
    (h : KeyOk np (.pipe i) x (fun w => accepted = true ∧ w = .read i) c) :
    swp init (.proc p : Thread np nc) (pipewriteRound p i src n k accepted) (Ends p)
      (inKey p (.pipe i) x false c) := by
  unfold pipewriteRound
  by_cases hk : (k : Int) < n
  · refine swp_if_pos hk (swp_seq (get_inKey ?_))
    by_cases hopen : x.readopen = false
    · exact swp_if_pos hopen (pipewriteBad_swp h)
    · refine swp_if_neg hopen (swp_seq (killed_inKey h (fun b c' hok => ?_)))
      cases b with
      | true =>
        rw [Bool.not_true, Bool.and_false]
        exact swp_if_pos rfl (pipewriteBad_swp hok)
      | false =>
        rw [Bool.not_false, Bool.and_true]
        refine swp_if_neg Bool.false_ne_true ?_
        by_cases hfull : x.full = true
        · refine swp_if_pos hfull (swp_seq ?_)
          refine wakeup_inKey hok (fun w q _ hw => by rw [hw.2]; rfl)
            (fun c'' hok' => swp_seq ?_)
          refine sleep_inKey hok' (.write i) rfl (fun hr => ?_) (fun _ => hfull) _
            (fun y c₃ hok₃ => swp_ret ?_)
          · rcases hr.2 with hr | hr
            · exact Bool.false_ne_true (hr.symm.trans hfull)
            · exact hopen hr
          · exact ⟨y, c₃, rfl, hok₃.weaken (fun _ _ => False.elim)⟩
        · refine swp_if_neg hfull ?_
          rw [Bool.eq_false_iff.mpr hfull]
          cases hsrc : src k with
          | none => exact pipewriteEnd_swp i k hok
          | some ch =>
            refine swp_seq (set_inKey (swp_ret ?_))
            refine ⟨x.put ch, c', rfl, hok.change (fun w hw hb => ?_)⟩
            -- There was room in the pipe before, and the readers come later.
            rcases Nap.pipe_of_readyAt hw with ⟨hw', _⟩ | ⟨hw', _⟩
            · exact absurd ⟨rfl, hw'⟩ hb
            · rw [hw']
              refine ⟨⟨rfl, Or.inl (Bool.eq_false_iff.mpr hfull)⟩, fun hc => ?_⟩
              exact nomatch hc.2
  · exact swp_if_neg hk (pipewriteEnd_swp i k h)

variable {s : Pipe.System (Fin np)}

theorem pc_goto (s : Pipe.System (Fin np)) (pc : Pipe.Pc) : (s.goto p pc).pc p = pc :=
  Function.update_self _ _ _

/-- The copy loop of `piperead` is that of `Pipe`, and only writers may have to be woken. -/
theorem pipereadCopy_swp {i : Nat} (dst : Pipe.Dst) (n : Int) (fuel k : Nat)
    (hf : n.toNat - k = fuel) (hpc : s.pc p = .rcopy dst n k)
    (h : KeyOk np (.pipe i) s.pi (fun w => w = .write i) c) {Q : Nat → View np D → Prop}
    (hQ : ∀ m y j, runs Pipe.step (List.replicate m (.step p)) s = .done y →
      y.pc p = .rexit j → KeyOk np (.pipe i) y.pi (fun w => w = .write i) c →
      Q j (inKey p (.pipe i) y.pi false c)) :
    swp init (.proc p : Thread np nc) (pipereadCopy i dst fuel k) Q
      (inKey p (.pipe i) s.pi false c) := by
  induction fuel generalizing k s with
  | zero =>
    refine swp_ret (hQ 1 (s.goto p (.rexit k)) k ?_ (pc_goto _ _) h)
    rw [Pipe.runs_piperead hpc, Pipe.piperead, if_neg (by omega)]
    rfl
  | succ fuel ih =>
    have hlt : (k : Int) < n := by omega
    have hrun : ∀ m y, runs Pipe.step (List.replicate m (.step p)) (Pipe.piperead s p dst n k) =
        .done y → runs Pipe.step (List.replicate (m + 1) (.step p)) s = .done y :=
      fun m y hy => (Pipe.runs_piperead hpc m).trans hy
    rw [Pipe.piperead, if_pos hlt] at hrun
    unfold pipereadCopy
    refine swp_seq (get_inKey ?_)
    by_cases he : s.pi.empty = true
    · rw [if_pos he] at hrun
      exact swp_if_pos he (swp_ret (hQ 1 (s.goto p (.rexit k)) k (hrun 0 _ rfl) (pc_goto _ _) h))
    · have hok : KeyOk np (.pipe i) s.pi.drop (fun w => w = .write i) c := by
        refine h.change (fun w hw hb => ⟨?_, hb⟩)
        rcases Nap.pipe_of_readyAt hw with ⟨hw', _⟩ | ⟨hw', _⟩
        · rw [hw']
          exact ⟨rfl, Or.inl (Bool.eq_false_iff.mpr he)⟩
        · exact absurd hw' hb
      refine swp_if_neg he (swp_seq (set_inKey ?_))
      rw [if_neg he] at hrun
      cases hd : dst k with
      | true =>
        rw [if_pos hd] at hrun
        have hgo := ih (s := { s with
          pi := s.pi.drop, delivered := s.delivered ++ [s.pi.front] }.goto p (.rcopy dst n (k + 1)))
          (k + 1) (by omega) (pc_goto _ _) hok (fun m y j hy => hQ (m + 1) y j (hrun m y hy))
        exact swp_if_pos rfl hgo
      | false =>
        rw [hd, if_neg Bool.false_ne_true] at hrun
        exact swp_if_neg Bool.false_ne_true
          (swp_ret (hQ 1 _ k (hrun 0 _ rfl) (pc_goto _ _) hok))

theorem pipereadRound_swp {i : Nat} (dst : Pipe.Dst) (n : Int)
    (h : KeyOk np (.pipe i) x (fun _ => False) c) :
    swp init (.proc p : Thread np nc) (pipereadRound p i dst n) (Ends p)
      (inKey p (.pipe i) x false c) := by
  unfold pipereadRound
  refine swp_seq (get_inKey ?_)
  by_cases hwait : x.empty = true ∧ x.writeopen = true
  · refine swp_if_pos hwait (killableWait_swp (.read i) _ h rfl (fun hr => ?_)
      (fun y c' hok => ⟨y, c', rfl, hok⟩))
    rcases hr.2 with hr | hr
    · exact Bool.false_ne_true (hr.symm.trans hwait.1)
    · exact Bool.false_ne_true (hr.symm.trans hwait.2)
  · refine swp_if_neg hwait (swp_seq ?_)
    refine pipereadCopy_swp (s := ⟨x, none, fun _ => .rcopy dst n 0, fun _ => false, [], []⟩)
      dst n _ 0 rfl rfl (h.weaken (fun _ _ => False.elim)) (fun _ y k _ _ hok => ?_)
    refine swp_seq (wakeup_inKey hok (fun w q _ hw => by rw [hw]; rfl)
      (fun c' hok' => swp_seq ?_))
    exact release_inKey hok' (swp_ret (ends_home k))

/-! ### What the rounds do to a pipe -/

/-- How a round of `pipewrite` goes on from where `Pipe.pipewrite` gets the process. -/
def pipewriteTail (p : Fin np) (i : Nat) (accepted : Bool) : Pipe.Pc → P np D (Label D)
  | .wsleep src n k => do
    wakeup (some (.nread i))
    sleep p (.nwrite i) (.key (.pipe i)) (.write i)
    return .pipewrite i src n k false
  | .wloop src n k => return .pipewrite i src n k true
  | .wexit k => pipewriteEnd i k
  | _ => pipewriteBad i accepted

/-- The same for `piperead`. -/
def pipereadTail (p : Fin np) (i : Nat) : Pipe.Pc → P np D (Label D)
  | .rsleep dst n => do
    sleep p (.nread i) (.key (.pipe i)) (.read i)
    return .piperead i dst n
  | .rexit k => do
    wakeup (some (.nwrite i))
    release (.key (.pipe i))
    return .trapret k
  | _ => do
    release (.key (.pipe i))
    return .trapret (-1)

variable {but : Nap D → Prop} {i : Nat}

/-- A round of `pipewrite` does to the pipe what `Pipe.pipewrite` does, with the flag that
    it finds, and goes on accordingly. -/
theorem pipewriteRound_follows (src : Pipe.Src) (n : Int) (k : Nat) (accepted : Bool)
    (h : KeyOk np (.pipe i) s.pi but c) {Q : Label D → View np D → Prop}
    (hQ : ∀ b v y, y = Pipe.pipewrite { s with killed := fun _ => b } p src n k →
      v.key (.pipe i) = some y.pi →
      swp init (.proc p : Thread np nc) (pipewriteTail p i accepted (y.pc p)) Q v) :
    swp init (.proc p : Thread np nc) (pipewriteRound p i src n k accepted) Q
      (inKey p (.pipe i) s.pi false c) := by
  -- The ways on, by the place where `Pipe.pipewrite` gets the process.
  have hgo : ∀ b pi pc w c', (∃ y, Pipe.pipewrite { s with killed := fun _ => b } p src n k = y ∧
      y.pi = pi ∧ y.pc p = pc) → swp init (.proc p : Thread np nc) (pipewriteTail p i accepted pc) Q
        (inKey p (.pipe i) pi w c') := by
    rintro b pi pc w c' ⟨y, hy, rfl, rfl⟩
    exact hQ b _ y hy.symm key_inKey
  unfold pipewriteRound
  unfold Pipe.pipewrite at hgo
  by_cases hk : (k : Int) < n
  · simp only [if_pos hk] at hgo
    refine swp_if_pos hk (swp_seq (get_inKey ?_))
    by_cases hopen : s.pi.readopen = false
    · refine swp_if_pos hopen (hgo false s.pi (.ret (-1)) false c ?_)
      rw [if_pos (Or.inl hopen)]
      exact ⟨_, rfl, rfl, pc_goto _ _⟩
    · refine swp_if_neg hopen (swp_seq (killed_inKey h (fun b c' _ => ?_)))
      cases b with
      | true =>
        refine swp_if_pos rfl (hgo true s.pi (.ret (-1)) _ c' ?_)
        rw [if_pos (Or.inr rfl)]
        exact ⟨_, rfl, rfl, pc_goto _ _⟩
      | false =>
        have hno : ¬(s.pi.readopen = false ∨ false = true) := by
          rintro (hc | hc)
          · exact hopen hc
          · exact Bool.false_ne_true hc
        refine swp_if_neg Bool.false_ne_true ?_
        -- The reader is there and nobody has killed the process.
        by_cases hfull : s.pi.full = true
        · refine swp_if_pos hfull (hgo false s.pi (.wsleep src n k) _ c' ?_)
          rw [if_neg hno, if_pos hfull]
          exact ⟨_, rfl, rfl, pc_goto _ _⟩
        · refine swp_if_neg hfull ?_
          cases hsrc : src k with
          | none =>
            refine hgo false s.pi (.wexit k) _ c' ?_
            rw [if_neg hno, if_neg hfull, hsrc]
            exact ⟨_, rfl, rfl, pc_goto _ _⟩
          | some ch =>
            refine swp_seq (set_inKey (hgo false (s.pi.put ch) (.wloop src n (k + 1)) _ c' ?_))
            rw [if_neg hno, if_neg hfull, hsrc]
            exact ⟨_, rfl, rfl, pc_goto _ _⟩
  · refine swp_if_neg hk (hgo false s.pi (.wexit k) false c ?_)
    rw [if_neg hk]
    exact ⟨_, rfl, rfl, pc_goto _ _⟩

/-- A round of `piperead` is what `Pipe.pipereadWait` does, and the copy loop after it
    unless the process has to wait. -/
theorem pipereadRound_follows (dst : Pipe.Dst) (n : Int)
    (h : KeyOk np (.pipe i) s.pi (fun _ => False) c) {Q : Label D → View np D → Prop}
    (hQ : ∀ b v m y, runs Pipe.step (List.replicate m (.step p))
        (Pipe.pipereadWait { s with killed := fun _ => b } p dst n) = .done y →
      (∀ j, y.pc p ≠ .rcopy dst n j) → v.key (.pipe i) = some y.pi →
      swp init (.proc p : Thread np nc) (pipereadTail p i (y.pc p)) Q v) :
    swp init (.proc p : Thread np nc) (pipereadRound p i dst n) Q
      (inKey p (.pipe i) s.pi false c) := by
  unfold pipereadRound
  refine swp_seq (get_inKey ?_)
  by_cases hwait : s.pi.empty = true ∧ s.pi.writeopen = true
  · refine swp_if_pos hwait (swp_seq (killed_inKey h (fun b c' _ => ?_)))
    have hgo : ∀ pc, (∃ y, Pipe.pipereadWait { s with killed := fun _ => b } p dst n = y ∧
        y.pi = s.pi ∧ y.pc p = pc ∧ ∀ j, pc ≠ .rcopy dst n j) →
        swp init (.proc p : Thread np nc) (pipereadTail p i pc) Q
          (inKey p (.pipe i) s.pi (true && !b) c') := by
      rintro pc ⟨y, rfl, hpi, rfl, hpc⟩
      exact hQ b _ 0 _ rfl hpc (by rw [hpi]; exact key_inKey)
    simp only [Pipe.pipereadWait, if_pos hwait] at hgo
    cases b with
    | true => exact swp_if_pos rfl (hgo (.ret (-1)) ⟨_, rfl, rfl, pc_goto _ _, by rintro _ ⟨⟩⟩)
    | false =>
      refine swp_if_neg Bool.false_ne_true (hgo (.rsleep dst n) ?_)
      exact ⟨_, rfl, rfl, pc_goto _ _, by rintro _ ⟨⟩⟩
  · refine swp_if_neg hwait (swp_seq ?_)
    refine pipereadCopy_swp (s := { s with killed := fun _ => false }.goto p (.rcopy dst n 0))
      dst n n.toNat 0 rfl (pc_goto _ _) (h.weaken (fun _ _ => False.elim))
      (fun m y j hy hj _ => ?_)
    have hgo : swp init (.proc p : Thread np nc) (pipereadTail p i (y.pc p)) Q
        (inKey p (.pipe i) y.pi false c) := by
      refine hQ false _ m y ?_ (fun j' hc => ?_) key_inKey
      · rw [Pipe.pipereadWait, if_neg hwait]
        exact hy
      · rw [hj] at hc
        cases hc
    rw [hj] at hgo
    exact hgo

theorem loose_home : Loose (.proc p : Thread np nc) (home p : View np D) :=
  ⟨scan_home, rfl, fun _ => rfl, fun _ _ => id⟩

theorem pipeclose_swp (i : Nat) (writable : Bool) {Q : Unit → View np D → Prop}
    (hQ : Q () (home p)) :
    swp init (.proc p : Thread np nc) (pipeclose i writable) Q (home p) := by
  unfold pipeclose
  refine swp_seq (acquire_key_swp rfl (fun x => swp_seq ?_))
  refine get_swp (x := x) (by simp only [lockKey, Function.update_self]) ?_
  have hk : ((home p).lockKey (.pipe i) x : View np D).key (.pipe i) ≠ none := by
    simp only [lockKey, Function.update_self, ne_eq, reduceCtorEq, not_false_eq_true]
  cases writable with
  | true =>
    refine swp_if_pos rfl (swp_seq (set_swp hk ?_))
    refine wakeup_release_swp loose_home (fun w q hw => ?_) hQ
    rcases Nap.pipe_of_readyAt hw with ⟨hw', _⟩ | ⟨hw', hr⟩
    · rw [hw']
      exact Or.inr rfl
    · rw [hw']
      exact Or.inl ⟨rfl, hr⟩
  | false =>
    refine swp_if_neg Bool.false_ne_true (swp_seq (set_swp hk ?_))
    refine wakeup_release_swp loose_home (fun w q hw => ?_) hQ
    rcases Nap.pipe_of_readyAt hw with ⟨hw', hr⟩ | ⟨hw', _⟩
    · rw [hw']
      exact Or.inl ⟨rfl, hr⟩
    · rw [hw']
      exact Or.inr rfl

/-! ### The clock, the console and other variables -/

theorem sysSleepRound_swp (ticks0 n : BitVec 32) {x : BitVec 32}
    (h : KeyOk (D := D) np .ticks x (fun _ => False) c) :
    swp init (.proc p : Thread np nc) (sysSleepRound p ticks0 n) (Ends p)
      (inKey p .ticks x false c) := by
  unfold sysSleepRound
  refine swp_seq (get_inKey ?_)
  by_cases hlt : x - ticks0 < n
  · exact swp_if_pos hlt (killableWait_swp (.ticks ticks0 n) _ h rfl (fun hr => hr hlt)
      (fun y c' hok => ⟨y, c', rfl, hok⟩))
  · refine swp_if_neg hlt (swp_seq (release_inKey h ?_))
    exact swp_ret (ends_home 0)

theorem consolereadEnd_swp (n : Nat) {x : Console.Cons}
    (h : KeyOk (D := D) np .cons x (fun _ => False) c) :
    swp init (.proc p : Thread np nc) (consolereadEnd n) (Ends p)
      (inKey p .cons x false c) := by
  unfold consolereadEnd
  exact swp_seq (release_inKey h (swp_ret (ends_home n)))

theorem consolereadRound_swp (dst : Pipe.Dst) (target n : Nat) {x : Console.Cons}
    (h : KeyOk (D := D) np .cons x (fun _ => False) c) :
    swp init (.proc p : Thread np nc) (consolereadRound p dst target n) (Ends p)
      (inKey p .cons x false c) := by
  unfold consolereadRound
  by_cases hn : n = 0
  · exact swp_if_pos hn (consolereadEnd_swp target h)
  · refine swp_if_neg hn (swp_seq (get_inKey ?_))
    by_cases he : x.r = x.w
    · exact swp_if_pos he (killableWait_swp .cons _ h rfl (fun hr => hr he)
        (fun y c' hok => ⟨y, c', rfl, hok⟩))
    · -- There was a line, so everybody who waits for one is awake.
      have hany : ∀ y : Console.Cons, KeyOk (D := D) np .cons y (fun _ => False) c := by
        intro y
        refine h.change (fun w hw hb => ⟨?_, hb⟩)
        rw [Nap.eq_cons_of_readyAt hw]
        exact he
      refine swp_if_neg he (swp_seq (set_inKey ?_))
      by_cases hD : x.buf (Ring.slot Console.INPUT_BUF_SIZE x.r) = Console.ctrlD
      · refine swp_if_pos hD ?_
        by_cases hlt : n < target
        · exact swp_if_pos hlt (swp_seq (set_inKey
            (consolereadEnd_swp _ (hany _))))
        · exact swp_if_neg hlt (consolereadEnd_swp _ (hany _))
      · refine swp_if_neg hD ?_
        by_cases hd : dst (target - n) = false
        · exact swp_if_pos hd (consolereadEnd_swp _ (hany _))
        · refine swp_if_neg hd ?_
          by_cases hnl : x.buf (Ring.slot Console.INPUT_BUF_SIZE x.r) = Console.newline
          · exact swp_if_pos hnl (consolereadEnd_swp _ (hany _))
          · exact swp_if_neg hnl (swp_ret ⟨_, c, rfl, hany _⟩)

theorem sectionRound_swp {n : Nat} (ops : List (Op D)) {x : Shared D}
    (h : KeyOk np (.data n) x (fun _ => False) c) :
    swp init (.proc p : Thread np nc) (sectionRound p n ops) (Ends p)
      (inKey p (.data n) x false c) := by
  unfold sectionRound
  cases ops with
  | nil =>
    refine swp_seq (release_inKey h ?_)
    exact swp_ret (ends_home 0)
  | cons op ops =>
    cases op with
    | update f =>
      refine swp_seq (get_inKey (swp_seq (set_inKey ?_)))
      refine swp_ret ⟨_, c, rfl, h.change (fun w hw hb => ⟨?_, hb⟩)⟩
      rcases Nap.await_of_readyAt hw with ⟨cond, ch, hwa, hwoken⟩
      rw [hwa]
      exact ⟨rfl, (Bool.and_eq_true_iff.mp hwoken).1⟩
    | wakeup ch =>
      refine swp_seq (get_inKey (swp_seq (set_inKey ?_)))
      have hok : KeyOk np (.data n) (Shared.mark x ch)
          (fun w => ∃ cond, w = .await n cond ch) c := by
        refine h.change (fun w hw hb => ⟨?_, id⟩)
        rcases Nap.await_of_readyAt hw with ⟨cond, ch', hwa, hwoken⟩
        have hch : ch' ≠ ch := fun he => hb ⟨cond, by rw [hwa, he]⟩
        rw [hwa]
        simp only [Shared.mark, if_neg hch] at hwoken
        exact ⟨rfl, hwoken⟩
      refine swp_seq (wakeup_inKey hok (fun w q _ hw => ?_)
        (fun c' hok' => swp_ret ⟨_, c', rfl, hok'⟩))
      rcases hw with ⟨cond, hw⟩
      rw [hw]
      rfl
    | await cond ch =>
      refine swp_seq (get_inKey ?_)
      by_cases hc : cond x.val = true
      · exact swp_if_pos hc (swp_ret ⟨x, c, rfl, h⟩)
      · refine swp_if_neg hc (swp_seq ?_)
        exact sleep_inKey h (.await n cond ch) rfl (fun hr => hc (x.ok cond ch hr.2))
          (by intros; contradiction) _
          (fun y c₃ hok₃ => swp_ret ⟨y, c₃, rfl, hok₃⟩)

/-! ### Traps -/

theorem killed_home {Q : Bool → View np D → Prop} (hQ : ∀ b, Q b (home p)) :
    swp init (.proc p : Thread np nc) (killed p false) Q (home p) := by
  refine killed_swp rfl scan_home (fun b c _ hup => ?_)
  have := hQ b
  rw [← know_home hup] at this
  exact this

theorem syscall_swp {sc : Syscall D} :
    swp init (.proc p : Thread np nc) (syscall init p sc) (Ends p) (home p) := by
  unfold syscall
  cases sc with
  | fork => exact swp_seq (fork_swp (fun n => swp_ret (ends_home n)))
  | exit status => exact exit_swp status _
  | wait addr =>
    refine swp_seq (acquire_wait_swp rfl (fun _ => rfl) (fun T _ => ?_))
    rw [lockTab_home]
    exact swp_ret ⟨T, _, rfl, tabOk_start T⟩
  | kill pid =>
    refine swp_seq (kill_swp scan_home rfl (fun n c _ hup => ?_))
    rw [know_home hup]
    exact swp_ret (ends_home n)
  | pipewrite i src n =>
    refine swp_seq (acquire_inKey (fun x c hok => swp_ret ?_))
    exact ⟨x, c, rfl, hok.weaken (fun _ _ => False.elim)⟩
  | piperead i dst n =>
    refine swp_seq (acquire_inKey (fun x c hok => swp_ret ?_))
    exact ⟨x, c, rfl, hok⟩
  | pipeclose i writable =>
    exact swp_seq (pipeclose_swp i writable (swp_ret (ends_home 0)))
  | sleep n =>
    refine swp_seq (acquire_inKey (fun x c hok => swp_seq ?_))
    exact get_inKey (swp_ret ⟨x, c, rfl, hok⟩)
  | consoleread dst n | «section» n ops =>
    refine swp_seq (acquire_inKey (fun x c hok => swp_ret ?_))
    exact ⟨x, c, rfl, hok⟩

theorem usertrap_swp {tr : Trap D} :
    swp init (.proc p : Thread np nc) (usertrap init p tr) (Ends p) (home p) := by
  unfold usertrap
  cases tr with
  | syscall sc =>
    refine swp_seq (killed_home (fun b => ?_))
    cases b with
    | true => exact swp_if_pos rfl (exit_swp (-1) _)
    | false => exact swp_if_neg Bool.false_ne_true syscall_swp
  | intr h =>
    refine swp_seq (devintr_swp loose_home h (fun timer => ?_))
    refine swp_seq (killed_home (fun b => ?_))
    cases b with
    | true => exact swp_if_pos rfl (exit_swp (-1) _)
    | false =>
      refine swp_if_neg Bool.false_ne_true ?_
      cases timer with
      | true =>
        refine swp_if_pos rfl (swp_seq ?_)
        refine yield_swp rfl scan_home rfl (fun c _ hup => ?_)
        rw [know_home hup]
        exact swp_ret rfl
      | false => exact swp_if_neg Bool.false_ne_true (swp_ret rfl)
  | fault =>
    refine swp_seq (setkilled_swp rfl scan_home rfl (fun c _ hup => ?_))
    rw [know_home hup]
    exact swp_ret (ends_home 0)

/-- The program of a process at a label comes to its next label, with the view
    that belongs there. -/
theorem code_swp {l : Label D} {v : View np D} (h : Ends p l v) :
    swp init (.proc p : Thread np nc) (code init (.proc p : Thread np nc) l) (Ends p) v := by
  unfold code
  cases l with
  | user n =>
    cases h
    exact swp_seq ((swp_issue .trap _).mpr (fun tr => usertrap_swp))
  | trapret n =>
    cases h
    refine swp_seq (killed_home (fun b => ?_))
    cases b with
    | true => exact swp_if_pos rfl (exit_swp (-1) _)
    | false => exact swp_if_neg Bool.false_ne_true (swp_ret rfl)
  | wait addr =>
    rcases h with ⟨T, c, rfl, hok⟩
    exact waitRound_swp addr hok
  | pipewrite i src n k accepted =>
    rcases h with ⟨x, c, rfl, hok⟩
    exact pipewriteRound_swp src n k hok
  | piperead i dst n =>
    rcases h with ⟨x, c, rfl, hok⟩
    exact pipereadRound_swp dst n hok
  | sysSleep ticks0 n =>
    rcases h with ⟨x, c, rfl, hok⟩
    exact sysSleepRound_swp ticks0 n hok
  | consoleread dst target n =>
    rcases h with ⟨x, c, rfl, hok⟩
    exact consolereadRound_swp dst target n hok
  | «section» n ops =>
    rcases h with ⟨x, c, rfl, hok⟩
    exact sectionRound_swp ops hok
  | sched => exact h.elim

end Programs

end Xv6.Sched
