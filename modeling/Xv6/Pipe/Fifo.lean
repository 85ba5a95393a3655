import Xv6.Pipe.Model

/-!
# Pipes Are Queues

Whatever the interleaving of readers and writers, a pipe delivers the bytes it
accepted, in order, and what it has not delivered yet is in the ring.

The argument has one invariant, `Queue`, and only two steps that touch it. A
writer's iteration appends behind the write counter and a reader's iteration drops
the head.

The reader's step is where mapped buffers matter. A byte leaves the ring
before `copyout` is tried, so a failed copy would lose it; with every buffer
mapped the branch is not taken, and `Pc.Mapped` carries that fact through the
sleeps. `piperead_consumes_iff` looks at one read on its own and says that this
branch is the only way to lose a byte.

## Main definitions

* `Queue`: Delivered bytes and ring contents make up the accepted bytes.
* `Pc.Mapped`: The buffer of the call in progress is mapped.
* `Event.Mapped`: The buffer a call is started with is mapped.
* `Copies`: How the copy loop of one read ends.

## Theorems

* `pipe_fifo`: The pipe is a queue in every reachable state.
* `piperead_consumes_iff`: When a read takes more than it returns.
-/

namespace Xv6.Pipe

open Function Outcome

/-- The bytes delivered and the bytes in the ring, in this order, are the bytes
    accepted, and the ring holds no more than it has room for. -/
def Queue {T : Type} (s : System T) : Prop :=
  s.delivered ++ s.pi.contents = s.accepted ∧
    Ring.count s.pi.nread s.pi.nwrite ≤ PIPESIZE

/-- The buffer of the call a process is in is mapped. -/
def Pc.Mapped : Pc → Prop
  | wlock src _ _ => ∀ i, (src i).isSome
  | wloop src _ _ => ∀ i, (src i).isSome
  | wsleep src _ _ => ∀ i, (src i).isSome
  | rlock dst _ => ∀ i, dst i = true
  | rwait dst _ => ∀ i, dst i = true
  | rsleep dst _ => ∀ i, dst i = true
  | rcopy dst _ _ => ∀ i, dst i = true
  | _ => True

/-- The buffer a call is started with is mapped. -/
def Event.Mapped {T : Type} : Event T → Prop
  | write _ src _ => ∀ i, (src i).isSome
  | read _ dst _ => ∀ i, dst i = true
  | _ => True

variable {T : Type} {s : System T}

/-- What holds in every reachable state. -/
def Inv (s : System T) : Prop := Queue s ∧ ∀ t, (s.pc t).Mapped

theorem mapped_resume {pc : Pc} (h : pc.Mapped) : pc.resume.Mapped := by
  cases pc with
  | wsleep src n i => exact h
  | rsleep dst n => exact h
  | _ => exact h

theorem mapped_wakeReader {pc : Pc} (h : pc.Mapped) : pc.wakeReader.Mapped := by
  cases pc with
  | rsleep dst n => exact h
  | _ => exact h

theorem mapped_wakeWriter {pc : Pc} (h : pc.Mapped) : pc.wakeWriter.Mapped := by
  cases pc with
  | wsleep src n i => exact h
  | _ => exact h

theorem inv_wakeReaders (h : Inv s) : Inv s.wakeReaders :=
  ⟨h.1, fun t => mapped_wakeReader (h.2 t)⟩

theorem inv_wakeWriters (h : Inv s) : Inv s.wakeWriters :=
  ⟨h.1, fun t => mapped_wakeWriter (h.2 t)⟩

theorem inv_init (data : Fin PIPESIZE → Byte) : Inv (init T data) := by
  refine ⟨⟨?_, ?_⟩, fun t => trivial⟩
  · simp only [init, pipealloc, contents, Ring.contents_self, List.append_nil]
  · simp only [init, pipealloc, Ring.count_self, Nat.zero_le]

theorem inv_pipeclose {s s' : System T} {writable : Bool} (h : Inv s)
    (hs : pipeclose s writable = .done s') : Inv s' := by
  unfold pipeclose at hs
  cases hl : s.lock with
  | some u => simp only [hl, reduceCtorEq] at hs
  | none =>
    cases writable with
    | true =>
      simp only [hl, if_true, done.injEq] at hs
      rw [← hs]
      exact inv_wakeReaders h
    | false =>
      simp only [hl, Bool.false_eq_true, if_false, done.injEq] at hs
      rw [← hs]
      exact inv_wakeWriters h

variable [DecidableEq T]

theorem mapped_update {f : T → Pc} (t : T) {pc : Pc} (hf : ∀ u, (f u).Mapped)
    (h : pc.Mapped) : ∀ u, (update f t pc u).Mapped := by
  intro u
  by_cases hu : u = t
  · rw [hu, update_self]
    exact h
  · rw [update_of_ne hu]
    exact hf u

theorem inv_goto (t : T) {pc : Pc} (h : Inv s) (hpc : pc.Mapped) :
    Inv (s.goto t pc) :=
  ⟨h.1, mapped_update t h.2 hpc⟩

/-- A pipe with room takes a byte at the end of the queue. The full test
    compares counters modulo `2 ^ 32`, and with at most `PIPESIZE` bytes in
    the ring it fails exactly when there is room. -/
theorem contents_put {pi : Pipe} (ch : Byte) (hle : Ring.count pi.nread pi.nwrite ≤ PIPESIZE)
    (hfull : pi.full = false) :
    (pi.put ch).contents = pi.contents ++ [ch] ∧
      Ring.count (pi.put ch).nread (pi.put ch).nwrite ≤ PIPESIZE := by
  have hne : Ring.count pi.nread pi.nwrite ≠ PIPESIZE := by
    intro hc
    have heq := (Ring.count_eq_iff pi.nread pi.nwrite (by decide)).mp hc
    simp only [full, beq_eq_false_iff_ne, ne_eq] at hfull
    exact hfull heq
  have hroom : Ring.count pi.nread pi.nwrite < PIPESIZE := lt_of_le_of_ne hle hne
  have hwrap : Ring.count pi.nread pi.nwrite + 1 < 2 ^ 32 := by
    simp only [PIPESIZE] at hroom
    omega
  refine ⟨Ring.contents_push (by decide) pi.data pi.nread pi.nwrite ch hroom hwrap, ?_⟩
  simp only [put]
  rw [Ring.count_succ_right hwrap]
  exact hroom

theorem contents_drop {pi : Pipe} (hempty : pi.empty = false) :
    pi.contents = pi.front :: pi.drop.contents ∧
      Ring.count pi.drop.nread pi.drop.nwrite + 1 = Ring.count pi.nread pi.nwrite := by
  simp only [empty, beq_eq_false_iff_ne, ne_eq] at hempty
  refine ⟨Ring.contents_pop pi.data hempty, ?_⟩
  exact (Ring.count_succ_left hempty).symm

/-- An iteration of the write loop either leaves the ring alone or appends one
    byte both to the ring and to the record. -/
theorem inv_pipewrite (t : T) {src : Src} (n : Int) (i : Nat) (h : Inv s)
    (hsrc : ∀ i, (src i).isSome) : Inv (pipewrite s t src n i) := by
  unfold pipewrite
  by_cases hlt : (i : Int) < n
  · rw [if_pos hlt]
    by_cases hgone : s.pi.readopen = false ∨ s.killed t = true
    · rw [if_pos hgone]
      exact inv_goto t h trivial
    · rw [if_neg hgone]
      by_cases hfull : s.pi.full = true
      · rw [if_pos hfull]
        exact inv_goto t (inv_wakeReaders h) hsrc
      · rw [if_neg hfull]
        cases hch : src i with
        | none => exact inv_goto t h trivial
        | some ch =>
          rcases contents_put ch h.1.2 (by simpa only [Bool.not_eq_true] using hfull) with
            ⟨hcont, hle⟩
          refine inv_goto t ⟨⟨?_, hle⟩, h.2⟩ hsrc
          -- The byte joins the ring and the record at the same end.
          simp only [hcont, ← List.append_assoc, h.1.1]
  · rw [if_neg hlt]
    exact inv_goto t h trivial

theorem inv_pipereadWait (t : T) {dst : Dst} (n : Int) (h : Inv s)
    (hdst : ∀ i, dst i = true) : Inv (pipereadWait s t dst n) := by
  unfold pipereadWait
  by_cases hw : s.pi.empty = true ∧ s.pi.writeopen = true
  · rw [if_pos hw]
    by_cases hk : s.killed t = true
    · rw [if_pos hk]
      exact inv_goto t h trivial
    · rw [if_neg hk]
      exact inv_goto t h hdst
  · rw [if_neg hw]
    exact inv_goto t h hdst

/-- An iteration of the copy loop either leaves the ring alone or moves the
    head of the queue to the record of delivered bytes. -/
theorem inv_piperead (t : T) {dst : Dst} (n : Int) (i : Nat) (h : Inv s)
    (hdst : ∀ i, dst i = true) : Inv (piperead s t dst n i) := by
  unfold piperead
  by_cases hlt : (i : Int) < n
  · rw [if_pos hlt]
    by_cases hempty : s.pi.empty = true
    · rw [if_pos hempty]
      exact inv_goto t h trivial
    · rw [if_neg hempty, if_pos (hdst i)]
      rcases contents_drop (by simpa only [Bool.not_eq_true] using hempty) with
        ⟨hcont, hcount⟩
      refine inv_goto t ⟨⟨?_, ?_⟩, h.2⟩ hdst
      · have hq := h.1.1
        rw [hcont] at hq
        simp only [List.append_assoc, List.singleton_append, hq]
      · have hle := h.1.2
        simp only
        omega
  · rw [if_neg hlt]
    exact inv_goto t h trivial

theorem inv_acquire (s s' : System T) (t : T) (pc : Pc) (h : Inv s) (hpc : pc.Mapped)
    (hs : s.acquire t pc = .done s') : Inv s' := by
  unfold System.acquire at hs
  cases hl : s.lock with
  | none =>
    rw [hl] at hs
    simp only [done.injEq] at hs
    rw [← hs]
    exact inv_goto t h hpc
  | some u =>
    rw [hl] at hs
    simp only [reduceCtorEq] at hs

theorem inv_advance {s s' : System T} {t : T} (h : Inv s) (hs : advance s t = .done s') :
    Inv s' := by
  have hm := h.2 t
  unfold advance at hs
  cases hpc : s.pc t with
  | user | ret v => simp only [hpc, reduceCtorEq] at hs
  | wlock src n i =>
    simp only [hpc] at hs hm
    exact inv_acquire s s' t (.wloop src n i) h hm hs
  | wloop src n i =>
    simp only [hpc, done.injEq] at hs hm
    rw [← hs]
    exact inv_pipewrite t n i h hm
  | wsleep src n i => simp only [hpc, reduceCtorEq] at hs
  | wexit i =>
    simp only [hpc, done.injEq] at hs
    rw [← hs]
    exact inv_goto t (inv_wakeReaders h) trivial
  | rlock dst n =>
    simp only [hpc] at hs hm
    exact inv_acquire s s' t (.rwait dst n) h hm hs
  | rwait dst n =>
    simp only [hpc, done.injEq] at hs hm
    rw [← hs]
    exact inv_pipereadWait t n h hm
  | rsleep dst n => simp only [hpc, reduceCtorEq] at hs
  | rcopy dst n i =>
    simp only [hpc, done.injEq] at hs hm
    rw [← hs]
    exact inv_piperead t n i h hm
  | rexit i =>
    simp only [hpc, done.injEq] at hs
    rw [← hs]
    exact inv_goto t (inv_wakeWriters h) trivial

theorem inv_step (s : System T) (e : Event T) (s' : System T) (h : Inv s) (he : e.Mapped)
    (hs : step s e = .done s') : Inv s' := by
  cases e with
  | write t src n | read t dst n =>
    rw [← done.inj (of_guard hs).2]
    exact inv_goto t h he
  | step t => exact inv_advance h hs
  | wake t =>
    simp only [step, done.injEq] at hs
    rw [← hs]
    exact inv_goto t h (mapped_resume (h.2 t))
  | kill t =>
    simp only [step, done.injEq] at hs
    rw [← hs]
    exact ⟨h.1, mapped_update t h.2 (mapped_resume (h.2 t))⟩
  | close t writable => exact inv_pipeclose h (of_guard hs).2

/-- A pipe is a queue. Over any interleaving of any number of readers and
    writers with mapped buffers, at every moment the bytes delivered are a
    prefix of the bytes accepted, the bytes in between are the ones in the
    ring, and there are `nwrite - nread` modulo `2 ^ 32` of them, at most
    `PIPESIZE`. The run may be long enough to wrap the counters. -/
theorem pipe_fifo (data : Fin PIPESIZE → Byte) (es : List (Event T)) (s : System T)
    (hmapped : ∀ e ∈ es, e.Mapped) (h : runs step es (init T data) = .done s) :
    s.delivered <+: s.accepted ∧
      s.accepted = s.delivered ++ s.pi.contents ∧
      s.pi.contents.length = (s.pi.nwrite - s.pi.nread).toNat ∧
      (s.pi.nwrite - s.pi.nread).toNat ≤ PIPESIZE := by
  have hinv : Inv s := by
    refine runs_invariant_of step Inv (fun _ e => e.Mapped) inv_step es _ s (inv_init data) ?_ h
    intro es₁ e es₂ u hes _
    exact hmapped e (by rw [hes]; exact List.mem_append_right es₁ List.mem_cons_self)
  refine ⟨⟨s.pi.contents, hinv.1.1⟩, hinv.1.1.symm, ?_, hinv.1.2⟩
  exact Ring.length_contents s.pi.data s.pi.nread s.pi.nwrite

/-- Process `true` writes two bytes, process `false` reads one of them. -/
def twoBytes : List (Event Bool) :=
  [.write true (fun i => some (BitVec.ofNat 8 (65 + i))) 2, .step true, .step true, .step true,
    .step true, .step true, .read false (fun _ => true) 1, .step false, .step false, .step false]

theorem pipe_fifo_twoBytes : ∃ s : System Bool,
    runs step twoBytes (init Bool (fun _ => 0)) = .done s ∧ s.delivered = [65#8] ∧
      s.accepted = s.delivered ++ s.pi.contents := by
  have hmapped : ∀ e ∈ twoBytes, e.Mapped := by
    simp only [twoBytes, List.mem_cons, List.not_mem_nil, or_false]
    rintro e (rfl | rfl | rfl | rfl | rfl | rfl | rfl | rfl | rfl | rfl)
    all_goals first | trivial | exact fun _ => rfl
  exact ⟨_, rfl, rfl, (pipe_fifo (fun _ => 0) twoBytes _ hmapped rfl).2.1⟩

section OneRead

variable {s : System T} {t : T} {dst : Dst} {n : Int} {i : Nat}

/-- By steps of its own the process gets to the end of the copy loop, at position
    `i + j`. It has stored `j` bytes and taken as many, or it has taken one more, for
    which `copyout` failed. -/
def Copies (s : System T) (t : T) (dst : Dst) (n : Int) (i : Nat) : Prop :=
  ∃ m s' j lost, runs step (List.replicate m (.step t)) s = .done s' ∧
    s'.pc t = .rexit (i + j) ∧ s'.pi.nread = s.pi.nread + BitVec.ofNat 32 (j + lost) ∧
    s'.delivered = s.delivered ++ s.pi.contents.take j ∧
    (lost = 0 ∧ (∀ l, l < n.toNat → i ≤ l → l < i + s.pi.contents.length → dst l = true) ∨
      lost = 1 ∧ i + j < n.toNat ∧ j < s.pi.contents.length ∧ dst (i + j) = false)

theorem runs_piperead (hpc : s.pc t = .rcopy dst n i) (m : Nat) :
    runs step (List.replicate (m + 1) (.step t)) s =
      runs step (List.replicate m (.step t)) (piperead s t dst n i) := by
  rw [List.replicate_succ, runs_cons, step, advance, hpc]
  rfl

/-- The loop ends without storing a byte. -/
theorem copies_stop (pi : Pipe) {lost : Nat} (hpc : s.pc t = .rcopy dst n i)
    (hrun : piperead s t dst n i = { s with pi := pi }.goto t (.rexit i))
    (hread : pi.nread = s.pi.nread + BitVec.ofNat 32 lost)
    (h : lost = 0 ∧ (∀ l, l < n.toNat → i ≤ l → l < i + s.pi.contents.length → dst l = true) ∨
      lost = 1 ∧ i < n.toNat ∧ 0 < s.pi.contents.length ∧ dst i = false) :
    Copies s t dst n i := by
  refine ⟨1, { s with pi := pi }.goto t (.rexit i), 0, lost, ?_, update_self _ _ _, ?_,
    (List.append_nil _).symm, h⟩
  · rw [runs_piperead hpc, hrun]
    rfl
  · rw [Nat.zero_add]
    exact hread

theorem copy_loop (d : Nat) (hd : n.toNat - i = d) (hpc : s.pc t = .rcopy dst n i) :
    Copies s t dst n i := by
  have hzero : ∀ x : BitVec 32, x = x + BitVec.ofNat 32 0 := fun x => (BitVec.add_zero x).symm
  induction d generalizing i s with
  | zero =>
    refine copies_stop s.pi hpc ?_ (hzero _) (Or.inl ⟨rfl, fun l h₁ h₂ _ => by omega⟩)
    rw [piperead, if_neg (by omega)]
  | succ d ih =>
    have hlt : (i : Int) < n := by omega
    by_cases hempty : s.pi.empty = true
    · refine copies_stop s.pi hpc ?_ (hzero _) (Or.inl ⟨rfl, fun l _ h₂ h₃ => ?_⟩)
      · rw [piperead, if_pos hlt, if_pos hempty]
      · have hz : s.pi.contents.length = 0 := by
          rw [contents, Ring.length_contents, Ring.count_eq_zero_iff]
          exact eq_of_beq hempty
        omega
    · rcases contents_drop (by simpa only [Bool.not_eq_true] using hempty) with ⟨hcont, -⟩
      have hlen : s.pi.contents.length = s.pi.drop.contents.length + 1 := by
        rw [hcont, List.length_cons]
      cases hdst : dst i with
      | false =>
        refine copies_stop s.pi.drop hpc ?_ rfl (Or.inr ⟨rfl, by omega, by omega, hdst⟩)
        rw [piperead, if_pos hlt, if_neg hempty, hdst]
        rfl
      | true =>
        -- One byte is taken and stored, and the loop goes on behind it.
        rcases ih (s := { s with pi := s.pi.drop, delivered := s.delivered ++ [s.pi.front] }.goto
            t (.rcopy dst n (i + 1))) (i := i + 1) (by omega) (update_self _ _ _)
            with ⟨m, s', j, lost, hrun, hpc', hread, hdel, hend⟩
        refine ⟨m + 1, s', j + 1, lost, ?_, ?_, ?_, ?_, ?_⟩
        · rw [runs_piperead hpc]
          simp only [piperead, if_pos hlt, if_neg hempty, hdst, if_true]
          exact hrun
        · rw [hpc', Nat.add_assoc, Nat.add_comm 1 j]
        · have hsum : BitVec.ofNat 32 (j + 1 + lost) = 1 + BitVec.ofNat 32 (j + lost) := by
            rw [Nat.add_right_comm, Nat.add_comm _ 1]
            exact BitVec.ofNat_add 1 (j + lost)
          rw [hread, hsum, ← BitVec.add_assoc]
          rfl
        · rw [hdel, hcont, List.take_succ_cons]
          exact List.append_assoc _ _ _
        · refine hend.imp (fun h => ⟨h.1, fun l h₁ h₂ h₃ => ?_⟩) (fun h => ⟨h.1, ?_⟩)
          · by_cases hl : l = i
            · rw [hl, hdst]
            · have hl₃ : l < i + 1 + s.pi.drop.contents.length := by omega
              exact h.2 l h₁ (by omega) hl₃
          · have h₂ : j < s.pi.drop.contents.length := h.2.2.1
            have hij : i + (j + 1) = i + 1 + j := by omega
            rw [hij]
            exact ⟨h.2.1, by omega, h.2.2.2⟩

end OneRead

/-- A read that has left its wait loop returns the number of bytes it has taken from
    the pipe, having stored exactly these, if and only if every position that it gets
    to is mapped: those below its length and the number of bytes in the pipe. -/
theorem piperead_consumes_iff (s : System T) (t : T) (dst : Dst) (n : Int)
    (hpc : s.pc t = .rwait dst n) (hgo : ¬(s.pi.empty = true ∧ s.pi.writeopen = true)) :
    ∃ m s' k, runs step (List.replicate m (.step t)) s = .done s' ∧ s'.pc t = .ret (k : Nat) ∧
      ((s'.pi.nread = s.pi.nread + BitVec.ofNat 32 k ∧
          s'.delivered = s.delivered ++ s.pi.contents.take k) ↔
        ∀ i, i < n.toNat → i < s.pi.contents.length → dst i = true) := by
  have hwait : step s (.step t) = .done (s.goto t (.rcopy dst n 0)) := by
    simp only [step, advance, hpc, pipereadWait, if_neg hgo]
  rcases copy_loop (s := s.goto t (.rcopy dst n 0)) _ rfl (update_self _ _ _) with
    ⟨m, s', j, lost, hrun, hexit, hread, hdel, hend⟩
  rw [Nat.zero_add] at hexit
  refine ⟨m + 2, s'.wakeWriters.release.goto t (.ret j), j, ?_, update_self _ _ _, ?_⟩
  · have hlast : step s' (.step t) = .done (s'.wakeWriters.release.goto t (.ret j)) := by
      rw [step, advance, hexit]
    rw [List.replicate_succ, List.replicate_succ', runs_cons, hwait, done_bind, runs_append,
      hrun, done_bind, runs_cons, hlast]
    rfl
  · rcases hend with ⟨rfl, hall⟩ | ⟨rfl, hn, hlen, hno⟩
    · exact ⟨fun _ i h₁ h₂ => hall i h₁ (Nat.zero_le i) (by rw [Nat.zero_add]; exact h₂),
        fun _ => ⟨hread, hdel⟩⟩
    · rw [Nat.zero_add] at hn hno
      refine ⟨fun h => ?_, fun h => absurd (h j hn hlen) (by rw [hno]; exact Bool.false_ne_true)⟩
      -- The counter is one further than the result says.
      have hone : BitVec.ofNat 32 (j + 1) = BitVec.ofNat 32 j :=
        (BitVec.add_right_inj _).mp (hread.symm.trans h.1)
      rw [BitVec.ofNat_add] at hone
      have hzero : BitVec.ofNat 32 1 = 0#32 :=
        (BitVec.add_right_inj _).mp (hone.trans (BitVec.add_zero _).symm)
      exact nomatch hzero

/-- A pipe with one byte in it, whose reader has a buffer that is not mapped. -/
def unmappedRead : System Unit :=
  { init Unit (fun _ => 7) with
    pi := (pipealloc (fun _ => 7)).put 7, lock := some ()
    pc := fun _ => .rwait (fun _ => false) 1 }

/-- The read returns 0, and the byte is gone. -/
theorem unmappedRead_loses : ∃ s',
    runs step (List.replicate 3 (.step ())) unmappedRead = .done s' ∧ s'.pc () = .ret 0 ∧
      unmappedRead.pi.contents = [7#8] ∧ s'.pi.contents = [] ∧ s'.delivered = [] :=
  ⟨_, rfl, rfl, rfl, rfl, rfl⟩

theorem piperead_consumes_iff_unmappedRead :
    ∃ m s' k, runs step (List.replicate m (.step ())) unmappedRead = .done s' ∧
      s'.pc () = .ret (k : Nat) ∧ ¬(s'.pi.nread = unmappedRead.pi.nread + BitVec.ofNat 32 k ∧
        s'.delivered = unmappedRead.delivered ++ unmappedRead.pi.contents.take k) := by
  rcases piperead_consumes_iff unmappedRead () (fun _ => false) 1 rfl (by decide) with
    ⟨m, s', k, hrun, hret, hiff⟩
  exact ⟨m, s', k, hrun, hret, fun h => Bool.false_ne_true (hiff.mp h 0 (by decide) (by decide))⟩

end Xv6.Pipe
