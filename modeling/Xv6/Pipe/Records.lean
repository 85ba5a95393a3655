import Xv6.Pipe.Fifo
import Mathlib.Algebra.BigOperators.Ring.List

/-!
# Records Stay Whole

Writers that write records of `k` bytes and readers that read `k` bytes at a time,
where `k` divides the size of the ring.

The lock is given up in the middle of a write only when the ring is full. If all
records before it are whole then so are those in the ring, and a full ring holds
whole records only: the writer has not begun its own. In the same way a reader that
finds the ring empty has not begun a record. So between critical sections both
counters are at the end of a record, and each critical section moves one record or
none.

To say what a call has moved, a run is traced: a write is entered with its record
when it returns, and a read with its result and with the bytes it has stored.

## Main definitions

* `Traced`, `tracedStep`: A pipe, with what its users have written and read.
* `Event.Record`: Calls move `k` bytes, and nobody is killed.
* `Whole`: The invariant.

## Theorems

* `Whole.step`: Every step keeps the invariant.
* `pipe_records`: The records read are the records written.
-/

namespace Xv6.Pipe

open Function List Outcome

/-- A pipe with its history: the records written, with their writers, and for each
    read its result and the bytes it stored, in the order in which the calls return. -/
structure Traced (T : Type) where
  sys : System T
  -- The record of the write that a process is in, and what its read has stored.
  arg : T → List Byte
  buf : T → List Byte
  sent : List (T × List Byte)
  got : List (T × Int × List Byte)

/-- The bytes that a write of `n` bytes is given. -/
def record (src : Src) (n : Nat) : List Byte := (List.range n).map (fun i => (src i).getD 0)

def Pc.reads : Pc → Bool
  | rlock _ _ => true
  | rwait _ _ => true
  | rsleep _ _ => true
  | rcopy _ _ _ => true
  | rexit _ => true
  | _ => false

def begin (T : Type) (data : Fin PIPESIZE → Byte) : Traced T :=
  { sys := init T data, arg := fun _ => [], buf := fun _ => [], sent := [], got := [] }

/-- Calls move `k` bytes to or from mapped buffers, and nobody is killed. -/
def Event.Record {T : Type} (k : Nat) : Event T → Prop
  | write _ src n => n = k ∧ ∀ i, (src i).isSome
  | read _ dst n => n = k ∧ ∀ i, dst i = true
  | kill _ => False
  | _ => True

section Trace

variable {T : Type} [DecidableEq T]

/-- A step of process `t` that led to `s'`. -/
def note (x : Traced T) (t : T) (s' : System T) : Traced T :=
  let buf := x.buf t ++ s'.delivered.drop x.sys.delivered.length
  match s'.pc t with
  | .ret v =>
    if (x.sys.pc t).reads then { x with sys := s', got := x.got ++ [(t, v, buf)] }
    else if 0 ≤ v then { x with sys := s', sent := x.sent ++ [(t, x.arg t)] }
    else { x with sys := s' }
  | _ => { x with sys := s', buf := update x.buf t buf }

def tracedStep (x : Traced T) (e : Event T) : Outcome Panic (Traced T) := do
  let s' ← step x.sys e
  match e with
  | .write t src n => return { x with sys := s', arg := update x.arg t (record src n.toNat) }
  | .read t _ _ => return { x with sys := s', buf := update x.buf t [] }
  | .step t => return note x t s'
  | _ => return { x with sys := s' }

end Trace

/-- What holds of a process that waits for the lock or sleeps; every other process
    inside a call has the lock. -/
def Pc.Fine (k : Nat) (arg buf : List Byte) (mine : Prop) : Pc → Prop
  | user => True
  | ret _ => True
  | wlock src n i => i = 0 ∧ n = k ∧ arg = record src k
  | wsleep src n i => i = 0 ∧ n = k ∧ arg = record src k
  | rlock _ n => n = k ∧ buf = []
  | rsleep _ n => n = k ∧ buf = []
  | _ => mine

/-- What holds of the process that has the lock. `sent` and `got` are the bytes of
    the calls before, as far as they are not those of this one. -/
def Pc.Holding (k : Nat) (s : System T) (arg buf sent got : List Byte) : Pc → Prop
  | wloop src n i => n = k ∧ arg = record src k ∧ i ≤ k ∧ (0 < i → s.pi.readopen = true) ∧
      s.accepted = sent ++ arg.take i ∧ s.delivered = got
  | wexit i => i = k ∧ arg.length = k ∧ s.accepted = sent ++ arg ∧ s.delivered = got
  | rwait _ n => n = k ∧ buf = [] ∧ s.accepted = sent ∧ s.delivered = got
  | rcopy _ n i => n = k ∧ i ≤ k ∧ buf.length = i ∧ s.accepted = sent ∧ s.delivered = got ++ buf
  | rexit i => (i = 0 ∨ i = k) ∧ buf.length = i ∧ s.accepted = sent ∧ s.delivered = got ++ buf
  | _ => False

/-- The bytes written, and the bytes read. -/
def Traced.sentBytes {T : Type} (x : Traced T) : List Byte := (x.sent.map Prod.snd).flatten
def Traced.gotBytes {T : Type} (x : Traced T) : List Byte := (x.got.map (fun r => r.2.2)).flatten

/-- What holds in every state of a run. -/
structure Whole {T : Type} (k : Nat) (x : Traced T) : Prop where
  base : Inv x.sys
  alive : ∀ t, x.sys.killed t = false
  fine : ∀ t, (x.sys.pc t).Fine k (x.arg t) (x.buf t) (x.sys.lock = some t)
  free : x.sys.lock = none → x.sys.accepted = x.sentBytes ∧ x.sys.delivered = x.gotBytes
  held : ∀ t, x.sys.lock = some t →
    (x.sys.pc t).Holding k x.sys (x.arg t) (x.buf t) x.sentBytes x.gotBytes
  order : x.gotBytes <+: x.sentBytes
  sent : ∀ r ∈ x.sent, r.2.length = k
  got : ∀ r ∈ x.got, r.2.1 = r.2.2.length ∧ (r.2.2.length = 0 ∨ r.2.2.length = k)

section Steps

variable {T : Type} {k : Nat} {x : Traced T} {a b : List Byte} {m m' : Prop} {pc : Pc}

theorem fine_mono (h : pc.Fine k a b m) (hm : m → m') : pc.Fine k a b m' := by
  cases pc <;> first | exact h | exact hm h

theorem fine_resume (h : pc.Fine k a b m) : pc.resume.Fine k a b m := by
  cases pc <;> exact h

theorem fine_wakeReader (h : pc.Fine k a b m) : pc.wakeReader.Fine k a b m := by
  cases pc <;> exact h

theorem fine_wakeWriter (h : pc.Fine k a b m) : pc.wakeWriter.Fine k a b m := by
  cases pc <;> exact h

theorem dvd_length_flatten {ls : List (List Byte)} (h : ∀ l ∈ ls, k ∣ l.length) :
    k ∣ ls.flatten.length := by
  rw [length_flatten]
  refine dvd_sum (fun n hn => ?_)
  rcases mem_map.mp hn with ⟨l, hl, rfl⟩
  exact h l hl

namespace Whole

variable {t : T}

variable (h : Whole k x)

include h

theorem aligned : k ∣ x.sentBytes.length ∧ k ∣ x.gotBytes.length := by
  constructor
  · refine dvd_length_flatten (fun l hl => ?_)
    rcases mem_map.mp hl with ⟨r, hr, rfl⟩
    rw [h.sent r hr]
  · refine dvd_length_flatten (fun l hl => ?_)
    rcases mem_map.mp hl with ⟨r, hr, rfl⟩
    rcases (h.got r hr).2 with h₀ | h₀ <;> rw [h₀]
    exact dvd_zero k

theorem length_accepted :
    x.sys.accepted.length = x.sys.delivered.length + Ring.count x.sys.pi.nread x.sys.pi.nwrite := by
  rw [← h.base.1.1, length_append, contents, Ring.length_contents]

/-- A writer that finds the ring full has not begun its record. -/
theorem full_start (hk : k ∣ PIPESIZE) {src : Src} {n : Int} {i : Nat} (hl : x.sys.lock = some t)
    (hpc : x.sys.pc t = .wloop src n i) (hi : i < k) (hfull : x.sys.pi.full = true) : i = 0 := by
  have hh := h.held t hl
  rw [hpc] at hh
  rcases hh with ⟨-, harg, -, -, hacc, hdel⟩
  have hcount : Ring.count x.sys.pi.nread x.sys.pi.nwrite = PIPESIZE :=
    (Ring.count_eq_iff _ _ (by decide)).mpr (eq_of_beq hfull)
  have hlen := h.length_accepted
  rw [hacc, hdel, hcount, length_append, length_take, harg, record, length_map,
    length_range, Nat.min_eq_left (Nat.le_of_lt hi)] at hlen
  have hdvd : k ∣ i := by
    refine (Nat.dvd_add_right h.aligned.1).mp ?_
    rw [hlen]
    exact Nat.dvd_add h.aligned.2 hk
  exact Nat.eq_zero_of_dvd_of_lt hdvd hi

/-- A reader that finds the ring empty has not begun a record, or it has all of one. -/
theorem empty_end {dst : Dst} {n : Int} {i : Nat} (hl : x.sys.lock = some t)
    (hpc : x.sys.pc t = .rcopy dst n i) (hempty : x.sys.pi.empty = true) : i = 0 ∨ i = k := by
  have hh := h.held t hl
  rw [hpc] at hh
  rcases hh with ⟨-, hi, hbuf, hacc, hdel⟩
  have hcount : Ring.count x.sys.pi.nread x.sys.pi.nwrite = 0 :=
    (Ring.count_eq_zero_iff _ _).mpr (eq_of_beq hempty)
  have hlen := h.length_accepted
  rw [hacc, hdel, hcount, length_append, hbuf, Nat.add_zero] at hlen
  have hdvd : k ∣ i := (Nat.dvd_add_right h.aligned.2).mp (hlen ▸ h.aligned.1)
  by_cases hlt : i < k
  · exact Or.inl (Nat.eq_zero_of_dvd_of_lt hdvd hlt)
  · exact Or.inr (Nat.le_antisymm hi (Nat.not_lt.mp hlt))

/-- A process inside a call that neither waits nor sleeps has the lock. -/
theorem lock_of (hf : ∀ a b m, (x.sys.pc t).Fine k a b m → m) :
    x.sys.lock = some t :=
  hf _ _ _ (h.fine t)

variable [DecidableEq T]

/-- A step of process `t`, which has the lock or takes it: what has to hold of `t`.
    The others may be woken. -/
theorem next {y : Traced T} (g : Pc → Pc)
    (hg : ∀ a b m pc, Pc.Fine k a b m pc → Pc.Fine k a b m (g pc))
    (hl : x.sys.lock = none ∨ x.sys.lock = some t)
    (hl' : y.sys.lock = none ∨ y.sys.lock = some t)
    (hbase : Inv y.sys) (hkilled : y.sys.killed = x.sys.killed) (harg : y.arg = x.arg)
    (hbuf : ∀ u, u ≠ t → y.buf u = x.buf u)
    (hpc : y.sys.pc = update (fun u => g (x.sys.pc u)) t pc)
    (hfine : pc.Fine k (y.arg t) (y.buf t) (y.sys.lock = some t))
    (hfree : y.sys.lock = none → y.sys.accepted = y.sentBytes ∧ y.sys.delivered = y.gotBytes)
    (hheld : y.sys.lock = some t →
      pc.Holding k y.sys (y.arg t) (y.buf t) y.sentBytes y.gotBytes)
    (horder : y.gotBytes <+: y.sentBytes) (hsent : ∀ r ∈ y.sent, r.2.length = k)
    (hgot : ∀ r ∈ y.got, r.2.1 = r.2.2.length ∧ (r.2.2.length = 0 ∨ r.2.2.length = k)) :
    Whole k y := by
  have hself : y.sys.pc t = pc := by rw [hpc, update_self]
  refine ⟨hbase, fun u => by rw [hkilled]; exact h.alive u, fun u => ?_, hfree, fun u hu => ?_,
    horder, hsent, hgot⟩
  · by_cases hut : u = t
    · rw [hut, hself]
      exact hfine
    · -- Another process does not have the lock, before or after.
      rw [hpc, update_of_ne hut, harg, hbuf u hut]
      refine fine_mono (hg _ _ _ _ (h.fine u)) (fun hm => ?_)
      rw [hm] at hl
      exact absurd (Option.some.inj (hl.resolve_left nofun)) hut
  · have hut : u = t := by
      rw [hu] at hl'
      exact Option.some.inj (hl'.resolve_left nofun)
    rw [hut] at hu ⊢
    rw [hself]
    exact hheld hu

theorem quiet {s' : System T} (g : Pc → Pc)
    (hg : ∀ a b m pc, Pc.Fine k a b m pc → Pc.Fine k a b m (g pc))
    (hl : x.sys.lock = none ∨ x.sys.lock = some t) (hl' : s'.lock = none ∨ s'.lock = some t)
    (hbase : Inv s') (hkilled : s'.killed = x.sys.killed)
    (hpc : s'.pc = update (fun u => g (x.sys.pc u)) t pc) (hret : ∀ v, pc ≠ .ret v)
    (hdel : s'.delivered = x.sys.delivered)
    (hfine : pc.Fine k (x.arg t) (x.buf t) (s'.lock = some t))
    (hfree : s'.lock = none → s'.accepted = x.sentBytes ∧ s'.delivered = x.gotBytes)
    (hheld : s'.lock = some t → pc.Holding k s' (x.arg t) (x.buf t) x.sentBytes x.gotBytes) :
    Whole k (note x t s') := by
  have hself : s'.pc t = pc := by rw [hpc, update_self]
  have hnote : note x t s' = { x with sys := s' } := by
    have hbuf : update x.buf t
        (x.buf t ++ s'.delivered.drop x.sys.delivered.length) = x.buf := by
      rw [hdel, drop_length, append_nil, update_eq_self]
    unfold note
    rw [hself]
    cases pc with
    | ret v => exact absurd rfl (hret v)
    | _ => simp only [hbuf]
  rw [hnote]
  exact h.next g hg hl hl' hbase hkilled rfl (fun _ _ => rfl) hpc hfine hfree hheld h.order
    h.sent h.got

omit h in
theorem note_ret (s : System T) (t : T) (v : Int) (hdel : s.delivered = x.sys.delivered) :
    note x t (s.goto t (.ret v)) =
      if (x.sys.pc t).reads then
        { x with sys := s.goto t (.ret v), got := x.got ++ [(t, v, x.buf t)] }
      else if 0 ≤ v then { x with sys := s.goto t (.ret v), sent := x.sent ++ [(t, x.arg t)] }
      else { x with sys := s.goto t (.ret v) } := by
  simp only [note, System.goto, update_self, hdel, drop_length, append_nil]

theorem wloop (hk : k ∣ PIPESIZE) {src : Src} {n : Int} {i : Nat}
    (hpc : x.sys.pc t = .wloop src n i) (hb : Inv (pipewrite x.sys t src n i)) :
    Whole k (note x t (pipewrite x.sys t src n i)) := by
  have hl : x.sys.lock = some t := h.lock_of (by rw [hpc]; exact fun _ _ _ hm => hm)
  have hh := h.held t hl
  have hsrc := h.base.2 t
  rw [hpc] at hh hsrc
  rcases hh with ⟨hn, harg, hi, hopen, hacc, hdel⟩
  have hlen : (x.arg t).length = k := by rw [harg, record, length_map, length_range]
  unfold pipewrite at hb ⊢
  by_cases hlt : (i : Int) < n
  · rw [if_pos hlt] at hb ⊢
    by_cases hgone : x.sys.pi.readopen = false ∨ x.sys.killed t = true
    · -- The read end is closed: this was found before the first byte.
      have hi0 : i = 0 := by
        by_contra hc
        rcases hgone with hro | hkill
        · rw [hopen (Nat.pos_of_ne_zero hc)] at hro
          exact nomatch hro
        · rw [h.alive t] at hkill
          exact nomatch hkill
      rw [hi0, take_zero, append_nil] at hacc
      rw [if_pos hgone] at hb ⊢
      rw [note_ret x.sys.release t (-1) rfl, if_neg (by rw [hpc]; nofun), if_neg (by decide)]
      exact h.next id (fun _ _ _ _ hf => hf) (Or.inr hl) (Or.inl rfl) hb rfl rfl (fun _ _ => rfl)
        rfl trivial (fun _ => ⟨hacc, hdel⟩) nofun h.order h.sent h.got
    · rw [if_neg hgone] at hb ⊢
      by_cases hfull : x.sys.pi.full = true
      · have hi0 := h.full_start hk hl hpc (by omega) hfull
        rw [hi0, take_zero, append_nil] at hacc
        rw [if_pos hfull] at hb ⊢
        exact h.quiet Pc.wakeReader (fun _ _ _ pc => fine_wakeReader) (Or.inr hl) (Or.inl rfl) hb
          rfl rfl nofun rfl ⟨hi0, hn, harg⟩ (fun _ => ⟨hacc, hdel⟩) nofun
      · rw [if_neg hfull] at hb ⊢
        have hsome := hsrc i
        cases hch : src i with
        | none => rw [hch] at hsome; exact nomatch hsome
        | some ch =>
          rw [hch] at hb
          have htake : (x.arg t).take (i + 1) = (x.arg t).take i ++ [ch] := by
            rw [take_succ_eq_append_getElem (by omega)]
            simp only [harg, record, getElem_map, getElem_range, hch, Option.getD_some]
          refine h.quiet id (fun _ _ _ _ hf => hf) (Or.inr hl) (Or.inr hl) hb rfl rfl nofun rfl hl
            (fun hc => nomatch hl.symm.trans hc) (fun _ => ?_)
          refine ⟨hn, harg, by omega, fun _ => ?_, ?_, hdel⟩
          · exact Bool.eq_true_of_not_eq_false (fun hro => hgone (Or.inl hro))
          · rw [htake, ← append_assoc, ← hacc]
            rfl
  · rw [if_neg hlt] at hb ⊢
    have hik : i = k := by omega
    rw [hik, ← hlen, take_length] at hacc
    exact h.quiet id (fun _ _ _ _ hf => hf) (Or.inr hl) (Or.inr hl) hb rfl rfl nofun rfl hl
      (fun hc => nomatch hl.symm.trans hc) (fun _ => ⟨hik, hlen, hacc, hdel⟩)

theorem wexit {i : Nat} (hpc : x.sys.pc t = .wexit i)
    (hb : Inv (x.sys.wakeReaders.release.goto t (.ret i))) :
    Whole k (note x t (x.sys.wakeReaders.release.goto t (.ret i))) := by
  have hl : x.sys.lock = some t := h.lock_of (by rw [hpc]; exact fun _ _ _ hm => hm)
  have hh := h.held t hl
  rw [hpc] at hh
  rcases hh with ⟨-, hlen, hacc, hdel⟩
  rw [note_ret x.sys.wakeReaders.release t i rfl, if_neg (by rw [hpc]; nofun),
    if_pos (Int.natCast_nonneg i)]
  have hsum : ((x.sent ++ [(t, x.arg t)]).map Prod.snd).flatten = x.sentBytes ++ x.arg t := by
    simp only [Traced.sentBytes, map_append, flatten_append, map_cons, map_nil,
      flatten_cons, flatten_nil, append_nil]
  refine h.next Pc.wakeReader (fun _ _ _ pc => fine_wakeReader) (Or.inr hl) (Or.inl rfl) hb rfl
    rfl (fun _ _ => rfl) rfl trivial (fun _ => ⟨hacc.trans hsum.symm, hdel⟩) nofun ?_
    (fun r hr => ?_) h.got
  · change x.gotBytes <+: ((x.sent ++ [(t, x.arg t)]).map Prod.snd).flatten
    rw [hsum]
    exact h.order.trans (prefix_append _ _)
  · rcases mem_append.mp hr with hr | hr
    · exact h.sent r hr
    · rw [mem_singleton.mp hr]
      exact hlen

theorem rwait {dst : Dst} {n : Int} (hpc : x.sys.pc t = .rwait dst n)
    (hb : Inv (pipereadWait x.sys t dst n)) : Whole k (note x t (pipereadWait x.sys t dst n)) := by
  have hl : x.sys.lock = some t := h.lock_of (by rw [hpc]; exact fun _ _ _ hm => hm)
  have hh := h.held t hl
  rw [hpc] at hh
  rcases hh with ⟨hn, hbuf, hacc, hdel⟩
  unfold pipereadWait at hb ⊢
  by_cases hw : x.sys.pi.empty = true ∧ x.sys.pi.writeopen = true
  · have hk : ¬x.sys.killed t = true := by
      rw [h.alive t]
      exact Bool.false_ne_true
    rw [if_pos hw, if_neg hk] at hb ⊢
    exact h.quiet id (fun _ _ _ _ hf => hf) (Or.inr hl) (Or.inl rfl) hb rfl rfl nofun rfl ⟨hn, hbuf⟩
      (fun _ => ⟨hacc, hdel⟩) nofun
  · rw [if_neg hw] at hb ⊢
    refine h.quiet id (fun _ _ _ _ hf => hf) (Or.inr hl) (Or.inr hl) hb rfl rfl nofun rfl hl
      (fun hc => nomatch hl.symm.trans hc) (fun _ => ⟨hn, Nat.zero_le k, ?_, hacc, ?_⟩)
    · rw [hbuf, length_nil]
    · rw [hbuf, append_nil]
      exact hdel

theorem rcopy {dst : Dst} {n : Int} {i : Nat} (hpc : x.sys.pc t = .rcopy dst n i)
    (hb : Inv (piperead x.sys t dst n i)) :
    Whole k (note x t (piperead x.sys t dst n i)) := by
  have hl : x.sys.lock = some t := h.lock_of (by rw [hpc]; exact fun _ _ _ hm => hm)
  have hh := h.held t hl
  have hdst := h.base.2 t
  rw [hpc] at hh hdst
  rcases hh with ⟨hn, hi, hbuf, hacc, hdel⟩
  have hexit : i = 0 ∨ i = k → Inv (x.sys.goto t (.rexit i)) →
      Whole k (note x t (x.sys.goto t (.rexit i))) := fun hik hb =>
    h.quiet id (fun _ _ _ _ hf => hf) (Or.inr hl) (Or.inr hl) hb rfl rfl nofun rfl hl
      (fun hc => nomatch hl.symm.trans hc) (fun _ => ⟨hik, hbuf, hacc, hdel⟩)
  unfold piperead at hb ⊢
  by_cases hlt : (i : Int) < n
  · rw [if_pos hlt] at hb ⊢
    by_cases hempty : x.sys.pi.empty = true
    · rw [if_pos hempty] at hb ⊢
      exact hexit (h.empty_end hl hpc hempty) hb
    · rw [if_neg hempty, if_pos (hdst i)] at hb ⊢
      -- The byte goes from the ring to the buffer.
      have hnote : ∀ s' : System T, s'.pc t = .rcopy dst n (i + 1) →
          s'.delivered = x.sys.delivered ++ [x.sys.pi.front] → note x t s' =
            { x with sys := s', buf := update x.buf t (x.buf t ++ [x.sys.pi.front]) } := by
        intro s' hs' hd'
        simp only [note, hs', hd', drop_left]
      rw [hnote _ (update_self _ _ _) rfl]
      refine h.next id (fun _ _ _ _ hf => hf) (Or.inr hl) (Or.inr hl) hb rfl rfl
        (fun u hu => update_of_ne hu _ _) rfl hl (fun hc => nomatch hl.symm.trans hc)
        (fun _ => ?_) h.order h.sent h.got
      simp only [update_self]
      refine ⟨hn, by omega, ?_, hacc, ?_⟩
      · rw [length_append, hbuf]
        rfl
      · rw [← append_assoc]
        exact congrArg (· ++ _) hdel
  · rw [if_neg hlt] at hb ⊢
    exact hexit (Or.inr (by omega)) hb

theorem rexit {i : Nat} (hpc : x.sys.pc t = .rexit i)
    (hb : Inv (x.sys.wakeWriters.release.goto t (.ret i))) :
    Whole k (note x t (x.sys.wakeWriters.release.goto t (.ret i))) := by
  have hl : x.sys.lock = some t := h.lock_of (by rw [hpc]; exact fun _ _ _ hm => hm)
  have hh := h.held t hl
  rw [hpc] at hh
  rcases hh with ⟨hik, hlen, hacc, hdel⟩
  rw [note_ret x.sys.wakeWriters.release t i rfl, if_pos (by rw [hpc]; rfl)]
  have hsum : ((x.got ++ [(t, (i : Int), x.buf t)]).map (fun r => r.2.2)).flatten =
      x.gotBytes ++ x.buf t := by
    simp only [Traced.gotBytes, map_append, flatten_append, map_cons, map_nil,
      flatten_cons, flatten_nil, append_nil]
  refine h.next Pc.wakeWriter (fun _ _ _ pc => fine_wakeWriter) (Or.inr hl) (Or.inl rfl) hb rfl
    rfl (fun _ _ => rfl) rfl trivial (fun _ => ⟨hacc, hdel.trans hsum.symm⟩) nofun ?_
    h.sent (fun r hr => ?_)
  · -- What has been delivered has been accepted.
    change ((x.got ++ [(t, (i : Int), x.buf t)]).map (fun r => r.2.2)).flatten <+: x.sentBytes
    rw [hsum, ← hdel, ← hacc]
    exact ⟨x.sys.pi.contents, h.base.1.1⟩
  · rcases mem_append.mp hr with hr | hr
    · exact h.got r hr
    · rw [mem_singleton.mp hr, hlen]
      exact ⟨rfl, hik⟩

theorem acquire {s' : System T}
    (hs : x.sys.acquire t pc = .done s') (hb : Inv s') (hret : ∀ v, pc ≠ .ret v)
    (hfine : ∀ a b m, m → pc.Fine k a b m)
    (hheld : ∀ s : System T, s.accepted = x.sentBytes → s.delivered = x.gotBytes →
      pc.Holding k s (x.arg t) (x.buf t) x.sentBytes x.gotBytes) : Whole k (note x t s') := by
  unfold System.acquire at hs
  cases hl : x.sys.lock with
  | some u =>
    rw [hl] at hs
    exact nomatch hs
  | none =>
    rw [hl] at hs
    rw [← done.inj hs] at hb ⊢
    exact h.quiet id (fun _ _ _ _ hf => hf) (Or.inl hl) (Or.inr rfl) hb rfl rfl hret rfl
      (hfine _ _ _ rfl) nofun (fun _ => hheld _ (h.free hl).1 (h.free hl).2)

theorem advance (hk : k ∣ PIPESIZE) {s' : System T} (hs : Pipe.advance x.sys t = .done s')
    (hb : Inv s') : Whole k (note x t s') := by
  have hf := h.fine t
  unfold Pipe.advance at hs
  cases hpc : x.sys.pc t with
  | user | ret v | wsleep src n i | rsleep dst n => rw [hpc] at hs; exact nomatch hs
  | wlock src n i =>
    rw [hpc] at hs hf
    rcases hf with ⟨rfl, hn, harg⟩
    refine h.acquire hs hb nofun (fun _ _ _ hm => hm) (fun s hacc hdel => ?_)
    refine ⟨hn, harg, Nat.zero_le k, nofun, ?_, hdel⟩
    rw [take_zero, append_nil]
    exact hacc
  | rlock dst n =>
    rw [hpc] at hs hf
    exact h.acquire hs hb nofun (fun _ _ _ hm => hm)
      (fun s hacc hdel => ⟨hf.1, hf.2, hacc, hdel⟩)
  | wloop src n i =>
    rw [hpc] at hs
    rw [← done.inj hs] at hb ⊢
    exact h.wloop hk hpc hb
  | wexit i =>
    rw [hpc] at hs
    rw [← done.inj hs] at hb ⊢
    exact h.wexit hpc hb
  | rwait dst n =>
    rw [hpc] at hs
    rw [← done.inj hs] at hb ⊢
    exact h.rwait hpc hb
  | rcopy dst n i =>
    rw [hpc] at hs
    rw [← done.inj hs] at hb ⊢
    exact h.rcopy hpc hb
  | rexit i =>
    rw [hpc] at hs
    rw [← done.inj hs] at hb ⊢
    exact h.rexit hpc hb

omit h [DecidableEq T] in
theorem stay (h : Whole k x) {y : Traced T} (hbase : Inv y.sys)
    (hkilled : y.sys.killed = x.sys.killed) (hlock : y.sys.lock = x.sys.lock)
    (hacc : y.sys.accepted = x.sys.accepted) (hdel : y.sys.delivered = x.sys.delivered)
    (hsent : y.sent = x.sent) (hgot : y.got = x.got)
    (hfine : ∀ u, (y.sys.pc u).Fine k (y.arg u) (y.buf u) (x.sys.lock = some u))
    (hheld : ∀ u, x.sys.lock = some u → y.sys.pi = x.sys.pi ∧ y.sys.pc u = x.sys.pc u ∧
      y.arg u = x.arg u ∧ y.buf u = x.buf u) : Whole k y := by
  have hs : y.sentBytes = x.sentBytes := by rw [Traced.sentBytes, hsent, Traced.sentBytes]
  have hg : y.gotBytes = x.gotBytes := by rw [Traced.gotBytes, hgot, Traced.gotBytes]
  refine ⟨hbase, fun u => by rw [hkilled]; exact h.alive u, fun u => by rw [hlock]; exact hfine u,
    fun hl => ?_, fun u hl => ?_, by rw [hs, hg]; exact h.order,
    by rw [hsent]; exact h.sent, by rw [hgot]; exact h.got⟩
  · rw [hlock] at hl
    rw [hacc, hdel, hs, hg]
    exact h.free hl
  · rw [hlock] at hl
    rcases hheld u hl with ⟨hpi, hpc, harg, hbuf⟩
    have hold := h.held u hl
    rw [hpc, harg, hbuf, hs, hg]
    cases hu : x.sys.pc u <;> rw [hu] at hold
    all_goals first
      | exact hold
      | (simp only [Pc.Holding, hpi, hacc, hdel] at hold ⊢; exact hold)

omit h [DecidableEq T] in
theorem lock_ne (h : Whole k x) {t : T} (ho : (x.sys.pc t).outside = true) :
    x.sys.lock ≠ some t := by
  intro hl
  have hh := h.held t hl
  cases hpc : x.sys.pc t <;> rw [hpc] at hh ho <;> first | exact hh | exact nomatch ho

theorem enter (ho : (x.sys.pc t).outside = true) (arg' buf' : T → List Byte)
    (hb : Inv (x.sys.goto t pc)) (ha : ∀ u, u ≠ t → arg' u = x.arg u)
    (hbuf : ∀ u, u ≠ t → buf' u = x.buf u) (hfine : ∀ m, pc.Fine k (arg' t) (buf' t) m) :
    Whole k { x with sys := x.sys.goto t pc, arg := arg', buf := buf' } := by
  refine h.stay hb rfl rfl rfl rfl rfl rfl (fun u => ?_) (fun u hu => ?_)
  · by_cases hut : u = t
    · simp only [hut, System.goto, update_self]
      exact hfine _
    · simp only [System.goto, update_of_ne hut, ha u hut, hbuf u hut]
      exact h.fine u
  · have hut : u ≠ t := fun he => h.lock_ne ho (he ▸ hu)
    exact ⟨rfl, update_of_ne hut _ _, ha u hut, hbuf u hut⟩

omit h in
theorem step (hk : k ∣ PIPESIZE) (x : Traced T) (e : Event T) (y : Traced T) (h : Whole k x)
    (he : e.Record k) (hs : tracedStep x e = .done y) : Whole k y := by
  rcases (bind_eq_done _ _ _).mp hs with ⟨s', hstep, hy⟩
  have hmap : e.Mapped := by cases e <;> first | exact he.2 | trivial
  have hb : Inv s' := inv_step x.sys e s' h.base hmap hstep
  cases e with
  | write t src n =>
    rcases of_guard hstep with ⟨ho, hstep⟩
    rw [← done.inj hstep] at hb hy
    rw [← done.inj hy]
    refine h.enter ho _ x.buf hb (fun u hu => update_of_ne hu _ _) (fun _ _ => rfl)
      (fun m => ⟨rfl, he.1, ?_⟩)
    rw [update_self, he.1, Int.toNat_natCast]
  | read t dst n =>
    rcases of_guard hstep with ⟨ho, hstep⟩
    rw [← done.inj hstep] at hb hy
    rw [← done.inj hy]
    exact h.enter ho x.arg _ hb (fun _ _ => rfl) (fun u hu => update_of_ne hu _ _)
      (fun m => ⟨he.1, update_self _ _ _⟩)
  | step t =>
    rw [← done.inj hy]
    exact h.advance hk hstep hb
  | wake t =>
    rw [← done.inj hstep] at hb hy
    rw [← done.inj hy]
    refine h.stay hb rfl rfl rfl rfl rfl rfl (fun u => ?_) (fun u hu => ⟨rfl, ?_, rfl, rfl⟩)
    · by_cases hut : u = t
      · simp only [hut, System.goto, update_self]
        exact fine_resume (h.fine t)
      · simp only [System.goto, update_of_ne hut]
        exact h.fine u
    · by_cases hut : u = t
      · -- The process that has the lock is not asleep.
        have hh := h.held t (hut ▸ hu)
        simp only [hut, System.goto, update_self]
        cases hpc : x.sys.pc t <;> rw [hpc] at hh <;> first | rfl | exact hh.elim
      · simp only [System.goto, update_of_ne hut]
  | kill t => exact he.elim
  | close t writable =>
    have hstep := (of_guard hstep).2
    unfold pipeclose at hstep
    cases hl : x.sys.lock with
    | some u => rw [hl] at hstep; exact nomatch hstep
    | none =>
      have hno : ∀ u, x.sys.lock ≠ some u := fun u hu => nomatch hl.symm.trans hu
      rw [hl] at hstep
      cases writable with
      | true =>
        rw [← done.inj hstep] at hb hy
        rw [← done.inj hy]
        exact h.stay hb rfl hl.symm rfl rfl rfl rfl (fun u => fine_wakeReader (h.fine u))
          (fun u hu => absurd hu (hno u))
      | false =>
        rw [← done.inj hstep] at hb hy
        rw [← done.inj hy]
        exact h.stay hb rfl hl.symm rfl rfl rfl rfl (fun u => fine_wakeWriter (h.fine u))
          (fun u hu => absurd hu (hno u))

end Whole

theorem whole_begin (k : Nat) (data : Fin PIPESIZE → Byte) : Whole k (begin T data) :=
  ⟨inv_init data, fun _ => rfl, fun _ => trivial, fun _ => ⟨rfl, rfl⟩, nofun, nil_prefix, nofun,
    nofun⟩

theorem prefix_of_flatten (hk : 0 < k) (l₁ l₂ : List (List Byte)) (h₁ : ∀ l ∈ l₁, l.length = k)
    (h₂ : ∀ l ∈ l₂, l.length = k) (h : l₁.flatten <+: l₂.flatten) : l₁ <+: l₂ := by
  induction l₁ generalizing l₂ with
  | nil => exact nil_prefix
  | cons a l₁ ih =>
    have ha := h₁ a mem_cons_self
    cases l₂ with
    | nil =>
      have hnil := prefix_nil.mp h
      rw [flatten_cons, append_eq_nil_iff] at hnil
      rw [hnil.1] at ha
      exact absurd ha (Nat.ne_of_lt hk)
    | cons b l₂ =>
      rw [flatten_cons, flatten_cons] at h
      rcases h with ⟨rest, hrest⟩
      rw [append_assoc] at hrest
      rcases append_inj hrest (ha.trans (h₂ b mem_cons_self).symm) with ⟨rfl, hr⟩
      refine (prefix_cons_inj a).mpr (ih l₂ (fun l hl => h₁ l (mem_cons_of_mem a hl))
        (fun l hl => h₂ l (mem_cons_of_mem a hl)) ⟨rest, hr⟩)

/-- Fixed-size records stay whole. Whatever the interleaving of any number of readers
    and writers, every read returns 0 or `k`, and the results of the latter kind are
    the first of the records that were written, in the order in which the writes
    returned. -/
theorem pipe_records [DecidableEq T] (k : Nat) (hk : k ∣ PIPESIZE) (data : Fin PIPESIZE → Byte)
    (es : List (Event T)) (x : Traced T) (hes : ∀ e ∈ es, e.Record k)
    (h : runs tracedStep es (begin T data) = .done x) :
    (∀ r ∈ x.got, r.2.1 = r.2.2.length ∧ (r.2.1 = 0 ∨ r.2.1 = k)) ∧
      (x.got.map (fun r => r.2.2)).filter (fun l => !l.isEmpty) <+: x.sent.map Prod.snd ∧
      ∀ r ∈ x.sent, r.2.length = k := by
  have hw : Whole k x := by
    refine runs_invariant_of tracedStep (Whole k) (fun _ e => e.Record k) (Whole.step hk) es _ x
      (whole_begin k data) ?_ h
    intro es₁ e es₂ u he _
    exact hes e (by rw [he]; exact mem_append_right es₁ mem_cons_self)
  have hpos : 0 < k := Nat.pos_of_dvd_of_pos hk (by decide)
  refine ⟨fun r hr => ?_, ?_, hw.sent⟩
  · rcases hw.got r hr with ⟨hv, hlen⟩
    exact ⟨hv, by omega⟩
  · refine prefix_of_flatten hpos _ _ (fun l hl => ?_) (fun l hl => ?_) ?_
    · rcases mem_filter.mp hl with ⟨hmem, hne⟩
      rcases mem_map.mp hmem with ⟨r, hr, rfl⟩
      refine (hw.got r hr).2.resolve_left (fun h0 => ?_)
      rw [length_eq_zero_iff.mp h0] at hne
      exact nomatch hne
    · rcases mem_map.mp hl with ⟨r, hr, rfl⟩
      exact hw.sent r hr
    · rw [flatten_filter_not_isEmpty]
      exact hw.order

/-- Process `true` writes a record of two bytes, and process `false` reads it. -/
def oneRecord : List (Event Bool) :=
  [.write true (fun i => some (BitVec.ofNat 8 (65 + i))) 2, .step true, .step true, .step true,
    .step true, .step true, .read false (fun _ => true) 2, .step false, .step false, .step false,
    .step false, .step false, .step false]

theorem pipe_records_oneRecord : ∃ x : Traced Bool,
    runs tracedStep oneRecord (begin Bool (fun _ => 0)) = .done x ∧
      x.got = [(false, 2, [65#8, 66#8])] ∧
      (x.got.map (fun r => r.2.2)).filter (fun l => !l.isEmpty) <+: x.sent.map Prod.snd := by
  have hrecord : ∀ e ∈ oneRecord, e.Record 2 := by
    simp only [oneRecord, mem_cons, not_mem_nil, or_false]
    rintro e (rfl | rfl | rfl | rfl | rfl | rfl | rfl | rfl | rfl | rfl | rfl | rfl | rfl)
    all_goals first | trivial | exact ⟨rfl, fun _ => rfl⟩
  exact ⟨_, rfl, rfl, (pipe_records 2 (by decide) (fun _ => 0) oneRecord _ hrecord rfl).2.1⟩

end Steps

end Xv6.Pipe
