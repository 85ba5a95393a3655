import Xv6.Console.Model
import Mathlib.Data.List.Infix
import Mathlib.Data.List.Flatten

/-!
# The Line Discipline

The console is a queue of committed bytes and one line that is being edited.

`Line` says what typing a character does, without a ring: editing changes the line
only, and the line joins the queue at a newline, a `^D` or when there is no more
room. `Desk` is the console as its readers see it: a read takes bytes from the
front of the queue until it has enough, has a newline, or comes to a `^D`, which it
takes only if it has nothing else. `console_line_discipline` relates every run of
the source to the same run of this machine, and says what holds in it: no byte is
lost, reordered or seen twice between the line and the readers.

## Main definitions

* `Line`, `Line.intr`: The queue and the line, and what a character does to them.
* `Desk`, `Desk.step`: The console and its readers on lists.
* `Shows`: A ring shows a queue and a line.
* `Sim`: A state of the source shows a state of the abstract machine.
* `Desk.Ok`: What holds in every state of the abstract machine.

## Theorems

* `ok_step`: Every step keeps what holds.
* `console_line_discipline`: The ring implements the queue and the line.
-/

namespace Xv6.Console

open Function List

/-- Committed bytes, oldest first, and the line being edited. -/
structure Line where
  queue : List Byte
  edit : List Byte

/-- What a character does. -/
def Line.intr (l : Line) (c : Byte) : Line :=
  if c = ctrlP then l
  else if c = ctrlU then { l with edit := [] }
  else if c = ctrlH ∨ c = delete then { l with edit := l.edit.dropLast }
  else if c ≠ 0 ∧ l.queue.length + l.edit.length < INPUT_BUF_SIZE then
    let c := if c = carriageReturn then newline else c
    let edit := l.edit ++ [c]
    if c = newline ∨ c = ctrlD ∨ l.queue.length + edit.length = INPUT_BUF_SIZE then
      { queue := l.queue ++ edit, edit := [] }
    else { l with edit := edit }
  else l

/-- The console as its readers see it. `committed` are all bytes that have ever
    joined the queue, and a reader has a count and the bytes it has got. -/
structure Desk (T : Type) where
  line : Line
  committed : List Byte
  reader : T → Option (Int × List Byte)
  taken : List (T × Byte)
  replies : List (Reply T)

namespace Desk

def boot (T : Type) : Desk T :=
  { line := { queue := [], edit := [] }, committed := [], reader := fun _ => none, taken := []
    replies := [] }

/-- A character is typed; what it adds to the queue is committed. -/
def intr {T : Type} (a : Desk T) (c : Byte) : Desk T :=
  { a with
    line := a.line.intr c
    committed := a.committed ++ (a.line.intr c).queue.drop a.line.queue.length }

variable {T : Type} [DecidableEq T]

def setReader (a : Desk T) (t : T) (x : Option (Int × List Byte)) : Desk T :=
  { a with reader := update a.reader t x }

def reply (a : Desk T) (t : T) (want : Int) (got : List Byte) (value : Int) : Desk T :=
  { a.setReader t none with replies := a.replies ++ [⟨t, want, got, value, a.taken.length⟩] }

/-- Take the first byte of the queue. -/
def take (a : Desk T) (t : T) (c : Byte) (q : List Byte) : Desk T :=
  { a with line := { a.line with queue := q }, taken := a.taken ++ [(t, c)] }

def read (a : Desk T) (t : T) (want : Int) (got : List Byte) (killed : Bool) :
    Outcome Panic (Desk T) :=
  if (got.length : Int) < want then
    match a.line.queue with
    | [] => if killed then .done (a.reply t want got (-1)) else .wait
    | c :: q =>
      if c = ctrlD then
        if got = [] then .done ((a.take t c q).reply t want got 0)
        else .done (a.reply t want got got.length)
      else if c = newline then
        .done ((a.take t c q).reply t want (got ++ [c]) (got ++ [c]).length)
      else .done ((a.take t c q).setReader t (some (want, got ++ [c])))
  else .done (a.reply t want got got.length)

def step (a : Desk T) : Event T → Outcome Panic (Desk T)
  | .intr c => .done (a.intr c)
  | .read t n =>
    match a.reader t with
    | none => .done (a.setReader t (some (n, [])))
    | some _ => .wait
  | .step t killed =>
    match a.reader t with
    | none => .wait
    | some x => a.read t x.1 x.2 killed

end Desk

/-- A ring shows a queue and a line. -/
structure Shows (s : Cons) (l : Line) : Prop where
  queue : Ring.contents s.buf s.r s.w = l.queue
  edit : Ring.contents s.buf s.w s.e = l.edit
  room : l.queue.length + l.edit.length ≤ INPUT_BUF_SIZE
  open_line : newline ∉ l.edit

namespace Shows

variable {s : Cons} {l : Line}

variable (h : Shows s l)

include h

theorem length_queue : Ring.count s.r s.w = l.queue.length := by
  rw [← h.queue, Ring.length_contents]

theorem length_edit : Ring.count s.w s.e = l.edit.length := by
  rw [← h.edit, Ring.length_contents]

theorem count_lt : Ring.count s.r s.w + Ring.count s.w s.e + 1 < 2 ^ 32 := by
  have hroom := h.room
  rw [h.length_queue, h.length_edit]
  simp only [INPUT_BUF_SIZE] at hroom
  omega

theorem count_all : Ring.count s.r s.e = l.queue.length + l.edit.length := by
  have hlt := h.count_lt
  rw [Ring.count_add s.r s.w s.e (by omega), h.length_queue, h.length_edit]

theorem edit_ne_nil : s.e ≠ s.w ↔ l.edit ≠ [] := by
  have hz := Ring.count_eq_zero_iff s.w s.e
  rw [h.length_edit, length_eq_zero_iff] at hz
  rw [ne_comm, ne_eq, ne_eq, hz]

theorem back (hne : s.e ≠ s.w) :
    Shows { s with e := s.e - 1 } { l with edit := l.edit.dropLast } ∧
      l.edit.getLast? = some (s.buf (Ring.slot INPUT_BUF_SIZE (s.e - 1))) := by
  have hdrop := Ring.contents_dropLast s.buf hne.symm
  rw [h.edit] at hdrop
  have hlast : Ring.contents s.buf s.w (s.e - 1) = l.edit.dropLast := by
    rw [hdrop, dropLast_concat]
  refine ⟨{ queue := h.queue, edit := hlast, room := ?_, open_line := ?_ }, ?_⟩
  · have hroom := h.room
    simp only [length_dropLast]
    omega
  · exact fun hm => h.open_line (mem_of_mem_dropLast hm)
  · rw [hdrop, getLast?_concat]

/-- `^U` removes the whole line: there is no newline in it to stop at. -/
theorem killLine (fuel : Nat) (hf : l.edit.length ≤ fuel) :
    Shows (killLine fuel s) { l with edit := [] } := by
  induction fuel generalizing s l with
  | zero =>
    have hnil : l.edit = [] := length_eq_zero_iff.mp (Nat.le_zero.mp hf)
    rw [← hnil]
    exact h
  | succ fuel ih =>
    rw [Console.killLine]
    by_cases hne : s.e ≠ s.w
    · rcases h.back hne with ⟨hback, hlast⟩
      have hmem : s.buf (Ring.slot INPUT_BUF_SIZE (s.e - 1)) ∈ l.edit :=
        mem_of_getLast? hlast
      have hnl : s.buf (Ring.slot INPUT_BUF_SIZE (s.e - 1)) ≠ newline :=
        fun hc => h.open_line (hc ▸ hmem)
      rw [if_pos ⟨hne, hnl⟩]
      refine ih (l := { l with edit := l.edit.dropLast }) hback ?_
      simp only [length_dropLast]
      omega
    · rw [if_neg (fun hc => hne hc.1)]
      have hnil : l.edit = [] := by
        by_contra hc
        exact hne (h.edit_ne_nil.mpr hc)
      rw [← hnil]
      exact h

theorem put (c : Byte) (hroom : l.queue.length + l.edit.length < INPUT_BUF_SIZE) :
    Ring.contents (s.put c).buf s.r s.w = l.queue ∧
      Ring.contents (s.put c).buf s.w (s.put c).e = l.edit ++ [c] ∧
      Ring.count s.r (s.put c).e = l.queue.length + l.edit.length + 1 := by
  have hlt := h.count_lt
  have hall := h.count_all
  have hpush := Ring.contents_push (N := INPUT_BUF_SIZE) (by decide) s.buf s.r s.e c
    (by rw [hall]; exact hroom) (by rw [Ring.count_add s.r s.w s.e (by omega)]; omega)
  have hpush' := Ring.contents_push (N := INPUT_BUF_SIZE) (by decide) s.buf s.w s.e c
    (by rw [h.length_edit]; omega) (by omega)
  rw [h.edit] at hpush'
  have hcount : Ring.count s.w (s.e + 1) = Ring.count s.w s.e + 1 :=
    Ring.count_succ_right (by omega)
  -- The queue is what is left of the whole ring without the line.
  have hcut := Ring.contents_append (s.put c).buf s.r s.w (s.e + 1) (by omega)
  have hold := Ring.contents_append s.buf s.r s.w s.e (by omega)
  refine ⟨?_, hpush', ?_⟩
  · rw [hold, h.queue, h.edit] at hpush
    change Ring.contents (s.put c).buf s.r (s.e + 1) = _ at hpush
    change Ring.contents (s.put c).buf s.w (s.e + 1) = _ at hpush'
    rw [hcut, hpush', append_assoc] at hpush
    exact append_cancel_right hpush
  · change Ring.count s.r (s.e + 1) = _
    rw [Ring.count_add s.r s.w (s.e + 1) (by omega), hcount, h.length_queue, h.length_edit]
    omega

theorem intr (c : Byte) : Shows (consoleintr s c).1 (l.intr c) := by
  unfold consoleintr Line.intr
  by_cases hP : c = ctrlP
  · rw [if_pos hP, if_pos hP]
    exact h
  rw [if_neg hP, if_neg hP]
  by_cases hU : c = ctrlU
  · rw [if_pos hU, if_pos hU]
    exact h.killLine _ (Nat.le_of_eq h.length_edit.symm)
  rw [if_neg hU, if_neg hU]
  by_cases hH : c = ctrlH ∨ c = delete
  · rw [if_pos hH, if_pos hH]
    by_cases hne : s.e ≠ s.w
    · rw [if_pos hne]
      exact (h.back hne).1
    · rw [if_neg hne]
      have hnil : l.edit = [] := by
        by_contra hc
        exact hne (h.edit_ne_nil.mpr hc)
      rw [hnil, dropLast_nil, ← hnil]
      exact h
  rw [if_neg hH, if_neg hH]
  have hall := h.count_all
  unfold Ring.count at hall
  rw [hall]
  by_cases hroom : c ≠ 0 ∧ l.queue.length + l.edit.length < INPUT_BUF_SIZE
  · rw [if_pos hroom, if_pos hroom]
    generalize (if c = carriageReturn then newline else c) = d
    rcases h.put d hroom.2 with ⟨hq, he, hc⟩
    unfold Ring.count at hc
    have hlen : l.queue.length + (l.edit ++ [d]).length = l.queue.length + l.edit.length + 1 := by
      rw [length_append, length_singleton, Nat.add_assoc]
    have hr : (s.put d).r = s.r := rfl
    simp only [hr, hc, hlen]
    by_cases hend : d = newline ∨ d = ctrlD ∨ l.queue.length + l.edit.length + 1 = INPUT_BUF_SIZE
    · -- The line is committed: `w` moves up to `e`.
      rw [if_pos hend, if_pos hend]
      have hlt := h.count_lt
      have hcut := Ring.contents_append (s.put d).buf s.r s.w (s.put d).e (by
        have hcount : Ring.count s.w (s.put d).e = Ring.count s.w s.e + 1 :=
          Ring.count_succ_right (by omega)
        omega)
      refine { queue := ?_, edit := Ring.contents_self _ _, room := ?_, open_line := ?_ }
      · exact hcut.trans (by rw [hq, he])
      · simp only [length_append, length_singleton, length_nil]
        omega
      · exact not_mem_nil
    · rw [if_neg hend, if_neg hend]
      refine { queue := hq, edit := he, room := ?_, open_line := ?_ }
      · simp only [length_append, length_singleton]
        omega
      · intro hm
        rcases mem_append.mp hm with hm | hm
        · exact h.open_line hm
        · exact hend (Or.inl (mem_singleton.mp hm).symm)
  · rw [if_neg hroom, if_neg hroom]
    exact h

theorem empty_iff : s.r = s.w ↔ l.queue = [] := by
  rw [← Ring.count_eq_zero_iff, h.length_queue, length_eq_zero_iff]

theorem front (hne : s.r ≠ s.w) :
    ∃ q, l.queue = s.buf (Ring.slot INPUT_BUF_SIZE s.r) :: q ∧
      Shows { s with r := s.r + 1 } { l with queue := q } := by
  have hpop := Ring.contents_pop s.buf hne
  rw [h.queue] at hpop
  refine ⟨_, hpop, { queue := rfl, edit := h.edit, room := ?_, open_line := h.open_line }⟩
  have hroom := h.room
  rw [hpop, length_cons] at hroom
  simp only
  omega

end Shows

/-- A state of the source shows a state of the abstract machine. -/
structure Sim {T : Type} (s : System T) (a : Desk T) : Prop where
  shows_line : Shows s.cons a.line
  reader : ∀ t, a.reader t = (s.reader t).map (fun x => (x.target, x.got))
  left : ∀ t x, s.reader t = some x → x.n = x.target - x.got.length
  taken : s.taken = a.taken
  replies : s.replies = a.replies

variable {T : Type} [DecidableEq T]

theorem Sim.setReader {s : System T} {a : Desk T} (h : Sim s a) (t : T) (x : Option Read)
    (hx : ∀ y, x = some y → y.n = y.target - y.got.length) :
    Sim (s.setReader t x) (a.setReader t (x.map (fun y => (y.target, y.got)))) := by
  refine { h with reader := fun u => ?_, left := fun u y hy => ?_ }
  · by_cases hu : u = t
    · rw [hu]
      simp only [Desk.setReader, System.setReader, update_self]
    · simp only [Desk.setReader, System.setReader, update_of_ne hu]
      exact h.reader u
  · by_cases hu : u = t
    · rw [hu] at hy
      simp only [System.setReader, update_self] at hy
      exact hx y hy
    · simp only [System.setReader, update_of_ne hu] at hy
      exact h.left u y hy

theorem Sim.reply {s : System T} {a : Desk T} (h : Sim s a) (t : T) (x : Read) (v : Int) :
    Sim (s.reply t x v) (a.reply t x.target x.got v) := by
  have h' := h.setReader t none (nofun)
  refine { h' with replies := ?_ }
  simp only [System.reply, Desk.reply, h.replies, h.taken]

omit [DecidableEq T] in
theorem Sim.take {s : System T} {a : Desk T} (h : Sim s a) (t : T) (c : Byte) (q : List Byte)
    (hs : Shows { s.cons with r := s.cons.r + 1 } { a.line with queue := q }) :
    Sim (s.take t c) (a.take t c q) := by
  refine { h with shows_line := hs, taken := ?_ }
  simp only [System.take, Desk.take, h.taken]

theorem sim_read {s : System T} {a : Desk T} (h : Sim s a) (t : T) {x : Read} (killed : Bool)
    (hn : x.n = x.target - x.got.length) :
    Outcome.Both Sim (consoleread s t x killed) (a.read t x.target x.got killed) := by
  have hval : x.target - x.n = x.got.length := by omega
  unfold consoleread Desk.read
  by_cases hpos : 0 < x.n
  · have hlt : (x.got.length : Int) < x.target := by omega
    rw [if_pos hpos, if_pos hlt]
    by_cases hr : s.cons.r = s.cons.w
    · rw [if_pos hr, h.shows_line.empty_iff.mp hr]
      cases killed with
      | true => exact h.reply t x (-1)
      | false => trivial
    · rcases h.shows_line.front hr with ⟨q, hq, hs⟩
      rw [if_neg hr, hq]
      simp only
      generalize s.cons.buf (Ring.slot INPUT_BUF_SIZE s.cons.r) = c
      by_cases hc : c = ctrlD
      · rw [if_pos hc, if_pos hc]
        by_cases hlt : x.n < x.target
        · -- Something has been read already, so `^D` stays.
          have hne : x.got ≠ [] := by
            intro hnil
            rw [hnil, length_nil] at hn
            omega
          rw [if_pos hlt, if_neg hne, hval]
          exact h.reply t x _
        · have hnil : x.got = [] := by
            rw [← length_eq_zero_iff]
            omega
          rw [if_neg hlt, if_pos hnil, hval, hnil, length_nil, ← hnil]
          exact (h.take t c q hs).reply t x _
      · rw [if_neg hc, if_neg hc]
        have hlen : ((x.got ++ [c]).length : Int) = x.got.length + 1 := by
          rw [length_append, length_singleton]
          rfl
        by_cases hl : c = newline
        · rw [if_pos hl, if_pos hl]
          have hv : x.target - (x.n - 1) = ((x.got ++ [c]).length : Int) := by omega
          simp only [hv]
          exact (h.take t c q hs).reply t { x with n := x.n - 1, got := x.got ++ [c] } _
        · rw [if_neg hl, if_neg hl]
          refine (h.take t c q hs).setReader t (some { x with n := x.n - 1, got := x.got ++ [c] })
            (fun y hy => ?_)
          rw [← Option.some.inj hy, hlen]
          simp only
          omega
  · have hge : ¬(x.got.length : Int) < x.target := by omega
    rw [if_neg hpos, if_neg hge, hval]
    exact h.reply t x _

theorem sim_step {s : System T} {a : Desk T} (h : Sim s a) (e : Event T) :
    Outcome.Both Sim (step s e) (a.step e) := by
  cases e with
  | intr c => exact { h with shows_line := h.shows_line.intr c }
  | read t n =>
    have hr := h.reader t
    cases hs : s.reader t with
    | none =>
      rw [hs, Option.map_none] at hr
      simp only [step, Desk.step, hs, hr]
      refine h.setReader t (some { target := n, n := n, got := [] }) (fun y hy => ?_)
      rw [← Option.some.inj hy]
      simp only [length_nil, Int.natCast_zero, Int.sub_zero]
    | some x =>
      rw [hs, Option.map_some] at hr
      simp only [step, Desk.step, hs, hr]
      trivial
  | step t killed =>
    have hr := h.reader t
    cases hs : s.reader t with
    | none =>
      rw [hs, Option.map_none] at hr
      simp only [step, Desk.step, hs, hr]
      trivial
    | some x =>
      rw [hs, Option.map_some] at hr
      simp only [step, Desk.step, hs, hr]
      exact sim_read h t killed (h.left t x hs)

/-- The bytes that a read took out of the queue. A read that was asked for
    something and returned 0 has taken a `^D`. -/
def Reply.eaten (q : Reply T) : List Byte :=
  if q.got = [] ∧ q.value = 0 ∧ 0 < q.want then [ctrlD] else q.got

/-- What a read returns. The bytes are at most as many as asked for, end with the
    first newline and have no `^D`; and a read that was not killed returned because
    it had enough, had a newline, or came to a `^D`, the next byte then. -/
structure Reply.Ok (committed : List Byte) (q : Reply T) : Prop where
  count : q.got.length ≤ q.want.toNat
  no_eof : ctrlD ∉ q.got
  one_line : newline ∉ q.got.dropLast
  value : q.value = -1 ∨ q.value = q.got.length
  why : q.value ≠ -1 → q.got.length = q.want.toNat ∨ q.got.getLast? = some newline ∨
    q.got = [] ∨ committed[q.pos]? = some ctrlD

/-- The bytes a reader has got and not returned yet. -/
def held : Option (Int × List Byte) → List Byte
  | none => []
  | some x => x.2

/-- Each byte that was taken is in a reply of the process that took it, or is one
    of the pending ones. -/
def Desk.Account (a : Desk T) (pending : T → List Byte) : Prop :=
  ∀ t, (a.taken.filter (fun x => x.1 = t)).map Prod.snd =
    (a.replies.filter (fun q => q.who = t)).flatMap Reply.eaten ++ pending t

/-- What holds in every state: committed bytes have been taken or wait in the
    queue, in this order, and the bytes taken are those in replies and with reads in
    progress. -/
structure Desk.Ok (a : Desk T) : Prop where
  flow : a.taken.map Prod.snd ++ a.line.queue = a.committed
  replies : ∀ q ∈ a.replies, q.Ok a.committed
  reader : ∀ t x, a.reader t = some x → x.2.length ≤ x.1.toNat ∧ ctrlD ∉ x.2 ∧ newline ∉ x.2
  account : a.Account (fun t => held (a.reader t))

omit [DecidableEq T] in
theorem eaten_eq_got {q : Reply T} (h : q.got = [] → q.value = 0 → q.want ≤ 0) :
    q.eaten = q.got := by
  refine if_neg (fun hc => ?_)
  have := h hc.1 hc.2.1
  omega

section Account

variable {a : Desk T} {pending : T → List Byte}

theorem Desk.Account.take (h : a.Account pending) (t : T) (c : Byte) (q : List Byte) :
    (a.take t c q).Account (update pending t (pending t ++ [c])) := by
  intro u
  have hu := h u
  simp only [Desk.take, filter_append, map_append, hu]
  by_cases htu : t = u
  · subst htu
    simp only [filter_cons, decide_true, if_true, filter_nil, map_cons,
      map_nil, update_self, append_assoc]
  · simp only [filter_cons, htu, decide_false, Bool.false_eq_true, if_false, filter_nil,
      map_nil, append_nil, update_of_ne (Ne.symm htu)]

/-- A reply is made of the bytes that were pending. -/
theorem Desk.Account.reply (h : a.Account pending) (t : T) (want : Int) (got : List Byte) (v : Int)
    (he : (Reply.mk t want got v a.taken.length).eaten = pending t) :
    (a.reply t want got v).Account (update pending t []) := by
  intro u
  have hu := h u
  simp only [Desk.reply, Desk.setReader, hu, filter_append, flatMap_append]
  by_cases htu : t = u
  · subst htu
    simp only [filter_cons, decide_true, if_true, filter_nil, flatMap_cons, he,
      flatMap_nil, append_nil, update_self]
  · simp only [filter_cons, htu, decide_false, Bool.false_eq_true, if_false, filter_nil,
      flatMap_nil, append_nil, update_of_ne (Ne.symm htu)]

end Account

section Ok

variable {a : Desk T}

omit [DecidableEq T] in
theorem Reply.Ok.mono {q : Reply T} {l m : List Byte} (h : q.Ok l) (hlm : l <+: m) : q.Ok m := by
  refine { h with why := fun hv => ?_ }
  rcases h.why hv with hw | hw | hw | hw
  · exact Or.inl hw
  · exact Or.inr (Or.inl hw)
  · exact Or.inr (Or.inr (Or.inl hw))
  · refine Or.inr (Or.inr (Or.inr ?_))
    rcases hlm with ⟨k, rfl⟩
    have hlt : q.pos < l.length := (List.getElem?_eq_some_iff.mp hw).1
    rw [getElem?_append_left hlt, hw]

theorem Line.queue_intr (l : Line) (c : Byte) : l.queue <+: (l.intr c).queue := by
  unfold Line.intr
  simp only
  split_ifs
  all_goals first | exact prefix_rfl | exact prefix_append _ _

theorem Desk.Ok.intr (h : a.Ok) (c : Byte) : (a.intr c).Ok := by
  have hcat : a.line.queue ++ (a.line.intr c).queue.drop a.line.queue.length =
      (a.line.intr c).queue := by
    rcases a.line.queue_intr c with ⟨k, hk⟩
    rw [← hk, drop_left]
  refine { h with flow := ?_, replies := fun q hq => ?_ }
  · simp only [Desk.intr]
    rw [← h.flow, append_assoc, hcat]
  · exact (h.replies q hq).mono (prefix_append _ _)

theorem held_update (f : T → Option (Int × List Byte)) (t : T) (x : Option (Int × List Byte)) :
    (fun u => held (update f t x u)) = update (fun u => held (f u)) t (held x) := by
  ext1 u
  by_cases hu : u = t
  · rw [hu, update_self, update_self]
  · rw [update_of_ne hu, update_of_ne hu]

theorem Desk.Ok.reply {t : T} {want v : Int} {got : List Byte}
    (hflow : a.taken.map Prod.snd ++ a.line.queue = a.committed)
    (hreplies : ∀ q ∈ a.replies, q.Ok a.committed)
    (hreader : ∀ u x, u ≠ t → a.reader u = some x →
      x.2.length ≤ x.1.toNat ∧ ctrlD ∉ x.2 ∧ newline ∉ x.2)
    (hacc : a.Account (update (fun u => held (a.reader u)) t
      (Reply.mk t want got v a.taken.length).eaten))
    (hq : (Reply.mk t want got v a.taken.length).Ok a.committed) : (a.reply t want got v).Ok := by
  refine { flow := hflow, replies := fun q hm => ?_, reader := fun u x hx => ?_, account := ?_ }
  · rcases mem_append.mp hm with hm | hm
    · exact hreplies q hm
    · rw [mem_singleton.mp hm]
      exact hq
  · by_cases hu : u = t
    · simp only [Desk.reply, Desk.setReader, hu, update_self, reduceCtorEq] at hx
    · simp only [Desk.reply, Desk.setReader, update_of_ne hu] at hx
      exact hreader u x hu hx
  · have h' := hacc.reply t want got v (by rw [update_self])
    rw [update_idem] at h'
    simp only [Desk.reply, Desk.setReader] at h' ⊢
    rw [held_update]
    exact h'

theorem Desk.Ok.flow_take (h : a.Ok) {t : T} {c : Byte} {q : List Byte}
    (hq : a.line.queue = c :: q) :
    (a.take t c q).taken.map Prod.snd ++ (a.take t c q).line.queue = (a.take t c q).committed := by
  have hflow := h.flow
  rw [hq] at hflow
  simp only [Desk.take, map_append, map_cons, map_nil, append_assoc,
    singleton_append]
  exact hflow

theorem Desk.Ok.read (h : a.Ok) {t : T} {want : Int} {got : List Byte}
    (hr : a.reader t = some (want, got)) (killed : Bool) (b : Desk T)
    (hb : a.read t want got killed = .done b) : b.Ok := by
  rcases h.reader t _ hr with ⟨hlen, hD, hnl⟩
  simp only at hlen hD hnl
  have hdrop : newline ∉ got.dropLast := fun hm => hnl (mem_of_mem_dropLast hm)
  have hpend : held (a.reader t) = got := by rw [hr]; rfl
  -- A reply with just what is pending.
  have hself : ∀ l, l = got → update (fun u => held (a.reader u)) t l =
      fun u => held (a.reader u) := by
    intro l hl
    rw [hl, ← hpend]
    exact update_eq_self t (fun u => held (a.reader u))
  have hreader : ∀ u x, u ≠ t → a.reader u = some x →
      x.2.length ≤ x.1.toNat ∧ ctrlD ∉ x.2 ∧ newline ∉ x.2 := fun u x _ hx => h.reader u x hx
  unfold Desk.read at hb
  by_cases hlt : (got.length : Int) < want
  · rw [if_pos hlt] at hb
    have hw : got.length + 1 ≤ want.toNat := by omega
    cases hq : a.line.queue with
    | nil =>
      rw [hq] at hb
      cases killed with
      | false => simp only [Bool.false_eq_true, if_false, reduceCtorEq] at hb
      | true =>
        simp only [if_true, Outcome.done.injEq] at hb
        rw [← hb]
        have heat : (Reply.mk t want got (-1) a.taken.length).eaten = got :=
          eaten_eq_got (nofun)
        refine Desk.Ok.reply h.flow h.replies hreader ?_ ?_
        · rw [heat, hself got rfl]
          exact h.account
        · exact { count := hlen, no_eof := hD, one_line := hdrop, value := Or.inl rfl
                  why := fun hv => absurd rfl hv }
    | cons c q =>
      rw [hq] at hb
      simp only at hb
      have hacc := h.account.take t c q
      simp only [hpend] at hacc
      by_cases hc : c = ctrlD
      · rw [if_pos hc] at hb
        by_cases hnil : got = []
        · -- The read has nothing, and takes the `^D`.
          rw [if_pos hnil, Outcome.done.injEq] at hb
          rw [← hb]
          have heat : (Reply.mk t want got 0 (a.take t c q).taken.length).eaten = got ++ [c] := by
            have hpos : 0 < want := by omega
            rw [Reply.eaten, if_pos ⟨hnil, rfl, hpos⟩, hnil, hc]
            rfl
          refine Desk.Ok.reply (h.flow_take hq) h.replies hreader ?_ ?_
          · rw [heat]
            exact hacc
          · exact { count := hlen, no_eof := hD, one_line := hdrop
                    value := Or.inr (by rw [hnil]; rfl)
                    why := fun _ => Or.inr (Or.inr (Or.inl hnil)) }
        · -- The `^D` stays in the queue: it is the next committed byte.
          rw [if_neg hnil, Outcome.done.injEq] at hb
          rw [← hb]
          have heat : (Reply.mk t want got got.length a.taken.length).eaten = got :=
            eaten_eq_got (fun hcon => absurd hcon hnil)
          refine Desk.Ok.reply h.flow h.replies hreader ?_ ?_
          · rw [heat, hself got rfl]
            exact h.account
          · refine { count := hlen, no_eof := hD, one_line := hdrop, value := Or.inr rfl
                     why := fun _ => Or.inr (Or.inr (Or.inr ?_)) }
            rw [← h.flow, hq, getElem?_append_right (by rw [length_map]),
              length_map, Nat.sub_self, hc]
            rfl
      · rw [if_neg hc] at hb
        have hlen' : (got ++ [c]).length ≤ want.toNat := by
          rw [length_append, length_singleton]
          exact hw
        have hD' : ctrlD ∉ got ++ [c] := by
          intro hm
          rcases mem_append.mp hm with hm | hm
          · exact hD hm
          · exact hc (mem_singleton.mp hm).symm
        by_cases hl : c = newline
        · rw [if_pos hl, Outcome.done.injEq] at hb
          rw [← hb]
          have hne : got ++ [c] ≠ [] := append_ne_nil_of_right_ne_nil _ (cons_ne_nil c [])
          have heat : (Reply.mk t want (got ++ [c]) (got ++ [c]).length
              (a.take t c q).taken.length).eaten = got ++ [c] :=
            eaten_eq_got (fun hcon => absurd hcon hne)
          refine Desk.Ok.reply (h.flow_take hq) h.replies hreader ?_ ?_
          · rw [heat]
            exact hacc
          · refine { count := hlen', no_eof := hD', one_line := ?_, value := Or.inr rfl
                     why := fun _ => Or.inr (Or.inl ?_) }
            · rw [dropLast_concat]
              exact hnl
            · rw [getLast?_concat, hl]
        · rw [if_neg hl, Outcome.done.injEq] at hb
          rw [← hb]
          refine { flow := h.flow_take hq, replies := h.replies, reader := fun u x hx => ?_
                   account := ?_ }
          · by_cases hu : u = t
            · simp only [Desk.setReader, hu, update_self, Option.some.injEq] at hx
              rw [← hx]
              refine ⟨hlen', hD', fun hm => ?_⟩
              rcases mem_append.mp hm with hm | hm
              · exact hnl hm
              · exact hl (mem_singleton.mp hm).symm
            · simp only [Desk.setReader, update_of_ne hu] at hx
              exact h.reader u x hx
          · simp only [Desk.setReader]
            rw [held_update]
            exact hacc
  · -- The count was reached.
    rw [if_neg hlt, Outcome.done.injEq] at hb
    rw [← hb]
    have heat : (Reply.mk t want got got.length a.taken.length).eaten = got := by
      refine eaten_eq_got (fun _ hv => ?_)
      have hz : (got.length : Int) = 0 := hv
      change want ≤ 0
      omega
    refine Desk.Ok.reply h.flow h.replies hreader ?_ ?_
    · rw [heat, hself got rfl]
      exact h.account
    · exact { count := hlen, no_eof := hD, one_line := hdrop, value := Or.inr rfl
              why := fun _ => Or.inl (by simp only; omega) }

theorem ok_step (h : a.Ok) {e : Event T} {b : Desk T} (hb : a.step e = .done b) : b.Ok := by
  cases e with
  | intr c =>
    simp only [Desk.step, Outcome.done.injEq] at hb
    rw [← hb]
    exact h.intr c
  | read t n =>
    cases hr : a.reader t with
    | some x => simp only [Desk.step, hr, reduceCtorEq] at hb
    | none =>
      simp only [Desk.step, hr, Outcome.done.injEq] at hb
      rw [← hb]
      refine { flow := h.flow, replies := h.replies, reader := fun u x hx => ?_, account := ?_ }
      · by_cases hu : u = t
        · simp only [Desk.setReader, hu, update_self, Option.some.injEq] at hx
          rw [← hx]
          exact ⟨Nat.zero_le _, not_mem_nil, not_mem_nil⟩
        · simp only [Desk.setReader, update_of_ne hu] at hx
          exact h.reader u x hx
      · simp only [Desk.setReader]
        rw [held_update]
        have hpend : held (some (n, [])) = held (a.reader t) := by rw [hr]; rfl
        rw [hpend]
        have hself := update_eq_self t (fun u => held (a.reader u))
        rw [hself]
        exact h.account
  | step t killed =>
    cases hr : a.reader t with
    | none => simp only [Desk.step, hr, reduceCtorEq] at hb
    | some x =>
      simp only [Desk.step, hr] at hb
      exact h.read hr killed b hb

theorem ok_boot : (Desk.boot T).Ok :=
  { flow := rfl, replies := nofun
    reader := nofun, account := fun _ => rfl }

omit [DecidableEq T] in
theorem sim_boot (buf : Fin INPUT_BUF_SIZE → Byte) (k : BitVec 32) :
    Sim (boot T buf k) (Desk.boot T) := by
  refine { shows_line := ?_, reader := fun _ => rfl, left := nofun, taken := rfl
           replies := rfl }
  exact { queue := Ring.contents_self _ _, edit := Ring.contents_self _ _, room := Nat.zero_le _
          open_line := not_mem_nil }

end Ok

/-- The ring implements a queue of committed bytes and one line. For any characters
    typed and any reads of any number of processes, in any order, and wherever the
    counters start, the source and the abstract machine take the same steps, wait at
    the same points and give the same replies; the counters are in order and at most
    `INPUT_BUF_SIZE` apart, modulo `2 ^ 32`; and committed bytes reach readers whole
    and in order. -/
theorem console_line_discipline (buf : Fin INPUT_BUF_SIZE → Byte) (k : BitVec 32)
    (es : List (Event T)) :
    Outcome.Both (fun s a => Sim s a ∧ a.Ok ∧
        (s.cons.w - s.cons.r).toNat ≤ (s.cons.e - s.cons.r).toNat ∧
        (s.cons.e - s.cons.r).toNat ≤ INPUT_BUF_SIZE)
      (runs step es (boot T buf k)) (runs Desk.step es (Desk.boot T)) := by
  have hboth : Outcome.Both (fun s a => Sim s a ∧ a.Ok)
      (runs step es (boot T buf k)) (runs Desk.step es (Desk.boot T)) := by
    refine runs_both step Desk.step _ (fun s a e h => ?_) es _ _ ⟨sim_boot buf k, ok_boot⟩
    exact (sim_step h.1 e).imp (fun s' a' _ ha hs => ⟨hs, ok_step h.2 ha⟩)
  refine hboth.imp (fun s a _ _ h => ⟨h.1, h.2, ?_, ?_⟩)
  · have hq := h.1.shows_line.length_queue
    have hall := h.1.shows_line.count_all
    unfold Ring.count at hq hall
    omega
  · have hall := h.1.shows_line.count_all
    have hroom := h.1.shows_line.room
    unfold Ring.count at hall
    omega

end Xv6.Console
