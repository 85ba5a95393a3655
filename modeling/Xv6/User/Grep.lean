import Xv6.User.Match

/-!
# grep

The function `grep` of `user/grep.c`: it reads into a buffer of 1024 bytes, reports the
whole lines of it that match, and moves what is left to the front.

`buf` is the list of the `m` bytes that are held. A call of `read` for `n` bytes gets a
number of bytes that is up to the kernel, but at least one and at most `n`, and nothing if
`n` is 0 or the input is over. The wishes of the kernel are a function of the number of
the call.

The room for a read is `1023 - m`. A line of 1023 characters fills the buffer before its
newline is seen, so the next read is for no bytes and `grep` takes that for the end of the
input. Up to there every matching line is reported, however the input is split.

## Main definitions

* `Line`, `unlines`: Lines, and the text of them with a newline after each.
* `strchr`: Where the first newline is.
* `scan`: The inner loop.
* `grep`: The outer loop, from any buffer on.
* `report`: What should be written for lines.

## Theorems

* `grep_unlines`: The output is that of the lines before the first one that is too long.
* `grep_reports_iff`: When that is everything.
-/

namespace Xv6.Grep

open Sh (chr)

open List

/-! ### Lines of text -/

/-- A line has no newline in it and no NUL. -/
structure Line where
  text : List Byte
  clean : ∀ c ∈ text, c ≠ chr '\n' ∧ c ≠ 0

def unlines (ls : List Line) : List Byte := ls.flatMap (fun l => l.text ++ [chr '\n'])

theorem unlines_cons (l : Line) (ls : List Line) :
    unlines (l :: ls) = l.text ++ chr '\n' :: unlines ls := by
  rw [unlines, List.flatMap_cons, List.append_assoc]
  rfl

/-- Where some text ends and the rest begins: inside the first line, or after it. -/
theorem unlines_split {l : Line} {ls : List Line} {s t : List Byte}
    (h : s ++ t = unlines (l :: ls)) :
    (chr '\n' ∉ s ∧ s.length ≤ l.text.length) ∨
      ∃ s', s = l.text ++ chr '\n' :: s' ∧ s' ++ t = unlines ls := by
  rw [unlines_cons] at h
  have hl : chr '\n' ∉ l.text := fun hc => (l.clean _ hc).1 rfl
  rcases List.append_eq_append_iff.mp h with ⟨a, ha, -⟩ | ⟨a, ha, hat⟩
  · have hlen := congrArg List.length ha
    rw [List.length_append] at hlen
    exact Or.inl ⟨fun hs => hl (ha ▸ List.mem_append_left a hs), by omega⟩
  · cases a with
    | nil =>
      rw [List.append_nil] at ha
      rw [ha]
      exact Or.inl ⟨hl, Nat.le_refl _⟩
    | cons c s' =>
      rcases List.cons.inj hat with ⟨rfl, hs⟩
      exact Or.inr ⟨s', ha, hs.symm⟩

/-! ### The code -/

/-- `strchr`, as the place of the character in the string that starts `s`. -/
def strchr (c : Byte) : List Byte → Option Nat
  | [] => none
  | d :: s => if d = 0 then none else if d = c then some 0 else (strchr c s).map (· + 1)

/-- `sizeof(buf)`. -/
def BUFSIZE : Nat := 1024

section Loops

variable (pattern : List Byte)

theorem strchr_lt {c : Byte} {s : List Byte} {q : Nat} (h : strchr c s = some q) :
    q < s.length := by
  induction s generalizing q with
  | nil => nomatch h
  | cons d s ih =>
    rw [strchr] at h
    split at h
    · nomatch h
    split at h
    · cases h
      exact Nat.succ_pos _
    · rcases Option.map_eq_some_iff.mp h with ⟨q', hq', rfl⟩
      exact Nat.succ_lt_succ (ih hq')

/-- The inner loop on the string at `p`: what it writes, and the bytes from the last `p`
    on. -/
def scan (s : List Byte) : List Byte × List Byte :=
  match _hq : strchr (chr '\n') s with
  | none => ([], s)
  | some q =>
    let r := scan (s.drop (q + 1))
    (if matchRe pattern (s.take q) then s.take (q + 1) ++ r.1 else r.1, r.2)
termination_by s.length
decreasing_by
  have hlt := strchr_lt _hq
  rw [List.length_drop]
  omega

/-- How many bytes a call of `read` for `n` bytes gets. -/
def count (wish n : Nat) : Nat := min (max 1 wish) n

/-- The output of the outer loop, when `buf` is held and `input` is not read yet. -/
def grep (wish : Nat → Nat) (i : Nat) (buf input : List Byte) : List Byte :=
  let n := count (wish i) (BUFSIZE - buf.length - 1)
  if _h : n = 0 ∨ input = [] then []
  else
    let r := scan pattern (buf ++ input.take n)
    r.1 ++ grep wish (i + 1) r.2 (input.drop n)
termination_by input.length
decreasing_by
  have hn : n ≠ 0 := fun h' => _h (Or.inl h')
  have hpos : 0 < input.length := List.length_pos_of_ne_nil (fun h' => _h (Or.inr h'))
  rw [List.length_drop]
  omega

/-- What should be written for lines. -/
def report (ls : List Line) : List Byte := unlines (ls.filter (fun l => matchRe pattern l.text))

/-- A line that `grep` can read. -/
def short (l : Line) : Bool := decide (l.text.length < BUFSIZE - 1)

end Loops

theorem strchr_eq_none {s : List Byte} (h : chr '\n' ∉ s) : strchr (chr '\n') s = none := by
  induction s with
  | nil => rfl
  | cons d s ih =>
    rw [strchr, ih (not_mem_of_not_mem_cons h), if_neg (ne_of_not_mem_cons h).symm]
    exact ite_self _

theorem strchr_line (l : Line) (s : List Byte) :
    strchr (chr '\n') (l.text ++ chr '\n' :: s) = some l.text.length := by
  rcases l with ⟨text, clean⟩
  change strchr _ (text ++ chr '\n' :: s) = some text.length
  induction text with
  | nil => rfl
  | cons d text ih =>
    rcases clean d mem_cons_self with ⟨hnl, h0⟩
    rw [cons_append, strchr, if_neg h0, if_neg hnl,
      ih (fun c hc => clean c (mem_cons_of_mem d hc))]
    rfl

section Output

variable (pattern : List Byte)

theorem report_cons (l : Line) (ls : List Line) : report pattern (l :: ls) =
    if matchRe pattern l.text then l.text ++ chr '\n' :: report pattern ls
    else report pattern ls := by
  rw [report, filter_cons]
  split
  · exact unlines_cons l _
  · rfl

theorem report_append (ls ls' : List Line) :
    report pattern (ls ++ ls') = report pattern ls ++ report pattern ls' := by
  rw [report, filter_append, unlines, flatMap_append]
  rfl

theorem report_eq_nil (ls : List Line) :
    report pattern ls = [] ↔ ∀ l ∈ ls, matchRe pattern l.text = false := by
  induction ls with
  | nil => exact iff_of_true rfl nofun
  | cons l ls ih =>
    rw [report_cons, forall_mem_cons, ← ih]
    cases matchRe pattern l.text with
    | true => simp only [if_true, append_eq_nil_iff, reduceCtorEq, and_false, false_and]
    | false => simp only [Bool.false_eq_true, if_false, true_and]

theorem scan_rest {s : List Byte} (hs : chr '\n' ∉ s) : scan pattern s = ([], s) := by
  rw [scan]
  split
  · rfl
  · rename_i q hq
    rw [strchr_eq_none hs] at hq
    nomatch hq

theorem scan_line (l : Line) (s : List Byte) :
    scan pattern (l.text ++ chr '\n' :: s) =
      (if matchRe pattern l.text then l.text ++ chr '\n' :: (scan pattern s).1
        else (scan pattern s).1, (scan pattern s).2) := by
  have hcut : l.text ++ chr '\n' :: s = (l.text ++ [chr '\n']) ++ s := by
    rw [append_assoc, singleton_append]
  have hlen : l.text.length + 1 = (l.text ++ [chr '\n']).length := by
    rw [length_append, length_singleton]
  rw [scan]
  split
  · rename_i hq
    rw [strchr_line] at hq
    nomatch hq
  · rename_i q hq
    rw [strchr_line] at hq
    cases hq
    rw [take_left, hcut, hlen, drop_left, take_left]
    simp only [append_assoc, singleton_append]

/-- The inner loop takes the whole lines off the front of the buffer, and they are not
    too long. -/
theorem scan_unlines (ls : List Line) (s t : List Byte) (h : s ++ t = unlines ls)
    (hlen : s.length < BUFSIZE) : ∃ done rest s', ls = done ++ rest ∧
      (∀ l ∈ done, short l = true) ∧ scan pattern s = (report pattern done, s') ∧
      s' ++ t = unlines rest ∧ chr '\n' ∉ s' ∧ s'.length < BUFSIZE := by
  induction ls generalizing s with
  | nil =>
    have hs : chr '\n' ∉ s := by
      rw [(append_eq_nil_iff.mp h).1]
      exact not_mem_nil
    exact ⟨[], [], s, rfl, nofun, scan_rest pattern hs, h, hs, hlen⟩
  | cons l ls ih =>
    rcases unlines_split h with ⟨hs, -⟩ | ⟨s', rfl, ht⟩
    · exact ⟨[], l :: ls, s, rfl, nofun, scan_rest pattern hs, h, hs, hlen⟩
    · rw [length_append, length_cons] at hlen
      rcases ih s' ht (by omega) with ⟨done, rest, s'', rfl, hfit, hscan, hrest⟩
      refine ⟨l :: done, rest, s'', rfl, forall_mem_cons.mpr ⟨?_, hfit⟩, ?_, hrest⟩
      · exact decide_eq_true (by omega)
      · rw [scan_line, hscan, report_cons]

/-- The output, however the input is split. What is held has no newline, and it is the
    start of the lines that are left. -/
theorem grep_unlines (wish : Nat → Nat) (i : Nat) (ls : List Line) (buf input : List Byte)
    (h : buf ++ input = unlines ls) (hbuf : chr '\n' ∉ buf) (hlen : buf.length < BUFSIZE) :
    grep pattern wish i buf input = report pattern (ls.takeWhile short) := by
  induction hm : input.length using Nat.strong_induction_on generalizing i ls buf input with
  | _ m ih =>
    rw [grep]
    cases ls with
    | nil =>
      rw [dif_pos (Or.inr (append_eq_nil_iff.mp h).2)]
      rfl
    | cons l ls =>
      have hne : input ≠ [] := by
        rintro rfl
        rw [append_nil, unlines_cons] at h
        exact hbuf (h ▸ mem_append_right _ mem_cons_self)
      by_cases hfull : BUFSIZE - buf.length - 1 = 0
      · -- The buffer is full, and all of it belongs to the first line.
        have hlong : ¬ short l = true := by
          rcases unlines_split h with ⟨-, hle⟩ | ⟨s', rfl, -⟩
          · rw [short, decide_eq_true_eq]
            omega
          · exact absurd (mem_append_right _ mem_cons_self) hbuf
        rw [dif_pos (Or.inl (by rw [hfull, count, Nat.min_zero])), takeWhile_cons_of_neg hlong]
        rfl
      · generalize hn : count (wish i) (BUFSIZE - buf.length - 1) = n
        have hn' : 1 ≤ n ∧ n ≤ BUFSIZE - buf.length - 1 := by
          rw [← hn, count]
          omega
        rw [dif_neg (fun h' => h'.elim (by omega) hne)]
        have hread : (buf ++ input.take n) ++ input.drop n = unlines (l :: ls) := by
          rw [append_assoc, take_append_drop, h]
        have hlen' : (buf ++ input.take n).length < BUFSIZE := by
          rw [length_append, length_take]
          omega
        rcases scan_unlines pattern _ _ _ hread hlen' with
          ⟨done, rest, s', heq, hfit, hscan, hrest, hs', hlen''⟩
        have hless : (input.drop n).length < m := by
          have hpos := length_pos_of_ne_nil hne
          rw [length_drop]
          omega
        have hih := ih _ hless (i + 1) rest s' _ hrest hs' hlen'' rfl
        rw [hscan, heq, takeWhile_append_of_pos hfit, report_append, ← hih]

end Output

/-- `grep` on lines of any lengths, with an input that the kernel splits in any way,
    reports all lines that match exactly if none of them is, or comes after, a line of
    1023 characters or more. -/
theorem grep_reports_iff (pattern : List Byte) (wish : Nat → Nat) (ls : List Line) :
    grep pattern wish 0 [] (unlines ls) = report pattern ls ↔
      ∀ l ∈ ls.dropWhile short, matchRe pattern l.text = false := by
  rw [grep_unlines pattern wish 0 ls [] (unlines ls) rfl not_mem_nil (by decide)]
  have hall : report pattern ls =
      report pattern (ls.takeWhile short) ++ report pattern (ls.dropWhile short) := by
    rw [← report_append, takeWhile_append_dropWhile]
  rw [hall, self_eq_append_right, report_eq_nil]

/-- A line of 1023 characters `a`. -/
def longLine : Line := ⟨List.replicate 1023 (chr 'a'), fun c hc => by
  rw [(List.mem_replicate.mp hc).2]
  decide⟩

/-- Such a line matches `a`, and nothing is reported. -/
theorem grep_longLine : grep [chr 'a'] (fun _ => 512) 0 [] (unlines [longLine]) = [] ∧
    report [chr 'a'] [longLine] = unlines [longLine] ∧ unlines [longLine] ≠ [] := by
  have hfits : ¬ short longLine = true := by
    rw [short, decide_eq_true_eq, longLine, length_replicate]
    decide
  refine ⟨?_, rfl, nofun⟩
  rw [grep_unlines _ _ 0 [longLine] [] (unlines [longLine]) rfl not_mem_nil (by decide),
    takeWhile_cons_of_neg hfits]
  rfl

end Xv6.Grep
