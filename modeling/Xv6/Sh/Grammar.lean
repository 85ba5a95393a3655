import Xv6.Lib.Prog
import Xv6.Sh.Model

/-!
# The Grammar of the Shell

Tokens, derivations, and a parser for them.

A derivation is a tree of its own, one type for each nonterminal. It gives back the
tokens it derives, and stands for a tree of commands. Which tokens come next always
decides what to do, so one token of lookahead is enough, and `line` parses that way.
It is the parser of the source with a list of tokens in place of the cursor, and a
derivation in place of the tree.

`HaltsAt.line` and `line_complete` say that it accepts exactly what can be derived.

## Main definitions

* `Token`, `tokens`: The tokens of a text.
* `Line`, `Pipe`, `Exec`, `Redir`: Derivations.
* `Line.yield`: The tokens of a derivation.
* `Line.tree`: The tree of commands a derivation stands for.
* `line`: The parser.

## Theorems

* `line_complete`: What can be derived is accepted, with that derivation.
* `Line.yield_inj`: Derivations of the same tokens are the same.
-/

namespace Xv6.Sh

open List

inductive Token where
  | bar
  | lparen
  | rparen
  | semi
  | amp
  | lt
  | gt
  | gtgt
  | word (w : List Byte)
  deriving DecidableEq

def Token.ofSymbol (c : Byte) : Token :=
  if c = chr '|' then bar
  else if c = chr '(' then lparen
  else if c = chr ')' then rparen
  else if c = chr ';' then semi
  else if c = chr '&' then amp
  else if c = chr '<' then lt
  else gt

/-- The word that ends here, if there is one. -/
def flush (w : List Byte) : List Token := if w = [] then [] else [.word w]

/-- The tokens of a text, where `w` is the run of word bytes before it. A word is a
    longest run of bytes that are neither white space nor symbols. -/
def tokensFrom (w : List Byte) : List Byte → List Token
  | [] => flush w
  | c :: cs =>
    if isWord c then tokensFrom (w ++ [c]) cs
    else if isWhite c then flush w ++ tokensFrom [] cs
    else
      match cs with
      | [] => flush w ++ [Token.ofSymbol c]
      | c' :: cs' =>
        if c = chr '>' ∧ c' = chr '>' then flush w ++ .gtgt :: tokensFrom [] cs'
        else flush w ++ Token.ofSymbol c :: tokensFrom [] (c' :: cs')

def tokens (s : List Byte) : List Token := tokensFrom [] s

/-- The three kinds of redirection. -/
inductive RedirOp where
  | input
  | output
  | append
  deriving DecidableEq

def RedirOp.token : RedirOp → Token
  | input => .lt
  | output => .gt
  | append => .gtgt

/-- `redir ::= ('<' | '>' | '>>') word`. -/
structure Redir (W : Type) where
  op : RedirOp
  file : W

mutual

/-- `exec ::= '(' line ')' redir* | redir* (word redir*)*`. -/
inductive Exec where
  | block (l : Line) (rs : List (Redir (List Byte)))
  | simple (rs : List (Redir (List Byte))) (args : List (List Byte × List (Redir (List Byte))))

/-- `pipe ::= exec ['|' pipe]`. -/
inductive Pipe where
  | last (e : Exec)
  | pipe (e : Exec) (p : Pipe)

/-- `line ::= pipe '&'* [';' line]`. -/
inductive Line where
  | last (p : Pipe) (amps : Nat)
  | list (p : Pipe) (amps : Nat) (l : Line)

end

/-- The tokens of redirections, and of arguments with theirs. -/
def redirsYield (rs : List (Redir (List Byte))) : List Token :=
  rs.flatMap (fun r => [r.op.token, .word r.file])

def argsYield (args : List (List Byte × List (Redir (List Byte)))) : List Token :=
  args.flatMap (fun a => .word a.1 :: redirsYield a.2)

mutual

def Exec.yield : Exec → List Token
  | .block l rs => .lparen :: (l.yield ++ .rparen :: redirsYield rs)
  | .simple rs args => redirsYield rs ++ argsYield args

def Pipe.yield : Pipe → List Token
  | .last e => e.yield
  | .pipe e p => e.yield ++ .bar :: p.yield

def Line.yield : Line → List Token
  | .last p amps => p.yield ++ List.replicate amps .amp
  | .list p amps l => p.yield ++ List.replicate amps .amp ++ .semi :: l.yield

end

mutual

/-- Every command has fewer than `MAXARGS` words. -/
def Exec.Ok : Exec → Prop
  | .block l _ => l.Ok
  | .simple _ args => args.length < MAXARGS

def Pipe.Ok : Pipe → Prop
  | .last e => e.Ok
  | .pipe e p => e.Ok ∧ p.Ok

def Line.Ok : Line → Prop
  | .last p _ => p.Ok
  | .list p _ l => p.Ok ∧ l.Ok

end

/-- A redirection around a command. -/
def Cmd.wrap {W : Type} (cmd : Cmd W) (r : Redir W) : Cmd W :=
  match r.op with
  | .input => .redir cmd r.file O_RDONLY 0
  | .output => .redir cmd r.file (O_WRONLY ||| O_CREATE ||| O_TRUNC) 1
  | .append => .redir cmd r.file (O_WRONLY ||| O_CREATE) 1

/-- Redirections around a command, the first one innermost. -/
def Cmd.wraps {W : Type} (cmd : Cmd W) (rs : List (Redir W)) : Cmd W := rs.foldl Cmd.wrap cmd

def Cmd.backs {W : Type} (cmd : Cmd W) : Nat → Cmd W
  | 0 => cmd
  | n + 1 => .backs (.back cmd) n

mutual

/-- The tree of commands a derivation stands for. -/
def Exec.tree : Exec → Cmd (List Byte)
  | .block l rs => l.tree.wraps rs
  | .simple rs args => (Cmd.exec (args.map Prod.fst)).wraps (rs ++ args.flatMap Prod.snd)

def Pipe.tree : Pipe → Cmd (List Byte)
  | .last e => e.tree
  | .pipe e p => .pipe e.tree p.tree

def Line.tree : Line → Cmd (List Byte)
  | .last p amps => p.tree.backs amps
  | .list p amps l => .list (p.tree.backs amps) l.tree

end

/-- The redirection a token begins. -/
def Token.redirOp : Token → Option RedirOp
  | lt => some .input
  | gt => some .output
  | gtgt => some .append
  | _ => none

/-- The tokens that end a list of arguments. -/
def Token.ends : Token → Bool
  | bar => true
  | rparen => true
  | amp => true
  | semi => true
  | _ => false

def redirs : Nat → List Token → Outcome Fault (List (Redir (List Byte)) × List Token)
  | 0, _ => .wait
  | fuel + 1, ts =>
    match ts.head?.bind Token.redirOp with
    | none => .done ([], ts)
    | some op =>
      match ts.tail.head? with
      | some (.word w) => do
        let r ← redirs fuel ts.tail.tail
        return ({ op := op, file := w } :: r.1, r.2)
      | _ => .panic .missingFile

def args : Nat → Nat → List Token →
    Outcome Fault (List (List Byte × List (Redir (List Byte))) × List Token)
  | 0, _, _ => .wait
  | fuel + 1, argc, ts =>
    if ts.head?.any Token.ends then .done ([], ts)
    else
      match ts.head? with
      | none => .done ([], ts)
      | some (.word w) =>
        if MAXARGS ≤ argc + 1 then .panic .tooManyArgs
        else do
          let r ← redirs fuel ts.tail
          let a ← args fuel (argc + 1) r.2
          return ((w, r.1) :: a.1, a.2)
      | some _ => .panic .unexpected

def amps : Nat → List Token → Outcome Fault (Nat × List Token)
  | 0, _ => .wait
  | fuel + 1, ts =>
    if ts.head? = some .amp then do
      let r ← amps fuel ts.tail
      return (r.1 + 1, r.2)
    else .done (0, ts)

mutual

def line : Nat → List Token → Outcome Fault (Line × List Token)
  | 0, _ => .wait
  | fuel + 1, ts => do
    let p ← pipe fuel ts
    let n ← amps fuel p.2
    if n.2.head? = some .semi then
      let l ← line fuel n.2.tail
      return (.list p.1 n.1 l.1, l.2)
    else return (.last p.1 n.1, n.2)

def pipe : Nat → List Token → Outcome Fault (Pipe × List Token)
  | 0, _ => .wait
  | fuel + 1, ts => do
    let e ← exec fuel ts
    if e.2.head? = some .bar then
      let p ← pipe fuel e.2.tail
      return (.pipe e.1 p.1, p.2)
    else return (.last e.1, e.2)

def block : Nat → List Token → Outcome Fault (Exec × List Token)
  | 0, _ => .wait
  | fuel + 1, ts =>
    if ts.head? = some .lparen then do
      let l ← line fuel ts.tail
      if l.2.head? = some .rparen then
        let r ← redirs fuel l.2.tail
        return (.block l.1 r.1, r.2)
      else .panic .missingParen
    else .panic .parseblock

def exec : Nat → List Token → Outcome Fault (Exec × List Token)
  | 0, _ => .wait
  | fuel + 1, ts =>
    if ts.head? = some .lparen then block fuel ts
    else do
      let r ← redirs fuel ts
      let a ← args fuel 0 r.2
      return (.simple r.1 a.1, a.2)

end

variable {ts : List Token}

theorem cons_of_head {t : Token} (h : ts.head? = some t) : ts = t :: ts.tail := by
  cases ts with
  | nil => exact nomatch h
  | cons t' ts => rw [← Option.some.inj h]; rfl

theorem cons_of_redirOp {op : RedirOp}
    (h : ts.head?.bind Token.redirOp = some op) : ts = op.token :: ts.tail := by
  cases ts with
  | nil => exact nomatch h
  | cons t ts =>
    cases t with
    | lt | gt | gtgt => rw [← Option.some.inj h]; rfl
    | _ => exact nomatch h

section Halts

theorem length_of_head {t : Token} (h : ts.head? = some t) :
    ts.length = ts.tail.length + 1 := by
  rw [cons_of_head h, length_cons, tail_cons]

theorem length_of_append {ts xs rest : List Token} (h : ts = xs ++ rest) :
    rest.length ≤ ts.length := by
  rw [h, length_append]
  exact Nat.le_add_left _ _

theorem redirs_halts (fuel : Nat) (ts : List Token) (h : ts.length < fuel) :
    (redirs fuel ts).Halts (fun r => ts = redirsYield r.1 ++ r.2) := by
  induction fuel generalizing ts with
  | zero => omega
  | succ fuel ih =>
    unfold redirs
    split
    · exact rfl
    · rename_i op hop
      have hts := cons_of_redirOp hop
      split
      · rename_i w hw
        have h₁ := congrArg length hts
        have h₂ := length_of_head hw
        rw [length_cons] at h₁
        refine (ih ts.tail.tail (by omega)).bind (fun r hr => ?_)
        change ts = op.token :: .word w :: (redirsYield r.1 ++ r.2)
        rw [← hr, ← cons_of_head hw]
        exact hts
      · trivial

theorem args_halts (fuel argc : Nat) (ts : List Token) (h : ts.length + 1 < fuel) :
    (args fuel argc ts).Halts (fun a =>
      ts = argsYield a.1 ++ a.2 ∧ (argc < MAXARGS → argc + a.1.length < MAXARGS)) := by
  induction fuel generalizing argc ts with
  | zero => omega
  | succ fuel ih =>
    unfold args
    split
    · exact ⟨rfl, id⟩
    split
    · exact ⟨rfl, id⟩
    · rename_i w hw
      have hlen := length_of_head hw
      split
      · trivial
      · rename_i hmax
        refine (redirs_halts fuel ts.tail (by omega)).bind (fun r hr => ?_)
        have hle := length_of_append hr
        refine (ih (argc + 1) r.2 (by omega)).bind (fun a ha => ⟨?_, fun _ => ?_⟩)
        · simp only [argsYield, flatMap_cons, cons_append, append_assoc]
          rw [cons_of_head hw, hr]
          exact congrArg _ (congrArg _ ha.1)
        · have hlt := ha.2 (by omega)
          simp only [length_cons]
          omega
    · trivial

theorem amps_halts (fuel : Nat) (ts : List Token) (h : ts.length < fuel) :
    (amps fuel ts).Halts (fun n => ts = replicate n.1 .amp ++ n.2) := by
  induction fuel generalizing ts with
  | zero => omega
  | succ fuel ih =>
    unfold amps
    split
    · rename_i hamp
      have hlen := length_of_head hamp
      refine (ih ts.tail (by omega)).bind (fun n hn => ?_)
      change ts = .amp :: (replicate n.1 .amp ++ n.2)
      rw [← hn]
      exact cons_of_head hamp
    · exact rfl

/-- With that much fuel for each token the four functions end, and return derivations of
    what they took. A call to another of them costs a unit, and after four calls in a row
    a token has been taken. -/
structure HaltsAt (fuel : Nat) : Prop where
  line : ∀ ts : List Token, 4 * ts.length + 8 ≤ fuel →
    (line fuel ts).Halts (fun r => ts = r.1.yield ++ r.2 ∧ r.1.Ok)
  pipe : ∀ ts : List Token, 4 * ts.length + 7 ≤ fuel →
    (pipe fuel ts).Halts (fun r => ts = r.1.yield ++ r.2 ∧ r.1.Ok)
  exec : ∀ ts : List Token, 4 * ts.length + 6 ≤ fuel →
    (exec fuel ts).Halts (fun r => ts = r.1.yield ++ r.2 ∧ r.1.Ok)
  block : ∀ ts : List Token, 4 * ts.length + 5 ≤ fuel →
    (block fuel ts).Halts (fun r => ts = r.1.yield ++ r.2 ∧ r.1.Ok)

theorem haltsAt (fuel : Nat) : HaltsAt fuel := by
  induction fuel with
  | zero =>
    refine ⟨fun ts h => ?_, fun ts h => ?_, fun ts h => ?_, fun ts h => ?_⟩
    all_goals omega
  | succ fuel ih =>
    refine ⟨fun ts h => ?_, fun ts h => ?_, fun ts h => ?_, fun ts h => ?_⟩
    · rw [Sh.line]
      refine (ih.pipe ts (by omega)).bind (fun p ⟨hp, hok⟩ => ?_)
      have hple := length_of_append hp
      refine (amps_halts fuel p.2 (by omega)).bind (fun n hn => ?_)
      have hnle := length_of_append hn
      split
      · rename_i hsemi
        have hlen := length_of_head hsemi
        refine (ih.line n.2.tail (by omega)).bind (fun l ⟨hl, hok'⟩ => ⟨?_, hok, hok'⟩)
        rw [hp, hn, cons_of_head hsemi, hl, Line.yield]
        simp only [append_assoc, cons_append]
      · refine ⟨?_, hok⟩
        rw [Line.yield, hp, append_assoc]
        exact congrArg _ hn
    · rw [Sh.pipe]
      refine (ih.exec ts (by omega)).bind (fun e ⟨he, hok⟩ => ?_)
      have hele := length_of_append he
      split
      · rename_i hbar
        have hlen := length_of_head hbar
        refine (ih.pipe e.2.tail (by omega)).bind (fun p ⟨hp, hok'⟩ => ⟨?_, hok, hok'⟩)
        rw [he, cons_of_head hbar, hp, Pipe.yield, append_assoc, cons_append]
      · exact ⟨he, hok⟩
    · rw [Sh.exec]
      split
      · exact ih.block ts (by omega)
      · refine (redirs_halts fuel ts (by omega)).bind (fun r hr => ?_)
        have hle := length_of_append hr
        refine (args_halts fuel 0 r.2 (by omega)).bind (fun a ⟨ha, hlen⟩ => ⟨?_, ?_⟩)
        · rw [hr, ha, Exec.yield, append_assoc]
        · have hlt := hlen (by decide)
          rw [Nat.zero_add] at hlt
          exact hlt
    · rw [Sh.block]
      split
      · rename_i hopen
        have hlen := length_of_head hopen
        refine (ih.line ts.tail (by omega)).bind (fun l ⟨hl, hok⟩ => ?_)
        have hle := length_of_append hl
        split
        · rename_i hclose
          have hlen' := length_of_head hclose
          refine (redirs_halts fuel l.2.tail (by omega)).bind (fun r hr => ⟨?_, hok⟩)
          rw [cons_of_head hopen, hl, cons_of_head hclose, hr, Exec.yield]
          simp only [append_assoc, cons_append]
        · trivial
      · trivial

end Halts

section Complete

variable {rest : List Token}

-- What may come after a line, a pipe and a command.
def EndsLine (ts : List Token) : Prop := ∀ t, ts.head? = some t → t = .rparen
def EndsPipe (ts : List Token) : Prop :=
  ∀ t, ts.head? = some t → t = .rparen ∨ t = .amp ∨ t = .semi
def EndsExec (ts : List Token) : Prop := ∀ t, ts.head? = some t → t.ends = true

/-- No redirection comes next. -/
def NoRedir (ts : List Token) : Prop := ts.head?.bind Token.redirOp = none

theorem EndsExec.noRedir (h : EndsExec ts) : NoRedir ts := by
  unfold NoRedir
  cases ts with
  | nil => rfl
  | cons t ts =>
    have ht := h t rfl
    cases t with
    | lt | gt | gtgt => exact nomatch ht
    | _ => rfl

theorem EndsExec.args (h : EndsExec rest)
    (as : List (List Byte × List (Redir (List Byte)))) : NoRedir (argsYield as ++ rest) := by
  cases as with
  | nil => exact h.noRedir
  | cons a as => rfl

theorem redirs_complete (fuel : Nat) (rs : List (Redir (List Byte))) (rest : List Token)
    (h : (redirsYield rs ++ rest).length < fuel) (hrest : NoRedir rest) :
    redirs fuel (redirsYield rs ++ rest) = .done (rs, rest) := by
  induction rs generalizing fuel with
  | nil =>
    cases fuel with
    | zero => omega
    | succ fuel =>
      unfold redirs
      rw [show redirsYield [] ++ rest = rest from rfl, hrest]
  | cons r rs ih =>
    cases fuel with
    | zero => omega
    | succ fuel =>
      have hyield : redirsYield (r :: rs) ++ rest =
          r.op.token :: .word r.file :: (redirsYield rs ++ rest) := rfl
      have hop : (r.op.token).redirOp = some r.op := by
        cases r.op <;> rfl
      rw [hyield] at h ⊢
      simp only [length_cons] at h
      unfold redirs
      simp only [head?_cons, Option.bind_some, hop, tail_cons, ih fuel (by omega)]
      rfl

theorem args_complete (fuel argc : Nat) (as : List (List Byte × List (Redir (List Byte))))
    (rest : List Token) (h : (argsYield as ++ rest).length + 1 < fuel)
    (hargc : argc + as.length < MAXARGS) (hrest : EndsExec rest) :
    args fuel argc (argsYield as ++ rest) = .done (as, rest) := by
  induction as generalizing fuel argc with
  | nil =>
    cases fuel with
    | zero => omega
    | succ fuel =>
      unfold args
      rw [show argsYield [] ++ rest = rest from rfl]
      cases rest with
      | nil => rfl
      | cons t rest =>
        have ht := hrest t rfl
        simp only [head?_cons, Option.any_some, ht, if_true]
  | cons a as ih =>
    cases fuel with
    | zero => omega
    | succ fuel =>
      have hyield : argsYield (a :: as) ++ rest =
          .word a.1 :: (redirsYield a.2 ++ (argsYield as ++ rest)) := by
        simp only [argsYield, flatMap_cons, cons_append, append_assoc]
      rw [hyield] at h ⊢
      simp only [length_cons] at h hargc
      have hr := redirs_complete fuel a.2 (argsYield as ++ rest) (by omega) (hrest.args as)
      rw [length_append] at h
      have ha := ih fuel (argc + 1) (by omega) (by omega)
      unfold args
      have hlt : ¬MAXARGS ≤ argc + 1 := by omega
      simp only [head?_cons, Option.any_some, Token.ends, if_neg hlt, tail_cons, hr,
        Outcome.done_bind, ha]
      rfl

theorem amps_complete (fuel n : Nat) (rest : List Token)
    (h : (replicate n Token.amp ++ rest).length < fuel) (hrest : rest.head? ≠ some .amp) :
    amps fuel (replicate n .amp ++ rest) = .done (n, rest) := by
  induction n generalizing fuel with
  | zero =>
    cases fuel with
    | zero => omega
    | succ fuel =>
      unfold amps
      rw [replicate_zero, nil_append, if_neg hrest]
  | succ n ih =>
    cases fuel with
    | zero => omega
    | succ fuel =>
      rw [replicate_succ, cons_append] at h ⊢
      rw [length_cons] at h
      unfold amps
      rw [head?_cons, if_pos rfl, tail_cons, ih fuel (by omega)]
      rfl

/-- The four functions at one amount of fuel find the derivation. -/
structure CompleteAt (fuel : Nat) : Prop where
  line : ∀ (l : Line) (rest : List Token), l.Ok → EndsLine rest →
    4 * (l.yield ++ rest).length + 8 ≤ fuel → line fuel (l.yield ++ rest) = .done (l, rest)
  pipe : ∀ (p : Pipe) (rest : List Token), p.Ok → EndsPipe rest →
    4 * (p.yield ++ rest).length + 7 ≤ fuel → pipe fuel (p.yield ++ rest) = .done (p, rest)
  exec : ∀ (e : Exec) (rest : List Token), e.Ok → EndsExec rest →
    4 * (e.yield ++ rest).length + 6 ≤ fuel → exec fuel (e.yield ++ rest) = .done (e, rest)
  block : ∀ (l : Line) (rs : List (Redir (List Byte))) (rest : List Token), l.Ok → NoRedir rest →
    4 * ((Exec.block l rs).yield ++ rest).length + 5 ≤ fuel →
      block fuel ((Exec.block l rs).yield ++ rest) = .done (.block l rs, rest)

theorem endsPipe_amps {n : Nat} (h : EndsPipe rest) :
    EndsPipe (replicate n .amp ++ rest) := by
  cases n with
  | zero => exact h
  | succ n =>
    intro t ht
    exact Or.inr (Or.inl (Option.some.inj ht).symm)

theorem EndsLine.endsPipe (h : EndsLine rest) : EndsPipe rest :=
  fun t ht => Or.inl (h t ht)

theorem EndsPipe.endsExec (h : EndsPipe rest) : EndsExec rest := by
  intro t ht
  rcases h t ht with rfl | rfl | rfl <;> rfl

/-- A command that is not in parentheses does not start with one. -/
theorem simple_head (rs : List (Redir (List Byte)))
    (as : List (List Byte × List (Redir (List Byte)))) (h : EndsExec rest) :
    (redirsYield rs ++ argsYield as ++ rest).head? ≠ some .lparen := by
  intro hhead
  cases rs with
  | cons r rs =>
    have hr : r.op.token = .lparen := Option.some.inj hhead
    cases hop : r.op <;> rw [hop] at hr <;> exact nomatch hr
  | nil =>
    cases as with
    | cons a as => exact nomatch hhead
    | nil => exact nomatch h _ hhead

theorem completeAt (fuel : Nat) : CompleteAt fuel := by
  induction fuel with
  | zero =>
    refine ⟨fun l rest _ _ h => ?_, fun p rest _ _ h => ?_, fun e rest _ _ h => ?_,
      fun l rs rest _ _ h => ?_⟩
    all_goals omega
  | succ fuel ih =>
    refine ⟨fun l rest hok hrest h => ?_, fun p rest hok hrest h => ?_,
      fun e rest hok hrest h => ?_, fun l rs rest hok hrest h => ?_⟩
    · cases l with
      | last p n =>
        simp only [Line.yield, append_assoc] at h ⊢
        have hp := ih.pipe p _ hok (endsPipe_amps (n := n) hrest.endsPipe) (by omega)
        rw [length_append] at h
        have hn := amps_complete fuel n rest (by omega)
          (fun ht => (nomatch hrest _ ht))
        have hsemi : rest.head? ≠ some .semi := fun ht => (nomatch hrest _ ht)
        rw [Sh.line, hp, Outcome.done_bind, hn, Outcome.done_bind, if_neg hsemi]
        rfl
      | list p n l =>
        simp only [Line.yield, append_assoc, cons_append] at h ⊢
        have hends : EndsPipe (.semi :: (l.yield ++ rest)) := by
          intro t ht
          exact Or.inr (Or.inr (Option.some.inj ht).symm)
        have hp := ih.pipe p _ hok.1 (endsPipe_amps (n := n) hends) (by omega)
        rw [length_append] at h
        have hn := amps_complete fuel n (.semi :: (l.yield ++ rest)) (by omega)
          (nofun)
        rw [length_append, length_cons] at h
        have hl := ih.line l rest hok.2 hrest (by omega)
        rw [Sh.line, hp, Outcome.done_bind, hn, Outcome.done_bind, head?_cons, if_pos rfl,
          tail_cons, hl]
        rfl
    · cases p with
      | last e =>
        simp only [Pipe.yield] at h ⊢
        have he := ih.exec e rest hok hrest.endsExec (by omega)
        have hbar : rest.head? ≠ some .bar := by
          intro ht
          rcases hrest _ ht with hb | hb | hb <;> exact nomatch hb
        rw [Sh.pipe, he, Outcome.done_bind, if_neg hbar]
        rfl
      | pipe e p =>
        simp only [Pipe.yield, append_assoc, cons_append] at h ⊢
        have hends : EndsExec (.bar :: (p.yield ++ rest)) := by
          intro t ht
          rw [← Option.some.inj ht]
          rfl
        have he := ih.exec e _ hok.1 hends (by omega)
        rw [length_append, length_cons] at h
        have hp := ih.pipe p rest hok.2 hrest (by omega)
        rw [Sh.pipe, he, Outcome.done_bind, head?_cons, if_pos rfl, tail_cons, hp]
        rfl
    · cases e with
      | block l rs =>
        have hb := ih.block l rs rest hok hrest.noRedir (by omega)
        rw [Sh.exec]
        rw [if_pos (by rfl)]
        exact hb
      | simple rs as =>
        have hhead := simple_head rs as hrest
        simp only [Exec.yield] at h ⊢
        rw [Sh.exec, if_neg hhead]
        rw [append_assoc] at h ⊢
        have hr := redirs_complete fuel rs (argsYield as ++ rest) (by omega) (hrest.args as)
        rw [length_append] at h
        have hlen : 0 + as.length < MAXARGS := by
          rw [Nat.zero_add]
          exact hok
        have ha := args_complete fuel 0 as rest (by omega) hlen hrest
        rw [hr, Outcome.done_bind, ha]
        rfl
    · simp only [Exec.yield, cons_append, append_assoc, length_cons] at h ⊢
      have hends : EndsLine (.rparen :: (redirsYield rs ++ rest)) := by
        intro t ht
        exact (Option.some.inj ht).symm
      have hl := ih.line l _ hok hends (by omega)
      rw [length_append, length_cons] at h
      have hr := redirs_complete fuel rs rest (by omega) hrest
      rw [Sh.block, head?_cons, if_pos rfl, tail_cons, hl, Outcome.done_bind,
        head?_cons, if_pos rfl, tail_cons, hr]
      rfl

theorem line_complete {fuel : Nat} {l : Line} (hok : l.Ok) (h : 4 * l.yield.length + 8 ≤ fuel) :
    line fuel l.yield = .done (l, []) := by
  have hline := (completeAt fuel).line l [] hok (nofun) (by
    rw [append_nil]
    exact h)
  rwa [append_nil] at hline

theorem Line.yield_inj {l l' : Line} (hok : l.Ok) (hok' : l'.Ok) (h : l.yield = l'.yield) :
    l = l' := by
  have h₁ := line_complete hok (Nat.le_refl _)
  have h₂ := line_complete hok' (Nat.le_refl _)
  rw [h, h₂, Outcome.done.injEq, Prod.mk.injEq] at h₁
  exact h₁.1.symm

end Complete

end Xv6.Sh
