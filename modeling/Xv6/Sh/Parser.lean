import Xv6.Sh.Grammar

/-!
# The Parser Accepts the Grammar

The parser of the source does on the text what `line` does on its tokens.

`peek` and `gettoken` look at the text, and here they are read as looking at the
tokens that are left: the first one decides what `peek` answers, and `gettoken` takes
it. From then on the parser of the source and the one for tokens take the same turns.
What differs is the tree, which holds pointers. `Reads` relates it to the tree of the
derivation: a pointer goes to the bytes of the word, which ends before a byte that is
in no word. Those are the bytes that `nulterminate` overwrites.

## Main definitions

* `WordAt`: A word in the text.
* `Reads`: A tree of pointers shows a tree of words.
* `Agree`: The two parsers do the same.

## Theorems

* `strings_nulterminate`: After `nulterminate` the pointers point to the words.
* `parsecmd_grammar`: `parsecmd` returns the tree of the derivation, if there is one.
-/

namespace Xv6.Sh

open List

variable {p : Nat}

section Lexing

variable {s : List Byte} {c : Byte}

theorem drop_scan (p : Byte → Bool) (s : List Byte) (i : Nat) :
    s.drop (scan p s i) = (s.drop i).dropWhile p := by
  rw [scan, ← drop_drop]
  generalize s.drop i = l
  induction l with
  | nil => rfl
  | cons c l ih =>
    by_cases hc : p c = true
    · rw [takeWhile_cons_of_pos hc, dropWhile_cons_of_pos hc, length_cons,
        drop_succ_cons, ih]
    · rw [takeWhile_cons_of_neg hc, dropWhile_cons_of_neg hc]
      rfl

theorem getD_eq_head (s : List Byte) (i : Nat) : s.getD i 0 = (s.drop i).head?.getD 0 := by
  rw [head?_drop, getD_eq_getElem?_getD]

theorem not_word_of_white (h : isWhite c = true) : isWord c = false := by
  unfold isWord
  rw [show strchr whitespace c = true from h]
  rfl

theorem tokensFrom_cons_word (w : List Byte) (cs : List Byte) (h : isWord c = true) :
    tokensFrom w (c :: cs) = tokensFrom (w ++ [c]) cs := by
  rw [tokensFrom.eq_def w (c :: cs)]
  simp only [if_pos h]

theorem tokens_white (cs : List Byte) (h : isWhite c = true) :
    tokens (c :: cs) = tokens cs := by
  have hno : ¬isWord c = true := by rw [not_word_of_white h]; decide
  rw [tokens, tokensFrom.eq_def]
  simp only [if_neg hno, if_pos h]
  rfl

theorem tokens_dropWhile (l : List Byte) : tokens (l.dropWhile isWhite) = tokens l := by
  induction l with
  | nil => rfl
  | cons c l ih =>
    by_cases hc : isWhite c = true
    · rw [dropWhile_cons_of_pos hc, ih, tokens_white l hc]
    · rw [dropWhile_cons_of_neg hc]

theorem tokens_skip (s : List Byte) (i : Nat) :
    tokens (s.drop (scan isWhite s i)) = tokens (s.drop i) := by
  rw [drop_scan, tokens_dropWhile]

/-- The bytes of a word are added to the run before them. -/
theorem tokensFrom_word (run rest w : List Byte) (h : ∀ c ∈ run, isWord c = true) :
    tokensFrom w (run ++ rest) = tokensFrom (w ++ run) rest := by
  induction run generalizing w with
  | nil => rw [append_nil, nil_append]
  | cons c run ih =>
    rw [cons_append, tokensFrom_cons_word _ _ (h c mem_cons_self),
      ih _ (fun c' hc' => h c' (mem_cons_of_mem c hc')), append_assoc]
    rfl

theorem tokensFrom_flush (w rest : List Byte) (h : ∀ c, rest.head? = some c → isWord c = false) :
    tokensFrom w rest = flush w ++ tokens rest := by
  cases rest with
  | nil => rw [tokensFrom, show tokens [] = [] from rfl, append_nil]
  | cons c cs =>
    have hc := h c rfl
    have hno : ¬isWord c = true := by rw [hc]; decide
    rw [tokens, tokensFrom.eq_def w (c :: cs), tokensFrom.eq_def [] (c :: cs)]
    simp only [if_neg hno]
    by_cases hw : isWhite c = true
    · rw [if_pos hw, if_pos hw]
      rfl
    · rw [if_neg hw, if_neg hw]
      cases cs with
      | nil => rfl
      | cons c' cs' =>
        simp only
        split <;> rfl

theorem tokens_run {l : List Byte} (h : ∀ c, l.head? = some c → isWord c = true) (hne : l ≠ []) :
    tokens l = .word (l.takeWhile isWord) :: tokens (l.dropWhile isWord) := by
  have hsplit := takeWhile_append_dropWhile (p := isWord) (l := l)
  have hall : ∀ c ∈ l.takeWhile isWord, isWord c = true :=
    fun c hc => all_eq_true.mp all_takeWhile c hc
  have hstop : ∀ c, (l.dropWhile isWord).head? = some c → isWord c = false := by
    intro c hc
    have hnot := head?_dropWhile_not isWord l
    rw [hc] at hnot
    exact hnot
  have hne' : l.takeWhile isWord ≠ [] := by
    cases l with
    | nil => exact absurd rfl hne
    | cons c cs =>
      rw [takeWhile_cons_of_pos (h c rfl)]
      exact cons_ne_nil _ _
  calc tokens l = tokensFrom [] (l.takeWhile isWord ++ l.dropWhile isWord) := by
        rw [hsplit, tokens]
    _ = tokensFrom (l.takeWhile isWord) (l.dropWhile isWord) := by
        rw [tokensFrom_word _ _ _ hall, nil_append]
    _ = .word (l.takeWhile isWord) :: tokens (l.dropWhile isWord) := by
        rw [tokensFrom_flush _ _ hstop, flush, if_neg hne']
        rfl

theorem tokens_symbol (cs : List Byte) (hword : isWord c = false) (hwhite : isWhite c = false) :
    tokens (c :: cs) = if c = chr '>' ∧ cs.head? = some (chr '>') then .gtgt :: tokens cs.tail
      else Token.ofSymbol c :: tokens cs := by
  have h₁ : ¬isWord c = true := by rw [hword]; decide
  have h₂ : ¬isWhite c = true := by rw [hwhite]; decide
  rw [tokens, tokensFrom.eq_def]
  simp only [if_neg h₁, if_neg h₂]
  cases cs with
  | nil =>
    rw [if_neg (fun h => (nomatch h.2))]
    rfl
  | cons c' cs' =>
    simp only [head?_cons, Option.some.injEq, tail_cons]
    rfl

theorem front (hs : 0 ∉ s) (p : Nat) :
    s.drop (scan isWhite s p) = [] ∨
      ∃ c cs, s.drop (scan isWhite s p) = c :: cs ∧ c ≠ 0 ∧ isWhite c = false := by
  cases hl : s.drop (scan isWhite s p) with
  | nil => exact Or.inl rfl
  | cons c cs =>
    refine Or.inr ⟨c, cs, rfl, fun hc => hs ?_, ?_⟩
    · have hm : c ∈ s.drop (scan isWhite s p) := by
        rw [hl]
        exact mem_cons_self
      rw [← hc]
      exact mem_of_mem_drop hm
    · have hnot := head?_dropWhile_not isWhite (s.drop p)
      rw [← drop_scan, hl] at hnot
      exact hnot

/-- A byte that is neither white nor in a word is a symbol. -/
theorem symbol_of (hwhite : isWhite c = false) (hword : isWord c = false) :
    c ∈ symbols := by
  unfold isWord at hword
  rw [show strchr whitespace c = false from hwhite, Bool.not_false, Bool.true_and,
    Bool.not_eq_false', strchr, decide_eq_true_iff] at hword
  exact hword

/-- A word in the text: bytes of words, and none after them. -/
structure WordAt (s : List Byte) (w : Span) : Prop where
  le : w.1 ≤ w.2
  word : ∀ i, w.1 ≤ i → i < w.2 → ∃ c, s[i]? = some c ∧ isWord c = true
  stop : ∀ c, s[w.2]? = some c → isWord c = false
  len : w.2 ≤ s.length

def text (s : List Byte) (w : Span) : List Byte := (s.drop w.1).take (w.2 - w.1)

theorem scan_le (p : Byte → Bool) {i : Nat} (hi : i ≤ s.length) : scan p s i ≤ s.length := by
  have hle : ((s.drop i).takeWhile p).length ≤ (s.drop i).length :=
    (takeWhile_sublist p).length_le
  rw [length_drop] at hle
  rw [scan]
  omega

theorem wordAt_scan {q : Nat} (hq : q ≤ s.length) : WordAt s (q, scan isWord s q) := by
  refine ⟨Nat.le_add_right _ _, fun i h₁ h₂ => ?_, fun c hc => ?_, scan_le _ hq⟩
  · simp only [scan] at h₁ h₂
    have hlt : i - q < ((s.drop q).takeWhile isWord).length := by omega
    have hget : s[i]? = some (((s.drop q).takeWhile isWord).get ⟨i - q, hlt⟩) := by
      have hsame : (((s.drop q).takeWhile isWord) ++ (s.drop q).dropWhile isWord)[i - q]? =
          ((s.drop q).takeWhile isWord)[i - q]? := getElem?_append_left hlt
      rw [takeWhile_append_dropWhile, getElem?_drop, Nat.add_sub_cancel' h₁] at hsame
      rw [hsame]
      exact getElem?_eq_getElem hlt
    exact ⟨_, hget, all_eq_true.mp all_takeWhile _ (get_mem _ _)⟩
  · have hnot := head?_dropWhile_not isWord (s.drop q)
    rw [← drop_scan, head?_drop] at hnot
    simp only at hc
    rw [hc] at hnot
    exact hnot

theorem text_scan (q : Nat) : text s (q, scan isWord s q) = (s.drop q).takeWhile isWord := by
  simp only [text, scan, Nat.add_sub_cancel_left]
  exact (prefix_iff_eq_take.mp ( takeWhile_prefix isWord)).symm

theorem mem_symbols : c ∈ symbols ↔
    c ∈ [chr '|', chr '(', chr ')', chr ';', chr '&', chr '<'] ∨ c = chr '>' := by
  simp only [symbols, mem_cons, not_mem_nil, or_false]
  grind

theorem not_symbol_of_word (h : isWord c = true) : c ∉ symbols := by
  unfold isWord at h
  rw [Bool.and_eq_true, Bool.not_eq_true', Bool.not_eq_true', strchr, strchr,
    decide_eq_false_iff_not, decide_eq_false_iff_not] at h
  exact h.2

theorem tokens_ne_nil (cs : List Byte) (hwhite : isWhite c = false) :
    tokens (c :: cs) ≠ [] := by
  by_cases hword : isWord c = true
  · rw [tokens_run (fun c' hc' => by rw [← Option.some.inj hc']; exact hword)
      (cons_ne_nil _ _)]
    exact cons_ne_nil _ _
  · rw [tokens_symbol cs (Bool.not_eq_true _ ▸ hword) hwhite]
    split <;> exact cons_ne_nil _ _

def Token.code : Token → Byte
  | bar => chr '|'
  | lparen => chr '('
  | rparen => chr ')'
  | semi => chr ';'
  | amp => chr '&'
  | lt => chr '<'
  | gt => chr '>'
  | gtgt => chr '+'
  | word _ => chr 'a'

theorem Token.code_ne_zero (t : Token) : t.code ≠ 0 := by
  cases t with
  | word w => exact (by decide : chr 'a' ≠ 0)
  | _ => decide

/-- The symbol a token starts with, if it is not a word. -/
def Token.symbol : Token → Option Byte
  | bar => some (chr '|')
  | lparen => some (chr '(')
  | rparen => some (chr ')')
  | semi => some (chr ';')
  | amp => some (chr '&')
  | lt => some (chr '<')
  | gt => some (chr '>')
  | gtgt => some (chr '>')
  | word _ => none

theorem gettoken_nil (hs : 0 ∉ s) (hp : p ≤ s.length) (h : tokens (s.drop p) = []) :
    (gettoken s p).tok = 0 ∧ (gettoken s p).ps ≤ s.length ∧
      tokens (s.drop (gettoken s p).ps) = [] := by
  have hq : scan isWhite s p ≤ s.length := scan_le _ hp
  rw [← tokens_skip] at h
  rcases front hs p with hnil | ⟨c, cs, hcons, -, hwhite⟩
  · have hget : s.getD (scan isWhite s p) 0 = 0 := by
      rw [getD_eq_head, hnil]
      rfl
    unfold gettoken
    simp only [hget, if_true]
    exact ⟨trivial, scan_le _ hq, by rw [tokens_skip]; exact h⟩
  · rw [hcons] at h
    exact absurd h (tokens_ne_nil cs hwhite)

theorem gettoken_symbol (hget : s.getD (scan isWhite s p) 0 = c)
    (hc : c ∈ [chr '|', chr '(', chr ')', chr ';', chr '&', chr '<']) :
    gettoken s p = { tok := c, span := (scan isWhite s p, scan isWhite s p + 1),
                     ps := scan isWhite s (scan isWhite s p + 1) } := by
  have h0 : c ≠ 0 := by
    intro he
    rw [he] at hc
    revert hc
    decide
  have hstr : strchr [chr '|', chr '(', chr ')', chr ';', chr '&', chr '<'] c = true :=
    decide_eq_true hc
  unfold gettoken
  simp only [hget, if_neg h0, hstr, if_true]

theorem gettoken_cons (hs : 0 ∉ s) (hp : p ≤ s.length) {t : Token} {ts : List Token}
    (h : tokens (s.drop p) = t :: ts) :
    (gettoken s p).tok = t.code ∧ (gettoken s p).ps ≤ s.length ∧
      tokens (s.drop (gettoken s p).ps) = ts ∧
      ∀ w, t = .word w → WordAt s (gettoken s p).span ∧ text s (gettoken s p).span = w := by
  have hq : scan isWhite s p ≤ s.length := scan_le _ hp
  rw [← tokens_skip] at h
  rcases front hs p with hnil | ⟨c, cs, hcons, hc0, hwhite⟩
  · rw [hnil] at h
    exact nomatch h
  have hget : s.getD (scan isWhite s p) 0 = c := by
    rw [getD_eq_head, hcons]
    rfl
  have hdrop : s.drop (scan isWhite s p + 1) = cs := by
    rw [← drop_drop, hcons]
    rfl
  have hlen : (s.drop (scan isWhite s p)).length = cs.length + 1 := by
    rw [hcons]
    rfl
  rw [length_drop] at hlen
  by_cases hword : isWord c = true
  · -- A word goes on as far as the bytes of words do.
    have hnot := not_symbol_of_word hword
    have h₁ : strchr [chr '|', chr '(', chr ')', chr ';', chr '&', chr '<'] c = false := by
      exact decide_eq_false (fun hm => hnot (mem_symbols.mpr (Or.inl hm)))
    have h₂ : c ≠ chr '>' := by
      exact fun he => hnot (mem_symbols.mpr (Or.inr he))
    rw [tokens_run (fun c' hc' => by
      rw [hcons] at hc'
      rw [← Option.some.inj hc']
      exact hword) (by rw [hcons]; exact cons_ne_nil _ _), cons.injEq] at h
    unfold gettoken
    simp only [hget, if_neg hc0, h₁, if_neg h₂, Bool.false_eq_true, if_false]
    refine ⟨by rw [← h.1]; rfl, scan_le _ (scan_le _ hq), ?_, fun w hw => ⟨wordAt_scan hq, ?_⟩⟩
    · rw [tokens_skip, drop_scan]
      exact h.2
    · rw [text_scan]
      rw [← h.1] at hw
      exact Token.word.inj hw
  · have hsym := symbol_of hwhite (Bool.not_eq_true _ ▸ hword)
    rw [hcons, tokens_symbol cs (Bool.not_eq_true _ ▸ hword) hwhite] at h
    by_cases hgt : c = chr '>'
    · -- The byte after it decides between `>` and `>>`.
      have h₁ : strchr [chr '|', chr '(', chr ')', chr ';', chr '&', chr '<'] c = false := by
        rw [hgt]
        decide
      have hnext : s.getD (scan isWhite s p + 1) 0 = cs.head?.getD 0 := by
        rw [getD_eq_head, hdrop]
      unfold gettoken
      simp only [hget, if_neg hc0, h₁, if_pos hgt, Bool.false_eq_true, if_false, hnext]
      by_cases hgg : cs.head? = some (chr '>')
      · rw [if_pos ⟨hgt, hgg⟩, cons.injEq] at h
        rw [if_pos (by rw [hgg]; rfl)]
        have hcs : cs = chr '>' :: cs.tail := by
          cases cs with
          | nil => exact nomatch hgg
          | cons c' cs' => rw [← Option.some.inj hgg]; rfl
        have hdrop' : s.drop (scan isWhite s p + 2) = cs.tail := by
          rw [← hdrop, tail_drop]
        rw [hcs, length_cons] at hlen
        refine ⟨by rw [← h.1]; rfl, scan_le _ (by omega), ?_, fun w hw => ?_⟩
        · rw [tokens_skip, hdrop']
          exact h.2
        · rw [← h.1] at hw
          exact nomatch hw
      · have hne : ¬cs.head?.getD 0 = chr '>' := by
          cases cs with
          | nil => decide
          | cons c' cs' => exact fun he => hgg (congrArg some he)
        rw [if_neg (fun h => hgg h.2), cons.injEq, hgt] at h
        rw [if_neg hne, hgt]
        refine ⟨by rw [← h.1]; rfl, scan_le _ (by omega), ?_, fun w hw => ?_⟩
        · rw [tokens_skip, hdrop]
          exact h.2
        · rw [← h.1] at hw
          exact nomatch hw
    · rw [if_neg (fun h => hgt h.1), cons.injEq] at h
      have hc := (mem_symbols.mp hsym).resolve_right hgt
      have hcode : (Token.ofSymbol c).code = c ∧ ∀ w, Token.ofSymbol c ≠ .word w := by
        simp only [mem_cons, not_mem_nil, or_false] at hc
        rcases hc with rfl | rfl | rfl | rfl | rfl | rfl <;> exact ⟨rfl, nofun⟩
      rw [gettoken_symbol hget hc]
      refine ⟨by rw [← h.1]; exact hcode.1.symm, scan_le _ (by omega), ?_, fun w hw => ?_⟩
      · rw [tokens_skip, hdrop]
        exact h.2
      · rw [← h.1] at hw
        exact absurd hw (hcode.2 w)

/-- `peek` tells whether the first token that is left starts with one of these symbols,
    and takes nothing. -/
theorem peek_spec (hs : 0 ∉ s) (hp : p ≤ s.length) (toks : List Byte)
    (htoks : ∀ c ∈ toks, c ∈ symbols) :
    (peek s p toks).1 = (tokens (s.drop p)).head?.any
        (fun t => t.symbol.any (fun c => strchr toks c)) ∧
      (peek s p toks).2 ≤ s.length ∧ tokens (s.drop (peek s p toks).2) = tokens (s.drop p) := by
  have hq : scan isWhite s p ≤ s.length := scan_le _ hp
  refine ⟨?_, hq, tokens_skip s p⟩
  rw [← tokens_skip]
  unfold peek
  simp only
  rcases front hs p with hnil | ⟨c, cs, hcons, hc0, hwhite⟩
  · have hget : s.getD (scan isWhite s p) 0 = 0 := by
      rw [getD_eq_head, hnil]
      rfl
    rw [hget, hnil]
    rfl
  have hget : s.getD (scan isWhite s p) 0 = c := by
    rw [getD_eq_head, hcons]
    rfl
  rw [hget, hcons, decide_eq_true hc0, Bool.true_and]
  by_cases hword : isWord c = true
  · rw [tokens_run (fun c' hc' => by rw [← Option.some.inj hc']; exact hword)
      (cons_ne_nil _ _)]
    exact decide_eq_false (fun hm => not_symbol_of_word hword (htoks c hm))
  · have hsym := symbol_of hwhite (Bool.not_eq_true _ ▸ hword)
    rw [tokens_symbol cs (Bool.not_eq_true _ ▸ hword) hwhite]
    split
    · rename_i hgg
      rw [hgg.1]
      rfl
    · have hsymbol : (Token.ofSymbol c).symbol = some c := by
        simp only [symbols, mem_cons, not_mem_nil, or_false] at hsym
        rcases hsym with rfl | rfl | rfl | rfl | rfl | rfl | rfl <;> rfl
      simp only [head?_cons, Option.any_some, hsymbol]

end Lexing

/-- The words of a tree. -/
def Cmd.words {W : Type} : Cmd W → List W
  | exec argv => argv
  | redir cmd file _ _ => file :: cmd.words
  | pipe left right => left.words ++ right.words
  | list left right => left.words ++ right.words
  | back cmd => cmd.words

section Trees

variable {W W' : Type}

theorem Cmd.map_addArg (f : W → W') (w : W) (cmd : Cmd W) :
    (cmd.addArg w).map f = (cmd.map f).addArg (f w) := by
  induction cmd with
  | exec argv => simp only [addArg, Cmd.map, map_append, map_cons, map_nil]
  | redir cmd file mode fd ih => simp only [addArg, Cmd.map, ih]
  | _ => rfl

theorem Cmd.mem_words_addArg {w v : W} {cmd : Cmd W} (h : v ∈ (cmd.addArg w).words) :
    v = w ∨ v ∈ cmd.words := by
  induction cmd with
  | exec argv =>
    rcases mem_append.mp h with h | h
    · exact Or.inr h
    · exact Or.inl (mem_singleton.mp h)
  | redir cmd file mode fd ih =>
    rcases mem_cons.mp h with h | h
    · exact Or.inr (h ▸ mem_cons_self)
    · exact (ih h).imp_right (mem_cons_of_mem _)
  | _ => exact Or.inr h

theorem Cmd.addArg_wrap (cmd : Cmd W) (w : W) (r : Redir W) :
    (cmd.wrap r).addArg w = (cmd.addArg w).wrap r := by
  unfold wrap
  cases r.op <;> rfl

theorem Cmd.addArg_wraps (cmd : Cmd W) (w : W) (rs : List (Redir W)) :
    (cmd.wraps rs).addArg w = (cmd.addArg w).wraps rs := by
  induction rs generalizing cmd with
  | nil => rfl
  | cons r rs ih =>
    change ((cmd.wrap r).wraps rs).addArg w = ((cmd.addArg w).wrap r).wraps rs
    rw [ih, addArg_wrap]

theorem Cmd.wraps_append (cmd : Cmd W) (rs rs' : List (Redir W)) :
    cmd.wraps (rs ++ rs') = (cmd.wraps rs).wraps rs' :=
  foldl_append

end Trees

/-- A tree of pointers shows a tree of words. -/
structure Reads (s : List Byte) (cmd : Cmd Span) (tree : Cmd (List Byte)) : Prop where
  text : cmd.map (text s) = tree
  words : ∀ w ∈ cmd.words, WordAt s w

/-- Two parsers end alike: with a cursor before the tokens that are left, and related
    results, or with the same fault. -/
def Agree {α β : Type} (s : List Byte) (R : α → β → Prop) :
    Outcome Fault (α × Nat) → Outcome Fault (β × List Token) → Prop :=
  Outcome.Both (fun x y => R x.1 y.1 ∧ x.2 ≤ s.length ∧ tokens (s.drop x.2) = y.2)

section Agree

variable {s : List Byte} {t₁ t₂ : Cmd (List Byte)}

theorem reads_redir {cmd : Cmd Span} {tree : Cmd (List Byte)} (h : Reads s cmd tree) (op : RedirOp)
    {w : Span} (hw : WordAt s w) :
    Reads s (redircmd cmd op.token.code w) (tree.wrap { op := op, file := Sh.text s w }) := by
  rcases h with ⟨rfl, hwords⟩
  have hall : ∀ v ∈ w :: cmd.words, WordAt s v := by
    intro v hv
    rcases mem_cons.mp hv with rfl | hv
    · exact hw
    · exact hwords v hv
  cases op with
  | input | output | append => exact ⟨rfl, hall⟩

theorem peek_redir (hs : 0 ∉ s) (hp : p ≤ s.length) :
    (peek s p [chr '<', chr '>']).1 = ((tokens (s.drop p)).head?.bind Token.redirOp).isSome := by
  rw [(peek_spec hs hp _ (by decide)).1]
  cases (tokens (s.drop p)).head? with
  | none => rfl
  | some t => cases t <;> rfl

theorem peek_ends (hs : 0 ∉ s) (hp : p ≤ s.length) :
    (peek s p [chr '|', chr ')', chr '&', chr ';']).1 =
      (tokens (s.drop p)).head?.any Token.ends := by
  rw [(peek_spec hs hp _ (by decide)).1]
  cases (tokens (s.drop p)).head? with
  | none => rfl
  | some t => cases t <;> rfl

theorem peek_token (hs : 0 ∉ s) (hp : p ≤ s.length) {ts : List Token}
    (hts : tokens (s.drop p) = ts) (t : Token) (c : Byte) (hc : c ∈ symbols := by decide)
    (ht : ∀ t' : Token, t'.symbol.any (fun c' => strchr [c] c') = decide (t' = t) := by
      intro t'; cases t' <;> rfl) :
    (peek s p [c]).1 = decide (ts.head? = some t) ∧ (peek s p [c]).2 ≤ s.length ∧
      tokens (s.drop (peek s p [c]).2) = ts ∧ (ts.head? = some t →
        (gettoken s (peek s p [c]).2).ps ≤ s.length ∧
          tokens (s.drop (gettoken s (peek s p [c]).2).ps) = ts.tail) := by
  rcases peek_spec hs hp [c] (fun c' hc' => by rw [mem_singleton.mp hc']; exact hc) with
    ⟨hpeek, hk, htok⟩
  rw [hts] at hpeek htok
  refine ⟨?_, hk, htok, fun h => ?_⟩
  · rw [hpeek]
    cases ts.head? with
    | none => rfl
    | some t' =>
      rw [Option.any_some, ht t']
      simp only [Option.some.injEq]
  · have hg := gettoken_cons hs hk (htok.trans (cons_of_head h))
    exact ⟨hg.2.1, hg.2.2.1⟩

theorem agree_redirs (hs : 0 ∉ s) (fuel : Nat) (cmd : Cmd Span) (tree : Cmd (List Byte)) (p : Nat)
    (hp : p ≤ s.length) (h : Reads s cmd tree) :
    Agree s (fun c rs => Reads s c (tree.wraps rs)) (parseredirs s fuel cmd p)
      (redirs fuel (tokens (s.drop p))) := by
  induction fuel generalizing cmd tree p with
  | zero => trivial
  | succ fuel ih =>
    unfold parseredirs redirs
    have hpeek := peek_redir hs hp
    rcases (peek_spec hs hp [chr '<', chr '>'] (by decide)).2 with ⟨hk, htok⟩
    cases hop : (tokens (s.drop p)).head?.bind Token.redirOp with
    | none =>
      rw [hop] at hpeek
      simp only [hpeek, Option.isSome_none, Bool.false_eq_true, if_false]
      exact ⟨h, hk, htok⟩
    | some op =>
      rw [hop] at hpeek
      simp only [hpeek, Option.isSome_some, if_true]
      have hcons := cons_of_redirOp hop
      rw [← htok] at hcons
      rcases gettoken_cons hs hk hcons with ⟨hcode, hps, hrest, -⟩
      rw [htok] at hrest
      cases hnext : (tokens (s.drop p)).tail with
      | nil =>
        rw [hnext] at hrest
        have hw := gettoken_nil hs hps hrest
        rw [if_pos (by rw [hw.1]; decide)]
        exact rfl
      | cons t ts =>
        rw [hnext] at hrest
        rcases gettoken_cons hs hps hrest with ⟨hwcode, hwps, hwrest, hword⟩
        cases t with
        | word w =>
          rcases hword w rfl with ⟨hat, htext⟩
          rw [if_neg (by rw [hwcode]; exact fun hne => hne rfl)]
          have hr := reads_redir h op hat
          rw [← hcode, htext] at hr
          have hih := ih _ _ _ hwps hr
          rw [hwrest] at hih
          exact Outcome.Both.map_right _ hih
        | _ =>
          rw [if_pos (by rw [hwcode]; decide)]
          exact rfl

theorem reads_addArg {cmd : Cmd Span} {tree : Cmd (List Byte)} (h : Reads s cmd tree) {w : Span}
    (hw : WordAt s w) : Reads s (cmd.addArg w) (tree.addArg (Sh.text s w)) := by
  rcases h with ⟨rfl, hwords⟩
  refine ⟨Cmd.map_addArg _ w cmd, fun v hv => ?_⟩
  rcases Cmd.mem_words_addArg hv with rfl | hv
  · exact hw
  · exact hwords v hv

/-- The arguments so far are `argv`, with the redirections `rs` around them. -/
theorem agree_args (hs : 0 ∉ s) (fuel argc : Nat) (ret : Cmd Span) (argv : List (List Byte))
    (rs : List (Redir (List Byte))) (p : Nat) (hp : p ≤ s.length)
    (h : Reads s ret ((Cmd.exec argv).wraps rs)) :
    Agree s (fun c as => Reads s c
        ((Cmd.exec (argv ++ as.map Prod.fst)).wraps (rs ++ as.flatMap Prod.snd)))
      (parseargs s fuel argc ret p) (args fuel argc (tokens (s.drop p))) := by
  induction fuel generalizing argc ret argv rs p with
  | zero => trivial
  | succ fuel ih =>
    unfold parseargs args
    have hpeek := peek_ends hs hp
    rcases (peek_spec hs hp [chr '|', chr ')', chr '&', chr ';'] (by decide)).2 with ⟨hk, htok⟩
    have hsame : Reads s ret ((Cmd.exec (argv ++ map Prod.fst
        ([] : List (List Byte × List (Redir (List Byte)))))).wraps
        (rs ++ flatMap Prod.snd ([] : List (List Byte × List (Redir (List Byte)))))) := by
      rw [map_nil, append_nil, flatMap_nil, append_nil]
      exact h
    by_cases hends : (tokens (s.drop p)).head?.any Token.ends = true
    · rw [hends] at hpeek
      simp only [hpeek, hends, if_true]
      exact ⟨hsame, hk, htok⟩
    · rw [Bool.not_eq_true] at hends
      rw [hends] at hpeek
      simp only [hpeek, hends, Bool.false_eq_true, if_false]
      cases hl : tokens (s.drop p) with
      | nil =>
        rcases gettoken_nil hs hk (htok.trans hl) with ⟨hcode, hps, hrest⟩
        rw [if_pos hcode]
        exact ⟨hsame, hps, hrest⟩
      | cons t ts =>
        rcases gettoken_cons hs hk (htok.trans hl) with ⟨hcode, hps, hrest, hword⟩
        rw [hcode, if_neg t.code_ne_zero]
        cases t with
        | word w =>
          rcases hword w rfl with ⟨hat, htext⟩
          rw [if_neg (fun hne => hne rfl)]
          by_cases hmax : MAXARGS ≤ argc + 1
          · simp only [if_pos hmax, head?_cons]
            exact rfl
          · simp only [if_neg hmax, head?_cons, tail_cons]
            have hadd := reads_addArg h hat
            rw [htext, Cmd.addArg_wraps] at hadd
            have hr := agree_redirs hs fuel _ _ _ hps hadd
            rw [hrest] at hr
            refine hr.bind (fun x y hxy => ?_)
            rcases hxy with ⟨hread, hx, htoks⟩
            rw [← Cmd.wraps_append] at hread
            have hih := ih (argc + 1) x.1 (argv ++ [w]) (rs ++ y.1) x.2 hx hread
            simp only [htoks, append_assoc] at hih
            exact Outcome.Both.map_right _ hih
        | bar | rparen | amp | semi => rw [hl] at hends; exact nomatch hends
        | _ =>
          rw [if_pos (by decide)]
          exact rfl

theorem agree_backs (hs : 0 ∉ s) (fuel : Nat) (cmd : Cmd Span) (tree : Cmd (List Byte)) (p : Nat)
    (hp : p ≤ s.length) (h : Reads s cmd tree) :
    Agree s (fun c n => Reads s c (tree.backs n)) (parsebacks s fuel cmd p)
      (amps fuel (tokens (s.drop p))) := by
  induction fuel generalizing cmd tree p with
  | zero => trivial
  | succ fuel ih =>
    unfold parsebacks amps
    rcases peek_token hs hp rfl .amp (chr '&') with ⟨hpeek, hk, htok, htake⟩
    simp only [hpeek, decide_eq_true_eq]
    split
    · rename_i hamp
      rcases htake hamp with ⟨hps, hrest⟩
      have hih := ih (.back cmd) (.back tree) _ hps ⟨by rw [← h.text]; rfl, h.words⟩
      rw [hrest] at hih
      exact Outcome.Both.map_right _ hih
    · exact ⟨h, hk, htok⟩

/-- The two parsers agree at one amount of fuel. -/
structure AgreeAt (s : List Byte) (fuel : Nat) : Prop where
  line : ∀ p ≤ s.length, Agree s (fun c (l : Line) => Reads s c l.tree)
    (parseline s fuel p) (line fuel (tokens (s.drop p)))
  pipe : ∀ p ≤ s.length, Agree s (fun c (l : Pipe) => Reads s c l.tree)
    (parsepipe s fuel p) (pipe fuel (tokens (s.drop p)))
  block : ∀ p ≤ s.length, Agree s (fun c (e : Exec) => Reads s c e.tree)
    (parseblock s fuel p) (block fuel (tokens (s.drop p)))
  exec : ∀ p ≤ s.length, Agree s (fun c (e : Exec) => Reads s c e.tree)
    (parseexec s fuel p) (exec fuel (tokens (s.drop p)))

theorem reads_words {s : List Byte} {left right : Cmd Span} (h₁ : Reads s left t₁)
    (h₂ : Reads s right t₂) :
    ∀ w ∈ left.words ++ right.words, WordAt s w := by
  intro w hw
  rcases mem_append.mp hw with hw | hw
  · exact h₁.words w hw
  · exact h₂.words w hw

theorem reads_list {s : List Byte} {left right : Cmd Span} (h₁ : Reads s left t₁)
    (h₂ : Reads s right t₂) : Reads s (.list left right) (.list t₁ t₂) :=
  ⟨by rw [← h₁.text, ← h₂.text]; rfl, reads_words h₁ h₂⟩

theorem reads_pipe {s : List Byte} {left right : Cmd Span} (h₁ : Reads s left t₁)
    (h₂ : Reads s right t₂) : Reads s (.pipe left right) (.pipe t₁ t₂) :=
  ⟨by rw [← h₁.text, ← h₂.text]; rfl, reads_words h₁ h₂⟩

theorem agree (hs : 0 ∉ s) (fuel : Nat) : AgreeAt s fuel := by
  induction fuel with
  | zero =>
    refine ⟨fun p _ => ?_, fun p _ => ?_, fun p _ => ?_, fun p _ => ?_⟩
    · rw [parseline, Sh.line]
      trivial
    · rw [parsepipe, Sh.pipe]
      trivial
    · rw [parseblock, Sh.block]
      trivial
    · rw [parseexec, Sh.exec]
      trivial
  | succ fuel ih =>
    refine ⟨fun p hp => ?_, fun p hp => ?_, fun p hp => ?_, fun p hp => ?_⟩
    · rw [parseline, Sh.line]
      refine (ih.pipe p hp).bind (fun x y h => ?_)
      rcases h with ⟨hx, hxp, hxt⟩
      have hb := agree_backs hs fuel x.1 _ x.2 hxp hx
      rw [hxt] at hb
      refine hb.bind (fun x' y' h' => ?_)
      rcases h' with ⟨hx', hxp', hxt'⟩
      rcases peek_token hs hxp' hxt' .semi (chr ';') with ⟨hpeek, hk, htok, htake⟩
      simp only [hpeek, decide_eq_true_eq]
      split
      · rename_i hsemi
        rcases htake hsemi with ⟨hps, hrest⟩
        have hl := ih.line _ hps
        rw [hrest] at hl
        exact hl.bind (fun a b h => ⟨reads_list hx' h.1, h.2.1, h.2.2⟩)
      · exact ⟨hx', hk, htok⟩
    · rw [parsepipe, Sh.pipe]
      refine (ih.exec p hp).bind (fun x y h => ?_)
      rcases h with ⟨hx, hxp, hxt⟩
      rcases peek_token hs hxp hxt .bar (chr '|') with ⟨hpeek, hk, htok, htake⟩
      simp only [hpeek, decide_eq_true_eq]
      split
      · rename_i hbar
        rcases htake hbar with ⟨hps, hrest⟩
        have hl := ih.pipe _ hps
        rw [hrest] at hl
        exact hl.bind (fun a b h => ⟨reads_pipe hx h.1, h.2.1, h.2.2⟩)
      · exact ⟨hx, hk, htok⟩
    · rw [parseblock, Sh.block]
      rcases peek_token hs hp rfl .lparen (chr '(') with ⟨hpeek, -, -, htake⟩
      by_cases hopen : (tokens (s.drop p)).head? = some .lparen
      · simp only [hpeek, hopen, decide_true, Bool.not_true, Bool.false_eq_true, if_true, if_false]
        rcases htake hopen with ⟨hps, hrest⟩
        have hl := ih.line _ hps
        rw [hrest] at hl
        refine hl.bind (fun x y h => ?_)
        rcases h with ⟨hx, hxp, hxt⟩
        rcases peek_token hs hxp hxt .rparen (chr ')') with ⟨hpeek', -, -, htake'⟩
        by_cases hclose : y.2.head? = some .rparen
        · simp only [hpeek', hclose, decide_true, Bool.not_true, Bool.false_eq_true, if_true,
            if_false]
          rcases htake' hclose with ⟨hps', hrest'⟩
          have hr := agree_redirs hs fuel _ _ _ hps' hx
          rw [hrest'] at hr
          exact Outcome.Both.map_right _ hr
        · simp only [hpeek', hclose, decide_false, Bool.not_false, if_true, if_false]
          exact rfl
      · simp only [hpeek, hopen, decide_false, Bool.not_false, if_true, if_false]
        exact rfl
    · rw [parseexec, Sh.exec]
      rcases peek_token hs hp rfl .lparen (chr '(') with ⟨hpeek, hk, htok, -⟩
      simp only [hpeek, decide_eq_true_eq]
      split
      · have hb := ih.block _ hk
        rw [htok] at hb
        exact hb
      · have hempty : Reads s (.exec []) (.exec []) := ⟨rfl, by rintro _ ⟨⟩⟩
        have hr := agree_redirs hs fuel _ _ _ hk hempty
        rw [htok] at hr
        refine hr.bind (fun x y h => ?_)
        rcases h with ⟨hx, hxp, hxt⟩
        have ha := agree_args hs fuel 0 x.1 [] y.1 x.2 hxp hx
        rw [hxt] at ha
        exact Outcome.Both.map_right _ ha

end Agree

section Strings

variable {s : List Byte}

/-- What `nulterminate` writes: zeros at the ends of words. -/
structure Nulled (mem mem' : List Byte) (ws : List Span) : Prop where
  length : mem'.length = mem.length
  zero : ∀ w ∈ ws, w.2 < mem.length → mem'[w.2]? = some 0
  other : ∀ i, (∀ w ∈ ws, w.2 ≠ i) → mem'[i]? = mem[i]?

theorem Nulled.nil (mem : List Byte) : Nulled mem mem [] := ⟨rfl, nofun, fun _ _ => rfl⟩

theorem Nulled.set {mem mem' : List Byte} {ws : List Span} (h : Nulled mem mem' ws) (w : Span) :
    Nulled mem (mem'.set w.2 0) (w :: ws) := by
  refine ⟨by rw [length_set, h.length], fun v hv hlt => ?_, fun i hi => ?_⟩
  · by_cases hvw : w.2 = v.2
    · rw [← hvw]
      exact getElem?_set_self (by rw [h.length, hvw]; exact hlt)
    · rw [getElem?_set_ne hvw]
      rcases mem_cons.mp hv with rfl | hv
      · exact absurd rfl hvw
      · exact h.zero v hv hlt
  · rw [getElem?_set_ne (hi w mem_cons_self)]
    exact h.other i (fun v hv => hi v (mem_cons_of_mem w hv))

theorem Nulled.trans {mem mem₁ mem₂ : List Byte} {ws vs : List Span} (h : Nulled mem mem₁ ws)
    (h' : Nulled mem₁ mem₂ vs) : Nulled mem mem₂ (ws ++ vs) := by
  refine ⟨h'.length.trans h.length, fun w hw hlt => ?_, fun i hi => ?_⟩
  · by_cases hv : ∃ v ∈ vs, v.2 = w.2
    · rcases hv with ⟨v, hv, hvw⟩
      rw [← hvw]
      exact h'.zero v hv (by rw [h.length, hvw]; exact hlt)
    · rcases mem_append.mp hw with hw | hw
      · rw [h'.other _ (fun v hv' he => hv ⟨v, hv', he⟩)]
        exact h.zero w hw hlt
      · exact absurd ⟨w, hw, rfl⟩ hv
  · rw [h'.other i (fun v hv => hi v (mem_append_right _ hv)),
      h.other i (fun w hw => hi w (mem_append_left _ hw))]

theorem nulled_argv (argv : List Span) (mem : List Byte) :
    Nulled mem (argv.foldl (fun mem w => mem.set w.2 0) mem) argv := by
  induction argv generalizing mem with
  | nil => exact .nil mem
  | cons w argv ih => exact ((Nulled.nil mem).set w).trans (ih _)

theorem nulled (cmd : Cmd Span) (mem : List Byte) :
    Nulled mem (nulterminate cmd mem) cmd.words := by
  induction cmd generalizing mem with
  | exec argv => exact nulled_argv argv mem
  | redir cmd file mode fd ih => exact (ih mem).set file
  | pipe left right ihl ihr | list left right ihl ihr => exact (ihl mem).trans (ihr _)
  | back cmd ih => exact ih mem

theorem cstring_eq (mem a : List Byte) (q : Nat) (ha : 0 ∉ a)
    (h : ∀ i, i < a.length → mem[q + i]? = a[i]?) (hend : mem[q + a.length]? = some 0) :
    cstring mem q = a := by
  have hsplit : ∀ {q : Nat} {c : Byte}, mem[q]? = some c → mem.drop q = c :: mem.drop (q + 1) := by
    intro q c hc
    rcases List.getElem?_eq_some_iff.mp hc with ⟨hlt, hget⟩
    rw [drop_eq_getElem_cons hlt, hget]
  induction a generalizing q with
  | nil =>
    rw [cstring, hsplit (show mem[q]? = some 0 from hend)]
    rfl
  | cons c a ih =>
    have hc : c ≠ 0 := fun he => ha (he ▸ mem_cons_self)
    have h0 := h 0 (Nat.zero_lt_succ _)
    have hih := ih (q + 1) (fun hm => ha (mem_cons_of_mem c hm))
      (fun i hi => by
        have hi' := h (i + 1) (Nat.succ_lt_succ hi)
        rw [Nat.add_right_comm, Nat.add_assoc]
        exact hi')
      (by
        rw [Nat.add_right_comm, Nat.add_assoc]
        exact hend)
    rw [cstring] at hih ⊢
    have hc' : decide (c ≠ 0) = true := decide_eq_true hc
    rw [hsplit (show mem[q]? = some c from h0), takeWhile_cons, if_pos hc', hih]

theorem Cmd.map_congr {W W' : Type} {f g : W → W'} {cmd : Cmd W}
    (h : ∀ w ∈ cmd.words, f w = g w) : cmd.map f = cmd.map g := by
  induction cmd with
  | exec argv => exact congrArg exec (map_congr_left h)
  | redir cmd file mode fd ih =>
    simp only [Cmd.map, ih (fun w hw => h w (mem_cons_of_mem _ hw)),
      h file mem_cons_self]
  | pipe left right ihl ihr | list left right ihl ihr =>
    simp only [Cmd.map, ihl (fun w hw => h w (mem_append_left _ hw)),
      ihr (fun w hw => h w (mem_append_right _ hw))]
  | back cmd ih => simp only [Cmd.map, ih h]

/-- After `nulterminate` the pointers point to the words. The zeros are written to bytes
    that are in no word, so none of them cuts a word short. -/
theorem strings_nulterminate (hs : 0 ∉ s) {cmd : Cmd Span} {tree : Cmd (List Byte)}
    (h : Reads s cmd tree) : cmd.strings (nulterminate cmd (s ++ [0])) = tree := by
  have hn := nulled cmd (s ++ [0])
  rw [← h.text]
  refine Cmd.map_congr (fun w hw => ?_)
  have hat := h.words w hw
  have hlen : (Sh.text s w).length = w.2 - w.1 := by
    rw [Sh.text, length_take, length_drop]
    have := hat.len
    omega
  refine cstring_eq _ _ _ (fun hm => hs ?_) (fun i hi => ?_) ?_
  · exact mem_of_mem_drop (mem_of_mem_take hm)
  · rw [hlen] at hi
    rcases hat.word (w.1 + i) (Nat.le_add_right _ _) (by omega) with ⟨c, hc, hword⟩
    have hother := hn.other (w.1 + i) (fun v hv he => by
      have hstop := (h.words v hv).stop c (by rw [he]; exact hc)
      rw [hword] at hstop
      exact nomatch hstop)
    have hlt : w.1 + i < s.length := by
      have := hat.len
      omega
    rw [hother, getElem?_append_left hlt, Sh.text, getElem?_take_of_lt hi,
      getElem?_drop]
  · rw [hlen, Nat.add_sub_cancel' hat.le]
    refine hn.zero w hw ?_
    rw [length_append, length_singleton]
    exact Nat.lt_succ_of_le hat.len

theorem length_tokensFrom (w l : List Byte) : (tokensFrom w l).length ≤ l.length +
    (flush w).length := by
  have hflush : ∀ v : List Byte, (flush v).length ≤ 1 := by
    intro v
    unfold flush
    split
    · exact Nat.zero_le 1
    · exact Nat.le_refl 1
  have hnil : (flush []).length = 0 := rfl
  fun_induction tokensFrom w l with
  | case1 w => exact Nat.le_add_left _ _
  | case2 w c cs h ih =>
    have hle := hflush (w ++ [c])
    rw [length_cons]
    omega
  | case3 w c cs h₁ h₂ ih =>
    rw [length_append, length_cons]
    omega
  | case4 w c h₁ h₂ =>
    rw [length_append, length_singleton, length_singleton]
    omega
  | case5 w c h₁ h₂ c' cs h ih =>
    rw [length_append, length_cons, length_cons, length_cons]
    omega
  | case6 w c h₁ h₂ c' cs h ih =>
    rw [length_append, length_cons, length_cons (a := c)]
    omega

theorem length_tokens (l : List Byte) : (tokens l).length ≤ l.length := length_tokensFrom [] l

theorem parsecmd_agree (hs : 0 ∉ s) (fuel : Nat) :
    Outcome.Both (fun r (l : Line) => r.1.strings r.2 = l.tree) (parsecmd fuel s)
      (line fuel (tokens s) >>= fun r => if r.2 = [] then pure r.1 else .panic .leftovers) := by
  have hline := (agree hs fuel).line 0 (Nat.zero_le _)
  rw [drop_zero] at hline
  unfold parsecmd
  refine hline.bind (fun x y ⟨hread, hp, htok⟩ => ?_)
  have hq : scan isWhite s x.2 ≤ s.length := scan_le _ hp
  have hend : (peek s x.2 []).2 = s.length ↔ y.2 = [] := by
    change scan isWhite s x.2 = s.length ↔ y.2 = []
    rw [← htok, ← tokens_skip]
    refine ⟨fun h => ?_, fun h => ?_⟩
    · rw [h, drop_length]
      rfl
    · rcases front hs x.2 with hnil | ⟨c, cs, hcons, -, hwhite⟩
      · exact Nat.le_antisymm hq (drop_eq_nil_iff.mp hnil)
      · rw [hcons] at h
        exact absurd h (tokens_ne_nil cs hwhite)
  by_cases hy : y.2 = []
  · simp only [if_pos hy]
    rw [if_neg (fun hne => hne (hend.mpr hy))]
    exact strings_nulterminate hs hread
  · simp only [if_neg hy]
    rw [if_pos (fun h => hy (hend.mp h))]
    exact rfl

end Strings

/-- On every text without NUL, and with fuel in proportion to its length, `parsecmd`
    ends. It returns a tree if and only if the tokens of the text have a derivation.
    There is one derivation at most, and the tree is the one it stands for, with the
    texts of the words for the strings. -/
theorem parsecmd_grammar (s : List Byte) (hs : 0 ∉ s) (fuel : Nat)
    (hfuel : 4 * s.length + 8 ≤ fuel) :
    parsecmd fuel s ≠ .wait ∧
    ((∃ r, parsecmd fuel s = .done r) ↔ ∃ l : Line, l.Ok ∧ l.yield = tokens s) ∧
    (∀ l l' : Line, l.Ok → l'.Ok → l.yield = tokens s → l'.yield = tokens s → l = l') ∧
    ∀ l : Line, l.Ok → l.yield = tokens s →
      ∃ cmd mem, parsecmd fuel s = .done (cmd, mem) ∧ cmd.strings mem = l.tree := by
  have hlen := length_tokens s
  have hagree := parsecmd_agree hs fuel
  have hhalts := (haltsAt fuel).line (tokens s) (by omega)
  -- A derivation is found, so the tree is the one of the derivation.
  have hfound : ∀ l : Line, l.Ok → l.yield = tokens s →
      ∃ cmd mem, parsecmd fuel s = .done (cmd, mem) ∧ cmd.strings mem = l.tree := by
    intro l hok hl
    rw [← hl, line_complete hok (by rw [hl]; omega)] at hagree
    cases hr : parsecmd fuel s with
    | done r =>
      rw [hr] at hagree
      exact ⟨r.1, r.2, rfl, hagree⟩
    | panic e | wait =>
      rw [hr] at hagree
      exact hagree.elim
  have hdone : ∀ r, parsecmd fuel s = .done r → ∃ l : Line, l.Ok ∧ l.yield = tokens s := by
    intro r hr
    rw [hr] at hagree
    cases hline : line fuel (tokens s) with
    | done x =>
      rw [hline] at hhalts hagree
      rw [Outcome.done_bind] at hagree
      by_cases hx : x.2 = []
      · rcases hhalts with ⟨hts, hok⟩
        rw [hx, append_nil] at hts
        exact ⟨x.1, hok, hts.symm⟩
      · rw [if_neg hx] at hagree
        exact hagree.elim
    | panic e =>
      rw [hline] at hagree
      exact hagree.elim
    | wait =>
      rw [hline] at hhalts
      exact hhalts.elim
  refine ⟨fun hwait => ?_, ⟨fun ⟨r, hr⟩ => hdone r hr, ?_⟩, fun l l' hok hok' hl hl' => ?_, hfound⟩
  · rw [hwait] at hagree
    cases hline : line fuel (tokens s) with
    | done r =>
      rw [hline, Outcome.done_bind] at hagree
      split at hagree <;> exact hagree
    | panic e =>
      rw [hline] at hagree
      exact hagree
    | wait =>
      rw [hline] at hhalts
      exact hhalts
  · rintro ⟨l, hok, hl⟩
    rcases hfound l hok hl with ⟨cmd, mem, hr, -⟩
    exact ⟨(cmd, mem), hr⟩
  · exact Line.yield_inj hok hok' (hl.trans hl'.symm)

/-- `(a>b&);c`. -/
def sample : List Byte := [40, 97, 62, 98, 38, 41, 59, 99]

theorem parsecmd_sample : ∃ cmd mem, parsecmd 40 sample = .done (cmd, mem) ∧
    cmd.strings mem = .list (.back (.redir (.exec [[97]]) [98] 0x601 1)) (.exec [[99]]) :=
  (parsecmd_grammar sample (by decide) 40 (by decide)).2.2.2
    (.list (.last (.block (.last (.last (.simple [] [([97], [⟨.output, [98]⟩])])) 1) [])) 0
      (.last (.last (.simple [] [([99], [])])) 0))
    (by simp only [Line.Ok, Pipe.Ok, Exec.Ok]; decide) (by decide)

end Xv6.Sh
