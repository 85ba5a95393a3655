import Xv6.Sh.Model
import Mathlib.Computability.Language

/-!
# The Matcher of grep

`match`, `matchhere` and `matchstar` of `user/grep.c`, and what they decide.

A string is the list of its characters before the NUL, so the source reads NUL where the
list ends. `matchstar` is given the search for what comes after the star as a function,
which is `matchhere` of the rest of the pattern; so every call is on a shorter pattern or
on a shorter text, and both functions are total by recursion on a list.

A pattern is read from the left as items. Each item is a language, the pattern is their
product, and a last `$` is not an item but says that the text has to end.

## Main definitions

* `matchstar`, `matchhere`, `matchRe`: The functions of the source.
* `items`, `Item.lang`, `lang`: The language of a pattern.
* `closed`: The pattern ends in a `$` that stands for the end of the text.
* `anchored`, `body`: The pattern starts with `^`, and what comes after it.

## Theorems

* `matchhere_iff`: `matchhere` looks for a prefix of the text.
* `match_iff_substring`: `match` looks for a substring.
-/

namespace Xv6.Grep

open Sh (chr)

/-- `c` of the pattern stands for `d` of the text. -/
def fits (c d : Byte) : Bool := c == chr '.' || c == d

/-- `matchstar`, where `here` is `matchhere` of the pattern after the star. -/
def matchstar (here : List Byte → Bool) (c : Byte) : List Byte → Bool
  | [] => here []
  | d :: text => here (d :: text) || (fits c d && matchstar here c text)

def matchhere : List Byte → List Byte → Bool
  | [], _ => true
  | [c], text =>
    if c = chr '$' then text.isEmpty
    else match text with
      | [] => false
      | d :: _ => fits c d
  | c :: c' :: re, text =>
    if c' = chr '*' then matchstar (matchhere re) c text
    else match text with
      | [] => false
      | d :: text => fits c d && matchhere (c' :: re) text

/-- The loop of `match`. -/
def matchAny (re : List Byte) : List Byte → Bool
  | [] => matchhere re []
  | d :: text => matchhere re (d :: text) || matchAny re text

def matchRe (re text : List Byte) : Bool :=
  if re.head? = some (chr '^') then matchhere re.tail text else matchAny re text

/-- A character of a pattern, alone or with a star. -/
inductive Item where
  | one (c : Byte)
  | star (c : Byte)
  deriving DecidableEq, Repr

/-- The items of a pattern without `^`, read from the left. -/
def items : List Byte → List Item
  | [] => []
  | [c] => if c = chr '$' then [] else [.one c]
  | c :: c' :: re => if c' = chr '*' then .star c :: items re else .one c :: items (c' :: re)

/-- The pattern ends in a `$` that is not followed by a star. -/
def closed : List Byte → Bool
  | [] => false
  | [c] => c == chr '$'
  | _ :: c' :: re => if c' = chr '*' then closed re else closed (c' :: re)

/-- The words of one character that `c` stands for. -/
def letter (c : Byte) : Language Byte := { w | ∃ d, w = [d] ∧ (c = chr '.' ∨ d = c) }

def Item.lang : Item → Language Byte
  | one c => letter c
  | star c => KStar.kstar (letter c)

/-- The language of a pattern without `^`. -/
def lang (re : List Byte) : Language Byte := ((items re).map Item.lang).prod

/-- A pattern is anchored if it starts with `^`; the items are those of the rest. -/
def anchored (re : List Byte) : Bool := decide (re.head? = some (chr '^'))

def body (re : List Byte) : List Byte := if anchored re then re.tail else re

theorem fits_iff (c d : Byte) : fits c d = true ↔ c = chr '.' ∨ d = c := by
  rw [fits, Bool.or_eq_true, beq_iff_eq, beq_iff_eq, eq_comm (a := d)]

theorem mem_kstar_letter (c : Byte) (w : List Byte) :
    w ∈ KStar.kstar (letter c) ↔ ∀ d ∈ w, fits c d = true := by
  rw [Language.mem_kstar]
  constructor
  · rintro ⟨l, rfl, hl⟩ d hd
    rcases List.mem_flatten.mp hd with ⟨y, hy, hdy⟩
    rcases hl y hy with ⟨e, rfl, he⟩
    rw [List.mem_singleton.mp hdy]
    exact (fits_iff c e).mpr he
  · intro h
    refine ⟨w.map (fun d => [d]), ?_, fun y hy => ?_⟩
    · rw [← List.flatMap_def, List.flatMap_singleton']
    rcases List.mem_map.mp hy with ⟨d, hd, rfl⟩
    exact ⟨d, rfl, (fits_iff c d).mp (h d hd)⟩

/-- The loop tries the rest of the pattern after each number of characters `c` stands
    for. -/
theorem matchstar_iff (here : List Byte → Bool) (c : Byte) (text : List Byte) :
    matchstar here c text = true ↔
      ∃ u t, text = u ++ t ∧ u ∈ KStar.kstar (letter c) ∧ here t = true := by
  simp only [mem_kstar_letter]
  induction text with
  | nil =>
    constructor
    · intro h
      exact ⟨[], [], rfl, nofun, h⟩
    · rintro ⟨u, t, h, -, ht⟩
      rw [(List.append_eq_nil_iff.mp h.symm).2] at ht
      exact ht
  | cons d text ih =>
    rw [matchstar, Bool.or_eq_true, Bool.and_eq_true, ih]
    constructor
    · rintro (h | ⟨hd, u, t, rfl, hu, ht⟩)
      · exact ⟨[], d :: text, rfl, nofun, h⟩
      · exact ⟨d :: u, t, rfl, List.forall_mem_cons.mpr ⟨hd, hu⟩, ht⟩
    · rintro ⟨u, t, h, hu, ht⟩
      cases u with
      | nil =>
        rw [List.nil_append] at h
        exact Or.inl (h ▸ ht)
      | cons e u =>
        rcases List.cons.inj h with ⟨rfl, rfl⟩
        rcases List.forall_mem_cons.mp hu with ⟨hd, hu⟩
        exact Or.inr ⟨hd, u, t, rfl, hu, ht⟩

/-- The text starts with a word of the pattern, and ends there if the pattern says so. -/
def Starts (re text : List Byte) : Prop :=
  ∃ w v, text = w ++ v ∧ w ∈ lang re ∧ (closed re = true → v = [])

theorem starts_cons {re re' : List Byte} {i : Item} (hi : items re = i :: items re')
    (hc : closed re = closed re') (text : List Byte) :
    Starts re text ↔ ∃ u t, text = u ++ t ∧ u ∈ i.lang ∧ Starts re' t := by
  have hlang : lang re = i.lang * lang re' := by
    rw [lang, hi, List.map_cons, List.prod_cons]
    rfl
  rw [Starts, hlang, hc]
  constructor
  · rintro ⟨w, v, rfl, hw, hv⟩
    rcases Language.mem_mul.mp hw with ⟨u, hu, w', hw', rfl⟩
    exact ⟨u, w' ++ v, List.append_assoc _ _ _, hu, w', v, rfl, hw', hv⟩
  · rintro ⟨u, t, rfl, hu, w, v, rfl, hw, hv⟩
    exact ⟨u ++ w, v, (List.append_assoc _ _ _).symm,
      Language.mem_mul.mpr ⟨u, hu, w, hw, rfl⟩, hv⟩

theorem letter_iff (c : Byte) (P : List Byte → Prop) (text : List Byte) :
    (∃ u t, text = u ++ t ∧ u ∈ (Item.one c).lang ∧ P t) ↔
      ∃ d t, text = d :: t ∧ fits c d = true ∧ P t := by
  constructor
  · rintro ⟨u, t, rfl, ⟨d, rfl, hd⟩, ht⟩
    exact ⟨d, t, rfl, (fits_iff c d).mpr hd, ht⟩
  · rintro ⟨d, t, rfl, hd, ht⟩
    exact ⟨[d], t, rfl, ⟨d, rfl, (fits_iff c d).mp hd⟩, ht⟩

theorem starts_nil (re text : List Byte) (hi : items re = []) :
    Starts re text ↔ (closed re = true → text = []) := by
  have hlang : lang re = 1 := by rw [lang, hi, List.map_nil, List.prod_nil]
  rw [Starts, hlang]
  constructor
  · rintro ⟨w, v, rfl, hw, hv⟩ hc
    rw [(Language.mem_one w).mp hw, hv hc]
    rfl
  · intro h
    exact ⟨[], text, rfl, Language.nil_mem_one, h⟩

/-- A character that is neither starred nor a last `$` takes one character of the
    text. -/
theorem matchhere_cons {c : Byte} {re : List Byte} (hstar : re.head? ≠ some (chr '*'))
    (hend : re = [] → c ≠ chr '$') (text : List Byte) :
    matchhere (c :: re) text = true ↔
      ∃ d t, text = d :: t ∧ fits c d = true ∧ matchhere re t = true := by
  have hcons : ∀ d t, matchhere (c :: re) (d :: t) = (fits c d && matchhere re t) := by
    intro d t
    cases re with
    | nil => simp only [matchhere, if_neg (hend rfl), Bool.and_true]
    | cons c' re => simp only [matchhere, if_neg (fun h => hstar (congrArg some h))]
  cases text with
  | nil =>
    have hnil : matchhere (c :: re) [] = false := by
      cases re with
      | nil => simp only [matchhere, if_neg (hend rfl)]
      | cons c' re => simp only [matchhere, if_neg (fun h => hstar (congrArg some h))]
    simp only [hnil, Bool.false_eq_true, reduceCtorEq, false_and, exists_false]
  | cons d t =>
    rw [hcons, Bool.and_eq_true]
    constructor
    · intro h
      exact ⟨d, t, rfl, h⟩
    · rintro ⟨d', t', h, h'⟩
      rcases List.cons.inj h with ⟨rfl, rfl⟩
      exact h'

/-- `matchhere` follows the items of the pattern, which lose two characters at a star. -/
theorem matchhere_iff (re text : List Byte) : matchhere re text = true ↔ Starts re text := by
  induction re using items.induct generalizing text with
  | case1 =>
    rw [starts_nil [] text rfl]
    simp only [matchhere, closed, Bool.false_eq_true, false_imp_iff]
  | case2 =>
    -- A last `$`.
    rw [starts_nil [chr '$'] text rfl]
    simp only [matchhere, closed, if_true, List.isEmpty_iff, beq_self_eq_true, forall_const]
  | case3 c hc =>
    have hi : items [c] = Item.one c :: items [] := by simp only [items, if_neg hc]
    have hcl : closed [c] = closed [] := beq_false_of_ne hc
    have hstar : ([] : List Byte).head? ≠ some (chr '*') := nofun
    rw [starts_cons hi hcl, letter_iff, matchhere_cons hstar (fun _ => hc)]
    simp only [starts_nil [] _ rfl, matchhere, closed, Bool.false_eq_true, false_imp_iff]
  | case4 c re ih =>
    have hi : items (c :: chr '*' :: re) = Item.star c :: items re := by rw [items, if_pos rfl]
    have hcl : closed (c :: chr '*' :: re) = closed re := by rw [closed, if_pos rfl]
    simp only [starts_cons hi hcl, matchhere, if_true, matchstar_iff, ih, Item.lang]
  | case5 c c' re hc ih =>
    have hi : items (c :: c' :: re) = Item.one c :: items (c' :: re) := by rw [items, if_neg hc]
    have hcl : closed (c :: c' :: re) = closed (c' :: re) := by rw [closed, if_neg hc]
    have hstar : (c' :: re).head? ≠ some (chr '*') := fun h => hc (Option.some.inj h)
    rw [starts_cons hi hcl, letter_iff, matchhere_cons hstar (nofun)]
    simp only [ih]

/-- The loop of `match` is that of `matchstar` with a dot. -/
theorem matchAny_eq (re text : List Byte) :
    matchAny re text = matchstar (matchhere re) (chr '.') text := by
  induction text with
  | nil => rfl
  | cons d text ih => rw [matchAny, ih, matchstar, (fits_iff _ d).mpr (Or.inl rfl), Bool.true_and]

/-- The loop tries each place of the text. -/
theorem matchAny_iff (re text : List Byte) :
    matchAny re text = true ↔ ∃ u t, text = u ++ t ∧ matchhere re t = true := by
  rw [matchAny_eq, matchstar_iff]
  constructor
  · rintro ⟨u, t, h, -, ht⟩
    exact ⟨u, t, h, ht⟩
  · rintro ⟨u, t, h, ht⟩
    exact ⟨u, t, h, (mem_kstar_letter _ u).mpr (fun d _ => (fits_iff _ d).mpr (Or.inl rfl)), ht⟩

/-- `match` is right on every pattern and every text: it finds a substring of the text in
    the language of the pattern, which starts the text if the pattern starts with `^` and
    ends it if the pattern ends in `$`. -/
theorem match_iff_substring (re text : List Byte) :
    matchRe re text = true ↔ ∃ u w v, text = u ++ w ++ v ∧ w ∈ lang (body re) ∧
      (anchored re = true → u = []) ∧ (closed (body re) = true → v = []) := by
  by_cases ha : re.head? = some (chr '^')
  · have hanch : anchored re = true := decide_eq_true ha
    simp only [matchRe, if_pos ha, body, hanch, if_true, matchhere_iff, forall_const]
    constructor
    · rintro ⟨w, v, rfl, hw, hv⟩
      exact ⟨[], w, v, rfl, hw, rfl, hv⟩
    · rintro ⟨u, w, v, rfl, hw, rfl, hv⟩
      exact ⟨w, v, rfl, hw, hv⟩
  · have hanch : anchored re = false := decide_eq_false ha
    simp only [matchRe, if_neg ha, body, hanch, Bool.false_eq_true, if_false, matchAny_iff,
      matchhere_iff, false_imp_iff, true_and]
    constructor
    · rintro ⟨u, t, rfl, w, v, rfl, hw, hv⟩
      exact ⟨u, w, v, (List.append_assoc _ _ _).symm, hw, hv⟩
    · rintro ⟨u, w, v, rfl, hw, hv⟩
      exact ⟨u, w ++ v, List.append_assoc _ _ _, w, v, rfl, hw, hv⟩

end Xv6.Grep
