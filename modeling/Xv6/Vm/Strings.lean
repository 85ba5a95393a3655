import Xv6.Vm.Copy

/-!
# Strings of a Process

What `copyinstr` reads, and so what `fetchstr` and `argstr` return. A string is the
bytes from an address to the first NUL; only those need pages.

The inner loop of `copyinstr` reads one piece of a page, and the outer loop goes on
while no NUL was found and there is room in the buffer.

## Main definitions

* `StrEnd`: Where the string at an address ends.
* `StrStops`: How a copy of a string ends.

## Theorems

* `copyinstrPage_run`, `copyinstrFrom_run`: The loops.
* `copyinstr_exact`: The string is read when it and its NUL fit into the buffer.
-/

namespace Xv6.Vm

open List

section Ends

variable {f : Nat → Option Byte} {va va' n max k : Nat} {r : Int} {bs cs : List Byte}

/-- The string at `va` has `k` bytes and a NUL. -/
def StrEnd (f : Nat → Option Byte) (va k : Nat) : Prop :=
  f (va + k) = some 0 ∧ ∀ j < k, ∃ b, f (va + j) = some b ∧ b ≠ 0

/-- Bytes without a NUL, and then the NUL. -/
def IsStr (bs : List Byte) : Prop := ∃ cs, bs = cs ++ [0] ∧ 0 ∉ cs

/-- How a copy of the string at `va` into `max` bytes ends: with the NUL, or where
    there is no room or no page. -/
structure StrStops (f : Nat → Option Byte) (va max : Nat) (r : Int) (bs : List Byte) : Prop where
  fetched : Fetched f va bs
  ends : r = 0 ∧ bs.length ≤ max ∧ IsStr bs ∨
    r = -1 ∧ 0 ∉ bs ∧ (bs.length = max ∨ bs.length < max ∧ f (va + bs.length) = none)

theorem IsStr.cons {b : Byte} (h : IsStr bs) (hb : b ≠ 0) : IsStr (b :: bs) := by
  rcases h with ⟨cs, rfl, hcs⟩
  exact ⟨b :: cs, rfl, fun hc => (mem_cons.mp hc).elim (fun h0 => hb h0.symm) hcs⟩

theorem IsStr.append (h : IsStr cs) (hbs : 0 ∉ bs) : IsStr (bs ++ cs) := by
  rcases h with ⟨ds, rfl, hds⟩
  exact ⟨bs ++ ds, (append_assoc bs ds [0]).symm,
    fun hc => (mem_append.mp hc).elim hbs hds⟩

theorem StrStops.length_le (h : StrStops f va max r bs) : bs.length ≤ max := by
  rcases h.ends with ⟨_, hle, _⟩ | ⟨_, _, hle | hlt⟩
  · exact hle
  · exact Nat.le_of_eq hle
  · exact Nat.le_of_lt hlt.1

theorem StrStops.cons (c : Piece va max n va') (hlen : bs.length = n) (hbs : Fetched f va bs)
    (h0 : 0 ∉ bs) (h : StrStops f va' (max - n) r cs) : StrStops f va max r (bs ++ cs) := by
  have hle := c.le
  have hcs := h.length_le
  refine ⟨hbs.append h.fetched ?_, ?_⟩
  · rcases c.next with hall | ⟨hnext, _⟩
    · exact Or.inl (length_eq_zero_iff.mp (by omega))
    · exact Or.inr (by rw [hnext, hlen])
  · rw [length_append, hlen]
    rcases h.ends with ⟨hr, _, hstr⟩ | ⟨hr, hno, hend⟩
    · exact Or.inl ⟨hr, by omega, hstr.append h0⟩
    · refine Or.inr ⟨hr, fun hc => (mem_append.mp hc).elim h0 hno, ?_⟩
      rcases hend with hfull | ⟨hlt, hnone⟩
      · exact Or.inl (by omega)
      · rcases c.next with hall | ⟨hnext, _⟩
        · omega
        · rw [hnext, Nat.add_assoc] at hnone
          exact Or.inr ⟨by omega, hnone⟩

/-- A NUL among the bytes read is the end of a string. -/
theorem Fetched.strEnd (h : Fetched f va (cs ++ [0])) (hcs : 0 ∉ cs) : StrEnd f va cs.length := by
  refine ⟨?_, fun j hj => ⟨cs[j], ?_, fun h0 => hcs (h0 ▸ getElem_mem hj)⟩⟩
  · rw [← h _ (by rw [length_append, length_singleton]; omega)]
    exact getElem?_concat_length
  · rw [← h j (by rw [length_append]; omega), getElem?_append_left hj,
      getElem?_eq_getElem hj]

theorem StrEnd.unique (h : StrEnd f va k) {k' : Nat} (h' : StrEnd f va k') : k = k' := by
  rcases Nat.lt_trichotomy k k' with hlt | heq | hlt
  · rcases h'.2 k hlt with ⟨b, hb, h0⟩
    exact absurd (Option.some.inj (hb.symm.trans h.1)) h0
  · exact heq
  · rcases h.2 k' hlt with ⟨b, hb, h0⟩
    exact absurd (Option.some.inj (hb.symm.trans h'.1)) h0

/-- Without a NUL among the bytes read, the string is not over. -/
theorem StrEnd.length_le (h : StrEnd f va k) (hbs : Fetched f va bs) (h0 : 0 ∉ bs) :
    bs.length ≤ k := by
  by_contra hc
  have hk : k < bs.length := Nat.not_le.mp hc
  have heq := (hbs k hk).trans h.1
  rw [getElem?_eq_getElem hk] at heq
  exact h0 (Option.some.inj heq ▸ getElem_mem hk)

theorem strlen_concat (hcs : 0 ∉ cs) : strlen (cs ++ [0]) = cs.length := by
  have hall : ∀ b ∈ cs, decide (b ≠ 0) = true := fun b hb =>
    decide_eq_true (fun h0 => hcs (h0 ▸ hb))
  rw [strlen, takeWhile_append_of_pos hall]
  exact congrArg length (append_nil cs)

/-- What a copy returns, in terms of the string. -/
theorem StrStops.zero_iff (h : StrStops f va max r bs) :
    (r = 0 ∨ r = -1) ∧ (r = 0 ↔ ∃ k < max, StrEnd f va k) ∧
      ∀ k, r = 0 → StrEnd f va k → bs.length = k + 1 ∧ strlen bs = k := by
  rcases h.ends with ⟨hr, hle, cs, rfl, hcs⟩ | ⟨hr, h0, hend⟩
  · have hstr := h.fetched.strEnd hcs
    rw [length_append, length_singleton] at hle ⊢
    refine ⟨Or.inl hr, iff_of_true hr ⟨cs.length, hle, hstr⟩, fun k _ hk => ?_⟩
    rw [strlen_concat hcs, hstr.unique hk]
    exact ⟨rfl, rfl⟩
  · have hne : r ≠ 0 := by
      rw [hr]
      decide
    refine ⟨Or.inr hr, iff_of_false hne ?_, fun _ h0 => absurd h0 hne⟩
    rintro ⟨k, hk, hstr⟩
    have hlen := hstr.length_le h.fetched h0
    rcases hend with hfull | ⟨_, hnone⟩
    · omega
    -- The string goes on past a byte that has no page.
    · rcases Nat.eq_or_lt_of_le hlen with heq | hlt
      · rw [heq, hstr.1] at hnone
        exact absurd hnone (by nofun)
      · rcases hstr.2 _ hlt with ⟨b, hb, _⟩
        rw [hb] at hnone
        exact absurd hnone (by nofun)

end Ends

section Copyinstr

variable {s : Kernel} {root : Nat}

theorem copyinstrPage_run (lay : Layout) (f : Nat → Option Byte) (n va p : Nat)
    (hf : ∀ j < n, f (va + j) = some (s.byte (p + j))) :
    ∃ b bs, Prog.run (perform lay) (copyinstrPage n p) s = .done ((b, bs), s) ∧
      Fetched f va bs ∧
      (b = true ∧ bs.length ≤ n ∧ IsStr bs ∨ b = false ∧ bs.length = n ∧ 0 ∉ bs) := by
  induction n generalizing va p with
  | zero => exact ⟨false, [], rfl, Fetched.nil, Or.inr ⟨rfl, rfl, not_mem_nil⟩⟩
  | succ n ih =>
    have hfst : Fetched f va [s.byte p] := by
      intro j hj
      have hj0 : j = 0 := Nat.lt_one_iff.mp hj
      rw [hj0, hf 0 (Nat.succ_pos n)]
      rfl
    by_cases h0 : s.byte p = 0
    · refine ⟨true, [0], ?_, h0 ▸ hfst,
        Or.inl ⟨rfl, Nat.succ_le_succ (Nat.zero_le n), [], rfl, not_mem_nil⟩⟩
      change Prog.run (perform lay) (if [s.byte p] = [0] then _ else _) s = _
      rw [h0, if_pos rfl]
      rfl
    · rcases ih (va + 1) (p + 1) (fun j hj => by
        rw [Nat.add_assoc, Nat.add_assoc, Nat.add_comm 1 j]
        exact hf (j + 1) (by omega)) with ⟨b, bs, hrun, hbs, hend⟩
      refine ⟨b, s.byte p :: bs, ?_, hfst.append hbs (Or.inr rfl), ?_⟩
      · change Prog.run (perform lay) (if [s.byte p] = [0] then _ else _) s = _
        rw [if_neg (fun hc => h0 (cons.inj hc).1), Prog.run_bind, hrun]
        rfl
      · rcases hend with ⟨hb, hle, hstr⟩ | ⟨hb, hlen, hno⟩
        · exact Or.inl ⟨hb, Nat.succ_le_succ hle, hstr.cons h0⟩
        · exact Or.inr ⟨hb, congrArg (· + 1) hlen,
            fun hc => (mem_cons.mp hc).elim (fun h => h0 h.symm) hno⟩

theorem copyinstrFrom_run (lay : Layout) (h : Space s.mem root) (fuel va max : Nat)
    (hfuel : max ≤ fuel) :
    ∃ r bs, Prog.run (perform lay) (copyinstrFrom (root * PGSIZE) fuel va max) s =
        .done ((r, bs), s) ∧ StrStops (ubyte s.mem root) va max r bs := by
  have hnil : StrStops (ubyte s.mem root) va 0 (-1) [] :=
    ⟨Fetched.nil, Or.inr ⟨rfl, not_mem_nil, Or.inl rfl⟩⟩
  induction fuel generalizing va max with
  | zero =>
    rw [Nat.le_zero.mp hfuel]
    exact ⟨-1, [], rfl, hnil⟩
  | succ fuel ih =>
    by_cases hmax : max = 0
    · rw [hmax]
      exact ⟨-1, [], rfl, hnil⟩
    rw [copyinstrFrom, if_neg hmax, walkaddr_bind h, sub_PGROUNDDOWN]
    cases hp : upage s.mem root (va / PGSIZE) with
    | none =>
      refine ⟨-1, [], rfl, Fetched.nil, Or.inr ⟨rfl, not_mem_nil, Or.inr ?_⟩⟩
      refine ⟨Nat.pos_of_ne_zero hmax, ?_⟩
      rw [length_nil, Nat.add_zero, ubyte, hp]
      rfl
    | some p =>
      have c := piece_spec hp hmax
      rw [Option.elim_some, if_neg (h.page_ne_zero hp)]
      rcases copyinstrPage_run lay (ubyte s.mem root) _ va _
        (fun j hj => c.byte_eq hp hj) with ⟨b, bs, hrun, hbs, hend⟩
      change ∃ r bs, Prog.run (perform lay) (copyinstrPage _ _ >>= _) s = _ ∧ _
      rw [Prog.run_bind, hrun]
      rcases hend with ⟨rfl, hle, hstr⟩ | ⟨rfl, hlen, h0⟩
      · exact ⟨0, bs, rfl, hbs, Or.inl ⟨rfl, Nat.le_trans hle c.le, hstr⟩⟩
      · rcases ih (u64 (PGROUNDDOWN va + PGSIZE)) (max - min (PGSIZE - va % PGSIZE) max)
          (by have := c.pos; omega)
          ⟨Fetched.nil, Or.inr ⟨rfl, not_mem_nil, Or.inl rfl⟩⟩ with ⟨r, cs, hrun', hstop⟩
        refine ⟨r, bs ++ cs, ?_, StrStops.cons c hlen hbs h0 hstop⟩
        change Prog.run (perform lay) (copyinstrFrom _ fuel _ _ >>= _) s = _
        rw [Prog.run_bind, hrun']
        rfl

end Copyinstr

/-- `copyinstr` reads the string at an address when it and its NUL fit into the
    buffer and have pages, and fails otherwise, without going past the buffer.
    `fetchstr` and `argstr` return its length. -/
theorem copyinstr_exact (lay : Layout) {s : Kernel} {root : Nat} (h : Space s.mem root)
    (va max : Nat) :
    ∃ r bs, Prog.run (perform lay) (copyinstr (root * PGSIZE) va max) s = .done ((r, bs), s) ∧
      bs.length ≤ max ∧ (r = 0 ∨ r = -1) ∧
      (r = 0 ↔ ∃ k < max, StrEnd (ubyte s.mem root) va k) ∧
      (∀ k, r = 0 → StrEnd (ubyte s.mem root) va k →
        bs.length = k + 1 ∧ Fetched (ubyte s.mem root) va bs) ∧
      ∃ n : Int, Prog.run (perform lay) (fetchstr (root * PGSIZE) va max) s =
          .done ((n, bs), s) ∧
        (∀ (a : Fin 6 → Nat) (i : Fin 6), a i = va →
          Prog.run (perform lay) (argstr (root * PGSIZE) a i max) s = .done ((n, bs), s)) ∧
        (∀ k < max, StrEnd (ubyte s.mem root) va k → n = k) ∧
        ((¬∃ k < max, StrEnd (ubyte s.mem root) va k) → n = -1) := by
  rcases copyinstrFrom_run lay h max va max (Nat.le_refl _) with ⟨r, bs, hrun, hstop⟩
  rcases hstop.zero_iff with ⟨hres, hiff, hlen⟩
  have hfetch : Prog.run (perform lay) (fetchstr (root * PGSIZE) va max) s =
      .done ((if r < 0 then -1 else (strlen bs : Int), bs), s) := by
    change Prog.run (perform lay) (copyinstrFrom _ _ _ _ >>= _) s = _
    rw [Prog.run_bind, hrun, Outcome.done_bind]
    rcases hres with rfl | rfl <;> rfl
  refine ⟨r, bs, hrun, hstop.length_le, hres, hiff,
    fun k hr hk => ⟨(hlen k hr hk).1, hstop.fetched⟩, _, hfetch, ?_, ?_, ?_⟩
  · rintro a i rfl
    rw [argstr, argaddr, argraw, dif_pos i.isLt]
    exact hfetch
  · intro k hk hstr
    have hr : r = 0 := hiff.mpr ⟨k, hk, hstr⟩
    rw [hr, if_neg (by decide), (hlen k hr hstr).2]
  · intro hno
    have hr : r = -1 := hres.resolve_left (fun h0 => hno (hiff.mp h0))
    rw [hr, if_pos (by decide)]

/-- A string of two bytes whose NUL is on the next page. -/
theorem copyinstr_exact_text : ∃ (s : Kernel) (bs : List Byte), bs.length = 3 ∧
    Prog.run (perform smallKernel) (copyinstr (1 * PGSIZE) 4094 5) s = .done ((0, bs), s) := by
  rcases exists_text with ⟨s, hpriv, _, _, h₀, h₁, h₂, _⟩
  have hend : StrEnd (ubyte s.mem 1) 4094 2 := by
    refine ⟨h₂, fun j hj => ?_⟩
    have hcase : j = 0 ∨ j = 1 := by omega
    rcases hcase with rfl | rfl
    · exact ⟨1, h₀, by decide⟩
    · exact ⟨2, h₁, by decide⟩
  rcases copyinstr_exact smallKernel hpriv.space 4094 5 with ⟨r, bs, hrun, _, _, hiff, hlen, _⟩
  have hr : r = 0 := hiff.mpr ⟨2, by decide, hend⟩
  exact ⟨s, bs, (hlen 2 hr hend).1, by rw [hrun, hr]⟩

end Xv6.Vm
