import Xv6.Log.Bio

/-!
# Coherence of the Buffer Cache

What the buffer cache guarantees to its users: every block has one current
contents, and `bread` returns it.

`Coherent` relates a disk and a cache to the current contents `L` of every
block. A buffer that is filled in holds the current contents of its block. A
block that is not dirty has its current contents on the disk. A dirty block,
one of the list `D`, has a buffer that somebody pinned. The last clause is
where reference counts come in: `W` says how many references to each buffer
are held by processes, the count is never below that, and above it for a
dirty block. `bget` recycles a buffer only when the count is zero, so a dirty
block keeps its buffer.

## Main definitions

* `Coherent`: The cache and the disk agree on the contents of every block.
* `bump`, `drop`: One reference more, or fewer.
* `Same`: Two buffers hold the same block with the same contents.
* `Keeps`: Buffers in use keep their block and its contents.
-/

namespace Xv6.Bcache

open Function

variable {P : Type}

/-- The cache and the disk agree that block `b` currently holds `L b`. Blocks
    in `D` are dirty: they have a pinned buffer and may be out of date on the
    disk. Processes hold `W i` references to buffer `i`. -/
structure Coherent (disk : Disk) (bc : Bcache P) (L : Disk) (D : List Nat)
    (W : Fin NBUF → Nat) : Prop where
  data : ∀ i, (bc.buf i).valid = true → (bc.buf i).dev = ROOTDEV →
    (bc.buf i).data = L (bc.buf i).blockno
  uniq : ∀ i j, (bc.buf i).dev = ROOTDEV → (bc.buf j).dev = ROOTDEV →
    (bc.buf i).blockno = (bc.buf j).blockno → i = j
  clean : ∀ b, b ∉ D → disk b = L b
  pinned : ∀ b ∈ D, ∃ i, (bc.buf i).dev = ROOTDEV ∧ (bc.buf i).blockno = b ∧
    (bc.buf i).valid = true ∧ W i + 1 ≤ (bc.buf i).refcnt
  refs : ∀ i, W i ≤ (bc.buf i).refcnt
  lru : ∀ i, i ∈ bc.lru

def bump (W : Fin NBUF → Nat) (i : Fin NBUF) : Fin NBUF → Nat := update W i (W i + 1)

def drop (W : Fin NBUF → Nat) (i : Fin NBUF) : Fin NBUF → Nat := update W i (W i - 1)

@[simp] theorem bump_self (W : Fin NBUF → Nat) (i : Fin NBUF) : bump W i i = W i + 1 := by
  simp only [bump, update_self]

@[simp] theorem drop_self (W : Fin NBUF → Nat) (i : Fin NBUF) : drop W i i = W i - 1 := by
  simp only [drop, update_self]

variable {disk : Disk} {bc bc' : Bcache P} {L : Disk} {D : List Nat} {W W' : Fin NBUF → Nat}
  {i j : Fin NBUF} {f : Buf P → Buf P}

theorem bump_of_ne (h : j ≠ i) : bump W i j = W j := by
  simp only [bump, update_of_ne h]

theorem drop_of_ne (h : j ≠ i) : drop W i j = W j := by
  simp only [drop, update_of_ne h]

/-- Two buffers hold the same block with the same contents. -/
def Same (x y : Buf P) : Prop :=
  y.dev = x.dev ∧ y.blockno = x.blockno ∧ y.valid = x.valid ∧ y.data = x.data

/-- Buffers in use keep their block and its contents. -/
def Keeps (bc bc' : Bcache P) : Prop :=
  ∀ j, 0 < (bc.buf j).refcnt → Same (bc.buf j) (bc'.buf j)

@[simp] theorem modify_self : (bc.modify i f).buf i = f (bc.buf i) := by
  simp only [modify, update_self]

theorem modify_of_ne (h : j ≠ i) : (bc.modify i f).buf j = bc.buf j := by
  simp only [modify, update_of_ne h]

theorem proj_modify {γ : Type} (g : Buf P → γ) (hf : ∀ x, g (f x) = g x) (j : Fin NBUF) :
    g ((bc.modify i f).buf j) = g (bc.buf j) := by
  by_cases hj : j = i
  · rw [hj, modify_self, hf]
  · rw [modify_of_ne hj]

theorem same_modify (hf : ∀ x, Same x (f x)) (j : Fin NBUF) :
    Same (bc.buf j) ((bc.modify i f).buf j) :=
  ⟨proj_modify (·.dev) (fun x => (hf x).1) j, proj_modify (·.blockno) (fun x => (hf x).2.1) j,
    proj_modify (·.valid) (fun x => (hf x).2.2.1) j, proj_modify (·.data) (fun x => (hf x).2.2.2) j⟩

namespace Coherent

/-- A change that leaves block, contents and validity alone, and takes no
    reference away that `W'` still counts, keeps the cache coherent. -/
theorem recount (h : Coherent disk bc L D W) (hsame : ∀ j, Same (bc.buf j) (bc'.buf j))
    (hcount : ∀ j, (bc.buf j).refcnt + W' j ≤ (bc'.buf j).refcnt + W j)
    (hlru : ∀ j, j ∈ bc'.lru) : Coherent disk bc' L D W' := by
  refine ⟨fun i hv hd => ?_, fun i j hi hj hij => ?_, h.clean, fun b hb => ?_, fun i => ?_, hlru⟩
  · rcases hsame i with ⟨hdev, hblk, hval, hdat⟩
    rw [hdat, hblk]
    exact h.data i (by rw [← hval]; exact hv) (by rw [← hdev]; exact hd)
  · rw [(hsame i).1] at hi
    rw [(hsame j).1] at hj
    rw [(hsame i).2.1, (hsame j).2.1] at hij
    exact h.uniq i j hi hj hij
  · rcases h.pinned b hb with ⟨i, hd, hbl, hv, hr⟩
    rcases hsame i with ⟨hdev, hblk, hval, _⟩
    have hc := hcount i
    exact ⟨i, by rw [hdev]; exact hd, by rw [hblk]; exact hbl, by rw [hval]; exact hv, by omega⟩
  · have hc := hcount i
    have hr := h.refs i
    omega

theorem count (h : Coherent disk bc L D W) (hf : ∀ x, Same x (f x))
    (hW : ∀ j, j ≠ i → W' j = W j)
    (hcount : (bc.buf i).refcnt + W' i ≤ (f (bc.buf i)).refcnt + W i) {lru : List (Fin NBUF)}
    (hlru : ∀ j, j ∈ lru) : Coherent disk { bc.modify i f with lru := lru } L D W' := by
  refine h.recount (same_modify hf) (fun j => ?_) hlru
  by_cases hj : j = i
  · rw [hj, modify_self]
    exact hcount
  · rw [modify_of_ne hj, hW j hj]

theorem store {disk' L' : Disk} (h : Coherent disk bc L D W) (hdev : (bc.buf i).dev = ROOTDEV)
    (hf : ∀ x, (f x).dev = x.dev ∧ (f x).blockno = x.blockno ∧ (f x).refcnt = x.refcnt)
    (hval : (bc.buf i).valid = true → (f (bc.buf i)).valid = true)
    (hdata : (f (bc.buf i)).data = L' (bc.buf i).blockno)
    (hL : ∀ b, b ≠ (bc.buf i).blockno → L' b = L b) (hclean : ∀ b, b ∉ D → disk' b = L' b) :
    Coherent disk' (bc.modify i f) L' D W := by
  have hd : ∀ j, ((bc.modify i f).buf j).dev = (bc.buf j).dev :=
    proj_modify (·.dev) fun x => (hf x).1
  have hb : ∀ j, ((bc.modify i f).buf j).blockno = (bc.buf j).blockno :=
    proj_modify (·.blockno) fun x => (hf x).2.1
  have hr : ∀ j, ((bc.modify i f).buf j).refcnt = (bc.buf j).refcnt :=
    proj_modify (·.refcnt) fun x => (hf x).2.2
  refine ⟨fun j hjv hjd => ?_, fun j l hj hl hjl => ?_, hclean, fun c hc => ?_, fun j => ?_, h.lru⟩
  · by_cases hj : j = i
    · rw [hj, modify_self, (hf _).2.1]
      exact hdata
    · rw [modify_of_ne hj] at hjv hjd ⊢
      rw [hL _ (fun hb => hj (h.uniq j i hjd hdev hb))]
      exact h.data j hjv hjd
  · -- No block number changes, so nothing new can clash.
    rw [hd] at hj hl
    rw [hb, hb] at hjl
    exact h.uniq j l hj hl hjl
  · rcases h.pinned c hc with ⟨j, hjd, hjb, hjv, hW⟩
    refine ⟨j, (hd j).trans hjd, (hb j).trans hjb, ?_, hr j ▸ hW⟩
    by_cases hj : j = i
    · rw [hj] at hjv ⊢
      rw [modify_self]
      exact hval hjv
    · rw [modify_of_ne hj]
      exact hjv
  · rw [hr]
    exact h.refs j

end Coherent

/-- What `bget` does: it finds the block, or recycles a buffer without references, or
    there is none. -/
theorem bget_cases (bc : Bcache P) (hall : ∀ i, i ∈ bc.lru) (dev b : Nat) :
    (∃ i, ((bc.buf i).dev = dev ∧ (bc.buf i).blockno = b) ∧
      bc.bget dev b = .done (bc.modify i (fun x => { x with refcnt := x.refcnt + 1 }), i)) ∨
    (∀ j, ¬((bc.buf j).dev = dev ∧ (bc.buf j).blockno = b)) ∧
      ((∃ i, (bc.buf i).refcnt = 0 ∧ bc.bget dev b = .done (bc.modify i (fun x =>
        { x with dev := dev, blockno := b, valid := false, refcnt := 1 }), i)) ∨
      (∀ i, 0 < (bc.buf i).refcnt) ∧ bc.bget dev b = .panic .bget) := by
  unfold bget
  cases hf : bc.lru.find? (fun i => (bc.buf i).dev = dev ∧ (bc.buf i).blockno = b) with
  | some i =>
    have hi := List.find?_some hf
    exact Or.inl ⟨i, of_decide_eq_true hi, rfl⟩
  | none =>
    refine Or.inr ⟨fun j hj => List.find?_eq_none.mp hf j (hall j) (decide_eq_true hj), ?_⟩
    cases hr : bc.lru.reverse.find? (fun i => (bc.buf i).refcnt = 0) with
    | some i =>
      have hi := List.find?_some hr
      exact Or.inl ⟨i, of_decide_eq_true hi, rfl⟩
    | none =>
      refine Or.inr ⟨fun i => Nat.pos_of_ne_zero (fun hz => ?_), rfl⟩
      exact List.find?_eq_none.mp hr i (List.mem_reverse.mpr (hall i)) (decide_eq_true hz)

variable (h : Coherent disk bc L D W)

include h

/-- `bget` adds a reference to the buffer of the block. If it recycles one,
    that buffer was not in use, so nothing dirty was in it. A buffer keeps its block number
    or takes the one asked for. -/
theorem bget_spec {b : Nat} (hg : bc.bget ROOTDEV b = .done (bc', i)) :
    Coherent disk bc' L D (bump W i) ∧ (bc'.buf i).dev = ROOTDEV ∧ (bc'.buf i).blockno = b ∧
      (∀ j, (bc'.buf j).lock = (bc.buf j).lock) ∧ Keeps bc bc' ∧
      ∀ j, (bc'.buf j).blockno = (bc.buf j).blockno ∨ (bc'.buf j).blockno = b := by
  rcases bget_cases bc h.lru ROOTDEV b with ⟨k, hk, hget⟩ | ⟨hnone, ⟨k, hk, hget⟩ | ⟨_, hget⟩⟩
  · rw [hget, Outcome.done.injEq, Prod.mk.injEq] at hg
    rcases hg with ⟨rfl, rfl⟩
    -- Only a count changes.
    have hsame : ∀ x : Buf P, Same x { x with refcnt := x.refcnt + 1 } :=
      fun x => ⟨rfl, rfl, rfl, rfl⟩
    refine ⟨h.count hsame (fun j => bump_of_ne) ?_ h.lru, ?_, ?_,
      proj_modify (·.lock) (fun _ => rfl), fun j _ => same_modify hsame j,
      fun j => Or.inl (same_modify hsame j).2.1⟩
    · rw [bump_self]
      simp only
      omega
    · rw [modify_self]
      exact hk.1
    · rw [modify_self]
      exact hk.2
  · rw [hget, Outcome.done.injEq, Prod.mk.injEq] at hg
    rcases hg with ⟨rfl, rfl⟩
    have hWk : W k = 0 := by
      have := h.refs k
      omega
    refine ⟨⟨fun j hv hd => ?_, fun j l hj hl hjl => ?_, h.clean, fun c hc => ?_,
      fun j => ?_, h.lru⟩, ?_, ?_, proj_modify (·.lock) (fun _ => rfl), fun j hj => ?_,
      fun j => ?_⟩
    · by_cases hjk : j = k
      · rw [hjk, modify_self] at hv
        exact nomatch hv
      · rw [modify_of_ne hjk] at hv hd ⊢
        exact h.data j hv hd
    · by_cases hjk : j = k
      · by_cases hlk : l = k
        · rw [hjk, hlk]
        · rw [hjk, modify_self, modify_of_ne hlk] at hjl
          rw [modify_of_ne hlk] at hl
          exact absurd ⟨hl, hjl.symm⟩ (hnone l)
      · by_cases hlk : l = k
        · rw [hlk, modify_self, modify_of_ne hjk] at hjl
          rw [modify_of_ne hjk] at hj
          exact absurd ⟨hj, hjl⟩ (hnone j)
        · rw [modify_of_ne hjk] at hj hjl
          rw [modify_of_ne hlk] at hl hjl
          exact h.uniq j l hj hl hjl
    · rcases h.pinned c hc with ⟨j, hd, hb, hv, hW⟩
      have hjk : j ≠ k := by
        intro hjk
        rw [hjk, hk] at hW
        omega
      refine ⟨j, ?_⟩
      rw [modify_of_ne hjk, bump_of_ne hjk]
      exact ⟨hd, hb, hv, hW⟩
    · by_cases hjk : j = k
      · rw [hjk, modify_self, bump_self, hWk]
      · rw [modify_of_ne hjk, bump_of_ne hjk]
        exact h.refs j
    · rw [modify_self]
    · rw [modify_self]
    · have hjk : j ≠ k := by
        intro hjk
        rw [hjk, hk] at hj
        omega
      rw [modify_of_ne hjk]
      exact ⟨rfl, rfl, rfl, rfl⟩
    · by_cases hjk : j = k
      · rw [hjk, modify_self]
        exact Or.inr rfl
      · rw [modify_of_ne hjk]
        exact Or.inl rfl
  · rw [hget] at hg
    cases hg

/-- Filling in the buffer of a block shows the current contents. The disk may
    be out of date only for a dirty block, and a dirty block has a buffer that
    is filled in already. -/
theorem fill_spec (hdev : (bc.buf i).dev = ROOTDEV) :
    Coherent disk (bc.fill disk i) L D W ∧ ((bc.fill disk i).buf i).valid = true ∧
      ((bc.fill disk i).buf i).data = L (bc.buf i).blockno ∧
      ((bc.fill disk i).buf i).dev = ROOTDEV ∧
      (∀ j, ((bc.fill disk i).buf j).blockno = (bc.buf j).blockno) ∧
      (∀ j, ((bc.fill disk i).buf j).lock = (bc.buf j).lock) ∧
      ∀ j, j ≠ i → (bc.fill disk i).buf j = bc.buf j := by
  unfold fill
  by_cases hv : (bc.buf i).valid = true
  · rw [if_pos hv]
    exact ⟨h, hv, h.data i hv hdev, hdev, fun _ => rfl, fun _ => rfl, fun _ _ => rfl⟩
  · rw [if_neg hv]
    have hclean : disk (bc.buf i).blockno = L (bc.buf i).blockno := by
      refine h.clean _ (fun hd => ?_)
      rcases h.pinned _ hd with ⟨j, hjd, hjb, hjv, _⟩
      rw [h.uniq j i hjd hdev hjb] at hjv
      exact hv hjv
    refine ⟨h.store hdev (fun x => ⟨rfl, rfl, rfl⟩) (fun _ => rfl) hclean (fun _ _ => rfl) h.clean,
      ?_, ?_, ?_, proj_modify (·.blockno) (fun _ => rfl), proj_modify (·.lock) (fun _ => rfl),
      fun j hj => modify_of_ne hj⟩
    · rw [modify_self]
    · rw [modify_self]
      exact hclean
    · rw [modify_self]
      exact hdev

theorem acquiresleep_spec {p : P} (ha : bc.acquiresleep p i = .done bc') :
    Coherent disk bc' L D W ∧ (bc.buf i).lock = none ∧ (bc'.buf i).lock = some p ∧
      (∀ j, j ≠ i → bc'.buf j = bc.buf j) ∧ ∀ j, Same (bc.buf j) (bc'.buf j) := by
  unfold acquiresleep at ha
  cases hl : (bc.buf i).lock with
  | some q => simp only [hl, reduceCtorEq] at ha
  | none =>
    simp only [hl, Outcome.done.injEq] at ha
    rw [← ha]
    have hsame : ∀ x : Buf P, Same x { x with lock := some p } := fun x => ⟨rfl, rfl, rfl, rfl⟩
    exact ⟨h.count hsame (fun _ _ => rfl) (Nat.le_refl _) h.lru, rfl, by rw [modify_self],
      fun j hj => modify_of_ne hj, same_modify hsame⟩

/-- `bread` returns a locked buffer with the current contents of the block,
    and disturbs no buffer that is in use. -/
theorem bread_spec {p : P} {b : Nat} (hr : bc.bread disk p ROOTDEV b = .done (bc', i)) :
    Coherent disk bc' L D (bump W i) ∧ (bc'.buf i).dev = ROOTDEV ∧ (bc'.buf i).blockno = b ∧
      (bc'.buf i).valid = true ∧ (bc'.buf i).data = L b ∧ (bc.buf i).lock = none ∧
      (bc'.buf i).lock = some p ∧
      (∀ j, j ≠ i → (bc'.buf j).lock = (bc.buf j).lock ∧
        (0 < (bc.buf j).refcnt → Same (bc.buf j) (bc'.buf j))) ∧
      ∀ j, (bc'.buf j).blockno = (bc.buf j).blockno ∨ (bc'.buf j).blockno = b := by
  simp only [bread, Outcome.bind_eq_done, Outcome.pure_eq, Outcome.done.injEq,
    Prod.mk.injEq] at hr
  rcases hr with ⟨⟨bc₁, k⟩, hg, bc₂, ha, rfl, rfl⟩
  rcases bget_spec h hg with ⟨h₁, hd₁, hb₁, hl₁, hk₁, hn₁⟩
  rcases acquiresleep_spec h₁ ha with ⟨h₂, hn₂, hl₂, ho₂, hs₂⟩
  have hd₂ : (bc₂.buf k).dev = ROOTDEV := by rw [(hs₂ k).1, hd₁]
  have hb₂ : (bc₂.buf k).blockno = b := by rw [(hs₂ k).2.1, hb₁]
  rcases fill_spec h₂ hd₂ with ⟨h₃, hv₃, hdat₃, hd₃, hb₃, hl₃, ho₃⟩
  refine ⟨h₃, hd₃, by rw [hb₃, hb₂], hv₃, by rw [hdat₃, hb₂], ?_, by rw [hl₃, hl₂], ?_, ?_⟩
  · rw [← hl₁ k]
    exact hn₂
  · intro j hj
    rw [ho₃ j hj, ho₂ j hj]
    exact ⟨hl₁ j, hk₁ j⟩
  · intro j
    rw [hb₃, (hs₂ j).2.1]
    exact hn₁ j

/-- Storing new contents in a buffer and writing it out changes the current
    contents of its block, in memory and on the disk at once. -/
theorem write_spec (hdev : (bc.buf i).dev = ROOTDEV) (d : Block) :
    Coherent (update disk (bc.buf i).blockno d) (bc.setData i d)
      (update L (bc.buf i).blockno d) D W := by
  refine h.store hdev (fun x => ⟨rfl, rfl, rfl⟩) id (by rw [update_self])
    (fun b hb => update_of_ne hb _ _) (fun b hb => ?_)
  by_cases hbi : b = (bc.buf i).blockno
  · rw [hbi, update_self, update_self]
  · rw [update_of_ne hbi, update_of_ne hbi]
    exact h.clean b hb

theorem modify_spec (hdev : (bc.buf i).dev = ROOTDEV) (d : Block) (hD : (bc.buf i).blockno ∈ D) :
    Coherent disk (bc.setData i d) (update L (bc.buf i).blockno d) D W := by
  refine h.store hdev (fun x => ⟨rfl, rfl, rfl⟩) id (by rw [update_self])
    (fun b hb => update_of_ne hb _ _) (fun b hb => ?_)
  rw [update_of_ne (fun hbi => hb (by rw [hbi]; exact hD))]
  exact h.clean b hb

/-- Modifying a clean buffer and pinning it makes its block dirty. -/
theorem pin_spec (hdev : (bc.buf i).dev = ROOTDEV) (d : Block) (hval : (bc.buf i).valid = true) :
    Coherent disk ((bc.setData i d).bpin i) (update L (bc.buf i).blockno d)
      (D ++ [(bc.buf i).blockno]) W := by
  have hp : Coherent (update disk (bc.buf i).blockno d) ((bc.setData i d).bpin i)
      (update L (bc.buf i).blockno d) D W := by
    have hsame : ∀ x : Buf P, Same x { x with refcnt := x.refcnt + 1 } :=
      fun x => ⟨rfl, rfl, rfl, rfl⟩
    exact (write_spec h hdev d).count hsame (fun _ _ => rfl) (by simp only; omega) h.lru
  refine ⟨hp.data, hp.uniq, fun b hb => ?_, fun b hb => ?_, hp.refs, hp.lru⟩
  · rw [List.mem_append, List.mem_singleton, not_or] at hb
    rw [update_of_ne hb.2]
    exact h.clean b hb.1
  · rw [List.mem_append, List.mem_singleton] at hb
    rcases hb with hb | hb
    · exact hp.pinned b hb
    · refine ⟨i, ?_⟩
      rw [bpin, modify_self, setData, modify_self]
      refine ⟨hdev, hb.symm, hval, ?_⟩
      have := h.refs i
      simp only
      omega

omit h in
/-- A dirty block that has been written home may be unpinned. -/
theorem unpin_spec {b : Nat} (h : Coherent disk bc L (b :: D) W) (hb : b ∉ D)
    (hdev : (bc.buf i).dev = ROOTDEV) (hblk : (bc.buf i).blockno = b) (hdisk : disk b = L b) :
    Coherent disk (bc.bunpin i) L D W := by
  -- The pinned buffer of the block is this one, so its pin counts as a reference.
  have hclean : Coherent disk bc L D (bump W i) := by
    refine ⟨h.data, h.uniq, fun c hc => ?_, fun c hc => ?_, fun j => ?_, h.lru⟩
    · by_cases hcb : c = b
      · rw [hcb]
        exact hdisk
      · exact h.clean c (by rw [List.mem_cons, not_or]; exact ⟨hcb, hc⟩)
    · rcases h.pinned c (List.mem_cons_of_mem b hc) with ⟨j, hjd, hjb, hjv, hW⟩
      have hji : j ≠ i := by
        intro hji
        rw [hji, hblk] at hjb
        exact hb (hjb ▸ hc)
      exact ⟨j, hjd, hjb, hjv, (bump_of_ne hji).symm ▸ hW⟩
    · by_cases hj : j = i
      · rcases h.pinned b List.mem_cons_self with ⟨k, hkd, hkb, -, hkW⟩
        rw [h.uniq k i hkd hdev (by rw [hkb, hblk])] at hkW
        rw [hj, bump_self]
        exact hkW
      · rw [bump_of_ne hj]
        exact h.refs j
  have hsame : ∀ x : Buf P, Same x { x with refcnt := x.refcnt - 1 } :=
    fun x => ⟨rfl, rfl, rfl, rfl⟩
  refine hclean.count hsame (fun j hj => (bump_of_ne hj).symm) ?_ h.lru
  have hrefs := hclean.refs i
  rw [bump_self] at hrefs ⊢
  simp only
  omega

variable [DecidableEq P]

theorem brelse_spec {p : P} (hW : 1 ≤ W i) (hr : bc.brelse p i = .done bc') :
    Coherent disk bc' L D (drop W i) ∧ (bc'.buf i).lock = none ∧
      (∀ j, j ≠ i → bc'.buf j = bc.buf j) ∧ ∀ j, Same (bc.buf j) (bc'.buf j) := by
  unfold brelse at hr
  by_cases hl : (bc.buf i).lock = some p
  · rw [if_pos hl] at hr
    have hsame : ∀ x : Buf P, Same x { x with lock := none, refcnt := x.refcnt - 1 } :=
      fun x => ⟨rfl, rfl, rfl, rfl⟩
    have hoth : ∀ j, j ≠ i →
        (bc.modify i fun x => { x with lock := none, refcnt := x.refcnt - 1 }).buf j = bc.buf j :=
      fun j => modify_of_ne
    have href := h.refs i
    have hcount : (bc.buf i).refcnt + drop W i i ≤ (bc.buf i).refcnt - 1 + W i := by
      rw [drop_self]
      omega
    by_cases hz : (bc.buf i).refcnt - 1 = 0
    · simp only [if_pos hz, Outcome.done.injEq] at hr
      rw [← hr]
      refine ⟨h.count hsame (fun j => drop_of_ne) hcount (fun j => ?_), ?_,
        hoth, same_modify hsame⟩
      · -- Moving a buffer to the front loses none of them.
        by_cases hj : j = i
        · rw [hj]
          exact List.mem_cons_self
        · exact List.mem_cons_of_mem _ ((List.mem_erase_of_ne hj).mpr (h.lru j))
      · rw [modify_self]
    · simp only [if_neg hz, Outcome.done.injEq] at hr
      rw [← hr]
      exact ⟨h.count hsame (fun j => drop_of_ne) hcount h.lru, by rw [modify_self], hoth,
        same_modify hsame⟩
  · simp only [if_neg hl, reduceCtorEq] at hr

end Xv6.Bcache
