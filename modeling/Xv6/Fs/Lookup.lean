import Xv6.Fs.Array
import Xv6.Fs.Dir
import Xv6.Lib.Words

/-!
# Path Resolution

`namei` and `nameiparent` as folds over the components of a path.

The components are the non-empty parts of the path between slashes, cut to
`DIRSIZ` bytes. `resolve` looks one after the other up, each in the directory
that the one before it is; `resolveParent` stops before the last one. The loop
of the source does both at once and looks ahead in the path to know when to
stop, which `follow` does on the list of components.

What `namex` leaves behind is the reference it returns, and copies of inodes that it
has read in.

## Main definitions

* `components`: The components of a path.
* `child`, `resolve`, `resolveParent`: Directory lookup, and its folds.
* `follow`: The loop of `namex` on components.
* `World.SameRefs`: Worlds that differ in what has been read in only.
* `World.Settled`: What a world has to satisfy for paths to be followed.

## Theorems

* `namexFrom_run`: The loop of `namex` is `follow`.
* `path_resolution`: `namei` and `nameiparent` are the two folds.
-/

namespace Xv6

open Function Prog

/-- The components of a path. -/
def components (path : List Byte) : List (List Byte) := (words slash path).map (List.take DIRSIZ)

/-- The inode under a name in a directory. -/
def child (files : Nat → Option Node) (i : Nat) (name : List Byte) : Option Nat :=
  match files i with
  | none => none
  | some f =>
    if f.type = T_DIR then (f.lookup name).map (fun m => (f.entry m).inum.toNat) else none

/-- The inode that names lead to, one after the other, from inode `i` on. -/
def resolve (files : Nat → Option Node) (i : Nat) (names : List (List Byte)) : Option Nat :=
  names.foldlM (child files) i

/-- The directory that the last name is to be looked up in, and that name. -/
def resolveParent (files : Nat → Option Node) (i : Nat) (names : List (List Byte)) :
    Option (Nat × List Byte) :=
  match names.getLast?, resolve files i names.dropLast with
  | some name, some j => if ∃ f ∈ files j, f.type = T_DIR then some (j, name) else none
  | _, _ => none

/-- The loop of `namex`, on the components that are left. -/
def follow (files : Nat → Option Node) (parent : Bool) :
    Nat → List (List Byte) → List Byte → Option (Nat × List Byte)
  | i, [], last => if parent then none else some (i, last)
  | i, name :: names, _ =>
    match files i with
    | none => none
    | some f =>
      if f.type ≠ T_DIR then none
      else if parent ∧ names = [] then some (i, name)
      else
        match f.lookup name with
        | none => none
        | some m => follow files parent (f.entry m).inum.toNat names name

section Folds

variable (files : Nat → Option Node)

theorem resolve_cons (i : Nat) (name : List Byte) (names : List (List Byte)) :
    resolve files i (name :: names) = (child files i name).bind (fun j => resolve files j names) :=
  List.foldlM_cons

/-- Without looking ahead the loop goes through all components. -/
theorem follow_false (i : Nat) (names : List (List Byte)) (last : List Byte) :
    follow files false i names last =
      (resolve files i names).map (fun j => (j, names.getLast?.getD last)) := by
  induction names generalizing i last with
  | nil => rfl
  | cons name names ih =>
    rw [resolve_cons]
    unfold follow child
    cases hf : files i with
    | none => rfl
    | some f =>
      by_cases ht : f.type = T_DIR
      · simp only [ht, ne_eq, not_true_eq_false, if_false, if_true, Bool.false_eq_true, false_and]
        cases hm : f.lookup name with
        | none => rfl
        | some m =>
          simp only [Option.map_some, Option.bind_some, ih]
          cases names with
          | nil => simp
          | cons name' names => simp [List.getLast?_cons]
      · simp [ht]

/-- With looking ahead it stops before the last one. -/
theorem follow_true (i : Nat) (names : List (List Byte)) (last : List Byte) :
    follow files true i names last = resolveParent files i names := by
  induction names generalizing i last with
  | nil => rfl
  | cons name names ih =>
    cases names with
    | nil =>
      -- The last component: its directory has been reached.
      unfold follow resolveParent resolve
      cases hf : files i with
      | none => simp [hf]
      | some f =>
        by_cases ht : f.type = T_DIR
        · simp [hf, ht]
        · simp [hf, ht]
    | cons name' names =>
      unfold follow
      have hlast : (name :: name' :: names).getLast? = (name' :: names).getLast? := by
        simp [List.getLast?_cons]
      have hinit : (name :: name' :: names).dropLast = name :: (name' :: names).dropLast := rfl
      unfold resolveParent at ih ⊢
      rw [hlast, hinit, resolve_cons]
      unfold child
      cases hf : files i with
      | none =>
        simp only [Option.bind_none]
        cases (name' :: names).getLast? <;> rfl
      | some f =>
        by_cases ht : f.type = T_DIR
        · simp only [ht, ne_eq, not_true_eq_false, if_false, if_true, reduceCtorEq, and_false]
          cases hm : f.lookup name with
          | none =>
            simp only [Option.map_none, Option.bind_none]
            cases (name' :: names).getLast? <;> rfl
          | some m => simp only [Option.map_some, Option.bind_some, ih]
        · simp only [ht, ne_eq, not_false_eq_true, if_true, if_false, Option.bind_none]
          cases (name' :: names).getLast? <;> rfl

end Folds

/-- `skipelem` takes one component off a path. What is left is empty only if
    there are no more components. -/
theorem skipelem_components (path : List Byte) :
    components path = [] ∧ skipelem path = none ∨
      ∃ name rest, skipelem path = some (name, rest) ∧
        components path = name :: components rest ∧ (rest = [] ↔ components rest = []) ∧
        rest.length < path.length := by
  unfold components skipelem
  have hlen := (List.dropWhile_sublist (fun c : Byte => decide (c = slash)) (l := path)).length_le
  rw [← words_dropWhile slash path]
  cases hp : path.dropWhile (fun c => c = slash) with
  | nil => exact Or.inl ⟨rfl, rfl⟩
  | cons x xs =>
    have hx : x ≠ slash := by
      intro hc
      have := List.head?_dropWhile_not (fun c => decide (c = slash)) path
      rw [hp] at this
      simp [hc] at this
    rw [hp] at hlen
    right
    simp only [reduceCtorEq, if_false]
    rw [List.takeWhile_cons_of_pos (by simpa using hx),
      List.dropWhile_cons_of_pos (by simpa using hx), words_cons_of_ne slash x xs hx]
    refine ⟨_, _, rfl, ?_, ?_, ?_⟩
    · rw [words_dropWhile]
      rfl
    · rw [List.map_eq_nil_iff, words_dropWhile, words_eq_nil]
    · have h₁ := (List.dropWhile_sublist (fun c : Byte => decide (c = slash))
        (l := xs.dropWhile (fun c => c ≠ slash))).length_le
      have h₂ := (List.dropWhile_sublist (fun c : Byte => decide (c ≠ slash))
        (l := xs)).length_le
      rw [List.length_cons] at hlen
      omega

/-- An inode in memory, as if it had been read in. -/
def Ent.read (e : Ent) : Ent := { e with valid := true }

namespace World

variable (w w' : World)

/-- The worlds differ in what has been read in only. -/
def SameRefs : Prop :=
  w' = { w with mem := w'.mem } ∧ ∀ k, (w'.mem k).map Ent.read = (w.mem k).map Ent.read

/-- Every entry that is in use names an inode that exists. -/
def Linked (files : Nat → Option Node) : Prop :=
  ∀ i f m, files i = some f → f.type = T_DIR → m < f.entries → (f.entry m).inum ≠ 0 →
    ∃ g, files (f.entry m).inum.toNat = some g

/-- Two entries of the inode table are free. -/
def Roomy : Prop := ∃ k l, k ≠ l ∧ w.mem k = none ∧ w.mem l = none

def Locked : Prop := ∃ k e, w.mem k = some e ∧ e.lock ≠ none

/-- The references are counted, files without links are in memory, and paths
    lead to inodes that exist. -/
structure Settled : Prop where
  pos : ∀ k e, w.mem k = some e → 0 < e.ref
  zombie : w.NoZombie
  linked : Linked w.files

end World

section Worlds

variable {w w' w'' : World} {i j : Nat} {k l : Fin NINODE} {e : Ent} {p : Fin NPROC} {v : Bool}

theorem World.SameRefs.refl (w : World) : w.SameRefs w := ⟨rfl, fun _ => rfl⟩

theorem World.SameRefs.trans (h : w.SameRefs w') (h' : w'.SameRefs w'') : w.SameRefs w'' := by
  refine ⟨?_, fun k => (h'.2 k).trans (h.2 k)⟩
  rw [h'.1, h.1]

theorem World.SameRefs.files (h : w.SameRefs w') : w'.files = w.files := by
  rw [h.1]

theorem World.SameRefs.none_iff (h : w.SameRefs w') (k : Fin NINODE) :
    w'.mem k = none ↔ w.mem k = none := by
  have := h.2 k
  cases h₁ : w.mem k <;> cases h₂ : w'.mem k <;> simp_all

theorem World.SameRefs.some (h : w.SameRefs w') {e' : Ent} (hk : w'.mem k = some e') :
    ∃ e, w.mem k = some e ∧ e'.inum = e.inum ∧ e'.ref = e.ref ∧ e'.lock = e.lock := by
  have := h.2 k
  rw [hk] at this
  cases hw : w.mem k with
  | none =>
    rw [hw] at this
    simp at this
  | some e =>
    rw [hw] at this
    simp only [Option.map_some, Option.some.injEq, Ent.read, Ent.mk.injEq, and_true] at this
    exact ⟨e, rfl, this⟩

theorem World.SameRefs.symm (h : w.SameRefs w') : w'.SameRefs w :=
  ⟨by rw [h.1], fun k => (h.2 k).symm⟩

theorem World.SameRefs.held (h : w.SameRefs w') (i : Nat) : w'.Held i → w.Held i := by
  rintro ⟨k, e', hk, hi⟩
  rcases h.some hk with ⟨e, hk', hinum, -⟩
  exact ⟨k, e, hk', hinum.symm.trans hi⟩

theorem World.SameRefs.settled (h : w.SameRefs w') (hs : w.Settled) : w'.Settled := by
  refine ⟨fun k e' hk => ?_, fun i hd => ?_, ?_⟩
  · rcases h.some hk with ⟨e, hk', -, href, -⟩
    rw [href]
    exact hs.pos k e hk'
  · refine h.symm.held i (hs.zombie i ?_)
    rcases hd with ⟨f, hf, hnl⟩
    rw [h.files] at hf
    exact ⟨f, hf, hnl⟩
  · rw [h.files]
    exact hs.linked

theorem World.SameRefs.roomy (h : w.SameRefs w') (hw : w.Roomy) : w'.Roomy := by
  rcases hw with ⟨k, l, hne, hk, hl⟩
  exact ⟨k, l, hne, (h.none_iff k).mpr hk, (h.none_iff l).mpr hl⟩

theorem World.SameRefs.locked (h : w.SameRefs w') (hw : w'.Locked) : w.Locked := by
  rcases hw with ⟨k, e', hk, hlock⟩
  rcases h.some hk with ⟨e, hk', -, -, he⟩
  exact ⟨k, e, hk', by rw [← he]; exact hlock⟩

theorem World.sameRefs_read (w : World) (k : Fin NINODE) : w.SameRefs (w.modEnt k Ent.read) := by
  refine ⟨rfl, fun l => ?_⟩
  change (update w.mem k ((w.mem k).map Ent.read) l).map Ent.read = _
  by_cases hl : l = k
  · rw [hl, update_self, Option.map_map]
    rfl
  · rw [update_of_ne hl]

theorem World.unlock_lock (h : ∀ e, w.mem k = some e → e.lock = none) :
    ((w.get i k v).lock k p).unlock k = (w.modEnt k Ent.read).get i k true := by
  unfold World.lock World.unlock World.modEnt World.get
  simp only [update_self, update_idem, Option.map_some]
  cases hk : w.mem k with
  | none => rfl
  | some e =>
    have hl := h e hk
    cases e with
    | mk inum ref lock valid =>
      simp only at hl
      rw [hl]
      rfl

theorem World.Settled.put_get (hs : w.Settled) (hk : w.Slot i k) : (w.get i k v).put k = w := by
  cases v with
  | true => rw [World.put_get hk (hs.pos k), World.reap_eq hs.zombie]
  | false => exact World.put_get_unread hk (hs.pos k)

theorem World.SameRefs.slot (h : w.SameRefs w') (hk : w.Slot i k) : w'.Slot i k := by
  rcases hk with ⟨e, hk, hi⟩ | ⟨hk, hnot⟩
  · rcases h.symm.some hk with ⟨e', hk', hinum, -⟩
    exact Or.inl ⟨e', hk', hinum.symm.trans hi⟩
  · exact Or.inr ⟨(h.none_iff k).mpr hk, fun hh => hnot (h.held i hh)⟩

theorem World.Slot.of_get (h : (w.get i k v).Slot j l) (hi : w.Slot i k) (hne : l ≠ k) :
    w.Slot j l := by
  have hmem : ∀ m, m ≠ k → (w.get i k v).mem m = w.mem m := fun m hm => World.get_mem_of_ne hm
  rcases h with ⟨e, hl, hj⟩ | ⟨hl, hnot⟩
  · rw [hmem l hne] at hl
    exact Or.inl ⟨e, hl, hj⟩
  · rw [hmem l hne] at hl
    refine Or.inr ⟨hl, fun hh => hnot ?_⟩
    rcases hh with ⟨m, e, hm, he⟩
    by_cases hmk : m = k
    · rw [hmk] at hm
      rcases hi with ⟨e₀, h₀, hi₀⟩ | ⟨h₀, -⟩
      · rw [h₀] at hm
        refine ⟨k, { e₀ with ref := e₀.ref + 1 }, ?_, ?_⟩
        · rw [World.get_of_some h₀]
          exact update_self _ _ _
        · rw [← he, ← Option.some.inj hm]
      · rw [h₀] at hm
        cases hm
    · exact ⟨m, e, (hmem m hmk).trans hm, he⟩

theorem World.slot_unlock (h : w.Slot j l) (k : Fin NINODE) : (w.unlock k).Slot j l := by
  have hmem : ∀ m, (w.unlock k).mem m =
      (w.mem m).map (fun e => if m = k then { e with lock := none } else e) := by
    intro m
    change update w.mem k _ m = _
    by_cases hm : m = k
    · rw [hm, update_self]
      simp
    · rw [update_of_ne hm]
      simp [hm]
  have hinum : ∀ m (e : Ent), (if m = k then { e with lock := none } else e).inum = e.inum := by
    intro m e
    split <;> rfl
  rcases h with ⟨e, hl, hj⟩ | ⟨hl, hnot⟩
  · exact Or.inl ⟨_, by rw [hmem, hl]; rfl, (hinum l e).trans hj⟩
  · refine Or.inr ⟨by rw [hmem, hl]; rfl, fun hh => hnot ?_⟩
    rcases hh with ⟨m, e, hm, he⟩
    rw [hmem] at hm
    rcases Option.map_eq_some_iff.mp hm with ⟨e₀, h₀, rfl⟩
    exact ⟨m, e₀, h₀, (hinum m e₀).symm.trans he⟩

theorem World.put_get_comm (hne : l ≠ k) : (w.get j l v).put k = (w.put k).get j l v := by
  have hk : (w.get j l v).mem k = w.mem k := World.get_mem_of_ne hne.symm
  have hdead : ∀ i, (w.get j l v).Dead i ↔ w.Dead i := fun _ => Iff.rfl
  cases hw : w.mem k with
  | none =>
    unfold World.put
    rw [hk, hw]
  | some e =>
    rw [hw] at hk
    by_cases h1 : e.ref = 1
    · rw [World.put_last hk h1, World.put_last hw h1]
      unfold World.get
      simp only [update_of_ne hne, update_comm hne]
      congr 1
    · rw [World.put_more hk h1, World.put_more hw h1]
      unfold World.get
      simp only [update_of_ne hne, update_comm hne]

theorem World.unlock_get_comm (hne : l ≠ k) :
    (w.get j l v).unlock k = (w.unlock k).get j l v := by
  unfold World.unlock World.modEnt World.get
  simp only [update_of_ne hne, update_of_ne hne.symm, update_comm hne]

theorem World.unlock_get_self (hk : w.mem k = some e) :
    (w.get i k v).unlock k = (w.unlock k).get i k v := by
  unfold World.unlock World.modEnt World.get
  simp only [hk, update_self, update_idem, Option.map_some]

/-- The lock and the reference to a directory are given back, while a reference
    to the inode found in it is kept. -/
theorem World.release (hs : w.Settled) (hi : w.Slot i k)
    (hlock : ∀ e, w.mem k = some e → e.lock = none)
    (hj : ((w.get i k v).lock k p).Slot j l) :
    (w.modEnt k Ent.read).Slot j l ∧ ∃ v',
      ((((w.get i k v).lock k p).get j l false).unlock k).put k =
        (w.modEnt k Ent.read).get j l v' := by
  have hsame := World.sameRefs_read w k
  have hs₁ := hsame.settled hs
  have hi₁ := hsame.slot hi
  have hunlock := @World.unlock_lock w i k p v hlock
  by_cases hlk : l = k
  · -- The inode found is the directory itself.
    rcases hi.ent v with ⟨e, he, hinum, -⟩
    have hW : ((w.get i k v).lock k p).mem k = some { e with lock := some p, valid := true } := by
      unfold World.lock World.modEnt
      rw [he]
      exact update_self _ _ _
    have hji : j = i := by
      rw [hlk] at hj
      rcases hj with ⟨e', he', hj⟩ | ⟨hn, -⟩
      · rw [hW] at he'
        rw [← hj, ← Option.some.inj he', ← hinum]
      · rw [hW] at hn
        cases hn
    rw [hlk, hji]
    refine ⟨hi₁, true, ?_⟩
    rw [World.unlock_get_self hW, hunlock]
    rcases hi₁.ent true with ⟨e₁, he₁, -, -, -, hpos⟩
    exact World.put_get_of_some he₁ hpos
  · refine ⟨?_, false, ?_⟩
    · have h₁ := World.slot_unlock hj k
      rw [hunlock] at h₁
      exact h₁.of_get hi₁ hlk
    · rw [World.unlock_get_comm hlk, hunlock, World.put_get_comm hlk, hs₁.put_get hi₁]

end Worlds

section Steps

variable {sb : Superblock} {s : Kernel} {w : World} {k : Fin NINODE} {e : Ent} {f : Node}

/-- `ilock` waits while somebody else holds the lock, and otherwise locks an
    inode that exists. -/
theorem Rep.ilock (hr : Rep sb s w) (hk : w.mem k = some e) (hf : w.files e.inum = some f)
    (p : Fin NPROC) :
    e.lock ≠ none ∧ run perform (ilock sb p k) s = .wait ∨
      e.lock = none ∧ ∃ s', run perform (ilock sb p k) s = .done ((), s') ∧
        Rep sb s' (w.lock k p) := by
  rcases hr.ent hk with ⟨href, hpos, -, -, -, hlock, -, -⟩
  have hacq : run perform (acquiresleep p k) s = s.acquire p k :=
    run_call perform (.acquire p k) s
  unfold Kernel.acquire at hacq
  rw [if_neg (by omega), hlock] at hacq
  cases hl : e.lock with
  | some q =>
    rw [hl] at hacq
    refine Or.inl ⟨nofun, ?_⟩
    unfold Xv6.ilock
    rw [run_bind, hacq]
    rfl
  | none =>
    rw [hl] at hacq
    refine Or.inr ⟨rfl, ?_⟩
    have hwait : run perform (Xv6.ilock sb p k) s ≠ .wait := by
      unfold Xv6.ilock
      rw [run_bind, hacq]
      -- With the lock taken, nothing else waits.
      refine Prog.Uses.not_wait (show Prog.Uses (fun c => ∀ s, perform c s ≠ .wait) _ from ?_) _
      refine (uses_call (prompt_blockSteps.inode k)).bind (fun i => uses_ite _
        (uses_ret ()) ?_)
      refine (uses_call (prompt_blockSteps.bread _)).bind (fun d => ?_)
      refine (uses_call (prompt_blockSteps.setInode _ _)).bind (fun _ => ?_)
      refine (uses_call (nofun)).bind (fun _ => uses_ite _ ?_
        (uses_ret ()))
      exact uses_panic (nofun)
    have hwp := ilock_wp (E := fun _ => False) hr hk p (fun _ s' => Rep sb s' (w.lock k p))
      (fun hc => by rw [hf] at hc; cases hc) (fun s' _ _ _ hr' => hr')
    rcases run_of_wpk hwp hwait (fun _ hc => hc.elim) with ⟨_, s', hrun, hr'⟩
    exact ⟨s', hrun, hr'⟩

theorem Rep.iunlock (hr : Rep sb s w) (hk : w.mem k = some e) (p : Fin NPROC)
    (hl : e.lock = some p) :
    ∃ s', run perform (iunlock p k) s = .done ((), s') ∧ Rep sb s' (w.unlock k) := by
  have hwp := iunlock_wp (E := fun _ => False) hr hk p hl (fun _ s' => Rep sb s' (w.unlock k))
    (fun s' hr' => hr')
  have hwait : run perform (Xv6.iunlock p k) s ≠ .wait := by
    intro hc
    have hrel : run perform (Xv6.iunlock p k) s = s.release p k :=
      run_call perform (.release p k) s
    rw [hrel] at hc
    unfold Kernel.release at hc
    split at hc <;> cases hc
  rcases run_of_wpk hwp hwait (fun _ hc => hc.elim) with ⟨_, s', hrun, hr'⟩
  exact ⟨s', hrun, hr'⟩

theorem Rep.iunlockput (hr : Rep sb s w) (hk : w.mem k = some e) (p : Fin NPROC)
    (hl : e.lock = some p) (hkeep : e.ref = 1 → ¬w.Dead e.inum) :
    ∃ s', run perform (iunlockput sb p k) s = .done ((), s') ∧
      Rep sb s' ((w.unlock k).put k) := by
  rcases hr.iunlock hk p hl with ⟨s₁, hrun, hr₁⟩
  have hk₁ : (w.unlock k).mem k = some { e with lock := none } := by
    unfold World.unlock World.modEnt
    rw [hk]
    exact update_self _ _ _
  rcases hr₁.iput hk₁ (Or.inl rfl) hkeep p with ⟨s₂, hrun₂, hr₂⟩
  refine ⟨s₂, ?_, hr₂⟩
  unfold Xv6.iunlockput
  rw [run_bind, hrun]
  exact hrun₂

theorem Rep.iget (hr : Rep sb s w) (i : Nat) (hi : i < sb.ninodes) :
    w.Full i ∧ run perform (iget ROOTDEV i) s = .panic .igetNoInodes ∨
      ∃ k s', run perform (iget ROOTDEV i) s = .done (k, s') ∧ w.Slot i k ∧
        Rep sb s' (w.get i k false) := by
  have hwp := iget_wp (E := fun x => x = .igetNoInodes ∧ w.Full i) hr i hi
    (fun k s' => w.Slot i k ∧ Rep sb s' (w.get i k false)) (fun h => ⟨rfl, h⟩)
    (fun k s' h h' => ⟨h, h'⟩)
  cases hrun : run perform (Xv6.iget ROOTDEV i) s with
  | done r => exact Or.inr ⟨r.1, r.2, rfl, wpk_result hwp hrun⟩
  | panic x =>
    unfold wpk at hwp
    rcases Prog.wp_panic hwp hrun with ⟨hx, hfull⟩
    exact Or.inl ⟨hfull, by rw [hx]⟩
  | wait => exact absurd hrun (Prog.Uses.not_wait (uses_call (prompt_iget ROOTDEV i)) s)

end Steps

/-- What has been taken: an inode and the element split off last, or nothing. -/
def Took (sb : Superblock) (w : World) :
    Option (Fin NINODE × List Byte) → Option (Nat × List Byte) → Kernel → Prop
  | none, none, s => Rep sb s w
  | some (l, name), some (j, name'), s =>
    name = name' ∧ w.Slot j l ∧ ∃ v, Rep sb s (w.get j l v)
  | _, _, _ => False

/-- How the loop of `namex` ends. It waits only for a lock, and it panics only if
    there are not two free entries in the inode table. -/
def Followed (sb : Superblock) (w : World) (o : Option (Nat × List Byte)) :
    Outcome Panic (Option (Fin NINODE × List Byte) × Kernel) → Prop
  | .done r => ∃ w', w.SameRefs w' ∧ Took sb w' r.1 o r.2
  | .panic e => e = .igetNoInodes ∧ ¬w.Roomy
  | .wait => w.Locked

section Loop

variable {sb : Superblock} {s : Kernel} {w w₁ : World} {i : Nat} {k : Fin NINODE} {e : Ent}
  {f : Node} {v : Bool} {p : Fin NPROC}

theorem Followed.mono {o : Option (Nat × List Byte)}
    {x : Outcome Panic (Option (Fin NINODE × List Byte) × Kernel)} (hsame : w.SameRefs w₁)
    (h : Followed sb w₁ o x) : Followed sb w o x := by
  cases x with
  | done r =>
    rcases h with ⟨w', hs, ht⟩
    exact ⟨w', hsame.trans hs, ht⟩
  | panic e => exact ⟨h.1, fun hr => h.2 (hsame.roomy hr)⟩
  | wait => exact hsame.locked h

theorem World.Full.not_roomy {j : Nat} (h : ((w.get i k v).lock k p).Full j) : ¬w.Roomy := by
  rintro ⟨l, m, hne, hl, hm⟩
  have hfree : ∀ n, n ≠ k → w.mem n = none → False := by
    intro n hn hmem
    refine h.2 n ?_
    unfold World.lock
    rw [World.modEnt_mem_of_ne _ hn, World.get_mem_of_ne hn, hmem]
  by_cases hlk : l = k
  · exact hfree m (fun hc => hne (hlk.trans hc.symm)) hm
  · exact hfree l hlk hl

theorem World.get_ent {j : Nat} {l : Fin NINODE} (hk : w.mem k = some e) (hpos : 0 < e.ref) :
    ∃ e', (w.get j l v).mem k = some e' ∧ e'.inum = e.inum ∧ e'.lock = e.lock ∧
      (e'.ref = 1 → e.ref = 1) := by
  by_cases hl : l = k
  · rw [hl, World.get_of_some hk]
    refine ⟨{ e with ref := e.ref + 1 }, update_self _ _ _, rfl, rfl, fun h1 => ?_⟩
    simp only at h1
    omega
  · exact ⟨e, (World.get_mem_of_ne (Ne.symm hl)).trans hk, rfl, rfl, id⟩

theorem dirlookup_not_wait (sb : Superblock) (dp : Fin NINODE) (name : List Byte) (s : Kernel) :
    run perform (dirlookup sb dp name) s ≠ .wait := by
  have hX := layered_uses prompt_blockSteps
  have hloop : ∀ dev size fuel off,
      Prog.Uses Cmd.Prompt (dirlookupFrom sb dp dev size name fuel off) := by
    intro dev size fuel
    induction fuel with
    | zero => exact fun _ => uses_ret _
    | succ fuel ih =>
      intro off
      refine uses_ite _ ((hX.readi sb dp _ _ _).bind (fun r => ?_)) (uses_ret _)
      refine uses_ite _ (uses_panic (nofun)) (uses_ite _ (ih _) ?_)
      exact uses_ite _ ((uses_call (prompt_iget _ _)).bind (fun _ => uses_ret _))
        (ih _)
  refine Prog.Uses.not_wait (show Prog.Uses Cmd.Prompt _ from ?_) s
  exact (uses_call (prompt_blockSteps.inode dp)).bind
    (fun _ => uses_ite _ (uses_panic (nofun)) (hloop _ _ _ _))

theorem World.lock_ent (he : w.mem k = some e) :
    (w.lock k p).mem k = some { e with lock := some p, valid := true } := by
  unfold World.lock World.modEnt
  rw [he]
  exact update_self _ _ _

theorem Rep.leave (hs : w.Settled) (hi : w.Slot i k)
    (hlock : ∀ e, w.mem k = some e → e.lock = none)
    (hr : Rep sb s ((w.get i k v).lock k p)) :
    ∃ s', run perform (Xv6.iunlockput sb p k) s = .done ((), s') ∧
      Rep sb s' (w.modEnt k Ent.read) := by
  have hsame := World.sameRefs_read w k
  rcases hi.ent v with ⟨e, he, -⟩
  have hU : ((w.get i k v).lock k p).mem k = _ := World.lock_ent he
  have hkeep : e.ref = 1 → ¬(w.get i k v).Dead e.inum := hi.keeps hs.pos hs.zombie he
  rcases hr.iunlockput hU p rfl hkeep with ⟨s', hrun, hr'⟩
  rw [World.unlock_lock hlock, (hsame.settled hs).put_get (hsame.slot hi)] at hr'
  exact ⟨s', hrun, hr'⟩

/-- The loop leaves a directory for an inode that was found in it. -/
theorem Rep.descend {j : Nat} {l : Fin NINODE} (hs : w.Settled) (hi : w.Slot i k)
    (hlock : ∀ e, w.mem k = some e → e.lock = none)
    (hj : ((w.get i k v).lock k p).Slot j l)
    (hr : Rep sb s (((w.get i k v).lock k p).get j l false)) :
    ∃ s', run perform (Xv6.iunlockput sb p k) s = .done ((), s') ∧
      (w.modEnt k Ent.read).Slot j l ∧ ∃ v', Rep sb s' ((w.modEnt k Ent.read).get j l v') := by
  rcases hi.ent v with ⟨e, he, -, -, -, hpos⟩
  have hU : ((w.get i k v).lock k p).mem k = _ := World.lock_ent he
  rcases World.get_ent (j := j) (l := l) (v := false) hU hpos with ⟨e', he', hinum, hlk, h1⟩
  have hkeep : e'.ref = 1 → ¬(((w.get i k v).lock k p).get j l false).Dead e'.inum := by
    intro he1
    have hold : ¬(w.get i k v).Dead e.inum := hi.keeps hs.pos hs.zombie he (h1 he1)
    rw [hinum]
    exact hold
  rcases hr.iunlockput he' p hlk hkeep with ⟨s', hrun, hr'⟩
  rcases World.release hs hi hlock hj with ⟨hslot, v', heq⟩
  rw [heq] at hr'
  exact ⟨s', hrun, hslot, v', hr'⟩

theorem World.Linked.child {files : Nat → Option Node} (h : World.Linked files)
    (hf : files i = some f) (ht : f.type = T_DIR) {name : List Byte} {m : Nat}
    (hm : f.lookup name = some m) : ∃ g, files (f.entry m).inum.toNat = some g := by
  rcases (Node.lookup_eq_some name).mp hm with ⟨hmatch, hlt, -⟩
  exact h i f m hf ht hlt hmatch.1

/-- `dirlookup` panics if it finds a name and the inode table is full. -/
theorem Rep.dirlookup_panic (hr : Rep sb s w) (hd : IsDir sb w k e f) (name : List Byte)
    {E : Prop} (hfull : ∀ j, w.Full j → E) {x : Panic}
    (hrun : run perform (dirlookup sb k name) s = .panic x) : x = .igetNoInodes ∧ E := by
  have hwp := dirlookup_wp (E := fun x => x = .igetNoInodes ∧ E) hr hd name (fun _ _ => True)
    (fun h => ⟨rfl, h.elim hfull⟩) (fun _ => trivial) (fun _ _ _ _ _ _ => trivial)
  unfold wpk at hwp
  exact Prog.wp_panic hwp hrun

theorem Rep.dirlookup_done (hr : Rep sb s w) (hd : IsDir sb w k e f) (name : List Byte)
    {r : Option (Fin NINODE × Nat) × Kernel}
    (hrun : run perform (dirlookup sb k name) s = .done r) :
    r.1 = none ∧ f.lookup name = none ∧ Rep sb r.2 w ∨
      ∃ m l, r.1 = some (l, 16 * m) ∧ f.lookup name = some m ∧
        w.Slot (f.entry m).inum.toNat l ∧ Rep sb r.2 (w.get (f.entry m).inum.toNat l false) := by
  have hwp := dirlookup_wp (E := fun _ => True) hr hd name (fun r s' =>
    r = none ∧ f.lookup name = none ∧ Rep sb s' w ∨
      ∃ m l, r = some (l, 16 * m) ∧ f.lookup name = some m ∧
        w.Slot (f.entry m).inum.toNat l ∧ Rep sb s' (w.get (f.entry m).inum.toNat l false))
    (fun _ => trivial) (fun h => Or.inl ⟨rfl, h, hr⟩)
    (fun m l s' h hj hr' => Or.inr ⟨m, l, rfl, h, hj, hr'⟩)
  exact wpk_result hwp hrun

/-- The loop of `namex` is `follow`. -/
theorem namexFrom_run (parent : Bool) {fuel : Nat} (path last : List Byte)
    (hfuel : path.length < fuel) (hs : w.Settled) (hi : w.Slot i k) (hf : w.files i = some f)
    (hr : Rep sb s (w.get i k v)) :
    Followed sb w (follow w.files parent i (components path) last)
      (run perform (namexFrom sb p parent fuel k path last) s) := by
  -- The induction is on the rounds; what changes is the world up to `SameRefs`.
  induction fuel generalizing path last s w i k f v with
  | zero => omega
  | succ fuel ih =>
    unfold namexFrom
    rcases hi.ent v with ⟨e, he, hinum, hold, hnew, hpos⟩
    rcases skipelem_components path with ⟨hnil, hskip⟩ | ⟨name, rest, hskip, hcons, hrest, hlen⟩
    · rw [hskip, hnil]
      cases parent with
      | false => exact ⟨w, World.SameRefs.refl w, rfl, hi, v, hr⟩
      | true =>
        rcases hr.iput_found hi hs.pos hs.zombie p with ⟨s', hrun, hr'⟩
        simp only [if_true, run_bind, hrun]
        refine ⟨w, World.SameRefs.refl w, ?_⟩
        rwa [hs.put_get hi] at hr'
    · rw [hskip, hcons]
      simp only
      unfold follow
      rw [hf]
      rw [run_bind]
      rcases hr.ilock he (by rw [hinum]; exact hf) p with ⟨hl, hrun⟩ | ⟨hl, s₁, hrun, hr₁⟩
      · -- Somebody holds the lock.
        rw [hrun]
        cases hk : w.mem k with
        | none => exact absurd (hnew hk) hl
        | some e₀ => exact ⟨k, e₀, hk, by rw [← (hold e₀ hk).1]; exact hl⟩
      · rw [hrun]
        have hlock : ∀ e₀, w.mem k = some e₀ → e₀.lock = none := by
          intro e₀ hk
          rw [← (hold e₀ hk).1]
          exact hl
        have hsame := World.sameRefs_read w k
        have hU : ((w.get i k v).lock k p).mem k = _ := World.lock_ent he
        have hfU : ((w.get i k v).lock k p).files e.inum = some f := by
          rw [hinum]
          exact hf
        have hget : run perform (getInode k) s₁ = .done (s₁.itable k, s₁) := rfl
        simp only [run_bind, Outcome.done_bind, hget,
          (hr₁.shows_of hU rfl hfU).type, hrest]
        by_cases ht : f.type = T_DIR
        · rw [if_neg (not_not_intro ht), if_neg (not_not_intro ht)]
          by_cases hstop : parent = true ∧ components rest = []
          · rw [if_pos hstop, if_pos hstop]
            rcases hr₁.iunlock hU p rfl with ⟨s₂, hrun₂, hr₂⟩
            rw [World.unlock_lock hlock] at hr₂
            rw [run_bind, hrun₂]
            exact ⟨_, hsame, rfl, hsame.slot hi, true, hr₂⟩
          · rw [if_neg hstop, if_neg hstop, run_bind]
            have hdir : IsDir sb ((w.get i k v).lock k p) k _ f := ⟨hU, rfl, hfU, ht⟩
            cases hd : run perform (dirlookup sb k name) s₁ with
            | wait => exact absurd hd (dirlookup_not_wait sb k name s₁)
            | panic e => exact hr₁.dirlookup_panic hdir name (fun j h => h.not_roomy) hd
            | done r =>
              rcases hr₁.dirlookup_done hdir name hd with
                ⟨hr0, hnone, hr₂⟩ | ⟨m, l, hr0, hsome, hj, hr₂⟩
              · rcases hr₂.leave hs hi hlock with ⟨s₃, hrun₃, hr₃⟩
                simp only [Outcome.done_bind, hr0, hnone, run_bind, hrun₃]
                exact ⟨_, hsame, hr₃⟩
              · rcases hr₂.descend hs hi hlock hj with ⟨s₃, hrun₃, hj₁, v', hr₃⟩
                simp only [Outcome.done_bind, hr0, hsome, run_bind, hrun₃]
                rcases hs.linked.child hf ht hsome with ⟨g, hg⟩
                exact (ih rest name (by omega) (hsame.settled hs) hj₁ hg hr₃).mono hsame
        · rw [if_pos ht, if_pos ht]
          rcases hr₁.leave hs hi hlock with ⟨s₂, hrun₂, hr₂⟩
          rw [run_bind, hrun₂]
          exact ⟨_, hsame, hr₂⟩

end Loop

/-- From `s` to `s'` one reference is taken to entry `r` of the inode table, or
    none at all, and files, locks and other references are as before. -/
structure TookRef (sb : Superblock) (s s' : Kernel) (r : Option (Fin NINODE)) : Prop where
  files : node (vol sb s'.blk) = node (vol sb s.blk)
  ref : ∀ m, (s'.itable m).ref = (s.itable m).ref + if r = some m then 1 else 0
  lock : ∀ m, (s'.itable m).lock = (s.itable m).lock
  inum : ∀ m, (s.itable m).ref ≠ 0 → (s'.itable m).inum = (s.itable m).inum

/-- How a path lookup in `s` ends that is to have the result `o`, where `val` is
    what a result in memory stands for. -/
def Resolved {α β : Type} (sb : Superblock) (s : Kernel) (ino : α → Fin NINODE)
    (val : Kernel → α → β) (o : Option β) : Outcome Panic (Option α × Kernel) → Prop
  | .done (r, s') => TookRef sb s s' (r.map ino) ∧ r.map (val s') = o
  | .panic e => e = .igetNoInodes ∧
      ¬∃ k l, k ≠ l ∧ (s.itable k).ref = 0 ∧ (s.itable l).ref = 0
  | .wait => ∃ k, (s.itable k).lock ≠ none

/-- The inode that a path starts from. -/
def startOf (s : Kernel) (p : Fin NPROC) (path : List Byte) : Nat :=
  if path.head? = some slash then ROOTINO
  else match (s.proc p).cwd with
    | none => 0
    | some k => (s.itable k).inum

/-- `n` references are added to an inode in memory. -/
def Grown (n : Nat) : Option Ent → Option Ent → Prop
  | none, none => n = 0
  | none, some e => e.ref = n ∧ e.lock = none
  | some e, some e' => e'.ref = e.ref + n ∧ e'.lock = e.lock ∧ e'.inum = e.inum
  | some _, none => False

section Paths

variable {sb : Superblock} {s s' : Kernel} {w w' : World} {p : Fin NPROC}

theorem World.SameRefs.grown (h : w.SameRefs w') (m : Fin NINODE) :
    Grown 0 (w.mem m) (w'.mem m) := by
  cases hm : w'.mem m with
  | none =>
    rw [(h.none_iff m).mp hm]
    exact rfl
  | some e' =>
    rcases h.some hm with ⟨e, he, hinum, href, hlock⟩
    rw [he]
    exact ⟨href, hlock, hinum⟩

theorem World.SameRefs.grown_get {j : Nat} {l : Fin NINODE} (h : w.SameRefs w') (v : Bool)
    (hj : w'.Slot j l) (m : Fin NINODE) :
    Grown (if l = m then 1 else 0) (w.mem m) ((w'.get j l v).mem m) := by
  by_cases hm : l = m
  · rw [if_pos hm, ← hm]
    rcases hj.ent v with ⟨e, he, hinum, hold, hnew, -⟩
    have hg := h.grown l
    rw [he]
    cases hl : w'.mem l with
    | none =>
      rw [(h.none_iff l).mp hl]
      refine ⟨?_, hnew hl⟩
      simp only [World.get_of_none hl, update_self, Option.some.injEq] at he
      rw [← he]
    | some e₁ =>
      rcases h.some hl with ⟨e₀, he₀, hinum₀, href₀, hlock₀⟩
      rcases hold e₁ hl with ⟨hlock, href⟩
      rcases hj with ⟨e₂, he₂, hj⟩ | ⟨hc, -⟩
      · rw [hl] at he₂
        rw [he₀]
        refine ⟨href.trans (by rw [href₀]), hlock.trans hlock₀, ?_⟩
        rw [hinum, ← hj, ← Option.some.inj he₂, hinum₀]
      · exact absurd (hl.symm.trans hc) nofun
  · rw [if_neg hm, World.get_mem_of_ne (Ne.symm hm)]
    exact h.grown m

theorem Grown.kernel {V V' : Vol} {n : Nat} {x x' : Inode} {o o' : Option Ent}
    (h : Grown n o o') (hx : EntOk sb V x o) (hx' : EntOk sb V' x' o') :
    x'.ref = x.ref + n ∧ x'.lock = x.lock ∧ (x.ref ≠ 0 → x'.inum = x.inum) := by
  cases o with
  | none =>
    cases o' with
    | none => exact ⟨by rw [hx.1, hx'.1, (h : n = 0)]; rfl, hx'.2.trans hx.2.symm,
        fun hc => absurd hx.1 hc⟩
    | some e' =>
      rcases hx' with ⟨href, -, -, -, -, hlock, -⟩
      exact ⟨by rw [href, hx.1, h.1, zero_add], by rw [hlock, h.2, hx.2],
        fun hc => absurd hx.1 hc⟩
  | some e =>
    cases o' with
    | none => exact h.elim
    | some e' =>
      rcases hx with ⟨href, -, -, hinum, -, hlock, -⟩
      rcases hx' with ⟨href', -, -, hinum', -, hlock', -⟩
      exact ⟨by rw [href', href, h.1, Nat.cast_add], by rw [hlock', hlock, h.2.1],
        fun _ => by rw [hinum', hinum, h.2.2]⟩

theorem Took.tookRef {r : Option (Fin NINODE × List Byte)} {o : Option (Nat × List Byte)}
    (hr : Rep sb s w) (hsame : w.SameRefs w') (h : Took sb w' r o s') :
    TookRef sb s s' (r.map Prod.fst) ∧ r.map (fun x => ((s'.itable x.1).inum, x.2)) = o := by
  have hfiles : ∀ W : World, W.files = w'.files → Rep sb s' W →
      node (vol sb s'.blk) = node (vol sb s.blk) := by
    intro W hW hr'
    rw [← hr'.files, hW, hsame.files, hr.files]
  cases r with
  | none =>
    cases o with
    | some x => exact h.elim
    | none =>
      have hg := fun m => (hsame.grown m).kernel (hr.mem m) (Rep.mem h m)
      exact ⟨⟨hfiles w' rfl h, fun m => (hg m).1, fun m => (hg m).2.1, fun m => (hg m).2.2⟩,
        rfl⟩
  | some x =>
    cases o with
    | none => exact h.elim
    | some y =>
      rcases h with ⟨hname, hj, v, hr'⟩
      have hg := fun m => (hsame.grown_get v hj m).kernel (hr.mem m) (hr'.mem m)
      refine ⟨⟨hfiles (w'.get _ _ v) rfl hr', fun m => ?_, fun m => (hg m).2.1,
        fun m => (hg m).2.2⟩, ?_⟩
      · rw [(hg m).1]
        simp only [Option.map_some, Option.some.injEq]
        split <;> rfl
      · rcases hj.ent v with ⟨e, he, hinum, -⟩
        rw [Option.map_some, (hr'.ent he).2.2.2.1, hinum, hname]

/-- `namex` resolves a path, or its parent. -/
theorem namex_resolved (hr : Rep sb s w) (hlinked : World.Linked w.files)
    (hroot : ∃ f, w.files ROOTINO = some f)
    (hcwd : ∃ k e f, (s.proc p).cwd = some k ∧ w.mem k = some e ∧ w.files e.inum = some f)
    (parent : Bool) (path : List Byte) :
    Resolved sb s Prod.fst (fun s' x => ((s'.itable x.1).inum, x.2))
      (follow (node (vol sb s.blk)) parent (startOf s p path) (components path) [])
      (run perform (namex sb p parent path) s) := by
  have hs : w.Settled := ⟨fun k e hk => (hr.ent hk).2.1, hr.zombie, hlinked⟩
  -- In terms of the kernel.
  have hkernel : ∀ {o x}, Followed sb w o x →
      Resolved sb s Prod.fst (fun s' x => ((s'.itable x.1).inum, x.2)) o x := by
    intro o x h
    cases x with
    | done r =>
      rcases h with ⟨w', hsame, ht⟩
      exact ht.tookRef hr hsame
    | panic e =>
      have hfree : ∀ k, (s.itable k).ref = 0 → w.mem k = none := by
        intro k hk
        cases hw : w.mem k with
        | none => rfl
        | some e =>
          rcases hr.ent hw with ⟨href, hpos, -⟩
          omega
      exact ⟨h.1, fun ⟨k, l, hne, hk, hl⟩ => h.2 ⟨k, l, hne, hfree k hk, hfree l hl⟩⟩
    | wait =>
      rcases h with ⟨k, e, hk, hl⟩
      exact ⟨k, by rw [(hr.ent hk).2.2.2.2.2.1]; exact hl⟩
  rw [← hr.files]
  unfold namex startOf
  by_cases hslash : path.head? = some slash
  · rw [if_pos hslash, if_pos hslash, run_bind]
    rcases hroot with ⟨f, hf⟩
    have hlt : ROOTINO < sb.ninodes := by
      rw [hr.files] at hf
      exact hr.fs.range ROOTINO (node_isSome hf).1
    rcases hr.iget ROOTINO hlt with ⟨hfull, hrun⟩ | ⟨k, s₁, hrun, hk, hr₁⟩
    · rw [hrun]
      exact hkernel ⟨rfl, fun ⟨k, _, _, hk, _⟩ => hfull.2 k hk⟩
    · rw [hrun]
      exact hkernel (namexFrom_run parent path [] (Nat.lt_succ_self _) hs hk hf hr₁)
  · rcases hcwd with ⟨k, e, f, hc, hk, hf⟩
    have hget : run perform (getCwd p) s = .done (some k, s) := by rw [← hc]; rfl
    have hwp := idup_wp (E := fun _ => False) hr hk
      (fun _ s' => ∃ v, Rep sb s' (w.get e.inum k v)) (fun s' v h => ⟨v, h⟩)
    rcases run_of_wpk hwp nofun (fun _ h => h.elim) with ⟨_, s₁, hrun, v, hr₁⟩
    rw [if_neg hslash, if_neg hslash, hc, run_bind, hget]
    simp only [Outcome.done_bind, run_bind, hrun, (hr.ent hk).2.2.2.1]
    exact hkernel (namexFrom_run parent path [] (Nat.lt_succ_self _) hs
      (Or.inl ⟨e, hk, rfl⟩) hf hr₁)

/-- `namei` and `nameiparent` fold directory lookup over the components of a path,
    and leave exactly the reference they return. `nameiparent` also fails if the
    last component would have to be looked up in something else than a directory. -/
theorem path_resolution (hr : Rep sb s w) (hlinked : World.Linked w.files)
    (hroot : ∃ f, w.files ROOTINO = some f)
    (hcwd : ∃ k e f, (s.proc p).cwd = some k ∧ w.mem k = some e ∧ w.files e.inum = some f)
    (path : List Byte) :
    Resolved sb s id (fun s' k => (s'.itable k).inum)
        (resolve (node (vol sb s.blk)) (startOf s p path) (components path))
        (Prog.run perform (namei sb p path) s) ∧
      Resolved sb s Prod.fst (fun s' x => ((s'.itable x.1).inum, x.2))
        (resolveParent (node (vol sb s.blk)) (startOf s p path) (components path))
        (Prog.run perform (nameiparent sb p path) s) := by
  refine ⟨?_, ?_⟩
  · have h := namex_resolved hr hlinked hroot hcwd false path
    rw [follow_false] at h
    unfold namei
    rw [run_bind]
    cases hrun : run perform (namex sb p false path) s with
    | done r =>
      rw [hrun] at h
      have hval := congrArg (Option.map Prod.fst) h.2
      rw [Option.map_map, Option.map_map] at hval
      refine ⟨?_, ?_⟩
      · rw [Option.map_id]
        exact h.1
      · rw [Option.map_map]
        exact hval.trans Option.map_id'
    | panic e | wait =>
      rw [hrun] at h
      exact h
  · have h := namex_resolved hr hlinked hroot hcwd true path
    rwa [follow_true] at h

end Paths

end Xv6
