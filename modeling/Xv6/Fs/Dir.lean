import Xv6.Fs.Refs

/-!
# Directories

Looking up an entry of a directory.

A directory is a list of entries, some of them free, and `lookup` finds an entry by
name. `dirlookup` is this function on the file of the directory.

## Main definitions

* `Node.Match`, `Node.lookup`: A directory as a list of names.
-/

namespace Xv6

namespace Node

variable (f : Node)

/-- Entry `j` is in use and has the name. -/
def Match (name : List Byte) (j : Nat) : Prop :=
  (f.entry j).inum ≠ 0 ∧ namecmp name (f.entry j).name = 0

instance (name : List Byte) (j : Nat) : Decidable (f.Match name j) :=
  inferInstanceAs (Decidable (_ ∧ _))

/-- The first entry with the name. -/
def lookup (name : List Byte) : Option Nat :=
  (List.range f.entries).find? (fun j => f.Match name j)

end Node

section Entries

variable {f : Node} {j : Nat} {de : Dirent}

theorem Node.lookup_eq_some (name : List Byte) :
    f.lookup name = some j ↔ f.Match name j ∧ j < f.entries ∧ ∀ m, m < j → ¬f.Match name m := by
  unfold Node.lookup
  rw [List.find?_range_eq_some]
  simp only [decide_eq_true_eq, Bool.not_eq_eq_eq_not, Bool.not_true, decide_eq_false_iff_not]
  exact ⟨fun h => ⟨h.1, List.mem_range.mp h.2.1, h.2.2⟩,
    fun h => ⟨h.1, List.mem_range.mpr h.2.1, h.2.2⟩⟩

theorem Node.lookup_eq_none (name : List Byte) :
    f.lookup name = none ↔ ∀ j, j < f.entries → ¬f.Match name j := by
  unfold Node.lookup
  rw [List.find?_eq_none]
  simp only [List.mem_range, decide_eq_true_eq]

end Entries

section Calls

variable {sb : Superblock} {s : Kernel} {w : World} {k : Fin NINODE} {e : Ent} {f : Node}
  {E : Panic → Prop}

/-- A directory in memory. -/
structure IsDir (sb : Superblock) (w : World) (k : Fin NINODE) (e : Ent) (f : Node) : Prop where
  mem : w.mem k = some e
  valid : e.valid = true
  file : w.files e.inum = some f
  type : f.type = T_DIR

theorem IsDir.ok (h : IsDir sb w k e f) (hr : Rep sb s w) : DirOk sb f :=
  hr.fs.dirs e.inum f (by rw [← hr.files]; exact h.file) h.type

theorem IsDir.length_le (h : IsDir sb w k e f) (hr : Rep sb s w) :
    f.data.length ≤ MAXFILE * BSIZE := by
  have hsh := hr.shows_of h.mem h.valid h.file
  have hd := ((hr.ent h.mem).2.2.2.2.2.2.2 h.valid).1
  rw [← hsh.size, hd]
  exact hr.fs.maxSize e.inum (by rw [← hd]; exact hsh.alloc)

theorem readEntry_wp (hr : Rep sb s w) (h : IsDir sb w k e f) (j : Nat) (hj : j < f.entries)
    (Q : Int × List Byte → Kernel → Prop) (hQ : Q (16, (f.data.drop (16 * j)).take 16) s) :
    wpk E (readi sb k .kernel (BitVec.ofNat 32 (16 * j)) 16) Q s := by
  have hsh := hr.shows_of h.mem h.valid h.file
  have hmax : f.data.length ≤ 274432 := h.length_le hr
  have hlen : 16 * j + 16 ≤ f.data.length := by
    unfold Node.entries at hj
    omega
  have hoff : (BitVec.ofNat 32 (16 * j)).toNat = 16 * j := by
    rw [BitVec.toNat_ofNat]
    omega
  have h16 : (16 : BitVec 32).toNat = 16 := rfl
  refine readi_wp (hr.mapOk h.mem h.valid) hsh.alloc .kernel _ 16 Q (fun r bs _ _ hk => ?_)
  rcases hk rfl (by rw [hoff, h16]; omega) with ⟨hr', hbs⟩
  rw [hoff, h16, hsh.data] at hbs
  have hr16 : r = 16 := by
    rw [hr', hbs, List.length_take, List.length_drop]
    omega
  rw [hr16, hbs]
  exact hQ

theorem dirlookupFrom_wp (hr : Rep sb s w) (h : IsDir sb w k e f) (name : List Byte)
    (Q : Option (Fin NINODE × Nat) → Kernel → Prop) (fuel j : Nat)
    (hfuel : f.entries < j + fuel) (hlow : ∀ m, m < j → ¬f.Match name m)
    (hfull : (∃ i, w.Full i) → E .igetNoInodes) (hnone : f.lookup name = none → Q none s)
    (hsome : ∀ m l s', f.lookup name = some m → w.Slot (f.entry m).inum.toNat l →
      Rep sb s' (w.get (f.entry m).inum.toNat l false) → Q (some (l, 16 * m)) s') :
    wpk E (dirlookupFrom sb k ROOTDEV f.data.length name fuel (16 * j)) Q s := by
  have hok := h.ok hr
  have hdvd := hok.1
  induction fuel generalizing j with
  | zero =>
    unfold dirlookupFrom
    rw [wp_pure]
    refine hnone ((Node.lookup_eq_none name).mpr (fun m hm => hlow m (by omega)))
  | succ fuel ih =>
    have hnext : ¬f.Match name j →
        wpk E (dirlookupFrom sb k ROOTDEV f.data.length name fuel (16 * j + 16)) Q s := by
      intro hno
      refine ih (j + 1) (by omega) (fun m hm => ?_)
      by_cases hmj : m = j
      · rw [hmj]
        exact hno
      · exact hlow m (by omega)
    unfold dirlookupFrom
    by_cases hlt : 16 * j < f.data.length
    · have hj : j < f.entries := by
        unfold Node.entries
        omega
      rw [if_pos hlt, wp_bind]
      refine readEntry_wp hr h j hj _ ?_
      change wpk E (if (16 : Int) ≠ 16 then _ else if (f.entry j).inum = 0 then _ else _) Q s
      rw [if_neg (by simp only [ne_eq, not_true_eq_false, not_false_eq_true])]
      by_cases hz : (f.entry j).inum = 0
      · rw [if_pos hz]
        exact hnext (fun hm => hm.1 hz)
      · rw [if_neg hz]
        change wpk E (if namecmp name (f.entry j).name = 0 then _ else _) Q s
        by_cases hcmp : namecmp name (f.entry j).name = 0
        · rw [if_pos hcmp, wp_bind]
          refine iget_wp hr _ (hok.2 j hj) _ (fun hf => hfull ⟨_, hf⟩) (fun l s' hl hr' => ?_)
          rw [wp_pure]
          exact hsome j l s' ((Node.lookup_eq_some name).mpr ⟨⟨hz, hcmp⟩, hj, hlow⟩) hl hr'
        · rw [if_neg hcmp]
          exact hnext (fun hm => hcmp hm.2)
    · rw [if_neg hlt, wp_pure]
      refine hnone ((Node.lookup_eq_none name).mpr (fun m hm => hlow m ?_))
      unfold Node.entries at hm
      omega

/-- `dirlookup` finds what `lookup` finds. -/
theorem dirlookup_wp (hr : Rep sb s w) (h : IsDir sb w k e f) (name : List Byte)
    (Q : Option (Fin NINODE × Nat) → Kernel → Prop) (hfull : (∃ i, w.Full i) → E .igetNoInodes)
    (hnone : f.lookup name = none → Q none s)
    (hsome : ∀ m l s', f.lookup name = some m → w.Slot (f.entry m).inum.toNat l →
      Rep sb s' (w.get (f.entry m).inum.toNat l false) → Q (some (l, 16 * m)) s') :
    wpk E (dirlookup sb k name) Q s := by
  have hsh := hr.shows_of h.mem h.valid h.file
  unfold dirlookup
  rw [wp_bind, wp_getInode, if_neg (by rw [hsh.type, h.type]; exact fun hc => hc rfl), hsh.size,
    (hr.ent h.mem).2.2.1]
  refine dirlookupFrom_wp hr h name Q _ 0 ?_ (nofun) hfull
    hnone hsome
  unfold Node.entries
  omega

end Calls

end Xv6
