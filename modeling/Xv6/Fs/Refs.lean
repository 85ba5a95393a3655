import Xv6.Fs.World

/-!
# Inodes in Memory

The functions of `kernel/fs.c` that take, lock and release inodes, as operations
of the world.

## Main definitions

* `Shows`: The copy of an inode in memory shows a file.
-/

namespace Xv6

open Function

/-- The copy of inode `k` in memory shows file `f`. -/
structure Shows (sb : Superblock) (s : Kernel) (k : Fin NINODE) (f : Node) : Prop where
  alloc : (s.itable k).d.type ≠ 0
  type : (s.itable k).d.type = f.type
  major : (s.itable k).d.major = f.major
  minor : (s.itable k).d.minor = f.minor
  nlink : (s.itable k).d.nlink = f.nlink
  data : contents (vol sb s.blk).data (s.itable k).d = f.data

section Refs

variable {sb : Superblock} {s s' : Kernel} {w : World} {k : Fin NINODE} {e : Ent} {f : Node}
  {E : Panic → Prop} {p : Fin NPROC}

theorem Shows.size (h : Shows sb s k f) : (s.itable k).d.size.toNat = f.data.length := by
  rw [← h.data, length_contents]

variable (hr : Rep sb s w)

include hr

variable (hk : w.mem k = some e)

include hk

theorem Rep.shows (hv : e.valid = true) :
    ∃ f, w.files e.inum = some f ∧ Shows sb s k f := by
  rcases (hr.ent hk).2.2.2.2.2.2.2 hv with ⟨hd, ht⟩
  refine ⟨{ type := (s.itable k).d.type, major := (s.itable k).d.major,
            minor := (s.itable k).d.minor, nlink := (s.itable k).d.nlink,
            data := contents (vol sb s.blk).data (s.itable k).d }, ?_, ?_⟩
  · rw [hr.files, node, nodeOf, ← hd, if_neg ht]
  · exact ⟨ht, rfl, rfl, rfl, rfl, rfl⟩

theorem Rep.shows_of (hv : e.valid = true) (hf : w.files e.inum = some f) : Shows sb s k f := by
  rcases hr.shows hk hv with ⟨g, hg, hs⟩
  rw [hf] at hg
  rw [Option.some.inj hg]
  exact hs

theorem Rep.pend_eq (hv : e.valid = true) :
    pend sb s k = vol sb s.blk := by
  rcases hr.ent hk with ⟨_, _, _, hinum, _, _, _, hd⟩
  unfold pend
  rw [(hd hv).1, hinum, update_eq_self]

theorem Rep.mapOk (hv : e.valid = true) :
    MapOk sb (pend sb s k) := by
  rw [hr.pend_eq hk hv]
  exact hr.fs.toMapOk

omit hk hr in
/-- What `iget` does to the table: it finds the entry of the inode or a free
    one, unless the table is full. -/
theorem iget_cases {V : Vol} (hmem : ∀ k, EntOk sb V (s.itable k) (w.mem k)) {i : Nat}
    (hi : i < sb.ninodes) :
    w.Full i ∧ s.iget ROOTDEV i = .panic .igetNoInodes ∨
      ∃ k x, w.Slot i k ∧ EntOk sb V x ((w.get i k false).mem k) ∧
        s.iget ROOTDEV i = .done (k, { s with itable := update s.itable k x }) := by
  have hent : ∀ k e, w.mem k = some e → EntOk sb V (s.itable k) (some e) := by
    intro k e hk
    rw [← hk]
    exact hmem k
  unfold Kernel.iget
  cases hfind : (List.finRange NINODE).find? (fun k =>
      0 < (s.itable k).ref ∧ (s.itable k).dev = ROOTDEV ∧ (s.itable k).inum = i) with
  | some k =>
    have hsome := List.find?_some hfind
    rw [decide_eq_true_eq] at hsome
    cases hk : w.mem k with
    | none =>
      have hfree := hmem k
      rw [hk] at hfree
      have := hfree.1
      omega
    | some e =>
      rcases hent k e hk with ⟨href, hpos, hdev, hinum, hlt, hlock, hval, hd⟩
      refine Or.inr ⟨k, _, Or.inl ⟨e, hk, hinum.symm.trans hsome.2.2⟩, ?_, rfl⟩
      rw [World.get_of_some hk]
      simp only [update_self]
      refine ⟨?_, Nat.succ_pos _, hdev, hinum, hlt, hlock, hval, hd⟩
      simp only [href, Nat.cast_add, Nat.cast_one]
  | none =>
    have hnot : ¬w.Held i := by
      rintro ⟨l, e, hl, he⟩
      rcases hent l e hl with ⟨href, hpos, hdev, hinum, _⟩
      have hno := List.find?_eq_none.mp hfind l (List.mem_finRange l)
      rw [decide_eq_true_eq] at hno
      exact hno ⟨by rw [href]; omega, hdev, hinum.trans he⟩
    simp only
    cases hfree : (List.finRange NINODE).find? (fun k => (s.itable k).ref = 0) with
    | some k =>
      have hzero := List.find?_some hfree
      rw [decide_eq_true_eq] at hzero
      have hk : w.mem k = none := by
        cases hk : w.mem k with
        | none => rfl
        | some e =>
          rcases hent k e hk with ⟨href, hpos, _⟩
          rw [hzero] at href
          omega
      have hm := hmem k
      rw [hk] at hm
      refine Or.inr ⟨k, _, Or.inr ⟨hk, hnot⟩, ?_, rfl⟩
      rw [World.get_of_none hk]
      simp only [update_self]
      exact ⟨rfl, Nat.one_pos, rfl, rfl, hi, hm.2, rfl, nofun⟩
    | none =>
      refine Or.inl ⟨⟨hnot, fun k hk => ?_⟩, rfl⟩
      have hm := hmem k
      rw [hk] at hm
      have hno := List.find?_eq_none.mp hfree k (List.mem_finRange k)
      rw [decide_eq_true_eq] at hno
      exact hno hm.1

omit hk hr in
theorem World.get_inum {i : Nat} {v : Bool} (hs : w.Slot i k) :
    ∃ e, (w.get i k v).mem k = some e ∧ e.inum = i := by
  rcases hs with ⟨e, hk, he⟩ | ⟨hk, _⟩
  · refine ⟨{ e with ref := e.ref + 1 }, ?_, he⟩
    rw [World.get_of_some hk]
    exact update_self _ _ _
  · refine ⟨⟨i, 1, none, v⟩, ?_, rfl⟩
    rw [World.get_of_none hk]
    exact update_self _ _ _

omit hk in
theorem iget_wp (i : Nat) (hi : i < sb.ninodes) (Q : Fin NINODE → Kernel → Prop)
    (hfull : w.Full i → E .igetNoInodes)
    (h : ∀ k s', w.Slot i k → Rep sb s' (w.get i k false) → Q k s') :
    wpk E (iget ROOTDEV i) Q s := by
  refine (wp_issue (.iget ROOTDEV i) Q).mpr ?_
  change Outcome.Meets E _ (s.iget ROOTDEV i)
  rcases iget_cases hr.mem hi with ⟨hf, hget⟩ | ⟨k, x, hs, hx, hget⟩
  · rw [hget]
    exact hfull hf
  · rw [hget]
    refine h k _ hs ?_
    rcases World.get_inum (v := false) hs with ⟨e, he, hinum⟩
    have hback : w.get i k false =
        { w with mem := update w.mem k ((w.get i k false).mem k) } := by
      unfold World.get
      simp only [update_self]
    rw [hback]
    refine hr.setEnt k x _ hx (fun e' he' l e'' hl hle => ?_) (fun e' he' _ => ⟨e, he, ?_⟩)
    · rw [he] at he'
      rw [← Option.some.inj he', hinum]
      rcases hs with ⟨e₀, hk, he₀⟩ | ⟨_, hnot⟩
      · exact fun hc => hl (hr.uniq l k e'' e₀ hle hk (hc.trans he₀.symm))
      · exact fun hc => hnot ⟨l, e'', hle, hc⟩
    · rcases hs with ⟨e₀, hk, he₀⟩ | ⟨hk, _⟩
      · rw [hk] at he'
        rw [← Option.some.inj he', hinum, he₀]
      · rw [hk] at he'
        exact nomatch he'

theorem idup_wp (Q : Unit → Kernel → Prop)
    (h : ∀ s' v, Rep sb s' (w.get e.inum k v) → Q () s') : wpk E (idup k) Q s := by
  rw [wp_idup]
  refine h _ false ?_
  have hmod : w.get e.inum k false = w.modEnt k (fun e => { e with ref := e.ref + 1 }) := by
    rw [World.get_of_some hk, World.modEnt, hk]
    rfl
  rcases hr.ent hk with ⟨href, hpos, hdev, hinum, hlt, hlock, hval, hd⟩
  rw [hmod]
  refine hr.modEnt hk _ _ rfl ⟨?_, Nat.succ_pos _, hdev, hinum, hlt, hlock, hval, hd⟩
  simp only [href, Nat.cast_add, Nat.cast_one]

/-- `ilock` waits for the lock, and panics only if the inode is free. -/
theorem ilock_wp (p : Fin NPROC) (Q : Unit → Kernel → Prop)
    (hbad : w.files e.inum = none → E .ilockNoType)
    (h : ∀ s' f, e.lock = none → w.files e.inum = some f → Rep sb s' (w.lock k p) → Q () s') :
    wpk E (ilock sb p k) Q s := by
  rcases hr.ent hk with ⟨href, hpos, hdev, hinum, hlt, hlock, hval, hd⟩
  unfold ilock
  rw [wp_bind]
  refine (wp_issue (.acquire p k) _).mpr ?_
  change Outcome.Meets E _ (s.acquire p k)
  unfold Kernel.acquire
  rw [if_neg (by omega), hlock]
  cases hle : e.lock with
  | some q => exact trivial
  | none =>
    change wpk E _ Q (s.modInode k (fun i => { i with lock := some p }))
    have hat : (s.modInode k (fun i => { i with lock := some p })).itable k =
        { s.itable k with lock := some p } := update_self _ _ _
    rw [wp_bind, wp_getInode, hat]
    by_cases hv : e.valid = true
    · rcases hr.shows hk hv with ⟨f, hf, _⟩
      rw [if_pos (by rw [hval]; exact hv), wp_pure]
      refine h _ f hle hf ?_
      exact hr.modEnt hk _ _ rfl ⟨href, hpos, hdev, hinum, hlt, rfl, hval.trans hv,
        fun _ => hd hv⟩
    · rw [if_neg (by rw [hval]; exact hv), wp_bind, wp_bread, wp_bind, wp_setInode, wp_bind,
        wp_setValid]
      have hdino : (vol sb s.blk).dino e.inum =
          dinodeAt (s.blk (sb.iblock (s.itable k).inum)) ((s.itable k).inum % IPB) := by
        rw [hinum]
        exact if_pos hlt
      change wpk E (if (dinodeAt (s.blk (sb.iblock (s.itable k).inum))
        ((s.itable k).inum % IPB)).type = 0 then _ else _) Q _
      rw [← hdino]
      by_cases ht : ((vol sb s.blk).dino e.inum).type = 0
      · rw [if_pos ht, wp_panic]
        refine hbad ?_
        rw [hr.files, node_eq_none_iff]
        exact ht
      · rw [if_neg ht, wp_pure]
        have hsome : ∃ f, w.files e.inum = some f := by
          rw [hr.files]
          exact Option.ne_none_iff_exists'.mp (fun hc => ht ((node_eq_none_iff _ _).mp hc))
        rcases hsome with ⟨f, hf⟩
        refine h _ f hle hf ?_
        unfold Kernel.modInode
        simp only [update_self, update_idem]
        refine hr.modEnt hk _ _ rfl ⟨href, hpos, hdev, hinum, hlt, rfl, rfl, fun _ =>
          ⟨hdino.symm, ?_⟩⟩
        rw [hdino] at ht
        exact ht

theorem iunlock_wp (p : Fin NPROC) (hl : e.lock = some p) (Q : Unit → Kernel → Prop)
    (h : ∀ s', Rep sb s' (w.unlock k) → Q () s') : wpk E (iunlock p k) Q s := by
  rcases hr.ent hk with ⟨href, hpos, hdev, hinum, hlt, hlock, hval, hd⟩
  refine (wp_issue (.release p k) Q).mpr ?_
  change Outcome.Meets E _ (s.release p k)
  unfold Kernel.release
  rw [if_neg]
  · refine h _ ?_
    exact hr.modEnt hk _ _ rfl ⟨href, hpos, hdev, hinum, hlt, rfl, hval, hd⟩
  · rintro (hc | hc)
    · exact hc (hlock.trans hl)
    · omega

theorem Rep.dropped (hlock : e.lock = none ∨ e.ref ≠ 1) (hkeep : e.ref = 1 → ¬w.Dead e.inum) :
    Rep sb (s.modInode k (fun i => { i with ref := i.ref - 1 })) (w.put k) := by
  rcases hr.ent hk with ⟨href, hpos, hdev, hinum, hlt, hlk, hval, hd⟩
  by_cases h1 : e.ref = 1
  · rw [World.put_last hk h1, if_neg (fun hc => hkeep h1 hc.2)]
    refine hr.setEnt k _ none ⟨?_, ?_⟩ (nofun) (fun e' he' hde => ?_)
    · simp only [href, h1, Nat.cast_one, sub_self]
    · exact hlk.trans (hlock.resolve_right (fun hc => hc h1))
    · rw [hk] at he'
      rw [← Option.some.inj he'] at hde
      exact absurd hde (hkeep h1)
  · have hmod : w.put k = w.modEnt k (fun e => { e with ref := e.ref - 1 }) := by
      rw [World.put_more hk h1, World.modEnt, hk]
      rfl
    rw [hmod]
    refine hr.modEnt hk _ _ rfl ⟨?_, ?_, hdev, hinum, hlt, hlk, hval, hd⟩
    · simp only [href]
      omega
    · simp only
      omega

theorem Rep.dead_iff (hv : e.valid = true) :
    w.Dead e.inum ↔ (s.itable k).d.nlink = 0 := by
  rcases hr.shows hk hv with ⟨f, hf, hsh⟩
  constructor
  · rintro ⟨g, hg, hnl⟩
    rw [hf] at hg
    rw [hsh.nlink, Option.some.inj hg, hnl]
  · intro hnl
    exact ⟨f, hf, by rw [← hsh.nlink, hnl]⟩

theorem Rep.iput (hlock : e.lock = none ∨ e.ref ≠ 1) (hkeep : e.ref = 1 → ¬w.Dead e.inum)
    (p : Fin NPROC) :
    ∃ s', Prog.run perform (iput sb p k) s = .done ((), s') ∧ Rep sb s' (w.put k) := by
  rcases hr.ent hk with ⟨href, hpos, -, -, -, -, hval, -⟩
  have htest : Prog.run perform (iputTest p k) s = s.iputTest p k :=
    Prog.run_call perform (.iputTest p k) s
  unfold Kernel.iputTest at htest
  rw [if_neg] at htest
  · refine ⟨_, ?_, hr.dropped hk hlock hkeep⟩
    unfold Xv6.iput
    rw [Prog.run_bind, htest]
    rfl
  · rintro ⟨h1, hv, hnl⟩
    have hv' : e.valid = true := hval.symm.trans hv
    exact hkeep (by omega) ((hr.dead_iff hk hv').mpr hnl)

omit hk hr in
theorem World.Slot.ent {i : Nat} (h : w.Slot i k) (v : Bool) :
    ∃ e, (w.get i k v).mem k = some e ∧ e.inum = i ∧
      (∀ e₀, w.mem k = some e₀ → e.lock = e₀.lock ∧ e.ref = e₀.ref + 1) ∧
      (w.mem k = none → e.lock = none) ∧ 0 < e.ref := by
  rcases h with ⟨e, hk, he⟩ | ⟨hk, _⟩
  · refine ⟨{ e with ref := e.ref + 1 }, ?_, he, fun e₀ h₀ => ?_, fun hn => ?_, Nat.succ_pos _⟩
    · rw [World.get_of_some hk]
      exact update_self _ _ _
    · rw [hk] at h₀
      rw [← Option.some.inj h₀]
      exact ⟨rfl, rfl⟩
    · rw [hk] at hn
      cases hn
  · refine ⟨⟨i, 1, none, v⟩, ?_, rfl, fun e₀ h₀ => ?_, fun _ => rfl, Nat.one_pos⟩
    · rw [World.get_of_none hk]
      exact update_self _ _ _
    · rw [hk] at h₀
      cases h₀

omit hk hr in
theorem World.Slot.keeps {i : Nat} {v : Bool} (h : w.Slot i k)
    (hpos : ∀ k e, w.mem k = some e → 0 < e.ref) (hz : w.NoZombie)
    (he : (w.get i k v).mem k = some e) (h1 : e.ref = 1) : ¬(w.get i k v).Dead e.inum := by
  rcases h.ent v with ⟨e', he', hi, hold, -⟩
  rw [he] at he'
  rw [← Option.some.inj he'] at hi hold
  rcases h with ⟨e₀, hk, -⟩ | ⟨hk, hnot⟩
  · have := (hold e₀ hk).2
    have := hpos k e₀ hk
    omega
  · rw [hi]
    exact fun hd => hnot (hz i hd)

omit hk hr in
/-- A reference that was just taken is dropped. -/
theorem Rep.iput_found {i : Nat} {v : Bool} (hr : Rep sb s (w.get i k v)) (hi : w.Slot i k)
    (hpos : ∀ k e, w.mem k = some e → 0 < e.ref) (hz : w.NoZombie) (p : Fin NPROC) :
    ∃ s', Prog.run perform (Xv6.iput sb p k) s = .done ((), s') ∧
      Rep sb s' ((w.get i k v).put k) := by
  rcases hi.ent v with ⟨e, he, -, hold, hnew, -⟩
  have hlock : e.lock = none ∨ e.ref ≠ 1 := by
    cases hk : w.mem k with
    | none => exact Or.inl (hnew hk)
    | some e₀ =>
      have h₀ := hpos k e₀ hk
      have h₁ := (hold e₀ hk).2
      exact Or.inr (by omega)
  exact hr.iput he hlock (hi.keeps hpos hz he) p

end Refs

end Xv6
