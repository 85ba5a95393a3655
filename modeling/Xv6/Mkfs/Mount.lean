import Mathlib.Data.List.TakeWhile
import Xv6.Fs.Proc
import Xv6.Fs.Read
import Xv6.Mkfs.Format

/-!
# The Kernel on an Image of mkfs

What `mkfs` wrote is what the kernel finds.

The two programs share the structures of `kernel/fs.h` and nothing else. The
kernel starts with the blocks that `mkfs` left behind and an inode table in
which nothing is locked, looks up the path of a file, and reads some of it. The
file has the inode that follows the ones of the files before it, the lookup gets
to its entry before it could get to a block that the root directory lacks, and
the bytes are those that went in, in whatever pieces they came.

## Theorems

* `namei_image`: The kernel finds the inode.
* `readi_image`: The kernel reads what `mkfs` was given.
-/

namespace Xv6

open Function List

section Strings

variable {s t : List Byte}

theorem cstr_eq_self (h : 0 ∉ t) : cstr t = t := by
  induction t with
  | nil => rfl
  | cons c t ih =>
    have hc : c ≠ 0 := fun hc => h (hc ▸ mem_cons_self)
    rw [cstr, if_neg hc, ih (fun hc => h (mem_cons_of_mem c hc))]

theorem cstr_strncpy (n : Nat) (h : 0 ∉ t) : cstr (strncpy n t) = t.take n := by
  induction n generalizing t with
  | zero => rfl
  | succ n ih =>
    cases t with
    | nil => rfl
    | cons c t =>
      have hc : c ≠ 0 := fun hc => h (hc ▸ mem_cons_self)
      rw [strncpy, headD_cons, if_neg hc, cstr, if_neg hc, tail_cons,
        ih (fun hc => h (mem_cons_of_mem c hc)), take_succ_cons]

theorem namecmp_take_strncpy (hs : 0 ∉ s) (ht : 0 ∉ t) :
    namecmp (s.take DIRSIZ) (strncpy DIRSIZ t) = 0 ↔ s.take DIRSIZ = t.take DIRSIZ := by
  have hlen : (strncpy DIRSIZ t).take DIRSIZ = strncpy DIRSIZ t :=
    take_of_length_le (Nat.le_of_eq (length_strncpy _ _))
  rw [namecmp_eq_zero_iff, take_take, Nat.min_self, hlen, cstr_strncpy _ ht,
    cstr_eq_self (fun hc => hs (mem_of_mem_take hc))]

theorem take_dirsiz_ne (ht : t.length < DIRSIZ) (h : s ≠ t) : s.take DIRSIZ ≠ t.take DIRSIZ := by
  intro hc
  rw [take_of_length_le (Nat.le_of_lt ht)] at hc
  have hlen := congrArg length hc
  rw [length_take] at hlen
  rw [take_of_length_le (by omega)] at hc
  exact h hc

theorem skipelem_single (hs : s ≠ []) (hslash : slash ∉ s) :
    skipelem (slash :: s) = some (s.take DIRSIZ, []) := by
  have hall : ∀ c ∈ s, decide (c ≠ slash) = true :=
    fun c hc => decide_eq_true (fun heq => hslash (heq ▸ hc))
  have hdrop : (slash :: s).dropWhile (fun c => c = slash) = s := by
    cases s with
    | nil => exact absurd rfl hs
    | cons c s =>
      have hc : c ≠ slash := fun hc => hslash (hc ▸ mem_cons_self)
      simp only [dropWhile_cons, decide_true, hc, decide_false, if_true, if_false,
        Bool.false_eq_true]
  unfold skipelem
  simp only [hdrop, hs, if_false]
  rw [ takeWhile_eq_self_iff.mpr hall, dropWhile_eq_nil_iff.mpr hall]
  rfl

end Strings

namespace Mkfs

theorem not_mem_shortname {f : Input} (h : slash ∉ f.name) : slash ∉ shortname f.arg := by
  unfold Input.name skipUnderscore at h
  by_cases hu : (shortname f.arg).head? = some underscore
  · rw [if_pos hu] at h
    rcases head?_eq_some_iff.mp hu with ⟨t, ht⟩
    rw [ht, tail_cons] at h
    rw [ht]
    exact fun hc => (mem_cons.mp hc).elim (by decide) h
  · rw [if_neg hu] at h
    exact h

theorem zero_not_mem_name (f : Input) : 0 ∉ f.name := by
  have hshort : 0 ∉ shortname f.arg := by
    unfold shortname
    split
    · exact fun hc => f.nul (mem_of_mem_drop hc)
    · exact f.nul
  unfold Input.name skipUnderscore
  split
  · exact fun hc => hshort (mem_of_mem_tail hc)
  · exact hshort

theorem getElem?_entriesFrom (inum : Nat) (files : List Input) (k : Nat) :
    (entriesFrom inum files)[k]? = files[k]?.map (fun f => f.entry (inum + k)) := by
  induction files generalizing inum k with
  | nil => rfl
  | cons f files ih =>
    cases k with
    | zero => rfl
    | succ k =>
      rw [entriesFrom, getElem?_cons_succ, getElem?_cons_succ, ih,
        Nat.add_right_comm]
      rfl

theorem slice_dirNode {es : List Dirent} (h : ∀ e ∈ es, e.name.length = DIRSIZ) {j : Nat}
    {e : Dirent} (hj : es[j]? = some e) :
    ((dirNode es).data.drop (16 * j)).take 16 = e.encode := by
  induction es generalizing j with
  | nil => exact nomatch hj
  | cons e₀ es ih =>
    have hlen := e₀.length_encode (h e₀ mem_cons_self)
    change ((e₀.encode ++ es.flatMap Dirent.encode).drop (16 * j)).take 16 = _
    cases j with
    | zero =>
      rw [getElem?_cons_zero, Option.some.injEq] at hj
      rw [Nat.mul_zero, drop_zero, take_left' hlen, hj]
    | succ j =>
      rw [Nat.mul_succ, Nat.add_comm, ← drop_drop, drop_left' hlen]
      exact ih (fun e' he' => h e' (mem_cons_of_mem e₀ he')) hj

namespace Image

variable {s : Disk} {files : List Input}

theorem readsb_eq (h : Image s files) : readsb (s.blk 1) = mkfsSb := by
  rw [h.super]
  exact readsb_putSb _ (by decide)

theorem byteAt_eq (h : Image s files) {i : Nat} (hi : s.Allocated i) (o : Nat) :
    byteAt (Xv6.vol area s.blk).data ((Xv6.vol area s.blk).dino i) o =
      byteAt s.blk (s.dinode i) o := by
  unfold byteAt
  rw [h.ptr_eq hi]
  change _ = if s.ptr i _ = 0 then _ else Bytes.get (s.blk (s.ptr i _)) _
  by_cases hz : s.ptr i (posOf (o / BSIZE)) = 0
  · rw [if_pos hz, if_pos hz]
  · have hd : (Xv6.vol area s.blk).data (s.ptr i (posOf (o / BSIZE))) =
        s.blk (s.ptr i (posOf (o / BSIZE))) :=
      if_pos (h.allocOk.own.used_of _ _ (h.slot_eq hi hz)).1
    rw [if_neg hz, if_neg hz, hd]

theorem file (h : Image s files) {k : Nat} {f : Input} (hk : files[k]? = some f) :
    (s.dinode (k + 2)).type = T_FILE ∧ contents s.blk (s.dinode (k + 2)) = f.data ∧
      There s.blk (s.dinode (k + 2)) 0 f.data.length := by
  have hall := h.byteAt_eq (i := k + 2)
  have hholes := h.holes (i := k + 2)
  have hd := @dinode_eq s (k + 2)
  rcases h.built with ⟨s₁, h₁, hvol, -, -⟩
  have hnode := h₁.file k f.data (by rw [getElem?_map, hk, Option.map_some])
  rcases node_isSome hnode with ⟨ht, htype, -, -, -, hdata⟩
  have hne : k + 2 ≠ ROOTINO := show k + 2 ≠ 1 by omega
  have hdi : (Xv6.vol area s.blk).dino (k + 2) = s₁.vol.dino (k + 2) := by
    rw [hvol]
    exact update_of_ne hne (rounded (s₁.vol.dino ROOTINO)) s₁.vol.dino
  have hlt : k + 2 < ninodeblocks * IPB := h₁.ok.map.range _ ht
  rw [hdi] at hd
  rw [hd hlt] at ht htype hdata
  have hal : s.Allocated (k + 2) := ⟨hlt, ht⟩
  have hcont : contents s.blk (s.dinode (k + 2)) = f.data := by
    change f.data = _ at hdata
    rw [hdata]
    unfold contents
    refine map_congr_left (fun o _ => ?_)
    rw [← hall hal o, hdi, hd hlt, hvol]
    rfl
  refine ⟨htype.symm, hcont, fun o _ ho => ?_⟩
  have hsize : (s.dinode (k + 2)).size.toNat = f.data.length := by
    rw [← hcont, length_contents]
  have hmax := h₁.ok.map.maxSize (k + 2) (by rw [hd hlt]; exact ht)
  rw [hd hlt, hsize] at hmax
  have hmax' : f.data.length ≤ 268 * 1024 := hmax
  refine ⟨?_, hholes hal hne _ ?_⟩
  · change o / 1024 < 268
    omega
  · rw [hsize]
    unfold BSIZE
    omega

theorem entry (h : Image s files) (hn : files.length + 2 ≤ NINODES) {j : Nat} {e : Dirent}
    (hj : (entries files)[j]? = some e) :
    16 * j + 16 ≤ (s.dinode ROOTINO).size.toNat ∧
      There s.blk (s.dinode ROOTINO) (16 * j) 16 ∧
      ((contents s.blk (s.dinode ROOTINO)).drop (16 * j)).take 16 = e.encode ∧
      e.name.length = DIRSIZ := by
  have hn' : files.length + 2 ≤ 200 := hn
  rcases h.root hn with ⟨hal, hsize, hptr⟩
  have hbyte := h.byteAt_eq hal
  rcases h.built with ⟨s₁, h₁, hvol, -, -⟩
  rcases node_isSome h₁.root with ⟨-, -, -, -, -, hdata⟩
  have hlen : (entries files).length = files.length + 2 := by
    rw [entries, length_append, length_entriesFrom]
    exact Nat.add_comm 2 _
  have hjlt : j < files.length + 2 := by
    rw [← hlen]
    exact (List.getElem?_eq_some_iff.mp hj).1
  have hend : 16 * (files.length + 2) ≤ (s.dinode ROOTINO).size.toNat := by
    rw [hsize]
    unfold BSIZE
    omega
  -- Up to the entries' end the bytes are the ones before the size was rounded.
  have htake : (contents s.blk (s.dinode ROOTINO)).take (16 * (files.length + 2)) =
      (dirNode (entries files)).data := by
    have hsize₁ : (s₁.vol.dino ROOTINO).size.toNat = 16 * (files.length + 2) := by
      rw [← length_contents s₁.vol.data, ← hdata, length_dirNode h₁.names, hlen]
    rw [hdata, contents, contents, ← map_take, take_range, Nat.min_eq_left hend, hsize₁]
    refine map_congr_left (fun o _ => ?_)
    rw [← hbyte o, hvol, Appending.self]
    rfl
  refine ⟨by omega, fun o ho₁ ho₂ => ⟨?_, (hptr _ ?_).mpr ?_⟩, ?_, ?_⟩
  · change o / 1024 < 268
    omega
  · change o / 1024 < 268
    omega
  · unfold BSIZE
    omega
  · rw [← slice_dirNode h₁.names hj, ← htake, drop_take, take_take,
      Nat.min_eq_left (by omega)]
  · exact h₁.names e (mem_of_getElem? hj)

theorem root_dir (h : Image s files) :
    (s.dinode ROOTINO).type = T_DIR ∧ (s.dinode ROOTINO).nlink = 1 := by
  have hd := @dinode_eq s ROOTINO (by decide)
  rcases h.built with ⟨s₁, h₁, hvol, -, -⟩
  rcases node_isSome h₁.root with ⟨-, htype, -, -, hlink, -⟩
  rw [hvol, Appending.self] at hd
  rw [← hd]
  exact ⟨htype.symm, hlink.symm⟩

end Image

/-- The names of the inputs can be told apart, and none of them has a meaning of
    its own in a path. -/
structure Named (files : List Input) : Prop where
  ne_nil : ∀ f ∈ files, f.name ≠ []
  slash : ∀ f ∈ files, slash ∉ f.name
  dot : ∀ f ∈ files, f.name ≠ dot ∧ f.name ≠ dotdot
  distinct : files.Pairwise (fun f g => f.name.take DIRSIZ ≠ g.name.take DIRSIZ)

section Kernel

variable {s : Disk} {files : List Input} {K : Kernel} {a : Fin NINODE} {k : Nat} {f : Input}

theorem namecmp_entries (hN : Named files) (hk : files[k]? = some f) {j : Nat} {e : Dirent}
    (hj : (entries files)[j]? = some e) :
    namecmp (f.name.take DIRSIZ) e.name = 0 ↔ j = k + 2 := by
  have hf := zero_not_mem_name f
  have hdots := hN.dot f (mem_of_getElem? hk)
  match j with
  | 0 =>
    rw [← Option.some.inj hj, namecmp_take_strncpy hf (by decide)]
    exact ⟨fun hc => absurd hc (take_dirsiz_ne (by decide) hdots.1), fun hc => by omega⟩
  | 1 =>
    rw [← Option.some.inj hj, namecmp_take_strncpy hf (by decide)]
    exact ⟨fun hc => absurd hc (take_dirsiz_ne (by decide) hdots.2), fun hc => by omega⟩
  | j + 2 =>
    change (entriesFrom 2 files)[j]? = some e at hj
    rw [getElem?_entriesFrom] at hj
    rcases Option.map_eq_some_iff.mp hj with ⟨g, hg, rfl⟩
    change namecmp _ (strncpy DIRSIZ g.name) = 0 ↔ _
    rw [namecmp_take_strncpy hf (zero_not_mem_name g)]
    rcases List.getElem?_eq_some_iff.mp hg with ⟨hjlt, hjg⟩
    rcases List.getElem?_eq_some_iff.mp hk with ⟨hklt, hkf⟩
    have hpair := pairwise_iff_getElem.mp hN.distinct
    constructor
    · intro heq
      rcases Nat.lt_trichotomy j k with hlt | heq' | hlt
      · exact absurd heq.symm (by rw [← hjg, ← hkf]; exact hpair j k hjlt hklt hlt)
      · rw [heq']
      · exact absurd heq (by rw [← hjg, ← hkf]; exact hpair k j hklt hjlt hlt)
    · intro heq
      have hjk : j = k := by omega
      rw [hjk, hk, Option.some.injEq] at hg
      rw [hg]

theorem dirlookup_image (hI : Image s files) (hn : files.length + 2 ≤ NINODES)
    (hN : Named files) (hblk : K.blk = s.blk) (hd : (K.itable a).d = s.dinode ROOTINO)
    (hdev : (K.itable a).dev = ROOTDEV) (hk : files[k]? = some f) :
    Prog.run perform (dirlookup mkfsSb a (f.name.take DIRSIZ)) K =
      Prog.run perform (iget ROOTDEV (k + 2) >>= fun ip => pure (some (ip, 16 * (k + 2)))) K := by
  have hn' : files.length + 2 ≤ 200 := hn
  have hklt : k < files.length := (List.getElem?_eq_some_iff.mp hk).1
  -- All the entries up to the one of the file.
  have hent : ∀ j, j ≤ k + 2 → ∃ e, (entries files)[j]? = some e ∧
      (entries files).getD j Dirent.zero = e := by
    intro j hj
    have hjlt : j < (entries files).length := by
      rw [entries, length_append, length_entriesFrom]
      change j < 2 + _
      omega
    exact ⟨_, getElem?_eq_getElem hjlt, by rw [getD_eq_getElem _ _ hjlt]⟩
  have hlast : (entries files).getD (k + 2) Dirent.zero = f.entry (k + 2) := by
    have hget : (entries files)[k + 2]? = some (f.entry (k + 2)) := by
      change (entriesFrom 2 files)[k]? = _
      rw [getElem?_entriesFrom, hk, Option.map_some, Nat.add_comm]
    rw [getD_eq_getElem?_getD, hget, Option.getD_some]
  have hinum : (f.entry (k + 2)).inum.toNat = k + 2 := by
    change (BitVec.ofNat 16 (k + 2)).toNat = k + 2
    rw [BitVec.toNat_ofNat]
    omega
  unfold dirlookup
  rw [run_getInode, hd, if_neg (fun hc => hc hI.root_dir.1), hdev]
  have hsize := (hI.entry hn (hent (k + 2) (Nat.le_refl _)).choose_spec.1).1
  have hrun := @dirlookupFrom_run mkfsSb K a (fun j => (entries files).getD j Dirent.zero) ROOTDEV
    (s.dinode ROOTINO).size.toNat (f.name.take DIRSIZ) (k + 2) (fun j hj => ?_) (fun j hj => ?_)
    (fun j hj => ?_) ?_ ?_ (by omega) ((s.dinode ROOTINO).size.toNat / 16 + 1) 0
    (Nat.zero_le _) (by omega)
  · rw [hlast, hinum] at hrun
    exact hrun
  · rcases hent j hj with ⟨e, hje, heq⟩
    rw [heq]
    exact (hI.entry hn hje).2.2.2
  · rcases hent j hj with ⟨e, hje, heq⟩
    rcases hI.entry hn hje with ⟨hle, hthere, hbytes, hname⟩
    have hoff : (BitVec.ofNat 32 (16 * j)).toNat = 16 * j := by
      rw [BitVec.toNat_ofNat]
      omega
    have hmin : min (16 : BitVec 32).toNat ((s.dinode ROOTINO).size.toNat - 16 * j) = 16 := by
      change min 16 _ = 16
      omega
    have hread := @readi_run mkfsSb K a (BitVec.ofNat 32 (16 * j)) 16
      (by rw [hoff]; change 16 * j + 16 < 4294967296; omega)
      (by rw [hblk, hd, hoff, hmin]; exact hthere)
    rw [hread, hblk, hd, hoff]
    change Outcome.done ((((((contents s.blk _).drop _).take 16).length : Int),
      ((contents s.blk _).drop _).take 16), K) = _
    rw [hbytes, Dirent.length_encode hname, heq]
    rfl
  · rcases hent j (by omega) with ⟨e, hje, heq⟩
    rw [heq]
    exact fun hc => absurd ((namecmp_entries hN hk hje).mp hc) (by omega)
  · rw [hlast]
    intro hc
    have hz := congrArg BitVec.toNat hc
    rw [hinum] at hz
    exact absurd hz (Nat.succ_ne_zero _)
  · rcases hent (k + 2) (Nat.le_refl _) with ⟨e, hje, heq⟩
    rw [heq]
    exact (namecmp_entries hN hk hje).mpr rfl

theorem namei_image (hI : Image s files) (hn : files.length + 2 ≤ NINODES) (hN : Named files)
    (hblk : K.blk = s.blk) (hidle : Idle mkfsSb K)
    (hfree : ∃ x y, x ≠ y ∧ (K.itable x).ref = 0 ∧ (K.itable y).ref = 0)
    (hk : files[k]? = some f) (p : Fin NPROC) :
    ∃ ip K', Prog.run perform (namei mkfsSb p (slash :: f.name)) K = .done (some ip, K') ∧
      K'.blk = s.blk ∧ Caches mkfsSb K' ip (k + 2) := by
  have hroot := hI.root_dir
  have hmem := mem_of_getElem? hk
  have hskip := skipelem_single (hN.ne_nil f hmem) (hN.slash f hmem)
  rcases hfree with ⟨x, y, hxy, hx, hy⟩
  -- The root directory is locked.
  rcases @iget_run mkfsSb K ROOTINO (fun j hj hi => hi ▸ (hidle j).2 hj) (fun j _ => (hidle j).1)
    ⟨x, hx⟩ with ⟨a, f₁, hget, hca, -⟩
  have hlock := @ilock_run mkfsSb (K.modInode a f₁) a p ROOTINO hca (s.dinode ROOTINO)
    (by rw [Disk.dinode, ← hblk]; rfl) (by rw [hroot.1]; decide)
  rw [modInode_modInode] at hlock
  generalize hg : (fun i : Inode =>
    { f₁ i with lock := some p, d := s.dinode ROOTINO, valid := true }) = g at hlock
  have ha : (K.modInode a g).itable a =
      { f₁ (K.itable a) with lock := some p, d := s.dinode ROOTINO, valid := true } := by
    rw [itable_modInode_self, ← hg]
  have hf₁ : (K.modInode a f₁).itable a = f₁ (K.itable a) := itable_modInode_self _
  have href : 1 ≤ ((K.modInode a g).itable a).ref := by
    rw [ha, ← hf₁]
    exact hca.ref
  have hinum : ((K.modInode a g).itable a).inum = ROOTINO := by
    rw [ha, ← hf₁]
    exact hca.inum
  have hdev : ((K.modInode a g).itable a).dev = ROOTDEV := by
    rw [ha, ← hf₁]
    exact hca.dev
  -- The file has another entry of the table.
  have hother : ∀ j, ((K.modInode a g).itable j).ref = 0 ∨
      ((K.modInode a g).itable j).inum = k + 2 → j ≠ a := by
    rintro j hj rfl
    rcases hj with hj | hj
    · omega
    · rw [hinum] at hj
      exact absurd hj (show ¬1 = k + 2 by omega)
  have hfree' : ∃ j, ((K.modInode a g).itable j).ref = 0 := by
    by_cases hxa : x = a
    · exact ⟨y, by rw [itable_modInode_of_ne _ (fun hya => hxy (hxa.trans hya.symm))]; exact hy⟩
    · exact ⟨x, by rw [itable_modInode_of_ne _ hxa]; exact hx⟩
  rcases @iget_run mkfsSb (K.modInode a g) (k + 2) (fun j hj hi => by
      have hja := itable_modInode_of_ne (s := K) g (hother j (Or.inr hi))
      rw [hja] at hj hi
      exact (hi ▸ (hidle j).2 hj).congr rfl hja) (fun j hj => by
      rw [itable_modInode_of_ne _ (hother j (Or.inl hj))]
      exact (hidle j).1) hfree' with ⟨b, f₂, hget', hcb, hb⟩
  have hba := hother b hb
  have hab : ((K.modInode a g).modInode b f₂).itable a = (K.modInode a g).itable a :=
    itable_modInode_of_ne _ (Ne.symm hba)
  have hput := @iunlockput_run mkfsSb ((K.modInode a g).modInode b f₂) a p (by rw [hab, ha])
    (by rw [hab]; exact href) (by rw [hab, ha]; rw [hroot.2]; decide)
  refine ⟨b, ((K.modInode a g).modInode b f₂).modInode a
    (fun i => { i with lock := none, ref := i.ref - 1 }), ?_, ?_,
    hcb.congr rfl (itable_modInode_of_ne _ hba)⟩
  · have hlook := dirlookup_image hI hn hN (K := K.modInode a g) (a := a) hblk (by rw [ha]) hdev hk
    unfold namei namex
    rw [if_pos (show (slash :: f.name).head? = some slash from rfl), Prog.run_bind,
      Prog.run_bind, hget, Outcome.done_bind]
    unfold namexFrom
    rw [hskip]
    simp only
    rw [Prog.run_bind, hlock, Outcome.done_bind, run_getInode, ha,
      if_neg (fun hc => hc hroot.1), if_neg (fun hc => nomatch hc.1),
      Prog.run_bind, hlook, Prog.run_bind, hget', Outcome.done_bind]
    change (Prog.run perform (iunlockput mkfsSb p a >>= _) _ >>= _) = _
    rw [Prog.run_bind, hput, Outcome.done_bind]
    rfl
  · exact hblk

end Kernel

theorem bootKernel_idle (sb sb' : Superblock) (blk : Nat → Block) :
    Idle sb' (bootKernel sb blk) := by
  intro k
  by_cases hk : k = ⟨0, by decide⟩
  · have hent : (bootKernel sb blk).itable k =
        { dev := ROOTDEV, inum := ROOTINO, ref := 1, lock := none, valid := false
          d := .zero } := by
      simp only [bootKernel, hk, update_self]
    refine ⟨by rw [hent], fun _ => ⟨by rw [hent], by rw [hent], rfl, by rw [hent], ?_⟩⟩
    rw [hent]
    exact nofun
  · have hent : (bootKernel sb blk).itable k =
        { dev := 0, inum := 0, ref := 0, lock := none, valid := false, d := .zero } := by
      simp only [bootKernel, update_of_ne hk]
    refine ⟨by rw [hent], fun href => ?_⟩
    rw [hent] at href
    exact nomatch href

/-- The kernel reads what `mkfs` was given: the path of an input leads to a file
    with its size, and every part of that file is that part of the input. -/
theorem readi_image (files : List Input) (hn : files.length + 2 ≤ NINODES) (hN : Named files)
    (hfile : ∀ f ∈ files, f.chunks.isSome ∧ f.data.length ≤ MAXFILE * BSIZE)
    (hroom : nmeta + cost (16 * (files.length + 2)) + costs (files.map Input.data) ≤ FSSIZE) :
    ∃ s, main files = .done s ∧
      ∀ (K : Kernel) (p : Fin NPROC) (f : Input), K.blk = s.blk → Idle (readsb (K.blk 1)) K →
        (∃ x y, x ≠ y ∧ (K.itable x).ref = 0 ∧ (K.itable y).ref = 0) → f ∈ files →
        ∃ ip K₁ K₂,
          Prog.run perform (namei (readsb (K.blk 1)) p (slash :: f.name)) K =
            .done (some ip, K₁) ∧
          Prog.run perform (ilock (readsb (K.blk 1)) p ip) K₁ = .done ((), K₂) ∧
          (K₂.itable ip).d.type = T_FILE ∧ (K₂.itable ip).d.size.toNat = f.data.length ∧
          ∀ off n : BitVec 32, off.toNat + n.toNat < 2 ^ 32 →
            Prog.run perform (readi (readsb (K.blk 1)) ip .kernel off n) K₂ =
              .done ((((f.data.drop off.toNat).take n.toNat).length,
                (f.data.drop off.toNat).take n.toNat), K₂) := by
  have hfits : Fits files :=
    ⟨fun f hf => ⟨not_mem_shortname (hN.slash f hf), hfile f hf⟩, hroom⟩
  rcases (main_ends hn).result hfits with ⟨s, hs, hI⟩
  refine ⟨s, hs, fun K p f hblk hidle hfree hf => ?_⟩
  rw [hblk, hI.readsb_eq] at hidle ⊢
  rcases getElem?_of_mem hf with ⟨k, hk⟩
  rcases namei_image hI hn hN hblk hidle hfree hk p with ⟨ip, K₁, hname, hblk₁, hc⟩
  rcases hI.file hk with ⟨htype, hcont, hthere⟩
  have hlock := @ilock_run mkfsSb K₁ ip p (k + 2) hc (s.dinode (k + 2))
    (by rw [Disk.dinode, hblk₁]) (by rw [htype]; decide)
  have hd : ((K₁.modInode ip (fun i =>
      { i with lock := some p, d := s.dinode (k + 2), valid := true })).itable ip).d =
      s.dinode (k + 2) := by rw [itable_modInode_self]
  refine ⟨ip, K₁, _, hname, hlock, by rw [hd, htype], ?_, fun off n hov => ?_⟩
  · rw [hd, ← hcont, length_contents]
  · have hblk₂ : (K₁.modInode ip (fun i =>
        { i with lock := some p, d := s.dinode (k + 2), valid := true })).blk = s.blk := hblk₁
    have hread := @readi_run mkfsSb (K₁.modInode ip (fun i =>
      { i with lock := some p, d := s.dinode (k + 2), valid := true })) ip off n hov
    rw [hd, hblk₂, hcont] at hread
    refine hread (fun o ho₁ ho₂ => hthere o (Nat.zero_le _) ?_)
    rw [← length_contents s.blk (s.dinode (k + 2)), hcont] at ho₂
    omega

/-- One file `user/_a` of three bytes, read in two pieces. -/
def oneFile : List Input :=
  [{ arg := userDir ++ [underscore, 97]
     chunks := some [[1, 2], [3]]
     nul := by decide
     sizes := fun cs hcs => by
       rw [← Option.some.inj hcs]
       decide }]

/-- The first process finds its last two bytes in the file `/a`. -/
theorem readi_image_oneFile : ∃ s, main oneFile = .done s ∧ ∃ ip K₁ K₂,
    Prog.run perform (namei (readsb (s.blk 1)) initproc [slash, 97]) (bootKernel mkfsSb s.blk) =
      .done (some ip, K₁) ∧
    Prog.run perform (ilock (readsb (s.blk 1)) initproc ip) K₁ = .done ((), K₂) ∧
    (K₂.itable ip).d.type = T_FILE ∧ (K₂.itable ip).d.size.toNat = 3 ∧
    Prog.run perform (readi (readsb (s.blk 1)) ip .kernel 1 5) K₂ = .done ((2, [2, 3]), K₂) := by
  rcases readi_image oneFile (by decide) ⟨by decide, by decide, by decide, by decide⟩ (by decide)
    (by decide) with ⟨s, hs, hall⟩
  rcases hall (bootKernel mkfsSb s.blk) initproc (oneFile.head (by decide)) rfl
    (bootKernel_idle _ _ _) ⟨⟨1, by decide⟩, ⟨2, by decide⟩, by decide, rfl, rfl⟩
    (head_mem _) with ⟨ip, K₁, K₂, hname, hlock, htype, hsize, hread⟩
  exact ⟨s, hs, ip, K₁, K₂, hname, hlock, htype, hsize, hread 1 5 (by decide)⟩

end Mkfs

end Xv6
