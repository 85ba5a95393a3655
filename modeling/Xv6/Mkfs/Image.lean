import Xv6.Mkfs.Append

/-!
# The Image

What the image that `mkfs` leaves behind holds.

The program goes through the command line and adds a file at a time: an inode,
an entry of the root directory, and then the contents piece by piece. `Holds`
says what the image holds between these steps.

At the end the size of the root directory is rounded up and the bitmap
written. `Image` is the result, and `main_ends` says when there is one.

## Main definitions

* `dirNode`, `fileNode`: A directory and a file as `mkfs` makes them.
* `Holds`: What the image holds along the way.
* `Fits`: The files can be opened, and they fit.
* `Image`: What it holds at the end.
-/

namespace Xv6.Mkfs

open Function List Outcome

variable {files : List Input}

/-- A directory with some entries. -/
def dirNode (es : List Dirent) : Node :=
  { type := T_DIR, major := 0, minor := 0, nlink := 1, data := es.flatMap Dirent.encode }

/-- A file with some bytes. -/
def fileNode (bs : List Byte) : Node :=
  { type := T_FILE, major := 0, minor := 0, nlink := 1, data := bs }

/-- The contents of an input. -/
def Input.data (f : Input) : List Byte := (f.chunks.getD []).flatten

/-- The blocks that some files take up. -/
def costs (fs : List (List Byte)) : Nat := (fs.map (fun bs => cost bs.length)).sum

theorem length_dirNode {es : List Dirent} (h : ∀ e ∈ es, e.name.length = DIRSIZ) :
    (dirNode es).data.length = 16 * es.length := by
  induction es with
  | nil => rfl
  | cons e es ih =>
    have ih' := ih (fun e' he' => h e' (mem_cons_of_mem e he'))
    unfold dirNode at ih' ⊢
    simp only at ih' ⊢
    rw [flatMap_cons, length_append, e.length_encode (h e mem_cons_self), ih',
      length_cons]
    omega

/-- The image has a root directory with entries `es` and files with bytes `fs`,
    and nothing else. -/
structure Holds (s : Disk) (es : List Dirent) (fs : List (List Byte)) : Prop where
  ok : s.Ok
  root : node s.vol ROOTINO = some (dirNode es)
  file : ∀ k bs, fs[k]? = some bs → node s.vol (k + 2) = some (fileNode bs)
  rest : ∀ i, i = 0 ∨ fs.length + 2 ≤ i → node s.vol i = none
  inodes : s.freeinode = fs.length + 2
  blocks : s.freeblock = nmeta + cost (16 * es.length) + costs fs
  names : ∀ e ∈ es, e.name.length = DIRSIZ

theorem getElem?_snoc {α : Type} {xs : List α} {x y : α} {k : Nat}
    (h : (xs ++ [x])[k]? = some y) : xs[k]? = some y ∧ k < xs.length ∨ k = xs.length ∧ y = x := by
  by_cases hk : k < xs.length
  · rw [getElem?_append_left hk] at h
    exact Or.inl ⟨h, hk⟩
  · have hlt := (List.getElem?_eq_some_iff.mp h).1
    rw [length_append, length_singleton] at hlt
    have hkl : k = xs.length := by omega
    rw [hkl, getElem?_append_right (Nat.le_refl _), Nat.sub_self] at h
    exact Or.inr ⟨hkl, (Option.some.inj h).symm⟩

section Steps

variable {s : Disk} {es : List Dirent} {fs : List (List Byte)}

theorem ialloc_done (h : s.Ok) (hfree : node s.vol s.freeinode = none)
    (hlt : s.freeinode < area.ninodes) (type : BitVec 16) (ht : type ≠ 0) :
    ∃ s', s.ialloc type = .done (s.freeinode, s') ∧ s'.Ok ∧
      node s'.vol s.freeinode =
        some { type := type, major := 0, minor := 0, nlink := 1, data := [] } ∧
      (∀ j, j ≠ s.freeinode → node s'.vol j = node s.vol j) ∧ s'.freeblock = s.freeblock ∧
      s'.freeinode = s.freeinode + 1 := by
  have h0 := (node_eq_none_iff _ _).mp hfree
  have hready : Disk.Ready { s with freeinode := s.freeinode + 1 } :=
    ⟨h.len, h.super, h.low, h.high, h.fresh⟩
  generalize hd : ({ Dinode.zero with type := type, nlink := 1 } : Dinode) = d
  have hptr : ∀ n, ptrOf s.vol.data d n = 0 := by
    intro n
    have haddr : ∀ m, d.addr m = 0 := by
      intro m
      rw [← hd]
      exact Dinode.addr_zero m
    unfold ptrOf
    rw [haddr, haddr, if_neg (fun hc : n < NPTR ∧ (0 : Nat) ≠ 0 => hc.2 rfl), ite_self]
  have hsize : d.size.toNat = 0 := by
    rw [← hd]
    rfl
  rcases winode_done hready hlt d with ⟨s', heq, hr', hvol, hfb, hfi⟩
  have hvol' : s'.vol = { s.vol with dino := update s.vol.dino s.freeinode d } := hvol
  have hself : s'.vol.dino s.freeinode = d := by
    rw [hvol']
    exact update_self _ _ _
  rcases mapOk_setDino h.map s.freeinode d hlt (fun m => by
      rw [slotOf_eq_none (Or.inr (hptr m)), slotOf_eq_none (Or.inl h0)])
    (fun _ bn hbn => by omega) (fun _ => by rw [hsize]; exact Nat.zero_le _) with ⟨hM, hnodes⟩
  refine ⟨s', ?_, ⟨hr', by rw [hvol']; exact hM, fun i hi => ?_⟩, ?_, fun j hj => ?_, hfb, hfi⟩
  · rw [Disk.ialloc]
    simp only [hd, heq]
    rfl
  · by_cases hii : i = s.freeinode
    · rw [hii, hself, hsize, hvol']
      exact fun n _ => ⟨fun hc => absurd (hptr n) hc, nofun⟩
    · have hdi : s'.vol.dino i = s.vol.dino i := by
        rw [hvol']
        exact update_of_ne hii _ _
      rw [hdi] at hi ⊢
      rw [hvol']
      exact h.full i hi
  · have hcont : contents s'.vol.data d = [] := by rw [contents, hsize]; rfl
    have hty : d.type = type := by rw [← hd]
    rw [node, nodeOf, hself, hcont, hty, if_neg ht, ← hd]
    rfl
  · rw [hvol']
    exact hnodes j hj

theorem Holds.append {bs : List Byte} (h : Holds s es (fs ++ [bs])) (p : List Byte) :
    Outcome.Ends (Room s.freeblock bs.length p.length)
      (fun s' => Holds s' es (fs ++ [bs ++ p]) ∧
        s'.freeblock + cost bs.length = s.freeblock + cost (bs.length + p.length))
      (s.iappend (fs.length + 2) p) := by
  have hf : node s.vol (fs.length + 2) = some (fileNode bs) := by
    refine h.file fs.length bs ?_
    rw [getElem?_append_right (Nat.le_refl _), Nat.sub_self]
    rfl
  refine (iappend_ends h.ok hf p).imp Iff.rfl ?_
  rintro - s' ⟨hok, hself, hother, hcount, hino⟩
  have hlen : (fs ++ [bs ++ p]).length = (fs ++ [bs]).length := by
    rw [length_append, length_append]
    rfl
  refine ⟨⟨hok, ?_, fun k cs hk => ?_, fun i hi => ?_, ?_, ?_, h.names⟩, hcount⟩
  · rw [hother ROOTINO (by unfold ROOTINO; omega)]
    exact h.root
  · rcases getElem?_snoc hk with ⟨hk', hlt⟩ | ⟨hkl, hcs⟩
    · rw [hother _ (by omega)]
      exact h.file k cs ((getElem?_append_left hlt).trans hk')
    · rw [hkl, hself, hcs]
      rfl
  · rw [hlen] at hi
    rw [length_append, length_singleton] at hi
    rw [hother i (by omega)]
    refine h.rest i ?_
    rw [length_append, length_singleton]
    exact hi
  · rw [hlen, hino]
    exact h.inodes
  · have hb := h.blocks
    unfold costs at hb ⊢
    rw [map_append, sum_append] at hb ⊢
    simp only [map_cons, map_nil, sum_cons, sum_nil, length_append,
      Nat.add_zero] at hb ⊢
    have hcount' : s'.freeblock + cost bs.length = s.freeblock + cost (bs.length + p.length) :=
      hcount
    omega

theorem Holds.enter (h : Holds s es fs) (de : Dirent) (hde : de.name.length = DIRSIZ) :
    Outcome.Ends (Room s.freeblock (16 * es.length) 16)
      (fun s' => Holds s' (es ++ [de]) fs ∧
        s'.freeblock + cost (16 * es.length) = s.freeblock + cost (16 * (es.length + 1)))
      (s.iappend ROOTINO de.encode) := by
  have hlen := length_dirNode h.names
  have henc := de.length_encode hde
  have hend := iappend_ends h.ok h.root de.encode
  rw [hlen, henc] at hend
  refine hend.imp Iff.rfl ?_
  rintro - s' ⟨hok, hself, hother, hcount, hino⟩
  have hsucc : 16 * es.length + 16 = 16 * (es.length + 1) := rfl
  rw [hsucc] at hcount
  refine ⟨⟨hok, ?_, fun k bs hk => ?_, fun i hi => ?_, ?_, ?_, fun e he => ?_⟩, hcount⟩
  · rw [hself]
    unfold dirNode
    rw [flatMap_append, flatMap_singleton]
  · rw [hother _ (by unfold ROOTINO; omega)]
    exact h.file k bs hk
  · rw [hother i (by unfold ROOTINO; omega)]
    exact h.rest i hi
  · rw [hino]
    exact h.inodes
  · have hb := h.blocks
    rw [length_append, length_singleton]
    omega
  · rcases mem_append.mp he with he | he
    · exact h.names e he
    · rw [mem_singleton.mp he]
      exact hde

theorem Holds.chunks {bs : List Byte} (h : Holds s es (fs ++ [bs]))
    (hle : bs.length ≤ MAXFILE * BSIZE) (cs : List (List Byte)) :
    Outcome.Ends (Room s.freeblock bs.length cs.flatten.length)
      (fun s' => Holds s' es (fs ++ [bs ++ cs.flatten]))
      (runs (fun s c => Disk.iappend s (fs.length + 2) c) cs s) := by
  have hhigh := h.ok.high
  induction cs generalizing s bs with
  | nil =>
    rw [flatten_nil, append_nil]
    exact ⟨⟨hle, Nat.add_le_add_right hhigh _⟩, h⟩
  | cons c cs ih =>
    rw [runs_cons, flatten_cons, ← append_assoc, length_append]
    have hmono : cost (bs.length + c.length) ≤ cost (bs.length + (c.length +
      cs.flatten.length)) := cost_mono (by omega)
    refine (h.append c).bind (fun hc => ⟨?_, ?_⟩) (fun hroom s' hs' => ?_)
    · have hc1 := hc.1
      omega
    · have hc2 := hc.2
      omega
    · have hlen : (bs ++ c).length = bs.length + c.length := length_append
      refine (ih hs'.1 (by rw [hlen]; exact hroom.1) hs'.1.ok.high).congr ?_
      have hcount := hs'.2
      unfold Room
      rw [hlen, Nat.add_assoc]
      exact and_congr_right' (by omega)

/-- An input can be opened, has a name without a slash and is not too long. -/
def Input.Fine (f : Input) : Prop :=
  slash ∉ shortname f.arg ∧ f.chunks.isSome ∧ f.data.length ≤ MAXFILE * BSIZE

/-- The entry of the root directory for an input. -/
def Input.entry (f : Input) (inum : Nat) : Dirent :=
  { inum := BitVec.ofNat 16 inum, name := strncpy DIRSIZ f.name }

theorem addFile_ends (h : Holds s es fs) (hes : es.length = fs.length + 2)
    (hn : fs.length + 2 < NINODES) (f : Input) :
    Outcome.Ends (f.Fine ∧
        nmeta + cost (16 * (es.length + 1)) + costs fs + cost f.data.length ≤ FSSIZE)
      (fun s' => Holds s' (es ++ [f.entry (fs.length + 2)]) (fs ++ [f.data]))
      (s.addFile f) := by
  have hn' : fs.length + 2 < 200 := hn
  unfold Disk.addFile
  by_cases hslash : slash ∈ shortname f.arg
  · rw [if_pos hslash]
    exact fun hc => hc.1.1 hslash
  rw [if_neg hslash]
  cases hch : f.chunks with
  | none =>
    rintro ⟨⟨-, hc, -⟩, -⟩
    rw [hch] at hc
    exact nomatch hc
  | some cs =>
    have hdata : f.data = cs.flatten := by rw [Input.data, hch, Option.getD_some]
    have hfine : f.Fine ↔ f.data.length ≤ MAXFILE * BSIZE := by
      unfold Input.Fine
      rw [hch]
      exact ⟨fun hc => hc.2.2, fun hc => ⟨hslash, rfl, hc⟩⟩
    -- The inode first: it is one of those that the image has.
    have hlt : s.freeinode < area.ninodes := by
      rw [h.inodes]
      exact Nat.lt_trans hn (by decide)
    rcases ialloc_done h.ok (h.rest _ (Or.inr (Nat.le_of_eq h.inodes.symm))) hlt T_FILE
      (by decide) with ⟨s₁, heq, hok, hnew, hother, hfb, hfi⟩
    rw [h.inodes] at heq hnew hother
    have h₁ : Holds s₁ es (fs ++ [[]]) := by
      refine ⟨hok, ?_, fun k bs hk => ?_, fun i hi => ?_, ?_, ?_, h.names⟩
      · rw [hother ROOTINO (by unfold ROOTINO; omega)]
        exact h.root
      · rcases getElem?_snoc hk with ⟨hk', hlt'⟩ | ⟨hkl, hbs⟩
        · rw [hother _ (by omega)]
          exact h.file k bs hk'
        · rw [hkl, hnew, hbs]
          rfl
      · rw [length_append, length_singleton] at hi
        rw [hother i (by omega)]
        exact h.rest i (by omega)
      · rw [hfi, h.inodes, length_append, length_singleton]
      · rw [hfb, h.blocks]
        unfold costs
        rw [map_append, sum_append]
        rfl
    simp only [heq, done_bind]
    refine (h₁.enter (f.entry (fs.length + 2)) (length_strncpy _ _)).bind ?_ ?_
    · rintro ⟨hf, hroom⟩
      have hb := h.blocks
      have hes' : 16 * (es.length + 1) ≤ MAXFILE * BSIZE := by
        change _ ≤ 274432
        omega
      exact ⟨hes', by rw [hfb, hb]; change _ + cost (16 * (es.length + 1)) ≤ _; omega⟩
    · rintro - s₂ ⟨h₂, hcount⟩
      refine (h₂.chunks (Nat.zero_le _) cs).imp ?_ (fun _ s' hs' => ?_)
      · have hb := h.blocks
        have hz : cost ([] : List Byte).length = 0 := rfl
        unfold Room
        rw [hfine, hdata, hz, length_nil, Nat.zero_add]
        exact and_congr_right' (by omega)
      · rw [nil_append, ← hdata] at hs'
        exact hs'

/-- The entries for the inputs, whose inodes are numbered from `inum` on. -/
def entriesFrom : Nat → List Input → List Dirent
  | _, [] => []
  | inum, f :: files => f.entry inum :: entriesFrom (inum + 1) files

theorem length_entriesFrom (inum : Nat) (files : List Input) :
    (entriesFrom inum files).length = files.length := by
  induction files generalizing inum with
  | nil => rfl
  | cons f files ih => rw [entriesFrom, length_cons, length_cons, ih]

theorem costs_append (fs fs' : List (List Byte)) : costs (fs ++ fs') = costs fs + costs fs' := by
  rw [costs, map_append, sum_append]
  rfl

theorem files_ends (h : Holds s es fs) (hes : es.length = fs.length + 2)
    (hn : fs.length + files.length + 2 ≤ NINODES) :
    Outcome.Ends ((∀ f ∈ files, f.Fine) ∧ nmeta + cost (16 * (es.length + files.length)) +
        costs fs + costs (files.map Input.data) ≤ FSSIZE)
      (fun s' => Holds s' (es ++ entriesFrom (fs.length + 2) files)
        (fs ++ files.map Input.data))
      (runs Disk.addFile files s) := by
  induction files generalizing s es fs with
  | nil =>
    rw [entriesFrom, map_nil, append_nil, append_nil]
    refine ⟨⟨nofun, ?_⟩, h⟩
    have hb := h.blocks
    have hhigh := h.ok.high
    change nmeta + cost (16 * es.length) + costs fs ≤ FSSIZE
    omega
  | cons f files ih =>
    rw [length_cons] at hn
    have hcosts : costs ((f :: files).map Input.data) =
        cost f.data.length + costs (files.map Input.data) := rfl
    have hmono : cost (16 * (es.length + 1)) ≤ cost (16 * (es.length + (f :: files).length)) :=
      cost_mono (by rw [length_cons]; omega)
    rw [runs_cons]
    refine (addFile_ends h hes (by omega) f).bind ?_ (fun hfine s₁ h₁ => ?_)
    · rintro ⟨hall, hroom⟩
      exact ⟨hall f mem_cons_self, by omega⟩
    · have hlen : (fs ++ [f.data]).length = fs.length + 1 := by
        rw [length_append, length_singleton]
      have hlen' : (es ++ [f.entry (fs.length + 2)]).length = es.length + 1 := by
        rw [length_append, length_singleton]
      refine (ih h₁ (by omega) (by omega)).imp ?_ (fun _ s' hs' => ?_)
      · have hone : costs (fs ++ [f.data]) = costs fs + cost f.data.length :=
          costs_append fs [f.data]
        rw [hlen', length_cons, hcosts, hone, forall_mem_cons,
          and_iff_right hfine.1, show es.length + (files.length + 1) =
            es.length + 1 + files.length by omega]
        exact and_congr_right' (by omega)
      · rw [append_assoc, append_assoc, hlen] at hs'
        exact hs'

end Steps

section Start

theorem readLe_zero (o k : Nat) : Bytes.readLe (fun _ => 0 : Block) o k = 0 := by
  have h : Bytes.slice (fun _ => 0 : Block) o k = replicate k 0 := by
    refine ext_getElem ?_ (fun i hi hi' => ?_)
    · rw [Bytes.length_slice, length_replicate]
    · simp only [Bytes.slice, getElem_map, getElem_replicate, Bytes.get, dite_eq_ite,
        ite_self]
  rw [Bytes.readLe, h, leVal_replicate_zero]

theorem foldl_wsect {s : Disk} (hblk : s.blk = fun _ _ => 0) (hlen : s.len = 0) {n : Nat}
    (hn : n ≤ FSSIZE) : (range n).foldl (fun s i => s.wsect i (fun _ => 0)) s =
      { s with len := n } := by
  induction n with
  | zero =>
    rw [range_zero, foldl_nil, ← hlen]
  | succ n ih =>
    rw [range_succ, foldl_append, ih (Nat.le_of_succ_le hn), foldl_cons,
      foldl_nil]
    unfold Disk.wsect
    rw [sector_eq (Nat.le_of_succ_le hn)]
    simp only [hblk, Nat.max_eq_right (Nat.le_succ n)]
    rw [update_eq_self_iff.mpr rfl]

theorem blank_eq : Disk.blank =
    { blk := update (fun _ _ => 0) 1 (putSb (fun _ => 0) mkfsSb)
      len := FSSIZE
      freeinode := 1
      freeblock := nmeta } := by
  unfold Disk.blank
  simp only
  rw [foldl_wsect rfl rfl (Nat.le_refl _), wsect_eq rfl (by decide)]

section Blank

variable {s : Disk} (hblk : s.blk = update (fun _ _ => 0) 1 (putSb (fun _ => 0) mkfsSb))

include hblk

theorem blank_type (i : Nat) : (s.vol.dino i).type = 0 := by
  change (if i < area.ninodes then dinodeAt (s.blk (area.iblock i)) (i % IPB) else _).type = 0
  by_cases hi : i < area.ninodes
  · have hne : area.iblock i ≠ 1 := by
      have hge : 32 ≤ area.iblock i := Nat.le_add_left _ _
      omega
    rw [if_pos hi, hblk, update_of_ne hne]
    change BitVec.ofNat 16 (Bytes.readLe _ _ 2) = 0
    rw [readLe_zero]
    rfl
  · rw [if_neg hi]
    rfl

theorem blank_ok (hlen : s.len = FSSIZE) (hfree : s.freeblock = nmeta) : s.Ok := by
  have htype := blank_type hblk
  have hslot : ∀ x, slot s.vol x = none := fun x => slotOf_eq_none (Or.inl (htype x.1))
  refine ⟨⟨hlen, ?_, Nat.le_of_eq hfree.symm, ?_, fun b hb => ?_⟩, ⟨⟨⟨fun x b hx => ?_,
    fun x y b hx _ => ?_, fun b hb => ?_⟩, fun b hb => ?_, fun i hi => absurd (htype i) hi⟩,
    fun i hi => absurd (htype i) hi, fun i hi => absurd (htype i) hi⟩,
    fun i hi => absurd (htype i) hi⟩
  · rw [hblk, update_self]
  · rw [hfree]
    decide
  · have hne : b ≠ 1 := by
      have hb' : 46 ≤ b := by
        rw [hfree] at hb
        exact hb
      omega
    rw [hblk, update_of_ne hne]
  · rw [hslot] at hx
    exact nomatch hx
  · rw [hslot] at hx
    exact nomatch hx
  · -- Only the blocks before the data area are in use.
    have hlt : b < nmeta := by
      rw [← hfree]
      exact of_decide_eq_true hb.2
    exact absurd hb.1.1 (Nat.not_le_of_lt hlt)
  · exact decide_eq_true (by rw [hfree]; exact hb)

end Blank

/-- The first two entries of the root directory. -/
def dots : List Dirent :=
  [{ inum := BitVec.ofNat 16 ROOTINO, name := strncpy DIRSIZ dot },
    { inum := BitVec.ofNat 16 ROOTINO, name := strncpy DIRSIZ dotdot }]

theorem mkroot_done : ∃ s, Disk.blank.mkroot = .done s ∧ Holds s dots [] := by
  rw [blank_eq]
  generalize hs : Disk.mk (update (fun _ _ => 0) 1 (putSb (fun _ => 0) mkfsSb)) FSSIZE 1
    nmeta = s
  have hblk : s.blk = update (fun _ _ => 0) 1 (putSb (fun _ => 0) mkfsSb) := by rw [← hs]
  have hfree : s.freeblock = nmeta := by rw [← hs]
  have hino : s.freeinode = ROOTINO := by rw [← hs]; rfl
  have hnone : ∀ i, node s.vol i = none := fun i =>
    (node_eq_none_iff _ _).mpr (blank_type hblk i)
  rcases ialloc_done (blank_ok hblk (by rw [← hs]) hfree) (hnone _) (by rw [hino]; decide) T_DIR
    (by decide) with ⟨s₁, heq, hok, hnew, hother, hfb, hfi⟩
  rw [hino] at heq hnew hother hfi
  have h₁ : Holds s₁ [] [] := by
    refine ⟨hok, hnew, fun k bs hk => absurd hk (by simp only [getElem?_nil, reduceCtorEq,
      not_false_eq_true]), fun i hi => ?_, hfi, ?_, nofun⟩
    · rw [length_nil] at hi
      rw [hother i (by unfold ROOTINO; omega)]
      exact hnone i
    · rw [hfb, hfree]
      rfl
  rcases (h₁.enter { inum := BitVec.ofNat 16 ROOTINO, name := strncpy DIRSIZ dot }
    (length_strncpy _ _)).result ⟨by decide, by rw [h₁.blocks]; decide⟩ with ⟨s₂, heq₂, h₂, -⟩
  rcases (h₂.enter { inum := BitVec.ofNat 16 ROOTINO, name := strncpy DIRSIZ dotdot }
    (length_strncpy _ _)).result ⟨by decide, by rw [h₂.blocks]; decide⟩ with ⟨s₃, heq₃, h₃, -⟩
  refine ⟨s₃, ?_, h₃⟩
  unfold Disk.mkroot
  rw [heq, done_bind]
  simp only [ne_eq, not_true_eq_false, if_false]
  rw [heq₂, done_bind]
  exact heq₃

end Start

section Finish

theorem bitAt_foldl_setBit (used b : Nat) (hused : used ≤ BPB) :
    bitAt ((range used).foldl setBit (fun _ => 0)) b = decide (b < used) := by
  induction used with
  | zero =>
    rw [range_zero, foldl_nil, bitAt_eq_getLsbD, decide_eq_false (Nat.not_lt_zero b)]
    have hz : Bytes.get (fun _ => 0 : Block) (b / 8) = 0 := by
      simp only [Bytes.get, dite_eq_ite, ite_self]
    rw [hz]
    exact BitVec.getLsbD_zero
  | succ used ih =>
    rw [range_succ, foldl_append, foldl_cons, foldl_nil,
      bitAt_setBit _ _ _ hused, ih (Nat.le_of_succ_le hused)]
    by_cases hb : b = used
    · rw [if_pos hb, hb, decide_eq_true (Nat.lt_succ_self used)]
    · rw [if_neg hb]
      exact decide_eq_decide.mpr (by omega)

/-- Writing the bitmap changes the free bits and nothing else. -/
theorem vol_bitmap (blk : Nat → Block) (x : Block) :
    Xv6.vol area (update blk mkfsSb.bmapstart x) = { Xv6.vol area blk with
      bit := fun b => if b < FSSIZE then bitAt x b else false } := by
  have hbit : ∀ b, b < FSSIZE → area.bblock b = mkfsSb.bmapstart ∧ b % BPB = b := by
    intro b hb
    have hb' : b < 2000 := hb
    refine ⟨?_, Nat.mod_eq_of_lt (Nat.lt_trans hb (by decide))⟩
    change b / 8192 + 45 = 45
    omega
  unfold Xv6.vol
  simp only [Vol.mk.injEq]
  refine ⟨?_, ?_, ?_⟩
  · funext b
    change (if b < FSSIZE then _ else _) = if b < FSSIZE then _ else _
    by_cases hb : b < FSSIZE
    · rw [if_pos hb, if_pos hb, (hbit b hb).1, (hbit b hb).2, update_self]
    · rw [if_neg hb, if_neg hb]
  · funext i
    by_cases hi : i < area.ninodes
    · have hne : area.iblock i ≠ mkfsSb.bmapstart := Nat.ne_of_lt (area_ok.inodes i hi)
      rw [if_pos hi, if_pos hi, update_of_ne hne]
    · rw [if_neg hi, if_neg hi]
  · funext b
    by_cases hb : InData area b
    · have hne : b ≠ mkfsSb.bmapstart := Nat.ne_of_gt (Nat.lt_of_lt_of_le (by decide) hb.1)
      rw [if_pos hb, if_pos hb, update_of_ne hne]
    · rw [if_neg hb, if_neg hb]

/-- The files can be opened, and there is room for them. -/
def Fits (files : List Input) : Prop :=
  (∀ f ∈ files, f.Fine) ∧
    nmeta + cost (16 * (files.length + 2)) + costs (files.map Input.data) ≤ FSSIZE

def entries (files : List Input) : List Dirent := dots ++ entriesFrom 2 files

/-- The image of some files: all of them with their bytes, the size of the root
    directory rounded up, and the superblock and the bitmap. -/
structure Image (s : Disk) (files : List Input) : Prop where
  built : ∃ s₁, Holds s₁ (entries files) (files.map Input.data) ∧
    Xv6.vol area s.blk = s₁.pend ROOTINO (rounded (s₁.vol.dino ROOTINO)) ∧
    s.freeinode = s₁.freeinode ∧ s.freeblock = s₁.freeblock
  super : s.blk 1 = putSb (fun _ => 0) mkfsSb
  bits : ∀ b, bitAt (s.blk mkfsSb.bmapstart) b = decide (b < s.freeblock)

/-- The files are added, and the image is finished, if they fit. -/
theorem fill_ends {s₀ : Disk} (h₀ : Holds s₀ dots []) (hn : files.length + 2 ≤ NINODES) :
    Outcome.Ends (Fits files) (fun s => Image s files) (s₀.fill files) := by
  unfold Disk.fill
  have hn' : ([] : List (List Byte)).length + files.length + 2 ≤ NINODES := by
    rw [length_nil, Nat.zero_add]
    exact hn
  refine Outcome.Ends.andThen ((files_ends h₀ rfl hn').congr ?_) ?_
  · have hlen : dots.length + files.length = files.length + 2 := Nat.add_comm 2 _
    have hz : costs [] = 0 := rfl
    rw [Fits, hlen, hz]
    exact and_congr_right' (by omega)
  · rintro - s₁ h₁
    have h₁ : Holds s₁ (entries files) (files.map Input.data) := h₁
    have hlt : ROOTINO < area.ninodes := by decide
    have hhigh := h₁.ok.high
    rcases winode_done h₁.ok.toReady hlt (rounded (s₁.vol.dino ROOTINO)) with
      ⟨s₂, heq₂, hready, hvol, hfb, hfi⟩
    have hfix : s₁.fixRoot = .done s₂ := by
      rw [Disk.fixRoot, rinode_done h₁.ok.len hlt, done_bind]
      exact heq₂
    have hused : s₂.freeblock < BSIZE * 8 := by
      rw [hfb]
      exact Nat.lt_of_le_of_lt hhigh (by decide)
    have hused' : s₂.freeblock ≤ BPB := Nat.le_of_lt hused
    have hbits := fun b => bitAt_foldl_setBit s₂.freeblock b hused'
    rw [hfix, done_bind, Disk.balloc, if_pos hused,
      wsect_eq hready.len (show mkfsSb.bmapstart < FSSIZE by decide)]
    refine ⟨_, rfl, ⟨s₁, h₁, ?_, hfi, hfb⟩, ?_, fun b => ?_⟩
    · simp only
      rw [vol_bitmap, ← hvol, Disk.vol, Vol.mk.injEq]
      refine ⟨?_, rfl, rfl⟩
      funext b
      by_cases hb : b < FSSIZE
      · rw [if_pos hb, hbits]
      · rw [if_neg hb, decide_eq_false (by omega)]
    · have hne : 1 ≠ mkfsSb.bmapstart := by decide
      simp only [ne_eq, hne, not_false_eq_true, update_of_ne]
      exact hready.super
    · simp only [update_self]
      exact hbits b

theorem main_eq {s₀ : Disk} (h : Disk.blank.mkroot = .done s₀) :
    main files = s₀.fill files := by
  unfold main
  rw [h, done_bind]

/-- There is an image if the files fit, and only then. -/
theorem main_ends (hn : files.length + 2 ≤ NINODES) :
    Outcome.Ends (Fits files) (fun s => Image s files) (main files) := by
  rcases mkroot_done with ⟨s₀, heq, h₀⟩
  rw [main_eq heq]
  exact fill_ends h₀ hn

end Finish

section Count

/-- What a step does to the number of inodes, if it gets to its end. -/
def Counts (k : Nat) (s : Disk) (x : Outcome Fault Disk) : Prop :=
  Outcome.Meets (fun _ => True) (fun s' => s'.freeinode = s.freeinode + k) x

theorem Counts.bind {j k : Nat} {s : Disk} {x : Outcome Fault Disk} {f : Disk → Outcome Fault Disk}
    (h : Counts j s x) (hf : ∀ s', Counts k s' (f s')) : Counts (j + k) s (x >>= f) := by
  unfold Counts
  rw [meets_bind]
  refine meets_mono h (fun s' hs' => meets_mono (hf s') (fun s'' hs'' => ?_))
  omega

theorem rsect_meets {α : Type} {Q : α → Prop} (s : Disk) (sec : Nat)
    {f : Block → Outcome Fault α} (h : ∀ b, Outcome.Meets (fun _ => True) Q (f b)) :
    Outcome.Meets (fun _ => True) Q (s.rsect sec >>= f) := by
  unfold Disk.rsect
  split
  · exact h _
  · trivial

theorem winode_counts (s : Disk) (inum : Nat) (d : Dinode) : Counts 0 s (s.winode inum d) :=
  rsect_meets s _ (fun _ => rfl)

theorem blockOf_freeinode (s : Disk) (din : Dinode) (fbn : Nat) :
    Outcome.Meets (fun _ => True) (fun r => r.2.2.freeinode = s.freeinode)
      (s.blockOf din fbn) := by
  have hgrab : ∀ n, (s.grab din n).2.freeinode = s.freeinode := by
    intro n
    unfold Disk.grab
    split <;> rfl
  unfold Disk.blockOf
  by_cases hdir : fbn < NDIRECT
  · rw [if_pos hdir]
    exact hgrab fbn
  · rw [if_neg hdir]
    refine rsect_meets _ _ (fun b => ?_)
    split
    · exact hgrab NDIRECT
    · exact hgrab NDIRECT

theorem appendFrom_freeinode (fuel : Nat) (s : Disk) (din : Dinode) (off : Nat) (p : List Byte) :
    Outcome.Meets (fun _ => True) (fun r => r.1.freeinode = s.freeinode)
      (Disk.appendFrom fuel s din off p) := by
  induction fuel generalizing s din off p with
  | zero => rfl
  | succ fuel ih =>
    by_cases hp : p = []
    · rw [Disk.appendFrom, if_pos hp]
      rfl
    by_cases hmax : MAXFILE ≤ off / BSIZE
    · rw [Disk.appendFrom, if_neg hp, if_pos hmax]
      trivial
    · rw [appendFrom_succ hp hmax, meets_bind]
      refine meets_mono (blockOf_freeinode s din _) (fun r hr => ?_)
      exact rsect_meets _ _ (fun b => meets_mono (ih _ _ _ _)
        (fun r' hr' => hr'.trans hr))

theorem iappend_counts (s : Disk) (inum : Nat) (p : List Byte) :
    Counts 0 s (s.iappend inum p) := by
  have hrest : ∀ din : Dinode, Counts 0 s
      (Disk.appendFrom p.length s din din.size.toNat p >>= fun r =>
        r.1.winode inum { r.2.1 with size := BitVec.ofNat 32 r.2.2 }) := by
    intro din
    unfold Counts
    rw [meets_bind]
    refine meets_mono (appendFrom_freeinode _ _ _ _ _) (fun r hr => ?_)
    exact meets_mono (winode_counts r.1 inum _) (fun s' hs' => hs'.trans hr)
  unfold Counts Disk.iappend Disk.rinode
  rw [meets_bind]
  exact rsect_meets _ _ (fun b => hrest _)

theorem ialloc_freeinode (s : Disk) (type : BitVec 16) :
    Outcome.Meets (fun _ => True) (fun r => r.2.freeinode = s.freeinode + 1)
      (s.ialloc type) := by
  unfold Disk.ialloc
  rw [meets_bind]
  exact winode_counts { s with freeinode := s.freeinode + 1 } _ _

theorem addFile_counts (s : Disk) (f : Input) : Counts 1 s (s.addFile f) := by
  unfold Counts Disk.addFile
  split
  · trivial
  split
  · trivial
  · rw [meets_bind]
    refine meets_mono (ialloc_freeinode s T_FILE) (fun r hr => ?_)
    rw [meets_bind]
    refine meets_mono (iappend_counts r.2 ROOTINO _) (fun s₁ hs₁ => ?_)
    exact runs_meets (I := fun s' => s'.freeinode = s.freeinode + 1) (fun s' c hs' =>
      meets_mono (iappend_counts s' r.1 c) (fun s'' hs'' => hs''.trans hs')) _ _
      (hs₁.trans hr)

theorem files_counts (files : List Input) (s : Disk) :
    Counts files.length s (runs Disk.addFile files s) := by
  induction files generalizing s with
  | nil => rfl
  | cons f files ih =>
    rw [runs_cons, length_cons, Nat.add_comm]
    exact (addFile_counts s f).bind ih

theorem fixRoot_counts (s : Disk) : Counts 0 s s.fixRoot := by
  unfold Counts Disk.fixRoot Disk.rinode
  rw [meets_bind]
  refine rsect_meets _ _ (fun b => ?_)
  rw [pure_eq, meets_done]
  exact winode_counts s ROOTINO _

theorem balloc_counts (s : Disk) (used : Nat) : Counts 0 s (s.balloc used) := by
  unfold Counts Disk.balloc
  by_cases h : used < BSIZE * 8
  · rw [if_pos h]
    rfl
  · rw [if_neg h]
    trivial

theorem fill_counts (files : List Input) (s : Disk) : Counts files.length s (s.fill files) :=
  (files_counts files s).bind (fun s₁ => (fixRoot_counts s₁).bind
    (fun s₂ => balloc_counts s₂ s₂.freeblock))

theorem main_freeinode {s : Disk} (h : main files = .done s) :
    s.freeinode = files.length + 2 := by
  rcases mkroot_done with ⟨s₀, heq, h₀⟩
  have hcount := fill_counts files s₀
  rw [main_eq heq] at h
  rw [Counts, h, meets_done, h₀.inodes, length_nil] at hcount
  omega

end Count

end Xv6.Mkfs
