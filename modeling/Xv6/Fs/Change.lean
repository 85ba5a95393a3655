import Xv6.Fs.Content

/-!
# Changes to a Volume

The changes the kernel makes to a volume, one lemma each: the volume stays in
order, and what becomes of the nodes.

The kernel never stores a block number before the block is marked used. Between
the two steps the volume is out of order, so a lemma takes both of them as one
change.
-/

namespace Xv6

open Function

section Changes

variable {sb : Superblock} {V V' : Vol}

theorem inData_lt (hok : sb.Ok) {b : Nat} (hb : InData sb b) : b ≠ 0 ∧ b < 2 ^ 32 := by
  have h₁ := hb.1
  have h₂ := hb.2
  have h₃ := hok.size_lt
  have h₄ := sb.datastart_pos
  exact ⟨by omega, by omega⟩

theorem ptr_used (hA : AllocOk sb V) (i n : Nat) (ht : (V.dino i).type ≠ 0)
    (hp : ptrOf V.data (V.dino i) n ≠ 0) :
    InData sb (ptrOf V.data (V.dino i) n) ∧ V.bit (ptrOf V.data (V.dino i) n) = true :=
  hA.own.used_of (i, n) _ (slotOf_of_ptr ht hp)

theorem ptr_ne_free (hA : AllocOk sb V) (i n b : Nat) (ht : (V.dino i).type ≠ 0)
    (hb : InData sb b) (hfree : V.bit b = false) : ptrOf V.data (V.dino i) n ≠ b := by
  intro hp
  have hb0 : b ≠ 0 := Nat.ne_of_gt (Nat.lt_of_lt_of_le sb.datastart_pos hb.1)
  have hu := (ptr_used hA i n ht (by rw [hp]; exact hb0)).2
  rw [hp, hfree] at hu
  exact Bool.false_ne_true hu

theorem ptr_inj (hA : AllocOk sb V) {i n m : Nat} (ht : (V.dino i).type ≠ 0)
    (hp : ptrOf V.data (V.dino i) n ≠ 0)
    (hnm : ptrOf V.data (V.dino i) n = ptrOf V.data (V.dino i) m) : n = m := by
  have h₁ : slot V (i, n) = some (ptrOf V.data (V.dino i) n) :=
    slotOf_of_ptr ht hp
  have h₂ : slot V (i, m) = some (ptrOf V.data (V.dino i) m) :=
    slotOf_of_ptr ht (by rw [← hnm]; exact hp)
  rw [← hnm] at h₂
  exact congrArg Prod.snd (hA.own.inj _ _ _ h₁ h₂)

/-- A fresh block is stored in an empty place of inode `i`. The places are
    described by `ptrOf`, before and after. -/
theorem allocOk_store (hok : sb.Ok) (hA : AllocOk sb V) {i n b : Nat}
    (ht : (V.dino i).type ≠ 0) (hb : InData sb b) (hfree : V.bit b = false)
    (hempty : ptrOf V.data (V.dino i) n = 0)
    (hself : ptrOf V'.data (V'.dino i) n = b)
    (hsame : ∀ m, m ≠ n → ptrOf V'.data (V'.dino i) m = ptrOf V.data (V.dino i) m)
    (hother : ∀ j, j ≠ i → ∀ m, slot V' (j, m) = slot V (j, m))
    (hbit : V'.bit = update V.bit b true)
    (htype : ∀ j, (V'.dino j).type = (V.dino j).type) : AllocOk sb V' := by
  have hb0 := (inData_lt hok hb).1
  refine ⟨?_, fun c hc => ?_, fun j hj => hA.range j (by rw [← htype]; exact hj)⟩
  · refine hA.own.acquire (i, n) b (slotOf_eq_none (Or.inr hempty)) (fun hu => ?_)
      (fun c => ?_) ?_ ?_
    · rw [hfree] at hu
      exact nomatch hu.2
    · rw [hbit]
      by_cases hcb : c = b
      · rw [hcb, update_self]
        exact ⟨fun _ => Or.inl rfl, fun _ => ⟨hb, rfl⟩⟩
      · rw [update_of_ne hcb]
        exact ⟨Or.inr, fun h => h.resolve_left hcb⟩
    · exact (slotOf_eq_some _ _ _ _).mpr ⟨by rw [htype]; exact ht, hself, hb0⟩
    · rintro ⟨j, m⟩ hne
      by_cases hj : j = i
      · rw [hj] at hne ⊢
        change slotOf _ _ _ = slotOf _ _ _
        rw [slotOf, slotOf, htype, hsame m (fun hm => hne (by rw [hm]))]
      · exact hother j hj m
  · rw [hbit]
    by_cases hcb : c = b
    · rw [hcb, update_self]
    · rw [update_of_ne hcb]
      exact hA.reserved c hc

/-- Storing a fresh block where there was none leaves all nodes as they are:
    no byte of a file lies in a place that was empty. -/
theorem mapOk_store (hok : sb.Ok) (hM : MapOk sb V) (i n b : Nat)
    (ht : (V.dino i).type ≠ 0) (hb : InData sb b) (hfree : V.bit b = false)
    (hempty : ptrOf V.data (V.dino i) n = 0)
    (hself : ptrOf V'.data (V'.dino i) n = b)
    (hsame : ∀ m, m ≠ n → ptrOf V'.data (V'.dino i) m = ptrOf V.data (V.dino i) m)
    (hbit : V'.bit = update V.bit b true)
    (hdino : ∀ j, j ≠ i → V'.dino j = V.dino j)
    (hmeta : (V.dino i).SameFields (V'.dino i))
    (hzero : V'.data b = fun _ => 0)
    (hdata : ∀ c, c ≠ b → (c = (V.dino i).addr NDIRECT → c = 0) → V'.data c = V.data c) :
    MapOk sb V' ∧ (∀ j, node V' j = node V j) ∧
      ∀ o, byteAt V'.data (V'.dino i) o = byteAt V.data (V.dino i) o := by
  have hA := hM.toAllocOk
  have hframe : ∀ j, j ≠ i → (∀ m, slot V' (j, m) = slot V (j, m)) ∧ node V' j = node V j := by
    refine frame_of hA i (fun c => c = b ∨ c = (V.dino i).addr NDIRECT ∧ c ≠ 0) ?_ ?_ hdino
    · rintro c (rfl | ⟨rfl, hc0⟩)
      · left
        rw [hfree]
        exact fun hu => Bool.false_ne_true hu.2
      · right
        refine ⟨NDIRECT, (slotOf_eq_some _ _ _ _).mpr ⟨ht, ?_, hc0⟩⟩
        exact ptrOf_direct _ _ _ (Nat.lt_succ_self _)
    · intro c hc
      refine hdata c (fun hcb => hc (Or.inl hcb)) (fun hc12 => ?_)
      by_cases hc0 : c = 0
      · exact hc0
      · exact absurd (Or.inr ⟨hc12, hc0⟩) hc
  have htype : ∀ j, (V'.dino j).type = (V.dino j).type := by
    intro j
    by_cases hj : j = i
    · rw [hj, hmeta.type]
    · rw [hdino j hj]
  -- The places of blocks below the size were filled before.
  have hptr : ∀ bn, bn * BSIZE < (V.dino i).size.toNat →
      ptrOf V'.data (V'.dino i) (posOf bn) = ptrOf V.data (V.dino i) (posOf bn) := by
    intro bn hbn
    refine hsame _ (fun hpos => hM.holes i ht bn hbn ?_)
    rw [hpos, hempty]
  have hbyte : ∀ o, byteAt V'.data (V'.dino i) o = byteAt V.data (V.dino i) o := by
    intro o
    unfold byteAt
    by_cases hpos : posOf (o / BSIZE) = n
    · -- The new block holds zeros, as a missing block does.
      rw [hpos, hself, hempty, if_pos rfl, if_neg (inData_lt hok hb).1, hzero]
      unfold Bytes.get
      exact dite_eq_right_iff.mpr (fun _ => rfl)
    · rw [hsame _ hpos]
      by_cases hp : ptrOf V.data (V.dino i) (posOf (o / BSIZE)) = 0
      · rw [if_pos hp, if_pos hp]
      · rw [if_neg hp, if_neg hp, hdata _ (ptr_ne_free hA i _ b ht hb hfree) (fun h12 => ?_)]
        rw [← ptrOf_direct V.data (V.dino i) NDIRECT (Nat.lt_succ_self _)] at h12
        exact absurd (ptr_inj hA ht hp h12) (posOf_ne_indirect _)
  have hnode : node V' i = node V i := by
    have hbytes : contents V'.data (V'.dino i) = contents V.data (V.dino i) := by
      unfold contents
      rw [hmeta.size]
      exact List.map_congr_left (fun o _ => hbyte o)
    unfold node nodeOf
    rw [hmeta.type, if_neg ht, if_neg ht, hmeta.major, hmeta.minor, hmeta.nlink, hbytes]
  refine ⟨⟨?_, fun j hj bn hbn => ?_, fun j hj => ?_⟩, fun j => ?_, hbyte⟩
  · exact allocOk_store hok hA ht hb hfree hempty hself hsame
      (fun j hj => (hframe j hj).1) hbit htype
  · by_cases hji : j = i
    · rw [hji] at hbn ⊢
      rw [hmeta.size] at hbn
      rw [hptr bn hbn]
      exact hM.holes i ht bn hbn
    · rw [hdino j hji] at hj hbn
      have hp := hM.holes j hj bn hbn
      have hs := (hframe j hji).1 (posOf bn)
      change slotOf _ _ _ = slotOf _ _ _ at hs
      rw [slotOf_of_ptr hj hp, slotOf_eq_some] at hs
      rw [hs.2.1]
      exact hp
  · by_cases hji : j = i
    · rw [hji, hmeta.size]
      exact hM.maxSize i ht
    · rw [hdino j hji] at hj ⊢
      exact hM.maxSize j hj
  · by_cases hji : j = i
    · rw [hji, hnode]
    · exact (hframe j hji).2

theorem mapOk_storeAddr (hok : sb.Ok) (hM : MapOk sb V) (i n b : Nat)
    (ht : (V.dino i).type ≠ 0) (hn : n < NDIRECT + 1) (hb : InData sb b)
    (hfree : V.bit b = false) (hempty : (V.dino i).addr n = 0)
    (hV : V' = { bit := update V.bit b true
                 dino := update V.dino i ((V.dino i).setAddr n b)
                 data := update V.data b (fun _ => 0) }) :
    MapOk sb V' ∧ ptrOf V'.data (V'.dino i) n = b ∧
      (∀ m, m ≠ n → ptrOf V'.data (V'.dino i) m = ptrOf V.data (V.dino i) m) ∧
      (∀ j, node V' j = node V j) ∧
      ∀ o, byteAt V'.data (V'.dino i) o = byteAt V.data (V.dino i) o := by
  have hlt := (inData_lt hok hb).2
  have haddr : ∀ m, (V'.dino i).addr m = if m = n then b else (V.dino i).addr m := by
    intro m
    rw [hV]
    change (update V.dino i _ i).addr m = _
    rw [update_self, Dinode.addr_setAddr _ _ hn hlt]
  have hself : ptrOf V'.data (V'.dino i) n = b := by
    rw [ptrOf_direct _ _ _ hn, haddr, if_pos rfl]
  have hsame : ∀ m, m ≠ n → ptrOf V'.data (V'.dino i) m = ptrOf V.data (V.dino i) m := by
    intro m hm
    unfold ptrOf
    by_cases hm13 : m < NDIRECT + 1
    · rw [if_pos hm13, if_pos hm13, haddr, if_neg hm]
    · rw [if_neg hm13, if_neg hm13]
      by_cases hn12 : n = NDIRECT
      · -- The new indirect block is zeroed, so it holds no addresses.
        have hold : ¬(m < NPTR ∧ (V.dino i).addr NDIRECT ≠ 0) := by
          rw [← hn12]
          exact fun hc => hc.2 hempty
        have hnew : V'.data ((V'.dino i).addr NDIRECT) = fun _ => 0 := by
          rw [haddr, if_pos hn12.symm, hV]
          exact update_self _ _ _
        rw [if_neg hold, hnew, addrAt_zero, ite_self]
      · have h12 : (V'.dino i).addr NDIRECT = (V.dino i).addr NDIRECT := by
          rw [haddr, if_neg (fun h => hn12 h.symm)]
        rw [h12]
        by_cases hc : m < NPTR ∧ (V.dino i).addr NDIRECT ≠ 0
        · have hne : (V.dino i).addr NDIRECT ≠ b := by
            rw [← ptrOf_direct V.data (V.dino i) NDIRECT (Nat.lt_succ_self _)]
            exact ptr_ne_free hM.toAllocOk i _ b ht hb hfree
          rw [if_pos hc, if_pos hc, hV]
          change addrAt (update V.data b _ _) _ = _
          rw [update_of_ne hne]
        · rw [if_neg hc, if_neg hc]
  have hmap := @mapOk_store sb V V' hok hM i n b ht hb hfree
    (by rw [ptrOf_direct _ _ _ hn]; exact hempty) hself hsame (by rw [hV])
    (fun j hj => by rw [hV]; exact update_of_ne hj _ _)
    (by rw [hV]; simp only [update_self, Dinode.SameFields.setAddr])
    (by rw [hV]; exact update_self _ _ _)
    (fun c hc _ => by rw [hV]; exact update_of_ne hc _ _)
  exact ⟨hmap.1, hself, hsame, hmap.2⟩

theorem mapOk_storeIndirect (hok : sb.Ok) (hM : MapOk sb V) (i j b : Nat)
    (ht : (V.dino i).type ≠ 0) (hj : j < NINDIRECT) (hb : InData sb b)
    (hfree : V.bit b = false) (hind : (V.dino i).addr NDIRECT ≠ 0)
    (hempty : addrAt (V.data ((V.dino i).addr NDIRECT)) j = 0)
    (hV : V' = { bit := update V.bit b true
                 dino := V.dino
                 data := update (update V.data b (fun _ => 0))
                   ((V.dino i).addr NDIRECT)
                   (putAddr (V.data ((V.dino i).addr NDIRECT)) j b) }) :
    MapOk sb V' ∧ ptrOf V'.data (V'.dino i) (NDIRECT + 1 + j) = b ∧
      (∀ m, m ≠ NDIRECT + 1 + j →
        ptrOf V'.data (V'.dino i) m = ptrOf V.data (V.dino i) m) ∧
      (∀ x, node V' x = node V x) ∧
      ∀ o, byteAt V'.data (V'.dino i) o = byteAt V.data (V.dino i) o := by
  have hlt := (inData_lt hok hb).2
  have hdino : V'.dino = V.dino := by rw [hV]
  have hdata : V'.data ((V.dino i).addr NDIRECT) =
      putAddr (V.data ((V.dino i).addr NDIRECT)) j b := by
    rw [hV]
    exact update_self _ _ _
  have hself : ptrOf V'.data (V'.dino i) (NDIRECT + 1 + j) = b := by
    rw [hdino, ptrOf_indirect _ hj hind, hdata, addrAt_putAddr _ _ _ _ hj hlt, if_pos rfl]
  have hsame : ∀ m, m ≠ NDIRECT + 1 + j →
      ptrOf V'.data (V'.dino i) m = ptrOf V.data (V.dino i) m := by
    intro m hm
    rw [hdino]
    unfold ptrOf
    by_cases hm13 : m < NDIRECT + 1
    · rw [if_pos hm13, if_pos hm13]
    · rw [if_neg hm13, if_neg hm13]
      by_cases hc : m < NPTR ∧ (V.dino i).addr NDIRECT ≠ 0
      · rw [if_pos hc, if_pos hc, hdata, addrAt_putAddr _ _ _ _ hj hlt, if_neg (by omega)]
      · rw [if_neg hc, if_neg hc]
  have hmap := @mapOk_store sb V V' hok hM i (NDIRECT + 1 + j) b ht hb hfree
    (by rw [ptrOf_indirect _ hj hind]; exact hempty) hself hsame (by rw [hV])
    (fun x _ => by rw [hdino]) (by rw [hdino]; exact Dinode.SameFields.refl _)
    (by
      have hne : b ≠ (V.dino i).addr NDIRECT := by
        rw [← ptrOf_direct V.data (V.dino i) NDIRECT (Nat.lt_succ_self _)]
        exact (ptr_ne_free hM.toAllocOk i _ b ht hb hfree).symm
      rw [hV]
      change update _ _ _ b = _
      rw [update_of_ne hne, update_self])
    (fun c hc h12 => by
      have hne : c ≠ (V.dino i).addr NDIRECT := fun h => hind (by rw [← h]; exact h12 h)
      rw [hV]
      change update _ _ _ c = _
      rw [update_of_ne hne, update_of_ne hc])
  exact ⟨hmap.1, hself, hsame, hmap.2⟩

theorem mapOk_write (hM : MapOk sb V) (i bn : Nat) (x : Block) (ht : (V.dino i).type ≠ 0)
    (hp : ptrOf V.data (V.dino i) (posOf bn) ≠ 0)
    (hV : V' = { V with data := update V.data (ptrOf V.data (V.dino i) (posOf bn)) x }) :
    MapOk sb V' ∧ (∀ j, j ≠ i → node V' j = node V j) ∧
      (∀ m, ptrOf V'.data (V.dino i) m = ptrOf V.data (V.dino i) m) ∧
      ∀ o, byteAt V'.data (V.dino i) o =
        if o / BSIZE = bn then Bytes.get x (o % BSIZE) else byteAt V.data (V.dino i) o := by
  have hA := hM.toAllocOk
  have hdino : V'.dino = V.dino := by rw [hV]
  have hbit : V'.bit = V.bit := by rw [hV]
  have hat : V'.data (ptrOf V.data (V.dino i) (posOf bn)) = x := by
    rw [hV]
    exact update_self _ _ _
  have hne : ∀ c, c ≠ ptrOf V.data (V.dino i) (posOf bn) → V'.data c = V.data c := by
    intro c hc
    rw [hV]
    exact update_of_ne hc _ _
  have hframe : ∀ j, j ≠ i → (∀ m, slot V' (j, m) = slot V (j, m)) ∧ node V' j = node V j := by
    refine frame_of hA i (fun c => c = ptrOf V.data (V.dino i) (posOf bn)) ?_
      (fun c hc => hne c hc) (fun j _ => by rw [hdino])
    rintro c rfl
    exact Or.inr ⟨posOf bn, slotOf_of_ptr ht hp⟩
  -- The block written is a data block, so the indirect block is another one.
  have hptr : ∀ m, ptrOf V'.data (V.dino i) m = ptrOf V.data (V.dino i) m := by
    refine ptrOf_congr V.data V'.data _ _ (fun _ _ => rfl) (fun _ => hne _ (fun h12 => ?_))
    rw [← ptrOf_direct V.data (V.dino i) NDIRECT (Nat.lt_succ_self _)] at h12
    exact posOf_ne_indirect bn (ptr_inj hA ht hp h12.symm)
  have hslot : ∀ y, slot V' y = slot V y := by
    rintro ⟨j, m⟩
    by_cases hj : j = i
    · rw [hj]
      change slotOf _ _ _ = slotOf _ _ _
      rw [hdino, slotOf, slotOf, hptr]
    · exact (hframe j hj).1 m
  refine ⟨⟨⟨?_, fun b hb => ?_, fun j hj => ?_⟩, fun j hj k hk => ?_, fun j hj => ?_⟩,
    fun j hj => (hframe j hj).2, hptr, fun o => ?_⟩
  · exact hA.own.congr (fun b => by rw [hbit]) hslot
  · rw [hbit]
    exact hA.reserved b hb
  · rw [hdino] at hj
    exact hA.range j hj
  · rw [hdino] at hj hk ⊢
    have hpj := hM.holes j hj k hk
    have hs := hslot (j, posOf k)
    change slotOf _ _ _ = slotOf _ _ _ at hs
    rw [hdino, slotOf_of_ptr hj hpj, slotOf_eq_some] at hs
    rw [hs.2.1]
    exact hpj
  · rw [hdino] at hj ⊢
    exact hM.maxSize j hj
  · unfold byteAt
    rw [hptr]
    by_cases ho : o / BSIZE = bn
    · rw [if_pos ho, ho, if_neg hp, hat]
    · rw [if_neg ho]
      by_cases hz : ptrOf V.data (V.dino i) (posOf (o / BSIZE)) = 0
      · rw [if_pos hz, if_pos hz]
      · rw [if_neg hz, if_neg hz, hne _ (fun h => ho (posOf_inj (ptr_inj hA ht hz h)))]

/-- The inode changes, but not what its places hold. -/
theorem allocOk_setDino (hA : AllocOk sb V) (i : Nat) (d : Dinode) (hi : i < sb.ninodes)
    (hslot : ∀ m, slotOf V.data d m = slotOf V.data (V.dino i) m) :
    AllocOk sb { V with dino := update V.dino i d } ∧
      ∀ j, j ≠ i → node { V with dino := update V.dino i d } j = node V j := by
  refine ⟨⟨hA.own.congr (fun b => Iff.rfl) ?_, hA.reserved, fun j hj => ?_⟩, fun j hj => ?_⟩
  · rintro ⟨j, m⟩
    change slotOf V.data (update V.dino i d j) m = slotOf V.data (V.dino j) m
    by_cases hj : j = i
    · rw [hj, update_self, hslot]
    · rw [update_of_ne hj]
  · by_cases hji : j = i
    · rw [hji]
      exact hi
    · simp only [update_of_ne hji] at hj
      exact hA.range j hj
  · change nodeOf V.data (update V.dino i d j) = _
    rw [update_of_ne hj]
    rfl

/-- The same, with enough blocks for the size the inode has then. -/
theorem mapOk_setDino (hM : MapOk sb V) (i : Nat) (d : Dinode) (hi : i < sb.ninodes)
    (hslot : ∀ m, slotOf V.data d m = slotOf V.data (V.dino i) m)
    (hholes : d.type ≠ 0 → ∀ bn, bn * BSIZE < d.size.toNat → ptrOf V.data d (posOf bn) ≠ 0)
    (hmax : d.type ≠ 0 → d.size.toNat ≤ MAXFILE * BSIZE) :
    MapOk sb { V with dino := update V.dino i d } ∧
      ∀ j, j ≠ i → node { V with dino := update V.dino i d } j = node V j := by
  rcases allocOk_setDino hM.toAllocOk i d hi hslot with ⟨hA, hnode⟩
  refine ⟨⟨hA, fun j hj bn hbn => ?_, fun j hj => ?_⟩, hnode⟩
  · by_cases hji : j = i
    · rw [hji] at hj hbn ⊢
      simp only [update_self] at hj hbn ⊢
      exact hholes hj bn hbn
    · simp only [update_of_ne hji] at hj hbn ⊢
      exact hM.holes j hj bn hbn
  · by_cases hji : j = i
    · rw [hji] at hj ⊢
      simp only [update_self] at hj ⊢
      exact hmax hj
    · simp only [update_of_ne hji] at hj ⊢
      exact hM.maxSize j hj

end Changes

end Xv6
