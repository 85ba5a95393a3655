import Xv6.Lib.Pool
import Xv6.Virtio.Model
import Mathlib.Data.List.Perm.Subperm
import Mathlib.Data.List.Nodup
import Mathlib.Data.List.Infix

/-!
# Chains and Tokens

What has to hold of descriptors, rings and requests, and that it goes on to hold
when one of them changes.

The argument follows a token for each request. A request that has been published and
not been answered has one entry in the system: in the `avail` ring before the device
has seen it, with the device, or in the `used` ring before the handler has seen it.
`Reqs.tokens` says that these entries are exactly the published requests whose
buffer still has its `disk` flag, and `Reqs.heads` that no two have the same first
descriptor. The rest is bookkeeping: every descriptor that is not free belongs to one
process, and chains are linked as `virtio_disk_rw` left them.

Three things matter about a process: the descriptors it has taken, the buffer it
works on, and its request with how far it has come. The lemmas here are about
functions that give these for every process; where they come from is the business of
`Xv6.Virtio.Protocol`.
-/

namespace Xv6.Virtio

open Function List

variable {T B : Type}

/-- How far a request has come. -/
inductive Stage where
  | filled
  | ringed
  | posted
  | answered
  | freeing (l : List Nat)
  | finished
  deriving DecidableEq

/-- The whole chain is in the table. -/
def Stage.live : Stage → Bool
  | filled => true
  | ringed => true
  | posted => true
  | answered => true
  | _ => false

def Chain.list (c : Chain B) : List Nat := [c.i0, c.i1, c.i2]

theorem update_eq_some [DecidableEq T] {α : Type} {K : T → Option α} {t u : T} {x : Option α}
    {y : α} (h : update K t x u = some y) : (u = t ∧ x = some y) ∨ (u ≠ t ∧ K u = some y) := by
  by_cases hu : u = t
  · rw [hu, update_self] at h
    exact Or.inl ⟨hu, h⟩
  · rw [update_of_ne hu] at h
    exact Or.inr ⟨hu, h⟩

theorem of_update_none [DecidableEq T] {α : Type} {K : T → Option α} {t u : T} {y : α}
    (h : update K t none u = some y) : u ≠ t ∧ K u = some y :=
  (update_eq_some h).resolve_left nofun

/-- Every descriptor that is not free belongs to one process. -/
structure Descs (free : Nat → Bool) (H : T → List Nat) : Prop where
  nodup : ∀ t, (H t).Nodup
  taken : ∀ t i, i ∈ H t → i < NUM ∧ free i = false
  apart : ∀ t u i, i ∈ H t → i ∈ H u → t = u
  cover : ∀ i, i < NUM → free i = false → ∃ t, i ∈ H t

/-- Requests at one time have different buffers. -/
structure Bufs (held : B → Bool) (W : T → Option B) : Prop where
  held : ∀ t b, W t = some b → held b = true
  alone : ∀ t u b, W t = some b → W u = some b → t = u

section Tables

variable [DecidableEq T] {free : Nat → Bool} {H : T → List Nat}

theorem Descs.take (h : Descs free H) (t : T) {i : Nat} (hi : i < NUM) (hf : free i = true) :
    Descs (update free i false) (update H t (H t ++ [i])) := by
  have hout : ∀ u, i ∉ H u := by
    intro u hu
    have hfalse := (h.taken u i hu).2
    rw [hf] at hfalse
    exact nomatch hfalse
  have hmem : ∀ u j, j ∈ update H t (H t ++ [i]) u ↔ j ∈ H u ∨ (u = t ∧ j = i) := by
    intro u j
    by_cases hu : u = t
    · rw [hu, update_self, mem_append, mem_singleton]
      simp only [true_and]
    · rw [update_of_ne hu]
      simp only [hu, false_and, or_false]
  have hnd : (H t ++ [i]).Nodup := nodup_append.mpr ⟨h.nodup t, nodup_singleton i,
    fun a ha b hb hab => hout t (by rw [← mem_singleton.mp hb, ← hab]; exact ha)⟩
  refine ⟨(forall_update_iff H (fun _ l => l.Nodup)).mpr ⟨hnd, fun u _ => h.nodup u⟩,
    fun u j hj => ?_, fun u v j hu hv => ?_, fun j hj hfj => ?_⟩
  · rcases (hmem u j).mp hj with hj | ⟨-, rfl⟩
    · have hne : j ≠ i := fun he => hout u (he ▸ hj)
      rw [update_of_ne hne]
      exact h.taken u j hj
    · rw [update_self]
      exact ⟨hi, rfl⟩
  · rcases (hmem u j).mp hu with hu | ⟨hut, hji⟩
    · rcases (hmem v j).mp hv with hv | ⟨-, hji⟩
      · exact h.apart u v j hu hv
      · exact absurd (hji ▸ hu) (hout u)
    · rcases (hmem v j).mp hv with hv | ⟨hvt, -⟩
      · exact absurd (hji ▸ hv) (hout v)
      · exact hut.trans hvt.symm
  · by_cases hji : j = i
    · exact ⟨t, (hmem t j).mpr (Or.inr ⟨rfl, hji⟩)⟩
    · rw [update_of_ne hji] at hfj
      rcases h.cover j hj hfj with ⟨u, hu⟩
      exact ⟨u, (hmem u j).mpr (Or.inl hu)⟩

theorem Descs.drop (h : Descs free H) (t : T) {i : Nat} {l : List Nat} (ht : H t = i :: l) :
    Descs (update free i true) (update H t l) := by
  have hnd := h.nodup t
  rw [ht, nodup_cons] at hnd
  have hsub : ∀ u j, j ∈ update H t l u → j ∈ H u ∧ j ≠ i := by
    intro u j hj
    by_cases hu : u = t
    · rw [hu, update_self] at hj
      rw [hu, ht]
      exact ⟨mem_cons_of_mem i hj, fun he => hnd.1 (he ▸ hj)⟩
    · rw [update_of_ne hu] at hj
      refine ⟨hj, fun he => hu ?_⟩
      exact h.apart u t i (he ▸ hj) (by rw [ht]; exact mem_cons_self)
  refine ⟨(forall_update_iff H (fun _ l => l.Nodup)).mpr ⟨hnd.2, fun u _ => h.nodup u⟩,
    fun u j hj => ?_, fun u v j hu hv => h.apart u v j (hsub u j hu).1 (hsub v j hv).1,
    fun j hj hfj => ?_⟩
  · rw [update_of_ne (hsub u j hj).2]
    exact h.taken u j (hsub u j hj).1
  · have hne : j ≠ i := by
      intro he
      rw [he, update_self] at hfj
      exact nomatch hfj
    rw [update_of_ne hne] at hfj
    rcases h.cover j hj hfj with ⟨u, hu⟩
    by_cases hut : u = t
    · rw [hut, ht] at hu
      refine ⟨t, ?_⟩
      rw [update_self]
      exact (mem_cons.mp hu).resolve_left hne
    · exact ⟨u, by rw [update_of_ne hut]; exact hu⟩

variable [DecidableEq B] {held : B → Bool} {W : T → Option B}

theorem Bufs.start (h : Bufs held W) (t : T) {b : B} (hb : held b = false) :
    Bufs (update held b true) (update W t (some b)) := by
  have hout : ∀ u, W u ≠ some b := by
    intro u hu
    have htrue := h.held u b hu
    rw [hb] at htrue
    cases htrue
  refine ⟨fun u c hu => ?_, fun u v c hu hv => ?_⟩
  · rcases update_eq_some hu with ⟨-, hx⟩ | ⟨-, hx⟩
    · rw [← Option.some.inj hx, update_self]
    · have hne : c ≠ b := fun he => hout u (he ▸ hx)
      rw [update_of_ne hne]
      exact h.held u c hx
  · rcases update_eq_some hu with ⟨hut, hx⟩ | ⟨-, hx⟩
    · rcases update_eq_some hv with ⟨hvt, -⟩ | ⟨-, hy⟩
      · exact hut.trans hvt.symm
      · exact absurd (by rw [hy, Option.some.inj hx]) (hout v)
    · rcases update_eq_some hv with ⟨-, hy⟩ | ⟨-, hy⟩
      · exact absurd (by rw [hx, Option.some.inj hy]) (hout u)
      · exact h.alone u v c hx hy

theorem Bufs.stop (h : Bufs held W) (t : T) {b : B} (ht : W t = some b) :
    Bufs (update held b false) (update W t none) := by
  refine ⟨fun u c hu => ?_, fun u v c hu hv =>
    h.alone u v c (of_update_none hu).2 (of_update_none hv).2⟩
  rcases of_update_none hu with ⟨hut, hx⟩
  have hne : c ≠ b := fun he => hut (h.alone u t b (he ▸ hx) ht)
  rw [update_of_ne hne]
  exact h.held u c hx

end Tables

/-- A chain of descriptors in the table: each but the last has the flag and the
    number of the next one. -/
def Walk (desc : Nat → Desc B) : List Nat → Prop
  | [] => True
  | [i] => (desc i).flags &&& VRING_DESC_F_NEXT = 0
  | i :: j :: l =>
    (desc i).flags &&& VRING_DESC_F_NEXT ≠ 0 ∧ (desc i).next = j ∧ Walk desc (j :: l)

theorem Walk.congr {desc desc' : Nat → Desc B} {l : List Nat} (h : Walk desc l)
    (he : ∀ i ∈ l, desc' i = desc i) : Walk desc' l := by
  induction l with
  | nil => trivial
  | cons i l ih =>
    cases l with
    | nil =>
      simp only [Walk] at h ⊢
      rw [he i mem_cons_self]
      exact h
    | cons j l =>
      simp only [Walk] at h ⊢
      rw [he i mem_cons_self]
      exact ⟨h.1, h.2.1, ih h.2.2 (fun k hk => he k (mem_cons_of_mem i hk))⟩

/-- The entries of the `used` ring that the handler has not seen. -/
def System.unseen (s : System T B) : List (Nat × Nat) := Ring.contents s.used s.usedIdx s.usedDev

/-- The entries on their way: published and not fetched, with the device, and
    completed but not seen by the handler. -/
def System.pending (s : System T B) : List (Nat × Nat) :=
  Ring.contents s.avail s.lastAvail s.availIdx ++ s.fetched ++ s.unseen

/-- What processes have is the same in two states. -/
structure System.SameUse (s s' : System T B) : Prop where
  free : s'.free = s.free
  held : s'.held = s.held
  pc : s'.pc = s.pc
  lock : s'.lock = s.lock

/-- What holds of the requests, where `K` gives the request of each process. -/
structure Reqs (s : System T B) (K : T → Option (Chain B × Stage)) : Prop where
  -- Chains are in the table, with their buffer.
  walk : ∀ t c g, K t = some (c, g) → g.live = true →
    Walk s.desc c.list ∧ (s.desc c.i2).addr = .status c.i0 ∧ (s.info c.i0).b = some c.b
  rest : ∀ t c l, K t = some (c, .freeing l) → Walk s.desc l
  -- Every published request that has not been answered has one entry.
  heads : (s.pending.map Prod.fst).Nodup
  tokens : ∀ x, x ∈ s.pending ↔
    ∃ t c, K t = some (c, .posted) ∧ s.disk c.b = true ∧ x = (c.i0, c.req)
  slot : ∀ t c, K t = some (c, .ringed) → s.avail (Ring.slot NUM s.availIdx) = (c.i0, c.req)
  status : ∀ x ∈ s.unseen, (s.info x.1).status = 0
  early : ∀ t c g, K t = some (c, g) → g = .filled ∨ g = .ringed → s.disk c.b = true
  late : ∀ t c, K t = some (c, .answered) → s.disk c.b = false
  -- The record of completed requests.
  record : s.completed = s.cleared ++ s.unseen.map Prod.snd
  once : s.completed.Nodup
  known : ∀ r ∈ s.completed, r < s.serial
  number : ∀ t c g, K t = some (c, g) → c.req < s.serial
  numbers : ∀ t u c c' g g', K t = some (c, g) → K u = some (c', g') → c.req = c'.req → t = u
  open_req : ∀ t c g, K t = some (c, g) → g.live = true → s.disk c.b = true → c.req ∉ s.cleared
  done_req : ∀ t c g, K t = some (c, g) → g.live = false ∨ s.disk c.b = false → c.req ∈ s.cleared
  returned : ∀ r ∈ s.returned, r ∈ s.cleared

/-- The descriptors and the buffer of a request are those of its process. -/
structure Fits (H : T → List Nat) (W : T → Option B) (K : T → Option (Chain B × Stage)) : Prop where
  buf : ∀ t c g, K t = some (c, g) → W t = some c.b
  holds : ∀ t c g, K t = some (c, g) → g.live = true → H t = c.list
  rest : ∀ t c l, K t = some (c, .freeing l) → H t = l

namespace Reqs

variable {s : System T B} {free : Nat → Bool} {held : B → Bool} {H : T → List Nat}
  {W : T → Option B} {K : T → Option (Chain B × Stage)} {c : Chain B} {t : T}

theorem mem_list (hF : Fits H W K) {g : Stage} (ht : K t = some (c, g))
    (hg : g.live = true) : c.i0 ∈ H t ∧ c.i1 ∈ H t ∧ c.i2 ∈ H t := by
  rw [hF.holds t c g ht hg]
  simp only [Chain.list, mem_cons, true_or, or_true, and_self]

theorem req_unique {t u : T} {c c' : Chain B} {g g' : Stage} (h : K t = some (c, g))
    (h' : K u = some (c', g')) (hut : u = t) : c' = c ∧ g' = g := by
  rw [hut, h, Option.some.injEq, Prod.mk.injEq] at h'
  exact ⟨h'.1.symm, h'.2.symm⟩

theorem ne_of_none {t u : T} {x : Chain B × Stage} (h : K t = none) (h' : K u = some x) :
    u ≠ t := by
  intro hut
  rw [hut, h] at h'
  exact nomatch h'

/-- Every entry on its way is the first descriptor of a published request. -/
theorem head_mem (h : Reqs s K) (hF : Fits H W K) {i : Nat} (hi : i ∈ s.pending.map Prod.fst) :
    ∃ t c, K t = some (c, .posted) ∧ c.i0 = i ∧ i ∈ H t := by
  rcases mem_map.mp hi with ⟨x, hx, rfl⟩
  rcases (h.tokens x).mp hx with ⟨t, c, ht, -, rfl⟩
  exact ⟨t, c, ht, rfl, (mem_list hF ht rfl).1⟩

theorem pending_le (h : Reqs s K) (hF : Fits H W K) (hD : Descs free H) :
    s.pending.length ≤ NUM := by
  have hsub : s.pending.map Prod.fst ⊆ range NUM := by
    intro i hi
    rcases h.head_mem hF hi with ⟨t, c, -, -, hm⟩
    exact mem_range.mpr (hD.taken t i hm).1
  have hlen := (h.heads.subperm hsub).length_le
  rwa [length_map, length_range] at hlen

/-- A chain that has not been published has no entry on its way. -/
theorem head_new (h : Reqs s K) (hF : Fits H W K) (hD : Descs free H) {i : Nat} (hi : i ∈ H t)
    (hp : ∀ c, K t ≠ some (c, .posted)) : i ∉ s.pending.map Prod.fst := by
  intro hm
  rcases h.head_mem hF hm with ⟨u, c, hu, -, hm'⟩
  rw [← hD.apart t u i hi hm'] at hu
  exact hp c hu

/-- There is room in the rings for one more chain. -/
theorem pending_lt (h : Reqs s K) (hF : Fits H W K) (hD : Descs free H) {g : Stage}
    (ht : K t = some (c, g)) (hg : g.live = true) (hp : g ≠ .posted) :
    s.pending.length < NUM := by
  have hm := (mem_list hF ht hg).1
  have hout : c.i0 ∉ s.pending.map Prod.fst := by
    exact h.head_new hF hD hm (fun c' hc' => hp (req_unique ht hc' rfl).2.symm)
  have hsub : (c.i0 :: s.pending.map Prod.fst) ⊆ range NUM := by
    intro i hi
    rw [mem_range]
    rcases mem_cons.mp hi with rfl | hi
    · exact (hD.taken t _ hm).1
    · rcases h.head_mem hF hi with ⟨u, c', -, -, hm'⟩
      exact (hD.taken u i hm').1
  have hlen := ((nodup_cons.mpr ⟨hout, h.heads⟩).subperm hsub).length_le
  rw [length_cons, length_map, length_range] at hlen
  exact hlen

theorem count_avail_le : Ring.count s.lastAvail s.availIdx ≤ s.pending.length := by
  rw [System.pending, length_append, length_append, Ring.length_contents]
  omega

theorem length_lt (n : Nat) (h : n ≤ NUM) : n + 1 < 2 ^ 16 := by
  simp only [NUM] at h
  omega

theorem fetch (h : Reqs s K) :
    Outcome.Meets (fun _ => False) (fun s' => Reqs s' K ∧ s.SameUse s') (Virtio.fetch s) := by
  unfold Virtio.fetch
  by_cases he : s.lastAvail = s.availIdx
  · rw [if_pos he]
    trivial
  rw [if_neg he]
  have hpop := Ring.contents_pop s.avail he
  -- The entry moves from the ring to the device.
  have hperm : List.Perm (Ring.contents s.avail (s.lastAvail + 1) s.availIdx ++
      (s.fetched ++ [s.avail (Ring.slot NUM s.lastAvail)]) ++ s.unseen) s.pending := by
    rw [System.pending, hpop]
    refine List.Perm.append_right _ ?_
    rw [cons_append, ← append_assoc]
    exact perm_append_singleton _ _
  exact ⟨{ h with
    heads := (hperm.map Prod.fst).nodup_iff.mpr h.heads
    tokens := fun x => hperm.mem_iff.trans (h.tokens x) }, rfl, rfl, rfl, rfl⟩

theorem fetched_mem {k : Nat} {x : Nat × Nat} (hk : s.fetched[k]? = some x) :
    List.Perm s.fetched (x :: s.fetched.eraseIdx k) ∧ x ∈ s.pending := by
  rcases List.getElem?_eq_some_iff.mp hk with ⟨hlt, hget⟩
  have hperm : List.Perm s.fetched (x :: s.fetched.eraseIdx k) := by
    rw [← hget]
    exact (getElem_cons_eraseIdx_perm hlt).symm
  refine ⟨hperm, mem_append_left _ (mem_append_right _ ?_)⟩
  exact hperm.mem_iff.mpr mem_cons_self

theorem unseen_mem {x : Nat × Nat} (hx : x ∈ s.unseen) : x ∈ s.pending :=
  mem_append_right _ hx

theorem complete (h : Reqs s K) (hF : Fits H W K) (hD : Descs free H) (k : Nat) :
    Outcome.Meets (fun _ => False) (fun s' => Reqs s' K ∧ s.SameUse s') (Virtio.complete s k) := by
  unfold Virtio.complete
  cases hk : s.fetched[k]? with
  | none => trivial
  | some x =>
    rcases x with ⟨i, r⟩
    rcases fetched_mem hk with ⟨hfetch, hmem⟩
    rcases (h.tokens _).mp hmem with ⟨t, c, ht, hdisk, hx⟩
    have hi : i = c.i0 := (Prod.mk.inj hx).1
    have hr : r = c.req := (Prod.mk.inj hx).2
    -- The chain leads to the status byte of this request.
    rcases h.walk t c _ ht rfl with ⟨hw, haddr, -⟩
    have hnext : (s.desc (s.desc (s.desc i).next).next).addr = .status i := by
      simp only [Chain.list, Walk] at hw
      rw [hi, hw.2.1, hw.2.2.2.1, haddr]
    simp only [hnext]
    have hle := h.pending_le hF hD
    have hlen : s.unseen.length + 1 ≤ s.pending.length := by
      have h₁ := hfetch.length_eq
      rw [length_cons] at h₁
      rw [System.pending, length_append, length_append]
      omega
    have hcount : s.unseen.length = Ring.count s.usedIdx s.usedDev := Ring.length_contents _ _ _
    have hpush : Ring.contents (update s.used (Ring.slot NUM s.usedDev) (i, r)) s.usedIdx
        (s.usedDev + 1) = s.unseen ++ [(i, r)] := by
      refine Ring.contents_push (by decide) s.used s.usedIdx s.usedDev (i, r) (by omega) ?_
      exact length_lt _ (by omega)
    have hperm : List.Perm (Ring.contents s.avail s.lastAvail s.availIdx ++ s.fetched.eraseIdx k ++
        (s.unseen ++ [(i, r)])) s.pending := by
      rw [System.pending, append_assoc, append_assoc]
      refine List.Perm.append_left _ ?_
      refine List.Perm.trans ?_ (hfetch.symm.append_right s.unseen)
      rw [← append_assoc]
      exact perm_append_singleton _ _
    have hnd := (hperm.map Prod.fst).nodup_iff.mpr h.heads
    have hunseen : ∀ x ∈ s.unseen, x.1 ≠ i := by
      intro x hxm he
      rw [map_append, map_append, map_append] at hnd
      have hnd' := (nodup_append.mp (nodup_append.mp hnd).2.1).2.2
      exact hnd' x.1 (mem_map_of_mem hxm) i (mem_singleton.mpr rfl) he
    have hnew : r ∉ s.completed := by
      rw [h.record]
      intro hm
      rcases mem_append.mp hm with hm | hm
      · exact h.open_req t c _ ht rfl hdisk (hr ▸ hm)
      · rcases mem_map.mp hm with ⟨y, hy, hyr⟩
        rcases (h.tokens y).mp (unseen_mem hy) with ⟨u, c', hu, -, hyc⟩
        have hut : u = t := by
          refine h.numbers u t c' c _ _ hu ht ?_
          rw [← hr, ← hyr, hyc]
        exact hunseen y hy (by rw [hyc, (req_unique ht hu hut).1, hi])
    refine ⟨{ h with
      walk := fun t c g ht hg => ?_
      heads := ?_
      tokens := fun x => ?_
      status := fun x hx => ?_
      record := ?_
      once := ?_
      known := fun r' hr' => ?_ }, rfl, rfl, rfl, rfl⟩
    · rw [update_proj (P := Nat) Info.b (by rfl) c.i0]
      exact h.walk t c g ht hg
    · rw [System.pending, System.unseen, hpush]
      exact hnd
    · rw [System.pending, System.unseen, hpush]
      exact hperm.mem_iff.trans (h.tokens x)
    · rw [System.unseen, hpush] at hx
      rcases mem_append.mp hx with hx | hx
      · simp only [update_of_ne (hunseen x hx)]
        exact h.status x hx
      · rw [mem_singleton.mp hx]
        simp only [update_self]
    · rw [System.unseen, hpush, map_append, ← append_assoc, ← h.record]
      rfl
    · exact nodup_append.mpr ⟨h.once, nodup_singleton r,
        fun a ha b hb hab => hnew (by rw [← mem_singleton.mp hb, ← hab]; exact ha)⟩
    · rcases mem_append.mp hr' with hm | hm
      · exact h.known r' hm
      · rw [mem_singleton.mp hm, hr]
        exact h.number t c _ ht

section Process

variable [DecidableEq T]

theorem update_stage {t u : T} {c c' : Chain B} {g k : Stage}
    (hu : update K t (some (c, g)) u = some (c', k)) :
    (u = t ∧ c' = c ∧ k = g) ∨ (u ≠ t ∧ K u = some (c', k)) := by
  rcases update_eq_some hu with ⟨hut, hx⟩ | hx
  · rw [Option.some.injEq, Prod.mk.injEq] at hx
    exact Or.inl ⟨hut, hx.1.symm, hx.2.symm⟩
  · exact Or.inr hx

/-- It is another process that is at another stage. -/
theorem update_other {t u : T} {c c' : Chain B} {g k : Stage}
    (hu : update K t (some (c, g)) u = some (c', k)) (hk : k ≠ g) : u ≠ t ∧ K u = some (c', k) := by
  rcases update_stage hu with ⟨-, -, hg⟩ | hx
  · exact absurd hg hk
  · exact hx

theorem forall_update {g : Stage} {C : T → Chain B → Stage → Prop} (hself : C t c g)
    (hother : ∀ u c' k, K u = some (c', k) → C u c' k) (u : T) (c' : Chain B) (k : Stage)
    (hu : update K t (some (c, g)) u = some (c', k)) : C u c' k := by
  rcases update_stage hu with ⟨rfl, rfl, rfl⟩ | ⟨-, hx⟩
  · exact hself
  · exact hother u c' k hx

variable (h : Reqs s K)

include h

/-- A request moves on to another stage, and with it the `avail` index. -/
theorem moveTo {g : Stage} (g' : Stage) (a : BitVec 16)
    (ht : K t = some (c, g)) (hlive : g'.live = true → g.live = true)
    (hrest : ∀ l, g' = .freeing l → Walk s.desc l)
    (hheads : (({ s with availIdx := a } : System T B).pending.map Prod.fst).Nodup)
    (htokens : ∀ x, x ∈ ({ s with availIdx := a } : System T B).pending ↔
      ∃ u c', update K t (some (c, g')) u = some (c', .posted) ∧ s.disk c'.b = true ∧
        x = (c'.i0, c'.req))
    (hslot : ∀ u c', update K t (some (c, g')) u = some (c', .ringed) →
      s.avail (Ring.slot NUM a) = (c'.i0, c'.req))
    (hearly : g' = .filled ∨ g' = .ringed → s.disk c.b = true)
    (hlate : g' = .answered → s.disk c.b = false)
    (hdone : g'.live = false → c.req ∈ s.cleared) :
    Reqs { s with availIdx := a } (update K t (some (c, g'))) := by
  have hchain : ∀ u c' k, update K t (some (c, g')) u = some (c', k) → ∃ k', K u = some (c', k') :=
    forall_update ⟨g, ht⟩ (fun u c' k hx => ⟨k, hx⟩)
  refine { h with
    heads := hheads
    tokens := htokens
    slot := hslot
    walk := forall_update (fun hk => h.walk t c g ht (hlive hk)) h.walk
    rest := fun u c' l hu => ?_
    early := forall_update hearly h.early
    late := fun u c' hu => ?_
    number := fun u c' k hu => (hchain u c' k hu).elim (h.number u c')
    numbers := fun u v c₁ c₂ k₁ k₂ hu hv hr => ?_
    open_req := forall_update (fun hk => h.open_req t c g ht (hlive hk)) h.open_req
    done_req := forall_update (fun hk => hk.elim hdone fun hd =>
      h.done_req t c g ht (Or.inr hd)) h.done_req }
  · rcases update_stage hu with ⟨-, -, hg⟩ | ⟨-, hx⟩
    · exact hrest l hg.symm
    · exact h.rest u c' l hx
  · rcases update_stage hu with ⟨-, rfl, hg⟩ | ⟨-, hx⟩
    · exact hlate hg.symm
    · exact h.late u c' hx
  · rcases hchain u c₁ k₁ hu with ⟨k₁', hu'⟩
    rcases hchain v c₂ k₂ hv with ⟨k₂', hv'⟩
    exact h.numbers u v c₁ c₂ k₁' k₂' hu' hv' hr

theorem move {g : Stage} (g' : Stage) (ht : K t = some (c, g))
    (hlive : g'.live = true → g.live = true) (hrest : ∀ l, g' = .freeing l → Walk s.desc l)
    (hpost : s.disk c.b = true → (g = .posted ↔ g' = .posted))
    (hslot : g' = .ringed → s.avail (Ring.slot NUM s.availIdx) = (c.i0, c.req))
    (hearly : g' = .filled ∨ g' = .ringed → s.disk c.b = true)
    (hlate : g' = .answered → s.disk c.b = false) (hdone : g'.live = false → c.req ∈ s.cleared) :
    Reqs s (update K t (some (c, g'))) := by
  refine h.moveTo g' s.availIdx ht hlive hrest h.heads (fun x => (h.tokens x).trans ⟨?_, ?_⟩)
    (fun u c' hu => ?_) hearly hlate hdone
  · rintro ⟨u, c', hu, hd, rfl⟩
    refine ⟨u, c', ?_, hd, rfl⟩
    by_cases hut : u = t
    · rw [hut, ht, Option.some.injEq, Prod.mk.injEq] at hu
      rcases hu with ⟨rfl, hg⟩
      rw [hut, update_self, (hpost hd).mp hg]
    · rw [update_of_ne hut]
      exact hu
  · rintro ⟨u, c', hu, hd, rfl⟩
    refine ⟨u, c', ?_, hd, rfl⟩
    rcases update_stage hu with ⟨rfl, rfl, hg⟩ | ⟨-, hx⟩
    · rw [ht, (hpost hd).mpr hg.symm]
    · exact hx
  · rcases update_stage hu with ⟨-, rfl, hg⟩ | ⟨-, hx⟩
    · exact hslot hg.symm
    · exact h.slot u c' hx

omit h [DecidableEq T] in
/-- Tables change where no request has anything. -/
theorem frame (h : Reqs s K) (hF : Fits H W K) {desc : Nat → Desc B} {info : Nat → Info B}
    {disk : B → Bool} (hdesc : ∀ u c g, K u = some (c, g) → ∀ j ∈ H u, desc j = s.desc j)
    (hinfo : ∀ u c g, K u = some (c, g) → g.live = true → info c.i0 = s.info c.i0)
    (hdisk : ∀ u c g, K u = some (c, g) → disk c.b = s.disk c.b) :
    Reqs { s with desc := desc, info := info, disk := disk } K := by
  refine { h with
    walk := fun u c g hu hg => ?_
    rest := fun u c l hu => ?_
    tokens := fun x => (h.tokens x).trans ⟨?_, ?_⟩
    status := fun x hx => ?_
    early := fun u c g hu hg => (hdisk u c g hu).trans (h.early u c g hu hg)
    late := fun u c hu => (hdisk u c _ hu).trans (h.late u c hu)
    open_req := fun u c g hu hg hd => h.open_req u c g hu hg ((hdisk u c g hu).symm.trans hd)
    done_req := fun u c g hu hg => ?_ }
  · rcases h.walk u c g hu hg with ⟨hw, ha, hb⟩
    refine ⟨hw.congr (fun j hj => hdesc u c g hu j ?_), ?_, ?_⟩
    · rw [hF.holds u c g hu hg]
      exact hj
    · simp only [hdesc u c g hu _ (mem_list hF hu hg).2.2]
      exact ha
    · simp only [hinfo u c g hu hg]
      exact hb
  · refine (h.rest u c l hu).congr (fun j hj => hdesc u c _ hu j ?_)
    rw [hF.rest u c l hu]
    exact hj
  · rintro ⟨u, c, hu, hd, rfl⟩
    exact ⟨u, c, hu, (hdisk u c _ hu).trans hd, rfl⟩
  · rintro ⟨u, c, hu, hd, rfl⟩
    exact ⟨u, c, hu, (hdisk u c _ hu).symm.trans hd, rfl⟩
  · have hs := h.status x hx
    rcases (h.tokens x).mp (unseen_mem hx) with ⟨u, c, hu, -, rfl⟩
    simp only [hinfo u c _ hu rfl]
    exact hs
  · simp only [hdisk u c g hu] at hg
    exact h.done_req u c g hu hg

theorem start (hK : K t = none) (c : Chain B) (hc : c.req = s.serial)
    (hwalk : Walk s.desc c.list ∧ (s.desc c.i2).addr = .status c.i0 ∧ (s.info c.i0).b = some c.b)
    (hdisk : s.disk c.b = true) :
    Reqs { s with serial := s.serial + 1 } (update K t (some (c, .filled))) := by
  refine { h with
    walk := forall_update (fun _ => hwalk) h.walk
    rest := fun u c' l hu => h.rest u c' l (update_other hu nofun).2
    tokens := fun x => (h.tokens x).trans ⟨?_, ?_⟩
    slot := fun u c' hu => h.slot u c' (update_other hu nofun).2
    early := forall_update (fun _ => hdisk) h.early
    late := fun u c' hu => h.late u c' (update_other hu nofun).2
    known := fun r hr => Nat.lt_succ_of_lt (h.known r hr)
    number := forall_update (by rw [hc]; exact Nat.lt_succ_self _) (fun u c' k hx =>
      Nat.lt_succ_of_lt (h.number u c' k hx))
    numbers := fun u v c₁ c₂ k₁ k₂ hu hv hr => ?_
    open_req := forall_update (fun _ _ hm => ?_) h.open_req
    done_req := forall_update (fun hk => ?_) h.done_req }
  · rintro ⟨u, c', hu, hd⟩
    refine ⟨u, c', ?_, hd⟩
    rw [update_of_ne (ne_of_none hK hu)]
    exact hu
  · rintro ⟨u, c', hu, hd⟩
    exact ⟨u, c', (update_other hu nofun).2, hd⟩
  · rcases update_stage hu with ⟨hut, rfl, -⟩ | ⟨-, hx⟩
    · rcases update_stage hv with ⟨hvt, -, -⟩ | ⟨-, hy⟩
      · exact hut.trans hvt.symm
      · exact absurd (h.number v c₂ k₂ hy) (by omega)
    · rcases update_stage hv with ⟨-, rfl, -⟩ | ⟨-, hy⟩
      · exact absurd (h.number u c₁ k₁ hx) (by omega)
      · exact h.numbers u v c₁ c₂ k₁ k₂ hx hy hr
  · have hlt := h.known c.req (by rw [h.record]; exact mem_append_left _ hm)
    omega
  · simp only [hdisk, Stage.live, Bool.true_eq_false, or_self] at hk

theorem fill [DecidableEq B] (hF : Fits H W K) (hD : Descs free H) (hB : Bufs held W) {b : B}
    {i0 i1 i2 : Nat} (write : Bool) (hH : H t = [i0, i1, i2]) (hW : W t = some b) (hK : K t = none)
    (c : Chain B) (hc : c = ⟨b, i0, i1, i2, s.serial⟩) :
    Reqs { s with
        desc := c.descs write s.desc
        info := update s.info i0 { b := some b, status := 0xff }
        disk := update s.disk b true
        serial := s.serial + 1 }
      (update K t (some (c, .filled))) := by
  have hnd := hD.nodup t
  rw [hH] at hnd
  have hne : i0 ≠ i1 ∧ i0 ≠ i2 ∧ i1 ≠ i2 := by
    simp only [nodup_cons, mem_cons, not_mem_nil, or_false, not_or] at hnd
    exact ⟨hnd.1.1, hnd.1.2, hnd.2.1⟩
  -- Nothing of another process is touched.
  have hother : ∀ {u : T}, u ≠ t → ∀ j ∈ H u, j ≠ i0 ∧ j ≠ i1 ∧ j ≠ i2 := by
    intro u hut j hj
    have hmem : j ∉ H t := fun hj' => hut (hD.apart u t j hj hj')
    rw [hH] at hmem
    simp only [mem_cons, not_mem_nil, or_false, not_or] at hmem
    exact hmem
  subst hc
  have hframe : Reqs { s with
      desc := Chain.descs ⟨b, i0, i1, i2, s.serial⟩ write s.desc
      info := update s.info i0 { b := some b, status := 0xff }
      disk := update s.disk b true } K := by
    refine h.frame hF (fun u c' k hu j hj => ?_) (fun u c' k hu hk => ?_) (fun u c' k hu => ?_)
    · rcases hother (ne_of_none hK hu) j hj with ⟨h0, h1, h2⟩
      simp only [Chain.descs]
      rw [update_of_ne h2, update_of_ne h1, update_of_ne h0]
    · exact update_of_ne (hother (ne_of_none hK hu) _ (mem_list hF hu hk).1).1 _ _
    · refine update_of_ne (fun he => ne_of_none hK hu ?_) _ _
      exact hB.alone u t b (he ▸ hF.buf u c' k hu) hW
  refine hframe.start hK _ rfl ?_ (update_self ..)
  simp only [Chain.list, Walk, Chain.descs, update_self, update_of_ne hne.1,
    update_of_ne hne.2.1, update_of_ne hne.2.2, ne_eq, true_and, and_true]
  cases write <;> decide

omit h [DecidableEq T] in
theorem setAvail (h : Reqs s K) (hF : Fits H W K) (hD : Descs free H) {t : T} {c : Chain B}
    (ht : K t = some (c, .filled)) (hl : ∀ u c', K u ≠ some (c', .ringed)) (x : Nat × Nat) :
    Reqs { s with avail := update s.avail (Ring.slot NUM s.availIdx) x } K := by
  have hlt := h.pending_lt hF hD ht rfl (by decide)
  have hle := count_avail_le (s := s)
  have hsame := Ring.contents_update (by decide) s.avail s.lastAvail s.availIdx x (by omega)
  refine { h with
    heads := ?_
    tokens := fun y => ?_
    slot := fun u c' hu => absurd hu (hl u c') }
  · rw [System.pending, hsame]
    exact h.heads
  · rw [System.pending, hsame]
    exact h.tokens y

theorem ring (hF : Fits H W K) (hD : Descs free H) (ht : K t = some (c, .filled))
    (hl : ∀ u c', K u ≠ some (c', .ringed)) :
    Reqs { s with avail := update s.avail (Ring.slot NUM s.availIdx) (c.i0, c.req) }
      (update K t (some (c, .ringed))) := by
  refine (h.setAvail hF hD ht hl (c.i0, c.req)).move .ringed ht (fun _ => rfl)
    nofun (fun _ => ?_) (fun _ => ?_) (fun _ => ?_) nofun
    nofun
  · exact ⟨nofun, nofun⟩
  · simp only [update_self]
  · exact h.early t c _ ht (Or.inl rfl)

theorem publish (hF : Fits H W K) (hD : Descs free H) (ht : K t = some (c, .ringed))
    (hl : ∀ u c', K u = some (c', .ringed) → u = t) :
    Reqs { s with availIdx := s.availIdx + 1 } (update K t (some (c, .posted))) := by
  have hlt := h.pending_lt hF hD ht rfl (by decide)
  have hle := count_avail_le (s := s)
  have hdisk := h.early t c _ ht (Or.inr rfl)
  have hpush := Ring.contents_succ s.avail s.lastAvail s.availIdx (length_lt _ (by omega))
  rw [h.slot t c ht] at hpush
  have hperm : List.Perm (Ring.contents s.avail s.lastAvail (s.availIdx + 1) ++ s.fetched ++
      s.unseen) ((c.i0, c.req) :: s.pending) := by
    rw [hpush, System.pending, append_assoc, append_assoc, append_assoc]
    exact perm_middle
  have hnew : c.i0 ∉ s.pending.map Prod.fst := by
    refine h.head_new hF hD (mem_list hF ht rfl).1 (fun c' hc' => ?_)
    exact nomatch (req_unique ht hc' rfl).2
  refine h.moveTo .posted (s.availIdx + 1) ht (fun _ => rfl) nofun ?_
    (fun x => hperm.mem_iff.trans (mem_cons.trans ⟨?_, ?_⟩)) (fun u c' hu => ?_)
    (fun hg => ?_) nofun nofun
  · refine (hperm.map Prod.fst).nodup_iff.mpr ?_
    exact nodup_cons.mpr ⟨hnew, h.heads⟩
  · rintro (rfl | hx)
    · exact ⟨t, c, update_self .., hdisk, rfl⟩
    · rcases (h.tokens x).mp hx with ⟨u, c', hu, hd, rfl⟩
      refine ⟨u, c', ?_, hd, rfl⟩
      rw [update_of_ne (fun hut : u = t => nomatch (req_unique ht hu hut).2)]
      exact hu
  · rintro ⟨u, c', hu, hd, rfl⟩
    rcases update_stage hu with ⟨-, rfl, -⟩ | ⟨-, hx⟩
    · exact Or.inl rfl
    · exact Or.inr ((h.tokens _).mpr ⟨u, c', hx, hd, rfl⟩)
  · rcases update_other hu nofun with ⟨hut, hx⟩
    exact absurd (hl u c' hx) hut
  · rcases hg with hg | hg <;> exact nomatch hg

theorem answer (ht : K t = some (c, .posted))
    (hd : s.disk c.b = false) : Reqs s (update K t (some (c, .answered))) := by
  refine h.move .answered ht (fun _ => rfl) (by intros; contradiction) (fun hd' => ?_)
    (by intros; contradiction) (fun hg => ?_) (fun _ => hd) (by intros; contradiction)
  · rw [hd] at hd'
    cases hd'
  · rcases hg with hg | hg <;> cases hg

theorem clear (hF : Fits H W K) (hD : Descs free H) (ht : K t = some (c, .answered)) :
    Reqs { s with info := update s.info c.i0 { s.info c.i0 with b := none } }
      (update K t (some (c, .freeing c.list))) := by
  have hmove : Reqs s (update K t (some (c, .freeing c.list))) := by
    refine h.move _ ht (by intros; contradiction) (fun l hg => ?_) (fun hd => ?_)
      (by intros; contradiction) (fun hg => ?_) (by intros; contradiction) (fun _ => ?_)
    · rw [← Stage.freeing.inj hg]
      exact (h.walk t c _ ht rfl).1
    · rw [h.late t c ht] at hd
      cases hd
    · rcases hg with hg | hg <;> cases hg
    · exact h.done_req t c _ ht (Or.inr (h.late t c ht))
  refine { hmove with
    walk := fun u c' k hu hk => ?_
    status := fun x hx => ?_ }
  · rcases update_stage hu with ⟨-, -, rfl⟩ | ⟨hut, hx⟩
    · cases hk
    · have hne : c'.i0 ≠ c.i0 := by
        intro he
        refine hut (hD.apart u t c.i0 ?_ (mem_list hF ht rfl).1)
        rw [← he]
        exact (mem_list hF hx hk).1
      simp only [update_of_ne hne]
      exact h.walk u c' k hx hk
  · by_cases hx0 : x.1 = c.i0
    · simp only [hx0, update_self]
      rw [← hx0]
      exact h.status x hx
    · simp only [update_of_ne hx0]
      exact h.status x hx

omit h [DecidableEq T] in
theorem zero (h : Reqs s K) (hF : Fits H W K) {i : Nat} (hi : ∀ u, i ∉ H u) :
    Reqs { s with desc := update s.desc i .zero } K :=
  h.frame hF (fun u _ _ _ j hj => update_of_ne (fun he : j = i => hi u (he ▸ hj)) _ _)
    (fun _ _ _ _ _ => rfl) (fun _ _ _ _ => rfl)

/-- The chain is freed as far as the descriptors in `l`. -/
theorem rested {l : List Nat} (ht : K t = some (c, .freeing l)) (g' : Stage)
    (hg' : g' = .finished ∨ ∃ l', g' = .freeing l' ∧ Walk s.desc l') :
    Reqs s (update K t (some (c, g'))) := by
  have hdead : g'.live = false ∧ g' ≠ .posted ∧ g' ≠ .ringed ∧ g' ≠ .filled ∧ g' ≠ .answered := by
    rcases hg' with rfl | ⟨l', rfl, -⟩
    · decide
    · refine ⟨rfl, ?_, ?_, ?_, ?_⟩ <;> rintro ⟨⟩
  refine h.move g' ht (fun hg => ?_) (fun l' hg => ?_) (fun _ => ?_) (fun hg =>
    absurd hg hdead.2.2.1) (fun hg => ?_) (fun hg => absurd hg hdead.2.2.2.2) (fun _ => ?_)
  · rw [hdead.1] at hg
    cases hg
  · rcases hg' with hf | ⟨l'', hl, hw⟩
    · cases hf.symm.trans hg
    · rw [hl] at hg
      rw [← Stage.freeing.inj hg]
      exact hw
  · exact ⟨(by intros; contradiction), fun hg => absurd hg hdead.2.1⟩
  · rcases hg with hg | hg
    · exact absurd hg hdead.2.2.2.1
    · exact absurd hg hdead.2.2.1
  · exact h.done_req t c _ ht (Or.inl rfl)

theorem unlock (ht : K t = some (c, .finished)) :
    Reqs { s with returned := s.returned ++ [c.req] } (update K t none) := by
  have hold : ∀ {u : T} {x : Chain B × Stage}, update K t none u = some x → K u = some x :=
    fun hu => (of_update_none hu).2
  refine { h with
    walk := fun u c' k hu => h.walk u c' k (hold hu)
    rest := fun u c' l hu => h.rest u c' l (hold hu)
    tokens := fun x => (h.tokens x).trans ⟨?_, ?_⟩
    slot := fun u c' hu => h.slot u c' (hold hu)
    early := fun u c' k hu => h.early u c' k (hold hu)
    late := fun u c' hu => h.late u c' (hold hu)
    number := fun u c' k hu => h.number u c' k (hold hu)
    numbers := fun u v c₁ c₂ k₁ k₂ hu hv => h.numbers u v c₁ c₂ k₁ k₂ (hold hu) (hold hv)
    open_req := fun u c' k hu => h.open_req u c' k (hold hu)
    done_req := fun u c' k hu => h.done_req u c' k (hold hu)
    returned := fun r hr => ?_ }
  · rintro ⟨u, c', hu, hrest⟩
    refine ⟨u, c', ?_, hrest⟩
    rw [update_of_ne (fun hut : u = t => nomatch (req_unique ht hu hut).2)]
    exact hu
  · rintro ⟨u, c', hu, hrest⟩
    exact ⟨u, c', hold hu, hrest⟩
  · rcases mem_append.mp hr with hr | hr
    · exact h.returned r hr
    · rw [mem_singleton.mp hr]
      exact h.done_req t c _ ht (Or.inl rfl)

end Process

/-- The handler finds the request of a process, with status 0 and its buffer. -/
theorem front (h : Reqs s K) (hne : s.usedIdx ≠ s.usedDev) :
    ∃ u c, K u = some (c, .posted) ∧ s.disk c.b = true ∧
      s.used (Ring.slot NUM s.usedIdx) = (c.i0, c.req) ∧
      (s.info c.i0).status = 0 ∧ (s.info c.i0).b = some c.b := by
  have hpop := Ring.contents_pop s.used hne
  have hm : s.used (Ring.slot NUM s.usedIdx) ∈ s.unseen := by
    rw [System.unseen, hpop]
    exact mem_cons_self
  rcases (h.tokens _).mp (unseen_mem hm) with ⟨u, c, hu, hd, hx⟩
  refine ⟨u, c, hu, hd, hx, ?_, (h.walk u c _ hu rfl).2.2⟩
  have hstatus := h.status _ hm
  rwa [hx] at hstatus

theorem intr [DecidableEq B] (h : Reqs s K) (hF : Fits H W K) (hD : Descs free H) (hB : Bufs held W)
    (hne : s.usedIdx ≠ s.usedDev) {u : T} (hu : K u = some (c, .posted))
    (hx : s.used (Ring.slot NUM s.usedIdx) = (c.i0, c.req)) :
    Reqs { s with
      disk := update s.disk c.b false
      usedIdx := s.usedIdx + 1
      cleared := s.cleared ++ [c.req] } K := by
  have hpop := Ring.contents_pop s.used hne
  rw [hx] at hpop
  have hpend : List.Perm s.pending ((c.i0, c.req) ::
      (Ring.contents s.avail s.lastAvail s.availIdx ++ s.fetched ++
        Ring.contents s.used (s.usedIdx + 1) s.usedDev)) := by
    rw [System.pending, System.unseen, hpop]
    exact perm_middle
  have hnd := (hpend.map Prod.fst).nodup_iff.mp h.heads
  rw [map_cons, nodup_cons] at hnd
  -- The flag of another request is not touched.
  have hdisk : ∀ {v : T} {c' : Chain B} {k : Stage}, K v = some (c', k) → v ≠ u →
      update s.disk c.b false c'.b = s.disk c'.b := by
    intro v c' k hv hvu
    refine update_of_ne (fun he => hvu ?_) _ _
    exact hB.alone v u c.b (he ▸ hF.buf v c' k hv) (hF.buf u c _ hu)
  have hdown : ∀ {v : T} {c' : Chain B} {k : Stage}, K v = some (c', k) →
      update s.disk c.b false c'.b = true → v ≠ u := by
    intro v c' k hv hd hvu
    rw [(req_unique hu hv hvu).1, update_self] at hd
    cases hd
  have hreq : c.req ∉ s.cleared ∧ s.completed = (s.cleared ++ [c.req]) ++
      (Ring.contents s.used (s.usedIdx + 1) s.usedDev).map Prod.snd := by
    have hrec := h.record
    rw [System.unseen, hpop, map_cons] at hrec
    have honce := h.once
    rw [hrec] at honce
    refine ⟨fun hm => ?_, by rw [hrec, append_assoc]; rfl⟩
    exact (nodup_append.mp honce).2.2 c.req hm c.req mem_cons_self rfl
  refine { h with
    heads := hnd.2
    tokens := fun x => ⟨fun hm => ?_, ?_⟩
    status := fun x hm => ?_
    early := fun v c' k hv hk => ?_
    late := fun v c' hv => ?_
    record := hreq.2
    open_req := fun v c' k hv hk hd => ?_
    done_req := fun v c' k hv hk => ?_
    returned := fun r hr => mem_append_left _ (h.returned r hr) }
  · have hm' : x ∈ s.pending := hpend.mem_iff.mpr (mem_cons_of_mem _ hm)
    rcases (h.tokens x).mp hm' with ⟨v, c', hv, hd, rfl⟩
    have hvu : v ≠ u := by
      intro hvu
      refine hnd.1 (mem_map.mpr ⟨_, hm, ?_⟩)
      rw [(req_unique hu hv hvu).1]
    exact ⟨v, c', hv, (hdisk hv hvu).trans hd, rfl⟩
  · rintro ⟨v, c', hv, hd, rfl⟩
    have hvu := hdown hv hd
    simp only [hdisk hv hvu] at hd
    have hm := hpend.mem_iff.mp ((h.tokens _).mpr ⟨v, c', hv, hd, rfl⟩)
    refine (mem_cons.mp hm).resolve_left (fun he => hvu ?_)
    refine hD.apart v u c'.i0 (mem_list hF hv rfl).1 ?_
    rw [(Prod.mk.inj he).1]
    exact (mem_list hF hu rfl).1
  · refine h.status x ?_
    rw [System.unseen, hpop]
    exact mem_cons_of_mem _ hm
  · have hvu : v ≠ u := by
      intro hvu
      rw [(req_unique hu hv hvu).2] at hk
      rcases hk with hk | hk <;> cases hk
    exact (hdisk hv hvu).trans (h.early v c' k hv hk)
  · by_cases hb : c'.b = c.b
    · simp only [hb, update_self]
    · simp only [update_of_ne hb]
      exact h.late v c' hv
  · have hvu := hdown hv hd
    simp only [hdisk hv hvu] at hd
    rw [mem_append, mem_singleton, not_or]
    exact ⟨h.open_req v c' k hv hk hd, fun he => hvu (h.numbers v u c' c _ _ hv hu he)⟩
  · by_cases hvu : v = u
    · rw [(req_unique hu hv hvu).1]
      exact mem_append_right _ (mem_singleton.mpr rfl)
    · simp only [hdisk hv hvu] at hk
      exact mem_append_left _ (h.done_req v c' k hv hk)

end Reqs

end Xv6.Virtio
