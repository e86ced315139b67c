import Mathlib.Algebra.Order.Group.Multiset
import NeptunOS.Heap.Realloc

/-!
# Runs of the heap

Any sequence of heap calls that return, interleaved with client writes, keeps
the representation. `Books` is the invariant of every run, for all sizes and
pointers: the list is sound and the counters hold the used bytes plus whatever
failed `alloc_aligned` calls have added.
-/

namespace NeptunOS.Heap

open Stepwise Stepwise.Prog Linked BlockList Function

/-- The heap's interface. -/
inductive Call where
  | alloc (n : ℕ)
  | allocAligned (n a : ℕ)
  | tryRealloc (ptr n : ℕ)
  | realloc (ptr n : ℕ)
  | free (p : ℕ)
deriving DecidableEq, Repr

/-- What happens to a heap: calls, and stores of its clients. -/
inductive Event where
  | call (c : Call)
  | write (addr : ℕ) (v : UInt8)
deriving DecidableEq, Repr

/-- A call with its result as a `u64`: a pointer, or `try_realloc`'s answer. -/
def Call.prog : Call → Op ℕ
  | .alloc n => Heap.alloc n
  | .allocAligned n a => Heap.allocAligned n a
  | .tryRealloc ptr n => do
    let r ← Heap.tryRealloc ptr n
    return r.toNat
  | .realloc ptr n => Heap.realloc ptr n
  | .free p => do
    Heap.free p
    return 0

/-- One event. -/
def step (m : MemoryMgr) : Event → Except Halt (ℕ × MemoryMgr)
  | .call c => c.prog.run m
  | .write addr v => .ok (0, { m with mem := update m.mem addr v })

/-- The arguments have the source's types. -/
def Call.Typed : Call → Prop
  | .alloc n => n < 2 ^ 64
  | .allocAligned n a => n < 2 ^ 64 ∧ a < 2 ^ 32
  | .tryRealloc ptr n => ptr < 2 ^ 64 ∧ n < 2 ^ 64
  | .realloc ptr n => ptr < 2 ^ 64 ∧ n < 2 ^ 64
  | .free p => p < 2 ^ 64

instance : (c : Call) → Decidable c.Typed
  | .alloc n => inferInstanceAs (Decidable (n < 2 ^ 64))
  | .allocAligned n a => inferInstanceAs (Decidable (n < 2 ^ 64 ∧ a < 2 ^ 32))
  | .tryRealloc ptr n => inferInstanceAs (Decidable (ptr < 2 ^ 64 ∧ n < 2 ^ 64))
  | .realloc ptr n => inferInstanceAs (Decidable (ptr < 2 ^ 64 ∧ n < 2 ^ 64))
  | .free p => inferInstanceAs (Decidable (p < 2 ^ 64))

/-- The list is well formed: it fills the heap, no two neighbours are free and
no free block is empty. -/
structure Sound (size : ℕ) (m : MemoryMgr) (bs : List Blk) : Prop where
  rep : Rep m bs
  base : m.heapBase < 2 ^ 64
  total : total bs = size
  coalesced : Coalesced bs
  freePos : ∀ b ∈ bs, b.free = true → 0 < b.len

/-- The list is sound and the counters add up; `lost` are the block lengths of
`alloc_aligned` calls that found no block. -/
structure Books (size : ℕ) (m : MemoryMgr) (bs : List Blk) (lost : List ℕ) : Prop
    extends Sound size m bs where
  used : m.usedmem = (usedTotal bs + lost.sum) % 2 ^ 64
  free : m.freemem = wsub size m.usedmem

/-! ## The start -/

theorem init_rep (heap size : ℕ) (buffer : ℕ → BitVec 64) (mem : Mem) :
    Rep (init heap size buffer mem) [⟨0, size, true⟩] := by
  refine ⟨⟨⟨⟨rfl, rfl, trivial⟩, rfl⟩, by simp [ids], ?_⟩, rfl, fun s => ?_⟩
  · rintro b hb
    obtain rfl := List.mem_singleton.mp hb
    exact ⟨rfl, rfl⟩
  · show s ∈ [0] ↔ s < 64 ∧ ((Bitmap.init buffer capacity false).put 0 true).bit s = true
    rw [Bitmap.bit_put, List.mem_singleton]
    constructor
    · rintro rfl
      exact ⟨by decide, rfl⟩
    · rintro ⟨hs, hbit⟩
      by_contra hne
      rw [if_neg hne, Bitmap.init_bit buffer false (by exact hs)] at hbit
      cases hbit

theorem init_books {heap size : ℕ} (buffer : ℕ → BitVec 64) (mem : Mem)
    (hheap : heap < 2 ^ 64) (hsize : size < 2 ^ 64) (hpos : 0 < size) :
    Books size (init heap size buffer mem) [⟨0, size, true⟩] [] := by
  refine ⟨⟨init_rep heap size buffer mem, hheap, by simp, List.isChain_singleton _, ?_⟩, ?_, ?_⟩
  · intro b hb _
    obtain rfl := List.mem_singleton.mp hb
    exact hpos
  · rfl
  · show size = wsub size 0
    rw [wsub_of_le hsize (Nat.zero_le _), Nat.sub_zero]

/-! ## Steps keep the books -/

section

variable {size : ℕ} {m s : MemoryMgr} {bs bs' : List Blk} {lost : List ℕ}
variable {pre tail : List Blk} {off len : ℕ} {post : List Blk} {address : ℕ} {b n : Blk} {mem : Mem}

/-- A change of the list that keeps free blocks non-empty keeps it sound. -/
theorem Sound.change (h : Sound size m bs) (hr : Rep s bs')
    (hb : s.heapBase = m.heapBase) (hch : Change bs bs')
    (hpos : ∀ b ∈ bs', b.free = true → 0 < b.len) : Sound size s bs' :=
  ⟨hr, hb ▸ h.base, hch.total_eq.trans h.total, hch.coalesced h.coalesced, hpos⟩

/-- The memory and the lock do not matter. -/
theorem Sound.congr (h : Sound size m bs) (hr : Rep s bs)
    (hb : s.heapBase = m.heapBase) : Sound size s bs :=
  ⟨hr, hb ▸ h.base, h.total, h.coalesced, h.freePos⟩

theorem Books.congr (h : Books size m bs lost) (hr : Rep s bs)
    (hb : s.heapBase = m.heapBase) (hu : s.usedmem = m.usedmem)
    (hf : s.freemem = m.freemem) : Books size s bs lost :=
  ⟨h.toSound.congr hr hb, hu ▸ h.used, by rw [hf, hu, h.free]⟩

theorem spare_pos (ht : Spare tail) : ∀ b ∈ tail, 0 < b.len := by
  rcases ht with rfl | ⟨t, rfl, _, hpos⟩
  · simp
  · intro b hb
    obtain rfl := List.mem_singleton.mp hb
    exact hpos

theorem Cut.change (h : Cut len bs off bs') : Change bs bs' := by
  cases h with
  | mk hc hl ht _ hlen => exact Change.take hc rfl hl ht hlen

theorem Cut.freePos (h : Cut len bs off bs') (hpos : ∀ b ∈ bs, b.free = true → 0 < b.len) :
    ∀ b ∈ bs', b.free = true → 0 < b.len := by
  cases h with
  | mk hc hl ht _ hlen =>
    intro b hb hfree
    simp only [List.mem_append, List.mem_cons] at hb
    rcases hb with hb | hb | rfl | hb | hb
    · exact hpos b (by simp [hb]) hfree
    · exact spare_pos hl b hb
    · cases hfree
    · exact spare_pos ht b hb
    · exact hpos b (by simp [hb]) hfree

theorem Cut.usedTotal_eq (h : Cut len bs off bs') : usedTotal bs' = usedTotal bs + len := by
  cases h with
  | mk hc hl ht _ hlen => exact usedTotal_take hc rfl hl ht hlen

theorem Sound.cut (h : Sound size m bs) (hcut : Cut len bs off bs')
    (hd : AllocDone m len address bs' s) : Sound size s bs' :=
  h.change hd.rep hd.heapBase hcut.change (hcut.freePos h.freePos)

theorem Books.cut (h : Books size m bs lost) (hcut : Cut len bs off bs')
    (hd : AllocDone m len address bs' s) (hlen : len < 2 ^ 64) : Books size s bs' lost := by
  refine ⟨h.toSound.cut hcut hd, ?_, ?_⟩
  · rw [hd.usedmem, h.used, hcut.usedTotal_eq]
    unfold wadd
    omega
  · have hu := h.used
    rw [hd.freemem, hd.usedmem, h.free]
    unfold wadd wsub
    omega

theorem Books.miss (h : Books size m bs lost) (hd : AllocDone m len address bs s)
    (hlen : len < 2 ^ 64) : Books size s bs (len :: lost) := by
  refine ⟨h.toSound.congr hd.rep hd.heapBase, ?_, ?_⟩
  · rw [hd.usedmem, h.used, List.sum_cons]
    unfold wadd
    omega
  · have hu := h.used
    rw [hd.freemem, hd.usedmem, h.free]
    unfold wadd wsub
    omega

/-- Only a used block can have a free block behind it. -/
theorem Coalesced.used_before (h : Coalesced (pre ++ b :: n :: post)) (hn : n.free = true) :
    b.free = false := by
  have := h.split.2.2.2 n (by simp)
  simpa [hn] using this

theorem Sound.grown (h : Sound size m (pre ++ b :: n :: post))
    (hg : Grown m pre b n tail post len mem s) :
    Sound size s (pre ++ { b with len := len } :: (tail ++ post)) := by
  have hb := Coalesced.used_before h.coalesced hg.free
  have hsum := hg.len
  have hlt := hg.lt
  have hlen' : b.len + (len - b.len) = len := by omega
  have hch : Change (pre ++ b :: n :: post)
      (pre ++ { b with len := len } :: (tail ++ post)) := by
    have := @Change.grow ℕ pre post tail b n (len - b.len) hb hg.free hg.spare
      (by omega)
    rwa [hlen'] at this
  apply h.change hg.rep hg.heapBase hch
  intro x hx hfree
  simp only [List.mem_append, List.mem_cons] at hx
  rcases hx with hx | rfl | hx | hx
  · exact h.freePos x (by simp [hx]) hfree
  · exact absurd hfree (by simp [hb])
  · exact spare_pos hg.spare x hx
  · exact h.freePos x (by simp [hx]) hfree

theorem Books.grown (h : Books size m (pre ++ b :: n :: post) lost)
    (hg : Grown m pre b n tail post len mem s) (hlen : len < 2 ^ 64) :
    Books size s (pre ++ { b with len := len } :: (tail ++ post)) lost := by
  have hb := Coalesced.used_before h.coalesced hg.free
  have hsum := hg.len
  have hlt := hg.lt
  refine ⟨h.toSound.grown hg, ?_, ?_⟩
  · have hu := @usedTotal_grow ℕ len pre post tail b n hb hg.free hg.spare hsum
    rw [hg.usedmem, h.used]
    unfold wadd
    omega
  · have hu := h.used
    rw [hg.freemem, hg.usedmem, h.free]
    unfold wadd wsub
    omega

theorem Sound.release (h : Sound size m (pre ++ b :: post)) (hused : b.free = false)
    (hlen : 0 < b.len) (hd : FreeDone m pre b post s) :
    Sound size s (release pre { b with free := true } post) := by
  apply h.change hd.rep hd.heapBase (Change.release hused)
  intro x hx hfree
  rcases mem_release hx with hx | hx | ⟨hle, _⟩
  · exact h.freePos x (by simp [hx]) hfree
  · exact h.freePos x (by simp [hx]) hfree
  · exact Nat.lt_of_lt_of_le hlen hle

theorem Books.release (h : Books size m (pre ++ b :: post) lost) (hused : b.free = false)
    (hlen : 0 < b.len) (hsize : size < 2 ^ 64) (hd : FreeDone m pre b post s) :
    Books size s (release pre { b with free := true } post) lost := by
  have htot := h.total
  simp only [total_append, total_cons] at htot
  refine ⟨h.toSound.release hused hlen hd, ?_, ?_⟩
  · rw [hd.usedmem, h.used, usedTotal_release hused]
    unfold wsub
    omega
  · have hu := h.used
    rw [hd.freemem, hd.usedmem, h.free]
    unfold wadd wsub
    omega

end

/-! ## Pointers in circulation -/

/-- The pointers of the used blocks. -/
def ptrs (base : ℕ) (bs : List Blk) : Multiset ℕ :=
  ((usedAt 0 bs).map fun e => wadd base (e.1 + redzoneSize) : List ℕ)

/-- A pointer as a thing to be freed: null is none. -/
def handle (p : ℕ) : Multiset ℕ := if p = 0 then 0 else {p}

/-- What a failed `alloc_aligned` returns. -/
def strayPtr (base size : ℕ) : ℕ := wadd base (size + redzoneSize)

section

variable {size base : ℕ} {m s : MemoryMgr} {bs bs' : List Blk} {lost : List ℕ}
variable {k : ℕ} {lost' : List ℕ} {n : ℕ} {pre : List Blk} {off len : ℕ} {tail post : List Blk}
  {fair : Prop} {b : Blk}

theorem handle_of_ne {p : ℕ} (h : p ≠ 0) : handle p = {p} := if_neg h

/-- One more used extent is one more pointer. -/
theorem ptrs_of_perm (h : (usedAt 0 bs').Perm ((0 + off, len) :: usedAt 0 bs)) :
    ptrs base bs' = ptrs base bs + {wadd base (off + redzoneSize)} := by
  have hmap := h.map fun e => wadd base (e.1 + redzoneSize)
  rw [List.map_cons, Nat.zero_add] at hmap
  unfold ptrs
  rw [Multiset.coe_eq_coe.mpr hmap, ← Multiset.cons_coe, ← Multiset.singleton_add]
  exact add_comm _ _

theorem Cut.ptrs_eq (h : Cut len bs off bs') :
    ptrs base bs' = ptrs base bs + {wadd base (off + redzoneSize)} := by
  cases h with
  | mk hc hl ht _ hlen => exact ptrs_of_perm (usedAt_take hc rfl hl ht hlen)

theorem Cut.off_le (h : Cut len bs off bs') : off ≤ total bs := by
  cases h with
  | mk hc hl ht _ hlen =>
    simp only [total_append, total_cons]
    omega

theorem ptrs_grow {n : Blk} (hb : b.free = false) (hn : n.free = true) (ht : Spare tail)
    (hlen : len + total tail = b.len + n.len) :
    ptrs base (pre ++ { b with len := len } :: (tail ++ post)) =
      ptrs base (pre ++ b :: n :: post) := by
  obtain ⟨h1, h2⟩ := @usedAt_grow ℕ 0 len pre post tail b n hb hn ht hlen
  unfold ptrs
  rw [h1, h2]
  simp only [List.map_append, List.map_cons]

theorem ptrs_release (hb : b.free = false) :
    ptrs base (pre ++ b :: post) =
      ptrs base (release pre { b with free := true } post) +
        {wadd base (total pre + redzoneSize)} :=
  ptrs_of_perm (usedAt_release_perm hb)

/-- A heap that ends 64 bytes below the top of the address space hands out no
null pointer. -/
theorem ptr_ne_zero (hroom : base + size + redzoneSize < 2 ^ 64) (hoff : off ≤ size) :
    wadd base (off + redzoneSize) ≠ 0 := by
  unfold redzoneSize at *
  rw [wadd_of_lt (by omega)]
  omega

/-- Every length is a positive multiple of 16. -/
def Tight (bs : List Blk) : Prop := ∀ b ∈ bs, 0 < b.len ∧ 16 ∣ b.len

theorem blockSize_dvd (n : ℕ) : 16 ∣ blockSize n := by
  have h : 16 ∣ align n minAlloc := align_dvd n 16
  unfold blockSize wadd redzoneSize
  omega

theorem blockSize_pos (hn : n < 2 ^ 63) : 0 < blockSize n := by
  have h := @le_align n minAlloc (by decide) (by unfold minAlloc; omega)
  unfold blockSize redzoneSize
  unfold minAlloc at *
  rw [wadd_of_lt (by omega)]
  omega

/-- Every length is a multiple of 16 and at least `k`. -/
def Granular (k : ℕ) (bs : List Blk) : Prop := ∀ b ∈ bs, k ≤ b.len ∧ 16 ∣ b.len

theorem le_blockSize (hk : k ≤ 1) (hn : k = 1 → 0 < blockSize n) : k ≤ blockSize n := by
  rcases Nat.le_one_iff_eq_zero_or_eq_one.mp hk with rfl | rfl
  · exact Nat.zero_le _
  · exact hn rfl

theorem spare_granular (hk : k ≤ 1) (ht : Spare tail) (h16 : 16 ∣ total tail) :
    Granular k tail := by
  rcases ht with rfl | ⟨t, rfl, _, hpos⟩
  · simp [Granular]
  · intro b hb
    obtain rfl := List.mem_singleton.mp hb
    exact ⟨hk.trans hpos, by simpa using h16⟩

theorem granular_append {xs ys : List Blk} :
    Granular k (xs ++ ys) ↔ Granular k xs ∧ Granular k ys := List.forall_mem_append

theorem granular_cons {bs : List Blk} :
    Granular k (b :: bs) ↔ (k ≤ b.len ∧ 16 ∣ b.len) ∧ Granular k bs := List.forall_mem_cons

theorem Cut.granular (h : Cut (blockSize n) bs off bs') (hk : k ≤ 1) (hn : k = 1 → 0 < blockSize n)
    (ht : Granular k bs) : Granular k bs' := by
  have h16 := blockSize_dvd n
  cases h with
  | mk hc hl hs hal hlen =>
    rw [granular_append, granular_cons] at ht
    simp only [granular_append, granular_cons]
    exact ⟨ht.1, spare_granular hk hl hal, ⟨le_blockSize hk hn, h16⟩,
      spare_granular hk hs (by omega), ht.2.2⟩

theorem granular_grow {j : ℕ} {n : Blk} (hk : k ≤ 1) (hj : k = 1 → 0 < blockSize j)
    (hs : Spare tail) (hlen : blockSize j + total tail = b.len + n.len)
    (ht : Granular k (pre ++ b :: n :: post)) :
    Granular k (pre ++ { b with len := blockSize j } :: (tail ++ post)) := by
  have h16 := blockSize_dvd j
  simp only [granular_append, granular_cons] at ht ⊢
  have h1 := ht.2.1.2
  exact ⟨ht.1, ⟨le_blockSize hk hj, h16⟩, spare_granular hk hs (by omega), ht.2.2.2⟩

theorem granular_release (ht : Granular k (pre ++ b :: post)) :
    Granular k (release pre { b with free := true } post) := by
  simp only [granular_append, granular_cons] at ht
  obtain ⟨hpre, hb, hpost⟩ := ht
  have habs : 16 ∣ (absorb { b with free := true } post).len := by
    cases post with
    | nil => exact hb.2
    | cons n post =>
      rw [absorb_cons]
      split
      · exact Nat.dvd_add hb.2 (granular_cons.mp hpost).1.2
      · exact hb.2
  intro x hx
  rcases mem_release hx with hx | hx | ⟨hle, y, rfl, rfl | ⟨q, hq, _, rfl⟩⟩
  · exact hpre x hx
  · exact hpost x hx
  · exact ⟨hb.1.trans hle, habs⟩
  · exact ⟨hb.1.trans hle, Nat.dvd_add (hpre q hq).2 habs⟩

/-! ## What every call keeps -/

/-- From the blocks `bs` with losses `lost` to `bs'` with `lost'`: the books
stay in order; if the call is `fair`, pointers `got` came into circulation and
pointers `gone` left it; lengths stay multiples of 16 and, if the sizes of the
call are `solid`, positive. -/
structure Kept (size : ℕ) (m : MemoryMgr) (bs : List Blk) (lost : List ℕ)
    (fair solid : Prop) (got gone : Multiset ℕ) (s : MemoryMgr) (bs' : List Blk)
    (lost' : List ℕ) : Prop where
  books : Books size s bs' lost'
  heapBase : s.heapBase = m.heapBase
  ledger : fair → m.heapBase + size + redzoneSize < 2 ^ 64 →
    ptrs m.heapBase bs' +
        Multiset.replicate lost'.length (strayPtr m.heapBase size) + gone =
      ptrs m.heapBase bs +
        Multiset.replicate lost.length (strayPtr m.heapBase size) + got
  granular : ∀ k ≤ 1, (k = 1 → solid) → Granular k bs → Granular k bs'

theorem Kept.tight {solid : Prop} {got gone : Multiset ℕ}
    (h : Kept size m bs lost fair solid got gone s bs' lost') (hs : solid) (ht : Tight bs) :
    Tight bs' := h.granular 1 (Nat.le_refl 1) (fun _ => hs) ht

theorem Kept.trans {lost'' : List ℕ} {bs'' : List Blk} {t : MemoryMgr} {fair' solid solid' : Prop}
    {got gone got' gone' : Multiset ℕ} (h : Kept size m bs lost fair solid got gone s bs' lost')
    (h' : Kept size s bs' lost' fair' solid' got' gone' t bs'' lost'') :
    Kept size m bs lost (fair ∧ fair') (solid ∧ solid') (got + got')
      (gone + gone') t bs'' lost'' := by
  refine ⟨h'.books, h'.heapBase.trans h.heapBase, ?_, ?_⟩
  · rintro ⟨hf, hf'⟩ hroom
    have h1 := h.ledger hf hroom
    have h2 := h'.ledger hf' (by rw [h.heapBase]; exact hroom)
    rw [h.heapBase] at h2
    rw [add_comm gone, ← add_assoc, h2, add_right_comm, h1, add_assoc]
  · intro k hk hs ht
    exact h'.granular k hk (fun h1 => (hs h1).2) (h.granular k hk (fun h1 => (hs h1).1) ht)

section

variable (h : Books size m bs lost)

include h

/-- A change that touches only memory. -/
theorem Kept.of_mem (mem : Mem) (fair solid : Prop) :
    Kept size m bs lost fair solid 0 0 { m with mem := mem } bs lost :=
  ⟨h.congr (h.rep.congr rfl rfl rfl rfl rfl rfl) rfl rfl rfl, rfl, fun _ _ => rfl,
    fun _ _ _ ht => ht⟩

theorem AllocPost.kept {n p : ℕ} (hp : AllocPost m bs n p s) :
    ∃ bs', Kept size m bs lost True (0 < blockSize n) (handle p) 0 s bs' lost := by
  rcases hp with ⟨_, rfl, rfl⟩ | ⟨_, off, bs', hcut, hd, rfl⟩
  · exact ⟨bs, Kept.of_mem h s.mem _ _⟩
  · refine ⟨bs', h.cut hcut hd (blockSize_lt n), hd.heapBase, fun _ hroom => ?_,
      fun _ => hcut.granular⟩
    rw [handle_of_ne (ptr_ne_zero hroom (h.total ▸ hcut.off_le)), hcut.ptrs_eq,
      add_zero, add_right_comm]

theorem AlignedPost.kept {n a p : ℕ} (hp : AlignedPost m bs n a p s) :
    ∃ bs' lost', Kept size m bs lost True (0 < blockSize n) (handle p) 0 s bs' lost' ∧
      (alignedFound m n a = true → lost' = lost) := by
  rcases hp with ⟨off, bs', hcut, hd, rfl⟩ | ⟨hmiss, hd, rfl⟩
  · refine ⟨bs', lost, ⟨h.cut hcut hd (blockSize_lt n), hd.heapBase,
      fun _ hroom => ?_, fun _ => hcut.granular⟩, fun _ => rfl⟩
    rw [handle_of_ne (ptr_ne_zero hroom (h.total ▸ hcut.off_le)), hcut.ptrs_eq,
      add_zero, add_right_comm]
  · refine ⟨bs, _, ⟨h.miss hd (blockSize_lt n), hd.heapBase, fun _ hroom => ?_,
      fun _ _ _ ht => ht⟩, fun hf => by rw [hmiss] at hf; cases hf⟩
    rw [h.total, handle_of_ne (ptr_ne_zero hroom (Nat.le_refl size)),
      List.length_cons, Multiset.replicate_succ, ← Multiset.singleton_add, strayPtr,
      add_zero, add_assoc, add_comm (Multiset.replicate _ _)]

theorem TryPost.kept {ptr n : ℕ} {r : Bool} (hp : TryPost m bs ptr n r s) :
    ∃ bs', Kept size m bs lost (ptr ≠ 0) (0 < blockSize n) 0 0 s bs' lost := by
  rcases hp with ⟨h0, p, hp, _⟩ | ⟨_, _, pre, b, post, hat, hres⟩
  · obtain ⟨bs', hk⟩ := hp.kept h
    exact ⟨bs', hk.books, hk.heapBase, fun hne => absurd h0 hne, hk.granular⟩
  · obtain rfl := hat.split
    rcases hres with ⟨_, _, rfl⟩ | ⟨_, _, rfl⟩ | ⟨_, k, tail, post', rfl, hg⟩
    · exact ⟨_, Kept.of_mem h s.mem _ _⟩
    · exact ⟨_, Kept.of_mem h _ _ _⟩
    · refine ⟨_, h.grown hg (blockSize_lt n), hg.heapBase, fun _ _ => ?_,
        fun _ hk hn => granular_grow hk hn hg.spare hg.len⟩
      rw [ptrs_grow (Coalesced.used_before h.coalesced hg.free) hg.free hg.spare hg.len]

theorem FreePost.kept {p : ℕ} (hsize : size < 2 ^ 64) (hp64 : p < 2 ^ 64) (hp : FreePost m bs p s) :
    ∃ bs', Kept size m bs lost True True 0 (handle p) s bs' lost := by
  rcases hp with ⟨rfl, rfl⟩ | ⟨hne, pre, b, post, hat, hused, hlen, _, hd⟩
  · exact ⟨bs, Kept.of_mem h s.mem _ _⟩
  · obtain rfl := hat.split
    refine ⟨_, h.release hused (by omega) hsize hd, hd.heapBase, fun _ _ => ?_,
      fun _ _ _ => granular_release⟩
    have hptr : p = wadd m.heapBase (total pre + redzoneSize) := by
      rw [← wadd_assoc, ← hat.addr, wsub_wadd_cancel hp64 (by decide)]
    rw [handle_of_ne hne, ptrs_release hused, hptr, add_zero, add_right_comm]

end

/-- Boundary assertion of a specification that is only about results. -/
abbrev anywhere : ℕ → MemoryMgr → Prop := fun _ _ => True

section

variable (h : Books size m bs lost)

include h

section

variable (hsize : size < 2 ^ 64)

include hsize

theorem alloc_kept (n : ℕ) : (alloc n).Spec m anywhere fun p s =>
      ∃ bs', Kept size m bs lost True (0 < blockSize n) (handle p) 0 s bs' lost :=
  (alloc_spec (fun _ _ _ => trivial) (fun _ _ _ => trivial) h.rep
    (h.total ▸ hsize) h.base n fun _ _ _ _ => trivial).mono (fun _ _ hb => hb)
    fun _ _ hp => hp.kept h

theorem allocAligned_kept (n a : ℕ) : (allocAligned n a).Spec m anywhere fun p s => ∃ bs' lost',
      Kept size m bs lost True (0 < blockSize n) (handle p) 0 s bs' lost' ∧
        (alignedFound m n a = true → lost' = lost) :=
  (allocAligned_spec (fun _ _ _ => trivial) (fun _ _ _ => trivial) h.rep
    (h.total ▸ hsize) h.base n a (fun _ _ _ _ => trivial)
    fun _ _ _ => trivial).mono (fun _ _ hb => hb) fun _ _ hp => hp.kept h

theorem tryRealloc_kept (ptr n : ℕ) : (tryRealloc ptr n).Spec m anywhere fun _ s =>
      ∃ bs', Kept size m bs lost (ptr ≠ 0) (0 < blockSize n) 0 0 s bs' lost :=
  (tryRealloc_spec (fun _ _ _ => trivial) (fun _ _ _ => trivial) h.rep
    (h.total ▸ hsize) h.base ptr n fun _ _ _ _ => trivial).mono (fun _ _ hb => hb)
    fun _ _ hp => hp.kept h

theorem free_kept {p : ℕ} (hp64 : p < 2 ^ 64) : (free p).Spec m anywhere fun _ s =>
      ∃ bs', Kept size m bs lost True True 0 (handle p) s bs' lost :=
  (free_spec (fun _ _ _ => trivial) (fun _ _ _ => trivial) h.rep
    (h.total ▸ hsize) h.base p).mono (fun _ _ hb => hb)
    fun _ _ hp => hp.kept h hsize hp64

/-- `realloc` either grows in place and returns its argument, or allocates,
copies and frees. -/
theorem realloc_kept {ptr : ℕ} (hp64 : ptr < 2 ^ 64) (n : ℕ) :
    (realloc ptr n).Spec m anywhere fun q s =>
      ∃ bs', Kept size m bs lost (ptr ≠ 0) (0 < blockSize n) (handle q) (handle ptr) s
        bs' lost := by
  unfold realloc
  apply Spec.bind (tryRealloc_kept h hsize ptr n)
  rintro r s ⟨bs', hk⟩
  cases r with
  | true =>
    refine Spec.pure ⟨bs', hk.books, hk.heapBase, fun hne hroom => ?_, hk.granular⟩
    have := hk.ledger hne hroom
    rw [add_zero, add_zero] at this
    rw [this]
  | false =>
    apply Spec.bind (alloc_kept hk.books hsize n)
    rintro q s' ⟨bs'', hk'⟩
    apply Spec.read_bind
    apply Spec.lift_bind
    intro oldsize _
    apply Spec.stmt_bind trivial
    have hmem := Kept.of_mem hk'.books (memcpy s'.mem q ptr oldsize) True True
    apply Spec.bind (free_kept hmem.books hsize hp64)
    rintro _ t ⟨bs3, hk3⟩
    have hall := ((hk.trans hk').trans hmem).trans hk3
    refine Spec.pure ⟨bs3, hall.books, hall.heapBase, fun hne hroom => ?_,
      fun k hk hn => hall.granular k hk (by tauto)⟩
    simpa using hall.ledger (by tauto) hroom

end

end

/-! ## Calls and events -/

/-- Pointers a call brings into circulation. -/
def Call.got : Call → ℕ → Multiset ℕ
  | .alloc _, p => handle p
  | .allocAligned _ _, p => handle p
  | .tryRealloc _ _, _ => 0
  | .realloc _ _, q => handle q
  | .free _, _ => 0

/-- Pointers a call takes out of circulation. -/
def Call.gone : Call → Multiset ℕ
  | .alloc _ => 0
  | .allocAligned _ _ => 0
  | .tryRealloc _ _ => 0
  | .realloc ptr _ => handle ptr
  | .free p => handle p

/-- The pointer given to `try_realloc` or `realloc` is not null. -/
def Call.NonNull : Call → Prop
  | .tryRealloc ptr _ => ptr ≠ 0
  | .realloc ptr _ => ptr ≠ 0
  | _ => True

/-- The requested size is below `2^63`. -/
def Call.Small : Call → Prop
  | .alloc n => n < 2 ^ 63
  | .allocAligned n _ => n < 2 ^ 63
  | .tryRealloc _ n => n < 2 ^ 63
  | .realloc _ n => n < 2 ^ 63
  | .free _ => True

/-- The requested size does not wrap to a block of no bytes. -/
def Call.Solid : Call → Prop
  | .alloc n => 0 < blockSize n
  | .allocAligned n _ => 0 < blockSize n
  | .tryRealloc _ n => 0 < blockSize n
  | .realloc _ n => 0 < blockSize n
  | .free _ => True

theorem Call.Small.solid {c : Call} (h : c.Small) : c.Solid := by
  cases c with
  | alloc n => exact blockSize_pos h
  | allocAligned n a => exact blockSize_pos h
  | tryRealloc ptr n => exact blockSize_pos h
  | realloc ptr n => exact blockSize_pos h
  | free p => trivial

/-- An aligned request finds a block. -/
def Call.Found (m : MemoryMgr) : Call → Prop
  | .allocAligned n a => alignedFound m n a = true
  | _ => True

instance : (c : Call) → Decidable c.NonNull
  | .alloc _ | .allocAligned _ _ | .free _ => inferInstanceAs (Decidable True)
  | .tryRealloc ptr _ | .realloc ptr _ => inferInstanceAs (Decidable (ptr ≠ 0))

instance : (c : Call) → Decidable c.Small
  | .alloc n | .allocAligned n _ | .tryRealloc _ n | .realloc _ n =>
    inferInstanceAs (Decidable (n < 2 ^ 63))
  | .free _ => inferInstanceAs (Decidable True)

instance : (c : Call) → Decidable c.Solid
  | .alloc n | .allocAligned n _ | .tryRealloc _ n | .realloc _ n =>
    inferInstanceAs (Decidable (0 < blockSize n))
  | .free _ => inferInstanceAs (Decidable True)

instance (m : MemoryMgr) : (c : Call) → Decidable (c.Found m)
  | .alloc _ | .tryRealloc _ _ | .realloc _ _ | .free _ =>
    inferInstanceAs (Decidable True)
  | .allocAligned n a => inferInstanceAs (Decidable (alignedFound m n a = true))

/-- **Every call that returns keeps the books**, whatever its arguments. -/
theorem Call.kept (h : Books size m bs lost) (hsize : size < 2 ^ 64) (c : Call) (hc : c.Typed) :
    c.prog.Spec m anywhere fun r s => ∃ bs' lost',
      Kept size m bs lost c.NonNull c.Solid (c.got r) c.gone s bs' lost' ∧
        (c.Found m → lost' = lost) := by
  cases c with
  | alloc n =>
    apply (alloc_kept h hsize n).mono fun _ _ hb => hb
    rintro p s ⟨bs', hk⟩
    exact ⟨bs', lost, hk, fun _ => rfl⟩
  | allocAligned n a => exact allocAligned_kept h hsize n a
  | tryRealloc ptr n =>
    apply Spec.bind (tryRealloc_kept h hsize ptr n)
    rintro r s ⟨bs', hk⟩
    exact Spec.pure ⟨bs', lost, hk, fun _ => rfl⟩
  | realloc ptr n =>
    apply (realloc_kept h hsize hc.1 n).mono fun _ _ hb => hb
    rintro q s ⟨bs', hk⟩
    exact ⟨bs', lost, hk, fun _ => rfl⟩
  | free p =>
    apply Spec.bind (free_kept h hsize hc)
    rintro _ s ⟨bs', hk⟩
    exact Spec.pure ⟨bs', lost, hk, fun _ => rfl⟩

end

end NeptunOS.Heap
