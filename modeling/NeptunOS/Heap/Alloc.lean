import NeptunOS.Heap.Rep

/-!
# `alloc` and `alloc_aligned`

Both take the first free block that fits, cut it into a spare front (only
`alloc_aligned`), the new block and a spare rest, account for it and write the
two redzones. `Cut` is the effect on the block list, `AllocDone` the effect on
everything else.
-/

namespace NeptunOS.Heap

open Stepwise Stepwise.Prog Linked BlockList Function

/-- A block of `size` bytes is cut out of a free block and becomes used; it
starts at offset `off`. -/
inductive Cut (size : ℕ) : List Blk → ℕ → List Blk → Prop
  | mk {pre post lead tail : List Blk} {c : Blk} (hc : c.free = true)
      (hl : Spare lead) (ht : Spare tail) (hal : 16 ∣ total lead)
      (hlen : total lead + size + total tail = c.len) :
      Cut size (pre ++ c :: post) (total pre + total lead)
        (pre ++ (lead ++ ⟨c.id, size, false⟩ :: (tail ++ post)))

/-- Redzones written around a block of `size` bytes at `address`. -/
def dress (mem : Mem) (address size : ℕ) : Mem :=
  memset (memset mem address redzoneMagic redzoneSize)
    (wsub (wadd address size) redzoneSize) redzoneMagic redzoneSize

/-- The state `s` after an allocation from `m` that left the blocks `bs'`. -/
structure AllocDone (m : MemoryMgr) (size address : ℕ) (bs' : List Blk)
    (s : MemoryMgr) : Prop where
  rep : Rep s bs'
  heapBase : s.heapBase = m.heapBase
  usedmem : s.usedmem = wadd m.usedmem size
  freemem : s.freemem = wsub m.freemem size
  mem : s.mem = dress m.mem address size
  locked : s.locked = m.locked

section

variable {m : MemoryMgr} {bs pre post : List Blk} {c : Blk}
  {B : ℕ → MemoryMgr → Prop}
  (hW : ∀ line s, relinking line = true → B line s)

include hW

/-! ## Cutting a free block -/

section

variable (h : Rep m (pre ++ c :: post))

include h

theorem splitOff_spec (size rem : ℕ) : (splitOff c.id size rem).Spec m B fun _ s =>
      ∃ k, Rep s (pre ++ { c with len := size } :: ⟨k, rem, true⟩ :: post) ∧
        SameData m s := by
  unfold splitOff
  apply Spec.bind (createLink_spec h.toPool fun _ => hW _ _ rfl)
  rintro k _ ⟨hk, hpool, bm, rfl⟩
  apply Spec.stmt_bind (hW _ _ rfl)
  apply Spec.stmt_bind (hW _ _ rfl)
  apply Spec.stmt_bind (hW _ _ rfl)
  apply Spec.stmt_bind (hW _ _ rfl)
  apply Spec.stmt_bind (hW _ _ rfl)
  apply Spec.read_bind
  apply setPrevOf_bind fun _ => hW _ _ rfl
  refine Spec.stmt (hW _ _ rfl) ⟨k, ⟨?_, hpool.sz, ?_⟩, rfl, rfl, rfl, rfl, rfl⟩
  · have hck : c.id ≠ k := by
      rintro rfl
      exact hk (by simp)
    have hnk : m.next c.id ≠ some k := by
      rw [h.next_eq]
      intro hh
      exact hk (by simp [List.mem_of_mem_head? hh])
    apply h.toListRep.insertAfter hk <;> try rfl
    intro x
    by_cases hx : x = k
    · simp [hx, update_of_ne hck, hnk]
    · simp [hx, update_of_ne hck]
  · intro x
    rw [← hpool.bits x]
    simp only [ids_append, ids_cons, List.mem_append, List.mem_cons]
    tauto

theorem allocateIntoFree_spec (hlen : c.len < 2 ^ 64) (size : ℕ) :
    (allocateIntoFree (some c.id) size 0).Spec m B fun _ s =>
      c.free = true ∧ ∃ tail, Spare tail ∧ size + total tail = c.len ∧
        Rep s (pre ++ ⟨c.id, size, false⟩ :: (tail ++ post)) ∧ SameData m s := by
  unfold allocateIntoFree
  apply Spec.read_bind
  apply assert_bind
  intro hfree
  apply Spec.stmt_bind (hW _ _ rfl)
  apply assert_bind
  intro hsize
  apply assert_bind
  intro _
  rw [h.length_eq] at hsize ⊢
  rw [h.free_eq] at hfree
  have hrem : wsub (wsub c.len size) 0 = c.len - size := by
    rw [wsub_of_le hlen hsize, wsub_of_le (by omega) (Nat.zero_le _), Nat.sub_zero]
  rw [hrem]
  have hrep := h.setFree false
  apply Spec.when
  · intro hpos
    apply (splitOff_spec hW hrep size (c.len - size)).mono (fun _ _ hb => hb)
    rintro _ s ⟨k, hs, hdata⟩
    refine ⟨hfree, [⟨k, c.len - size, true⟩], ?_, ?_, hs,
      hdata.1, hdata.2, hdata.3, hdata.4, hdata.5⟩
    · exact .inr ⟨_, rfl, rfl, Nat.pos_of_ne_zero hpos⟩
    · simp only [total_cons, total_nil]
      omega
  · intro hzero
    have hsz : size = c.len := by omega
    refine ⟨hfree, [], .inl rfl, by simp [hsz], ?_, rfl, rfl, rfl, rfl, rfl⟩
    rw [hsz]
    exact hrep

theorem linkRemaining_spec (remaining : ℕ) : (linkRemaining c.id remaining).Spec m B fun _ s =>
      ∃ k, Rep s (pre ++ c :: ⟨k, remaining, true⟩ :: post) ∧ SameData m s := by
  unfold linkRemaining
  apply Spec.bind (createLink_spec h.toPool fun _ => hW _ _ rfl)
  rintro k _ ⟨hk, hpool, bm, rfl⟩
  apply Spec.stmt_bind (hW _ _ rfl)
  apply Spec.stmt_bind (hW _ _ rfl)
  apply assert_bind
  intro _
  apply Spec.read_bind
  apply setPrevOf_bind fun _ => hW _ _ rfl
  apply Spec.stmt_bind (hW _ _ rfl)
  apply Spec.stmt_bind (hW _ _ rfl)
  refine Spec.stmt (hW _ _ rfl) ⟨k, ⟨?_, hpool.sz, ?_⟩, rfl, rfl, rfl, rfl, rfl⟩
  · apply h.toListRep.insertAfter hk <;> try rfl
    · intro x
      by_cases hx : x = k <;> simp [hx]
    · show update m.length k remaining =
        update (update m.length c.id c.len) k remaining
      rw [← h.length_eq, update_eq_self]
  · intro x
    rw [← hpool.bits x]
    simp only [ids_append, ids_cons, List.mem_append, List.mem_cons]
    tauto

end

/-- Until line 228 the list is untouched, after line 243 it is cut. -/
theorem cutFront_spec (hV : ∀ line s, View m (pre ++ c :: post) s → B line s)
    (h : Rep m (pre ++ c :: post)) (hc : c.free = true) {fix : ℕ}
    (hpos : 0 < fix) (hfix : fix ≤ c.len) (hlen : c.len < 2 ^ 64)
    (hE : fix = c.len → ∀ s, B 243 s) :
    (cutFront c.id fix).Spec m B fun _ s =>
      16 ∣ fix ∧ ∃ k, Rep s (pre ++ ⟨k, fix, true⟩ ::
        { c with len := c.len - fix } :: post) ∧ SameData m s := by
  have hview : ∀ bm k fr len, k ∉ ids (pre ++ c :: post) →
      View m (pre ++ c :: post) { m with
        bm := bm, free := update m.free k fr, length := update m.length k len } := by
    intro bm k fr len hk
    apply View.of_chain rfl rfl
    apply h.chain.congr
    intro x hx
    have hxk : x ≠ k := by
      rintro rfl
      exact hk hx
    exact ⟨rfl, update_of_ne hxk .., update_of_ne hxk ..⟩
  unfold cutFront
  apply Spec.bind (createLink_spec h.toPool fun bm => hV _ _
    (View.of_chain rfl rfl (h.chain.congr fun _ _ => ⟨rfl, rfl, rfl⟩)))
  rintro k _ ⟨hk, hpool, bm, rfl⟩
  have hkc : c.id ≠ k := by
    rintro rfl
    exact hk (by simp)
  apply Spec.stmt_bind
  · refine hV _ _ ?_
    have := hview bm k true (m.length k) hk
    rwa [update_eq_self] at this
  apply Spec.stmt_bind (hV _ _ (hview bm k true fix hk))
  apply Spec.stmt_bind (hW _ _ rfl)
  apply assert_bind
  intro hal
  apply Spec.read_bind
  apply setNextOf_bind fun _ => hW _ _ rfl
  apply Spec.stmt_bind (hW _ _ rfl)
  apply Spec.stmt_bind (hW _ _ rfl)
  apply Spec.stmt_bind (hW _ _ rfl)
  -- both ends of the last conditional satisfy the edit
  have hrep : ∀ f, (f = if m.first = some c.id then some k else m.first) →
      Rep { m with
        first := f
        next := update (fun x => if m.prev c.id = some x then some k else m.next x) k (some c.id)
        prev := update (update m.prev k (m.prev c.id)) c.id (some k)
        length := update (update m.length k fix) c.id
          (wsub (update m.length k fix c.id) fix)
        free := update m.free k true
        bm := bm } (pre ++ ⟨k, fix, true⟩ :: { c with len := c.len - fix } :: post) := by
    intro f hf
    refine ⟨?_, hpool.sz, fun x => ?_⟩
    · apply h.toListRep.insertBefore hk
      · exact hf
      · intro x
        by_cases hx : x = k <;> simp [hx]
      · intro x
        by_cases hx : x = c.id <;> simp [hx, update_apply]
      · show update (update m.length k fix) c.id _ = _
        rw [update_of_ne hkc, h.length_eq, wsub_of_le hlen hfix]
      · rfl
    · rw [← hpool.bits x]
      simp only [ids_append, ids_cons, List.mem_append, List.mem_cons]
      tauto
  have h16 : 16 ∣ fix := Nat.dvd_of_mod_eq_zero (of_decide_eq_true hal)
  apply Spec.when
  · intro hfirst
    have hr := hrep (some k) (by rw [if_pos hfirst])
    refine Spec.stmt ?_ ⟨h16, k, hr, rfl, rfl, rfl, rfl, rfl⟩
    by_cases hall : fix = c.len
    · exact hE hall _
    refine hV _ _ ⟨rfl, rfl, _, hr.chain, ?_, ?_, ?_, ?_⟩
    · simp only [List.length_append, List.length_cons]
      omega
    · simp only [total_append, total_cons]
      omega
    · intro e he
      have hsum : 0 + total pre + fix + (c.len - fix) = 0 + total pre + c.len := by
        omega
      have hc' : ({ c with len := c.len - fix } : Blk).free = true := hc
      rw [usedAt_append, usedAt_cons_free rfl, usedAt_cons_free hc', hsum] at he
      rwa [usedAt_append, usedAt_cons_free hc]
    · intro hall b hb
      rw [List.mem_append, List.mem_cons, List.mem_cons] at hb
      rcases hb with hb | rfl | rfl | hb
      · exact hall b (by simp [hb])
      · exact hpos
      · show 0 < c.len - fix
        omega
      · exact hall b (by simp [hb])
  · intro hfirst
    exact ⟨h16, k, hrep m.first (by rw [if_neg hfirst]), rfl, rfl, rfl, rfl, rfl⟩

/-- `alignfixl`, `l` and `remainingl` share the bytes of the old block. -/
theorem carve_spec (hV : ∀ line s, View m (pre ++ c :: post) s → B line s)
    (h : Rep m (pre ++ c :: post)) (hc : c.free = true) {size fix : ℕ}
    (hpos : 0 < fix) (hsmall : fix < 2 ^ 63) (hlen : c.len < 2 ^ 64)
    (hsize : size ≤ c.len) (hfit : wadd size fix ≤ c.len)
    (hE : size = 0 → ∀ s, B 243 s) :
    (carve c.id size fix).Spec m B fun _ s =>
      16 ∣ fix ∧ c.len - fix - size < 2 ^ 63 ∧
      ∃ k tail, Spare tail ∧ fix + size + total tail = c.len ∧
        Rep s (pre ++ ⟨k, fix, true⟩ :: ⟨c.id, size, false⟩ :: (tail ++ post)) ∧
        SameData m s := by
  have hfix : fix ≤ c.len ∧ (fix = c.len → size = 0) := by
    unfold wadd at hfit
    omega
  unfold carve
  apply Spec.bind (cutFront_spec hW hV h hc hpos hfix.1 hlen fun hall =>
    hE (hfix.2 hall))
  rintro _ s ⟨h16, k, hs, hdata⟩
  have hs' : Rep s ((pre ++ [⟨k, fix, true⟩]) ++
      { c with len := c.len - fix } :: post) := by simpa using hs
  have hl : s.length c.id = c.len - fix := hs'.length_eq
  apply Spec.read_bind
  apply assert_bind
  intro hrem
  rw [hl] at hrem
  -- a request that does not fit behind the gap makes `remaining` negative
  have hroom : fix + size ≤ c.len := by
    unfold wsub at hrem
    omega
  have hr : wsub (c.len - fix) size = c.len - fix - size := wsub_of_le (by omega) (by omega)
  have hcut : wsub (s.length c.id) (c.len - fix - size) = size := by
    rw [hl, wsub_of_le (by omega) (by omega)]
    omega
  have hused := (hs'.setLength size).setFree false
  rw [← hcut] at hused
  rw [hl, hr]
  apply Spec.stmt_bind (hW _ _ rfl)
  apply Spec.stmt_bind (hW _ _ rfl)
  apply Spec.when
  · intro hne
    apply (linkRemaining_spec hW hused (c.len - fix - size)).mono fun _ _ hb => hb
    rintro _ t ⟨k', ht, htd⟩
    refine ⟨h16, hr ▸ hrem, k, [⟨k', c.len - fix - size, true⟩], ?_, ?_, ?_, ?_⟩
    · exact .inr ⟨_, rfl, rfl, Nat.pos_of_ne_zero hne⟩
    · simp only [total_cons, total_nil]
      omega
    · rw [hcut] at ht
      simpa using ht
    · exact hdata.trans ⟨htd.1, htd.2, htd.3, htd.4, htd.5⟩
  · intro hzero
    refine ⟨h16, hr ▸ hrem, k, [], .inl rfl, ?_, ?_, ?_⟩
    · simp only [total_nil]
      omega
    · simpa [hcut] using hused
    · exact hdata.trans ⟨rfl, rfl, rfl, rfl, rfl⟩

/-! ## The operations -/

omit hW in
theorem finishAlloc_spec {acct rz size address : ℕ} {bs' : List Blk}
    {s : MemoryMgr} (hs : Rep s bs') (hdata : SameData m s)
    (hacct : ∀ t, B acct t) (hacct' : ∀ t, B (acct + 1) t) (hrz : ∀ t, B rz t)
    (hD : ∀ t, AllocDone m size address bs' t → B (rz + 1) t) :
    (finishAlloc acct rz size address).Spec s B fun p t =>
      p = wadd address redzoneSize ∧ AllocDone m size address bs' t := by
  have hdone : AllocDone m size address bs' { s with
      usedmem := wadd s.usedmem size
      freemem := wsub s.freemem size
      mem := dress s.mem address size } := by
    refine ⟨hs.congr rfl rfl rfl rfl rfl rfl, hdata.heapBase, ?_, ?_, ?_, hdata.locked⟩
    · rw [← hdata.usedmem]
    · rw [← hdata.freemem]
    · rw [← hdata.mem]
  unfold finishAlloc
  apply Spec.stmt_bind (hacct _)
  apply Spec.stmt_bind (hacct' _)
  apply Spec.stmt_bind (hrz _)
  apply Spec.stmt_bind (hD _ hdone)
  exact Spec.pure ⟨rfl, hdone⟩

/-- What `alloc_nomutex(n)` does when it returns `p`. -/
def AllocPost (m : MemoryMgr) (bs : List Blk) (n p : ℕ) (s : MemoryMgr) : Prop :=
  (n = 0 ∧ p = 0 ∧ s = m) ∨
    (n ≠ 0 ∧ ∃ off bs', Cut (blockSize n) bs off bs' ∧
      AllocDone m (blockSize n) (wadd m.heapBase off) bs' s ∧
      p = wadd m.heapBase (off + redzoneSize))

/-- `alloc_nomutex` from where its walk has stopped at the block `c`. -/
theorem serve_spec (h : Rep m (pre ++ c :: post)) (hlen : c.len < 2 ^ 64) (size : ℕ)
    (hD : ∀ t tail, c.free = true → Spare tail → size + total tail = c.len →
      AllocDone m size (wadd m.heapBase (total pre))
        (pre ++ ⟨c.id, size, false⟩ :: (tail ++ post)) t → B 176 t) :
    Spec (allocateIntoFree (some c.id) size 0 >>= fun _ =>
        finishAlloc 170 175 size (wadd m.heapBase (total pre))) m B fun p t =>
      p = wadd m.heapBase (total pre + redzoneSize) ∧ c.free = true ∧
        ∃ tail, Spare tail ∧ size + total tail = c.len ∧
          AllocDone m size (wadd m.heapBase (total pre))
            (pre ++ ⟨c.id, size, false⟩ :: (tail ++ post)) t := by
  apply Spec.bind (allocateIntoFree_spec hW h hlen size)
  rintro _ s ⟨hc, tail, ht, hsum, hs, hdata⟩
  apply (finishAlloc_spec hs hdata (fun _ => hW _ _ rfl) (fun _ => hW _ _ rfl)
    (fun _ => hW _ _ rfl) fun t hd => hD t tail hc ht hsum hd).mono fun _ _ hb => hb
  rintro p t ⟨rfl, hdone⟩
  exact ⟨wadd_assoc .., hc, tail, ht, hsum, hdone⟩

theorem allocNomutex_spec (h : Rep m bs) (htot : total bs < 2 ^ 64)
    (hbase : m.heapBase < 2 ^ 64) (n : ℕ)
    (hD : ∀ line p s, AllocPost m bs n p s → B line s) :
    (allocNomutex n).Spec m B fun p s => AllocPost m bs n p s := by
  unfold allocNomutex
  by_cases hn : n = 0
  · rw [if_pos hn]
    exact Spec.pure (.inl ⟨hn, rfl, rfl⟩)
  rw [if_neg hn]
  apply Spec.read_bind
  apply Spec.lift_bind
  intro cur hscan
  rcases walk_inv h.chain hbase hscan with
    ⟨pre, c, post, rfl, _, hfit, rfl⟩ | ⟨_, rfl⟩
  · have hlen : c.len < 2 ^ 64 := by
      simp only [total_append, total_cons] at htot
      omega
    have hpost : ∀ t tail, c.free = true → Spare tail →
        blockSize n + total tail = c.len → AllocDone m (blockSize n)
          (wadd m.heapBase (total pre))
            (pre ++ ⟨c.id, blockSize n, false⟩ :: (tail ++ post)) t →
        AllocPost m (pre ++ c :: post) n (wadd m.heapBase (total pre + redzoneSize)) t := by
      intro t tail hc ht hsum hd
      have hsum' : total ([] : List Blk) + blockSize n + total tail = c.len := by
        simpa using hsum
      have hcut : Cut (blockSize n) (pre ++ c :: post) (total pre)
          (pre ++ ⟨c.id, blockSize n, false⟩ :: (tail ++ post)) := by
        simpa using Cut.mk hc (.inl rfl) ht (by simp) hsum'
      exact .inr ⟨hn, total pre, _, hcut, hd, rfl⟩
    apply (serve_spec hW h hlen (blockSize n) fun t tail hc ht hsum hd =>
      hD _ _ _ (hpost t tail hc ht hsum hd)).mono fun _ _ hb => hb
    rintro p t ⟨rfl, hc, tail, ht, hsum, hd⟩
    exact hpost t tail hc ht hsum hd
  · exact Spec.bind (P := fun _ _ => False) (Spec.fail _)
      fun _ _ hfalse => hfalse.elim

end

/-! ## Aligned requests -/

/-- Does the loop of `alloc_aligned(n, a)` find a block? -/
def alignedFound (m : MemoryMgr) (n a : ℕ) : Bool :=
  match scan m (alignedFit m (blockSize n) (roundAlign a)) with
  | .ok c => c.i.isSome
  | .error _ => false

/-- The gap before an aligned block is smaller than the alignment, also where
the address sum wraps. -/
theorem alignFix_lt (address : ℕ) {a : ℕ} (ha : 0 < a) : alignFix address a < a := by
  unfold alignFix
  have hx := wadd_lt address redzoneSize
  generalize wadd address redzoneSize = x at hx ⊢
  by_cases hw : x + (a - 1) < 2 ^ 64
  · have h := le_align ha hw
    unfold wsub
    omega
  · by_cases hbig : a < 2 ^ 64
    · have hzero : align x a = 0 := by
        have hsmall : wadd x (a - 1) < a := by
          unfold wadd
          omega
        rw [align, Nat.div_eq_of_lt hsmall, Nat.zero_mul]
      unfold wsub
      omega
    · exact Nat.lt_of_lt_of_le (wsub_lt _ _) (Nat.le_of_not_lt hbig)

theorem alignedFit_true {m : MemoryMgr} {size a l address : ℕ}
    (h : alignedFit m size a l address = .ok true) :
    m.free l = true ∧ size ≤ m.length l ∧ 0 < a ∧
      (isAligned (wadd address redzoneSize) a = false →
        0 < alignFix address a ∧
          wadd size (alignFix address a) ≤ m.length l) := by
  unfold alignedFit at h
  by_cases h1 : m.free l = false
  · rw [if_pos h1] at h
    cases h
  by_cases h2 : m.length l < size
  · rw [if_neg h1, if_pos h2] at h
    cases h
  by_cases h3 : a = 0
  · rw [if_neg h1, if_neg h2, if_pos h3] at h
    cases h
  rw [if_neg h1, if_neg h2, if_neg h3] at h
  refine ⟨by simpa using h1, by omega, by omega, fun hal => ?_⟩
  rw [if_neg (by simp [hal])] at h
  by_cases h4 : size < m.length l
  · rw [if_pos h4] at h
    by_cases h5 : alignFix address a = 0
    · rw [if_pos h5] at h
      cases h
    · rw [if_neg h5] at h
      exact ⟨by omega, of_decide_eq_true (Except.ok.inj h)⟩
  · rw [if_neg h4] at h
    cases h

/-- What `alloc_aligned(n, a)` does when it returns `p`: the usual, or, when
its loop ran off the end, accounting and redzones behind the heap. -/
def AlignedPost (m : MemoryMgr) (bs : List Blk) (n a p : ℕ) (s : MemoryMgr) :
    Prop :=
  (∃ off bs', Cut (blockSize n) bs off bs' ∧
    AllocDone m (blockSize n) (wadd m.heapBase off) bs' s ∧
    p = wadd m.heapBase (off + redzoneSize)) ∨
  (alignedFound m n a = false ∧
    AllocDone m (blockSize n) (wadd m.heapBase (total bs)) bs s ∧
    p = wadd m.heapBase (total bs + redzoneSize))

/-! ## Under the lock -/

theorem AllocDone.relock {m s : MemoryMgr} {size address : ℕ} {bs' : List Blk}
    (h : AllocDone { m with locked := true } size address bs' s)
    (hm : m.locked = false) :
    AllocDone m size address bs' { s with locked := false } :=
  ⟨h.rep.congr rfl rfl rfl rfl rfl rfl, h.heapBase, h.usedmem, h.freemem, h.mem, hm.symm⟩

theorem AllocPost.relock {m s : MemoryMgr} {bs : List Blk} {n p : ℕ}
    (h : AllocPost { m with locked := true } bs n p s) (hm : m.locked = false) :
    AllocPost m bs n p { s with locked := false } := by
  rcases h with ⟨hn, hp, rfl⟩ | ⟨hn, off, bs', hcut, hdone, hp⟩
  · refine .inl ⟨hn, hp, ?_⟩
    rw [← hm]
  · exact .inr ⟨hn, off, bs', hcut, hdone.relock hm, hp⟩

section

variable {m : MemoryMgr} {bs : List Blk} {B : ℕ → MemoryMgr → Prop}

/-- **`alloc`**: boundaries are relinking lines, show the old list, or show
the finished allocation. -/
theorem alloc_spec (hW : ∀ line s, relinking line = true → B line s)
    (hV : ∀ line s, View m bs s → B line s) (h : Rep m bs)
    (htot : total bs < 2 ^ 64) (hbase : m.heapBase < 2 ^ 64) (n : ℕ)
    (hD : ∀ line p s, (∃ b, AllocPost { m with locked := b } bs n p s) →
      B line s) :
    (alloc n).Spec m B fun p s => AllocPost m bs n p s := by
  unfold alloc
  have hrep : Rep { m with locked := true } bs := h.congr rfl rfl rfl rfl rfl rfl
  apply (locking_spec (Q := AllocPost { m with locked := true } bs n)
    (hV _ _ (View.of_chain rfl rfl hrep.chain)) ?_ ?_).mono fun _ _ hb => hb
  · rintro p s ⟨hm, s', hs', rfl⟩
    exact hs'.relock hm
  · intro _
    exact allocNomutex_spec hW hrep htot hbase n fun line p s hs =>
      hD line p s ⟨true, hs⟩
  · intro p s hs
    exact hD _ p _ ⟨false, AllocPost.relock hs rfl⟩

/-- The part of `alloc_aligned` that uses the block its loop stopped at. -/
theorem placeAligned_spec (hW : ∀ line s, relinking line = true → B line s)
    (hV : ∀ line s, View m bs s → B line s) (h : Rep m bs)
    (htot : total bs < 2 ^ 64) (hbase : m.heapBase < 2 ^ 64) {n a : ℕ}
    {cur : Cursor}
    (hscan : scan m (alignedFit m (blockSize n) (roundAlign a)) = .ok cur)
    (hE : blockSize n = 0 → ∀ line s, B line s) :
    (placeAligned cur (blockSize n) (roundAlign a)).Spec m B fun address s =>
      SameData m s ∧
        ((∃ off bs', Cut (blockSize n) bs off bs' ∧ Rep s bs' ∧
          address = wadd m.heapBase off) ∨
        (alignedFound m n a = false ∧ Rep s bs ∧
          address = wadd m.heapBase (total bs))) := by
  unfold placeAligned
  rcases walk_inv h.chain hbase hscan with
    ⟨pre, c, post, rfl, _, hfit, rfl⟩ | ⟨_, rfl⟩
  · have hlen : c.len < 2 ^ 64 := by
      simp only [total_append, total_cons] at htot
      omega
    obtain ⟨hfree, hsize, hapos, hgap⟩ := alignedFit_true hfit
    rw [h.free_eq] at hfree
    rw [h.length_eq] at hsize hgap
    have hsmall : alignFix (wadd m.heapBase (total pre)) (roundAlign a) < 2 ^ 63 := by
      have hlt : roundAlign a < 2 ^ 32 := Nat.mod_lt _ (by decide)
      have := alignFix_lt (wadd m.heapBase (total pre)) hapos
      omega
    generalize alignFix (wadd m.heapBase (total pre)) (roundAlign a) = fix at *
    dsimp only
    split
    · apply Spec.bind (allocateIntoFree_spec hW h hlen (blockSize n))
      rintro _ s ⟨hc, tail, ht, hsum, hs, hdata⟩
      refine Spec.pure ⟨hdata, .inl ⟨total pre, _, ?_, hs, rfl⟩⟩
      have hsum' : total ([] : List Blk) + blockSize n + total tail = c.len := by
        simpa using hsum
      simpa using Cut.mk hc (.inl rfl) ht (by simp) hsum'
    · rename_i hal
      obtain ⟨hpos, hroom⟩ := hgap (by simpa using hal)
      apply Spec.bind (carve_spec hW hV h hfree hpos hsmall hlen hsize hroom
        fun h0 s => hE h0 _ s)
      rintro _ s ⟨h16, _, k, tail, ht, hsum, hs, hdata⟩
      refine Spec.pure ⟨hdata, .inl ⟨total pre + fix, _, ?_, hs, ?_⟩⟩
      · have hlead : Spare [(⟨k, fix, true⟩ : Blk)] :=
          .inr ⟨_, rfl, rfl, hpos⟩
        have hsum' : total [(⟨k, fix, true⟩ : Blk)] + blockSize n + total tail =
            c.len := by simpa using hsum
        simpa using Cut.mk hfree hlead ht (by simpa using h16) hsum'
      · rw [wadd_assoc]
  · refine Spec.pure ⟨SameData.refl m, .inr ⟨?_, h, rfl⟩⟩
    rw [alignedFound, hscan]
    rfl

theorem alignedFound_locked (n a : ℕ) (b : Bool) :
    alignedFound { m with locked := b } n a = alignedFound m n a := by
  unfold alignedFound
  have hscan : scan { m with locked := b }
      (alignedFit { m with locked := b } (blockSize n) (roundAlign a)) =
      scan m (alignedFit m (blockSize n) (roundAlign a)) :=
    @walk_congr m _ { m with locked := b } rfl rfl _ _ _ _
  rw [hscan]

theorem AlignedPost.relock {s : MemoryMgr} {n a p : ℕ}
    (h : AlignedPost { m with locked := true } bs n a p s)
    (hm : m.locked = false) : AlignedPost m bs n a p { s with locked := false } := by
  rcases h with ⟨off, bs', hcut, hdone, hp⟩ | ⟨hmiss, hdone, hp⟩
  · exact .inl ⟨off, bs', hcut, hdone.relock hm, hp⟩
  · rw [alignedFound_locked] at hmiss
    exact .inr ⟨hmiss, hdone.relock hm, hp⟩

/-- **`alloc_aligned`**, with the boundaries of `alloc_spec`. A block length
that wraps to zero is set apart. -/
theorem allocAligned_spec (hW : ∀ line s, relinking line = true → B line s)
    (hV : ∀ line s, View m bs s → B line s) (h : Rep m bs)
    (htot : total bs < 2 ^ 64) (hbase : m.heapBase < 2 ^ 64) (n a : ℕ)
    (hD : ∀ line p s, (∃ b, AlignedPost { m with locked := b } bs n a p s) →
      B line s)
    (hE : blockSize n = 0 → ∀ line s, B line s) :
    (allocAligned n a).Spec m B fun p s => AlignedPost m bs n a p s := by
  unfold allocAligned
  have hrep : Rep { m with locked := true } bs := h.congr rfl rfl rfl rfl rfl rfl
  have hV' : ∀ line s, View { m with locked := true } bs s → B line s := hV
  apply (locking_spec (Q := AlignedPost { m with locked := true } bs n a)
    (hV _ _ (View.of_chain rfl rfl hrep.chain)) ?_ ?_).mono fun _ _ hb => hb
  · rintro p s ⟨hm, s', hs', rfl⟩
    exact hs'.relock hm
  · intro _
    apply Spec.read_bind
    apply Spec.lift_bind
    intro cur hscan
    apply Spec.bind (placeAligned_spec hW hV' hrep htot hbase hscan hE)
    have hfinish : ∀ off bs' s, Rep s bs' → SameData { m with locked := true } s →
        (∀ t, AllocDone { m with locked := true } (blockSize n) (wadd m.heapBase off) bs' t →
          AlignedPost { m with locked := true } bs n a (wadd m.heapBase (off + redzoneSize)) t) →
        (finishAlloc 282 286 (blockSize n) (wadd m.heapBase off)).Spec s B
          (AlignedPost { m with locked := true } bs n a) := by
      intro off bs' s hs hdata hpost
      apply (finishAlloc_spec hs hdata (fun _ => hW _ _ rfl)
        (fun _ => hW _ _ rfl) (fun _ => hW _ _ rfl)
        fun t ht => hD _ _ _ ⟨true, hpost t ht⟩).mono fun _ _ hb => hb
      rintro p t ⟨rfl, hdone⟩
      rw [wadd_assoc]
      exact hpost t hdone
    rintro address s ⟨hdata, ⟨off, bs', hcut, hs, rfl⟩ | ⟨hmiss, hs, rfl⟩⟩
    · exact hfinish off bs' s hs hdata fun t ht => .inl ⟨off, bs', hcut, ht, rfl⟩
    · exact hfinish (total bs) bs s hs hdata fun t ht => .inr ⟨hmiss, ht, rfl⟩
  · intro p s hs
    exact hD _ p _ ⟨false, AlignedPost.relock hs rfl⟩

end

end NeptunOS.Heap
