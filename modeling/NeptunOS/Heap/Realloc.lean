import NeptunOS.Heap.Free

/-!
# `try_realloc`

Growing a block in place: it swallows the free block behind it or nibbles at
its front, and its new trailing redzone is written. A request that already
fits only rewrites the redzone. `TryPost` lists the outcomes.
-/

namespace NeptunOS.Heap

open Stepwise Stepwise.Prog Linked BlockList Function

/-- The trailing redzone of the block of `len` bytes at `address`, written
anew. -/
def rezone (mem : Mem) (address len : ℕ) : Mem :=
  memset mem (wsub (wadd address len) redzoneSize) redzoneMagic redzoneSize

/-- Can the block of link `i` become `newsize` bytes long in place? -/
def roomInPlace (m : MemoryMgr) (i newsize : ℕ) : Bool :=
  decide (newsize ≤ m.length i) ||
    match m.next i with
    | none => false
    | some n => m.free n && decide (wsub newsize (m.length i) ≤ m.length n)

/-- Does `try_realloc(ptr, n)` find a block that can take `n` bytes in place? -/
def fitsInPlace (m : MemoryMgr) (ptr n : ℕ) : Bool :=
  match lookup m (wsub ptr redzoneSize) with
  | .ok ⟨some i, _, _⟩ => roomInPlace m i (blockSize n)
  | _ => false

/-- The block `b` between `pre` and `n :: post` grew to `size` bytes at the
expense of the free block `n`; what is left of `n` is `tail`. -/
structure Grown (m : MemoryMgr) (pre : List Blk) (b n : Blk)
    (tail post : List Blk) (size : ℕ) (mem : Mem) (s : MemoryMgr) : Prop where
  lt : b.len < size
  free : n.free = true
  spare : Spare tail
  len : size + total tail = b.len + n.len
  rep : Rep s (pre ++ { b with len := size } :: (tail ++ post))
  heapBase : s.heapBase = m.heapBase
  usedmem : s.usedmem = wadd m.usedmem (size - b.len)
  freemem : s.freemem = wsub m.freemem (size - b.len)
  mem : s.mem = mem
  locked : s.locked = m.locked

section

variable {m : MemoryMgr} {pre post : List Blk} {b n : Blk}
  {B : ℕ → MemoryMgr → Prop}
  (hW : ∀ line s, relinking line = true → B line s)

include hW

theorem swallow_spec (h : Rep m (pre ++ b :: n :: post)) {size : ℕ}
    (hsize : size < 2 ^ 64) (hlt : b.len < size) (hfree : n.free = true)
    (hlen : n.len = size - b.len) :
    (swallow b.id n.id size b.len).Spec m B fun _ s =>
      Grown m pre b n [] post size m.mem s := by
  have hn : Rep m ((pre ++ [b]) ++ n :: post) := by simpa using h
  have hbn : b.id ≠ n.id := hn.ne_of_mem (.inl (by simp))
  have hprevn : m.prev n.id = some b.id := by simpa using hn.prev_eq
  have hd : wsub size b.len = size - b.len := wsub_of_le hsize (by omega)
  have hnid : ∀ x ∈ ids (pre ++ { b with len := size } :: post), x ≠ n.id := by
    have hnd := hn.nodup
    rw [ids_append, ids_cons, List.nodup_middle, List.nodup_cons] at hnd
    rintro x hx rfl
    exact hnd.1 (by simpa using hx)
  unfold swallow
  apply Spec.stmt_bind (hW _ _ rfl)
  apply Spec.stmt_bind (hW _ _ rfl)
  apply Spec.stmt_bind (hW _ _ rfl)
  apply Spec.stmt_bind (hW _ _ rfl)
  apply Spec.stmt_bind (hW _ _ rfl)
  apply Spec.read_bind
  apply setPrevOf_bind fun _ => hW _ _ rfl
  have hids : ∀ x, x ∈ ids (pre ++ { b with len := size } :: post) ↔
      x ∈ ids (pre ++ b :: n :: post) ∧ x ≠ n.id := by
    intro x
    have hx := hnid x
    simp only [ids_append, ids_cons, List.mem_append, List.mem_cons] at hx ⊢
    tauto
  have hnn : update m.next b.id (m.next n.id) n.id = m.next n.id := update_of_ne hbn.symm ..
  have hpool : ∀ t : MemoryMgr, t.bm = m.bm → Pool t (ids (pre ++ b :: n :: post)) :=
    fun t ht => h.toPool.congr ht
  refine Spec.mono (deleteLink_spec (q := b.id) (hpool _ rfl) ?_ hids
    fun _ _ _ _ => hW _ _ rfl) (fun _ _ hb => hb) ?_
  · show (if update m.next b.id (m.next n.id) n.id = some n.id then some b.id
      else m.prev n.id) = some b.id
    rw [hprevn, ite_self]
  rintro _ s ⟨hp, bm, rfl⟩
  refine ⟨hlt, hfree, .inl rfl, ?_, ⟨?_, hp.sz, hp.bits⟩, rfl, ?_, ?_, rfl, rfl⟩
  · simp only [total_nil]
    omega
  · apply h.toListRep.unlink
    · rfl
    · intro x hx
      show update (update m.next b.id (m.next n.id)) n.id none x = _
      rw [update_of_ne hx, update_apply]
    · intro x hx
      show update (fun y => if update m.next b.id (m.next n.id) n.id = some y
        then some b.id else m.prev y) n.id none x = _
      rw [update_of_ne hx, hnn]
    · intro x hx
      dsimp only
      rw [update_apply, update_of_ne hx, update_of_ne hbn, h.length_eq, hd,
        wadd_of_lt (by omega), Nat.add_sub_cancel' (by omega)]
    · intro x _
      rfl
  · show wadd m.usedmem (wsub size b.len) = _
    rw [hd]
  · show wsub m.freemem (wsub size b.len) = _
    rw [hd]

theorem nibble_spec (h : Rep m (pre ++ b :: n :: post)) {size : ℕ}
    (hsize : size < 2 ^ 64) (hlt : b.len < size) (hfree : n.free = true)
    (hn64 : n.len < 2 ^ 64) (hlen : size - b.len < n.len) :
    (nibble b.id n.id size b.len).Spec m B fun _ s =>
      Grown m pre b n [{ n with len := n.len - (size - b.len) }] post size
        m.mem s := by
  have hn : Rep m ((pre ++ [b]) ++ n :: post) := by simpa using h
  have hbn : b.id ≠ n.id := hn.ne_of_mem (.inl (by simp))
  have hd : wsub size b.len = size - b.len := wsub_of_le hsize (by omega)
  have hlenb : m.length b.id = b.len := h.length_eq
  have hlenn : m.length n.id = n.len := hn.length_eq
  have hcut := hn.setLength (n.len - (size - b.len))
  have hcut' : Rep { m with
      length := update m.length n.id (n.len - (size - b.len)) }
      (pre ++ b :: { n with len := n.len - (size - b.len) } :: post) := by
    simpa using hcut
  have hgrow := hcut'.setLength size
  unfold nibble
  apply Spec.stmt_bind (hW _ _ rfl)
  apply Spec.stmt_bind (hW _ _ rfl)
  apply Spec.stmt_bind (hW _ _ rfl)
  refine Spec.stmt (hW _ _ rfl) ⟨hlt, hfree, ?_, ?_, ?_, rfl, ?_, ?_, rfl, rfl⟩
  · exact .inr ⟨_, rfl, hfree, by dsimp only; omega⟩
  · simp only [total_cons, total_nil]
    omega
  · apply hgrow.congr <;> try rfl
    dsimp only
    rw [update_of_ne hbn, hlenb, hlenn, hd, wsub_of_le hn64 (by omega),
      wadd_of_lt (by omega), Nat.add_sub_cancel' (by omega)]
  · show wadd m.usedmem (wsub size b.len) = _
    rw [hd]
  · show wsub m.freemem (wsub size b.len) = _
    rw [hd]

/-- In place there is room already, or the free block behind gives it, or
nothing happens. -/
theorem growInPlace_spec (h : Rep m (pre ++ b :: post))
    (htot : total (pre ++ b :: post) < 2 ^ 64) {size : ℕ}
    (hsize : size < 2 ^ 64) :
    (growInPlace b.id size).Spec m B fun r s => r = roomInPlace m b.id size ∧
      ((r = false ∧ b.len < size ∧ s = m) ∨ (r = true ∧ size ≤ b.len ∧ s = m) ∨
        (r = true ∧ ∃ n tail post', post = n :: post' ∧
          Grown m pre b n tail post' size m.mem s)) := by
  unfold growInPlace roomInPlace
  apply Spec.read_bind
  rw [h.length_eq]
  by_cases hfit : size ≤ b.len
  · rw [if_pos hfit]
    exact Spec.pure ⟨by simp [hfit], .inr (.inl ⟨rfl, hfit, rfl⟩)⟩
  have hshort : b.len < size := Nat.lt_of_not_le hfit
  rw [if_neg hfit, decide_eq_false hfit, Bool.false_or, h.next_eq]
  cases post with
  | nil => exact Spec.pure ⟨rfl, .inl ⟨rfl, hshort, rfl⟩⟩
  | cons n post =>
    have hn : Rep m ((pre ++ [b]) ++ n :: post) := by simpa using h
    have hd : wsub size b.len = size - b.len := wsub_of_le hsize (by omega)
    have hn64 : n.len < 2 ^ 64 := by
      simp only [total_append, total_cons] at htot
      omega
    dsimp only [ids_cons, List.head?_cons]
    rw [hn.length_eq, hn.free_eq, hd]
    by_cases hfree : n.free = true
    · rw [if_pos hfree]
      by_cases heq : n.len = size - b.len
      · rw [if_pos heq]
        apply Spec.bind (swallow_spec hW h hsize hshort hfree heq)
        intro _ s hs
        refine Spec.pure ⟨?_, .inr (.inr ⟨rfl, n, [], post, rfl, hs⟩)⟩
        simp [hfree, heq]
      · rw [if_neg heq]
        by_cases hlt : size - b.len < n.len
        · rw [if_pos hlt]
          apply Spec.bind (nibble_spec hW h hsize hshort hfree hn64 hlt)
          intro _ s hs
          refine Spec.pure ⟨?_, .inr (.inr ⟨rfl, n, _, post, rfl, hs⟩)⟩
          rw [hfree, decide_eq_true (Nat.le_of_lt hlt), Bool.true_and]
        · rw [if_neg hlt]
          refine Spec.pure ⟨?_, .inl ⟨rfl, hshort, rfl⟩⟩
          rw [decide_eq_false (by omega), Bool.and_false]
    · rw [if_neg hfree]
      refine Spec.pure ⟨?_, .inl ⟨rfl, hshort, rfl⟩⟩
      rw [Bool.not_eq_true] at hfree
      rw [hfree, Bool.false_and]

end

/-! ## The operation -/

/-- What `try_realloc(ptr, n)` does when it returns `r`. -/
def TryPost (m : MemoryMgr) (bs : List Blk) (ptr n : ℕ) (r : Bool)
    (s : MemoryMgr) : Prop :=
  (ptr = 0 ∧ ∃ p, AllocPost m bs n p s ∧ r = decide (p ≠ 0)) ∨
    (ptr ≠ 0 ∧ r = fitsInPlace m ptr n ∧ ∃ pre b post,
      FirstAt m.heapBase (wsub ptr redzoneSize) bs pre b post ∧
      ((r = false ∧ b.len < blockSize n ∧ s = m) ∨
        (r = true ∧ blockSize n ≤ b.len ∧
          s = { m with mem := rezone m.mem (wsub ptr redzoneSize) b.len }) ∨
        (r = true ∧ ∃ k tail post', post = k :: post' ∧
          Grown m pre b k tail post' (blockSize n)
            (rezone m.mem (wsub ptr redzoneSize) (blockSize n)) s)))

theorem Grown.relock {m s : MemoryMgr} {pre tail post : List Blk} {b n : Blk} {size : ℕ} {mem : Mem}
    (h : Grown { m with locked := true } pre b n tail post size mem s)
    (hm : m.locked = false) :
    Grown m pre b n tail post size mem { s with locked := false } :=
  ⟨h.lt, h.free, h.spare, h.len, h.rep.congr rfl rfl rfl rfl rfl rfl, h.heapBase,
    h.usedmem, h.freemem, h.mem, hm.symm⟩

theorem fitsInPlace_locked (m : MemoryMgr) (ptr n : ℕ) (b : Bool) :
    fitsInPlace { m with locked := b } ptr n = fitsInPlace m ptr n := by
  have hlookup : lookup { m with locked := b } (wsub ptr redzoneSize) =
      lookup m (wsub ptr redzoneSize) :=
    @walk_congr m _ { m with locked := b } rfl rfl _ _ _ _
  unfold fitsInPlace
  rw [hlookup]
  rfl

theorem TryPost.relock {m s : MemoryMgr} {bs : List Blk} {ptr n : ℕ} {r : Bool}
    (h : TryPost { m with locked := true } bs ptr n r s) (hm : m.locked = false) :
    TryPost m bs ptr n r { s with locked := false } := by
  rcases h with ⟨hp, p, hpost, hr⟩ | ⟨hp, hfits, pre, b, post, hat, hres⟩
  · exact .inl ⟨hp, p, hpost.relock hm, hr⟩
  · rw [fitsInPlace_locked] at hfits
    refine .inr ⟨hp, hfits, pre, b, post, hat, ?_⟩
    rcases hres with ⟨hr, hlt, rfl⟩ | ⟨hr, hle, rfl⟩ | ⟨hr, k, tail, post', hpost, hg⟩
    · refine .inl ⟨hr, hlt, ?_⟩
      rw [← hm]
    · refine .inr (.inl ⟨hr, hle, ?_⟩)
      rw [← hm]
    · exact .inr (.inr ⟨hr, k, tail, post', hpost, hg.relock hm⟩)

theorem blockSize_lt (n : ℕ) : blockSize n < 2 ^ 64 := wadd_lt _ _

section

variable {m : MemoryMgr} {bs : List Blk} {B : ℕ → MemoryMgr → Prop}

/-- The last statement of `try_realloc`. -/
theorem rezone_step {s : MemoryMgr} {g : MemoryMgr → MemoryMgr}
    {Q : Bool → MemoryMgr → Prop} (hB : ∀ t, Q true t → B 363 t)
    (hQ : Q true (g s)) :
    Spec (do
      Prog.when (true = true) (Prog.stmt 363 g)
      return true : Op Bool) s B Q :=
  Spec.bind (P := fun _ t => Q true t)
    (Spec.when (fun _ => Spec.stmt (hB _ hQ) hQ) fun hf => absurd rfl hf)
    fun _ _ ht => Spec.pure ht

/-- **`try_realloc`**, with the boundaries of `alloc_spec`. -/
theorem tryRealloc_spec (hW : ∀ line s, relinking line = true → B line s)
    (hV : ∀ line s, View m bs s → B line s) (h : Rep m bs)
    (htot : total bs < 2 ^ 64) (hbase : m.heapBase < 2 ^ 64) (ptr n : ℕ)
    (hD : ∀ line r s, (∃ b, TryPost { m with locked := b } bs ptr n r s) →
      B line s) :
    (tryRealloc ptr n).Spec m B fun r s => TryPost m bs ptr n r s := by
  have hrep : Rep { m with locked := true } bs := h.congr rfl rfl rfl rfl rfl rfl
  unfold tryRealloc
  apply (locking_spec (Q := TryPost { m with locked := true } bs ptr n)
    (hV _ _ (View.of_chain rfl rfl hrep.chain)) ?_ ?_).mono fun _ _ hb => hb
  · rintro r s ⟨hm, s', hs', rfl⟩
    exact hs'.relock hm
  · intro _
    by_cases hp : ptr = 0
    · rw [if_pos hp]
      apply Spec.bind (allocNomutex_spec hW hrep htot hbase n
        fun line p s hs => hD line (decide (p ≠ 0)) s ⟨true, .inl ⟨hp, p, hs, rfl⟩⟩)
      intro p s hs
      exact Spec.pure (.inl ⟨hp, p, hs, rfl⟩)
    · rw [if_neg hp]
      apply assert_bind
      intro _
      apply Spec.read_bind
      apply Spec.lift_bind
      intro c hl
      rcases lookup_inv hrep.chain hbase hl with ⟨pre, b, post, hat, rfl⟩ | ⟨_, hi⟩
      · obtain rfl := hat.split
        apply Spec.bind (growInPlace_spec hW hrep htot (blockSize_lt n))
        rintro r s ⟨hfits, hres⟩
        have hfits' : r = fitsInPlace { m with locked := true } ptr n := by
          rw [hfits, fitsInPlace, hl]
        rcases hres with ⟨rfl, hlt, rfl⟩ | ⟨rfl, hle, rfl⟩ | ⟨rfl, k, tail, post', hpost, hg⟩
        · apply Spec.bind (P := fun _ t => t = { m with locked := true })
            (Spec.when (fun hf => by cases hf) fun _ => rfl)
          rintro _ _ rfl
          exact Spec.pure (.inr ⟨hp, hfits', pre, b, post, hat, .inl ⟨rfl, hlt, rfl⟩⟩)
        · have hres : TryPost { m with locked := true } (pre ++ b :: post) ptr n true
              { m with
                locked := true
                mem := memset m.mem (wsub (wadd (wsub ptr redzoneSize)
                  (m.length b.id)) redzoneSize) redzoneMagic redzoneSize } := by
            rw [h.length_eq]
            exact .inr ⟨hp, hfits', pre, b, post, hat, .inr (.inl ⟨rfl, hle, rfl⟩)⟩
          exact rezone_step (fun t ht => hD _ _ t ⟨true, ht⟩) hres
        · have hres : TryPost { m with locked := true } (pre ++ b :: post) ptr n true
              { s with
                mem := memset s.mem (wsub (wadd (wsub ptr redzoneSize)
                  (s.length b.id)) redzoneSize) redzoneMagic redzoneSize } := by
            have hlen : s.length b.id = blockSize n := hg.rep.length_eq
            rw [hlen, hg.mem]
            refine .inr ⟨hp, hfits', pre, b, post, hat,
              .inr (.inr ⟨rfl, k, tail, post', hpost, ?_⟩)⟩
            exact ⟨hg.lt, hg.free, hg.spare, hg.len,
              hg.rep.congr rfl rfl rfl rfl rfl rfl, hg.heapBase, hg.usedmem,
              hg.freemem, rfl, hg.locked⟩
          exact rezone_step (fun t ht => hD _ _ t ⟨true, ht⟩) hres
      · obtain ⟨i, j, addr⟩ := c
        obtain rfl : i = none := hi
        exact Spec.fail _
  · intro r s hs
    exact hD _ r _ ⟨false, TryPost.relock hs rfl⟩

end

end NeptunOS.Heap
