import NeptunOS.Heap.Persist

/-!
# Contents over a reallocation

`realloc` grows a block where it is if it can, and otherwise allocates, copies
and frees. Either way the bytes of the old payload are found at the returned
pointer and no other payload changes, as long as the pointer is not null:
`try_realloc(nullptr, n)` allocates a block and answers `true`, which `realloc`
takes for success in place, so that it returns null and the block is lost.
-/

namespace NeptunOS.Heap

open Stepwise Stepwise.Prog Linked BlockList Function

/-! ## The contract -/

/-- The payload of the block `x` has the same bytes in both memories. -/
def SameBytes (x : Extent) (mem mem' : Mem) : Prop :=
  ∀ k, x.start + redzoneSize ≤ k → k + redzoneSize < x.start + x.len → mem' k = mem k

/-- The block of `ptr`, with the block behind it if that one is free, has room for
`n` bytes. -/
def GrowsInPlace (m : MemoryMgr) (ptr n : ℕ) : Prop :=
  ∃ xs x ys, extents m = xs ++ x :: ys ∧ ptr = x.start + redzoneSize ∧
    (need n ≤ x.len ∨ ∃ y zs, ys = y :: zs ∧ y.free = true ∧ need n ≤ x.len + y.len)

/-- Some block fits, and for the first one there is a link for the rest. -/
def Allocatable (m : MemoryMgr) (n : ℕ) : Prop :=
  ∃ xs e ys, extents m = xs ++ e :: ys ∧ e.Fits n ∧ (∀ x ∈ xs, ¬ x.Fits n) ∧
    (e.len ≠ need n → SlotLeft m)

/-- A reallocation of `ptr` to `n` bytes can be satisfied. -/
def Satisfiable (m : MemoryMgr) (ptr n : ℕ) : Prop := GrowsInPlace m ptr n ∨ Allocatable m n

/-- From `m` to `s`, the block of `ptr` became the live block of `q` with at least
`n` bytes: it has the old contents, the old block is free if the pointer has
changed, and all other used blocks have kept theirs. -/
structure Reallocated (m : MemoryMgr) (ptr n q : ℕ) (s : MemoryMgr) : Prop where
  live : Live s q
  contents : ∃ old new, getSize m ptr = .ok old ∧ getSize s q = .ok new ∧ n ≤ new ∧
    ∀ i < min old n, s.mem (q + i) = m.mem (ptr + i)
  freed : q ≠ ptr → ∀ x ∈ extents m, ptr = x.start + redzoneSize →
    ∃ f ∈ extents s, f.free = true ∧ f.start ≤ x.start ∧ x.start + x.len ≤ f.start + f.len
  others : ∀ y ∈ extents m, y.free = false → ptr ≠ y.start + redzoneSize →
    y ∈ extents s ∧ SameBytes y m.mem s.mem

/-- What a caller of `realloc(ptr, n)` may expect in the heap `m`. -/
def ReallocContract (m : MemoryMgr) (ptr n : ℕ) : Prop :=
  (ptr = 0 → (realloc ptr n).run m = (alloc n).run m) ∧
  (ptr ≠ 0 → ∃ q s, (realloc ptr n).run m = .ok (q, s) ∧ Reallocated m ptr n q s)

/-! ## Redzones at plain addresses -/

section

variable {mem : Mem} {A len k : ℕ}

theorem zero_wadd {a : ℕ} (h : a < 2 ^ 64) : wadd 0 a = a := by
  rw [wadd_of_lt] <;> omega

theorem rezone_apply (hlen : redzoneSize ≤ len) (hend : A + len < 2 ^ 64) (hk : k < 2 ^ 64) :
    rezone mem A len k =
      if A + len - redzoneSize ≤ k ∧ k < A + len then redzoneMagic else mem k := by
  have h := @rezone_at mem 0 A len k hlen (by omega) hk
  rwa [zero_wadd (by omega), zero_wadd hk] at h

theorem dress_apply (hlen : redzoneSize ≤ len) (hend : A + len < 2 ^ 64) (hk : k < 2 ^ 64) :
    dress mem A len k = if Zone A len k then redzoneMagic else mem k := by
  have h := @dress_at mem 0 A len k hlen (by omega) hk
  rwa [zero_wadd (by omega), zero_wadd hk] at h

theorem dressed_iff_zone (hlen : redzoneSize ≤ len) (hend : A + len < 2 ^ 64) :
    Dressed mem A len ↔ ∀ k, Zone A len k → mem k = redzoneMagic := by
  have h := @dressed_iff mem 0 A len hlen
  rw [zero_wadd (by omega)] at h
  rw [h]
  refine forall₂_congr fun k hk => ?_
  have := hk.bounds hlen
  rw [zero_wadd (by omega)]

end

/-! ## `try_realloc` returns -/

section Returns

variable {m : MemoryMgr} {bs pre post : List Blk} {b : Blk} {lost : List ℕ} {size n : ℕ}
  {x : Extent}

theorem swallow_returns {l : ℕ} (hl : l < m.bm.sz) (i newsize oldsize : ℕ) :
    (swallow i l newsize oldsize).Returns m := by
  unfold swallow
  apply Returns.stmt_bind
  apply Returns.stmt_bind
  apply Returns.stmt_bind
  apply Returns.stmt_bind
  apply Returns.stmt_bind
  apply Returns.read_bind
  apply setPrevOf_returns_bind
  apply deleteLink_returns
  exact hl

theorem nibble_returns (i l newsize oldsize : ℕ) : (nibble i l newsize oldsize).Returns m := by
  unfold nibble
  apply Returns.stmt_bind
  apply Returns.stmt_bind
  apply Returns.stmt_bind
  exact Returns.stmt _ _

theorem growInPlace_returns (h : Rep m (pre ++ b :: post)) (newsize : ℕ) :
    (growInPlace b.id newsize).Returns m := by
  unfold growInPlace
  apply Returns.read_bind
  dsimp only
  split
  · exact Returns.pure _
  rw [h.next_eq]
  cases post with
  | nil => exact Returns.pure _
  | cons k post =>
    dsimp only [ids_cons, List.head?_cons]
    split
    · split
      · exact Returns.bind (swallow_returns (h.slot_lt (by simp)) _ _ _)
          fun _ _ _ => Returns.pure _
      · split
        · exact Returns.bind (nibble_returns _ _ _ _) fun _ _ _ => Returns.pure _
        · exact Returns.pure _
    · exact Returns.pure _

/-- On the pointer of a block, `try_realloc` returns. -/
theorem Tidy.tryRealloc_returns (h : Tidy size m bs lost) (hx : x ∈ extents m)
    (h16 : 16 ∣ x.start) : (tryRealloc (x.start + redzoneSize) n).Returns m := by
  obtain ⟨hp64, hp⟩ := h.ptr_bounds hx
  obtain ⟨pre, b, post, hat, rfl⟩ := h.firstAt hx
  have hrep : Rep { m with locked := true } bs := h.rep.congr rfl rfl rfl rfl rfl rfl
  have hlookup := lookup_hit hrep.chain h.base hrep.length_le hat
  rw [← wsub_redzone hp64] at hlookup
  obtain rfl := hat.split
  apply locking_returns h.unlocked
  apply Returns.unless_bind
  · rw [not_not]
    exact Nat.mod_eq_zero_of_dvd (Nat.dvd_add h16 (by decide))
  apply Returns.read_bind
  apply Returns.lift_bind hlookup
  apply Returns.bind (growInPlace_returns hrep _)
  intro r s _
  exact Returns.bind (Returns.when fun _ => Returns.stmt _ _)
    fun _ _ _ => Returns.pure _

theorem Tidy.getSize_eq (h : Tidy size m bs lost) (hx : x ∈ extents m) :
    getSize m (x.start + redzoneSize) = .ok (wsub x.len (redzoneSize * 2)) := by
  obtain ⟨hp64, _⟩ := h.ptr_bounds hx
  obtain ⟨pre, b, post, hat, rfl⟩ := h.firstAt hx
  rw [getSize, wsub_redzone hp64, lookup_hit h.rep.chain h.base h.rep.length_le hat]
  obtain rfl := hat.split
  show Except.ok (wsub (m.length b.id) (redzoneSize * 2)) = _
  rw [h.rep.length_eq]

/-- A block with room in place is grown in place. -/
theorem Tidy.fitsInPlace_of_grows {ptr : ℕ} (h : Tidy size m bs lost) (hn : n < 2 ^ 63)
    (hgrow : GrowsInPlace m ptr n) : fitsInPlace m ptr n = true := by
  obtain ⟨xs, x, ys, hsplit, rfl, hroom⟩ := hgrow
  have hx : x ∈ extents m := by
    rw [hsplit]
    simp
  obtain ⟨hp64, _⟩ := h.ptr_bounds hx
  rw [h.rep.extents_eq] at hsplit
  obtain ⟨pre, b, post, rfl, rfl, rfl, rfl⟩ := layout_split hsplit
  have hat := firstAt_of_pos h.pos h.total_lt h.base
  have htot := h.total
  have hend := h.room
  have hneed := blockSize_lt n
  simp only [total_append, total_cons] at htot
  rw [wadd_of_lt (by omega)] at hat
  rw [fitsInPlace, wsub_redzone hp64, lookup_hit h.rep.chain h.base h.rep.length_le hat]
  dsimp only
  rw [roomInPlace, h.rep.length_eq, blockSize_eq_need hn] at *
  by_cases hfit : need n ≤ b.len
  · rw [decide_eq_true hfit, Bool.true_or]
  · obtain ⟨y, zs, hys, hfree, hlen⟩ := hroom.resolve_left hfit
    cases post with
    | nil => cases hys
    | cons k post =>
      obtain ⟨rfl, _⟩ := List.cons.inj hys
      dsimp only at hfree hlen
      have hk : Rep m ((pre ++ [b]) ++ k :: post) := by simpa using h.rep
      rw [h.rep.next_eq]
      dsimp only [ids_cons, List.head?_cons]
      rw [hk.free_eq, hk.length_eq, hfree, wsub_of_le hneed (by omega),
        decide_eq_true (show need n - b.len ≤ k.len by omega)]
      simp

end Returns

/-! ## In place -/

/-- From `m` to `s`, the used block `x` has become `len` bytes long where it is, with
a new trailing redzone. -/
structure Extended (m : MemoryMgr) (x : Extent) (len : ℕ) (s : MemoryMgr) : Prop where
  le : x.len ≤ len
  mem : s.mem = rezone m.mem x.start len
  mem_extents : (⟨x.start, len, false⟩ : Extent) ∈ extents s
  others : ∀ y ∈ extents m, y.free = false → y.start ≠ x.start →
    y ∈ extents s ∧ Extent.Apart ⟨x.start, len, false⟩ y

section InPlace

variable {size n len : ℕ} {m s : MemoryMgr} {bs bs' : List Blk} {lost lost' : List ℕ}
  {x : Extent}

/-- `try_realloc` that answers `true` has extended the block. -/
theorem Tidy.extended (h : Tidy size m bs lost) (hn : n < 2 ^ 63) (hx : x ∈ extents m)
    (hused : x.free = false)
    (hs : (tryRealloc (x.start + redzoneSize) n).run m = .ok (true, s)) :
    ∃ len, need n ≤ len ∧ Extended m x len s := by
  obtain ⟨hp64, hp⟩ := h.ptr_bounds hx
  obtain ⟨pre, b, post, hat, rfl⟩ := h.firstAt hx
  rcases h.tryRealloc_post hs with ⟨h0, _⟩ | ⟨_, _, pre', b', post', hat', hres⟩
  · exact absurd h0 hp
  have hstart := hat.addr
  rw [wsub_redzone hp64, hstart] at hat'
  obtain ⟨rfl, rfl, rfl⟩ := hat'.unique hat.split rfl h.base h.total_lt
    (h.pos b' (by rw [hat'.split]; simp))
  obtain rfl := hat.split
  rw [wsub_redzone hp64, blockSize_eq_need hn] at hres
  rcases hres with ⟨hr, _⟩ | ⟨_, hle, rfl⟩ | ⟨_, k, tail, post, rfl, hg⟩
  · cases hr
  · -- there was room already
    have hrep : Rep { m with mem := rezone m.mem (m.heapBase + total pre') b'.len }
        (pre' ++ b' :: post') := h.rep.congr rfl rfl rfl rfl rfl rfl
    have hext := hrep.extents_eq.trans h.rep.extents_eq.symm
    have hb : b'.free = false := hused
    refine ⟨b'.len, hle, Nat.le_refl _, rfl, ?_, fun y hy _ hne => ?_⟩
    · rw [hext]
      rw [hb] at hx
      exact hx
    · rw [hext]
      refine ⟨hy, ?_⟩
      rw [h.rep.extents_eq] at hy
      exact apart_of_layout (Nat.le_refl _) hy fun heq => hne (by rw [heq])
  · -- the free block behind gave it
    have hb := Coalesced.used_before h.coalesced hg.free
    obtain ⟨others, hnew, hold, hapart⟩ :=
      @usedAt_grown pre' tail post b' k (need n) hb hg.free hg.spare hg.len
    have hext : extents s = layout m.heapBase (shape _) := hg.heapBase ▸ hg.rep.extents_eq
    refine ⟨need n, Nat.le_refl _, hg.lt.le, hg.mem, ?_, fun y hy hyused hne => ?_⟩
    · rw [hext]
      exact (mem_layout_used rfl).mpr ⟨_, (hnew _).mpr (.inl rfl), rfl⟩
    · rw [h.rep.extents_eq] at hy
      obtain ⟨e, he, rfl⟩ := (mem_layout_used hyused).mp hy
      rcases (hold e).mp he with rfl | he
      · exact absurd rfl hne
      · rw [hext]
        refine ⟨(mem_layout_used rfl).mpr ⟨e, (hnew e).mpr (.inr he), rfl⟩, ?_⟩
        have hap := hapart e he
        have hlen := hg.len
        unfold Extent.Apart
        dsimp only
        omega

/-- Extending a block in place keeps all contents. -/
theorem Extended.reallocated (h : Tidy size m bs lost) (h' : Tidy size s bs' lost')
    (hx : x ∈ extents m) (hlen : 144 ≤ x.len) (hdress : Dressed m.mem x.start x.len)
    (hneed : need n ≤ len) (hext : Extended m x len s) :
    Reallocated m (x.start + redzoneSize) n (x.start + redzoneSize) s := by
  obtain ⟨hle, hmem, hnew, hothers⟩ := hext
  have hend : x.start + len < 2 ^ 64 := h'.end_lt hnew
  have hrz : redzoneSize ≤ len := redzone_le (by omega)
  have hold : ∀ k, Zone x.start x.len k → m.mem k = redzoneMagic :=
    (dressed_iff_zone (redzone_le (by omega)) (by omega)).mp hdress
  have hsize := h'.getSize_eq hnew
  have hsize' := h.getSize_eq hx
  dsimp only at hsize
  rw [wsub_of_le (by omega) (by unfold redzoneSize; omega)] at hsize hsize'
  refine ⟨⟨_, hnew, rfl, rfl, hlen.trans hle, ?_⟩, ⟨_, _, hsize', hsize, ?_, ?_⟩,
    fun hne => absurd rfl hne, fun y hy hyused hne => ?_⟩
  · refine (dressed_iff_zone hrz hend).mpr fun k hk => ?_
    have hkb := hk.bounds hrz
    rw [hmem, rezone_apply hrz hend (by omega)]
    split
    · rfl
    · exact hold k (.inl (hk.resolve_right ‹_›))
  · unfold need at hneed
    unfold redzoneSize
    omega
  · intro i hi
    rw [hmem, rezone_apply hrz hend (by unfold redzoneSize at *; omega), if_neg]
    unfold redzoneSize at *
    omega
  · obtain ⟨hy', hapart⟩ := hothers y hy hyused fun heq => hne (by rw [heq])
    refine ⟨hy', fun k hlo hhi => ?_⟩
    have hyend := h.end_lt hy
    rw [hmem, rezone_apply hrz hend (by omega), if_neg]
    unfold Extent.Apart at hapart
    unfold redzoneSize at *
    dsimp only at hapart
    omega

end InPlace

/-! ## Elsewhere -/

section Moved

variable {size n : ℕ} {m s t : MemoryMgr} {bs : List Blk} {lost : List ℕ} {x : Extent}

/-- From `m` to `s`, the block `z` was allocated. -/
structure Obtained (m : MemoryMgr) (z : Extent) (s : MemoryMgr) : Prop where
  used : z.free = false
  mem : s.mem = dress m.mem z.start z.len
  mem_extents : z ∈ extents s
  others : ∀ y ∈ extents m, y.free = false → y ∈ extents s ∧ z.Apart y

theorem Tidy.obtained {q : ℕ} (h : Tidy size m bs lost) (hn : 0 < n) (hn' : n < 2 ^ 63)
    (hs : (alloc n).run m = .ok (q, s)) :
    ∃ z, z.len = need n ∧ q = z.start + redzoneSize ∧ Obtained m z s := by
  rcases h.alloc_post hs with ⟨h0, _⟩ | ⟨_, off, bs', hcut, hd, rfl⟩
  · omega
  rw [blockSize_eq_need hn'] at hcut hd
  have hend := hcut.end_le
  have htot := h.total
  have hroom := h.room
  have haddr : wadd m.heapBase off = m.heapBase + off := wadd_of_lt (by omega)
  have hext : extents s = layout m.heapBase (shape bs') := by
    rw [hd.rep.extents_eq, hd.heapBase]
  have hmem := hd.mem
  rw [haddr] at hmem
  refine ⟨⟨m.heapBase + off, need n, false⟩, rfl, ?_, rfl, hmem, ?_, fun y hy hused => ?_⟩
  · rw [wadd_of_lt (by omega)]
    dsimp only
    omega
  · rw [hext]
    exact (mem_layout_used rfl).mpr ⟨_, hcut.mem_usedAt.mpr (.inl rfl), rfl⟩
  · rw [h.rep.extents_eq] at hy
    obtain ⟨e, he, rfl⟩ := (mem_layout_used hused).mp hy
    have hapart := hcut.apart he
    constructor
    · rw [hext]
      exact (mem_layout_used rfl).mpr ⟨e, hcut.mem_usedAt.mpr (.inr he), rfl⟩
    · unfold Extent.Apart
      dsimp only
      omega

/-- Bytes outside the new block keep their value over an allocation and a copy into
the new payload. -/
theorem Obtained.copy_frame {z : Extent} {src count k : ℕ} (h : Tidy size s bs lost)
    (hob : Obtained m z s) (hz : 128 + count ≤ z.len) (hk : k < 2 ^ 64)
    (hout : k < z.start ∨ z.start + z.len ≤ k) :
    memcpy s.mem (z.start + redzoneSize) src count k = m.mem k := by
  have hend := h.end_lt hob.mem_extents
  have hrz : redzoneSize ≤ z.len := redzone_le (by omega)
  rw [memcpy_frame (by unfold redzoneSize; omega) hk (by omega)
    (by unfold redzoneSize wsub; omega), hob.mem, dress_apply hrz hend hk, if_neg]
  intro hzone
  have := hzone.bounds hrz
  omega

/-- The state after the copy: the old pointer is still live, and freeing it completes
the reallocation. -/
theorem Obtained.reallocated {z : Extent} {bs' : List Blk} {lost' : List ℕ}
    (h : Tidy size m bs lost) (h' : Tidy size s bs' lost') (hx : x ∈ extents m)
    (hused : x.free = false) (hlen : 144 ≤ x.len) (hdress : Dressed m.mem x.start x.len)
    (hshort : x.len < need n) (hz : z.len = need n) (hob : Obtained m z s) :
    ∃ t, (free (x.start + redzoneSize)).run { s with
        mem := memcpy s.mem (z.start + redzoneSize) (x.start + redzoneSize)
          (x.len - redzoneSize * 2) } = .ok ((), t) ∧
      Reallocated m (x.start + redzoneSize) n (z.start + redzoneSize) t := by
  have hk := Kept.of_mem h'.toBooks (memcpy s.mem (z.start + redzoneSize)
    (x.start + redzoneSize) (x.len - redzoneSize * 2)) True True
  have hcopied : Tidy size { s with
      mem := memcpy s.mem (z.start + redzoneSize) (x.start + redzoneSize)
        (x.len - redzoneSize * 2) } bs' lost' :=
    ⟨hk.books, h'.tight, h'.room, h'.unlocked⟩
  have hext := hcopied.rep.extents_eq.trans h'.rep.extents_eq.symm
  generalize hmem : memcpy s.mem (z.start + redzoneSize) (x.start + redzoneSize)
    (x.len - redzoneSize * 2) = mem at *
  have hzend := h'.end_lt hob.mem_extents
  have hzrz : redzoneSize ≤ z.len := redzone_le (by omega)
  have hroom : 128 + (x.len - redzoneSize * 2) ≤ z.len := by
    unfold redzoneSize
    omega
  have hxend := h.end_lt hx
  have hframe : ∀ k < 2 ^ 64, k < z.start ∨ z.start + z.len ≤ k → mem k = m.mem k := by
    intro k hk64 hout
    rw [← hmem]
    exact hob.copy_frame h' hroom hk64 hout
  obtain ⟨hx', hxap⟩ := hob.others x hx hused
  unfold Extent.Apart at hxap
  have hlive : Live { s with mem := mem } (x.start + redzoneSize) := by
    refine ⟨x, hext ▸ hx', hused, rfl, hlen, ?_⟩
    refine (dressed_iff_zone (redzone_le (by omega)) hxend).mpr fun k hk => ?_
    have hkb := hk.bounds (redzone_le (by omega))
    dsimp only
    rw [hframe k (by omega) (by omega)]
    exact (dressed_iff_zone (redzone_le (by omega)) hxend).mp hdress k hk
  obtain ⟨hp64, hp⟩ := h.ptr_bounds hx
  obtain ⟨⟨_, t⟩, ht⟩ := (hcopied.free_returns_iff hp hp64).mpr hlive
  refine ⟨t, ht, ?_⟩
  obtain ⟨hfreed, hcover⟩ := hcopied.freed hp hp64 ht
  have htmem : t.mem = mem := by
    rcases free_post hcopied.rep hcopied.total_lt hcopied.base ht with
      ⟨h0, _⟩ | ⟨_, _, _, _, _, _, _, _, hd⟩
    · exact absurd h0 hp
    · exact hd.mem
  have hzt : z ∈ extents t := (hfreed z hob.used).mpr ⟨hext ▸ hob.mem_extents, by omega⟩
  have hstep : Heap.step { s with mem := mem } (.call (.free (x.start + redzoneSize))) =
      .ok (0, t) := run_bind_eq_ok.mpr ⟨(), t, ht, rfl⟩
  obtain ⟨_, bs₂, lost₂, htidy, _⟩ :=
    hcopied.step (e := .call (.free (x.start + redzoneSize))) ⟨hp64, trivial⟩ hstep
  have hsize := h.getSize_eq hx
  have hsize' := htidy.getSize_eq hzt
  rw [wsub_of_le (by omega) (by unfold redzoneSize; omega)] at hsize hsize'
  refine ⟨⟨z, hzt, hob.used, rfl, by omega, ?_⟩, ⟨_, _, hsize, hsize', ?_, fun i hi => ?_⟩,
    fun _ y hy heq => ?_, fun y hy hyused hne => ?_⟩
  · -- the copy leaves the new redzones alone
    refine (dressed_iff_zone hzrz hzend).mpr fun k hk => ?_
    have hkb := hk.bounds hzrz
    have hout : x.len - redzoneSize * 2 ≤ wsub k (z.start + redzoneSize) := by
      unfold Zone redzoneSize at hk
      unfold redzoneSize wsub
      omega
    rw [htmem, ← hmem, memcpy_frame (by unfold redzoneSize; omega) (by omega) (by omega) hout,
      hob.mem, dress_apply hzrz hzend (by omega), if_pos hk]
  · rw [hz]
    unfold need redzoneSize
    omega
  · rw [htmem, ← hmem, memcpy_copies (by unfold redzoneSize; omega)
      (by unfold redzoneSize; omega) (by unfold redzoneSize; omega) (by omega), hob.mem,
      dress_apply hzrz hzend (by unfold redzoneSize at *; omega), if_neg]
    intro hzone
    have hkb := hzone.bounds hzrz
    unfold redzoneSize at *
    omega
  · obtain rfl : y = x := h.extent_unique hy hx (by omega)
    exact hcover y (hext ▸ hx') rfl
  · obtain ⟨hy', hyap⟩ := hob.others y hy hyused
    refine ⟨(hfreed y hyused).mpr ⟨hext ▸ hy', hne⟩, fun k hlo hhi => ?_⟩
    have hyend := h.end_lt hy
    unfold Extent.Apart at hyap
    rw [htmem]
    exact hframe k (by omega) (by omega)

end Moved

/-! ## The result -/

section

variable {size n : ℕ} {m s t : MemoryMgr} {bs : List Blk} {lost : List ℕ} {x : Extent}

/-- Where a block fits, the allocation returns. -/
theorem Tidy.alloc_returns (h : Tidy size m bs lost) (hn : 0 < n) (hn' : n < 2 ^ 63)
    (halloc : Allocatable m n) : (alloc n).Returns m := by
  obtain ⟨xs, e, ys, hsplit, hfits, hfirst, hslot⟩ := halloc
  have htot := h.total
  have hroom := h.room
  rw [h.rep.extents_eq] at hsplit
  obtain ⟨pre, c, post, rfl, rfl, rfl, -⟩ := layout_split hsplit
  have hpre : ∀ b ∈ pre, b.free = true → b.len < need n := by
    intro b hb hfree
    by_contra hlen
    obtain ⟨us, vs, rfl⟩ := List.append_of_mem hb
    exact hfirst ⟨m.heapBase + total us, b.len, b.free⟩ (mem_layout.mpr ⟨us, b, vs, rfl, rfl⟩)
      ⟨hfree, Nat.not_lt.mp hlen⟩
  obtain ⟨s, hs, -⟩ := alloc_hit h.unlocked h.rep (by omega) (by omega) h.base hn hn' hfits.1
    hfits.2 hpre hslot
  exact ⟨_, hs⟩

theorem realloc_run_moved {ptr q oldsize : ℕ}
    (htry : (tryRealloc ptr n).run m = .ok (false, m)) (halloc : (alloc n).run m = .ok (q, s))
    (hsize : getSize s ptr = .ok oldsize)
    (hfree : (free ptr).run { s with mem := memcpy s.mem q ptr oldsize } = .ok ((), t)) :
    (realloc ptr n).run m = .ok (q, t) := by
  refine run_bind_eq_ok.mpr ⟨false, m, htry, ?_⟩
  refine run_bind_eq_ok.mpr ⟨q, s, halloc, ?_⟩
  rw [run_bind, run_read]
  refine run_bind_eq_ok.mpr ⟨oldsize, s, run_lift_eq_ok.mpr ⟨hsize, rfl⟩, ?_⟩
  rw [run_bind, run_stmt]
  exact run_bind_eq_ok.mpr ⟨(), t, hfree, rfl⟩

/-- Reallocating a live pointer. -/
theorem Tidy.realloc_live (h : Tidy size m bs lost) (hheap : 16 ∣ m.heapBase) (hn : 0 < n)
    (hn' : n < 2 ^ 63) (hx : x ∈ extents m) (hused : x.free = false) (hlen : 144 ≤ x.len)
    (hdress : Dressed m.mem x.start x.len)
    (hsat : Satisfiable m (x.start + redzoneSize) n) :
    ∃ q s, (realloc (x.start + redzoneSize) n).run m = .ok (q, s) ∧
      Reallocated m (x.start + redzoneSize) n q s := by
  obtain ⟨hp64, hp⟩ := h.ptr_bounds hx
  have hsolid := blockSize_pos hn'
  obtain ⟨⟨r, s⟩, htry⟩ := h.tryRealloc_returns hx (h.start_dvd hheap hx)
  cases r with
  | true =>
    have hstep : Heap.step m (.call (.tryRealloc (x.start + redzoneSize) n)) = .ok (1, s) :=
      run_bind_eq_ok.mpr ⟨true, s, htry, rfl⟩
    obtain ⟨_, bs', lost', h', _⟩ :=
      h.step (e := .call (.tryRealloc (x.start + redzoneSize) n))
        ⟨⟨hp64, by omega⟩, hsolid⟩ hstep
    obtain ⟨len, hneed, hext⟩ := h.extended hn' hx hused htry
    exact ⟨_, s, run_bind_eq_ok.mpr ⟨true, s, htry, rfl⟩,
      hext.reallocated h h' hx hlen hdress hneed⟩
  | false =>
    rcases h.tryRealloc_post htry with ⟨h0, _⟩ | ⟨_, hfits, pre, b, post, hat, hres⟩
    · exact absurd h0 hp
    rcases hres with ⟨_, hshort, rfl⟩ | ⟨hr, _⟩ | ⟨hr, _⟩
    · have halloc : Allocatable s n := by
        refine hsat.resolve_left fun hgrow => ?_
        rw [h.fitsInPlace_of_grows hn' hgrow] at hfits
        cases hfits
      obtain ⟨⟨q, t⟩, hq⟩ := h.alloc_returns hn hn' halloc
      obtain ⟨z, hz, rfl, hob⟩ := h.obtained hn hn' hq
      obtain ⟨_, bs', lost', h', _⟩ :=
        h.step (e := .call (.alloc n)) ⟨by show n < 2 ^ 64; omega, hsolid⟩ hq
      have hxlen : x.len < need n := by
        obtain ⟨pre', b', post', hat', rfl⟩ := h.firstAt hx
        rw [wsub_redzone hp64, hat'.addr] at hat
        obtain ⟨_, rfl, _⟩ := hat.unique hat'.split rfl h.base h.total_lt
          (h.pos b (by rw [hat.split]; simp))
        rwa [blockSize_eq_need hn'] at hshort
      obtain ⟨u, hu, hre⟩ := hob.reallocated h h' hx hused hlen hdress hxlen hz
      have hsize := h'.getSize_eq (hob.others x hx hused).1
      have hxend := h.end_lt hx
      rw [wsub_of_le (by omega) (by unfold redzoneSize; omega)] at hsize
      exact ⟨_, u, realloc_run_moved htry hq hsize hu, hre⟩
    · cases hr
    · cases hr

end

/-- **Reallocation.** In every heap that requests without empty blocks can reach, for
every null or live pointer and every size from 1 to `2^63 - 1` that can be
satisfied, `realloc` honours its contract exactly when the pointer is not null. -/
theorem reallocContract_iff {heap size : ℕ} {buffer : ℕ → BitVec 64} {mem : Mem}
    {hist : List (Event × ℕ)} {m : MemoryMgr} (hpos : 0 < size) (hheap : 16 ∣ heap)
    (h16 : 16 ∣ size) (hroom : heap + size + redzoneSize < 2 ^ 64)
    (hrun : Runs step Event.Sized (init heap size buffer mem) hist m) {ptr n : ℕ}
    (hn : 0 < n) (hn' : n < 2 ^ 63) (hptr : ptr = 0 ∨ Live m ptr) (hsat : Satisfiable m ptr n) :
    ReallocContract m ptr n ↔ ptr ≠ 0 := by
  obtain ⟨rfl, bs, lost, h⟩ := (init_tidy hpos h16 hroom).runs hrun
  constructor
  · rintro ⟨hnull, _⟩ rfl
    have halloc : Allocatable m n := by
      refine hsat.resolve_left ?_
      rintro ⟨_, x, _, _, h0, _⟩
      unfold redzoneSize at h0
      omega
    obtain ⟨⟨q, s⟩, hq⟩ := h.alloc_returns hn hn' halloc
    obtain ⟨z, _, hz, _⟩ := h.obtained hn hn' hq
    have hsame := (hnull rfl).trans hq
    unfold redzoneSize at hz
    rcases realloc_cases hsame with ⟨_, h0⟩ | ⟨s₁, _, _, htry, _⟩
    · omega
    · -- `try_realloc` has a block, so it does not answer `false`
      rcases h.tryRealloc_post htry with ⟨_, p, hp, hr⟩ | ⟨hne, _⟩
      · have hp0 : p = 0 := by simpa using hr.symm
        rcases hp with ⟨h0, _⟩ | ⟨_, off, bs', hcut, _, hp⟩
        · omega
        · exact ptr_ne_zero h.room (h.total ▸ hcut.off_le) (hp.symm.trans hp0)
      · exact absurd rfl hne
  · intro hne
    obtain ⟨x, hx, hused, rfl, hlen, hdress⟩ := hptr.resolve_left hne
    exact ⟨fun h0 => absurd h0 hne,
      fun _ => h.realloc_live hheap hn hn' hx hused hlen hdress hsat⟩

/-- With a used block behind it, a block of 16 bytes has to move to grow to 100. -/
theorem reallocContract_page_heap : ∃ hist m, Runs step Event.Sized pageHeap hist m ∧
    Live m 4160 ∧ Satisfiable m 4160 100 ∧ ReallocContract m 4160 100 := by
  have hreplay : (replay step Event.Sized [] pageHeap
      [.call (.alloc 16), .call (.alloc 16)]).map
      (fun r => (extents r.2, decide (Live r.2 4160), decide (3 < r.2.bm.sz),
        r.2.bm.bit 3)) =
      some ([⟨4096, 144, false⟩, ⟨4240, 144, false⟩, ⟨4384, 3808, true⟩], true, true, false) := by
    decide +kernel
  obtain ⟨⟨hist, m⟩, hr, hres⟩ := Option.map_eq_some_iff.mp hreplay
  simp only [Prod.mk.injEq, decide_eq_true_eq] at hres
  obtain ⟨hext, hlive, hsz, hbit⟩ := hres
  have hrun := (Runs.nil pageHeap).replay hr
  have halloc : Allocatable m 100 :=
    ⟨[⟨4096, 144, false⟩, ⟨4240, 144, false⟩], ⟨4384, 3808, true⟩, [], hext, by decide,
      by decide, fun _ => ⟨3, hsz, hbit⟩⟩
  exact ⟨hist, m, hrun, hlive, .inr halloc, (reallocContract_iff (by decide) (by decide)
    (by decide) (by decide) hrun (by decide) (by decide) (.inr hlive)
    (.inr halloc)).mpr (by decide)⟩

/-- In a fresh heap `realloc(nullptr, 16)` returns null, where `alloc(16)` returns a
block. -/
theorem realloc_null_loses_block : ¬ ∀ hist m, Runs step Event.Typed pageHeap hist m →
    ∀ ptr n, 0 < n → n < 2 ^ 63 → ptr = 0 ∨ Live m ptr → Satisfiable m ptr n →
      ReallocContract m ptr n := by
  intro hcontract
  have heval : ((realloc 0 16).run pageHeap).toOption.map Prod.fst = some 0 ∧
      ((alloc 16).run pageHeap).toOption.map Prod.fst = some 4160 ∧
      extents pageHeap = [⟨4096, 4096, true⟩] ∧ 1 < pageHeap.bm.sz ∧
      pageHeap.bm.bit 1 = false := by decide
  obtain ⟨hre, hal, hext, hsz, hbit⟩ := heval
  have halloc : Allocatable pageHeap 16 :=
    ⟨[], ⟨4096, 4096, true⟩, [], hext, by decide, by simp, fun _ => ⟨1, hsz, hbit⟩⟩
  have hsame := (hcontract [] pageHeap (Runs.nil pageHeap) 0 16 (by decide) (by decide) (.inl rfl)
    (.inr halloc)).1 rfl
  rw [hsame, hal] at hre
  cases hre

end NeptunOS.Heap
