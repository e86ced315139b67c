import NeptunOS.Heap.Persist

/-!
# Aligned requests

`alloc_aligned` searches the list for the first free block with room for the
request behind a gap that brings the payload to a multiple of the alignment. If
there is such a block, enough link slots and something to allocate, the call
honours its contract. If there is none, its loop ends without a block and the
code behind the loop accounts for one all the same: it hands out the address
behind the heap.
-/

namespace NeptunOS.Heap

open Stepwise Stepwise.Prog Linked BlockList Function

/-! ## Blocks that can hold an aligned request -/

/-- Bytes from the start of the block to the first block start whose payload is a
multiple of `a`. -/
def Extent.gap (a : ℕ) (e : Extent) : ℕ := (a - (e.start + redzoneSize) % a) % a

/-- The block is free and has room for a request of `n` bytes whose payload is a
multiple of `a`. -/
def Extent.Hosts (n a : ℕ) (e : Extent) : Prop :=
  e.free = true ∧ ∃ start, e.start ≤ start ∧ a ∣ start + redzoneSize ∧
    start + need n ≤ e.start + e.len

/-- Links to create when the request is served from the block: one for the gap and
one for the rest. -/
def Extent.pieces (n a : ℕ) (e : Extent) : ℕ :=
  (if e.gap a = 0 then 0 else 1) + if e.gap a + need n = e.len then 0 else 1

variable {x a d : ℕ} {e : Extent}

theorem dvd_add_gap (x : ℕ) (ha : 0 < a) : a ∣ x + (a - x % a) % a := by
  have hlt := Nat.mod_lt x ha
  have hsum : x + (a - x % a) = a * (x / a + 1) := by
    have := Nat.div_add_mod x a
    rw [Nat.mul_add, Nat.mul_one]
    omega
  rw [Nat.dvd_iff_mod_eq_zero, Nat.add_mod_mod, hsum, Nat.mul_mod_right]

/-- The gap is the least number that leads to a multiple. -/
theorem gap_le (ha : 0 < a) (h : a ∣ x + d) : (a - x % a) % a ≤ d := by
  by_cases h0 : x % a = 0
  · rw [h0, Nat.sub_zero, Nat.mod_self]
    exact Nat.zero_le d
  · rw [Nat.mod_eq_of_lt (by omega)]
    by_contra hd
    rw [Nat.dvd_iff_mod_eq_zero, ← Nat.mod_add_mod, Nat.mod_eq_of_lt (by omega)] at h
    omega

theorem gap_unique (ha : 0 < a) (h : a ∣ x + d) (hd : d < a) : d = (a - x % a) % a := by
  have hle := gap_le ha h
  have hdvd := Nat.dvd_sub h (dvd_add_gap x ha)
  have hsub : x + d - (x + (a - x % a) % a) = d - (a - x % a) % a := by omega
  have := Nat.eq_zero_of_dvd_of_lt hdvd (by omega)
  omega

theorem Extent.hosts_iff {n : ℕ} (ha : 0 < a) :
    e.Hosts n a ↔ e.free = true ∧ e.gap a + need n ≤ e.len := by
  unfold Extent.Hosts Extent.gap
  refine and_congr_right fun _ => ?_
  constructor
  · rintro ⟨start, hle, hdvd, hroom⟩
    have hx : start + redzoneSize = e.start + redzoneSize + (start - e.start) := by omega
    rw [hx] at hdvd
    have := gap_le ha hdvd
    omega
  · intro hroom
    refine ⟨e.start + (a - (e.start + redzoneSize) % a) % a, Nat.le_add_right _ _, ?_, by omega⟩
    rw [Nat.add_right_comm]
    exact dvd_add_gap _ ha

/-! ## The test of the loop -/

/-- The alignments the interface admits. -/
def PowerOfTwo (a : ℕ) : Prop := ∃ k ≤ 31, a = 2 ^ k

theorem roundAlign_eq (ha : PowerOfTwo a) : roundAlign a = max a 16 := by
  obtain ⟨k, hk, rfl⟩ := ha
  have hall : ∀ k ≤ 31, roundAlign (2 ^ k) = max (2 ^ k) 16 := by decide
  exact hall k hk

theorem PowerOfTwo.max_dvd (ha : PowerOfTwo a) :
    max a 16 ∣ 2 ^ 64 ∧ (a ∣ 16 ∧ max a 16 = 16 ∨ 16 ∣ a ∧ max a 16 = a) := by
  obtain ⟨k, hk, rfl⟩ := ha
  have hall : ∀ k ≤ 31, max (2 ^ k) 16 ∣ 2 ^ 64 ∧
      (2 ^ k ∣ 16 ∧ max (2 ^ k) 16 = 16 ∨ 16 ∣ 2 ^ k ∧ max (2 ^ k) 16 = 2 ^ k) := by decide
  exact hall k hk

theorem alignFix_dvd (hx : x + redzoneSize < 2 ^ 64) (ha : 0 < a) (h64 : a ∣ 2 ^ 64) :
    a ∣ x + redzoneSize + alignFix x a := by
  unfold alignFix
  rw [wadd_of_lt hx]
  generalize x + redzoneSize = y at hx ⊢
  by_cases hw : y + (a - 1) < 2 ^ 64
  · have hle := (le_align ha hw).1
    have hlt := align_lt y a
    rw [wsub_of_le hlt hle, Nat.add_sub_cancel' hle]
    exact align_dvd y a
  · -- the sum wraps: the next multiple is `2^64` itself
    have hle : a ≤ 2 ^ 64 := Nat.le_of_dvd (by decide) h64
    have hzero : align y a = 0 := by
      have hsmall : wadd y (a - 1) < a := by
        unfold wadd
        omega
      rw [align, Nat.div_eq_of_lt hsmall, Nat.zero_mul]
    have hsum : y + wsub 0 y = 2 ^ 64 := by
      unfold wsub
      omega
    rw [hzero, hsum]
    exact h64

/-- On 16-byte boundaries the loop computes the gap. -/
theorem alignFix_eq_gap (ha : PowerOfTwo a) (h16 : 16 ∣ e.start)
    (hx : e.start + redzoneSize < 2 ^ 64) :
    alignFix e.start (roundAlign a) = e.gap a ∧ 16 ∣ e.gap a ∧
      isAligned (wadd e.start redzoneSize) (roundAlign a) = decide (e.gap a = 0) := by
  obtain ⟨h64, hcase⟩ := ha.max_dvd
  have hpos : 0 < max a 16 := by omega
  have hfix := gap_unique hpos (alignFix_dvd hx hpos h64) (alignFix_lt e.start hpos)
  have h16x : 16 ∣ e.start + redzoneSize := Nat.dvd_add h16 (by decide)
  have hgap : e.gap a = (max a 16 - (e.start + redzoneSize) % max a 16) % max a 16 := by
    rcases hcase with ⟨hdvd, hmax⟩ | ⟨_, hmax⟩
    · -- every payload is a multiple of a small alignment
      rw [hmax, Nat.mod_eq_zero_of_dvd h16x, Extent.gap, Nat.mod_eq_zero_of_dvd (hdvd.trans h16x)]
      simp
    · rw [hmax, Extent.gap]
  have hdvd16 : 16 ∣ max a 16 := by
    rcases hcase with ⟨_, hmax⟩ | ⟨hdvd, hmax⟩
    · rw [hmax]
    · rwa [hmax]
  rw [roundAlign_eq ha, hfix, hgap]
  refine ⟨rfl, ?_, ?_⟩
  · have hsum := hdvd16.trans (dvd_add_gap (e.start + redzoneSize) hpos)
    exact (Nat.dvd_add_right h16x).mp hsum
  · rw [wadd_of_lt hx, isAligned]
    congr 1
    rw [eq_iff_iff]
    constructor
    · intro h0
      rw [h0, Nat.sub_zero, Nat.mod_self]
    · intro h0
      have := dvd_add_gap (e.start + redzoneSize) hpos
      rw [h0, Nat.add_zero] at this
      exact Nat.mod_eq_zero_of_dvd this

theorem need_lt {n : ℕ} (hn : n < 2 ^ 63) : need n < 2 ^ 63 + 144 := by
  unfold need
  omega

theorem PowerOfTwo.pos (ha : PowerOfTwo a) : 0 < a ∧ a ≤ 2 ^ 31 := by
  obtain ⟨k, hk, rfl⟩ := ha
  exact ⟨Nat.two_pow_pos k, Nat.pow_le_pow_right (by decide) hk⟩

theorem Extent.gap_lt (ha : 0 < a) : e.gap a < a := Nat.mod_lt _ ha

/-- The tests of the loop decide whether the block can hold the request. -/
theorem alignedFit_eq {m : MemoryMgr} {n l : ℕ} (hl : m.length l = e.len) (hf : m.free l = e.free)
    (ha : PowerOfTwo a) (hn : n < 2 ^ 63) (h16 : 16 ∣ e.start)
    (hx : e.start + redzoneSize < 2 ^ 64) :
    alignedFit m (need n) (roundAlign a) l e.start =
      .ok (decide (e.free = true ∧ e.gap a + need n ≤ e.len)) := by
  obtain ⟨hfix, _, hal⟩ := alignFix_eq_gap ha h16 hx
  have hround : roundAlign a ≠ 0 := by
    rw [roundAlign_eq ha]
    omega
  have hgap : wadd (need n) (e.gap a) = e.gap a + need n := by
    have := need_lt hn
    have := ha.pos
    have := e.gap_lt this.1
    rw [wadd_of_lt (by omega), Nat.add_comm]
  unfold alignedFit
  rw [hl, hf, hal, hfix, hgap, if_neg hround]
  cases hfree : e.free with
  | false => rw [if_pos rfl, decide_eq_false (by simp)]
  | true =>
    rw [if_neg (by decide)]
    simp only [decide_eq_true_eq, true_and]
    split
    · rw [decide_eq_false (by omega)]
    · split
      · rw [decide_eq_true (by omega)]
      · split
        · rfl
        · rw [decide_eq_false (by omega)]

/-- A walk passes the blocks its test rejects. -/
theorem passes_of_forall {stop : ℕ → ℕ → Except Halt Bool} : ∀ {bs : List Blk} {addr : ℕ},
    addr + total bs < 2 ^ 64 →
    (∀ pre b post, bs = pre ++ b :: post → stop b.id (addr + total pre) = .ok false) →
    Passes stop addr bs
  | [], _, _, _ => trivial
  | b :: bs, addr, hend, hstop => by
    rw [total_cons] at hend
    refine ⟨by simpa using hstop [] b bs rfl, ?_⟩
    rw [wadd_of_lt (by omega)]
    refine passes_of_forall (by omega) fun pre c post hbs => ?_
    have := hstop (b :: pre) c post (by rw [hbs]; rfl)
    rwa [total_cons, ← Nat.add_assoc] at this

/-! ## The call returns -/

section Returns

variable {m : MemoryMgr} {bs pre post : List Blk} {c : Blk}

/-- The pool has a clear slot as long as there are fewer links than slots. -/
theorem Rep.slotLeft (h : Rep m bs) (hlen : bs.length < 64) : SlotLeft m := by
  by_contra hnone
  have hsub : List.range 64 ⊆ ids bs := by
    intro slot hslot
    refine (h.bits slot).mpr ⟨List.mem_range.mp hslot, ?_⟩
    by_contra hclear
    exact hnone ⟨slot, h.sz ▸ List.mem_range.mp hslot, by simpa using hclear⟩
  have := List.nodup_range.length_le_of_subset hsub
  simp only [List.length_range, ids, List.length_map] at this
  omega

theorem setNextOf_returns_bind {α : Type} {line : ℕ} {p v : Option ℕ} {k : Unit → Op α}
    (h : ∀ s, (k ()).Returns s) : Returns (setNextOf line p v >>= k) m := by
  cases p with
  | none => exact h _
  | some s => exact Returns.stmt_bind (h _)

theorem cutFront_returns {l fix : ℕ} (hslot : SlotLeft m) (h16 : 16 ∣ fix) :
    (cutFront l fix).Returns m := by
  unfold cutFront
  apply Returns.bind (createLink_returns hslot 225)
  intro k s _
  apply Returns.stmt_bind
  apply Returns.stmt_bind
  apply Returns.stmt_bind
  apply Returns.unless_bind
  · rw [not_not, isAligned, decide_eq_true_eq]
    exact Nat.mod_eq_zero_of_dvd h16
  apply Returns.read_bind
  apply setNextOf_returns_bind
  intro t
  apply Returns.stmt_bind
  apply Returns.stmt_bind
  apply Returns.stmt_bind
  exact Returns.when fun _ => Returns.stmt _ _

theorem linkRemaining_returns {l remaining : ℕ} (hslot : SlotLeft m) (h16 : 16 ∣ remaining) :
    (linkRemaining l remaining).Returns m := by
  unfold linkRemaining
  apply Returns.bind (createLink_returns hslot 257)
  intro k s _
  apply Returns.stmt_bind
  apply Returns.stmt_bind
  apply Returns.unless_bind
  · rw [not_not, isAligned, decide_eq_true_eq]
    exact Nat.mod_eq_zero_of_dvd h16
  apply Returns.read_bind
  apply setPrevOf_returns_bind
  apply Returns.stmt_bind
  apply Returns.stmt_bind
  exact Returns.stmt _ _

section

variable (h : Rep m (pre ++ c :: post))

include h

theorem carve_returns {size fix : ℕ} (hc : c.free = true)
    (hpos : 0 < fix) (hlen : c.len < 2 ^ 64) (hfit : fix + size ≤ c.len) (h16 : 16 ∣ fix)
    (h16' : 16 ∣ c.len - fix - size) (hrem : c.len - fix - size < 2 ^ 63)
    (hslots : (pre ++ c :: post).length + 1 + (if fix + size = c.len then 0 else 1) ≤ 64) :
    (carve c.id size fix).Returns m := by
  unfold carve
  apply Returns.bind (cutFront_returns (h.slotLeft (by omega)) h16)
  intro _ s hs
  obtain ⟨-, k, hrep, -⟩ := (cutFront_spec (B := anywhere) (fun _ _ _ => trivial)
    (fun _ _ _ => trivial) h hc hpos (by omega) hlen fun _ _ => trivial).2 _ s hs
  have hrep' : Rep s ((pre ++ [⟨k, fix, true⟩]) ++ { c with len := c.len - fix } :: post) := by
    simpa using hrep
  have hl : s.length c.id = c.len - fix := hrep'.length_eq
  have hr : wsub (s.length c.id) size = c.len - fix - size := by
    rw [hl]
    exact wsub_of_le (by omega) (by omega)
  apply Returns.read_bind
  rw [hr]
  apply Returns.unless_bind (not_not.mpr hrem)
  apply Returns.stmt_bind
  apply Returns.stmt_bind
  apply Returns.when
  intro hne
  apply linkRemaining_returns _ h16'
  rw [if_neg (by omega)] at hslots
  have hleft : SlotLeft s := hrep'.slotLeft (by
    simp only [List.length_append, List.length_cons, List.length_nil] at hslots ⊢
    omega)
  exact hleft

/-- What `alloc_aligned` does with the block its loop stopped at, `fix` bytes before
the next aligned place. -/
theorem placeAligned_at_spec {A fix size a : ℕ} {j : Option ℕ}
    (hc : c.free = true) (hlen : c.len < 2 ^ 64) (hA : A < 2 ^ 64) (hfix : alignFix A a = fix)
    (hal : isAligned (wadd A redzoneSize) a = decide (fix = 0)) (hsmall : fix < 2 ^ 63)
    (hsize : size + fix < 2 ^ 64) (hfit : fix + size ≤ c.len) :
    (placeAligned ⟨some c.id, j, A⟩ size a).Spec m anywhere fun address s =>
      address = wadd A fix ∧ (fix ≠ 0 → c.len - fix - size < 2 ^ 63) ∧
        ∃ lead tail, Spare lead ∧ total lead = fix ∧ Spare tail ∧
          fix + size + total tail = c.len ∧ 16 ∣ fix ∧
          Rep s (pre ++ (lead ++ ⟨c.id, size, false⟩ :: (tail ++ post))) ∧ SameData m s := by
  unfold placeAligned
  dsimp only
  rw [hal, hfix]
  by_cases h0 : fix = 0
  · subst h0
    apply Spec.bind (allocateIntoFree_spec (fun _ _ _ => trivial) h hlen size)
    rintro _ s ⟨_, tail, ht, hsum, hs, hdata⟩
    refine Spec.pure ⟨(wadd_zero hA).symm, fun h => absurd rfl h, [], tail, .inl rfl,
      rfl, ht, by omega, Nat.dvd_zero 16, by simpa using hs, hdata⟩
  · rw [if_neg (by simpa using h0)]
    apply Spec.bind (carve_spec (fun _ _ _ => trivial) (fun _ _ _ => trivial) h hc
      (Nat.pos_of_ne_zero h0) hsmall hlen (by omega)
      (by rw [wadd_of_lt hsize]; omega) fun _ _ => trivial)
    rintro _ s ⟨h16, hrem, k, tail, ht, hsum, hs, hdata⟩
    exact Spec.pure ⟨rfl, fun _ => hrem, [⟨k, fix, true⟩], tail,
      .inr ⟨_, rfl, rfl, Nat.pos_of_ne_zero h0⟩, by simp, ht, hsum, h16, by simpa using hs,
      hdata⟩

theorem placeAligned_at_returns {A fix size a : ℕ} {j : Option ℕ}
    (hc : c.free = true) (hlen : c.len < 2 ^ 64)
    (hfix : alignFix A a = fix)
    (hal : isAligned (wadd A redzoneSize) a = decide (fix = 0)) (hfit : fix + size ≤ c.len)
    (h16 : 16 ∣ fix) (h16' : 16 ∣ c.len - fix - size)
    (hrem : fix ≠ 0 → c.len - fix - size < 2 ^ 63)
    (hslots : (pre ++ c :: post).length + ((if fix = 0 then 0 else 1) +
      if fix + size = c.len then 0 else 1) ≤ 64) :
    (placeAligned ⟨some c.id, j, A⟩ size a).Returns m := by
  unfold placeAligned
  dsimp only
  rw [hal, hfix]
  by_cases h0 : fix = 0
  · subst h0
    refine Returns.bind (allocateIntoFree_returns (h.free_eq.trans hc) ?_ ?_ fun hne => ?_)
      fun _ _ _ => Returns.pure _
    · rw [h.length_eq]
      omega
    · rwa [h.length_eq]
    · rw [h.length_eq] at hne
      rw [if_pos rfl, if_neg (by omega)] at hslots
      exact h.slotLeft (by omega)
  · rw [if_neg (by simpa using h0)]
    rw [if_neg h0] at hslots
    exact Returns.bind (carve_returns h hc (Nat.pos_of_ne_zero h0) hlen hfit h16 h16'
      (hrem h0) (by omega)) fun _ _ _ => Returns.pure _

end

end Returns

/-! ## The search -/

theorem spare_length {bs : List Blk} (h : Spare bs) :
    bs.length = if total bs = 0 then 0 else 1 := by
  rcases h with rfl | ⟨b, rfl, _, hpos⟩
  · rfl
  · rw [if_neg (by simpa using hpos.ne'), List.length_singleton]

/-- The block at which a prefix of the list ends. -/
def extentAt (m : MemoryMgr) (pre : List Blk) (c : Blk) : Extent :=
  ⟨m.heapBase + total pre, c.len, c.free⟩

section Search

variable {size n a : ℕ} {m : MemoryMgr} {bs pre post : List Blk} {c : Blk} {lost : List ℕ}

theorem Tidy.total_dvd (h : Tidy size m (pre ++ post) lost) : 16 ∣ total pre := by
  have hg : Granular 0 pre := fun b hb => ⟨Nat.zero_le _, (h.tight b (by simp [hb])).2⟩
  exact hg.total_dvd

theorem Tidy.before_end (h : Tidy size m (pre ++ post) lost) :
    m.heapBase + total pre + total post + redzoneSize < 2 ^ 64 := by
  have htot := h.total
  have hroom := h.room
  rw [total_append] at htot
  omega

variable (ha : PowerOfTwo a) (hn : n < 2 ^ 63) (hheap : 16 ∣ m.heapBase)

include ha hn hheap

/-- The test at a block of the list. -/
theorem Tidy.alignedFit_eq (h : Tidy size m (pre ++ c :: post) lost) :
    alignedFit m (need n) (roundAlign a) c.id (m.heapBase + total pre) =
      .ok (decide ((extentAt m pre c).free = true ∧
        (extentAt m pre c).gap a + need n ≤ (extentAt m pre c).len)) := by
  have hend := h.before_end
  refine @Heap.alignedFit_eq a (extentAt m pre c) m n c.id h.rep.length_eq h.rep.free_eq ha hn
    (Nat.dvd_add hheap h.total_dvd) ?_
  show m.heapBase + total pre + redzoneSize < 2 ^ 64
  omega

/-- The loop passes blocks that cannot hold the request. -/
theorem Tidy.passes (h : Tidy size m (pre ++ post) lost)
    (hpre : ∀ xs b ys, pre = xs ++ b :: ys → ¬ (extentAt m xs b).Hosts n a) :
    Passes (alignedFit m (need n) (roundAlign a)) m.heapBase pre := by
  have hend := h.before_end
  refine passes_of_forall (by omega) fun xs b ys hxs => ?_
  have hsplit : Tidy size m (xs ++ b :: (ys ++ post)) lost := by simpa [hxs] using h
  rw [hsplit.alignedFit_eq ha hn hheap, decide_eq_false]
  rw [← Extent.hosts_iff ha.pos.1]
  exact hpre xs b ys hxs

theorem Tidy.scan_hit (h : Tidy size m (pre ++ c :: post) lost)
    (hhost : (extentAt m pre c).Hosts n a)
    (hpre : ∀ xs b ys, pre = xs ++ b :: ys → ¬ (extentAt m xs b).Hosts n a) :
    scan m (alignedFit m (need n) (roundAlign a)) =
      .ok ⟨some c.id, endOf m.first (ids pre), wadd m.heapBase (total pre)⟩ := by
  have hend := h.before_end
  have hlen := h.rep.length_le
  refine walk_hit h.rep.chain (h.passes ha hn hheap hpre) h.base ?_ ?_
  · rw [wadd_of_lt (by omega), h.alignedFit_eq ha hn hheap,
      decide_eq_true ((Extent.hosts_iff ha.pos.1).mp hhost)]
  · simp only [List.length_append, List.length_cons] at hlen
    omega

theorem Tidy.scan_none (h : Tidy size m bs lost) (hnone : ∀ e ∈ extents m, ¬ e.Hosts n a) :
    scan m (alignedFit m (need n) (roundAlign a)) =
      .ok ⟨none, endOf m.first (ids bs), wadd m.heapBase (total bs)⟩ := by
  have h' : Tidy size m (bs ++ []) lost := by simpa using h
  refine walk_miss h.rep.chain (h'.passes ha hn hheap fun xs b ys hxs => ?_) h.base
    h.rep.length_le
  refine hnone _ ?_
  rw [h.rep.extents_eq]
  exact mem_layout.mpr ⟨xs, b, ys, hxs, rfl⟩

end Search

/-- The call from where its loop has stopped. -/
theorem allocAligned_run {n : ℕ} {m : MemoryMgr} {cur : Cursor} (hlock : m.locked = false)
    (hn : n < 2 ^ 63) (hscan : scan m (alignedFit m (need n) (roundAlign a)) = .ok cur) :
    (allocAligned n a).run m =
      ((placeAligned cur (need n) (roundAlign a) >>= finishAlloc 282 286 (need n)).run
        { m with locked := true }).map fun r => (r.1, { r.2 with locked := false }) := by
  have hlocked : scan { m with locked := true }
      (alignedFit { m with locked := true } (need n) (roundAlign a)) = .ok cur :=
    (@walk_congr m _ { m with locked := true } rfl rfl _ _ _ _).trans hscan
  rw [allocAligned, locking_run hlock, blockSize_eq_need hn]
  rw [run_bind, run_read]
  dsimp only
  rw [hlocked, run_bind, run_lift_ok]

section Hit

variable {size n a : ℕ} {m : MemoryMgr} {pre post : List Blk} {c : Blk} {lost : List ℕ}

/-- The call at the first block that can hold the request: what it needs to
return, and what it returns. -/
theorem Tidy.allocAligned_hit (ha : PowerOfTwo a) (hn : n < 2 ^ 63) (hheap : 16 ∣ m.heapBase)
    (h : Tidy size m (pre ++ c :: post) lost) (hhost : (extentAt m pre c).Hosts n a)
    (hpre : ∀ xs b ys, pre = xs ++ b :: ys → ¬ (extentAt m xs b).Hosts n a) :
    ((allocAligned n a).Returns m ↔
      (pre ++ c :: post).length + (extentAt m pre c).pieces n a ≤ 64 ∧
        ((extentAt m pre c).gap a ≠ 0 →
          c.len - (extentAt m pre c).gap a - need n < 2 ^ 63)) ∧
    ∀ p s, (allocAligned n a).run m = .ok (p, s) →
      p = m.heapBase + total pre + (extentAt m pre c).gap a + redzoneSize ∧
        ∃ bs', Cut (need n) (pre ++ c :: post) (total pre + (extentAt m pre c).gap a) bs' ∧
          AllocDone m (need n) (wadd m.heapBase (total pre + (extentAt m pre c).gap a)) bs' s := by
  have hend := h.before_end
  rw [total_cons] at hend
  have hstart : (extentAt m pre c).start + redzoneSize < 2 ^ 64 := by
    show m.heapBase + total pre + redzoneSize < 2 ^ 64
    omega
  obtain ⟨hfix, h16, hal⟩ := alignFix_eq_gap ha (Nat.dvd_add hheap h.total_dvd) hstart
  obtain ⟨hfree, hfit⟩ := (Extent.hosts_iff ha.pos.1).mp hhost
  have hgap := (extentAt m pre c).gap_lt ha.pos.1
  have ha31 := ha.pos.2
  have hrun := allocAligned_run h.unlocked hn (h.scan_hit ha hn hheap hhost hpre)
  have hpieces : (extentAt m pre c).pieces n a = (if (extentAt m pre c).gap a = 0 then 0 else 1) +
      if (extentAt m pre c).gap a + need n = c.len then 0 else 1 := rfl
  rw [hpieces]
  have hA : wadd m.heapBase (total pre) = (extentAt m pre c).start := wadd_of_lt (by omega)
  have hc : c.free = true := hfree
  have hfit' : (extentAt m pre c).gap a + need n ≤ c.len := hfit
  generalize (extentAt m pre c).gap a = fix at *
  rw [← hA] at hfix hal
  have hrep : Rep { m with locked := true } (pre ++ c :: post) :=
    h.rep.congr rfl rfl rfl rfl rfl rfl
  have h16' : 16 ∣ c.len - fix - need n := by
    have hclen := (h.tight c (by simp)).2
    unfold need
    omega
  have hspec : Spec (placeAligned ⟨some c.id, endOf m.first (ids pre),
        wadd m.heapBase (total pre)⟩ (need n) (roundAlign a) >>= finishAlloc 282 286 (need n))
      { m with locked := true } anywhere fun p s =>
        ((pre ++ c :: post).length + ((if fix = 0 then 0 else 1) +
            if fix + need n = c.len then 0 else 1) ≤ 64 ∧
          (fix ≠ 0 → c.len - fix - need n < 2 ^ 63)) ∧
        p = m.heapBase + total pre + fix + redzoneSize ∧
        ∃ bs', Cut (need n) (pre ++ c :: post) (total pre + fix) bs' ∧
          AllocDone { m with locked := true } (need n) (wadd m.heapBase (total pre + fix)) bs'
            s := by
    apply Spec.bind (placeAligned_at_spec hrep hc (by omega) (wadd_lt _ _) hfix hal
      (by omega) (by omega) hfit')
    rintro _ s ⟨rfl, hrem, lead, tail, hl, hlead, ht, hsum, _, hs, hdata⟩
    apply (finishAlloc_spec (B := anywhere) hs hdata (fun _ => trivial) (fun _ => trivial)
      (fun _ => trivial) fun _ _ => trivial).mono fun _ _ hb => hb
    rintro p t ⟨rfl, hd⟩
    rw [wadd_assoc] at hd ⊢
    refine ⟨⟨?_, hrem⟩, ?_, _, ?_, hd⟩
    · have hlen := hs.toPool.length_le hs.nodup
      have hl' := spare_length hl
      have ht' := spare_length ht
      rw [hlead] at hl'
      have htail : total tail = 0 ↔ fix + need n = c.len := by omega
      simp only [htail] at ht'
      simp only [ids, List.length_map, List.length_append, List.length_cons] at hlen ⊢
      omega
    · rw [wadd_assoc, wadd_of_lt (by omega)]
      omega
    · have hcut := @Cut.mk (need n) pre post lead tail c hc hl ht (by rwa [hlead])
        (by rw [hlead]; exact hsum)
      rwa [hlead] at hcut
  constructor
  · constructor
    · rintro ⟨⟨p, s⟩, hr⟩
      rw [hrun] at hr
      obtain ⟨⟨q, t⟩, hbody, _⟩ := map_eq_ok.mp hr
      exact (hspec.2 q t hbody).1
    · rintro ⟨hslots, hrem⟩
      have hret := placeAligned_at_returns (j := endOf m.first (ids pre)) hrep hc (by omega)
        hfix hal hfit' h16 h16' hrem hslots
      obtain ⟨r, hr⟩ := Returns.bind hret
        fun address s _ => finishAlloc_returns 282 286 (need n) address
      rw [Returns, hrun, hr]
      exact ⟨_, rfl⟩
  · intro p s hr
    rw [hrun] at hr
    obtain ⟨⟨q, t⟩, hbody, heq⟩ := map_eq_ok.mp hr
    cases heq
    obtain ⟨_, hp, bs', hcut, hd⟩ := hspec.2 q t hbody
    exact ⟨hp, bs', hcut, hd.relock h.unlocked⟩

end Hit

/-- With no block that can hold the request, the call returns the address behind the
heap. -/
theorem Tidy.allocAligned_none {size n : ℕ} {m : MemoryMgr} {bs : List Blk} {lost : List ℕ}
    (ha : PowerOfTwo a) (hn : n < 2 ^ 63) (hheap : 16 ∣ m.heapBase) (h : Tidy size m bs lost)
    (hnone : ∀ e ∈ extents m, ¬ e.Hosts n a) :
    ∃ s, (allocAligned n a).run m = .ok (m.heapBase + size + redzoneSize, s) := by
  have hroom := h.room
  have hp : wadd (wadd m.heapBase (total bs)) redzoneSize = m.heapBase + size + redzoneSize := by
    rw [h.total, wadd_assoc, wadd_of_lt] <;> omega
  rw [allocAligned_run h.unlocked hn (h.scan_none ha hn hheap hnone), ← hp]
  exact ⟨_, rfl⟩

/-! ## The contract -/

/-- However the run goes on, as long as `p` is not released and its redzones are
intact, `free(p)` returns. -/
def Freeable (p : ℕ) (s : MemoryMgr) : Prop :=
  ∀ hist t, Runs step Event.Sized s hist t → (∀ y ∈ hist, ¬ Releases p y) →
    (∃ x ∈ extents t, p = x.start + redzoneSize ∧ Dressed t.mem x.start x.len) →
    (free p).Returns t

/-- The pointer `p` is aligned and belongs to a used block of `s` that lies in the
heap, is long enough and meets no block that was used in `m`. -/
def Allotted (heap size : ℕ) (m : MemoryMgr) (n a p : ℕ) (s : MemoryMgr) : Prop :=
  a ∣ p ∧ ∃ x ∈ extents s, x.free = false ∧ p = x.start + redzoneSize ∧ need n ≤ x.len ∧
    heap ≤ x.start ∧ x.start + x.len ≤ heap + size ∧
    ∀ y ∈ extents m, y.free = false → x.Apart y

/-- What a caller of `alloc_aligned(n, a)` may expect in the heap `m`. -/
def AlignedContract (heap size : ℕ) (m : MemoryMgr) (n a : ℕ) : Prop :=
  ((∃ e ∈ extents m, e.Hosts n a) →
    ∃ p s, (allocAligned n a).run m = .ok (p, s) ∧ Allotted heap size m n a p s ∧
      Freeable p s) ∧
  ((∀ e ∈ extents m, ¬ e.Hosts n a) →
    ∀ p s, (allocAligned n a).run m = .ok (p, s) → p = 0 ∧ SameBooks m s)

/-- The request is not empty and some block can hold it. For the first such block
the pool has the links to cut it, and the rest behind a gap has a length that is
positive as a signed number. -/
def Servable (m : MemoryMgr) (n a : ℕ) : Prop :=
  0 < n ∧ ∃ xs e ys, extents m = xs ++ e :: ys ∧ e.Hosts n a ∧ (∀ x ∈ xs, ¬ x.Hosts n a) ∧
    (extents m).length + e.pieces n a ≤ 64 ∧
    (e.gap a ≠ 0 → e.len - e.gap a - need n < 2 ^ 63)

section Contract

variable {size n a : ℕ} {m s : MemoryMgr} {bs : List Blk} {lost : List ℕ}
  {xs ys : List Extent} {e : Extent}

/-- The call at the first block that can hold the request. -/
theorem Tidy.allocAligned_first (ha : PowerOfTwo a) (hn : n < 2 ^ 63)
    (hheap : 16 ∣ m.heapBase) (h : Tidy size m bs lost) (hsplit : extents m = xs ++ e :: ys)
    (hhost : e.Hosts n a) (hfirst : ∀ x ∈ xs, ¬ x.Hosts n a) :
    ((allocAligned n a).Returns m ↔ (extents m).length + e.pieces n a ≤ 64 ∧
      (e.gap a ≠ 0 → e.len - e.gap a - need n < 2 ^ 63)) ∧
    ∀ p s, (allocAligned n a).run m = .ok (p, s) → Allotted m.heapBase size m n a p s ∧
      ∃ x ∈ extents s, x.free = false ∧ p = x.start + redzoneSize ∧ x.len = need n ∧
        Dressed s.mem x.start x.len := by
  have hroom := h.room
  have htot := h.total
  rw [h.rep.extents_eq] at hsplit ⊢
  rw [layout_length]
  obtain ⟨pre, c, post, rfl, rfl, rfl, -⟩ := layout_split hsplit
  have hpre : ∀ xs b ys, pre = xs ++ b :: ys → ¬ (extentAt m xs b).Hosts n a :=
    fun xs b ys hxs => hfirst _ (mem_layout.mpr ⟨xs, b, ys, hxs, rfl⟩)
  obtain ⟨hret, hrun⟩ := h.allocAligned_hit ha hn hheap hhost hpre
  refine ⟨hret, fun p s hs => ?_⟩
  obtain ⟨hp, bs', hcut, hd⟩ := hrun p s hs
  have hend := hcut.end_le
  have hneed : redzoneSize ≤ need n := by
    unfold redzoneSize need
    omega
  have hx : (⟨m.heapBase + (total pre + (extentAt m pre c).gap a), need n, false⟩ : Extent) ∈
      extents s := by
    rw [hd.rep.extents_eq, hd.heapBase]
    exact (mem_layout_used rfl).mpr ⟨_, hcut.mem_usedAt.mpr (.inl rfl), rfl⟩
  have hstart : p = m.heapBase + (total pre + (extentAt m pre c).gap a) + redzoneSize := by
    omega
  refine ⟨⟨?_, _, hx, rfl, hstart, Nat.le_refl _, Nat.le_add_right _ _, ?_, ?_⟩,
    _, hx, rfl, hstart, rfl, ?_⟩
  · rw [hp, Nat.add_right_comm]
    exact dvd_add_gap _ ha.pos.1
  · dsimp only
    omega
  · intro y hy hused
    rw [h.rep.extents_eq] at hy
    obtain ⟨f, hf, rfl⟩ := (mem_layout_used hused).mp hy
    have hapart := hcut.apart hf
    unfold Extent.Apart
    dsimp only
    omega
  · have hdress := @dressed_dress m.mem m.heapBase _ _ hneed (by omega : total pre +
      (extentAt m pre c).gap a + need n < 2 ^ 64)
    rw [← hd.mem, wadd_of_lt (by omega)] at hdress
    exact hdress

/-- A block of at least 144 bytes can be freed later. -/
theorem Tidy.freeable {x : Extent} (h : Tidy size s bs lost) (hx : x ∈ extents s)
    (hused : x.free = false) (hlen : 144 ≤ x.len) : Freeable (x.start + redzoneSize) s := by
  rintro hist t hrun hrel ⟨z, hz, hptr, hdress⟩
  obtain ⟨_, bs', lost', h'⟩ := h.runs hrun
  obtain ⟨y, hy, hyused, hystart, hylen⟩ := h.runs_stays hrun hx hused hrel
  obtain rfl : z = y := h'.extent_unique hz hy (by omega)
  obtain ⟨hp64, hp⟩ := h.ptr_bounds hx
  exact (h'.free_returns_iff hp hp64).mpr ⟨z, hz, hyused, hptr, hlen.trans hylen, hdress⟩

theorem need_ge_iff : 144 ≤ need n ↔ 0 < n := by
  unfold need
  omega

theorem exists_first_host (h : ∃ e ∈ extents m, e.Hosts n a) :
    ∃ xs e ys, extents m = xs ++ e :: ys ∧ e.Hosts n a ∧ ∀ x ∈ xs, ¬ x.Hosts n a := by
  classical
  obtain ⟨e, he, hhost⟩ := h
  have hsome : ((extents m).find? fun x => decide (x.Hosts n a)).isSome := by
    rw [List.find?_isSome]
    exact ⟨e, he, by simpa using hhost⟩
  obtain ⟨f, hf⟩ := Option.isSome_iff_exists.mp hsome
  obtain ⟨hfhost, xs, ys, hsplit, hfirst⟩ := List.find?_eq_some_iff_append.mp hf
  exact ⟨xs, f, ys, hsplit, by simpa using hfhost, fun x hx => by simpa using hfirst x hx⟩

end Contract

/-- **Aligned requests.** In every heap that requests without empty blocks can
reach, for every size below `2^63` and every power of two up to `2^31`,
`alloc_aligned` honours its contract exactly when the request is servable. -/
theorem alignedContract_iff {heap size : ℕ} {buffer : ℕ → BitVec 64} {mem : Mem}
    {hist : List (Event × ℕ)} {m : MemoryMgr} (hpos : 0 < size) (hheap : 16 ∣ heap)
    (h16 : 16 ∣ size) (hroom : heap + size + redzoneSize < 2 ^ 64)
    (hrun : Runs step Event.Sized (init heap size buffer mem) hist m) {n a : ℕ}
    (hn : n < 2 ^ 63) (ha : PowerOfTwo a) :
    AlignedContract heap size m n a ↔ Servable m n a := by
  obtain ⟨rfl, bs, lost, h⟩ := (init_tidy hpos h16 hroom).runs hrun
  have hsized : Event.Sized m (.call (.allocAligned n a)) := by
    refine ⟨⟨by omega, ?_⟩, blockSize_pos hn⟩
    have := ha.pos.2
    omega
  constructor
  · rintro ⟨hserved, hrefused⟩
    by_cases hsome : ∃ e ∈ extents m, e.Hosts n a
    · obtain ⟨p, s, hs, -, hfree⟩ := hserved hsome
      obtain ⟨xs, e, ys, hsplit, hhost, hfirst⟩ := exists_first_host hsome
      obtain ⟨hret, hall⟩ := h.allocAligned_first ha hn hheap hsplit hhost hfirst
      obtain ⟨hslots, hrem⟩ := hret.mp ⟨_, hs⟩
      obtain ⟨_, x, hx, hused, hptr, hlen, hdress⟩ := hall p s hs
      refine ⟨?_, xs, e, ys, hsplit, hhost, hfirst, hslots, hrem⟩
      -- the new block can be freed at once, so it has room for 16 bytes
      obtain ⟨_, bs', lost', h', _⟩ := h.step hsized hs
      obtain ⟨hp64, hp⟩ := h'.ptr_bounds hx
      rw [hptr] at hfree
      have hnow := hfree [] s (Runs.nil s) (by simp) ⟨x, hx, rfl, hdress⟩
      obtain ⟨z, hz, _, hptr', hzlen, _⟩ := (h'.free_returns_iff hp hp64).mp hnow
      obtain rfl : z = x := h'.extent_unique hz hx (by omega)
      exact need_ge_iff.mp (hlen ▸ hzlen)
    · have hnone : ∀ e ∈ extents m, ¬ e.Hosts n a := fun e he hhost => hsome ⟨e, he, hhost⟩
      obtain ⟨s, hs⟩ := h.allocAligned_none ha hn hheap hnone
      have := (hrefused hnone _ s hs).1
      unfold redzoneSize at this
      omega
  · rintro ⟨hpos', xs, e, ys, hsplit, hhost, hfirst, hslots, hrem⟩
    obtain ⟨hret, hall⟩ := h.allocAligned_first ha hn hheap hsplit hhost hfirst
    constructor
    · intro _
      obtain ⟨⟨p, s⟩, hs⟩ := hret.mpr ⟨hslots, hrem⟩
      obtain ⟨hallot, x, hx, hused, rfl, hlen, _⟩ := hall p s hs
      obtain ⟨_, bs', lost', h', _⟩ := h.step hsized hs
      refine ⟨_, s, hs, hallot, h'.freeable hx hused ?_⟩
      rw [hlen]
      exact need_ge_iff.mpr hpos'
    · intro hnone
      exact absurd hhost (hnone e (by rw [hsplit]; simp))

/-- Behind a block of 144 bytes a page-sized heap has room for a block whose payload
is at a multiple of 512. -/
theorem alignedContract_page_heap : ∃ hist m, Runs step Event.Sized pageHeap hist m ∧
    Servable m 16 512 ∧ AlignedContract 4096 4096 m 16 512 := by
  have hreplay : (replay step Event.Sized [] pageHeap [.call (.alloc 16)]).map
      (fun r => extents r.2) = some [⟨4096, 144, false⟩, ⟨4240, 3952, true⟩] := by
    decide
  obtain ⟨⟨hist, m⟩, hr, hext⟩ := Option.map_eq_some_iff.mp hreplay
  dsimp only at hext
  have hrun := (Runs.nil pageHeap).replay hr
  have hserve : Servable m 16 512 := by
    refine ⟨by decide, [⟨4096, 144, false⟩], ⟨4240, 3952, true⟩, [], hext,
      (Extent.hosts_iff (by decide)).mpr (by decide), ?_, by rw [hext]; decide, by decide⟩
    rintro x hx ⟨hfree, _⟩
    obtain rfl := List.mem_singleton.mp hx
    cases hfree
  exact ⟨hist, m, hrun, hserve, (alignedContract_iff (by decide) (by decide) (by decide)
    (by decide) hrun (by decide) ⟨9, by decide, rfl⟩).mpr hserve⟩

/-- In a fresh heap of one page, 5000 bytes fit nowhere. The call returns a pointer
behind the heap. -/
theorem aligned_request_runs_off : ¬ ∀ hist m, Runs step Event.Typed pageHeap hist m →
    ∀ n a, n < 2 ^ 63 → PowerOfTwo a → AlignedContract 4096 4096 m n a := by
  intro hcontract
  have hrefused := (hcontract [] pageHeap (Runs.nil pageHeap) 5000 16 (by decide)
    ⟨4, by decide, rfl⟩).2
  have heval : ((allocAligned 5000 16).run pageHeap).toOption.map Prod.fst = some 8256 ∧
      extents pageHeap = [⟨4096, 4096, true⟩] := by decide
  obtain ⟨⟨p, s⟩, hs, rfl⟩ := Option.map_eq_some_iff.mp heval.1
  have hnull := hrefused (fun e he => ?_) _ s (eq_ok_of_toOption hs)
  · exact absurd hnull.1 (by decide)
  · rw [heval.2, List.mem_singleton] at he
    rw [he, Extent.hosts_iff (by decide)]
    decide

end NeptunOS.Heap
