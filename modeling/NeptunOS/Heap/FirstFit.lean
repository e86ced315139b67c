import NeptunOS.Heap.Invariants

/-!
# First fit

`alloc` has no address to go by: it sums lengths along the list until it meets
a free block that is long enough. In every heap a run can reach, that sum is
the address of the lowest such block, and the call cuts its front off, gives
back a pointer behind the first redzone and leaves all other blocks where they
are. Where no block is long enough the walk ends in `nullptr` and the call
faults.
-/

namespace NeptunOS.Heap

open Stepwise Linked BlockList Function

/-! ## Extents -/

/-- A block as a range of addresses. -/
structure Extent where
  start : ℕ
  len : ℕ
  free : Bool
deriving DecidableEq, Repr

/-- Consecutive blocks from the address `a` on. -/
def layout (a : ℕ) : List (ℕ × Bool) → List Extent
  | [] => []
  | (len, free) :: bs => ⟨a, len, free⟩ :: layout (a + len) bs

/-- The blocks of a heap, with their addresses. -/
def extents (m : MemoryMgr) : List Extent := layout m.heapBase (blocks m)

/-- Bytes of a block that serves a request of `n` bytes: whole units of 16 and
two redzones. -/
def need (n : ℕ) : ℕ := (n + 15) / 16 * 16 + 128

/-- The block can serve a request of `n` bytes. -/
def Extent.Fits (n : ℕ) (e : Extent) : Prop := e.free = true ∧ need n ≤ e.len

instance (n : ℕ) (e : Extent) : Decidable (e.Fits n) :=
  inferInstanceAs (Decidable (e.free = true ∧ need n ≤ e.len))

/-- One of the blocks ends before the other starts. -/
def Extent.Apart (e x : Extent) : Prop :=
  e.start + e.len ≤ x.start ∨ x.start + x.len ≤ e.start

/-- What is left of a free block once `n` bytes have been served from it. -/
def Extent.rest (n : ℕ) (e : Extent) : List Extent :=
  if e.len = need n then [] else [⟨e.start + need n, e.len - need n, true⟩]

/-- A pool slot is clear. -/
def SlotLeft (m : MemoryMgr) : Prop := ∃ slot < m.bm.sz, m.bm.bit slot = false

theorem layout_append : ∀ (a : ℕ) (xs ys : List Blk),
    layout a (shape (xs ++ ys)) = layout a (shape xs) ++ layout (a + total xs) (shape ys)
  | a, [], ys => by simp [layout]
  | a, b :: xs, ys => by
    rw [List.cons_append, shape_cons, shape_cons, layout, layout,
      layout_append (a + b.len) xs ys, total_cons, Nat.add_assoc, List.cons_append]

theorem mem_layout {e : Extent} : ∀ {a : ℕ} {bs : List Blk}, e ∈ layout a (shape bs) ↔
      ∃ pre b post, bs = pre ++ b :: post ∧ e = ⟨a + total pre, b.len, b.free⟩
  | a, [] => by simp [layout]
  | a, b :: bs => by
    rw [shape_cons, layout, List.mem_cons, mem_layout]
    constructor
    · rintro (rfl | ⟨pre, c, post, rfl, rfl⟩)
      · exact ⟨[], b, bs, rfl, rfl⟩
      · exact ⟨b :: pre, c, post, rfl, by simp [Nat.add_assoc]⟩
    · rintro ⟨_ | ⟨d, pre⟩, c, post, heq, rfl⟩
      · obtain ⟨rfl, rfl⟩ := List.cons.inj heq
        exact .inl rfl
      · obtain ⟨rfl, rfl⟩ := List.cons.inj heq
        exact .inr ⟨pre, c, post, rfl, by simp [Nat.add_assoc]⟩

theorem layout_length (a : ℕ) (bs : List Blk) : (layout a (shape bs)).length = bs.length := by
  induction bs generalizing a with
  | nil => rfl
  | cons b bs ih => rw [shape_cons, layout, List.length_cons, List.length_cons, ih]

theorem layout_split : ∀ {a : ℕ} {bs : List Blk} {xs ys : List Extent} {e : Extent},
    layout a (shape bs) = xs ++ e :: ys →
    ∃ pre c post, bs = pre ++ c :: post ∧ xs = layout a (shape pre) ∧
      e = ⟨a + total pre, c.len, c.free⟩ ∧ ys = layout (a + total pre + c.len) (shape post)
  | a, [], xs, ys, e, h => by simp [layout] at h
  | a, b :: bs, [], ys, e, h => by
    rw [shape_cons, layout] at h
    obtain ⟨rfl, rfl⟩ := List.cons.inj h
    exact ⟨[], b, bs, rfl, rfl, rfl, rfl⟩
  | a, b :: bs, x :: xs, ys, e, h => by
    rw [shape_cons, layout, List.cons_append] at h
    obtain ⟨rfl, hrest⟩ := List.cons.inj h
    obtain ⟨pre, c, post, rfl, rfl, rfl, rfl⟩ := layout_split hrest
    exact ⟨b :: pre, c, post, rfl, rfl, by rw [total_cons, Nat.add_assoc],
      by rw [total_cons, Nat.add_assoc a]⟩

theorem Rep.extents_eq {m : MemoryMgr} {bs : List Blk} (h : Rep m bs) :
    extents m = layout m.heapBase (shape bs) := by
  rw [extents, h.blocks_eq]

theorem blockSize_eq_need {n : ℕ} (hn : n < 2 ^ 63) : blockSize n = need n := by
  unfold blockSize need align wadd minAlloc redzoneSize
  omega

/-! ## The call returns -/

section Returns

variable {m : MemoryMgr} {bs pre post : List Blk} {c : Blk} {n : ℕ}

theorem createLink_returns (h : SlotLeft m) (line : ℕ) : (createLink line).Returns m := by
  obtain ⟨slot, hslot, hclear⟩ := h
  obtain ⟨⟨idx, bm⟩, hr⟩ := Bitmap.findAndSetMultiple_zero_ok m.bm Nat.one_pos
  unfold createLink
  apply Prog.Returns.read_bind
  apply Prog.Returns.lift_bind hr
  cases idx with
  | none =>
    -- the search would have found `slot`
    obtain ⟨_, _, hnone⟩ := Bitmap.findAndSetMultiple_zero hr
    refine absurd (fun k hk hk' => ?_) (hnone slot (Nat.zero_le _) hslot)
    rwa [show k = slot by omega]
  | some k => exact Prog.Returns.stmt_bind (Prog.Returns.pure k)

theorem setPrevOf_returns_bind {α : Type} {line : ℕ} {p v : Option ℕ} {k : Unit → Op α}
    (h : (k ()).Returns { m with prev := fun x => if p = some x then v else m.prev x }) :
    Prog.Returns (setPrevOf line p v >>= k) m := by
  cases p with
  | none => exact h
  | some s =>
    apply Prog.Returns.stmt_bind
    have hprev : update m.prev s v = fun x => if some s = some x then v else m.prev x := by
      funext x
      rw [update_apply]
      simp [eq_comm]
    rw [hprev]
    exact h

theorem splitOff_returns (h : SlotLeft m) (current size rem : ℕ) :
    (splitOff current size rem).Returns m := by
  unfold splitOff
  apply Prog.Returns.bind (createLink_returns h 124)
  intro k s _
  apply Prog.Returns.stmt_bind
  apply Prog.Returns.stmt_bind
  apply Prog.Returns.stmt_bind
  apply Prog.Returns.stmt_bind
  apply Prog.Returns.stmt_bind
  apply Prog.Returns.read_bind
  exact setPrevOf_returns_bind (Prog.Returns.stmt _ _)

theorem allocateIntoFree_returns {current size : ℕ} (hfree : m.free current = true)
    (hsize : size ≤ m.length current) (hlen : m.length current < 2 ^ 64)
    (hslot : m.length current ≠ size → SlotLeft m) :
    (allocateIntoFree (some current) size 0).Returns m := by
  have hrem : wsub (wsub (m.length current) size) 0 = m.length current - size := by
    rw [wsub_of_le hlen hsize, wsub_of_le (by omega) (Nat.zero_le _), Nat.sub_zero]
  unfold allocateIntoFree
  apply Prog.Returns.read_bind
  apply Prog.Returns.unless_bind (not_not.mpr hfree)
  apply Prog.Returns.stmt_bind
  apply Prog.Returns.unless_bind (not_not.mpr hsize)
  apply Prog.Returns.unless_bind (not_not.mpr (Nat.zero_le _))
  apply Prog.Returns.when
  intro hne
  have hleft : SlotLeft { m with free := update m.free current false } := hslot (by omega)
  exact splitOff_returns hleft _ _ _

theorem finishAlloc_returns (acct rz size address : ℕ) :
    (finishAlloc acct rz size address).Returns m := ⟨_, rfl⟩

/-- The scan of `alloc_nomutex` passes blocks that are used or too short. -/
theorem passes_unfit {size : ℕ} : ∀ {bs : List Blk} {addr : ℕ},
    (∀ b ∈ bs, m.length b.id = b.len ∧ m.free b.id = b.free) →
    (∀ b ∈ bs, b.free = true → b.len < size) →
    Passes (fun l _ => .ok (m.free l && decide (size ≤ m.length l))) addr bs
  | [], _, _, _ => trivial
  | b :: bs, addr, hdata, hunfit => by
    obtain ⟨hl, hf⟩ := hdata b List.mem_cons_self
    have hb := hunfit b List.mem_cons_self
    refine ⟨?_, passes_unfit (fun x hx => hdata x (List.mem_cons_of_mem _ hx))
      fun x hx => hunfit x (List.mem_cons_of_mem _ hx)⟩
    show Except.ok (m.free b.id && decide (size ≤ m.length b.id)) = .ok false
    rw [hl, hf]
    cases hfree : b.free with
    | false => rfl
    | true => simpa using hb hfree

/-- The body of `alloc` at the first block that fits. -/
theorem allocNomutex_hit (h : Rep m (pre ++ c :: post)) (htot : total (pre ++ c :: post) < 2 ^ 64)
    (hbase : m.heapBase < 2 ^ 64) (hn : n ≠ 0) (hc : c.free = true) (hfit : blockSize n ≤ c.len)
    (hpre : ∀ b ∈ pre, b.free = true → b.len < blockSize n)
    (hslot : c.len ≠ blockSize n → SlotLeft m) :
    ∃ s tail, (allocNomutex n).run m = .ok (wadd m.heapBase (total pre + redzoneSize), s) ∧
      Spare tail ∧ blockSize n + total tail = c.len ∧
      Rep s (pre ++ ⟨c.id, blockSize n, false⟩ :: (tail ++ post)) ∧
      s.heapBase = m.heapBase := by
  have hlen : c.len < 2 ^ 64 := by
    simp only [total_append, total_cons] at htot
    omega
  have hscan : scan m (fun l _ => .ok (m.free l && decide (blockSize n ≤ m.length l))) =
      .ok ⟨some c.id, endOf m.first (ids pre), wadd m.heapBase (total pre)⟩ := by
    apply walk_hit h.chain _ hbase
    · rw [h.free_eq, h.length_eq, hc, decide_eq_true hfit]
      rfl
    · have := h.length_le
      simp only [List.length_append, List.length_cons] at this
      omega
    · exact passes_unfit (fun b hb => h.data b (by simp [hb])) hpre
  have hrun : (allocNomutex n).run m =
      (allocateIntoFree (some c.id) (blockSize n) 0 >>= fun _ =>
        finishAlloc 170 175 (blockSize n) (wadd m.heapBase (total pre))).run m := by
    unfold allocNomutex
    rw [if_neg hn, Prog.run_bind, Prog.run_read]
    dsimp only
    rw [hscan, Prog.run_bind, Prog.run_lift_ok]
  have hret : Prog.Returns (allocateIntoFree (some c.id) (blockSize n) 0 >>= fun _ =>
      finishAlloc 170 175 (blockSize n) (wadd m.heapBase (total pre))) m := by
    apply Prog.Returns.bind (allocateIntoFree_returns (h.free_eq.trans hc)
      (h.length_eq ▸ hfit) (h.length_eq ▸ hlen) (h.length_eq ▸ hslot))
    intro _ _ _
    exact finishAlloc_returns _ _ _ _
  obtain ⟨p, s, hs, rfl, _, tail, ht, hsum, hd⟩ := hret.post
    (serve_spec (B := anywhere) (fun _ _ _ => trivial) h hlen (blockSize n)
      fun _ _ _ _ _ _ => trivial)
  exact ⟨s, tail, hrun.trans hs, ht, hsum, hd.rep, hd.heapBase⟩

/-- Without a block that fits, `allocate_into_free` is called with `nullptr`. -/
theorem allocNomutex_miss (h : Rep m bs) (hbase : m.heapBase < 2 ^ 64) (hn : n ≠ 0)
    (hunfit : ∀ b ∈ bs, b.free = true → b.len < blockSize n) :
    (allocNomutex n).run m = .error (.exception "page fault: current->free") := by
  have hscan : scan m (fun l _ => .ok (m.free l && decide (blockSize n ≤ m.length l))) =
      .ok ⟨none, endOf m.first (ids bs), wadd m.heapBase (total bs)⟩ :=
    walk_miss h.chain (passes_unfit h.data hunfit) hbase h.length_le
  unfold allocNomutex
  rw [if_neg hn, Prog.run_bind, Prog.run_read]
  dsimp only
  rw [hscan, Prog.run_bind, Prog.run_lift_ok]
  rfl

end Returns

/-! ## The lock between calls -/

section Lock

variable {m s : MemoryMgr} {α : Type} {line : ℕ} {body : Op α} {a : α}

theorem locking_unlocked (h : (locking line body).run m = .ok (a, s)) : s.locked = false := by
  have hspec : (locking line body).Spec m anywhere fun _ s => s.locked = false := by
    apply (locking_spec (Q := fun _ _ => True) trivial (fun _ => ?_) fun _ _ _ => trivial).mono
      fun _ _ hb => hb
    · rintro _ _ ⟨_, s', _, rfl⟩
      rfl
    · exact ⟨fun _ _ => trivial, fun _ _ _ => trivial⟩
  exact hspec.2 a s h

theorem locking_run (hm : m.locked = false) : (locking line body).run m =
      (body.run { m with locked := true }).map fun r => (r.1, { r.2 with locked := false }) := by
  unfold locking
  simp only [Prog.run_bind, Prog.run_read, Prog.when, hm, Bool.false_eq_true, if_false,
    Prog.run_pure, Prog.run_stmt]
  cases body.run { m with locked := true } <;> rfl

/-- Every call that returns has released the lock. -/
theorem Call.unlocked {c : Call} {r : ℕ} (h : c.prog.run m = .ok (r, s)) : s.locked = false := by
  cases c with
  | alloc n | allocAligned n a => exact locking_unlocked h
  | tryRealloc ptr n | free p =>
    obtain ⟨_, s', hs', h⟩ := Prog.run_bind_eq_ok.mp h
    cases h
    exact locking_unlocked hs'
  | realloc ptr n =>
    obtain ⟨grown, s', hs', h⟩ := Prog.run_bind_eq_ok.mp h
    cases grown with
    | true =>
      cases h
      exact locking_unlocked hs'
    | false =>
      obtain ⟨_, _, -, h⟩ := Prog.run_bind_eq_ok.mp h
      obtain ⟨_, _, -, h⟩ := Prog.run_bind_eq_ok.mp h
      obtain ⟨_, _, -, h⟩ := Prog.run_bind_eq_ok.mp h
      obtain ⟨_, _, -, h⟩ := Prog.run_bind_eq_ok.mp h
      obtain ⟨_, t, ht, h⟩ := Prog.run_bind_eq_ok.mp h
      cases h
      exact locking_unlocked ht

end Lock

/-! ## Every reachable heap -/

section Runs

variable {heap size : ℕ} {buffer : ℕ → BitVec 64} {mem : Mem}
  {hist : List (Event × ℕ)} {m : MemoryMgr}
variable {bs pre post : List Blk} {n a : ℕ} {c : Blk}

/-- Between calls the lock is free and all lengths are multiples of 16. -/
theorem runs_granular (hheap : heap < 2 ^ 64) (hsize : size < 2 ^ 64) (hpos : 0 < size)
    (h16 : 16 ∣ size) (hrun : Runs step Event.Typed (init heap size buffer mem) hist m) :
    m.heapBase = heap ∧ m.locked = false ∧
      ∃ bs lost, Books size m bs lost ∧ Granular 0 bs := by
  apply hrun.invariant (P := fun _ m => m.heapBase = heap ∧ m.locked = false ∧
    ∃ bs lost, Books size m bs lost ∧ Granular 0 bs)
  · refine ⟨rfl, rfl, _, _, init_books buffer mem hheap hsize hpos, ?_⟩
    intro b hb
    obtain rfl := List.mem_singleton.mp hb
    exact ⟨Nat.zero_le _, h16⟩
  · rintro _ s e r s' ⟨hb, hlock, bs, lost, h, hg⟩ htyped hstep
    cases e with
    | write addr v =>
      cases hstep
      exact ⟨hb, hlock, bs, lost, (Kept.of_mem h _ True True).books, hg⟩
    | call c =>
      obtain ⟨bs', lost', hk, _⟩ := (c.kept h hsize htyped).2 r s' hstep
      exact ⟨hk.heapBase.trans hb, c.unlocked hstep, bs', lost', hk.books,
        hk.granular 0 (Nat.zero_le 1) (fun h0 => by cases h0) hg⟩

theorem Granular.total_dvd {k : ℕ} (h : Granular k bs) : 16 ∣ total bs := by
  induction bs with
  | nil => exact Nat.dvd_zero 16
  | cons b bs ih =>
    obtain ⟨hb, hbs⟩ := granular_cons.mp h
    exact Nat.dvd_add hb.2 (ih hbs)

theorem layout_rest {tail : List Blk} (a : ℕ) (ht : Spare tail)
    (hsum : need n + total tail = c.len) :
    layout (a + need n) (shape tail) = Extent.rest n ⟨a, c.len, c.free⟩ := by
  unfold Extent.rest
  rcases ht with rfl | ⟨t, rfl, hfree, hpos⟩
  · rw [if_pos (by simpa using hsum.symm)]
    rfl
  · simp only [total_cons, total_nil, Nat.add_zero] at hsum
    rw [if_neg (by dsimp only; omega), shape_cons, hfree]
    simp only [layout, shape_nil, List.cons.injEq, and_true, Extent.mk.injEq, true_and]
    omega

/-- The other blocks lie before or behind the front part of a block. -/
theorem apart_of_layout {len : ℕ} {x : Extent} (hlen : len ≤ c.len)
    (hx : x ∈ layout a (shape (pre ++ c :: post))) (hne : x ≠ ⟨a + total pre, c.len, c.free⟩) :
    Extent.Apart ⟨a + total pre, len, false⟩ x := by
  rw [layout_append, shape_cons, layout, List.mem_append, List.mem_cons, mem_layout,
    mem_layout] at hx
  unfold Extent.Apart
  rcases hx with ⟨xs, b, ys, rfl, rfl⟩ | rfl | ⟨xs, b, ys, rfl, rfl⟩
  · right
    simp only [total_append, total_cons]
    omega
  · exact absurd rfl hne
  · left
    dsimp only
    omega

/-- Blocks before the lowest one that fits do not fit. -/
theorem unfit_of_lowest
    (hlow : ∀ x ∈ layout a (shape (pre ++ c :: post)), x.Fits n → a + total pre ≤ x.start) {b : Blk}
    (hb : b ∈ pre) (hfree : b.free = true) : b.len < need n := by
  by_contra hfit
  obtain ⟨xs, ys, rfl⟩ := List.append_of_mem hb
  have hmem : (⟨a + total xs, b.len, b.free⟩ : Extent) ∈
      layout a (shape (xs ++ b :: ys ++ c :: post)) :=
    mem_layout.mpr ⟨xs, b, ys ++ c :: post, by simp, rfl⟩
  have hle := hlow _ hmem ⟨hfree, Nat.not_lt.mp hfit⟩
  simp only [total_append, total_cons] at hle
  unfold need at hfit
  omega

theorem alloc_hit (hlock : m.locked = false) (h : Rep m (pre ++ c :: post))
    (hend : m.heapBase + total (pre ++ c :: post) ≤ 2 ^ 64)
    (htot : total (pre ++ c :: post) < 2 ^ 64) (hbase : m.heapBase < 2 ^ 64) (hn : 0 < n)
    (hn' : n < 2 ^ 63) (hc : c.free = true) (hfit : need n ≤ c.len)
    (hpre : ∀ b ∈ pre, b.free = true → b.len < need n) (hslot : c.len ≠ need n → SlotLeft m) :
    ∃ s, (alloc n).run m = .ok (m.heapBase + total pre + 64, s) ∧
      extents s = layout m.heapBase (shape pre) ++ ⟨m.heapBase + total pre, need n, false⟩ ::
        (Extent.rest n ⟨m.heapBase + total pre, c.len, c.free⟩ ++
          layout (m.heapBase + total pre + c.len) (shape post)) := by
  have hneed := blockSize_eq_need hn'
  have hlen : 128 ≤ c.len := (Nat.le_add_left _ _).trans hfit
  rw [← hneed] at hfit hpre hslot
  have hrep : Rep { m with locked := true } (pre ++ c :: post) := h.congr rfl rfl rfl rfl rfl rfl
  obtain ⟨s, tail, hs, ht, hsum, hs', hsame⟩ :=
    allocNomutex_hit hrep htot hbase hn.ne' hc hfit hpre hslot
  have hp : wadd m.heapBase (total pre + redzoneSize) = m.heapBase + total pre + 64 := by
    simp only [total_append, total_cons] at hend
    rw [redzoneSize, wadd_of_lt] <;> omega
  refine ⟨{ s with locked := false }, ?_, ?_⟩
  · rw [alloc, locking_run hlock, hs]
    exact congrArg (fun p => Except.ok (p, _)) hp
  · have hs'' : Rep { s with locked := false } _ := hs'.congr rfl rfl rfl rfl rfl rfl
    rw [hneed] at hsum hs''
    have hnext : m.heapBase + total pre + need n + total tail =
        m.heapBase + total pre + c.len := by omega
    rw [hs''.extents_eq, show s.heapBase = m.heapBase from hsame, layout_append, shape_cons,
      layout, layout_append, layout_rest _ ht hsum, hnext]

theorem alloc_miss (hlock : m.locked = false) (h : Rep m bs) (hbase : m.heapBase < 2 ^ 64)
    (hn : 0 < n) (hn' : n < 2 ^ 63) (hunfit : ∀ b ∈ bs, b.free = true → b.len < need n) :
    (alloc n).run m = .error (.exception "page fault: current->free") := by
  have hrep : Rep { m with locked := true } bs := h.congr rfl rfl rfl rfl rfl rfl
  rw [← blockSize_eq_need hn'] at hunfit
  rw [alloc, locking_run hlock, allocNomutex_miss hrep hbase hn.ne' hunfit]
  rfl

/-- **First fit.** In every reachable heap, a request of `0 < n < 2^63` bytes is
served from the lowest block that fits: the pointer is 64 bytes behind its
start and a multiple of 16, the block used lies in the heap, apart from every
used block, and the other blocks stay as they are. A slot of the pool is only
needed for a rest. When no block fits, the call does not return. -/
theorem alloc_first_fit (hroom : heap + size ≤ 2 ^ 64) (hsize : size < 2 ^ 64) (hpos : 0 < size)
    (hheap : 16 ∣ heap) (h16 : 16 ∣ size)
    (hrun : Runs step Event.Typed (init heap size buffer mem) hist m) {n : ℕ} (hn : 0 < n)
    (hn' : n < 2 ^ 63) :
    (∀ e ∈ extents m, e.Fits n → (∀ x ∈ extents m, x.Fits n → e.start ≤ x.start) →
      (e.len ≠ need n → SlotLeft m) →
      ∃ s pre post, (alloc n).run m = .ok (e.start + 64, s) ∧ 16 ∣ e.start + 64 ∧
        heap ≤ e.start ∧ e.start + need n ≤ heap + size ∧
        (∀ x ∈ extents m, x.free = false → Extent.Apart ⟨e.start, need n, false⟩ x) ∧
        extents m = pre ++ e :: post ∧
        extents s = pre ++ ⟨e.start, need n, false⟩ :: (e.rest n ++ post)) ∧
    ((∀ e ∈ extents m, ¬ e.Fits n) → ∀ r, (alloc n).run m ≠ .ok r) := by
  obtain ⟨rfl, hlock, bs, lost, h, hg⟩ := runs_granular (by omega) hsize hpos h16 hrun
  have htot := h.total
  rw [h.rep.extents_eq]
  constructor
  · rintro e he hfits hlow hslot
    obtain ⟨pre, c, post, rfl, rfl⟩ := mem_layout.mp he
    obtain ⟨hc : c.free = true, hlen : need n ≤ c.len⟩ := hfits
    obtain ⟨s, hs, hext⟩ := alloc_hit hlock h.rep (by omega) (by omega) h.base hn hn' hc hlen
      (fun b hb => unfit_of_lowest hlow hb) hslot
    have hdvd := (granular_append.mp hg).1.total_dvd
    simp only [total_append, total_cons] at htot
    refine ⟨s, _, _, hs, ?_, Nat.le_add_right _ _, ?_, ?_, ?_, hext⟩
    · dsimp only
      omega
    · dsimp only
      omega
    · intro x hx hfree
      apply apart_of_layout hlen hx
      rintro rfl
      exact Bool.false_ne_true (hfree.symm.trans hc)
    · rw [layout_append, shape_cons, layout]
  · intro hnone r hr
    have hunfit : ∀ b ∈ bs, b.free = true → b.len < need n := by
      intro b hb hfree
      by_contra hfit
      obtain ⟨xs, ys, rfl⟩ := List.append_of_mem hb
      exact hnone ⟨m.heapBase + total xs, b.len, b.free⟩ (mem_layout.mpr ⟨xs, b, ys, rfl, rfl⟩)
        ⟨hfree, Nat.not_lt.mp hfit⟩
    rw [alloc_miss hlock h.rep h.base hn hn' hunfit] at hr
    cases hr

end Runs

/-- A hole too short for 20 bytes is passed over, and 4000 bytes fit nowhere. -/
theorem alloc_first_fit_page_heap : ∃ hist m,
    Runs step Event.Typed pageHeap hist m ∧
      extents m = [⟨4096, 144, true⟩, ⟨4240, 144, false⟩, ⟨4384, 3808, true⟩] ∧
      (∃ s, (alloc 20).run m = .ok (4448, s) ∧
        extents s = [⟨4096, 144, true⟩, ⟨4240, 144, false⟩, ⟨4384, 160, false⟩,
          ⟨4544, 3648, true⟩]) ∧
      ∀ r, (alloc 4000).run m ≠ .ok r := by
  have hreplay : (replay step Event.Fair [] pageHeap
      [.call (.alloc 16), .call (.alloc 16), .call (.free 4160)]).map
      (fun r => (extents r.2, r.2.bm.bit 3, r.2.bm.sz)) =
      some ([⟨4096, 144, true⟩, ⟨4240, 144, false⟩, ⟨4384, 3808, true⟩], false, 64) := by
    decide +kernel
  obtain ⟨⟨hist, m⟩, hr, hres⟩ := Option.map_eq_some_iff.mp hreplay
  obtain ⟨hext, hslot⟩ := Prod.mk.inj hres
  obtain ⟨hbit, hsz⟩ := Prod.mk.inj hslot
  have hrun : Runs step Event.Typed pageHeap hist m := by
    apply ((Runs.nil pageHeap).replay hr).mono
    rintro s (c | ⟨addr, v⟩) hg
    · exact hg.1
    · exact hg
  dsimp only at hext hbit hsz
  refine ⟨hist, m, hrun, hext, ?_, ?_⟩
  · obtain ⟨s, pre, post, hs, -, -, -, -, hsplit, hext'⟩ :=
      (alloc_first_fit (by decide) (by decide) (by decide) (by decide) (by decide) hrun
        (n := 20) (by decide) (by decide)).1 ⟨4384, 3808, true⟩ (by simp [hext]) (by decide)
        (by rw [hext]; decide) fun _ => ⟨3, by rw [hsz]; decide, hbit⟩
    refine ⟨s, hs, ?_⟩
    rw [hext] at hsplit
    obtain ⟨rfl, rfl⟩ : pre = [⟨4096, 144, true⟩, ⟨4240, 144, false⟩] ∧ post = [] := by
      match pre, hsplit with
      | [], hsplit => cases hsplit
      | [_], hsplit => cases hsplit
      | [_, _], hsplit => cases hsplit; exact ⟨rfl, rfl⟩
      | _ :: _ :: _ :: _, hsplit => simp at hsplit
    rw [hext']
    decide
  · exact (alloc_first_fit (by decide) (by decide) (by decide) (by decide) (by decide) hrun
      (n := 4000) (by decide) (by decide)).2 (by rw [hext]; decide)

end NeptunOS.Heap
