import NeptunOS.Storage.Arena

/-!
# Iterating over an `Arena`

The three bounds of an iteration are different ones: `begin()` has none, `++` stops at the
capacity of the block, and every `get` of the bitmap stops the kernel at the size of the
bitmap. So an arena without elements, and one whose bitmap is shorter than its block, cannot
be iterated over.

- `iterate_eq`: what the iteration does in every arena whose bitmap is not longer than its
  block.
- `Shape.step`: the bitmap is never longer than the block.
-/

namespace NeptunOS

open Stepwise

namespace Bitmap

/-- The set bits from `lo` on. -/
def marked (b : Bitmap) (lo : ℕ) : List ℕ := (List.range' lo (b.sz - lo)).filter b.bit

variable {b : Bitmap} {lo k : ℕ} {l : List ℕ}

theorem marked_end : b.marked b.sz = [] := by
  rw [marked, Nat.sub_self]
  rfl

theorem marked_step (h : lo < b.sz) :
    b.marked lo = if b.bit lo = true then lo :: b.marked (lo + 1) else b.marked (lo + 1) := by
  have hlen : b.sz - lo = b.sz - (lo + 1) + 1 := by omega
  rw [marked, hlen, List.range'_succ, List.filter_cons]
  rfl

theorem mem_marked : k ∈ b.marked lo ↔ lo ≤ k ∧ k < b.sz ∧ b.bit k = true := by
  rw [marked, List.mem_filter, List.mem_range'_1, and_assoc]
  refine and_congr_right fun hlo => and_congr_left fun _ => ?_
  omega

theorem marked_pairwise (b : Bitmap) (lo : ℕ) : (b.marked lo).Pairwise (· < ·) :=
  List.Pairwise.filter _ List.pairwise_lt_range'

/-- Behind the first set bit come the others. -/
theorem marked_tail (h : b.marked lo = k :: l) : k < b.sz ∧ l = b.marked (k + 1) := by
  have hk : k < b.sz := (mem_marked.mp (h ▸ List.mem_cons_self)).2.1
  refine ⟨hk, ?_⟩
  induction hn : b.sz - lo generalizing lo with
  | zero =>
    have hlo : lo ≤ k := (mem_marked.mp (h ▸ List.mem_cons_self)).1
    omega
  | succ n ih =>
    rw [marked_step (by omega)] at h
    split at h
    · obtain ⟨rfl, rfl⟩ := List.cons.inj h
      rfl
    · exact ih h (by omega)

end Bitmap

namespace Arena

variable {T : Type} {a a' : Arena T}

/-! ## The iterator -/

/-- The loop of `begin()` from `first_used` on. -/
def beginLoop (b : Bitmap) : ℕ → ℕ → Except Halt ℕ
  | 0, _ => .error .endless
  | fuel + 1, firstUsed => do
    let used ← b.get firstUsed
    if used = true then return firstUsed else beginLoop b fuel (firstUsed + 1)

/-- `begin()`; the loop does not pass the size of the bitmap. -/
def iterBegin (a : Arena T) : Except Halt ℕ :=
  beginLoop a.freeSlots.view (a.freeSlots.sz + 1) 0

/-- The loop of `operator++` from `idx` on. -/
def nextLoop (b : Bitmap) (capacity : ℕ) : ℕ → ℕ → Except Halt ℕ
  | 0, _ => .error .endless
  | fuel + 1, idx =>
    if idx < capacity then do
      let used ← b.get idx
      if used = true then return idx else nextLoop b capacity fuel (idx + 1)
    else return idx

/-- `operator++`. -/
def iterNext (a : Arena T) (idx : ℕ) : Except Halt ℕ :=
  nextLoop a.freeSlots.view a.data.capacity (a.data.capacity + 1) (idx + 1)

/-- `end()`. -/
def iterEnd (a : Arena T) : ℕ := a.data.capacity

/-- The rounds `for (; it != end(); ++it)` and the slots that `*it` refers to. -/
def iterLoop (a : Arena T) : ℕ → ℕ → Except Halt (List ℕ)
  | 0, _ => .error .endless
  | fuel + 1, idx =>
    if idx = a.iterEnd then return []
    else do
      let idx' ← a.iterNext idx
      let slots ← iterLoop a fuel idx'
      return idx :: slots

/-- `for (T& x : arena)`: the slots that are visited. -/
def iterate (a : Arena T) : Except Halt (List ℕ) := do
  let first ← a.iterBegin
  iterLoop a (a.data.capacity + 1) first

/-! ## What is visited -/

section Loops

variable {b : Bitmap} {cap fuel lo : ℕ}

/-- `get` behind the last bit. -/
def outOfBounds : Halt := .fatal "get out of bounds! (%llu > %llu)"

theorem get_end (b : Bitmap) : b.get b.sz = .error outOfBounds := if_pos (Nat.le_refl _)

/-- `++` finds the next set bit. Behind the last one it comes to the end of the block if
the bitmap ends there too, and runs out of the bitmap otherwise. -/
theorem nextLoop_eq (hcap : b.sz ≤ cap) (hlo : lo ≤ b.sz) (hfuel : b.sz - lo < fuel) :
    nextLoop b cap fuel lo =
      match b.marked lo with
      | [] => if b.sz = cap then .ok cap else .error outOfBounds
      | k :: _ => .ok k := by
  induction fuel generalizing lo with
  | zero => omega
  | succ fuel ih =>
    rw [nextLoop]
    rcases Nat.lt_or_eq_of_le hlo with hlt | rfl
    · rw [if_pos (by omega), Bitmap.get_ok hlt, ok_bind, Bitmap.marked_step hlt]
      by_cases hbit : b.bit lo = true
      · rw [if_pos hbit, if_pos hbit]
        rfl
      · rw [if_neg hbit, if_neg hbit]
        exact ih hlt (by omega)
    · rw [get_end, Bitmap.marked_end]
      by_cases heq : b.sz = cap
      · rw [if_neg (by omega), heq]
        exact (if_pos rfl).symm
      · rw [if_pos (by omega)]
        exact (if_neg heq).symm

/-- `begin()` searches as `++` does in a block that ends behind the bitmap. -/
theorem beginLoop_eq_nextLoop (hlo : lo ≤ b.sz) :
    beginLoop b fuel lo = nextLoop b (b.sz + 1) fuel lo := by
  induction fuel generalizing lo with
  | zero => rfl
  | succ fuel ih =>
    rw [beginLoop, nextLoop, if_pos (by omega)]
    rcases Nat.lt_or_eq_of_le hlo with hlt | rfl
    · rw [Bitmap.get_ok hlt, ok_bind, ok_bind, ih hlt]
    · rw [get_end]
      rfl

end Loops

theorem iterBegin_eq (a : Arena T) : a.iterBegin =
      match a.freeSlots.view.marked 0 with
      | [] => .error outOfBounds
      | k :: _ => .ok k := by
  have hnext := nextLoop_eq (b := a.freeSlots.view) (Nat.le_succ _) (Nat.zero_le _)
    (Nat.lt_succ_self _)
  rw [if_neg (Nat.succ_ne_self _).symm] at hnext
  exact (beginLoop_eq_nextLoop (Nat.zero_le _)).trans hnext

variable {k handle newsize : ℕ} {item : T} {r : Option ℕ} {g : Growth T}

theorem iterNext_eq (hcap : a.freeSlots.sz ≤ a.data.capacity) (hk : k < a.freeSlots.sz) :
    a.iterNext k =
      match a.freeSlots.view.marked (k + 1) with
      | [] =>
        if a.freeSlots.sz = a.data.capacity then .ok a.data.capacity else .error outOfBounds
      | k' :: _ => .ok k' :=
  nextLoop_eq (b := a.freeSlots.view) hcap (Nat.succ_le_of_lt hk)
    (Nat.lt_succ_of_le (Nat.le_trans (Nat.sub_le _ _) hcap))

/-- The rounds from a used slot on visit it and the used slots behind it, if the bitmap is
as long as the block. -/
theorem iterLoop_eq (hcap : a.freeSlots.sz ≤ a.data.capacity) {l : List ℕ} {lo fuel : ℕ}
    (hl : a.freeSlots.view.marked lo = k :: l) (hfuel : l.length + 1 < fuel) :
    iterLoop a fuel k =
      if a.freeSlots.sz = a.data.capacity then .ok (k :: l) else .error outOfBounds := by
  induction l generalizing k lo fuel with
  | nil =>
    obtain ⟨fuel, rfl⟩ : ∃ n, fuel = n + 2 := Nat.exists_eq_add_of_le' hfuel
    obtain ⟨hk, hrest⟩ := Bitmap.marked_tail hl
    have hend : k ≠ a.iterEnd := (Nat.lt_of_lt_of_le hk hcap).ne
    rw [iterLoop, if_neg hend, iterNext_eq hcap hk, ← hrest]
    by_cases heq : a.freeSlots.sz = a.data.capacity
    · rw [if_pos heq, if_pos heq, ok_bind, iterLoop]
      exact congrArg (· >>= _) (if_pos rfl)
    · rw [if_neg heq, if_neg heq]
      rfl
  | cons k' l ih =>
    obtain ⟨fuel, rfl⟩ : ∃ n, fuel = n + 1 := Nat.exists_eq_add_of_le' (by omega)
    obtain ⟨hk, hrest⟩ := Bitmap.marked_tail hl
    have hend : k ≠ a.iterEnd := (Nat.lt_of_lt_of_le hk hcap).ne
    rw [iterLoop, if_neg hend, iterNext_eq hcap hk, ← hrest]
    rw [ok_bind, ih hrest.symm (Nat.lt_of_succ_lt_succ hfuel)]
    by_cases heq : a.freeSlots.sz = a.data.capacity
    · rw [if_pos heq, if_pos heq]
      rfl
    · rw [if_neg heq, if_neg heq]
      rfl

theorem length_marked (b : Bitmap) : (b.marked 0).length ≤ b.sz :=
  (List.length_filter_le _ _).trans_eq List.length_range'

/-- The iteration visits the used slots in order, unless there are none or the bitmap is
shorter than the block. -/
theorem iterate_eq (hcap : a.freeSlots.sz ≤ a.data.capacity) : a.iterate =
      if a.freeSlots.view.marked 0 ≠ [] ∧ a.freeSlots.sz = a.data.capacity then
        .ok (a.freeSlots.view.marked 0)
      else .error outOfBounds := by
  rw [iterate, iterBegin_eq]
  rcases hl : a.freeSlots.view.marked 0 with _ | ⟨k, l⟩
  · rfl
  · have hlen : l.length + 1 ≤ a.freeSlots.sz := by
      rw [← List.length_cons (a := k), ← hl]
      exact length_marked a.freeSlots.view
    rw [ok_bind, iterLoop_eq hcap hl (by omega)]
    exact if_congr (and_iff_right (List.cons_ne_nil k l)).symm rfl rfl

/-! ## Reachable arenas -/

/-- The bitmap is not longer than the block, and `size` is never set. -/
structure Shape (a : Arena T) : Prop where
  sz : a.freeSlots.sz ≤ a.data.capacity
  size : a.data.size = 0

theorem init_shape {cap : ℕ} {block : ℕ → T} {words : ℕ → BitVec 64}
    (h : init cap block words = .ok a) : Shape a :=
  ⟨(init_sound h).capacity.1, (init_sound h).block.1⟩

theorem place_shape (h : Shape a) {idx : ℕ} (hp : a.place idx item = .ok (handle, a')) :
    Shape a' := by
  unfold place at hp
  split at hp
  · cases hp
  · cases hp
    exact ⟨h.sz, h.size⟩

theorem findAndSet_sz {b b' : HeapBitmap} (h : b.findAndSet = .ok (r, b')) : b'.sz = b.sz := by
  obtain ⟨⟨r, bm⟩, -, h⟩ := bind_eq_ok.mp h
  cases h
  rfl

theorem Shape.searched (h : Shape a) {fs : HeapBitmap}
    (hfind : a.freeSlots.findAndSet = .ok (r, fs)) : Shape { a with freeSlots := fs } :=
  ⟨(findAndSet_sz hfind).trans_le h.sz, h.size⟩

theorem resize_shape (h : Shape a) (hr : a.resize g newsize = .ok a') : Shape a' := by
  obtain ⟨data, hdata, hr⟩ := bind_eq_ok.mp hr
  obtain ⟨fs, hfs, hr⟩ := bind_eq_ok.mp hr
  cases hr
  obtain ⟨words, -, hfs⟩ := bind_eq_ok.mp hfs
  cases hfs
  obtain ⟨hsize, hcap, -⟩ := Vec.reserve_spec hdata
  exact ⟨(Nat.le_max_left _ _).trans_eq hcap.symm, hsize.trans h.size⟩

theorem insert_shape (h : Shape a) (hi : a.insert newsize g item = .ok (handle, a')) :
    Shape a' := by
  obtain ⟨⟨r, fs⟩, hfind, hi⟩ := bind_eq_ok.mp hi
  have h' := h.searched hfind
  cases r with
  | some idx => exact place_shape h' hi
  | none =>
    obtain ⟨a₁, hres, hi⟩ := bind_eq_ok.mp hi
    have h₁ := resize_shape h' hres
    obtain ⟨⟨r, fs'⟩, hfind', hi⟩ := bind_eq_ok.mp hi
    cases r with
    | some idx => exact place_shape (h₁.searched hfind') hi
    | none => cases hi

/-- Every operation keeps the bitmap inside the block. -/
theorem Shape.step (h : Shape a) {op : Op T} (hs : a.step op = .ok (handle, a')) : Shape a' := by
  cases op with
  | pushBack g item => exact insert_shape h hs
  | emplaceBack g item => exact insert_shape h hs
  | remove k =>
    obtain ⟨a₁, hr, hs⟩ := bind_eq_ok.mp hs
    cases hs
    obtain ⟨fs, hset, hr⟩ := bind_eq_ok.mp hr
    cases hr
    obtain ⟨bm, -, hset⟩ := bind_eq_ok.mp hset
    cases hset
    exact ⟨h.sz, h.size⟩

/-- The slots of the live handles are the used slots. -/
def Tracks (a : Arena T) (live : List (ℕ × T)) : Prop :=
  ∀ k, k ∈ live.map Prod.fst ↔ k < a.freeSlots.sz ∧ a.freeSlots.view.bit k = true

/-- So they are as long as no growth loses anything. -/
theorem Sound.tracks {live : List (ℕ × T)} (h : Sound a live) : Tracks a live := by
  intro k
  constructor
  · intro hk
    exact ⟨h.below k hk, (h.used k (h.below k hk)).mpr hk⟩
  · rintro ⟨hlt, hbit⟩
    exact (h.used k hlt).mp hbit

/-- **Iteration.** In every arena that a constructor and any operations have led to, the
iteration ends and visits the slots of the live handles, each once and in increasing order,
exactly if the bitmap is as long as the block, there is a live handle, and growth has not
lost any. -/
theorem iterate_live_iff {cap : ℕ} {block : ℕ → T} {words : ℕ → BitVec 64} {a₀ : Arena T}
    {h : List (Op T × ℕ)} (hinit : init cap block words = .ok a₀)
    (hrun : Runs Arena.step (fun _ _ => True) a₀ h a) :
    (∃ slots, a.iterate = .ok slots ∧ slots.Pairwise (· < ·) ∧
      ∀ k, k ∈ slots ↔ k ∈ (liveAfter h).map Prod.fst) ↔
      a.freeSlots.sz = a.data.capacity ∧ liveAfter h ≠ [] ∧ Tracks a (liveAfter h) := by
  have hshape : Shape a := by
    refine hrun.invariant (P := fun _ a => Shape a) (init_shape hinit) ?_
    intro _ a op r a' hs _ hstep
    exact hs.step hstep
  have hmem : ∀ k, k ∈ a.freeSlots.view.marked 0 ↔
      k < a.freeSlots.sz ∧ a.freeSlots.view.bit k = true :=
    fun k => Bitmap.mem_marked.trans (and_iff_right (Nat.zero_le k))
  rw [iterate_eq hshape.sz]
  constructor
  · rintro ⟨slots, hok, -, hslots⟩
    split at hok
    case isFalse => cases hok
    case isTrue hc =>
      obtain rfl := Except.ok.inj hok
      refine ⟨hc.2, fun hnil => hc.1 ?_, fun k => (hslots k).symm.trans (hmem k)⟩
      refine List.eq_nil_iff_forall_not_mem.mpr fun k hk => ?_
      rw [hslots, hnil] at hk
      exact absurd hk List.not_mem_nil
  · rintro ⟨heq, hlive, htracks⟩
    have hne : a.freeSlots.view.marked 0 ≠ [] := by
      obtain ⟨x, l, hl⟩ := List.exists_cons_of_ne_nil hlive
      have hx : x.1 ∈ (liveAfter h).map Prod.fst := by
        rw [hl]
        exact List.mem_cons_self
      exact List.ne_nil_of_mem ((hmem x.1).mpr ((htracks x.1).mp hx))
    refine ⟨_, if_pos ⟨hne, heq⟩, Bitmap.marked_pairwise _ _, fun k => ?_⟩
    rw [hmem k, htracks k]

/-- A default arena with three elements. -/
theorem iterate_live_iff_three :
    ∃ h a slots, runFrom Careful 0 (pushes (answers false) 3) = some (h, a) ∧
      liveAfter h = [(0, 10), (1, 11), (2, 12)] ∧ a.iterate = .ok slots ∧
      slots.Pairwise (· < ·) ∧ ∀ k, k ∈ slots ↔ k ∈ (liveAfter h).map Prod.fst := by
  have hrun : (runFrom Careful 0 (pushes (answers false) 3)).map (fun r =>
      (liveAfter r.1, decide (r.2.freeSlots.sz = r.2.data.capacity))) =
      some ([(0, 10), (1, 11), (2, 12)], true) := by
    decide
  obtain ⟨⟨h, a⟩, hr, heq⟩ := Option.map_eq_some_iff.mp hrun
  obtain ⟨hlive, hsz⟩ := Prod.mk.inj heq
  obtain ⟨a₀, hinit, hreplay⟩ := Option.bind_eq_some_iff.mp hr
  have hinit := eq_ok_of_toOption hinit
  have hcareful := (Runs.nil a₀).replay hreplay
  obtain ⟨slots, hslots⟩ :=
    (iterate_live_iff hinit (hcareful.mono fun _ _ _ => trivial)).mpr
      ⟨of_decide_eq_true hsz, by simp [hlive], (runs_sound hinit hcareful).tracks⟩
  exact ⟨h, a, slots, hr, hlive, hslots⟩

/-- A default arena stops the kernel in `begin()`. So does `Arena(70)` with one element, in
the first `++`: its bitmap has 64 bits. -/
theorem iterate_halts :
    (∃ a : Arena ℕ, init 0 (fun _ => 0) (fun _ => 0) = .ok a ∧
      a.iterate = .error (.fatal "get out of bounds! (%llu > %llu)")) ∧
    ∃ h a, runFrom (fun _ _ => True) 70 (pushes (answers true) 1) = some (h, a) ∧
      a.iterate = .error (.fatal "get out of bounds! (%llu > %llu)") := by
  refine ⟨⟨_, rfl, rfl⟩, ?_⟩
  have hrun : (runFrom (fun _ _ => True) 70 (pushes (answers true) 1)).map
      (fun r => r.2.iterate) = some (.error (.fatal "get out of bounds! (%llu > %llu)")) := by
    decide
  obtain ⟨⟨h, a⟩, hr, heq⟩ := Option.map_eq_some_iff.mp hrun
  exact ⟨h, a, hr, heq⟩

end Arena

end NeptunOS
