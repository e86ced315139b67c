import Mathlib.Data.List.Nodup
import NeptunOS.Storage.Vector
import NeptunOS.Util.Bitmap

/-!
# `util/heapbitmap.hh`, `util/arena.hh`

An arena keeps its elements in the block of a vector and its slots in a bitmap that
grows on its own. `Arena` never sets the vector's `size`, and the constructor of
`HeapBitmap` does not set the size of its words. Three things follow: a block that
cannot grow in place loses all elements, the first growth of a bitmap that was
constructed with words clears them, and `emplace_back` does not grow an arena without
capacity. `runs_stable`: in runs without these steps handles are stable.
-/

namespace NeptunOS

open Stepwise

/-- `HeapBitmap`; its `buffer` is always `data.data`. -/
structure HeapBitmap where
  data : Vec (BitVec 64)
  sz : ℕ

namespace HeapBitmap

/-- As a `BitmapSkeleton`. -/
def view (b : HeapBitmap) : Bitmap := ⟨fun i => (b.data.get i).getD 0, b.sz⟩

/-- What a `BitmapSkeleton` operation leaves behind. -/
def write (b : HeapBitmap) (bm : Bitmap) : HeapBitmap :=
  { b with data := b.data.write bm.buffer }

/-- `HeapBitmap(elems, defa)`. -/
def init (elems : ℕ) (block : ℕ → BitVec 64) (defa : Bool := false) : Except Halt HeapBitmap :=
  let data := Vec.init (align elems 64 / 64) block
  let bm := Bitmap.init block elems defa
  if data.data.isNone ∧ bm.sz ≠ 0 then .error (.exception "page fault: buffer[0]")
  else .ok ⟨data.write bm.buffer, bm.sz⟩

/-- `resize(newsize)`. -/
def resize (b : HeapBitmap) (g : Grow (BitVec 64)) (newsize : ℕ) :
    Except Halt HeapBitmap := do
  let data ← b.data.resize 0 g (align newsize 64 / 64)
  return ⟨data, newsize⟩

/-- `find_and_set()`. -/
def findAndSet (b : HeapBitmap) : Except Halt (Option ℕ × HeapBitmap) := do
  let (r, bm) ← b.view.findAndSet
  return (r, b.write bm)

/-- `set(idx, val)`. -/
def set (b : HeapBitmap) (idx : ℕ) (val : Bool) : Except Halt HeapBitmap := do
  let bm ← b.view.set idx val
  return b.write bm

end HeapBitmap

/-- `Arena<T>`. -/
structure Arena (T : Type) where
  data : Vec T
  freeSlots : HeapBitmap

/-- The allocator's answers in one growth of an arena. -/
structure Growth (T : Type) where
  data : Grow T
  words : Grow (BitVec 64)

namespace Arena

variable {T : Type}

/-- `Arena(cap)`, and `Arena()` with capacity 0. -/
def init (cap : ℕ) (block : ℕ → T) (words : ℕ → BitVec 64) : Except Halt (Arena T) := do
  let freeSlots ← HeapBitmap.init cap words
  return ⟨Vec.init cap block, freeSlots⟩

/-- `resize(newsize)`. -/
def resize (a : Arena T) (g : Growth T) (newsize : ℕ) : Except Halt (Arena T) := do
  let data ← a.data.reserve g.data newsize
  let freeSlots ← a.freeSlots.resize g.words newsize
  return ⟨data, freeSlots⟩

/-- `new (&data.data[idx]) T(item)`; the handle keeps 32 bits of the index. -/
def place (a : Arena T) (idx : ℕ) (item : T) : Except Halt (ℕ × Arena T) :=
  match a.data.data with
  | none => .error (.exception "page fault: data.data[idx]")
  | some d =>
    .ok (idx % 2 ^ 32, { a with data := a.data.write (Function.update d idx item) })

/-- The common body of `push_back` and `emplace_back`. -/
def insert (a : Arena T) (newsize : ℕ) (g : Growth T) (item : T) :
    Except Halt (ℕ × Arena T) := do
  let (idx, freeSlots) ← a.freeSlots.findAndSet
  match idx with
  | some idx => place { a with freeSlots := freeSlots } idx item
  | none =>
    let a ← resize { a with freeSlots := freeSlots } g newsize
    let (idx, freeSlots) ← a.freeSlots.findAndSet
    match idx with
    | some idx => place { a with freeSlots := freeSlots } idx item
    | none => .error (.exception "page fault: data.data[-1]")

/-- `push_back(item)`. -/
def pushBack (a : Arena T) (g : Growth T) (item : T) : Except Halt (ℕ × Arena T) :=
  a.insert (growfun a.data.capacity) g item

/-- `emplace_back(args)`; `item` is `T(args)`. -/
def emplaceBack (a : Arena T) (g : Growth T) (item : T) : Except Halt (ℕ × Arena T) :=
  a.insert (a.data.capacity * 4 % 2 ^ 64) g item

/-- `remove(handle)`. What the destructor leaves in the slot is not read again. -/
def remove (a : Arena T) (handle : ℕ) : Except Halt (Arena T) := do
  let freeSlots ← a.freeSlots.set handle false
  return { a with freeSlots := freeSlots }

/-- `arena[handle]`. -/
def get (a : Arena T) (handle : ℕ) : Option T := a.data.get handle

end Arena

/-! ## The slots -/

namespace HeapBitmap

variable {b b' : HeapBitmap}

/-- Only a bitmap with words has bits. -/
def Backed (b : HeapBitmap) : Prop := b.data.data = none → b.sz = 0

theorem write_view (hb : b.data.data ≠ none) (bm : Bitmap) :
    (b.write bm).view.buffer = bm.buffer := by
  obtain ⟨d, hd⟩ := Option.ne_none_iff_exists'.mp hb
  simp [view, write, Vec.get, Vec.write, hd]

theorem bit_congr {b₁ b₂ : Bitmap} (h : b₁.buffer = b₂.buffer) (k : ℕ) : b₁.bit k = b₂.bit k := by
  rw [Bitmap.bit, Bitmap.bit, h]

/-- The words and their number are kept. -/
structure SameSize (b b' : HeapBitmap) : Prop where
  sz : b'.sz = b.sz
  size : b'.data.size = b.data.size
  null : b'.data.data = none ↔ b.data.data = none

theorem write_sameSize (b : HeapBitmap) (bm : Bitmap) : SameSize b (b.write bm) :=
  ⟨rfl, rfl, Option.map_eq_none_iff⟩

/-- A search that fails: all slots are taken. -/
theorem findAndSet_none (h : b.findAndSet = .ok (none, b')) :
    SameSize b b' ∧ (∀ k < b.sz, b.view.bit k = true) ∧ ∀ k, b'.view.bit k = b.view.bit k := by
  obtain ⟨⟨r, bm⟩, hfind, h⟩ := bind_eq_ok.mp h
  cases h
  obtain ⟨_, rfl, hnone⟩ := Bitmap.findAndSetMultiple_zero hfind
  refine ⟨write_sameSize b _, fun k hk => ?_, fun k => ?_⟩
  · by_contra hclear
    refine hnone k (Nat.zero_le _) hk fun j hlo hhi => ?_
    obtain rfl : j = k := by omega
    simpa using hclear
  · by_cases hb : b.data.data = none
    · simp [Bitmap.bit, view, write, Vec.write, Vec.get, hb]
    · exact bit_congr (write_view hb _) k

/-- A search that succeeds: the first free slot is taken. -/
theorem findAndSet_some {idx : ℕ} (hb : b.Backed) (h : b.findAndSet = .ok (some idx, b')) :
    SameSize b b' ∧ idx < b.sz ∧ b.view.bit idx = false ∧
      (∀ k < idx, b.view.bit k = true) ∧
      ∀ k, b'.view.bit k = (decide (k = idx) || b.view.bit k) := by
  obtain ⟨⟨r, bm⟩, hfind, h⟩ := bind_eq_ok.mp h
  cases h
  obtain ⟨_, _, hlt, hclear, hleast, _, hbits⟩ := Bitmap.findAndSetMultiple_zero hfind
  have hlt : idx < b.sz := hlt
  have hd : b.data.data ≠ none := fun hnone => by
    rw [hb hnone] at hlt
    exact Nat.not_lt_zero _ hlt
  refine ⟨write_sameSize b bm, hlt, hclear idx (Nat.le_refl _) (Nat.lt_succ_self _),
    fun k hk => ?_, fun k => ?_⟩
  · by_contra hfree
    refine hleast k (Nat.zero_le _) hk fun j hlo hhi => ?_
    obtain rfl : j = k := by omega
    simpa using hfree
  · rw [bit_congr (write_view hd bm) k, hbits k]
    congr 1
    exact decide_eq_decide.mpr (by omega)

theorem findAndSet_ok (b : HeapBitmap) : ∃ r, b.findAndSet = .ok r := by
  obtain ⟨⟨r, bm⟩, hr⟩ := Bitmap.findAndSetMultiple_zero_ok b.view (Nat.one_pos)
  exact ⟨_, bind_eq_ok.mpr ⟨_, hr, rfl⟩⟩

/-- Growth keeps the bits of the counted words; the new words are clear. -/
theorem resize_spec {g : Grow (BitVec 64)} {newsize : ℕ} (hfit : newsize + 63 < 2 ^ 64)
    (h : b.resize g newsize = .ok b') :
    b'.sz = newsize ∧ b'.data.size = (newsize + 63) / 64 ∧ b'.Backed ∧
      ∀ k < 64 * ((newsize + 63) / 64), b'.view.bit k =
        if k < 64 * b.data.size then b.view.bit k else false := by
  obtain ⟨data, hres, h⟩ := bind_eq_ok.mp h
  cases h
  rw [align_words hfit] at hres
  obtain ⟨hsize, _, hnull, hget⟩ := Vec.resize_spec hres
  refine ⟨rfl, hsize, fun hnone => ?_, fun k hk => ?_⟩
  · have := hnull hnone
    show newsize = 0
    omega
  · have hword := hget (k / 64) (by omega)
    rw [Bitmap.bit_eq]
    show ((data.get (k / 64)).getD 0).getLsbD (k % 64) = _
    rw [hword]
    by_cases hlt : k < 64 * b.data.size
    · rw [if_pos (by omega), if_pos hlt, Bitmap.bit_eq]
      rfl
    · rw [if_neg (by omega), if_neg hlt]
      simp

end HeapBitmap

/-! ## Stability -/

namespace Arena

variable {T : Type} {a a' : Arena T} {live : List (ℕ × T)}

/-- The handles of `live` are distinct, inside the capacity, and lead to the values
they were given for. -/
structure Stable (a : Arena T) (live : List (ℕ × T)) : Prop where
  nodup : (live.map Prod.fst).Nodup
  inside : ∀ h ∈ live.map Prod.fst, h < a.data.capacity
  values : ∀ h x, (h, x) ∈ live → a.get h = some x

/-- What makes it so: the bits are the live handles, and the bits that a growth will
uncover are clear. -/
structure Sound (a : Arena T) (live : List (ℕ × T)) : Prop where
  nodup : (live.map Prod.fst).Nodup
  used : ∀ k < a.freeSlots.sz, a.freeSlots.view.bit k = true ↔ k ∈ live.map Prod.fst
  below : ∀ h ∈ live.map Prod.fst, h < a.freeSlots.sz
  values : ∀ h x, (h, x) ∈ live → a.get h = some x
  capacity : a.freeSlots.sz ≤ a.data.capacity ∧ a.data.capacity < a.freeSlots.sz + 64
  block : a.data.size = 0 ∧ (a.data.data = none → a.data.capacity = 0)
  backed : a.freeSlots.Backed
  words : a.freeSlots.data.size ≤ (a.freeSlots.sz + 63) / 64
  spare : ∀ k, a.freeSlots.sz ≤ k → k < 64 * a.freeSlots.data.size →
    a.freeSlots.view.bit k = false

theorem Sound.stable (h : Sound a live) : Stable a live where
  nodup := h.nodup
  inside k hk := (h.below k hk).trans_le h.capacity.1
  values := h.values

variable {cap idx handle newsize : ℕ} {block : ℕ → T} {words : ℕ → BitVec 64} {fs : HeapBitmap}
  {g : Growth T}

/-- A new arena is empty. -/
theorem init_sound (h : init cap block words = .ok a) : Sound a [] := by
  obtain ⟨fs, hfs, h⟩ := bind_eq_ok.mp h
  cases h
  unfold HeapBitmap.init at hfs
  dsimp only at hfs
  split at hfs
  case isTrue => cases hfs
  case isFalse hnull =>
    cases hfs
    constructor
    case nodup => exact List.nodup_nil
    case used =>
      intro k (hk : k < alignDown cap 64)
      refine iff_of_false ?_ (by simp)
      have hclear := Bitmap.init_bit words false hk
      have hd : (Vec.init (align cap 64 / 64) words).data ≠ none := by
        intro hnone
        refine hnull ⟨by rw [hnone]; rfl, fun hzero => ?_⟩
        exact Nat.not_lt_zero k (hk.trans_eq hzero)
      have hview : ((⟨Vec.init (align cap 64 / 64) words, alignDown cap 64⟩ :
          HeapBitmap).write (Bitmap.init words cap false)).view.bit k = false := by
        rw [HeapBitmap.bit_congr (HeapBitmap.write_view hd _) k, hclear]
      exact fun htrue => Bool.false_ne_true (hview.symm.trans htrue)
    case below => exact fun h hh => by cases hh
    case values => exact fun h x hx => by cases hx
    case capacity =>
      show cap / 64 * 64 ≤ cap ∧ cap < cap / 64 * 64 + 64
      omega
    case block =>
      refine ⟨rfl, fun hnone => ?_⟩
      by_contra hne
      simp [Vec.init] at hnone hne
      exact hne hnone
    case backed =>
      intro hnone
      by_contra hne
      exact hnull ⟨by
        rw [Option.isNone_iff_eq_none]
        exact Option.map_eq_none_iff.mp hnone, hne⟩
    case words => exact Nat.zero_le _
    case spare => exact fun k _ hk => absurd hk (Nat.not_lt_zero _)

/-- An item is put into the first free slot. -/
theorem Sound.place (h : Sound a live) {item : T}
    (hfind : a.freeSlots.findAndSet = .ok (some idx, fs)) (hidx : idx < 2 ^ 32)
    (hp : Arena.place { a with freeSlots := fs } idx item = .ok (handle, a')) :
    Sound a' (live ++ [(handle, item)]) := by
  obtain ⟨hsame, hlt, hfree, _, hbits⟩ := HeapBitmap.findAndSet_some h.backed hfind
  unfold Arena.place at hp
  dsimp only at hp
  split at hp
  case h_1 => cases hp
  case h_2 d hd =>
    cases hp
    rw [Nat.mod_eq_of_lt hidx]
    have hnew : idx ∉ live.map Prod.fst := by
      rw [← h.used idx hlt, hfree]
      exact Bool.false_ne_true
    have hmem : ∀ k, k ∈ (live ++ [(idx, item)]).map Prod.fst ↔
        k = idx ∨ k ∈ live.map Prod.fst := by
      intro k
      rw [List.map_append, List.mem_append, or_comm]
      simp
    constructor
    case nodup =>
      rw [List.map_append]
      exact List.nodup_append_comm.mp (List.nodup_cons.mpr ⟨hnew, h.nodup⟩)
    case used =>
      intro k hk
      rw [hmem, hbits k, Bool.or_eq_true, decide_eq_true_iff, h.used k (hsame.sz ▸ hk)]
    case below =>
      intro k hk
      show k < fs.sz
      rw [hsame.sz]
      rcases (hmem k).mp hk with rfl | hk
      · exact hlt
      · exact h.below k hk
    case values =>
      have hget : ∀ k, ((a.data.write (Function.update d idx item)).get k) =
          some (if k = idx then item else d k) := by
        intro k
        simp [Vec.get, Vec.write, hd, Function.update_apply]
      intro k x hx
      refine (hget k).trans ?_
      rcases List.mem_append.mp hx with hx | hx
      · have hne : k ≠ idx := fun heq => hnew (heq ▸ List.mem_map_of_mem hx)
        have hold := h.values k x hx
        rw [if_neg hne, ← hold]
        simp [Arena.get, Vec.get, hd]
      · obtain ⟨rfl, rfl⟩ := Prod.mk.inj (List.mem_singleton.mp hx)
        rw [if_pos rfl]
    case capacity =>
      show fs.sz ≤ a.data.capacity ∧ a.data.capacity < fs.sz + 64
      rw [hsame.sz]
      exact h.capacity
    case block =>
      exact ⟨h.block.1, fun hnone => h.block.2 (Option.map_eq_none_iff.mp hnone)⟩
    case backed =>
      intro hnone
      show fs.sz = 0
      rw [hsame.sz]
      exact h.backed (hsame.null.mp hnone)
    case words =>
      show fs.data.size ≤ (fs.sz + 63) / 64
      rw [hsame.sz, hsame.size]
      exact h.words
    case spare =>
      intro k hk hk'
      change fs.sz ≤ k at hk
      change k < 64 * fs.data.size at hk'
      rw [hsame.sz] at hk
      rw [hsame.size] at hk'
      have hne : k ≠ idx := by omega
      show fs.view.bit k = false
      rw [hbits k, h.spare k hk hk', decide_eq_false hne]
      rfl

/-- A growth that keeps everything: the words are all counted, and the block stays
or holds nothing. -/
theorem Sound.resize (h : Sound a live) (hgrow : a.freeSlots.sz < newsize)
    (hfit : newsize + 63 < 2 ^ 64) (hwords : a.freeSlots.sz ≤ 64 * a.freeSlots.data.size)
    (hblock : live = [] ∨ g.data.inPlace = true) (hr : a.resize g newsize = .ok a') :
    Sound a' live ∧ a'.freeSlots.sz = newsize := by
  obtain ⟨data, hdata, hr⟩ := bind_eq_ok.mp hr
  obtain ⟨fs, hfs, hr⟩ := bind_eq_ok.mp hr
  cases hr
  obtain ⟨hsz, hsize, hbacked, hbits⟩ := HeapBitmap.resize_spec hfit hfs
  obtain ⟨hdsize, hdcap, hdnull, _⟩ := Vec.reserve_spec hdata
  rw [h.block.1, Nat.max_zero] at hdcap hdnull
  -- below `newsize`, a bit is set where it was
  have hbit : ∀ k < newsize, fs.view.bit k = true ↔ k ∈ live.map Prod.fst := by
    intro k hk
    rw [hbits k (by omega)]
    by_cases hk64 : k < 64 * a.freeSlots.data.size
    · rw [if_pos hk64]
      by_cases hlt : k < a.freeSlots.sz
      · exact h.used k hlt
      · rw [h.spare k (by omega) hk64]
        exact iff_of_false (by decide) fun hin => hlt (h.below k hin)
    · rw [if_neg hk64]
      exact iff_of_false (by decide) fun hin => by
        have := h.below k hin
        omega
  refine ⟨?_, hsz⟩
  constructor
  case nodup => exact h.nodup
  case used => exact fun k hk => hbit k (hsz ▸ hk)
  case below =>
    intro k hk
    show k < fs.sz
    rw [hsz]
    exact (h.below k hk).trans hgrow
  case values =>
    intro k x hx
    rcases hblock with rfl | hg
    · cases hx
    · have hold := h.values k x hx
      have hd : a.data.data ≠ none := fun hnone => by
        simp [Arena.get, Vec.get, hnone] at hold
      show data.get k = some x
      rw [Vec.get, Vec.reserve_inPlace hg hdata hd]
      exact hold
  case capacity =>
    show fs.sz ≤ data.capacity ∧ data.capacity < fs.sz + 64
    omega
  case block =>
    refine ⟨hdsize.trans h.block.1, fun hnone => ?_⟩
    show data.capacity = 0
    rw [hdcap]
    exact hdnull hnone
  case backed => exact hbacked
  case words =>
    show fs.data.size ≤ (fs.sz + 63) / 64
    rw [hsize, hsz]
  case spare =>
    intro k hk hk'
    change fs.sz ≤ k at hk
    change k < 64 * fs.data.size at hk'
    show fs.view.bit k = false
    rw [hbits k (by omega)]
    by_cases hk64 : k < 64 * a.freeSlots.data.size
    · rw [if_pos hk64, h.spare k (by omega) hk64]
    · rw [if_neg hk64]

/-- `remove` frees the slot of a live handle. -/
theorem Sound.remove (h : Sound a live) (hr : a.remove handle = .ok a') :
    Sound a' (live.filter (·.1 ≠ handle)) := by
  obtain ⟨fs, hset, hr⟩ := bind_eq_ok.mp hr
  cases hr
  obtain ⟨bm, hput, hfs⟩ := bind_eq_ok.mp hset
  cases hfs
  obtain ⟨hlt, rfl⟩ := Bitmap.set_eq_ok hput
  have hlt : handle < a.freeSlots.sz := hlt
  have hd : a.freeSlots.data.data ≠ none := fun hnone => by
    rw [h.backed hnone] at hlt
    exact Nat.not_lt_zero _ hlt
  have hbits : ∀ k, (a.freeSlots.write (a.freeSlots.view.put handle false)).view.bit k =
      if k = handle then false else a.freeSlots.view.bit k := by
    intro k
    rw [HeapBitmap.bit_congr (HeapBitmap.write_view hd _) k, Bitmap.bit_put]
  have hmem : ∀ k, k ∈ (live.filter (·.1 ≠ handle)).map Prod.fst ↔
      k ≠ handle ∧ k ∈ live.map Prod.fst := by
    intro k
    simp only [List.mem_map, List.mem_filter, decide_eq_true_eq]
    constructor
    · rintro ⟨x, ⟨hx, hne⟩, rfl⟩
      exact ⟨hne, x, hx, rfl⟩
    · rintro ⟨hne, x, hx, rfl⟩
      exact ⟨x, ⟨hx, hne⟩, rfl⟩
  constructor
  case nodup => exact h.nodup.sublist (List.Sublist.map _ List.filter_sublist)
  case used =>
    intro k hk
    rw [hmem]
    refine (Bool.eq_iff_iff.mp (hbits k)).trans ?_
    by_cases hkh : k = handle
    · simp [hkh]
    · rw [if_neg hkh, h.used k hk]
      exact (and_iff_right hkh).symm
  case below => exact fun k hk => h.below k ((hmem k).mp hk).2
  case values => exact fun k x hx => h.values k x (List.mem_filter.mp hx).1
  case capacity => exact h.capacity
  case block => exact h.block
  case backed => exact fun hnone => h.backed (Option.map_eq_none_iff.mp hnone)
  case words => exact h.words
  case spare =>
    intro k hk hk'
    refine (hbits k).trans ?_
    split
    · rfl
    · exact h.spare k hk hk'

/-! ## Runs -/

/-- The operations, with the allocator's answers. -/
inductive Op (T : Type) where
  | pushBack (g : Growth T) (item : T)
  | emplaceBack (g : Growth T) (item : T)
  | remove (handle : ℕ)

/-- One operation and the handle that it is about. -/
def step (a : Arena T) : Op T → Except Halt (ℕ × Arena T)
  | .pushBack g item => a.pushBack g item
  | .emplaceBack g item => a.emplaceBack g item
  | .remove handle => do
    let a ← a.remove handle
    return (handle, a)

/-- The live handles and their values, one operation later. -/
def liveStep (live : List (ℕ × T)) : Op T × ℕ → List (ℕ × T)
  | (.pushBack _ item, handle) => live ++ [(handle, item)]
  | (.emplaceBack _ item, handle) => live ++ [(handle, item)]
  | (.remove _, handle) => live.filter (·.1 ≠ handle)

/-- The live handles after a history. -/
def liveAfter (h : List (Op T × ℕ)) : List (ℕ × T) := h.foldl liveStep []

/-- A slot is free, and its number fits into a handle. -/
def HasSlot (a : Arena T) : Prop :=
  ¬ ∀ k < min a.freeSlots.sz (2 ^ 32), a.freeSlots.view.bit k = true

/-- A growth that loses nothing: all words are counted, and the block grows in place
unless there are no elements yet. -/
def MayGrow (a : Arena T) (g : Growth T) : Prop :=
  a.freeSlots.sz < 2 ^ 32 ∧ a.freeSlots.sz ≤ 64 * a.freeSlots.data.size ∧
    (a.freeSlots.sz = 0 ∨ g.data.inPlace = true)

/-- No growth loses anything, and only live handles are removed. -/
def Careful (a : Arena T) : Op T → Prop
  | .pushBack g _ => a.HasSlot ∨ a.MayGrow g
  | .emplaceBack g _ => a.HasSlot ∨ a.MayGrow g ∧ a.data.capacity ≠ 0
  | .remove handle => handle < a.freeSlots.sz ∧ a.freeSlots.view.bit handle = true

instance (a : Arena T) : Decidable a.HasSlot := inferInstanceAs (Decidable (¬ ∀ k < _, _))

instance (a : Arena T) (g : Growth T) : Decidable (a.MayGrow g) :=
  inferInstanceAs (Decidable (_ ∧ _ ∧ (_ ∨ _)))

instance (a : Arena T) (op : Op T) : Decidable (a.Careful op) := by
  cases op <;> unfold Careful <;> infer_instance

/-- A free slot is found. -/
theorem Sound.place_ok (h : Sound a live) (item : T)
    (hfind : a.freeSlots.findAndSet = .ok (some idx, fs)) :
    ∃ r, Arena.place { a with freeSlots := fs } idx item = .ok r := by
  obtain ⟨_, hlt, _⟩ := HeapBitmap.findAndSet_some h.backed hfind
  have hcap := h.capacity.1
  have hd : a.data.data ≠ none := fun hnone => by
    have := h.block.2 hnone
    omega
  obtain ⟨d, hd⟩ := Option.ne_none_iff_exists'.mp hd
  unfold Arena.place
  simp only [hd]
  exact ⟨_, rfl⟩

/-- A search that fails changes nothing. -/
theorem Sound.searched (h : Sound a live) (hsame : HeapBitmap.SameSize a.freeSlots fs)
    (hbits : ∀ k, fs.view.bit k = a.freeSlots.view.bit k) :
    Sound { a with freeSlots := fs } live := by
  constructor
  case nodup => exact h.nodup
  case used =>
    intro k hk
    refine (Bool.eq_iff_iff.mp (hbits k)).trans (h.used k ?_)
    rw [← hsame.sz]
    exact hk
  case below => exact fun k hk => (h.below k hk).trans_eq hsame.sz.symm
  case values => exact h.values
  case capacity =>
    show fs.sz ≤ a.data.capacity ∧ a.data.capacity < fs.sz + 64
    rw [hsame.sz]
    exact h.capacity
  case block => exact h.block
  case backed => exact fun hnone => hsame.sz.trans (h.backed (hsame.null.mp hnone))
  case words =>
    show fs.data.size ≤ (fs.sz + 63) / 64
    rw [hsame.sz, hsame.size]
    exact h.words
  case spare =>
    intro k hk hk'
    refine (hbits k).trans (h.spare k ?_ ?_)
    · rw [← hsame.sz]
      exact hk
    · rw [← hsame.size]
      exact hk'

theorem Sound.insert (h : Sound a live) (item : T)
    (hslot : a.HasSlot ∨ a.MayGrow g ∧ a.freeSlots.sz < newsize ∧ newsize + 63 < 2 ^ 64) :
    ∃ handle a', a.insert newsize g item = .ok (handle, a') ∧
      Sound a' (live ++ [(handle, item)]) := by
  obtain ⟨⟨r, fs⟩, hfind⟩ := a.freeSlots.findAndSet_ok
  cases r with
  | some idx =>
    obtain ⟨_, hlt, hfree, hleast, _⟩ := HeapBitmap.findAndSet_some h.backed hfind
    have hidx : idx < 2 ^ 32 := by
      by_contra hge
      rcases hslot with hslot | hslot
      · exact hslot fun k hk => hleast k (by omega)
      · have := hslot.1.1
        omega
    obtain ⟨⟨handle, a'⟩, hplace⟩ := h.place_ok item hfind
    refine ⟨handle, a', ?_, h.place hfind hidx hplace⟩
    rw [Arena.insert, hfind, ok_bind]
    exact hplace
  | none =>
    obtain ⟨hsame, hfull, hbits⟩ := HeapBitmap.findAndSet_none hfind
    have hgrow := hslot.resolve_left fun hslot => hslot fun k hk => hfull k (by omega)
    obtain ⟨⟨hsz, hwords, hblock⟩, hlt, hfit⟩ := hgrow
    have h' := h.searched hsame hbits
    have hlive : live = [] ∨ g.data.inPlace = true := by
      refine hblock.imp_left fun hzero => ?_
      refine List.eq_nil_iff_forall_not_mem.mpr fun x hx => ?_
      have := h.below x.1 (List.mem_map_of_mem hx)
      omega
    have hcovered : fs.data.size ≤ (fs.sz + 63) / 64 := h'.words
    rw [hsame.sz] at hcovered
    obtain ⟨data, hdata⟩ := Vec.reserve_ok g.data newsize
      (show a.data.size < 2 ^ 32 by rw [h.block.1]; decide)
    obtain ⟨words, hws⟩ := Vec.resize_ok 0 g.words (align newsize 64 / 64)
      (show fs.data.size < 2 ^ 32 by omega)
    have hres : Arena.resize { a with freeSlots := fs } g newsize =
        .ok ⟨data, ⟨words, newsize⟩⟩ :=
      bind_eq_ok.mpr ⟨data, hdata, bind_eq_ok.mpr ⟨⟨words, newsize⟩,
        bind_eq_ok.mpr ⟨words, hws, rfl⟩, rfl⟩⟩
    obtain ⟨h'', hsz''⟩ := h'.resize (by rw [hsame.sz]; exact hlt) hfit
      (by rw [hsame.sz, hsame.size]; exact hwords) hlive hres
    -- now the slot behind the old ones is free
    obtain ⟨⟨r, fs'⟩, hfind'⟩ := HeapBitmap.findAndSet_ok ⟨words, newsize⟩
    have hclear : (⟨words, newsize⟩ : HeapBitmap).view.bit a.freeSlots.sz ≠ true := by
      rw [Ne, h''.used _ hlt]
      exact fun hin => Nat.lt_irrefl _ (h.below _ hin)
    cases r with
    | none => exact absurd ((HeapBitmap.findAndSet_none hfind').2.1 _ hlt) hclear
    | some idx =>
      obtain ⟨_, _, _, hleast, _⟩ := HeapBitmap.findAndSet_some h''.backed hfind'
      have hidx : idx < 2 ^ 32 := by
        by_contra hge
        exact hclear (hleast _ (by omega))
      obtain ⟨⟨handle, a'⟩, hplace⟩ := h''.place_ok item hfind'
      refine ⟨handle, a', ?_, h''.place hfind' hidx hplace⟩
      rw [Arena.insert, hfind, ok_bind]
      show (Arena.resize _ g newsize >>= _) = _
      rw [hres, ok_bind]
      show (HeapBitmap.findAndSet ⟨words, newsize⟩ >>= _) = _
      rw [hfind', ok_bind]
      exact hplace

theorem Sound.step (h : Sound a live) {op : Op T} (hc : a.Careful op) :
    ∃ r a', a.step op = .ok (r, a') ∧ Sound a' (liveStep live (op, r)) := by
  have hcap := h.capacity
  cases op with
  | pushBack g item =>
    refine h.insert item (hc.imp_right fun hg => ⟨hg, ?_⟩)
    have := hg.1
    unfold growfun
    split <;> omega
  | emplaceBack g item =>
    refine h.insert item (hc.imp_right fun hg => ⟨hg.1, ?_⟩)
    have := hg.1.1
    have := hg.2
    omega
  | remove handle =>
    have hr : a.remove handle = .ok { a with
        freeSlots := a.freeSlots.write (a.freeSlots.view.put handle false) } :=
      bind_eq_ok.mpr ⟨_, bind_eq_ok.mpr ⟨_, Bitmap.set_ok hc.1 false, rfl⟩, rfl⟩
    exact ⟨handle, _, bind_eq_ok.mpr ⟨_, hr, rfl⟩, h.remove hr⟩

theorem runs_sound {a₀ a : Arena T} {h : List (Op T × ℕ)} (hinit : init cap block words = .ok a₀)
    (hrun : Runs step Careful a₀ h a) : Sound a (liveAfter h) := by
  refine hrun.invariant (P := fun h a => Sound a (liveAfter h)) (init_sound hinit) ?_
  intro h a op r a' hs hc hstep
  obtain ⟨r', a'', hstep', hs'⟩ := hs.step hc
  obtain ⟨rfl, rfl⟩ := Prod.mk.inj (Except.ok.inj (hstep.symm.trans hstep'))
  rw [liveAfter, List.foldl_append]
  exact hs'

/-- **Stability.** From every constructor, in every run in which no growth loses
anything: the live handles are distinct, inside the capacity and lead to the values
they were given for, and every insertion returns. -/
theorem runs_stable {cap : ℕ} {block : ℕ → T} {words : ℕ → BitVec 64} {a₀ a : Arena T}
    {h : List (Op T × ℕ)} (hinit : init cap block words = .ok a₀)
    (hrun : Runs step Careful a₀ h a) :
    Stable a (liveAfter h) ∧ ∀ op, a.Careful op → ∃ r a', a.step op = .ok (r, a') := by
  have hsound := runs_sound hinit hrun
  refine ⟨hsound.stable, fun op hc => ?_⟩
  obtain ⟨r, a', hstep, _⟩ := hsound.step hc
  exact ⟨r, a', hstep⟩

/-! ## Runs on numbers -/

/-- Every block grows in place, or none does; new blocks are full of zeros. -/
def answers (inPlace : Bool) : Growth ℕ := ⟨⟨inPlace, fun _ => 0⟩, ⟨inPlace, fun _ => 0⟩⟩

/-- `push_back` of 10, 11, .. -/
def pushes (g : Growth ℕ) (n : ℕ) : List (Op ℕ) :=
  (List.range n).map fun i => .pushBack g (i + 10)

/-- A run from `Arena(cap)`. -/
def runFrom (guard : Arena ℕ → Op ℕ → Prop) [∀ a op, Decidable (guard a op)] (cap : ℕ)
    (ops : List (Op ℕ)) : Option (List (Op ℕ × ℕ) × Arena ℕ) :=
  (init cap (fun _ => 0) (fun _ => 0)).toOption.bind fun a => replay step guard [] a ops

/-- Three insertions, a removal and an insertion that takes the slot again. -/
theorem runs_stable_reused_slot :
    ∃ h a, Stable a (liveAfter h) ∧ liveAfter h = [(0, 10), (2, 12), (1, 40)] := by
  have hrun : (runFrom Careful 0 (pushes (answers false) 3 ++
      [.remove 1, .emplaceBack (answers false) 40])).map (fun r => liveAfter r.1) =
      some [(0, 10), (2, 12), (1, 40)] := by
    decide
  obtain ⟨⟨h, a⟩, hr, hlive⟩ := Option.map_eq_some_iff.mp hrun
  obtain ⟨a₀, hinit, hr⟩ := Option.bind_eq_some_iff.mp hr
  have hstable := runs_stable (eq_ok_of_toOption hinit) ((Runs.nil a₀).replay hr)
  exact ⟨h, a, hstable.1, hlive⟩

/-- The three steps that lose something: the ninth element of a default arena when the
block has to move (handle 0 then leads to what is in the new block), the 65th element
of `Arena(64)` even when the block grows in place (it gets handle 0 again), and the
first `emplace_back` of a default arena (it does not return). -/
theorem handles_lost :
    (∃ h a, runFrom (fun _ _ => True) 0 (pushes (answers false) 9) = some (h, a) ∧
      (0, 10) ∈ liveAfter h ∧ a.get 0 = some 0) ∧
    (∃ h a, runFrom (fun _ _ => True) 64 (pushes (answers true) 65) = some (h, a) ∧
      (0, 10) ∈ liveAfter h ∧ (0, 74) ∈ liveAfter h ∧ a.get 0 = some 74) ∧
    ∃ a, init 0 (fun _ => 0) (fun _ => 0) = .ok a ∧
      a.emplaceBack (answers true) 10 = .error (.exception "page fault: data.data[-1]") := by
  refine ⟨?_, ?_, ?_⟩
  · have hrun : (runFrom (fun _ _ => True) 0 (pushes (answers false) 9)).map
        (fun r => (decide ((0, 10) ∈ liveAfter r.1), r.2.get 0)) = some (true, some 0) := by
      decide
    obtain ⟨⟨h, a⟩, hr, heq⟩ := Option.map_eq_some_iff.mp hrun
    obtain ⟨hmem, hget⟩ := Prod.mk.inj heq
    exact ⟨h, a, hr, of_decide_eq_true hmem, hget⟩
  · have hrun : (runFrom (fun _ _ => True) 64 (pushes (answers true) 65)).map
        (fun r => (decide ((0, 10) ∈ liveAfter r.1 ∧ (0, 74) ∈ liveAfter r.1), r.2.get 0)) =
        some (true, some 74) := by
      decide +kernel
    obtain ⟨⟨h, a⟩, hr, heq⟩ := Option.map_eq_some_iff.mp hrun
    obtain ⟨hmem, hget⟩ := Prod.mk.inj heq
    obtain ⟨hold, hnew⟩ := of_decide_eq_true hmem
    exact ⟨h, a, hr, hold, hnew, hget⟩
  · exact ⟨_, rfl, rfl⟩

end Arena

end NeptunOS
