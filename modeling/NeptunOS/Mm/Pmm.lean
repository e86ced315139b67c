import NeptunOS.Lib.Ledger
import NeptunOS.Util.Bitmap

/-!
# `mm/pmm.cc`

The physical page allocator: `pmm_init` marks the pages of a Limine memory map
in a bitmap that it places, with the watermark area, in the first usable entry
that is large enough; `pmm_alloc` and `pmm_alloc4g` hand out runs of pages.

`Pmm.free` is the set of pages the allocator can still give. `pmmAlloc_grant`
is all a later proof needs about an allocation, `pmmInit_free` says which pages
are free after the boot.
-/

namespace NeptunOS

open Stepwise

/-- `MMAP_TYPES`. -/
inductive MmapType where
  | usable
  | reserved
  | acpiReclaimable
  | acpiNvs
  | badMemory
  | bootloaderReclaimable
  | kernelAndModules
  | framebuffer
deriving DecidableEq, Repr

/-- `limine_memmap_entry`. -/
structure MmapEntry where
  base : ℕ
  length : ℕ
  type : MmapType
deriving DecidableEq, Repr

/-- The bytes of an entry. -/
def MmapEntry.bytes (e : MmapEntry) : Set ℕ := Set.Ico e.base (e.base + e.length)

/-- A memory map as the boot protocol promises it: ranges of `u64` addresses,
sorted and without overlap, the usable ones made of whole pages. -/
structure MemoryMap where
  entries : List MmapEntry
  bounded : ∀ e ∈ entries, e.base + e.length ≤ 2 ^ 64
  sorted : entries.Pairwise fun e e' => e.base + e.length ≤ e'.base
  aligned : ∀ e ∈ entries, e.type = .usable → 4096 ∣ e.base ∧ 4096 ∣ e.length

/-- All usable memory is below the size of the direct map. -/
def MemoryMap.Low (mm : MemoryMap) : Prop :=
  ∀ e ∈ mm.entries, e.type = .usable → e.base + e.length ≤ 2 ^ 47

instance (mm : MemoryMap) : Decidable mm.Low :=
  inferInstanceAs (Decidable (∀ e ∈ mm.entries, _))

/-- The bytes of usable memory. -/
def MemoryMap.usable (mm : MemoryMap) : Set ℕ :=
  {a | ∃ e ∈ mm.entries, e.type = .usable ∧ a ∈ e.bytes}

/-- The state of `pmm.cc`: its globals, `pmm_bm->buffer` as an address, and the
watermark allocator's globals that `pmm_init` assigns. -/
structure Pmm where
  bm : Bitmap
  buffer : ℕ
  freemem : ℕ
  usedmem : ℕ
  wmCursor : ℕ
  wmFree : ℕ
  locked : Bool

namespace Pmm

/-- `WM_SIZE`. -/
def wmSize : ℕ := 64 <<< 20

theorem wmSize_eq : wmSize = 2 ^ 26 := by decide

/-- `last`: the last entry, or the one before it if that is reserved. -/
def lastEntry (entries : List MmapEntry) : Except Halt MmapEntry :=
  match entries.reverse with
  | [] => .error (.exception "entries[entry_count - 1]")
  | e :: rest =>
    if e.type = .reserved then
      match rest with
      | [] => .error (.exception "entries[entry_count - 2]")
      | e' :: _ => .ok e'
    else .ok e

/-- `n` rounds of
`for (..; j += PMM_PAGESIZE) pmm_bm->set((base + j) / PMM_PAGESIZE, val)`. -/
def markLoop (base : ℕ) (val : Bool) : ℕ → ℕ → Bitmap → Except Halt Bitmap
  | 0, _, b => .ok b
  | n + 1, j, b => do
    let b' ← b.set (wadd base j / 4096) val
    markLoop base val n (j + 4096) b'

/-- The loop above for all `j < limit`. -/
def markPages (base limit : ℕ) (val : Bool) (b : Bitmap) : Except Halt Bitmap :=
  markLoop base val ((limit + 4095) / 4096) 0 b

/-- The watermark area and the bitmap, if they are in this entry, are taken:
`bm_size`, a number of bits, is used as a number of bytes. -/
def reserve (bmSize buffer : ℕ) (e : MmapEntry) (bm : Bitmap) : Except Halt Bitmap :=
  if wadd e.base wmSize = phys buffer then
    markPages e.base (bmSize + wmSize) true bm
  else .ok bm

/-- One round of the second loop of `pmm_init`. -/
def initEntry (bmSize : ℕ) (p : Pmm) (e : MmapEntry) : Except Halt Pmm :=
  if e.type ≠ .usable then .ok p
  else do
    let bm ← markPages (align e.base 4096) (alignDown e.length 4096) false p.bm
    let bm' ← reserve bmSize p.buffer e bm
    return { p with bm := bm', freemem := wadd p.freemem e.length }

/-- The second loop of `pmm_init`. -/
def initEntries (bmSize : ℕ) : List MmapEntry → Pmm → Except Halt Pmm
  | [], p => .ok p
  | e :: es, p => do
    let p' ← initEntry bmSize p e
    initEntries bmSize es p'

/-- `bm_size`: the number of pages up to the end of the last entry. -/
def bmSize (last : MmapEntry) : ℕ := align (wadd last.base last.length) 4096 / 4096

/-- The first entry that takes the watermark area and the bitmap. -/
def candidate (size : ℕ) (entries : List MmapEntry) : Option MmapEntry :=
  entries.find? fun e => e.type = .usable ∧ size / 8 + wmSize ≤ e.length

/-- The state after the first loop of `pmm_init`. `garbage` is what the memory
of the bitmap held before. -/
def place (garbage : ℕ → BitVec 64) (size : ℕ) (e : MmapEntry) : Pmm where
  bm := Bitmap.init garbage size true
  buffer := virt (wadd e.base wmSize)
  freemem := 0
  usedmem := 0
  wmCursor := virt e.base
  wmFree := wmSize
  locked := false

end Pmm

open Pmm

/-- `pmm_init()`. -/
def pmmInit (garbage : ℕ → BitVec 64) (entries : List MmapEntry) :
    Except Halt Pmm := do
  let last ← lastEntry entries
  match candidate (bmSize last) entries with
  | none => .error (.fatal "No good candidate found for bitmap and WM alloc!")
  | some e =>
    let p ← initEntries (bmSize last) entries (place garbage (bmSize last) e)
    let bm ← p.bm.set 0 true
    return { p with bm := bm }

namespace Pmm

/-- Number of pages of a request. -/
def pages (size : ℕ) : ℕ := align size 4096 / 4096

/-- The common body of `pmm_alloc` and `pmm_alloc4g`. -/
def allocFrom (startAt : ℕ) (p : Pmm) (size : ℕ) : Except Halt (ℕ × Pmm) :=
  if p.locked then .error .spinning
  else do
    let (bit, bm) ← p.bm.findAndSetMultiple (pages size) startAt
    match bit with
    | none => .error (.fatal "PMM failed to allocate %llu bytes")
    | some bit =>
      return (virt (bit * 4096 % 2 ^ 64), {
        p with
        bm := bm
        usedmem := wadd p.usedmem (align size 4096)
        freemem := wsub p.freemem (align size 4096) })

end Pmm

/-- `pmm_alloc(size)`. `gibs2bytes(4)` is a shift of an `int`. -/
def pmmAlloc (p : Pmm) (size : ℕ) : Except Halt (ℕ × Pmm) :=
  allocFrom ((4 <<< 30) % 2 ^ 32 / 4096) p size

/-- `pmm_alloc4g(size)`. -/
def pmmAlloc4g (p : Pmm) (size : ℕ) : Except Halt (ℕ × Pmm) :=
  allocFrom 0 p size

namespace Pmm

/-! ## The marking loops -/

section Mark

variable {base j n : ℕ} {val : Bool} {b b' : Bitmap}

/-- The page of one round, when the sum does not wrap. -/
theorem page_eq (hj : 4096 ∣ j) (h : base + j < 2 ^ 64) :
    wadd base j / 4096 = base / 4096 + j / 4096 := by
  rw [wadd_of_lt h]
  omega

/-- `n` rounds set the pages `j / 4096 .. j / 4096 + n` of the range to `val`
and leave every other bit. -/
theorem markLoop_eq_ok (hj : 4096 ∣ j) (hfit : base + j + 4096 * n ≤ 2 ^ 64)
    (h : markLoop base val n j b = .ok b') :
    b'.sz = b.sz ∧ ∀ k, b'.bit k =
      if base / 4096 + j / 4096 ≤ k ∧ k < base / 4096 + j / 4096 + n then val
      else b.bit k := by
  induction n generalizing j b with
  | zero =>
    obtain rfl := Except.ok.inj h
    refine ⟨rfl, fun k => ?_⟩
    rw [if_neg (by omega)]
  | succ n ih =>
    obtain ⟨b₁, hset, h⟩ := bind_eq_ok.mp h
    obtain ⟨_, rfl⟩ := Bitmap.set_eq_ok hset
    rw [page_eq hj (by omega)] at h
    obtain ⟨hsz, hbit⟩ := ih (by omega) (by omega) h
    refine ⟨hsz, fun k => ?_⟩
    rw [hbit k, Bitmap.bit_put, Nat.add_div_right j (by decide)]
    by_cases hk : k = base / 4096 + j / 4096
    · rw [if_neg (by omega), if_pos hk, if_pos (by omega)]
    · rw [if_neg hk]
      exact if_congr (by omega) rfl rfl

theorem markLoop_ok (hj : 4096 ∣ j) (hfit : base + j + 4096 * n ≤ 2 ^ 64)
    (hsz : base / 4096 + j / 4096 + n ≤ b.sz) :
    ∃ b', markLoop base val n j b = .ok b' := by
  induction n generalizing j b with
  | zero => exact ⟨b, rfl⟩
  | succ n ih =>
    obtain ⟨b', hb'⟩ := @ih (j + 4096) (b.put (base / 4096 + j / 4096) val)
      (by omega) (by omega) (by rw [Bitmap.put_sz]; omega)
    refine ⟨b', bind_eq_ok.mpr ⟨_, ?_, hb'⟩⟩
    rw [page_eq hj (by omega)]
    exact Bitmap.set_ok (by omega) val

/-- A loop that returns has stayed in the bitmap. As the bitmap ends below page `2^52`, the
sums have not wrapped. -/
theorem markLoop_inside (hb : 4096 ∣ base) (hj : 4096 ∣ j) (hlt : base + j < 2 ^ 64)
    (hsz : b.sz < 2 ^ 52) (hn : n ≠ 0) (h : markLoop base val n j b = .ok b') :
    base / 4096 + j / 4096 + n ≤ b.sz := by
  induction n generalizing j b with
  | zero => exact absurd rfl hn
  | succ n ih =>
    obtain ⟨b₁, hset, h⟩ := bind_eq_ok.mp h
    obtain ⟨hin, rfl⟩ := Bitmap.set_eq_ok hset
    rw [page_eq hj hlt] at hin
    by_cases hz : n = 0
    · omega
    · have hrest := @ih (j + 4096) (b.put _ val) (by omega) (by omega) hsz hz h
      rw [Bitmap.put_sz] at hrest
      omega

end Mark

/-- The pages of an entry of whole pages. -/
def entryPages (e : MmapEntry) : Set ℕ :=
  Set.Ico (e.base / 4096) (e.base / 4096 + e.length / 4096)

/-- The pages that `pmm_init` marks for the watermark area and the bitmap of
`size` bits: a byte for each bit. -/
def heldPages (size : ℕ) (e : MmapEntry) : Set ℕ :=
  Set.Ico (e.base / 4096) (e.base / 4096 + (size + wmSize + 4095) / 4096)

instance (e : MmapEntry) : DecidablePred (· ∈ entryPages e) := fun k =>
  inferInstanceAs (Decidable (e.base / 4096 ≤ k ∧ k < _))

instance (size : ℕ) (e : MmapEntry) : DecidablePred (· ∈ heldPages size e) := fun k =>
  inferInstanceAs (Decidable (e.base / 4096 ≤ k ∧ k < _))

/-- What one entry of the map does to the bit of page `k`. -/
def entryMark (size buffer k : ℕ) (v : Bool) (e : MmapEntry) : Bool :=
  if e.type ≠ .usable then v
  else if wadd e.base wmSize = phys buffer ∧ k ∈ heldPages size e then true
  else if k ∈ entryPages e then false
  else v

/-- An entry of whole pages at an address. -/
structure Whole (e : MmapEntry) : Prop where
  base : 4096 ∣ e.base
  length : 4096 ∣ e.length
  lt : e.base < 2 ^ 64
  fits : e.base + e.length ≤ 2 ^ 64

/-- An entry in the lower half of the address space. -/
@[mk_iff]
structure Regular (e : MmapEntry) : Prop where
  base : 4096 ∣ e.base
  length : 4096 ∣ e.length
  fits : e.base + e.length ≤ 2 ^ 63

instance (e : MmapEntry) : Decidable (Regular e) := decidable_of_iff' _ (regular_iff e)

variable {e last cand : MmapEntry} {p : Pmm} {size : ℕ} {es : List MmapEntry}
  {garbage : ℕ → BitVec 64} {mm : MemoryMap}

theorem Regular.whole (h : Regular e) : Whole e :=
  ⟨h.base, h.length, by have := h.fits; omega, by have := h.fits; omega⟩

/-- The length of all usable entries. -/
def usableBytes : List MmapEntry → ℕ
  | [] => 0
  | e :: es => (if e.type = .usable then e.length else 0) + usableBytes es

/-- All that is marked for an entry lies in a bitmap of `sz` bits. -/
structure Inside (size buffer sz : ℕ) (e : MmapEntry) : Prop where
  entry : e.length ≠ 0 → e.base / 4096 + e.length / 4096 ≤ sz
  held : wadd e.base wmSize = phys buffer →
    e.base / 4096 + (size + wmSize + 4095) / 4096 ≤ sz

/-- The boot does not move the areas it has placed. -/
structure SameAreas (p p' : Pmm) : Prop where
  buffer : p'.buffer = p.buffer
  wmCursor : p'.wmCursor = p.wmCursor
  wmFree : p'.wmFree = p.wmFree
  locked : p'.locked = p.locked
  sz : p'.bm.sz = p.bm.sz

theorem SameAreas.refl (p : Pmm) : SameAreas p p := ⟨rfl, rfl, rfl, rfl, rfl⟩

theorem SameAreas.trans {p' p'' : Pmm} (h : SameAreas p p') (h' : SameAreas p' p'') :
    SameAreas p p'' :=
  ⟨h'.buffer.trans h.buffer, h'.wmCursor.trans h.wmCursor, h'.wmFree.trans h.wmFree,
    h'.locked.trans h.locked, h'.sz.trans h.sz⟩

section Entry

variable {size : ℕ} {e : MmapEntry} {p p' : Pmm}

theorem align_base (he : Whole e) : align e.base 4096 = e.base := by
  have := he.base
  have := he.lt
  unfold align
  rw [wadd_of_lt (by omega)]
  omega

/-- The loop over an entry of whole pages visits exactly its pages. -/
theorem markPages_entry (he : Whole e) (val : Bool) (b : Bitmap) :
    markPages (align e.base 4096) (alignDown e.length 4096) val b =
      markLoop e.base val (e.length / 4096) 0 b := by
  have hrounds : (alignDown e.length 4096 + 4095) / 4096 = e.length / 4096 := by
    unfold alignDown
    omega
  rw [markPages, align_base he, hrounds]

/-- Marking `n` pages from `e.base` on, if that returns. -/
theorem markLoop_entry {n : ℕ} {val : Bool} {b b' : Bitmap} (he : Whole e)
    (hsz : b.sz < 2 ^ 52) (h : markLoop e.base val n 0 b = .ok b') :
    (n ≠ 0 → e.base / 4096 + n ≤ b.sz) ∧ b'.sz = b.sz ∧ ∀ k, b'.bit k =
      if e.base / 4096 ≤ k ∧ k < e.base / 4096 + n then val else b.bit k := by
  have hlt := he.lt
  have hin : n ≠ 0 → e.base / 4096 + n ≤ b.sz := fun hn => by
    simpa using markLoop_inside he.base (Nat.dvd_zero _) (by omega) hsz hn h
  have hfit : e.base + 0 + 4096 * n ≤ 2 ^ 64 := by
    by_cases hn : n = 0
    · omega
    · omega
  exact ⟨hin, by simpa using markLoop_eq_ok (Nat.dvd_zero _) hfit h⟩

theorem reserve_eq_ok {buffer : ℕ} {b b' : Bitmap} (he : Whole e) (hsz : b.sz < 2 ^ 52)
    (h : reserve size buffer e b = .ok b') :
    (wadd e.base wmSize = phys buffer →
        e.base / 4096 + (size + wmSize + 4095) / 4096 ≤ b.sz) ∧
      b'.sz = b.sz ∧ ∀ k, b'.bit k =
        if wadd e.base wmSize = phys buffer ∧ k ∈ heldPages size e then true
        else b.bit k := by
  have hwm := wmSize_eq
  unfold reserve at h
  split at h
  case isTrue hc =>
    obtain ⟨hin, hsz', hbit⟩ := markLoop_entry he hsz h
    refine ⟨fun _ => hin (by omega), hsz', fun k => ?_⟩
    simp only [hbit k, hc, true_and]
    rfl
  case isFalse hc =>
    obtain rfl := Except.ok.inj h
    refine ⟨fun hc' => absurd hc' hc, rfl, fun k => ?_⟩
    rw [if_neg fun h => hc h.1]

/-- What a round that returns has done. -/
theorem initEntry_eq_ok (he : e.type = .usable → Whole e) (hsz : p.bm.sz < 2 ^ 52)
    (h : initEntry size p e = .ok p') :
    SameAreas p p' ∧ (e.type = .usable → Inside size p.buffer p.bm.sz e) ∧
      ∀ k, p'.bm.bit k = entryMark size p.buffer k (p.bm.bit k) e := by
  unfold initEntry at h
  unfold entryMark
  by_cases hu : e.type = .usable
  case neg =>
    rw [if_pos hu] at h
    obtain rfl := Except.ok.inj h
    refine ⟨SameAreas.refl _, fun hu' => absurd hu' hu, fun k => ?_⟩
    rw [if_pos hu]
  case pos =>
    have hlen := (he hu).length
    rw [if_neg (not_not_intro hu)] at h
    obtain ⟨b₁, h₁, h⟩ := bind_eq_ok.mp h
    obtain ⟨b₂, h₂, h⟩ := bind_eq_ok.mp h
    obtain rfl := Except.ok.inj h
    rw [markPages_entry (he hu)] at h₁
    obtain ⟨hin₁, hsz₁, hbit₁⟩ := markLoop_entry (he hu) hsz h₁
    obtain ⟨hin₂, hsz₂, hbit₂⟩ := reserve_eq_ok (he hu) (hsz₁ ▸ hsz) h₂
    refine ⟨⟨rfl, rfl, rfl, rfl, hsz₂.trans hsz₁⟩,
      fun _ => ⟨fun hne => hin₁ (by omega), hsz₁ ▸ hin₂⟩, fun k => ?_⟩
    rw [if_neg (not_not_intro hu)]
    show b₂.bit k = _
    rw [hbit₂ k, hbit₁ k]
    rfl

/-- An entry inside the bitmap is marked without stopping. -/
theorem initEntry_ok (he : e.type = .usable → Whole e) (hsz : p.bm.sz < 2 ^ 52)
    (hin : e.type = .usable → Inside size p.buffer p.bm.sz e) :
    ∃ p', initEntry size p e = .ok p' := by
  unfold initEntry
  by_cases hu : e.type = .usable
  case neg => exact ⟨p, if_pos hu⟩
  case pos =>
    have hentry := (hin hu).entry
    rw [if_neg (not_not_intro hu)]
    obtain ⟨b₁, h₁⟩ : ∃ b₁, markLoop e.base false (e.length / 4096) 0 p.bm = .ok b₁ := by
      by_cases hz : e.length = 0
      · rw [hz]
        exact ⟨p.bm, rfl⟩
      · exact markLoop_ok (Nat.dvd_zero _) (by omega) (by simpa using hentry hz)
    have hsz₁ := (markLoop_entry (he hu) hsz h₁).2.1
    rw [← markPages_entry (he hu)] at h₁
    obtain ⟨b₂, h₂⟩ : ∃ b₂, reserve size p.buffer e b₁ = .ok b₂ := by
      unfold reserve
      split
      case isTrue hc =>
        have hheld := (hin hu).held hc
        exact markLoop_ok (Nat.dvd_zero _) (by omega) (by rw [hsz₁]; simpa using hheld)
      case isFalse => exact ⟨b₁, rfl⟩
    exact ⟨_, bind_eq_ok.mpr ⟨b₁, h₁, bind_eq_ok.mpr ⟨b₂, h₂, rfl⟩⟩⟩

end Entry

section Entries

variable {size : ℕ} {es : List MmapEntry} {p p' : Pmm}

/-- The whole loop, bit by bit. -/
theorem initEntries_eq_ok (he : ∀ e ∈ es, e.type = .usable → Whole e)
    (hsz : p.bm.sz < 2 ^ 52) (h : initEntries size es p = .ok p') :
    SameAreas p p' ∧ (∀ e ∈ es, e.type = .usable → Inside size p.buffer p.bm.sz e) ∧
      ∀ k, p'.bm.bit k = es.foldl (entryMark size p.buffer k) (p.bm.bit k) := by
  induction es generalizing p with
  | nil =>
    obtain rfl := Except.ok.inj h
    exact ⟨SameAreas.refl _, fun e he => absurd he List.not_mem_nil, fun _ => rfl⟩
  | cons e es ih =>
    obtain ⟨p₁, h₁, h⟩ := bind_eq_ok.mp h
    obtain ⟨hs₁, hin₁, hbit₁⟩ := initEntry_eq_ok (he e (by simp)) hsz h₁
    obtain ⟨hs, hin, hbit⟩ := ih (fun e' he' => he e' (by simp [he'])) (hs₁.sz ▸ hsz) h
    rw [hs₁.buffer, hs₁.sz] at hin
    refine ⟨hs₁.trans hs, List.forall_mem_cons.mpr ⟨hin₁, hin⟩, fun k => ?_⟩
    rw [hbit k, hs₁.buffer, hbit₁ k, List.foldl_cons]

theorem initEntries_ok (he : ∀ e ∈ es, e.type = .usable → Whole e) (hsz : p.bm.sz < 2 ^ 52)
    (hin : ∀ e ∈ es, e.type = .usable → Inside size p.buffer p.bm.sz e) :
    ∃ p', initEntries size es p = .ok p' := by
  induction es generalizing p with
  | nil => exact ⟨p, rfl⟩
  | cons e es ih =>
    obtain ⟨p₁, h₁⟩ := initEntry_ok (he e (by simp)) hsz (hin e (by simp))
    obtain ⟨hs₁, -, -⟩ := initEntry_eq_ok (he e (by simp)) hsz h₁
    obtain ⟨p', h'⟩ := @ih p₁ (fun e' he' => he e' (by simp [he'])) (hs₁.sz ▸ hsz)
      (fun e' he' => by rw [hs₁.sz, hs₁.buffer]; exact hin e' (by simp [he']))
    exact ⟨p', bind_eq_ok.mpr ⟨p₁, h₁, h'⟩⟩

/-- `pmm_freemem` counts the length of every usable entry. -/
theorem initEntries_freemem (hp : p.freemem < 2 ^ 64) (h : initEntries size es p = .ok p') :
    p'.freemem = (p.freemem + usableBytes es) % 2 ^ 64 ∧ p'.usedmem = p.usedmem := by
  induction es generalizing p with
  | nil =>
    obtain rfl := Except.ok.inj h
    exact ⟨(Nat.mod_eq_of_lt hp).symm, rfl⟩
  | cons e es ih =>
    obtain ⟨p₁, h₁, h⟩ := bind_eq_ok.mp h
    unfold initEntry at h₁
    unfold usableBytes
    split at h₁
    case isTrue hu =>
      obtain rfl := Except.ok.inj h₁
      rw [if_neg hu, Nat.zero_add]
      exact ih hp h
    case isFalse hu =>
      obtain ⟨_, -, h₁⟩ := bind_eq_ok.mp h₁
      obtain ⟨_, -, h₁⟩ := bind_eq_ok.mp h₁
      obtain rfl := Except.ok.inj h₁
      obtain ⟨hfree, hused⟩ := ih (wadd_lt _ _) h
      rw [if_pos (not_not.mp hu)]
      refine ⟨hfree.trans ?_, hused⟩
      show (wadd p.freemem e.length + _) % 2 ^ 64 = _
      unfold wadd
      omega

end Entries

/-! ## Free pages after the boot -/

/-- Pages the allocator can still give. -/
def free (p : Pmm) : Set ℕ := {k | k < p.bm.sz ∧ p.bm.bit k = false}

section Fold

variable {size buffer k : ℕ} {es : List MmapEntry} {v : Bool}

/-- Only a usable entry clears the bit of a page, and only of its own. -/
theorem fold_false (h : es.foldl (entryMark size buffer k) v = false) :
    v = false ∨ ∃ e ∈ es, e.type = .usable ∧ k ∈ entryPages e := by
  induction es generalizing v with
  | nil => exact .inl h
  | cons e es ih =>
    rcases ih h with hv | ⟨e', he', hk⟩
    · unfold entryMark at hv
      split at hv
      · exact .inl hv
      · split at hv
        · cases hv
        · split at hv
          · exact .inr ⟨e, by simp, not_not.mp ‹_›, ‹_›⟩
          · exact .inl hv
    · exact .inr ⟨e', by simp [he'], hk⟩

/-- Entries above a page do not touch it. -/
theorem fold_above (h : ∀ e ∈ es, k < e.base / 4096) :
    es.foldl (entryMark size buffer k) v = v := by
  induction es with
  | nil => rfl
  | cons e es ih =>
    have hk := h e List.mem_cons_self
    have hmark : entryMark size buffer k v e = v := by
      have hheld : k ∉ heldPages size e := fun hin => Nat.not_le.mpr hk hin.1
      have hin : k ∉ entryPages e := fun hin => Nat.not_le.mpr hk hin.1
      simp [entryMark, hheld, hin]
    rw [List.foldl_cons, hmark]
    exact ih fun e' he' => h e' (List.mem_cons_of_mem _ he')

/-- A usable page ends up free unless its own entry holds it: the entries before are
marked earlier, and the ones after start above it. -/
theorem fold_entry {e : MmapEntry} (hmem : e ∈ es) (hu : e.type = .usable)
    (hsorted : es.Pairwise fun e e' => e.base + e.length ≤ e'.base)
    (hwhole : ∀ e ∈ es, e.type = .usable → Whole e) (hin : k ∈ entryPages e) :
    es.foldl (entryMark size buffer k) v =
      decide (wadd e.base wmSize = phys buffer ∧ k ∈ heldPages size e) := by
  obtain ⟨pre, post, rfl⟩ := List.append_of_mem hmem
  have hlater := (List.pairwise_cons.mp (List.pairwise_append.mp hsorted).2.1).1
  have hw := hwhole e hmem hu
  have hmark : ∀ w, entryMark size buffer k w e =
      decide (wadd e.base wmSize = phys buffer ∧ k ∈ heldPages size e) := by
    intro w
    rw [entryMark, if_neg (not_not_intro hu), if_pos hin]
    split <;> simp [*]
  rw [List.foldl_append, List.foldl_cons, hmark]
  apply fold_above
  intro e' he'
  have hle := hlater e' he'
  have hk := hin.2
  omega

end Fold

/-- What `pmm_init` leaves behind: the watermark area at `cand.base`, the
bitmap after it, and only usable pages outside both to give away. -/
structure Booted (mm : MemoryMap) (cand : MmapEntry) (p : Pmm) : Prop where
  mem : cand ∈ mm.entries
  usable : cand.type = .usable
  wmCursor : p.wmCursor = virt cand.base
  wmFree : p.wmFree = wmSize
  buffer : p.buffer = virt (cand.base + wmSize)
  room : wmSize + p.bm.sz / 8 ≤ cand.length
  locked : p.locked = false
  zero : 0 ∉ p.free
  inUsable : ∀ k ∈ p.free, ∃ e ∈ mm.entries, e.type = .usable ∧ k ∈ entryPages e
  notHeld : ∀ k ∈ p.free, cand.base ≤ 4096 * k → cand.base + wmSize + p.bm.sz / 8 ≤ 4096 * k

theorem bmSize_lt (last : MmapEntry) : bmSize last < 2 ^ 52 := by
  have := align_lt (wadd last.base last.length) 4096
  unfold bmSize
  omega

/-- The candidate is a usable entry with room for both areas. -/
theorem candidate_some (h : candidate size es = some e) :
    e ∈ es ∧ e.type = .usable ∧ size / 8 + wmSize ≤ e.length := by
  refine ⟨List.mem_of_find?_eq_some h, ?_⟩
  simpa using List.find?_some h

theorem place_sz_lt (garbage : ℕ → BitVec 64) (last cand : MmapEntry) :
    (place garbage (bmSize last) cand).bm.sz < 2 ^ 52 :=
  (Nat.div_mul_le_self _ _).trans_lt (bmSize_lt last)

/-- What a boot that returns has made of the map: `size` is `bm_size`, `cand` the entry
with the areas. -/
structure Marked (garbage : ℕ → BitVec 64) (es : List MmapEntry) (size : ℕ)
    (cand : MmapEntry) (p : Pmm) : Prop where
  pos : 0 < alignDown size 64
  inside : ∀ e ∈ es, e.type = .usable →
    Inside size (virt (wadd cand.base wmSize)) (alignDown size 64) e
  areas : SameAreas (place garbage size cand) p
  bits : ∀ k < alignDown size 64, p.bm.bit k = if k = 0 then true else
    es.foldl (entryMark size (virt (wadd cand.base wmSize)) k) true
  freemem : p.freemem = usableBytes es % 2 ^ 64
  usedmem : p.usedmem = 0

theorem pmmInit_marked (he : ∀ e ∈ es, e.type = .usable → Whole e)
    (h : pmmInit garbage es = .ok p) :
    ∃ last cand, lastEntry es = .ok last ∧ candidate (bmSize last) es = some cand ∧
      Marked garbage es (bmSize last) cand p := by
  obtain ⟨last, hlast, h⟩ := bind_eq_ok.mp h
  split at h
  case h_1 => cases h
  case h_2 cand hcand =>
    obtain ⟨q, hq, h⟩ := bind_eq_ok.mp h
    obtain ⟨bm, hbm, h⟩ := bind_eq_ok.mp h
    obtain ⟨hpos, rfl⟩ := Bitmap.set_eq_ok hbm
    obtain rfl := Except.ok.inj h
    obtain ⟨hsame, hin, hbits⟩ := initEntries_eq_ok he (place_sz_lt garbage last cand) hq
    obtain ⟨hfree, hused⟩ := initEntries_freemem (show 0 < 2 ^ 64 by decide) hq
    rw [hsame.sz] at hpos
    rw [show (place garbage (bmSize last) cand).freemem = 0 from rfl, Nat.zero_add] at hfree
    refine ⟨last, cand, hlast, hcand, hpos, hin,
      ⟨hsame.buffer, hsame.wmCursor, hsame.wmFree, hsame.locked, hsame.sz⟩, fun k hk => ?_,
      hfree, hused⟩
    show (q.bm.put 0 true).bit k = _
    rw [Bitmap.bit_put, hbits k]
    rw [show (place garbage (bmSize last) cand).bm.bit k = true from
      Bitmap.init_bit garbage true hk]
    rfl

/-- A boot returns when the bitmap covers everything it marks. -/
theorem pmmInit_returns (garbage : ℕ → BitVec 64) (hlast : lastEntry es = .ok last)
    (hcand : candidate (bmSize last) es = some cand) (he : ∀ e ∈ es, e.type = .usable → Whole e)
    (hpos : 0 < alignDown (bmSize last) 64) (hin : ∀ e ∈ es, e.type = .usable →
      Inside (bmSize last) (virt (wadd cand.base wmSize)) (alignDown (bmSize last) 64) e) :
    ∃ p, pmmInit garbage es = .ok p := by
  have hsz := place_sz_lt garbage last cand
  obtain ⟨q, hq⟩ := initEntries_ok he hsz hin
  obtain ⟨hsame, -, -⟩ := initEntries_eq_ok he hsz hq
  have hset : q.bm.set 0 true = .ok (q.bm.put 0 true) :=
    Bitmap.set_ok (by rw [hsame.sz]; exact hpos) true
  refine ⟨{ q with bm := q.bm.put 0 true }, ?_⟩
  unfold pmmInit
  rw [bind_eq_ok]
  refine ⟨last, hlast, ?_⟩
  rw [hcand]
  exact bind_eq_ok.mpr ⟨q, hq, bind_eq_ok.mpr ⟨_, hset, rfl⟩⟩

/-- A boot on a map in the lower half of the address space, with its bits. -/
theorem pmmInit_ok (garbage : ℕ → BitVec 64) (hlast : lastEntry es = .ok last)
    (hsize : bmSize last = size) (hcand : candidate size es = some cand)
    (he : ∀ e ∈ es, e.type = .usable → Regular e) (hpos : 0 < alignDown size 64)
    (hin : ∀ e ∈ es, e.type = .usable →
      e.base / 4096 + e.length / 4096 ≤ alignDown size 64) (hheld : ∀ e ∈ es, e.type = .usable →
      wadd e.base wmSize = phys (virt (wadd cand.base wmSize)) →
        e.base / 4096 + (size + wmSize + 4095) / 4096 ≤ alignDown size 64) :
    ∃ p, pmmInit garbage es = .ok p ∧ Marked garbage es size cand p := by
  subst hsize
  have hwhole : ∀ e ∈ es, e.type = .usable → Whole e := fun e hm hu => (he e hm hu).whole
  obtain ⟨p, hp⟩ := pmmInit_returns garbage hlast hcand hwhole hpos
    fun e hm hu => ⟨fun _ => hin e hm hu, hheld e hm hu⟩
  obtain ⟨last', cand', hlast', hcand', hmarked⟩ := pmmInit_marked hwhole hp
  obtain rfl := Except.ok.inj (hlast.symm.trans hlast')
  obtain rfl := Option.some.inj (hcand.symm.trans hcand')
  exact ⟨p, hp, hmarked⟩

theorem whole_of_low (hlow : mm.Low) : ∀ e ∈ mm.entries, e.type = .usable → Whole e := by
  intro e he hu
  have := hlow e he hu
  exact ⟨(mm.aligned e he hu).1, (mm.aligned e he hu).2, by omega, by omega⟩

theorem pmmInit_booted (hlow : mm.Low) (h : pmmInit garbage mm.entries = .ok p) :
    ∃ cand, Booted mm cand p := by
  have hwhole := whole_of_low hlow
  obtain ⟨last, cand, -, hcand, hmarked⟩ := pmmInit_marked hwhole h
  obtain ⟨hmem, hu, hroom⟩ := candidate_some hcand
  generalize bmSize last = size at *
  have hsame := hmarked.areas
  have hcl := hlow cand hmem hu
  have hbase : wadd cand.base wmSize = cand.base + wmSize := wadd_of_lt (by omega)
  have hsz : p.bm.sz = alignDown size 64 := hsame.sz
  have hszle : p.bm.sz ≤ size := by rw [hsz]; exact Nat.div_mul_le_self _ _
  -- a free page was cleared by some entry and is not page 0
  have hfree : ∀ k ∈ p.free, k ≠ 0 ∧ mm.entries.foldl
      (entryMark size (virt (wadd cand.base wmSize)) k) true = false := by
    rintro k ⟨hk, hbit⟩
    rw [hmarked.bits k (hsz ▸ hk)] at hbit
    split at hbit
    · cases hbit
    · exact ⟨‹_›, hbit⟩
  refine ⟨cand, hmem, hu, hsame.wmCursor, hsame.wmFree, ?_, ?_, hsame.locked, ?_, ?_, ?_⟩
  case refine_1 => exact hsame.buffer.trans (congrArg virt hbase)
  case refine_2 => omega
  case refine_3 => exact fun h0 => (hfree 0 h0).1 rfl
  case refine_4 =>
    intro k hk
    rcases fold_false (hfree k hk).2 with hfalse | hused
    · cases hfalse
    · exact hused
  case refine_5 =>
    intro k hk hle
    by_contra hlt
    obtain ⟨hcb, hcl'⟩ := mm.aligned cand hmem hu
    have hin : k ∈ entryPages cand := ⟨by omega, by omega⟩
    have hheld : k ∈ heldPages size cand := ⟨by omega, by omega⟩
    have hpos := hmarked.pos
    have hbuf : wadd cand.base wmSize = phys (virt (wadd cand.base wmSize)) := by
      rw [hbase, phys_virt_of_lt]
      unfold alignDown at hpos
      omega
    have hfold := (hfree k hk).2
    rw [fold_entry hmem hu mm.sorted hwhole hin, decide_eq_true ⟨hbuf, hheld⟩] at hfold
    cases hfold

/-! ## Allocations -/

theorem pages_mul (size : ℕ) : pages size * 4096 = align size 4096 :=
  Nat.div_mul_cancel (align_dvd size 4096)

/-- An allocation of `n` pages at page `c`: the lowest free run, which is no
longer free afterwards. -/
structure Grant (p : Pmm) (n c : ℕ) (p' : Pmm) : Prop where
  pos : 0 < n
  avail : Set.Ico c (c + n) ⊆ p.free
  least : ∀ c' < c, ¬ Set.Ico c' (c' + n) ⊆ p.free
  rest : p'.free = p.free \ Set.Ico c (c + n)
  areas : SameAreas p p'

/-- Clear bits inside the bitmap are free pages. -/
theorem clear_iff {c n : ℕ} (hn : 0 < n) :
    Set.Ico c (c + n) ⊆ p.free ↔ c + n ≤ p.bm.sz ∧ p.bm.Clear c n := by
  constructor
  · intro h
    have hlast := h ⟨by omega, by omega⟩ (a := c + (n - 1))
    refine ⟨by have := hlast.1; omega, fun k hk hk' => (h ⟨hk, hk'⟩).2⟩
  · rintro ⟨hsz, hclear⟩ k ⟨hk, hk'⟩
    exact ⟨by omega, hclear k hk hk'⟩

section Alloc

variable {p p' : Pmm} {size ptr : ℕ}

theorem allocFrom_grant (h : allocFrom 0 p size = .ok (ptr, p')) :
    ∃ c, ptr = virt (c * 4096 % 2 ^ 64) ∧ Grant p (pages size) c p' := by
  unfold allocFrom at h
  split at h
  case isTrue => cases h
  case isFalse hfree =>
    obtain ⟨⟨bit, bm⟩, hfind, h⟩ := bind_eq_ok.mp h
    obtain ⟨hn, hfound⟩ := Bitmap.findAndSetMultiple_zero hfind
    cases bit with
    | none => cases h
    | some c =>
      obtain ⟨-, hfit, hclear, hleast, hsz, hbits⟩ := hfound
      change bm.sz = p.bm.sz at hsz
      cases h
      refine ⟨c, rfl, hn, (clear_iff hn).mpr ⟨hfit, hclear⟩, ?_, ?_, ?_⟩
      · intro c' hc' hsub
        exact hleast c' (Nat.zero_le _) hc' ((clear_iff hn).mp hsub).2
      · ext k
        show k < bm.sz ∧ bm.bit k = false ↔ _
        rw [hbits k, hsz]
        by_cases hk : c ≤ k ∧ k < c + pages size
        · simp [hk]
        · rw [decide_eq_false hk, Bool.false_or]
          exact ⟨fun h => ⟨h, hk⟩, And.left⟩
      · exact ⟨rfl, rfl, rfl, rfl, hsz⟩

/-- A free run is found. -/
theorem allocFrom_ok {c : ℕ} (hlock : p.locked = false) (hn : 0 < pages size)
    (hc : Set.Ico c (c + pages size) ⊆ p.free) :
    ∃ ptr p', allocFrom 0 p size = .ok (ptr, p') := by
  obtain ⟨⟨bit, bm⟩, hfind⟩ := Bitmap.findAndSetMultiple_zero_ok p.bm hn
  obtain ⟨hfit, hclear⟩ := (clear_iff hn).mp hc
  unfold allocFrom
  rw [hlock, if_neg (by decide), hfind]
  cases bit with
  | none =>
    obtain ⟨_, hnone⟩ := (Bitmap.findAndSetMultiple_zero hfind).2
    exact absurd hclear (hnone c (Nat.zero_le _) hfit)
  | some c' => exact ⟨_, _, rfl⟩

/-- `pmm_alloc` searches from page 0 as well. -/
theorem pmmAlloc_eq (p : Pmm) (size : ℕ) : pmmAlloc p size = allocFrom 0 p size := rfl

end Alloc

end Pmm

end NeptunOS
