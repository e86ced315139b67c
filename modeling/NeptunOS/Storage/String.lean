import NeptunOS.Heap.MemoryMgr
import NeptunOS.Storage.Vector

/-!
# `String` of `util/storage.hh`

A `Vector<char>` whose `size` does not count the terminator. Blocks have the length
that the allocator gives them, the requested bytes rounded up to 16; each object logs
the ranges its operations write.

The operations disagree on whether the capacity includes the terminator. Copies and
`+= char` reserve no byte for it, so that they write behind the block when the length
is a multiple of 16; move construction is a copy of the base class and sets none.
What is written there is the redzone of the block, and freeing the block then halts.
`strings_represented` says which steps keep every string inside its block and
terminated, and that these are all.
-/

namespace NeptunOS

open Stepwise

/-- A block of the heap. -/
structure Block where
  len : ℕ
  bytes : ℕ → UInt8

/-- `memcpy` of `n` bytes to offset `off`. -/
def Block.store (b : Block) (off : ℕ) (src : ℕ → UInt8) (n : ℕ) : Block :=
  { b with bytes := fun i => if off ≤ i ∧ i < off + n then src (i - off) else b.bytes i }

/-- A write of `count` bytes to a block of length `len`. -/
structure Write where
  offset : ℕ
  count : ℕ
  len : ℕ
deriving DecidableEq, Repr

/-- The write stays in its block. -/
def Write.Inside (w : Write) : Prop := w.count = 0 ∨ w.offset + w.count ≤ w.len

instance (w : Write) : Decidable w.Inside := inferInstanceAs (Decidable (_ ∨ _))

/-- `_galloc(n)`. -/
def galloc (g : Grow UInt8) (n : ℕ) : Option Block :=
  if n = 0 then none else some ⟨align n 16, g.block⟩

/-- `String`, with the writes it has made. -/
structure Str where
  data : Option Block
  size : ℕ
  capacity : ℕ
  log : List Write

namespace Str

/-- `String()`. -/
def empty : Str := ⟨none, 0, 0, []⟩

/-- `memcpy(&data[off], src, n)`. -/
def store (s : Str) (off : ℕ) (src : ℕ → UInt8) (n : ℕ) : Except Halt Str :=
  match s.data with
  | none =>
    if n = 0 then .ok s else .error (.exception "page fault: data is null")
  | some b =>
    .ok { s with data := some (b.store off src n), log := s.log ++ [⟨off, n, b.len⟩] }

/-- `data[size] = 0`. -/
def terminate (s : Str) : Except Halt Str := s.store s.size (fun _ => 0) 1

/-- The last write went behind the block and changed the redzone. A `reserve` that keeps
the block dresses it anew, and a write follows. -/
def spilled (s : Str) : Bool :=
  match s.data, s.log.getLast? with
  | some b, some w => !decide w.Inside && b.bytes b.len != Heap.redzoneMagic
  | _, _ => false

/-- What `check` in `_gfree` ends with. -/
def corrupted : Halt := .paused "Redzone corruption after allocation (%p)!\nAllocated @ %s:%d"

/-- `_gfree(data)`, as in `~String()`. -/
def free (s : Str) : Except Halt Unit := if s.spilled then .error corrupted else .ok ()

/-- `Vector<char>::reserve(cap)`. A block that is long enough is always kept. -/
def reserve (s : Str) (g : Grow UInt8) (cap : ℕ) : Except Halt Str :=
  let cap := if cap < s.size then s.size else cap
  match s.data with
  | none => .ok { s with data := galloc g cap, capacity := cap }
  | some b =>
    if align cap 16 ≤ b.len then .ok { s with capacity := cap }
    else if g.inPlace then
      .ok { s with data := some { b with len := align cap 16 }, capacity := cap }
    else if 2 ^ 32 ≤ s.size then .error .endless
    else do
      s.free
      { s with data := galloc g cap, capacity := cap }.store 0 b.bytes s.size

/-- `strlen(str)`, which counts in a `u8`. -/
def strlen (str : List UInt8) : ℕ := str.length % 2 ^ 8

/-- The bytes at a pointer. -/
def bytesOf (str : List UInt8) (i : ℕ) : UInt8 := str.getD i 0

/-- `String(const char* str)`. -/
def ofCStr (g : Grow UInt8) (str : List UInt8) : Except Halt Str := do
  let size := strlen str
  let s : Str := ⟨galloc g (size + 1), size, size + 1, []⟩
  let s ← s.store 0 (bytesOf str) (size + 1)
  s.terminate

/-- `String(const char* str, u64 len)`. -/
def substr (g : Grow UInt8) (str : List UInt8) (len : ℕ) : Except Halt Str := do
  let capacity := wadd len 1
  let size := wsub capacity 1
  let s : Str := ⟨galloc g capacity, size, capacity, []⟩
  let s ← s.store 0 (bytesOf str) size
  s.terminate

/-- The bytes a string points to. -/
def bytes (s : Str) (i : ℕ) : UInt8 := (s.data.map fun b => b.bytes i).getD 0

/-- `String(const String& o)`. -/
def copy (g : Grow UInt8) (o : Str) : Except Halt Str :=
  if o.size = 0 then .ok empty
  else Str.store ⟨galloc g o.size, o.size, o.size, []⟩ 0 o.bytes (o.size + 1)

/-- `String(String&& o)`: `o` is an lvalue, so the vector is copied. -/
def move (g : Grow UInt8) (o : Str) : Except Halt Str := do
  let s ← empty.reserve g o.capacity
  let s ← s.store 0 o.bytes o.size
  return { s with size := o.size }

/-- `operator=(const String& o)`. When `o` is the string itself, what is copied are
the bytes of the new block. -/
def assign (g : Grow UInt8) (s o : Str) (self : Bool) : Except Halt Str := do
  s.free
  if o.size = 0 then return { s with data := none, size := 0, capacity := 0 }
  else
    Str.store { s with data := galloc g o.size, size := o.size, capacity := o.size } 0
      (if self then g.block else o.bytes) (o.size + 1)

/-- `operator+=(const char* str)`. -/
def appendCStr (g : Grow UInt8) (s : Str) (str : List UInt8) : Except Halt Str := do
  let len := strlen str
  let s ← s.reserve g (wadd (wadd s.size len) 1)
  let s ← s.store s.size (bytesOf str) len
  terminate { s with size := wadd s.size len }

/-- `operator+=(char c)`. -/
def appendChar (g : Grow UInt8) (s : Str) (c : UInt8) : Except Halt Str := do
  let s ← s.reserve g (wadd s.size 1)
  let s ← s.store s.size (fun _ => c) 1
  terminate { s with size := wadd s.size 1 }

/-- `Vector<char>::resize(n)`: new characters are 0. -/
def vecResize (g : Grow UInt8) (s : Str) (n : ℕ) : Except Halt Str := do
  let s ← s.reserve g n
  let s ← s.store s.size (fun _ => 0) (n - s.size)
  return { s with size := n }

/-- `resize(n)`. -/
def resize (g g' : Grow UInt8) (s : Str) (n : ℕ) : Except Halt Str := do
  let s ← s.vecResize g n
  let s ← s.reserve g' (wadd n 1)
  s.terminate

/-- `operator=(String&& o)`: the string and what is left in `o`. -/
def moveAssign (s o : Str) : Except Halt (Str × Str) := do
  s.free
  return ({ o with log := s.log ++ o.log }, { o with data := none, size := 0, capacity := 0 })

/-! ## The representation -/

/-- All writes are inside, and allocated data is terminated inside its block. -/
structure Represented (s : Str) : Prop where
  inside : ∀ w ∈ s.log, w.Inside
  terminated : ∀ b, s.data = some b → s.size < b.len ∧ b.bytes s.size = 0

/-- What every operation leaves, also the wrong ones. -/
structure Shape (s : Str) : Prop where
  null : s.data = none → s.size = 0
  fits : s.size ≤ s.capacity

/-- A string that is represented and has the shape. -/
structure Proper (s : Str) : Prop extends Represented s, Shape s

theorem empty_proper : Proper empty where
  inside w hw := by cases hw
  terminated b hb := by cases hb
  null _ := rfl
  fits := Nat.le_refl _

section

variable {s s' : Str} {g : Grow UInt8} {off n cap : ℕ} {src : ℕ → UInt8}

/-- The log is inside up to now. -/
def LogInside (s : Str) : Prop := ∀ w ∈ s.log, w.Inside

theorem store_eq_ok {b : Block} (hb : s.data = some b) (h : s.store off src n = .ok s') :
    s' = { s with data := some (b.store off src n), log := s.log ++ [⟨off, n, b.len⟩] } := by
  unfold store at h
  rw [hb] at h
  exact (Except.ok.inj h).symm

theorem free_of_inside (h : s.LogInside) : s.free = .ok () := by
  unfold free spilled
  split
  case h_1 b w _ hw => simp [h w (List.mem_of_getLast? hw)]
  case h_2 => rfl

theorem logInside_snoc {w : Write} {log : List Write} :
    (∀ x ∈ log ++ [w], x.Inside) ↔ (∀ x ∈ log, x.Inside) ∧ w.Inside := by
  simp [or_imp, forall_and]

/-- `data[size] = 0` is right where there is room for it. -/
theorem terminate_represented {b : Block} (hb : s.data = some b)
    (h : s.terminate = .ok s') : Represented s' ↔ s.LogInside ∧ s.size < b.len := by
  obtain rfl := store_eq_ok hb h
  constructor
  · intro hr
    obtain ⟨hlog, _⟩ := logInside_snoc.mp hr.inside
    exact ⟨hlog, (hr.terminated _ rfl).1⟩
  · rintro ⟨hlog, hlt⟩
    constructor
    case inside => exact logInside_snoc.mpr ⟨hlog, .inr hlt⟩
    case terminated =>
      intro b' hb'
      obtain rfl := Option.some.inj hb'
      refine ⟨hlt, ?_⟩
      simp [Block.store]

/-- `reserve` makes room for `cap` bytes and keeps the characters. -/
structure Reserved (s : Str) (cap : ℕ) (s' : Str) : Prop where
  size : s'.size = s.size
  capacity : s'.capacity = max cap s.size
  log : s.LogInside → s'.LogInside
  block : 0 < max cap s.size → ∃ b', s'.data = some b' ∧
    (∀ i < s.size, b'.bytes i = s.bytes i) ∧
    b'.len = max (align (max cap s.size) 16) ((s.data.map Block.len).getD 0)

theorem reserve_reserved (hnull : s.data = none → s.size = 0)
    (hfit : max cap s.size + 15 < 2 ^ 64) (h : s.reserve g cap = .ok s') :
    Reserved s cap s' := by
  have hmax : (if cap < s.size then s.size else cap) = max cap s.size := by
    split <;> omega
  have halign := align_of_lt (a := 16) hfit
  unfold reserve at h
  rw [hmax] at h
  dsimp only at h
  split at h
  case h_1 hnone =>
    cases h
    refine ⟨rfl, rfl, fun hlog => hlog, fun hpos => ?_⟩
    refine ⟨⟨align (max cap s.size) 16, g.block⟩, if_neg (by omega), fun i hi => ?_, ?_⟩
    · rw [hnull hnone] at hi
      exact absurd hi (Nat.not_lt_zero i)
    · rw [hnone]
      exact (Nat.max_zero _).symm
  case h_2 b hb =>
    have hbytes : ∀ i, s.bytes i = b.bytes i := fun i => by rw [bytes, hb]; rfl
    have hlen : (s.data.map Block.len).getD 0 = b.len := by rw [hb]; rfl
    split at h
    case isTrue hfits =>
      cases h
      refine ⟨rfl, rfl, fun hlog => hlog, fun _ => ⟨b, hb, fun i _ => (hbytes i).symm, ?_⟩⟩
      rw [hlen, Nat.max_eq_right hfits]
    case isFalse hfits =>
      split at h
      case isTrue =>
        cases h
        refine ⟨rfl, rfl, fun hlog => hlog, fun _ =>
          ⟨_, rfl, fun i _ => (hbytes i).symm, ?_⟩⟩
        rw [hlen]
        exact (Nat.max_eq_left (Nat.le_of_not_le hfits)).symm
      case isFalse =>
        split at h
        case isTrue => cases h
        case isFalse =>
          have hpos : max cap s.size ≠ 0 := by
            intro hzero
            rw [hzero] at hfits
            exact hfits (Nat.zero_le _)
          have hnew : galloc g (max cap s.size) =
              some ⟨align (max cap s.size) 16, g.block⟩ := if_neg hpos
          obtain ⟨-, -, h⟩ := bind_eq_ok.mp h
          obtain rfl := store_eq_ok hnew h
          refine ⟨rfl, rfl, fun hlog => ?_, fun _ => ⟨_, rfl, fun i hi => ?_, ?_⟩⟩
          · exact logInside_snoc.mpr ⟨hlog, .inr (by simp only []; omega)⟩
          · simp [Block.store, hi, hbytes]
          · rw [hlen]
            exact (Nat.max_eq_left (Nat.le_of_not_le hfits)).symm

/-! ## The operations -/

variable {o : Str} {str : List UInt8} {size log}

/-- The first write to a new block. -/
theorem store_new (hn : n ≠ 0) {k : ℕ} (h : store ⟨galloc g n, size, cap, log⟩ 0 src k = .ok s') :
    s' = ⟨some (Block.store ⟨align n 16, g.block⟩ 0 src k), size, cap,
      log ++ [⟨0, k, align n 16⟩]⟩ :=
  store_eq_ok (if_neg hn) h

/-- A text of `len` characters and its terminator in a block of `len + 1`. -/
theorem fresh_spec {len k : ℕ} (hlen : len + 16 < 2 ^ 64) (hk : k ≤ len + 1) {s₁ : Str}
    (h₁ : store ⟨galloc g (len + 1), len, len + 1, []⟩ 0 src k = .ok s₁)
    (h : s₁.terminate = .ok s') : Shape s' ∧ Represented s' := by
  have halign := align_of_lt (show len + 1 + (16 - 1) < 2 ^ 64 by omega)
  obtain rfl := store_new (Nat.succ_ne_zero _) h₁
  constructor
  · obtain rfl := store_eq_ok rfl h
    exact ⟨fun hn => (by cases hn), Nat.le_succ _⟩
  · refine (terminate_represented rfl h).mpr ⟨logInside_snoc.mpr ⟨?_, .inr ?_⟩, ?_⟩
    · exact fun w hw => by cases hw
    · show 0 + k ≤ align (len + 1) 16
      omega
    · show len < align (len + 1) 16
      omega

theorem ofCStr_spec (h : ofCStr g str = .ok s') : Shape s' ∧ Represented s' := by
  have hlt : strlen str < 2 ^ 8 := Nat.mod_lt _ (by decide)
  obtain ⟨s₁, h₁, h⟩ := bind_eq_ok.mp h
  exact fresh_spec (by omega) (Nat.le_refl _) h₁ h

theorem substr_spec {len : ℕ} (hlen : len + 16 < 2 ^ 64) (h : substr g str len = .ok s') :
    Shape s' ∧ Represented s' := by
  have hcap : wadd len 1 = len + 1 := wadd_of_lt (by omega)
  have hsize : wsub (len + 1) 1 = len := by rw [wsub_of_le (by omega) (by omega)]; omega
  unfold substr at h
  simp only [hcap, hsize] at h
  obtain ⟨s₁, h₁, h⟩ := bind_eq_ok.mp h
  exact fresh_spec hlen (Nat.le_succ _) h₁ h

/-- `size + 1` bytes copied to a block of `size`: right unless the size is a multiple
of 16, provided that the last byte copied is 0. -/
theorem copied_represented (hn : n ≠ 0) (hfit : n + 15 < 2 ^ 64)
    (hlog : ∀ w ∈ log, w.Inside) (h : store ⟨galloc g n, n, n, log⟩ 0 src (n + 1) = .ok s') :
    Shape s' ∧ (Represented s' ↔ n % 16 ≠ 0 ∧ src n = 0) := by
  have halign := align_of_lt (a := 16) hfit
  obtain rfl := store_new hn h
  have hlast : (Block.store ⟨align n 16, g.block⟩ 0 src (n + 1)).bytes n = src n := by
    simp [Block.store]
  refine ⟨⟨fun hnone => (by cases hnone), Nat.le_refl _⟩, ?_⟩
  constructor
  · intro hr
    obtain ⟨hlt, hzero⟩ := hr.terminated _ rfl
    change n < align n 16 at hlt
    exact ⟨by omega, hlast.symm.trans hzero⟩
  · rintro ⟨hmod, hzero⟩
    have hroom : n + 1 ≤ align n 16 := by omega
    constructor
    case inside => exact logInside_snoc.mpr ⟨hlog, .inr (by simpa using hroom)⟩
    case terminated =>
      intro b hb
      obtain rfl := Option.some.inj hb
      exact ⟨hroom, hlast.trans hzero⟩

/-- The terminator of a string with characters. -/
theorem Proper.bytes_size (ho : Proper o) : o.bytes o.size = 0 := by
  unfold bytes
  cases hdata : o.data with
  | none => rfl
  | some b => exact (ho.terminated b hdata).2

theorem copy_spec (ho : Proper o) (hfit : o.size + 15 < 2 ^ 64) (h : copy g o = .ok s') :
    Shape s' ∧ (Represented s' ↔ o.size = 0 ∨ o.size % 16 ≠ 0) := by
  unfold copy at h
  split at h
  case isTrue hzero =>
    cases h
    exact ⟨empty_proper.toShape, iff_of_true empty_proper.toRepresented (.inl hzero)⟩
  case isFalse hpos =>
    obtain ⟨hshape, hiff⟩ := copied_represented hpos hfit (fun w hw => by cases hw) h
    refine ⟨hshape, hiff.trans ?_⟩
    simp [hpos, ho.bytes_size]

/-- The copy of a string of `n` characters writes one byte behind its block. -/
def Spills (n : ℕ) : Prop := n ≠ 0 ∧ n % 16 = 0

instance : DecidablePred Spills := fun _ => inferInstanceAs (Decidable (_ ∧ _))

/-- A string of `n` characters is copied and the copy destroyed. -/
def destroyCopy (n : ℕ) : Except Halt Unit := if Spills n then .error corrupted else .ok ()

theorem copy_free (ho : Proper o) (hfit : o.size + 15 < 2 ^ 64) :
    (do let s ← copy g o; s.free) = destroyCopy o.size := by
  have halign := align_of_lt (a := 16) hfit
  unfold copy destroyCopy Spills
  split
  case isTrue hzero => simp [hzero, free, spilled, empty]
  case isFalse hpos =>
    have hnew : galloc g o.size = some ⟨align o.size 16, g.block⟩ := if_neg hpos
    have hlast := ho.bytes_size
    rw [hnew, store, ok_bind, free, spilled]
    by_cases hmod : o.size % 16 = 0
    · have hlen : align o.size 16 = o.size := by omega
      simp [hlen, hpos, hmod, Write.Inside, Block.store, hlast, Heap.redzoneMagic]
    · have hlen : o.size + 1 ≤ align o.size 16 := by omega
      simp [hmod, Write.Inside, hlen]

theorem assign_spec (hs : Proper s) (ho : Proper o) {self : Bool}
    (hfit : o.size + 15 < 2 ^ 64) (h : assign g s o self = .ok s') :
    Shape s' ∧ (Represented s' ↔
      o.size = 0 ∨ o.size % 16 ≠ 0 ∧ (self = true → g.block o.size = 0)) := by
  obtain ⟨-, -, h⟩ := bind_eq_ok.mp h
  split at h
  case isTrue hzero =>
    cases h
    exact ⟨⟨fun _ => rfl, Nat.le_refl _⟩,
      iff_of_true ⟨hs.inside, fun b hb => by cases hb⟩ (.inl hzero)⟩
  case isFalse hpos =>
    obtain ⟨hshape, hiff⟩ := copied_represented hpos hfit hs.inside h
    refine ⟨hshape, hiff.trans ?_⟩
    cases self <;> simp [hpos, ho.bytes_size]

/-- Nothing terminates the copy that move construction makes. -/
theorem move_spec (ho : Proper o) (h : move g o = .ok s') :
    Shape s' ∧ (Represented s' ↔ o.capacity = 0 ∨
      o.size < align o.capacity 16 ∧ g.block o.size = 0) := by
  have hle := ho.fits
  obtain ⟨s₁, h₁, h⟩ := bind_eq_ok.mp h
  obtain ⟨s₂, h₂, h⟩ := bind_eq_ok.mp h
  cases h
  have hs₁ : s₁ = ⟨galloc g o.capacity, 0, o.capacity, []⟩ := (Except.ok.inj h₁).symm
  subst hs₁
  by_cases hcap : o.capacity = 0
  case pos =>
    have hnull : galloc g o.capacity = none := if_pos hcap
    have hsize : o.size = 0 := by omega
    unfold store at h₂
    simp only [hnull, hsize, if_true] at h₂
    cases h₂
    refine ⟨⟨fun _ => hsize, hle⟩, iff_of_true ⟨fun w hw => (by cases hw), ?_⟩ (.inl hcap)⟩
    exact fun b hb => by cases hb
  case neg =>
    obtain rfl := store_new hcap h₂
    have hlast : (Block.store ⟨align o.capacity 16, g.block⟩ 0 o.bytes o.size).bytes o.size =
        g.block o.size := by simp [Block.store]
    refine ⟨⟨fun hnone => (by cases hnone), hle⟩, ?_⟩
    constructor
    · intro hr
      obtain ⟨hlt, hzero⟩ := hr.terminated _ rfl
      exact .inr ⟨hlt, hlast.symm.trans hzero⟩
    · rintro (hzero | ⟨hlt, hzero⟩)
      · exact absurd hzero hcap
      · constructor
        case inside =>
          refine logInside_snoc.mpr ⟨fun w hw => (by cases hw), .inr ?_⟩
          show 0 + o.size ≤ align o.capacity 16
          omega
        case terminated =>
          intro b hb
          obtain rfl := Option.some.inj hb
          exact ⟨hlt, hlast.trans hzero⟩

section

variable (hs : Proper s)

include hs

/-- Room for `m` characters, `m` written at the end, and a terminator. -/
theorem append_spec {m : ℕ} (hcap : s.size + m ≤ cap) (hpos : 0 < cap)
    (hfit : cap + 15 < 2 ^ 64) {s₁ s₂ : Str} (hreserve : s.reserve g cap = .ok s₁)
    (hstore : s₁.store s₁.size src m = .ok s₂)
    (h : terminate { s₂ with size := wadd s₂.size m } = .ok s') :
    Shape s' ∧ (Represented s' ↔
      s.size + m < max (align cap 16) ((s.data.map Block.len).getD 0)) := by
  have hmax : max cap s.size = cap := Nat.max_eq_left (by omega)
  have hres := reserve_reserved hs.null (by omega) hreserve
  obtain ⟨b, hb, -, hlen⟩ := hres.block (by omega)
  have hcapacity := hres.capacity
  have hsize := hres.size
  have hadd : wadd s₁.size m = s.size + m := by rw [hsize, wadd_of_lt (by omega)]
  rw [hmax] at hlen hcapacity
  obtain rfl := store_eq_ok hb hstore
  simp only [hadd] at h
  constructor
  · obtain rfl := store_eq_ok rfl h
    exact ⟨fun hn => (by cases hn), by simp only []; omega⟩
  · rw [terminate_represented rfl h, ← hlen]
    refine and_iff_right_of_imp fun hlt => ?_
    refine logInside_snoc.mpr ⟨hres.log hs.inside, .inr ?_⟩
    simp only [hsize]
    exact Nat.le_of_lt hlt

theorem appendCStr_spec (hfit : s.size + 2 ^ 8 + 15 < 2 ^ 64)
    (h : appendCStr g s str = .ok s') : Shape s' ∧ Represented s' := by
  have hlt : strlen str < 2 ^ 8 := Nat.mod_lt _ (by decide)
  have hcap : wadd (wadd s.size (strlen str)) 1 = s.size + strlen str + 1 := by
    rw [wadd_assoc, wadd_of_lt (by omega)]
    rfl
  have halign := align_of_lt (show s.size + strlen str + 1 + (16 - 1) < 2 ^ 64 by omega)
  unfold appendCStr at h
  simp only [hcap] at h
  obtain ⟨s₁, h₁, h⟩ := bind_eq_ok.mp h
  obtain ⟨s₂, h₂, h⟩ := bind_eq_ok.mp h
  obtain ⟨hshape, hiff⟩ := append_spec hs (Nat.le_add_right _ 1) (Nat.succ_pos _) (by omega) h₁ h₂ h
  exact ⟨hshape, hiff.mpr (Nat.lt_of_lt_of_le (by omega) (Nat.le_max_left _ _))⟩

/-- `+= char` reserves the character and not the terminator. -/
theorem appendChar_spec {c : UInt8} (hfit : s.size + 16 < 2 ^ 64) (h : appendChar g s c = .ok s') :
    Shape s' ∧ (Represented s' ↔
      (s.size + 1) % 16 ≠ 0 ∨ s.size + 1 < (s.data.map Block.len).getD 0) := by
  have hcap : wadd s.size 1 = s.size + 1 := wadd_of_lt (by omega)
  have halign := align_of_lt (show s.size + 1 + (16 - 1) < 2 ^ 64 by omega)
  unfold appendChar at h
  rw [hcap] at h
  obtain ⟨s₁, h₁, h⟩ := bind_eq_ok.mp h
  obtain ⟨s₂, h₂, h⟩ := bind_eq_ok.mp h
  obtain ⟨hshape, hiff⟩ := append_spec hs (Nat.le_refl _) (Nat.succ_pos _) (by omega) h₁ h₂ h
  refine ⟨hshape, hiff.trans ?_⟩
  omega

/-- The characters and new zeros, before the byte for the terminator is reserved. -/
theorem vecResize_spec (hfit : max n s.size + 15 < 2 ^ 64) (h : vecResize g s n = .ok s') :
    s'.LogInside ∧ s'.size = n ∧ (s'.data = none → s'.size = 0) := by
  have halign := align_of_lt (a := 16) hfit
  obtain ⟨s₁, h₁, h⟩ := bind_eq_ok.mp h
  obtain ⟨s₂, h₂, h⟩ := bind_eq_ok.mp h
  cases h
  have hres := reserve_reserved hs.null hfit h₁
  have hlog := hres.log hs.inside
  by_cases hpos : 0 < max n s.size
  case pos =>
    obtain ⟨b, hb, -, hlen⟩ := hres.block hpos
    obtain rfl := store_eq_ok hb h₂
    refine ⟨logInside_snoc.mpr ⟨hlog, ?_⟩, rfl, fun hn => (by cases hn)⟩
    unfold Write.Inside
    simp only []
    omega
  case neg =>
    have hzero : n - s₁.size = 0 := by omega
    unfold store at h₂
    rw [hzero] at h₂
    split at h₂
    case h_1 =>
      cases h₂
      exact ⟨hlog, rfl, fun _ => by simp only []; omega⟩
    case h_2 =>
      cases h₂
      exact ⟨logInside_snoc.mpr ⟨hlog, .inl rfl⟩, rfl, fun hn => (by cases hn)⟩

theorem resize_spec {g' : Grow UInt8} (hfit : max n s.size + 16 < 2 ^ 64)
    (h : resize g g' s n = .ok s') : Shape s' ∧ Represented s' := by
  have hcap : wadd n 1 = n + 1 := wadd_of_lt (by omega)
  have halign := align_of_lt (show n + 1 + (16 - 1) < 2 ^ 64 by omega)
  unfold resize at h
  rw [hcap] at h
  obtain ⟨s₁, h₁, h⟩ := bind_eq_ok.mp h
  obtain ⟨s₂, h₂, h⟩ := bind_eq_ok.mp h
  obtain ⟨hlog, hsize, hnull⟩ := vecResize_spec hs (by omega) h₁
  have hres := reserve_reserved hnull (by omega) h₂
  have hmax : max (n + 1) s₁.size = n + 1 := Nat.max_eq_left (by omega)
  obtain ⟨b, hb, -, hlen⟩ := hres.block (by omega)
  have hsize₂ : s₂.size = n := hres.size.trans hsize
  have hcapacity := hres.capacity
  rw [hmax] at hlen hcapacity
  constructor
  · obtain rfl := store_eq_ok hb h
    exact ⟨fun hn => (by cases hn), by simp only []; omega⟩
  · exact (terminate_represented hb h).mpr ⟨hres.log hlog, by omega⟩

end

end

/-! ## Sequences of operations -/

/-- An operation on the strings of a program, with what the allocator answers. -/
inductive Op where
  | default (i : ℕ)
  | ofCStr (i : ℕ) (str : List UInt8) (g : Grow UInt8)
  | substr (i : ℕ) (str : List UInt8) (len : ℕ) (g : Grow UInt8)
  | copy (i j : ℕ) (g : Grow UInt8)
  | move (i j : ℕ) (g : Grow UInt8)
  | assign (i j : ℕ) (g : Grow UInt8)
  | moveAssign (i j : ℕ)
  | appendCStr (i : ℕ) (str : List UInt8) (g : Grow UInt8)
  | appendChar (i : ℕ) (c : UInt8) (g : Grow UInt8)
  | resize (i n : ℕ) (g g' : Grow UInt8)

/-- The strings of a program by name. A constructor replaces what its name stood for. -/
abbrev Env := ℕ → Str

open Function (update)

def step (e : Env) : Op → Except Halt (Unit × Env)
  | .default i => .ok ((), update e i empty)
  | .ofCStr i str g => return ((), update e i (← Str.ofCStr g str))
  | .substr i str len g => return ((), update e i (← Str.substr g str len))
  | .copy i j g => return ((), update e i (← Str.copy g (e j)))
  | .move i j g => return ((), update e i (← Str.move g (e j)))
  | .assign i j g => return ((), update e i (← Str.assign g (e i) (e j) (i == j)))
  | .moveAssign i j => do
    let (s, o) ← Str.moveAssign (e i) (e j)
    return ((), update (update e i s) j o)
  | .appendCStr i str g => return ((), update e i (← Str.appendCStr g (e i) str))
  | .appendChar i c g => return ((), update e i (← Str.appendChar g (e i) c))
  | .resize i n g g' => return ((), update e i (← Str.resize g g' (e i) n))

/-- The request and its rounding stay below `2 ^ 64`. -/
def Fits (e : Env) : Op → Prop
  | .substr _ _ len _ => len + 16 < 2 ^ 64
  | .copy _ j _ => (e j).size + 15 < 2 ^ 64
  | .move _ j _ => (e j).capacity + 15 < 2 ^ 64
  | .assign _ j _ => (e j).size + 15 < 2 ^ 64
  | .appendCStr i _ _ => (e i).size + 2 ^ 8 + 15 < 2 ^ 64
  | .appendChar i _ _ => (e i).size + 16 < 2 ^ 64
  | .resize i n _ _ => max n (e i).size + 16 < 2 ^ 64
  | .default _ | .ofCStr .. | .moveAssign .. => True

/-- What the operation leaves to chance. -/
def Careful (e : Env) : Op → Prop
  | .copy _ j _ => (e j).size = 0 ∨ (e j).size % 16 ≠ 0
  | .assign i j g =>
    (e j).size = 0 ∨ (e j).size % 16 ≠ 0 ∧ (i = j → g.block (e j).size = 0)
  | .move _ j g =>
    (e j).capacity = 0 ∨ (e j).size < align (e j).capacity 16 ∧ g.block (e j).size = 0
  | .appendChar i _ _ =>
    ((e i).size + 1) % 16 ≠ 0 ∨ (e i).size + 1 < ((e i).data.map Block.len).getD 0
  | .default _ | .ofCStr .. | .substr .. | .moveAssign .. | .appendCStr .. | .resize .. => True

instance (e : Env) : DecidablePred (Fits e)
  | .substr .. | .copy .. | .move .. | .assign .. | .appendCStr .. | .appendChar ..
  | .resize .. => inferInstanceAs (Decidable (_ < _))
  | .default _ | .ofCStr .. | .moveAssign .. => inferInstanceAs (Decidable True)

instance (e : Env) : DecidablePred (Careful e)
  | .copy .. => inferInstanceAs (Decidable (_ ∨ _ ≠ _))
  | .assign .. => inferInstanceAs (Decidable (_ ∨ _ ≠ _ ∧ (_ → _)))
  | .move .. => inferInstanceAs (Decidable (_ ∨ _ ∧ _))
  | .appendChar .. => inferInstanceAs (Decidable (_ ≠ _ ∨ _))
  | .default _ | .ofCStr .. | .substr .. | .moveAssign .. | .appendCStr .. | .resize .. =>
    inferInstanceAs (Decidable True)

section

variable {e e' : Env}

/-- One object is replaced by the result of an operation. -/
theorem replaced (he : ∀ i, Proper (e i)) {i : ℕ} {s' : Str} {P : Prop}
    (h : Shape s' ∧ (Represented s' ↔ P)) :
    (∀ k, Shape (update e i s' k)) ∧ ((∀ k, Represented (update e i s' k)) ↔ P) := by
  rw [Function.forall_update_iff e (fun _ s => Shape s),
    Function.forall_update_iff e (fun _ s => Represented s)]
  refine ⟨⟨h.1, fun k _ => (he k).toShape⟩, ?_⟩
  rw [and_iff_left fun k _ => (he k).toRepresented]
  exact h.2

theorem step_spec (he : ∀ i, Proper (e i)) {op : Op} (hfit : Fits e op)
    (h : step e op = .ok ((), e')) :
    (∀ i, Shape (e' i)) ∧ ((∀ i, Represented (e' i)) ↔ Careful e op) := by
  have always : ∀ {i : ℕ} {s' : Str}, Shape s' ∧ Represented s' →
      (∀ k, Shape (update e i s' k)) ∧ ((∀ k, Represented (update e i s' k)) ↔ True) :=
    fun hs => replaced he ⟨hs.1, iff_true_intro hs.2⟩
  cases op with
  | default i =>
    cases h
    exact always ⟨empty_proper.toShape, empty_proper.toRepresented⟩
  | ofCStr i str g =>
    obtain ⟨s', hs, h⟩ := bind_eq_ok.mp h
    cases h
    exact always (ofCStr_spec hs)
  | substr i str len g =>
    obtain ⟨s', hs, h⟩ := bind_eq_ok.mp h
    cases h
    exact always (substr_spec hfit hs)
  | copy i j g =>
    obtain ⟨s', hs, h⟩ := bind_eq_ok.mp h
    cases h
    exact replaced he (copy_spec (he j) hfit hs)
  | move i j g =>
    obtain ⟨s', hs, h⟩ := bind_eq_ok.mp h
    cases h
    exact replaced he (move_spec (he j) hs)
  | assign i j g =>
    obtain ⟨s', hs, h⟩ := bind_eq_ok.mp h
    cases h
    have hspec := assign_spec (he i) (he j) hfit hs
    simp only [beq_iff_eq] at hspec
    exact replaced he hspec
  | moveAssign i j =>
    obtain ⟨r, hassign, h⟩ := bind_eq_ok.mp h
    obtain ⟨-, -, hret⟩ := bind_eq_ok.mp hassign
    cases hret
    cases h
    have hmid : ∀ k, Proper (update e i { e j with log := (e i).log ++ (e j).log } k) := by
      rw [Function.forall_update_iff e (fun _ s => Proper s)]
      refine ⟨{ he j with inside := fun w hw => ?_ }, fun k _ => he k⟩
      exact (List.mem_append.mp hw).elim ((he i).inside w) ((he j).inside w)
    refine replaced hmid ⟨⟨fun _ => rfl, Nat.le_refl _⟩, iff_true_intro ?_⟩
    exact ⟨(he j).inside, fun b hb => (by cases hb)⟩
  | appendCStr i str g =>
    obtain ⟨s', hs, h⟩ := bind_eq_ok.mp h
    cases h
    exact always (appendCStr_spec (he i) hfit hs)
  | appendChar i c g =>
    obtain ⟨s', hs, h⟩ := bind_eq_ok.mp h
    cases h
    exact replaced he (appendChar_spec (he i) hfit hs)
  | resize i n g g' =>
    obtain ⟨s', hs, h⟩ := bind_eq_ok.mp h
    cases h
    exact always (resize_spec (he i) hfit hs)

/-- **Representation.** In every run whose steps are careful, all writes stay inside
their blocks and allocated data is terminated; any other step breaks this. -/
theorem strings_represented {h : List (Op × Unit)}
    (hrun : Runs step (fun e op => Fits e op ∧ Careful e op) (fun _ => empty) h e) :
    (∀ i, Represented (e i)) ∧ ∀ op e', Fits e op → step e op = .ok ((), e') →
      ((∀ i, Represented (e' i)) ↔ Careful e op) := by
  have hproper : ∀ i, Proper (e i) := by
    refine hrun.invariant (P := fun _ e => ∀ i, Proper (e i)) (fun _ => empty_proper) ?_
    intro _ e op _ e' he hguard hstep i
    obtain ⟨hshape, hiff⟩ := step_spec he hguard.1 hstep
    exact { hiff.mpr hguard.2 i, hshape i with }
  exact ⟨fun i => (hproper i).toRepresented,
    fun op e' hfit hstep => (step_spec hproper hfit hstep).2⟩

end

/-- The allocator always gives a new block, which holds only `fill`. -/
def fresh (fill : UInt8) : Grow UInt8 := ⟨false, fun _ => fill⟩

/-- A C string of `n` letters. -/
def letters (n : ℕ) : List UInt8 := List.replicate n 97

/-- A run from empty strings. -/
def runFrom (guard : Env → Op → Prop) [∀ e op, Decidable (guard e op)] (ops : List Op) :
    Option (List (Op × Unit) × Env) :=
  replay step guard [] (fun _ => empty) ops

/-- A string of 15 letters is copied, cut to a short one, appended to and moved back. -/
theorem strings_represented_copied :
    ∃ e : Env, (∀ i, Represented (e i)) ∧ (e 0).size = 23 ∧ (e 1).data.isNone := by
  have hrun : (runFrom (fun e op => Fits e op ∧ Careful e op)
      [.ofCStr 0 (letters 15) (fresh 255), .copy 1 0 (fresh 255),
        .resize 1 3 (fresh 255) (fresh 255), .appendCStr 1 (letters 19) (fresh 255),
        .appendChar 1 98 (fresh 255), .moveAssign 0 1]).map
      (fun r => ((r.2 0).size, (r.2 1).data.isNone)) = some (23, true) := by
    decide
  obtain ⟨⟨h, e⟩, hr, hvals⟩ := Option.map_eq_some_iff.mp hrun
  obtain ⟨hsize, hnone⟩ := Prod.mk.inj hvals
  exact ⟨e, (strings_represented ((Runs.nil _).replay hr)).1, hsize, hnone⟩

/-- The four steps that break the representation: `+= 'b'` to 15 letters and the copy of
16 letters write behind a block of 16; a moved string and one assigned to itself end in
whatever the new block held. -/
theorem terminator_misplaced :
    (runFrom (fun _ _ => True) [.ofCStr 0 (letters 15) (fresh 255),
      .appendChar 0 98 (fresh 255)]).map (fun r => (r.2 0).log) =
        some [⟨0, 16, 16⟩, ⟨15, 1, 16⟩, ⟨15, 1, 16⟩, ⟨16, 1, 16⟩] ∧
    (runFrom (fun _ _ => True) [.ofCStr 0 (letters 16) (fresh 255),
      .copy 1 0 (fresh 255)]).map (fun r => (r.2 1).log) = some [⟨0, 17, 16⟩] ∧
    ¬ Write.Inside ⟨16, 1, 16⟩ ∧ ¬ Write.Inside ⟨0, 17, 16⟩ ∧
    (runFrom (fun _ _ => True) [.ofCStr 0 (letters 3) (fresh 255),
      .move 1 0 (fresh 255)]).map (fun r => (r.2 1).bytes (r.2 1).size) = some 255 ∧
    (runFrom (fun _ _ => True) [.ofCStr 0 (letters 3) (fresh 255),
      .assign 0 0 (fresh 255)]).map (fun r => (r.2 0).bytes (r.2 0).size) = some 255 := by
  decide

end Str

end NeptunOS
