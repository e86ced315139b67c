import NeptunOS.Storage.Arena

/-!
# Resizing a `HeapBitmap`

`resize` hands the words to `Vector::resize`, which keeps the words that the vector
counts in `size`. The constructor of `HeapBitmap` allocates words without counting them,
so the first `resize` clears every bit; a later one that shrinks keeps whole words, so
bits behind the end come back when the bitmap grows again. `resize_keeps_iff` says
exactly which bits have to be clear for a `resize` to keep the state.
-/

namespace NeptunOS.HeapBitmap

open Stepwise

/-- A call on a bitmap; how the allocator answers is part of a `resize`. -/
inductive Op where
  | set (idx : ℕ) (val : Bool)
  | findAndSet
  | resize (newsize : ℕ) (g : Grow (BitVec 64))

/-- Arguments are `u64`. -/
def Op.Typed : Op → Prop
  | .set idx _ => idx < 2 ^ 64
  | .findAndSet => True
  | .resize newsize _ => newsize < 2 ^ 64

instance : DecidablePred Op.Typed
  | .set idx _ => inferInstanceAs (Decidable (idx < 2 ^ 64))
  | .findAndSet => inferInstanceAs (Decidable True)
  | .resize newsize _ => inferInstanceAs (Decidable (newsize < 2 ^ 64))

/-- One call. Without words, the first access to a bit faults. -/
def step (b : HeapBitmap) : Op → Except Halt (Option ℕ × HeapBitmap)
  | .set idx val =>
    if b.data.data.isNone ∧ idx < b.sz then .error (.exception "page fault: buffer[bufidx]")
    else do
      let b ← b.set idx val
      return (none, b)
  | .findAndSet =>
    if b.data.data.isNone ∧ b.sz ≠ 0 then .error (.exception "page fault: buffer[bufidx]")
    else b.findAndSet
  | .resize newsize g => do
    let b ← b.resize g newsize
    return (none, b)

/-- `get(idx)` returns `val`, and the word it reads is one of the vector's. -/
def Reads (b : HeapBitmap) (idx : ℕ) (val : Bool) : Prop :=
  b.view.get idx = .ok val ∧ b.data.data ≠ none ∧ idx / 64 < b.data.capacity

/-- The bits that were there before are kept, the others are clear. -/
def Keeps (b b' : HeapBitmap) (n : ℕ) : Prop :=
  ∀ i < n, if i < b.sz then ∃ v, b.Reads i v ∧ b'.Reads i v else b'.Reads i false

/-- What has to hold of a bitmap that is resized to `n`: rounding `n` up does not wrap,
the words can be moved, bits that are set are in counted words, and counted words are
clear behind the end. -/
structure Resizable (b : HeapBitmap) (g : Grow (BitVec 64)) (n : ℕ) : Prop where
  fits : n + 63 < 2 ^ 64
  moves : b.data.size < 2 ^ 32 ∨ g.inPlace = true
  counted : ∀ i < n, i < b.sz → ∃ v, b.Reads i v ∧ (v = true → i < 64 * b.data.size)
  clear : ∀ i < n, b.sz ≤ i → i < 64 * b.data.size → b.view.bit i = false

section

variable {b b' : HeapBitmap} {g : Grow (BitVec 64)} {n i : ℕ}

theorem Reads.bit_eq {v : Bool} (h : b.Reads i v) : i < b.sz ∧ b.view.bit i = v := by
  obtain ⟨hget, -, -⟩ := h
  have hlt : i < b.sz := by
    by_contra hge
    rw [Bitmap.get, if_pos (show b.view.sz ≤ i from Nat.not_lt.mp hge)] at hget
    cases hget
  rw [Bitmap.get_ok (show i < b.view.sz from hlt)] at hget
  exact ⟨hlt, Except.ok.inj hget⟩

theorem align_words_lt (n : ℕ) : align n 64 / 64 < 2 ^ 58 := by
  have := align_lt n 64
  omega

theorem resize_returns (hmoves : b.data.size < 2 ^ 32 ∨ g.inPlace = true) :
    ∃ b', b.resize g n = .ok b' := by
  obtain ⟨v, hv⟩ := @Vec.reserve_eq_ok _ b.data g (align n 64 / 64) hmoves
  unfold resize Vec.resize
  rw [hv, ok_bind]
  split <;> exact ⟨_, rfl⟩

/-- A vector whose words cannot be moved has some. -/
theorem resize_moves (h : b.resize g n = .ok b') : b.data.size < 2 ^ 32 ∨ g.inPlace = true := by
  by_contra hnot
  rw [not_or, Bool.not_eq_true] at hnot
  obtain ⟨hsize, hplace⟩ := hnot
  cases hd : b.data.data with
  | none =>
    have := b.data.sized hd
    omega
  | some d =>
    obtain ⟨v, hres, -⟩ := bind_eq_ok.mp h
    obtain ⟨v₁, hreserve, -⟩ := bind_eq_ok.mp hres
    rw [Vec.reserve_stuck hd (Nat.not_lt.mp hsize) hplace] at hreserve
    cases hreserve

/-- The bits after a `resize` that does not wrap. -/
theorem resize_reads (hfit : n + 63 < 2 ^ 64) (h : b.resize g n = .ok b') (hi : i < n)
    (v : Bool) : b'.Reads i v ↔ (if i < 64 * b.data.size then b.view.bit i else false) = v := by
  obtain ⟨hsz, -, hbacked, hbits⟩ := resize_spec hfit h
  have hbit := hbits i (by omega)
  have hnull : b'.data.data ≠ none := fun hnone => by
    have := hbacked hnone
    omega
  have hcap : i / 64 < b'.data.capacity := by
    obtain ⟨data, hres, hb'⟩ := bind_eq_ok.mp h
    cases hb'
    have hcap := (Vec.resize_spec hres).2.1
    rw [align_words hfit] at hcap
    show i / 64 < data.capacity
    omega
  have hget : b'.view.get i = .ok (b'.view.bit i) := Bitmap.get_ok (show i < b'.sz by omega)
  rw [← hbit]
  constructor
  · exact fun hreads => hreads.bit_eq.2
  · rintro rfl
    exact ⟨hget, hnull, hcap⟩

/-- When rounding up wraps, the words are not enough for the last bit. -/
theorem not_reads_last (hwrap : 2 ^ 64 ≤ n + 63) (hn : n < 2 ^ 64)
    (hsize : b.data.size < 2 ^ 58) (h : b.resize g n = .ok b') (v : Bool) :
    ¬ b'.Reads (n - 1) v := by
  rintro ⟨-, -, hcap⟩
  obtain ⟨data, hres, hb'⟩ := bind_eq_ok.mp h
  cases hb'
  have hzero : align n 64 / 64 = 0 := by
    unfold align wadd
    omega
  have hcap' := (Vec.resize_spec hres).2.1
  dsimp only at hcap
  omega

/-- One `resize`, from a bitmap of any content. -/
theorem keeps_iff (hn : n < 2 ^ 64) (hsize : b.data.size < 2 ^ 58) :
    (∃ b', b.resize g n = .ok b' ∧ Keeps b b' n) ↔ Resizable b g n := by
  constructor
  · rintro ⟨b', h, hkeeps⟩
    have hfit : n + 63 < 2 ^ 64 := by
      by_contra hwrap
      have hlast := hkeeps (n - 1) (by omega)
      split at hlast
      · obtain ⟨v, -, hv⟩ := hlast
        exact not_reads_last (Nat.not_lt.mp hwrap) hn hsize h v hv
      · exact not_reads_last (Nat.not_lt.mp hwrap) hn hsize h false hlast
    refine ⟨hfit, resize_moves h, fun i hi hlt => ?_, fun i hi hge hin => ?_⟩
    · have hbit := hkeeps i hi
      rw [if_pos hlt] at hbit
      obtain ⟨v, hv, hv'⟩ := hbit
      refine ⟨v, hv, ?_⟩
      rintro rfl
      by_contra hout
      rw [resize_reads hfit h hi, if_neg hout] at hv'
      cases hv'
    · have hbit := hkeeps i hi
      rwa [if_neg (Nat.not_lt.mpr hge), resize_reads hfit h hi, if_pos hin] at hbit
  · intro hres
    obtain ⟨b', h⟩ := @resize_returns b g n hres.moves
    refine ⟨b', h, fun i hi => ?_⟩
    split
    case isTrue hlt =>
      obtain ⟨v, hv, hcounted⟩ := hres.counted i hi hlt
      refine ⟨v, hv, (resize_reads hres.fits h hi v).mpr ?_⟩
      rw [hv.bit_eq.2]
      cases v with
      | false => exact ite_self _
      | true => exact if_pos (hcounted rfl)
    case isFalse hge =>
      refine (resize_reads hres.fits h hi false).mpr ?_
      split
      · exact hres.clear i hi (Nat.not_lt.mp hge) ‹_›
      · rfl

end

/-! ## Every bitmap a program can have -/

theorem step_size {b b' : HeapBitmap} {op : Op} {r : Option ℕ} (h : b.step op = .ok (r, b'))
    (hsize : b.data.size < 2 ^ 58) : b'.data.size < 2 ^ 58 := by
  cases op with
  | set idx val =>
    simp only [step] at h
    split at h
    · cases h
    · obtain ⟨b₁, hset, h⟩ := bind_eq_ok.mp h
      obtain ⟨bm, -, hb₁⟩ := bind_eq_ok.mp hset
      cases h
      cases hb₁
      exact hsize
  | findAndSet =>
    simp only [step] at h
    split at h
    · cases h
    · obtain ⟨⟨_, bm⟩, -, h⟩ := bind_eq_ok.mp h
      cases h
      exact hsize
  | resize newsize g =>
    obtain ⟨b₁, hres, h⟩ := bind_eq_ok.mp h
    obtain ⟨data, hdata, hb₁⟩ := bind_eq_ok.mp hres
    cases h
    cases hb₁
    show data.size < 2 ^ 58
    rw [(Vec.resize_spec hdata).1]
    exact align_words_lt newsize

/-- **Resizing.** From every bitmap a sequence of calls can make, a `resize` to `n`
returns, keeps the bits that were there and clears the others exactly when the bitmap is
`Resizable`. -/
theorem resize_keeps_iff {elems : ℕ} {defa : Bool} {block : ℕ → BitVec 64}
    {b₀ b : HeapBitmap} {hist : List (Op × Option ℕ)} (hmade : init elems block defa = .ok b₀)
    (hrun : Runs step (fun _ op => op.Typed) b₀ hist b) (g : Grow (BitVec 64)) {n : ℕ}
    (hn : n < 2 ^ 64) :
    (∃ b', b.resize g n = .ok b' ∧ Keeps b b' n) ↔ Resizable b g n := by
  have hsize : b.data.size < 2 ^ 58 := by
    refine hrun.invariant (P := fun _ b => b.data.size < 2 ^ 58) ?_
      fun _ _ _ _ _ hs _ hstep => step_size hstep hs
    simp only [init] at hmade
    split at hmade
    · cases hmade
    · cases hmade
      show (0 : ℕ) < 2 ^ 58
      decide
  exact keeps_iff hn hsize

/-- A bitmap that was resized once keeps its bits: its words are counted. -/
theorem resize_keeps_second : ∃ b₀ b hist, init 64 (fun _ => 0) = .ok b₀ ∧
    Runs step (fun _ op => op.Typed) b₀ hist b ∧ b.Reads 3 true ∧
    ∃ b', b.resize ⟨false, fun _ => 7⟩ 256 = .ok b' ∧ Keeps b b' 256 := by
  obtain ⟨b₀, hmade⟩ : ∃ b₀, init 64 (fun _ => 0) = .ok b₀ := ⟨_, rfl⟩
  obtain ⟨b₁, hres⟩ : ∃ b₁, b₀.step (.resize 128 ⟨true, fun _ => 0⟩) = .ok (none, b₁) := by
    cases hmade
    exact ⟨_, rfl⟩
  obtain ⟨b, hset, hsz, hsize, hcap, hnull, hbit⟩ : ∃ b, b₁.step (.set 3 true) = .ok (none, b) ∧
      b.sz = 128 ∧ b.data.size = 2 ∧ b.data.capacity = 2 ∧ b.data.data ≠ none ∧
      b.view.bit 3 = true := by
    cases hmade
    cases hres
    exact ⟨_, rfl, rfl, rfl, rfl, fun h => (by cases h), rfl⟩
  have hreads : ∀ i < 128, b.Reads i (b.view.bit i) := fun i hi =>
    ⟨Bitmap.get_ok (show i < b.sz by omega), hnull, by omega⟩
  have hrun : Runs step (fun _ op => op.Typed) b₀ _ b :=
    ((Runs.nil b₀).snoc (by decide) hres).snoc (by decide) hset
  refine ⟨b₀, b, _, hmade, hrun, hbit ▸ hreads 3 (by decide),
    (resize_keeps_iff hmade hrun _ (by decide)).mpr
      ⟨by decide, Or.inl (by omega), fun i _ hi => ?_, fun i _ hi hlt => ?_⟩⟩
  · exact ⟨_, hreads i (by omega), fun _ => by omega⟩
  · omega

/-- The first `resize` clears the bits that were set before it. -/
theorem first_resize_clears : ∃ b₀ b b', init 64 (fun _ => 0) = .ok b₀ ∧
    Runs step (fun _ op => op.Typed) b₀ [(.set 3 true, none)] b ∧ b.Reads 3 true ∧
    b.resize ⟨true, fun _ => 0⟩ 128 = .ok b' ∧ b'.Reads 3 false ∧ ¬ Keeps b b' 128 := by
  obtain ⟨b₀, hmade⟩ : ∃ b₀, init 64 (fun _ => 0) = .ok b₀ := ⟨_, rfl⟩
  obtain ⟨b, hset, hreads⟩ : ∃ b, b₀.step (.set 3 true) = .ok (none, b) ∧ b.Reads 3 true := by
    cases hmade
    exact ⟨_, rfl, rfl, fun h => (by cases h), by decide⟩
  obtain ⟨b', hres, hclear⟩ : ∃ b', b.resize ⟨true, fun _ => 0⟩ 128 = .ok b' ∧
      b'.Reads 3 false := by
    cases hmade
    cases hset
    exact ⟨_, rfl, rfl, fun h => (by cases h), by decide⟩
  refine ⟨b₀, b, b', hmade, (Runs.nil b₀).snoc (by decide) hset, hreads, hres, hclear,
    fun hkeeps => ?_⟩
  have hbit := hkeeps 3 (by decide)
  rw [if_pos hreads.bit_eq.1] at hbit
  obtain ⟨v, hv, hv'⟩ := hbit
  have hne := hreads.bit_eq.2.symm.trans hv.bit_eq.2
  have hne' := hclear.bit_eq.2.symm.trans hv'.bit_eq.2
  rw [← hne'] at hne
  cases hne

end NeptunOS.HeapBitmap
