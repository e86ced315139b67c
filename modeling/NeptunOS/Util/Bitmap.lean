import Mathlib.Data.List.Range
import NeptunOS.Util.Word

/-!
# `util/bitmap.hh`

`BitmapSkeleton`: an array of 64-bit words read as bits. `set` and `get` stop
with `fatal` outside `sz` (the kernel is built with `DBG`). The searches
return `none` for the source's `-1ull`, which no index can be.

The interface used elsewhere is `bit` (the value of one bit),
`allocateRange_ok` (the search returns) and `allocateRange_spec` (it is an
exact first-fit search that sets exactly the bits it returns).
-/

namespace NeptunOS

/-- `BitmapSkeleton`. -/
structure Bitmap where
  buffer : ℕ → BitVec 64
  sz : ℕ

namespace Bitmap

/-- `buffer[bufidx] & (1ULL << bitidx)`, as a truth value. -/
def bit (b : Bitmap) (idx : ℕ) : Bool :=
  (b.buffer (idx / 64) &&& (1#64 <<< (idx % 64))) != 0#64

/-- The assignment of `set`, without its bounds check. -/
def put (b : Bitmap) (idx : ℕ) (val : Bool) : Bitmap :=
  { b with
    buffer := Function.update b.buffer (idx / 64)
      (if val then b.buffer (idx / 64) ||| (1#64 <<< (idx % 64))
       else b.buffer (idx / 64) &&& ~~~(1#64 <<< (idx % 64))) }

/-- `set(idx, val)`. -/
def set (b : Bitmap) (idx : ℕ) (val : Bool) : Except Halt Bitmap :=
  if b.sz ≤ idx then .error (.fatal "set out of bounds! (%llu > %llu)")
  else .ok (b.put idx val)

/-- `get(idx)`. -/
def get (b : Bitmap) (idx : ℕ) : Except Halt Bool :=
  if b.sz ≤ idx then .error (.fatal "get out of bounds! (%llu > %llu)")
  else .ok (b.bit idx)

/-- `init(buffer, units, def)`: the words below `sz / 64` get the default. -/
def init (buffer : ℕ → BitVec 64) (units : ℕ) (dflt : Bool) : Bitmap where
  buffer i :=
    if i < alignDown units 64 / 64 then
      (if dflt then BitVec.allOnes 64 else 0#64)
    else buffer i
  sz := alignDown units 64

/-- `for (u64 j = current; j <= i; j++) set(j, true)`, `n` bits from `j`. -/
def setRun (b : Bitmap) (j : ℕ) : ℕ → Except Halt Bitmap
  | 0 => .ok b
  | n + 1 => do
    let b' ← b.set j true
    setRun b' (j + 1) n

/-- The loop of `allocate_range`, `fuel` indices from `i` on. -/
def rangeLoop (b : Bitmap) (n : ℕ) :
    ℕ → ℕ → ℕ → Except Halt (Option ℕ × Bitmap)
  | 0, _, _ => .ok (none, b)
  | fuel + 1, i, current => do
    let v ← b.get i
    if v = false then
      if i - current + 1 = n then
        let b' ← b.setRun current (i + 1 - current)
        return (some current, b')
      else rangeLoop b n fuel (i + 1) current
    else rangeLoop b n fuel (i + 1) (i + 1)

/-- `allocate_range(start, end, n)`. -/
def allocateRange (b : Bitmap) (start stop n : ℕ) :
    Except Halt (Option ℕ × Bitmap) :=
  if n = 0 then .error (.assertion "n > 0")
  else b.rangeLoop n (min stop b.sz - start) start start

/-- `find_and_set_multiple(n, start_at)`. -/
def findAndSetMultiple (b : Bitmap) (n startAt : ℕ) :
    Except Halt (Option ℕ × Bitmap) := do
  let (first, b') ← b.allocateRange startAt b.sz n
  match first with
  | some c => return (some c, b')
  | none => b'.allocateRange 0 startAt n

/-- `find_and_set(start_at)`: the argument is not used by the source. -/
def findAndSet (b : Bitmap) : Except Halt (Option ℕ × Bitmap) :=
  b.findAndSetMultiple 1 0

/-! ## Single bits -/

theorem bit_eq (b : Bitmap) (idx : ℕ) : b.bit idx = (b.buffer (idx / 64)).getLsbD (idx % 64) := by
  have hlt : idx % 64 < 64 := Nat.mod_lt _ (by decide)
  unfold bit
  rw [Bool.eq_iff_iff, bne_iff_ne, ne_eq, ← BitVec.twoPow_eq]
  rw [BitVec.and_twoPow]
  cases h : (b.buffer (idx / 64)).getLsbD (idx % 64) with
  | false => simp
  | true =>
    simp only [if_true, iff_true]
    intro h0
    have := congrArg (fun w => BitVec.getLsbD w (idx % 64)) h0
    simp [hlt] at this

@[simp] theorem put_sz (b : Bitmap) (i : ℕ) (v : Bool) : (b.put i v).sz = b.sz := rfl

/-- One assignment changes one bit. -/
theorem bit_put (b : Bitmap) (i j : ℕ) (v : Bool) :
    (b.put i v).bit j = if j = i then v else b.bit j := by
  have hlt : j % 64 < 64 := Nat.mod_lt _ (by decide)
  rw [bit_eq, bit_eq]
  simp only [put]
  by_cases hw : j / 64 = i / 64
  · have hbit : j = i ↔ j % 64 = i % 64 := by omega
    rw [hw, Function.update_self]
    cases v with
    | true =>
      by_cases hji : j % 64 = i % 64
      · simp [hbit, hji, Nat.mod_lt]
      · by_cases hle : j % 64 < i % 64
        · simp [hbit, hji, hle]
        · have : j % 64 - i % 64 ≠ 0 := by omega
          simp [hbit, hji, this]
    | false =>
      by_cases hji : j % 64 = i % 64
      · simp [hbit, hji, Nat.mod_lt]
      · by_cases hle : j % 64 < i % 64
        · simp [hbit, hji, hle, hlt]
        · have : j % 64 - i % 64 ≠ 0 := by omega
          simp [hbit, hji, this, hlt]
  · have hji : j ≠ i := by rintro rfl; exact hw rfl
    rw [Function.update_of_ne hw, if_neg hji]

variable {b : Bitmap} {i n start stop : ℕ} {r : Option ℕ × Bitmap}

theorem set_ok (h : i < b.sz) (v : Bool) : b.set i v = .ok (b.put i v) := by
  rw [set, if_neg (Nat.not_le.mpr h)]

theorem get_ok (h : i < b.sz) : b.get i = .ok (b.bit i) := by
  rw [get, if_neg (Nat.not_le.mpr h)]

theorem set_eq_ok {b' : Bitmap} {v : Bool} (h : b.set i v = .ok b') :
    i < b.sz ∧ b' = b.put i v := by
  unfold set at h
  split at h
  · cases h
  · exact ⟨Nat.lt_of_not_le ‹_›, (Except.ok.inj h).symm⟩

@[simp] theorem init_sz (buffer : ℕ → BitVec 64) (units : ℕ) (dflt : Bool) :
    (init buffer units dflt).sz = alignDown units 64 := rfl

theorem init_bit (buffer : ℕ → BitVec 64) {units : ℕ} (dflt : Bool) (h : i < alignDown units 64) :
    (init buffer units dflt).bit i = dflt := by
  have hlt : i % 64 < 64 := Nat.mod_lt _ (by decide)
  have hw : i / 64 < alignDown units 64 / 64 := by
    unfold alignDown at h ⊢
    omega
  rw [bit_eq]
  simp only [init, hw, if_true]
  cases dflt with
  | false => simp
  | true => rw [if_pos rfl, BitVec.getLsbD_allOnes, decide_eq_true hlt]

/-! ## Runs of bits -/

/-- Bits `c .. c + n` are all clear. -/
def Clear (b : Bitmap) (c n : ℕ) : Prop :=
  ∀ k, c ≤ k → k < c + n → b.bit k = false

/-- Setting a run inside the bitmap sets exactly its bits. -/
theorem setRun_spec : ∀ (n : ℕ) (b : Bitmap) (j : ℕ), j + n ≤ b.sz →
    ∃ b', b.setRun j n = .ok b' ∧ b'.sz = b.sz ∧
      ∀ k, b'.bit k = (decide (j ≤ k ∧ k < j + n) || b.bit k)
  | 0, b, j, _ => ⟨b, rfl, rfl, fun k => by
    have hk : ¬ (j ≤ k ∧ k < j + 0) := by omega
    rw [decide_eq_false hk, Bool.false_or]⟩
  | n + 1, b, j, h => by
    obtain ⟨b', hrun, hsz, hbit⟩ := setRun_spec n (b.put j true) (j + 1) (by rw [put_sz]; omega)
    refine ⟨b', ?_, hsz, fun k => ?_⟩
    · rw [setRun, set_ok (by omega)]
      exact hrun
    · rw [hbit k, bit_put]
      by_cases hk : k = j
      · simp [hk]
      · have : (j + 1 ≤ k ∧ k < j + 1 + n) ↔ (j ≤ k ∧ k < j + (n + 1)) := by
          omega
        rw [if_neg hk, decide_eq_decide.mpr this]

/-- What the search returns: the least clear run of `n` bits, now set, or
nothing when there is none. -/
def Found (b : Bitmap) (start stop n : ℕ) (r : Option ℕ × Bitmap) : Prop :=
  match r.1 with
  | none => r.2 = b ∧ ∀ c, start ≤ c → c + n ≤ stop → ¬ b.Clear c n
  | some c =>
    start ≤ c ∧ c + n ≤ stop ∧ b.Clear c n ∧
      (∀ c', start ≤ c' → c' < c → ¬ b.Clear c' n) ∧ r.2.sz = b.sz ∧
      ∀ k, r.2.bit k = (decide (c ≤ k ∧ k < c + n) || b.bit k)

theorem rangeLoop_succ {fuel current : ℕ} (h : i < b.sz) :
    b.rangeLoop n (fuel + 1) i current =
      if b.bit i = false then
        if i - current + 1 = n then do
          let b' ← b.setRun current (i + 1 - current)
          return (some current, b')
        else b.rangeLoop n fuel (i + 1) current
      else b.rangeLoop n fuel (i + 1) (i + 1) := by
  rw [rangeLoop, get_ok h]
  rfl

/-- The loop keeps a clear run `current .. i` that is too short; no run starts below it. -/
theorem rangeLoop_spec {b : Bitmap} {n start stop : ℕ} (hn : 0 < n) (hstop : stop ≤ b.sz) :
    ∀ (fuel i current : ℕ), i + fuel = stop → start ≤ current → current ≤ i → i - current < n →
      (∀ k, current ≤ k → k < i → b.bit k = false) →
      (∀ c, start ≤ c → c < current → ¬ b.Clear c n) →
      ∃ r, b.rangeLoop n fuel i current = .ok r ∧ b.Found start stop n r
  | 0, i, current, hi, _, _, hshort, _, hnone => by
    refine ⟨(none, b), rfl, rfl, ?_⟩
    intro c hc hcn
    exact hnone c hc (by omega)
  | fuel + 1, i, current, hi, hsc, hci, hshort, hrun, hnone => by
    have hisz : i < b.sz := by omega
    rw [rangeLoop_succ hisz]
    cases hbit : b.bit i with
    | true =>
      -- a set bit restarts the run, and ends every run that starts in this one
      rw [if_neg (by decide)]
      refine rangeLoop_spec hn hstop fuel (i + 1) (i + 1) (by omega) (by omega) (Nat.le_refl _)
        (by omega) (fun k hk hk' => by omega) fun c hc hci' hcl => ?_
      by_cases hlt : c < current
      · exact hnone c hc hlt hcl
      · exact Bool.false_ne_true ((hcl i (by omega) (by omega)).symm.trans hbit)
    | false =>
      have hrun' : ∀ k, current ≤ k → k < i + 1 → b.bit k = false := by
        intro k hk hk'
        by_cases hki : k = i
        · rw [hki, hbit]
        · exact hrun k hk (by omega)
      rw [if_pos rfl]
      by_cases hlen : i - current + 1 = n
      · obtain ⟨b', hset, hsz, hbits⟩ :=
          setRun_spec (i + 1 - current) b current (by omega)
        have hend : current + (i + 1 - current) = current + n := by omega
        rw [hend] at hbits
        refine ⟨(some current, b'), ?_, hsc, by omega, ?_, hnone, hsz, hbits⟩
        · rw [if_pos hlen, hset]
          rfl
        · intro k hk hk'
          exact hrun' k hk (by omega)
      · rw [if_neg hlen]
        exact rangeLoop_spec hn hstop fuel (i + 1) current (by omega) hsc (by omega) (by omega)
          hrun' hnone

/-- The search always returns when asked for at least one bit. -/
theorem allocateRange_ok (b : Bitmap) (start stop : ℕ) (hn : 0 < n) :
    ∃ r, b.allocateRange start stop n = .ok r ∧
      b.Found start (min stop b.sz) n r := by
  rw [allocateRange, if_neg (by omega)]
  by_cases hle : start ≤ min stop b.sz
  · exact rangeLoop_spec hn (Nat.min_le_right _ _) _ start start (by omega)
      (Nat.le_refl _) (Nat.le_refl _) (by omega) (fun k hk hk' => by omega) fun c hc hlt => by omega
  · have h0 : min stop b.sz - start = 0 := by omega
    rw [h0]
    exact ⟨(none, b), rfl, rfl, fun c hc hcn => by omega⟩

/-- **First fit.** The search returns the least clear run inside the range, if there is one, and
sets its bits and no others. -/
theorem allocateRange_first_fit (b : Bitmap) (start stop : ℕ) {n : ℕ} (hn : 0 < n) :
    ∃ r, b.allocateRange start stop n = .ok r ∧
      (∀ c, r.1 = some c ↔ start ≤ c ∧ c + n ≤ min stop b.sz ∧ b.Clear c n ∧
        ∀ c', start ≤ c' → c' + n ≤ min stop b.sz → b.Clear c' n → c ≤ c') ∧
      (∀ k, r.2.bit k = true ↔ b.bit k = true ∨ ∃ c ∈ r.1, c ≤ k ∧ k < c + n) ∧
      (r.1 = none → r.2 = b) := by
  obtain ⟨⟨first, b'⟩, hr, hfound⟩ := allocateRange_ok b start stop hn
  refine ⟨(first, b'), hr, ?_⟩
  cases first with
  | none =>
    obtain ⟨rfl, hnone⟩ := hfound
    refine ⟨fun c => iff_of_false nofun fun h => hnone c h.1 h.2.1 h.2.2.1, fun k => ?_,
      fun _ => rfl⟩
    simp
  | some c =>
    obtain ⟨hc, hcn, hclear, hleast, -, hbit⟩ := hfound
    have hmin : ∀ c', start ≤ c' → c' + n ≤ min stop b.sz → b.Clear c' n → c ≤ c' :=
      fun c' hc' _ hclear' => Nat.le_of_not_lt fun hlt => hleast c' hc' hlt hclear'
    refine ⟨fun d => ⟨?_, fun h => ?_⟩, fun k => ?_, nofun⟩
    · rintro ⟨⟩
      exact ⟨hc, hcn, hclear, hmin⟩
    · exact congrArg some (Nat.le_antisymm (hmin d h.1 h.2.1 h.2.2.1) (h.2.2.2 c hc hcn hclear))
    · rw [hbit k]
      simp [or_comm]

theorem allocateRange_first_fit_clear :
    ∃ r, (⟨fun _ => 0#64, 64⟩ : Bitmap).allocateRange 3 64 2 = .ok r ∧ (r.1 = none → r.2.sz = 64) :=
  (allocateRange_first_fit _ 3 64 (by decide : 0 < 2)).imp fun _ h =>
    ⟨h.1, fun hnone => congrArg sz (h.2.2.2 hnone)⟩

/-- Whatever the search returns is the least clear run. -/
theorem allocateRange_spec (h : b.allocateRange start stop n = .ok r) :
    0 < n ∧ b.Found start (min stop b.sz) n r := by
  have hn : 0 < n := by
    by_contra h0
    rw [allocateRange, if_pos (by omega)] at h
    cases h
  obtain ⟨r', hr', hf⟩ := allocateRange_ok b start stop hn
  rw [hr'] at h
  obtain rfl := Except.ok.inj h
  exact ⟨hn, hf⟩

/-- With no preferred start, a failed search is a failed search of the whole
bitmap. -/
theorem findAndSetMultiple_zero (h : b.findAndSetMultiple n 0 = .ok r) :
    0 < n ∧ b.Found 0 b.sz n r := by
  unfold findAndSetMultiple at h
  cases hr : b.allocateRange 0 b.sz n with
  | error e => rw [hr] at h; cases h
  | ok v =>
    obtain ⟨first, b'⟩ := v
    obtain ⟨hn, hf⟩ := allocateRange_spec hr
    rw [Nat.min_self] at hf
    rw [hr] at h
    cases first with
    | some c =>
      obtain rfl := Except.ok.inj h
      exact ⟨hn, hf⟩
    | none =>
      -- the second search covers no index
      obtain ⟨hb', hnone⟩ := hf
      change b'.allocateRange 0 0 n = .ok r at h
      rw [allocateRange, if_neg (by omega)] at h
      obtain rfl := Except.ok.inj h
      exact ⟨hn, hb', hnone⟩

theorem findAndSetMultiple_zero_ok (b : Bitmap) (hn : 0 < n) :
    ∃ r, b.findAndSetMultiple n 0 = .ok r := by
  obtain ⟨⟨first, b'⟩, hr, hf⟩ := allocateRange_ok b 0 b.sz hn
  unfold findAndSetMultiple
  rw [hr]
  cases first with
  | some c => exact ⟨_, rfl⟩
  | none =>
    obtain ⟨r, hr', _⟩ := allocateRange_ok b' 0 0 hn
    exact ⟨r, hr'⟩

end Bitmap

end NeptunOS
