import NeptunOS.Lib.Stepwise
import NeptunOS.Util.Word

/-!
# `Vector` of `util/storage.hh`

The values in a vector's block. What the allocator does when the block has to grow is
an input: it extends the block in place, or it gives a new one, with whatever is in
there. `reserve` then moves `size` elements, no more; everything behind them is lost.
-/

namespace NeptunOS

open Stepwise

/-- `growfun(cap)`. -/
def growfun (cap : ℕ) : ℕ := if cap = 0 then 8 else cap * 2 % 2 ^ 64

/-- An answer of the allocator: whether `_gtryrealloc` succeeds, and what is in the
block that `_galloc` returns. -/
structure Grow (T : Type) where
  inPlace : Bool
  block : ℕ → T

/-- `Vector<T>`. A vector without a block has no elements. -/
structure Vec (T : Type) where
  data : Option (ℕ → T)
  size : ℕ
  capacity : ℕ
  sized : data = none → size = 0

namespace Vec

variable {T : Type}

/-- `Vector(cap)`. -/
def init (cap : ℕ) (block : ℕ → T) : Vec T where
  data := if cap = 0 then none else some block
  size := 0
  capacity := cap
  sized _ := rfl

/-- `data[idx]`, if there is a block. -/
def get (v : Vec T) (idx : ℕ) : Option T := v.data.map (· idx)

/-- Writes to the elements leave the block where it is. -/
def write (v : Vec T) (d : ℕ → T) : Vec T where
  data := v.data.map fun _ => d
  size := v.size
  capacity := v.capacity
  sized h := v.sized (Option.map_eq_none_iff.mp h)

/-- `reserve(cap)`. Without a block and with nothing to reserve, `try_realloc` and
`alloc` both allocate nothing. The loop that moves the elements counts in a `u32`. -/
def reserve (v : Vec T) (g : Grow T) (cap : ℕ) : Except Halt (Vec T) :=
  let cap := if cap < v.size then v.size else cap
  match v.data with
  | none =>
    if cap = 0 then .ok { v with capacity := cap }
    else .ok ⟨some g.block, v.size, cap, fun h => by cases h⟩
  | some d =>
    if g.inPlace then .ok { v with capacity := cap }
    else if v.size = 0 ∧ cap = 0 then .ok ⟨none, 0, cap, fun _ => rfl⟩
    else if 2 ^ 32 ≤ v.size then .error .endless
    else .ok ⟨some fun i => if i < v.size then d i else g.block i, v.size, cap,
      fun h => by cases h⟩

/-- `resize(newSize)`; new elements are `T()`. -/
def resize (v : Vec T) (dflt : T) (g : Grow T) (newSize : ℕ) : Except Halt (Vec T) := do
  let v ← v.reserve g newSize
  match v.data with
  | none => return v
  | some d =>
    return ⟨some fun i => if v.size ≤ i ∧ i < newSize then dflt else d i, newSize, v.capacity,
      fun h => by cases h⟩

/-- `emplace_back(x)`. -/
def emplaceBack (v : Vec T) (g : Grow T) (x : T) : Except Halt (Vec T) := do
  let v ← if v.capacity ≤ v.size then v.reserve g (growfun v.capacity) else .ok v
  match v.data with
  | none =>
    if v.size ≠ 0 ∨ v.capacity ≠ 0 then
      .error (.fatal "Invalid vector state: data is null but size is %lld (cap %lld)")
    else .error (.exception "page fault: data is null")
  | some d =>
    return ⟨some fun i => if i = v.size then x else d i, v.size + 1, v.capacity,
      fun h => by cases h⟩

section

variable {v v' : Vec T} {g : Grow T} {cap newSize : ℕ} {dflt : T}

/-- `reserve` keeps the elements. -/
theorem reserve_spec (h : v.reserve g cap = .ok v') :
    v'.size = v.size ∧ v'.capacity = max cap v.size ∧
      (v'.data = none → max cap v.size = 0) ∧ ∀ i < v.size, v'.get i = v.get i := by
  have hmax : (if cap < v.size then v.size else cap) = max cap v.size := by
    split <;> omega
  unfold reserve at h
  rw [hmax] at h
  dsimp only at h
  split at h
  case h_1 hnone =>
    have hsize := v.sized hnone
    split at h
    case isTrue hz =>
      cases h
      exact ⟨rfl, rfl, fun _ => hz, fun i _ => rfl⟩
    case isFalse hz =>
      cases h
      exact ⟨rfl, rfl, fun h => (by cases h), fun i hi => by omega⟩
  case h_2 d hsome =>
    split at h
    case isTrue =>
      cases h
      exact ⟨rfl, rfl, fun h => (by rw [hsome] at h; cases h), fun i _ => rfl⟩
    case isFalse =>
      split at h
      case isTrue hz =>
        cases h
        exact ⟨hz.1.symm, rfl, fun _ => hz.2, fun i hi => by omega⟩
      case isFalse =>
        split at h
        case isTrue => cases h
        case isFalse =>
          cases h
          refine ⟨rfl, rfl, fun h => (by cases h), fun i hi => ?_⟩
          simp [get, hsome, hi]

/-- Where the block can be extended, everything in it stays. -/
theorem reserve_inPlace (hg : g.inPlace = true) (h : v.reserve g cap = .ok v')
    (hd : v.data ≠ none) : v'.data = v.data := by
  unfold reserve at h
  dsimp only at h
  split at h
  case h_1 hnone => exact absurd hnone hd
  case h_2 =>
    rw [if_pos hg] at h
    cases h
    rfl

/-- It fails for vectors of more than `2^32` elements only. -/
theorem reserve_ok (g : Grow T) (cap : ℕ) (hsize : v.size < 2 ^ 32) :
    ∃ v', v.reserve g cap = .ok v' := by
  unfold reserve
  generalize (if cap < v.size then v.size else cap) = cap
  dsimp only
  split
  case h_1 => split <;> exact ⟨_, rfl⟩
  case h_2 =>
    rw [if_neg (show ¬ 2 ^ 32 ≤ v.size by omega)]
    split
    · exact ⟨_, rfl⟩
    · split <;> exact ⟨_, rfl⟩

/-- `resize` keeps the elements and fills up with `T()`. -/
theorem resize_spec (h : v.resize dflt g newSize = .ok v') :
    v'.size = newSize ∧ v'.capacity = max newSize v.size ∧ (v'.data = none → newSize = 0) ∧
      ∀ i < newSize, v'.get i = if i < v.size then v.get i else some dflt := by
  obtain ⟨v₁, hres, h⟩ := bind_eq_ok.mp h
  obtain ⟨hsize, hcap, hnull, hget⟩ := reserve_spec hres
  split at h
  case h_1 hnone =>
    obtain rfl := Except.ok.inj h
    have hz := hnull hnone
    exact ⟨by omega, hcap, fun _ => by omega, fun i hi => by omega⟩
  case h_2 d hsome =>
    cases h
    refine ⟨rfl, hcap, fun h => (by cases h), fun i hi => ?_⟩
    by_cases hlt : i < v.size
    · rw [if_pos hlt, ← hget i hlt]
      simp [get, hsome, hsize, Nat.not_le.mpr hlt]
    · simp [get, hsize, Nat.not_lt.mp hlt, hi]

theorem resize_ok (dflt : T) (g : Grow T) (newSize : ℕ) (hsize : v.size < 2 ^ 32) :
    ∃ v', v.resize dflt g newSize = .ok v' := by
  obtain ⟨v₁, hres⟩ := reserve_ok g newSize hsize
  rw [resize, hres, ok_bind]
  split <;> exact ⟨_, rfl⟩

/-! ## Vectors built by `emplace_back` -/

/-- The elements of `v` are `xs`. -/
def Filled (v : Vec T) (xs : List T) : Prop :=
  v.size = xs.length ∧ ∀ i < xs.length, v.get i = xs[i]?

theorem Filled.unique {v : Vec T} {xs ys : List T} (h : v.Filled xs) (h' : v.Filled ys) :
    xs = ys := by
  have hlen : xs.length = ys.length := h.1.symm.trans h'.1
  refine List.ext_getElem? fun i => ?_
  by_cases hi : i < xs.length
  · rw [← h.2 i hi, ← h'.2 i (hlen ▸ hi)]
  · rw [List.getElem?_eq_none (Nat.not_lt.mp hi), List.getElem?_eq_none (hlen ▸ Nat.not_lt.mp hi)]

/-- The capacity is what `growfun` makes of 0. -/
structure Grown (v : Vec T) : Prop where
  null : v.data = none → v.capacity = 0
  doubled : v.capacity = 0 ∨ ∃ j, v.capacity = 8 * 2 ^ j
  fits : v.size ≤ v.capacity
  tight : v.capacity ≤ 8 ∨ v.capacity < 2 * v.size

/-- The block has to move and `reserve` does not come to an end. -/
def Stuck (g : Grow T) (size capacity : ℕ) : Prop :=
  size = capacity ∧ 2 ^ 32 ≤ size ∧ g.inPlace = false

theorem reserve_stuck {d : ℕ → T} (hd : v.data = some d) (hsize : 2 ^ 32 ≤ v.size)
    (hg : g.inPlace = false) : v.reserve g cap = .error .endless := by
  unfold reserve
  dsimp only
  split
  case h_1 hnone =>
    rw [hd] at hnone
    cases hnone
  case h_2 => rw [if_neg (by rw [hg]; decide), if_neg (by omega), if_pos hsize]

theorem reserve_eq_ok (h : v.size < 2 ^ 32 ∨ g.inPlace = true) :
    ∃ v', v.reserve g cap = .ok v' := by
  rcases h with hsize | hg
  · exact reserve_ok g cap hsize
  · unfold reserve
    generalize (if cap < v.size then v.size else cap) = cap
    dsimp only
    split
    · split <;> exact ⟨_, rfl⟩
    · exact ⟨_, if_pos hg⟩

theorem growfun_doubled {c : ℕ} (hc : c < 2 ^ 63) (h : c = 0 ∨ ∃ j, c = 8 * 2 ^ j) :
    growfun c = max 8 (2 * c) ∧ ∃ j, growfun c = 8 * 2 ^ j := by
  rcases h with rfl | ⟨j, rfl⟩
  · exact ⟨by decide, 0, rfl⟩
  · have hpos : 0 < 2 ^ j := Nat.two_pow_pos j
    have hgrow : growfun (8 * 2 ^ j) = 2 * (8 * 2 ^ j) := by
      rw [growfun, if_neg (by omega), Nat.mod_eq_of_lt (by omega), Nat.mul_comm]
    refine ⟨by omega, j + 1, ?_⟩
    omega

/-- A vector that was only appended to is full at the powers of two. -/
theorem Grown.full (hg : v.Grown) {j : ℕ} (hsize : v.size = 8 * 2 ^ j) : v.size = v.capacity := by
  have hpos : 0 < 2 ^ j := Nat.two_pow_pos j
  have hfits := hg.fits
  rcases hg.doubled with hzero | ⟨i, hi⟩
  · omega
  · have hle : j ≤ i := (Nat.pow_le_pow_iff_right (by decide)).mp (show 2 ^ j ≤ 2 ^ i by omega)
    rcases hg.tight with hsmall | hlt
    · omega
    · have hlt' : 2 ^ i < 2 ^ (j + 1) := by
        omega
      have hij : i = j := by
        have := (Nat.pow_lt_pow_iff_right (by decide)).mp hlt'
        omega
      rw [hsize, hi, hij]

/-- The element is written once there is room for it. -/
theorem emplaceBack_room {x : T} {xs : List T} (hf : v.Filled xs) (hnull : v.data ≠ none)
    (hroom : v.size < v.capacity) :
    ∃ v', v.emplaceBack g x = .ok v' ∧ v'.Filled (xs ++ [x]) ∧ v'.data ≠ none ∧
      v'.size = v.size + 1 ∧ v'.capacity = v.capacity := by
  obtain ⟨d, hd⟩ := Option.ne_none_iff_exists'.mp hnull
  refine ⟨⟨some fun i => if i = v.size then x else d i, v.size + 1, v.capacity,
    fun h => by cases h⟩, ?_, ⟨?_, fun i hi => ?_⟩, fun h => (by cases h), rfl, rfl⟩
  · unfold emplaceBack
    rw [if_neg (Nat.not_le.mpr hroom), ok_bind]
    dsimp only
    rw [hd]
    rfl
  · simp [hf.1]
  · rw [List.length_append, List.length_singleton] at hi
    by_cases heq : i = v.size
    · simp [get, heq, hf.1]
    · have hlt : i < xs.length := by
        have := hf.1
        omega
      rw [List.getElem?_append_left hlt, ← hf.2 i hlt]
      simp [get, heq, hd]

theorem emplaceBack_stuck {x : T} (hg : v.Grown) (hstuck : Stuck g v.size v.capacity) :
    v.emplaceBack g x = .error .endless := by
  obtain ⟨heq, hbig, hplace⟩ := hstuck
  cases hd : v.data with
  | none =>
    have := hg.null hd
    omega
  | some d =>
    unfold emplaceBack
    rw [if_pos (by omega), reserve_stuck hd hbig hplace]
    rfl

/-- `emplace_back` appends, unless it has to move more than `2 ^ 32` elements. -/
theorem emplaceBack_spec {x : T} {xs : List T} (hf : v.Filled xs) (hg : v.Grown)
    (hsize : v.size < 2 ^ 63) (hstuck : ¬ Stuck g v.size v.capacity) :
    ∃ v', v.emplaceBack g x = .ok v' ∧ v'.Filled (xs ++ [x]) ∧ v'.Grown := by
  have hfits := hg.fits
  have htight := hg.tight
  by_cases hroom : v.size < v.capacity
  case pos =>
    have hnull : v.data ≠ none := fun hn => by
      have := hg.null hn
      omega
    obtain ⟨v', hput, hf', hnull', hsize', hcap'⟩ := emplaceBack_room hf hnull hroom
    refine ⟨v', hput, hf', fun hn => absurd hn hnull', ?_, by omega, by omega⟩
    rw [hcap']
    exact hg.doubled
  case neg =>
    have heq : v.size = v.capacity := Nat.le_antisymm hfits (Nat.not_lt.mp hroom)
    have hok : v.size < 2 ^ 32 ∨ g.inPlace = true := by
      by_contra hnot
      rw [not_or, Bool.not_eq_true] at hnot
      exact hstuck ⟨heq, Nat.not_lt.mp hnot.1, hnot.2⟩
    obtain ⟨v₁, hres⟩ := @reserve_eq_ok T v g (growfun v.capacity) hok
    obtain ⟨hsize₁, hcap₁, hnull₁, hget₁⟩ := reserve_spec hres
    obtain ⟨hgrow, hdouble⟩ := growfun_doubled (heq ▸ hsize) hg.doubled
    have hcap : v₁.capacity = growfun v.capacity := by
      rw [hcap₁, Nat.max_eq_left (by omega)]
    have hf₁ : v₁.Filled xs := by
      refine ⟨hsize₁.trans hf.1, fun i hi => ?_⟩
      rw [hget₁ i (hf.1 ▸ hi), hf.2 i hi]
    have hne : v₁.data ≠ none := fun hn => by
      have := hnull₁ hn
      omega
    obtain ⟨v', hput, hf', hnull', hsize', hcap'⟩ :=
      @emplaceBack_room T v₁ g x xs hf₁ hne (by omega)
    refine ⟨v', ?_, hf', fun hn => absurd hn hnull', ?_, by omega, by omega⟩
    · unfold emplaceBack at hput ⊢
      rw [if_neg (by omega), ok_bind] at hput
      rw [if_pos (by omega), hres, ok_bind]
      exact hput
    · rw [hcap', hcap]
      exact .inr hdouble

end

end Vec

end NeptunOS
