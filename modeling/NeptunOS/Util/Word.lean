import Mathlib.Data.Nat.Bitwise

/-!
# Kernel words and halts

`u64` values are naturals below `2^64`; the operations that can wrap say so.
The macros of `util/bits/arithmetic.hh` keep their names. A kernel function
that does not return ends in a `Halt`.
-/

namespace NeptunOS

/-- Ways a kernel computation ends without returning. -/
inductive Halt where
  /-- `fatal(..)`: the message is printed and the CPU pauses. -/
  | fatal (msg : String)
  /-- A failed `assert(..)`. -/
  | assertion (cond : String)
  /-- A CPU exception that `onInterrupt` does not resume from. -/
  | exception (cause : String)
  /-- `pause()` after a report on the console. -/
  | paused (report : String)
  /-- Waiting for a lock that is never released. -/
  | spinning
  /-- A loop that does not end, such as one over a cyclic list. -/
  | endless
deriving DecidableEq, Repr

/-- `a + b` on `u64`. -/
def wadd (a b : ℕ) : ℕ := (a + b) % 2 ^ 64

/-- `a - b` on `u64`. -/
def wsub (a b : ℕ) : ℕ := (a + (2 ^ 64 - b)) % 2 ^ 64

/-- A little-endian number: `n` bytes from `k` on. -/
def leBytes (f : ℕ → UInt8) (k : ℕ) : ℕ → ℕ
  | 0 => 0
  | n + 1 => (f k).toNat + 256 * leBytes f (k + 1) n

theorem leBytes_lt (f : ℕ → UInt8) (k n : ℕ) : leBytes f k n < 256 ^ n := by
  induction n generalizing k with
  | zero => exact Nat.one_pos
  | succ n ih =>
    have hbyte := (f k).toNat_lt
    have hrest := ih (k + 1)
    rw [leBytes, Nat.pow_succ]
    omega

variable {x n a b : ℕ}

theorem leBytes_congr {f g : ℕ → UInt8} {k k' : ℕ} (h : ∀ j < n, f (k + j) = g (k' + j)) :
    leBytes f k n = leBytes g k' n := by
  induction n generalizing k k' with
  | zero => rfl
  | succ n ih =>
    have hfirst : f k = g k' := h 0 (Nat.succ_pos n)
    rw [leBytes, leBytes, hfirst, ih fun j hj => ?_]
    rw [Nat.add_right_comm k, Nat.add_right_comm k']
    exact h (j + 1) (Nat.succ_lt_succ hj)

/-- `align(x, a)`: round up, with the sum on `u64`. -/
def align (x a : ℕ) : ℕ := wadd x (a - 1) / a * a

/-- `align_down(x, a)`. -/
def alignDown (x a : ℕ) : ℕ := x / a * a

/-- `isaligned(x, a)`; callers make sure that `a` is not zero. -/
def isAligned (x a : ℕ) : Bool := x % a = 0

/-- First address of the direct map. -/
def hhdm : ℕ := 0xffff800000000000

/-- `VIRTUAL(addr)`. -/
def virt (addr : ℕ) : ℕ := addr ||| hhdm

/-- `PHYSICAL(addr)`: the low 47 bits. -/
def phys (addr : ℕ) : ℕ := addr &&& 0x00007fffffffffff

theorem wadd_of_lt (h : a + b < 2 ^ 64) : wadd a b = a + b := Nat.mod_eq_of_lt h

theorem wadd_zero (h : a < 2 ^ 64) : wadd a 0 = a := wadd_of_lt h

theorem wadd_lt (a b : ℕ) : wadd a b < 2 ^ 64 := Nat.mod_lt _ (by decide)

theorem wsub_lt (a b : ℕ) : wsub a b < 2 ^ 64 := Nat.mod_lt _ (by decide)

theorem wsub_of_le (ha : a < 2 ^ 64) (h : b ≤ a) : wsub a b = a - b := by
  unfold wsub
  omega

theorem wadd_assoc (a b c : ℕ) : wadd (wadd a b) c = wadd a (b + c) := by
  unfold wadd
  omega

theorem wadd_wsub_cancel (ha : a < 2 ^ 64) (hb : b < 2 ^ 64) : wsub (wadd a b) b = a := by
  unfold wadd wsub
  omega

theorem wsub_wadd_cancel (ha : a < 2 ^ 64) (hb : b < 2 ^ 64) : wadd (wsub a b) b = a := by
  unfold wadd wsub
  omega

/-- Displacements below `2^64` from one base are told apart by the address. -/
theorem wadd_left_cancel {c : ℕ} (hb : b < 2 ^ 64) (hc : c < 2 ^ 64) (h : wadd a b = wadd a c) :
    b = c := by
  unfold wadd at h
  omega

theorem align_dvd (x a : ℕ) : a ∣ align x a := Dvd.intro_left _ rfl

theorem align_lt (x a : ℕ) : align x a < 2 ^ 64 := by
  unfold align
  exact Nat.lt_of_le_of_lt (Nat.div_mul_le_self _ _) (wadd_lt _ _)

/-- Rounding up without overflow. -/
theorem align_of_lt (h : x + (a - 1) < 2 ^ 64) : align x a = (x + (a - 1)) / a * a := by
  rw [align, wadd_of_lt h]

/-- The words of a bitmap. -/
theorem align_words (h : n + 63 < 2 ^ 64) : align n 64 / 64 = (n + 63) / 64 := by
  rw [align_of_lt h, Nat.mul_div_cancel _ (by decide)]

theorem le_align (ha : 0 < a) (h : x + (a - 1) < 2 ^ 64) : x ≤ align x a ∧ align x a < x + a := by
  rw [align_of_lt h]
  have h1 := Nat.div_add_mod (x + (a - 1)) a
  have h2 := Nat.mod_lt (x + (a - 1)) ha
  rw [Nat.mul_comm a] at h1
  omega

theorem phys_eq_mod (x : ℕ) : phys x = x % 2 ^ 47 := Nat.and_two_pow_sub_one_eq_mod x 47

theorem hhdm_eq : hhdm = 2 ^ 47 * (2 ^ 17 - 1) := by decide

/-- `VIRTUAL` replaces the high 17 bits. -/
theorem virt_eq (h : x < 2 ^ 64) : virt x = hhdm + x % 2 ^ 47 := by
  have hlt : x % 2 ^ 47 < 2 ^ 47 := Nat.mod_lt _ (by decide)
  rw [virt, hhdm_eq]
  apply Nat.eq_of_testBit_eq
  intro j
  rw [Nat.testBit_two_pow_mul_add _ hlt, Nat.testBit_or, Nat.mul_comm,
    Nat.testBit_mul_two_pow, Nat.testBit_two_pow_sub_one, Nat.testBit_mod_two_pow]
  by_cases hj : j < 47
  · simp [hj]
  · by_cases hj' : j < 64
    · have : 47 ≤ j ∧ j - 47 < 17 := by omega
      simp [hj, this]
    · have hx : x.testBit j = false :=
        Nat.testBit_lt_two_pow (h.trans_le (Nat.pow_le_pow_right (by decide) (by omega)))
      have : ¬ j - 47 < 17 := by omega
      simp [hj, this, hx]

/-- The direct map holds 47 bits of physical address. -/
theorem phys_virt (x : ℕ) : phys (virt x) = x % 2 ^ 47 := by
  unfold phys virt hhdm
  rw [Nat.and_or_distrib_right]
  have h : (0xffff800000000000 &&& 0x00007fffffffffff : ℕ) = 0 := by decide
  rw [h, Nat.or_zero]
  exact Nat.and_two_pow_sub_one_eq_mod x 47

theorem phys_virt_of_lt (h : x < 2 ^ 47) : phys (virt x) = x := by
  rw [phys_virt, Nat.mod_eq_of_lt h]

end NeptunOS
