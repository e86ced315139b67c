import Mathlib.Logic.Function.Basic
import Mathlib.Data.Nat.Notation

/-!
# Memory behind a partial map

Addresses `A` are mapped to cells `P`, and only some of them. A program sees the contents of the
cells through the map, and its stores go through it as well; a store to an address that is not
mapped is left out.

Where the map is injective a store is seen at its own address only (`put_apply`). Two addresses
with one cell see each other's stores, so that nothing of the kind holds without it.
-/

namespace NeptunOS.Mapping

open Function

variable {A P β : Type} [DecidableEq P] {T : A → Option P} {addr : ℕ → A} {src : ℕ → β} {b : P → β}

/-- What is seen at an address. -/
def see (T : A → Option P) (b : P → β) (a : A) : Option β := (T a).map b

/-- A store of `x` to `a`. -/
def putAt (T : A → Option P) (a : A) (x : β) (b : P → β) : P → β :=
  match T a with
  | none => b
  | some p => update b p x

/-- `n` stores, of `src k` to `addr k`. -/
def put (T : A → Option P) (addr : ℕ → A) (src : ℕ → β) : ℕ → (P → β) → P → β
  | 0, b => b
  | n + 1, b => putAt T (addr n) (src n) (put T addr src n b)

/-- No cell is mapped at two addresses of `D`. -/
def Separate (T : A → Option P) (D : A → Prop) : Prop :=
  ∀ a a' p, D a → D a' → T a = some p → T a' = some p → a = a'

theorem putAt_self {a : A} {p : P} (h : T a = some p) (x : β) : putAt T a x b p = x := by
  rw [putAt, h]
  exact update_self ..

theorem putAt_other {a : A} {p : P} (h : T a ≠ some p) (x : β) : putAt T a x b p = b p := by
  unfold putAt
  cases hq : T a with
  | none => rfl
  | some q => exact update_of_ne (fun heq => h (hq.trans (congrArg some heq.symm))) ..

/-- Cells that no store goes to. -/
theorem put_apply_other {n : ℕ} {p : P} (h : ∀ k < n, T (addr k) ≠ some p) :
    put T addr src n b p = b p := by
  induction n with
  | zero => rfl
  | succ n ih =>
    have hrest := ih fun k hk => h k (Nat.lt_succ_of_lt hk)
    rw [put, putAt_other (h n (Nat.lt_succ_self n)), hrest]

/-- The cell of the `k`-th address, if no later store goes to it. -/
theorem put_apply_self {n k : ℕ} {p : P} (hk : k < n) (hp : T (addr k) = some p)
    (hlater : ∀ j, k < j → j < n → T (addr j) ≠ some p) : put T addr src n b p = src k := by
  induction n with
  | zero => exact absurd hk (Nat.not_lt_zero k)
  | succ n ih =>
    rw [put]
    by_cases heq : k = n
    · subst heq
      exact putAt_self hp _
    · have hrest := ih (by omega) fun j hj hjn => hlater j hj (Nat.lt_succ_of_lt hjn)
      rw [putAt_other (hlater n (by omega) (Nat.lt_succ_self n)), hrest]

/-- A cell to which all stores are of `x`, and that held `x` or is stored to. -/
theorem put_eq {n : ℕ} {p : P} {x : β} (hsrc : ∀ k < n, T (addr k) = some p → src k = x)
    (h : b p = x ∨ ∃ k < n, T (addr k) = some p) : put T addr src n b p = x := by
  induction n with
  | zero => exact h.resolve_right fun ⟨k, hk, _⟩ => absurd hk (Nat.not_lt_zero k)
  | succ n ih =>
    rw [put]
    by_cases hp : T (addr n) = some p
    · rw [putAt_self hp, hsrc n (Nat.lt_succ_self n) hp]
    · rw [putAt_other hp]
      refine ih (fun k hk => hsrc k (Nat.lt_succ_of_lt hk)) (h.imp_right ?_)
      rintro ⟨k, hk, hkp⟩
      have hne : k ≠ n := by
        rintro rfl
        exact hp hkp
      exact ⟨k, by omega, hkp⟩

section Range

variable {T : ℕ → Option P} {addr : ℕ → ℕ} {D : ℕ → Prop} {v n : ℕ}

/-- Stores to the addresses from `v` on, all in `D`, are seen there and nowhere else in `D`. -/
theorem put_apply (hsep : Separate T D) (haddr : ∀ k < n, addr k = v + k)
    (hD : ∀ k < n, D (v + k)) {a : ℕ} {p : P} (ha : D a) (hp : T a = some p) :
    put T addr src n b p = if v ≤ a ∧ a < v + n then src (a - v) else b p := by
  have hother : ∀ k < n, T (addr k) = some p → a = v + k := by
    intro k hk hpk
    rw [haddr k hk] at hpk
    exact hsep a (v + k) p ha (hD k hk) hp hpk
  split
  case isTrue hin =>
    have hk : a - v < n := by omega
    have hsum : v + (a - v) = a := Nat.add_sub_cancel' hin.1
    refine put_apply_self hk ?_ fun j hj hjn hpj => ?_
    · rw [haddr _ hk, hsum, hp]
    · have := hother j hjn hpj
      omega
  case isFalse hout =>
    refine put_apply_other fun k hk hpk => hout ?_
    have := hother k hk hpk
    omega

end Range

end NeptunOS.Mapping
