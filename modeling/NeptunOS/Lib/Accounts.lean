import Mathlib.Algebra.BigOperators.Group.Finset.Basic
import Mathlib.Tactic.Abel

/-!
# Accounts of blocks

Computations that take blocks from a pool and give blocks back. Block numbers are never
used twice, so that a block given back a second time is noticed: the computation stops
with `badFree`. It may also stop for a reason of its own.

`Turns p x Q` is a triple: whoever holds the blocks `p` may run `x`, which does not end in
`badFree`, and holds blocks `q` with `Q a q` afterwards. Everybody else's blocks stay in
use. There is one rule for each way of building a computation; `Turns.frame` adds blocks
that `x` does not care about.
-/

namespace NeptunOS.Accounts

/-- The blocks in use. -/
structure Pool where
  used : Finset ℕ
  next : ℕ
  fresh : ∀ b ∈ used, b < next

/-- Why a computation stopped. -/
inductive Stop (ε : Type) where
  | badFree
  | other (e : ε)
deriving DecidableEq

/-- A computation over the pool. -/
abbrev Acct (ε α : Type) : Type := StateT Pool (Except (Stop ε)) α

section Code

variable {ε α : Type}

/-- Take a block. -/
def take : Acct ε ℕ := fun s => .ok (s.next, {
  used := insert s.next s.used
  next := s.next + 1
  fresh := fun b hb => by
    rcases Finset.mem_insert.mp hb with rfl | hb
    · exact Nat.lt_succ_self _
    · exact Nat.lt_succ_of_lt (s.fresh b hb) })

/-- Give a block back. -/
def release (b : ℕ) : Acct ε Unit := fun s =>
  if b ∈ s.used then
    .ok ((), {
      used := s.used.erase b
      next := s.next
      fresh := fun c hc => s.fresh c (Finset.mem_of_mem_erase hc) })
  else .error .badFree

/-- Stop for another reason. -/
def fail (e : ε) : Acct ε α := fun _ => .error (.other e)

/-- A computation without the pool. -/
def lift : Except ε α → Acct ε α
  | .ok a => pure a
  | .error e => fail e

/-- `for (i = 0; i < n; i++) c[i] = f(i);`. -/
def fill (f : ℕ → Acct ε α) : ℕ → (ℕ → α) → Acct ε (ℕ → α)
  | 0, c => pure c
  | n + 1, c => do
    let c ← fill f n c
    let a ← f n
    pure (Function.update c n a)

/-- The same from above, for `k` indices from `lo` on. -/
def drain (f : ℕ → Acct ε α) (lo : ℕ) : ℕ → (ℕ → α) → Acct ε (ℕ → α)
  | 0, c => pure c
  | k + 1, c => do
    let a ← f (lo + k)
    drain f lo k (Function.update c (lo + k) a)

end Code

/-- Holding `p`, the computation runs without giving back a foreign block and ends
holding some `q` with `Q`. -/
structure Turns {ε α : Type} (p : Multiset ℕ) (x : Acct ε α) (Q : α → Multiset ℕ → Prop) :
    Prop where
  safe : ∀ s r, s.used.val = p + r → x s ≠ .error .badFree
  post : ∀ s r a s', s.used.val = p + r → x s = .ok (a, s') →
    ∃ q, Q a q ∧ s'.used.val = q + r

namespace Turns

variable {ε α β : Type} {p : Multiset ℕ} {x : Acct ε α} {f : α → Acct ε β}
  {P : α → Multiset ℕ → Prop} {Q : β → Multiset ℕ → Prop}

theorem pure {a : α} (h : P a p) : Turns p (Pure.pure a : Acct ε α) P where
  safe _ _ _ hx := by cases hx
  post s r b s' hs hx := by
    cases hx
    exact ⟨p, h, hs⟩

theorem fail (e : ε) : Turns p (fail e : Acct ε α) P where
  safe _ _ _ hx := by cases hx
  post _ _ _ _ _ hx := by cases hx

theorem lift {y : Except ε α} (h : ∀ a, y = .ok a → P a p) : Turns p (lift y) P := by
  cases y with
  | error e => exact fail e
  | ok a => exact pure (h a rfl)

section

variable (hx : Turns p x P)

include hx

theorem bind (hf : ∀ a q, P a q → Turns q (f a) Q) : Turns p (x >>= f) Q where
  safe s r hs := by
    show (x s >>= fun y => f y.1 y.2) ≠ _
    cases hxs : x s with
    | error e => exact fun he => hx.safe s r hs (hxs.trans (by cases he; rfl))
    | ok y =>
      obtain ⟨q, hq, hs'⟩ := hx.post s r y.1 y.2 hs hxs
      exact (hf y.1 q hq).safe y.2 r hs'
  post s r b s'' hs hb := by
    change (x s >>= fun y => f y.1 y.2) = _ at hb
    cases hxs : x s with
    | error e =>
      rw [hxs] at hb
      cases hb
    | ok y =>
      rw [hxs] at hb
      obtain ⟨q, hq, hs'⟩ := hx.post s r y.1 y.2 hs hxs
      exact (hf y.1 q hq).post y.2 r b s'' hs' hb

theorem mono {P' : α → Multiset ℕ → Prop} (h : ∀ a q, P a q → P' a q) : Turns p x P' where
  safe := hx.safe
  post s r a s' hs ha := by
    obtain ⟨q, hq, hs'⟩ := hx.post s r a s' hs ha
    exact ⟨q, h a q hq, hs'⟩

theorem frame (r : Multiset ℕ) : Turns (p + r) x fun a q => ∃ q', P a q' ∧ q = q' + r where
  safe s r' hs := hx.safe s (r + r') (by rw [hs, add_assoc])
  post s r' a s' hs ha := by
    obtain ⟨q, hq, hs'⟩ := hx.post s (r + r') a s' (by rw [hs, add_assoc]) ha
    exact ⟨q + r, ⟨q, hq, rfl⟩, by rw [hs', add_assoc]⟩

/-- Run `x` with a part of the blocks, then the rest with what it leaves. -/
theorem seq {r : Multiset ℕ}
    (hf : ∀ a q, P a q → Turns (q + r) (f a) Q) : Turns (p + r) (x >>= f) Q :=
  (hx.frame r).bind fun a _ ⟨q, hq, heq⟩ => heq ▸ hf a q hq

theorem part {p' : Multiset ℕ} (r : Multiset ℕ) (hp : p' = p + r)
    (hf : ∀ a q, P a q → Turns (q + r) (f a) Q) : Turns p' (x >>= f) Q :=
  hp ▸ hx.seq hf

end

theorem take : Turns p (take : Acct ε ℕ) fun b q => q = b ::ₘ p where
  safe _ _ _ hx := by cases hx
  post s r b s' hs hx := by
    cases hx
    refine ⟨_, rfl, ?_⟩
    have hnew : s.next ∉ s.used := fun hb => Nat.lt_irrefl _ (s.fresh _ hb)
    show (insert s.next s.used).val = s.next ::ₘ p + r
    rw [Finset.insert_val_of_notMem hnew, hs, Multiset.cons_add]

theorem release (b : ℕ) : Turns (b ::ₘ p) (release b : Acct ε Unit) fun _ q => q = p where
  safe s r hs := by
    have hb : b ∈ s.used := by
      rw [← Finset.mem_val, hs]
      simp
    unfold Accounts.release
    rw [if_pos hb]
    exact fun hx => by cases hx
  post s r a s' hs hx := by
    unfold Accounts.release at hx
    split at hx
    case isFalse => cases hx
    case isTrue hb =>
      cases hx
      refine ⟨p, rfl, ?_⟩
      show (s.used.erase b).val = p + r
      rw [Finset.erase_val, hs, Multiset.cons_add, Multiset.erase_cons_head]

open Finset (range)

theorem fill {f : ℕ → Acct ε α} {p : ℕ → Multiset ℕ} {g : ℕ → α → Multiset ℕ}
    {R : ℕ → α → Prop} {n : ℕ}
    (h : ∀ i < n, Turns (p i) (f i) fun a q => q = g i a ∧ R i a) (c : ℕ → α) :
    Turns (∑ i ∈ range n, p i) (fill f n c) fun c' q =>
      q = ∑ i ∈ range n, g i (c' i) ∧ ∀ i < n, R i (c' i) := by
  induction n with
  | zero => exact pure ⟨rfl, fun i hi => absurd hi (Nat.not_lt_zero i)⟩
  | succ n ih =>
    rw [Finset.sum_range_succ]
    refine (ih fun i hi => h i (Nat.lt_succ_of_lt hi)).seq fun c' q hc' => ?_
    obtain ⟨rfl, hR⟩ := hc'
    rw [add_comm]
    refine (h n (Nat.lt_succ_self n)).seq fun a q ha => pure ?_
    obtain ⟨rfl, hRn⟩ := ha
    have hsame : ∀ i < n, Function.update c' n a i = c' i := fun i hi =>
      Function.update_of_ne (Nat.ne_of_lt hi) a c'
    constructor
    · rw [Finset.sum_range_succ, Function.update_self, add_comm]
      congr 1
      exact Finset.sum_congr rfl fun i hi => by rw [hsame i (Finset.mem_range.mp hi)]
    · intro i hi
      rcases Nat.lt_succ_iff_lt_or_eq.mp hi with hi | rfl
      · rw [hsame i hi]
        exact hR i hi
      · rw [Function.update_self]
        exact hRn

theorem drain {f : ℕ → Acct ε α} {p : ℕ → Multiset ℕ} {lo k : ℕ}
    (h : ∀ i < k, Turns (p (lo + i)) (f (lo + i)) fun _ q => q = 0) (c : ℕ → α) :
    Turns (∑ i ∈ range k, p (lo + i)) (drain f lo k c) fun c' q =>
      q = 0 ∧ ∀ i < lo, c' i = c i := by
  induction k generalizing c with
  | zero => exact pure ⟨rfl, fun _ _ => rfl⟩
  | succ k ih =>
    rw [Finset.sum_range_succ, add_comm]
    refine (h k (Nat.lt_succ_self k)).seq fun a q hq => ?_
    subst hq
    rw [zero_add]
    refine (ih (fun i hi => h i (Nat.lt_succ_of_lt hi)) _).mono fun c' q hc' => ⟨hc'.1, ?_⟩
    intro i hi
    rw [hc'.2 i hi, Function.update_of_ne (by omega)]

end Turns

/-- Single out one of the summands. -/
theorem sum_focus {α : Type} (g : α → Multiset ℕ) (c : ℕ → α) {i n : ℕ} (hi : i < n) :
    ∃ rest, ∑ j ∈ Finset.range n, g (c j) = g (c i) + rest ∧
      ∀ a, ∑ j ∈ Finset.range n, g (Function.update c i a j) = g a + rest := by
  have hmem := Finset.mem_range.mpr hi
  refine ⟨∑ j ∈ (Finset.range n).erase i, g (c j), (Finset.add_sum_erase _ _ hmem).symm,
    fun a => ?_⟩
  rw [← Finset.add_sum_erase _ _ hmem, Function.update_self]
  congr 1
  refine Finset.sum_congr rfl fun j hj => ?_
  rw [Function.update_of_ne (Finset.ne_of_mem_erase hj)]

end NeptunOS.Accounts
