import Mathlib.Data.List.Basic

/-!
# Ranges of a sequence of blocks

A sequence of values is kept in blocks of one length `B`. A reader that takes a range of it block
by block, from the position where the range begins in its first block, gets the range.

- `spans`: what such a reader collects, with an arbitrary way to read from one block.
- `length_spans`: how much that is.
- `spans_eq`: where every block is read as it is, the range.
- `drop_blocks`: whole blocks in front of the range are dropped as blocks.
-/

namespace NeptunOS.Blocks

variable {ι α : Type} {B : ℕ} {f : ι → ℕ → ℕ → List α} {c : ι → List α} {xs : List ι} {o n : ℕ}

/-- A range of `n` values from position `o` of the first block on; `f x o n` is what is read of
block `x`. -/
def spans (B : ℕ) (f : ι → ℕ → ℕ → List α) : List ι → ℕ → ℕ → List α
  | [], _, _ => []
  | x :: xs, o, n => f x o (min n (B - o)) ++ spans B f xs 0 (n - min n (B - o))

theorem spans_zero (hf : ∀ x ∈ xs, ∀ o, f x o 0 = []) (o : ℕ) : spans B f xs o 0 = [] := by
  induction xs generalizing o with
  | nil => rfl
  | cons x xs ih =>
    obtain ⟨hx, hxs⟩ := List.forall_mem_cons.mp hf
    rw [spans, Nat.zero_min, hx, Nat.zero_sub, ih hxs]
    rfl

/-- The rest of the first block and the blocks behind it. -/
theorem min_blocks {k : ℕ} (ho : o ≤ B) :
    min n (B - o) + min (n - min n (B - o)) (k * B) = min n ((k + 1) * B - o) := by
  rw [Nat.succ_mul]
  omega

theorem length_spans (hf : ∀ x ∈ xs, ∀ o n, (f x o n).length = n) (ho : o ≤ B) :
    (spans B f xs o n).length = min n (xs.length * B - o) := by
  induction xs generalizing o n with
  | nil => simp [spans]
  | cons x xs ih =>
    obtain ⟨hx, hxs⟩ := List.forall_mem_cons.mp hf
    rw [spans, List.length_append, hx, ih hxs (Nat.zero_le B), Nat.sub_zero, List.length_cons,
      min_blocks ho]

/-- Where every block is read as it is, the range is. -/
theorem spans_eq (hc : ∀ x ∈ xs, (c x).length = B)
    (hf : ∀ x ∈ xs, ∀ o n, o + n ≤ B → f x o n = ((c x).drop o).take n) (ho : o ≤ B) :
    spans B f xs o n = ((xs.flatMap c).drop o).take n := by
  induction xs generalizing o n with
  | nil => simp [spans]
  | cons x xs ih =>
    obtain ⟨hx, hxs⟩ := List.forall_mem_cons.mp hc
    obtain ⟨hfx, hfxs⟩ := List.forall_mem_cons.mp hf
    have hlen : ((c x).drop o).length = B - o := by rw [List.length_drop, hx]
    rw [spans, hfx _ _ (by omega), ih hxs hfxs (Nat.zero_le B), List.drop_zero,
      List.flatMap_cons, List.drop_append_of_le_length (by omega), List.take_append, hlen,
      ← hlen, ← List.take_eq_take_min, hlen]
    congr 2
    omega

/-- What is left behind position `k`, counted from the block that holds it. -/
theorem remaining_eq (xs : List ι) (B k : ℕ) :
    (xs.drop (k / B)).length * B - k % B = xs.length * B - k := by
  have hdiv := Nat.div_add_mod' k B
  rw [List.length_drop, Nat.sub_mul]
  omega

theorem drop_blocks (hc : ∀ x ∈ xs, (c x).length = B) (q r : ℕ) :
    (xs.flatMap c).drop (q * B + r) = ((xs.drop q).flatMap c).drop r := by
  induction q generalizing xs with
  | zero => rw [Nat.zero_mul, Nat.zero_add, List.drop_zero]
  | succ q ih =>
    cases xs with
    | nil => simp
    | cons x xs =>
      obtain ⟨hx, hxs⟩ := List.forall_mem_cons.mp hc
      rw [List.flatMap_cons, List.drop_succ_cons, ← ih hxs, Nat.succ_mul, Nat.add_right_comm,
        Nat.add_comm _ B, ← List.drop_drop, ← hx, List.drop_left]

end NeptunOS.Blocks
