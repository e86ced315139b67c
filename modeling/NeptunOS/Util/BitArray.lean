import NeptunOS.Lib.Stepwise
import NeptunOS.Util.Bitmap

/-!
# Bitmaps as arrays of bits

A bitmap of `units` bits should be an array of that many bits. `init` rounds `units` down
to whole words, so it is one exactly when there is nothing to round
(`array_iff`). `find_and_set_multiple` searches from `start_at` to the end and then
from 0 to `start_at`, and so misses a run that has bits on both sides of `start_at`
(`findAndSetMultiple_complete_iff`).
-/

namespace NeptunOS.Bitmap

open Stepwise

/-! ## Reading back what was set -/

/-- The calls `set(i, v)` in `calls`, one after the other. -/
def setAll (b : Bitmap) (calls : List (ℕ × Bool)) : Except Halt Bitmap :=
  calls.foldlM (fun b c => b.set c.1 c.2) b

/-- An array of bits, all of them `dflt` at first, after the writes in `calls`. -/
def written (dflt : Bool) (calls : List (ℕ × Bool)) : ℕ → Bool :=
  calls.foldl (fun bits c => Function.update bits c.1 c.2) fun _ => dflt

/-- The bitmap made by `init(buffer, units, dflt)` takes every sequence of calls with
indices below `units` and then reads as the array does. -/
def ActsAsArray (buffer : ℕ → BitVec 64) (units : ℕ) (dflt : Bool) : Prop :=
  ∀ calls : List (ℕ × Bool), (∀ c ∈ calls, c.1 < units) →
    ∃ b, (init buffer units dflt).setAll calls = .ok b ∧
      ∀ i < units, b.get i = .ok (written dflt calls i)

/-- Inside the bitmap, calls of `set` are writes to its bits. -/
theorem setAll_spec : ∀ (calls : List (ℕ × Bool)) (b : Bitmap) (bits : ℕ → Bool),
    (∀ c ∈ calls, c.1 < b.sz) → (∀ i < b.sz, b.bit i = bits i) →
    ∃ b', b.setAll calls = .ok b' ∧ b'.sz = b.sz ∧ ∀ i < b.sz,
      b'.bit i = calls.foldl (fun bits c => Function.update bits c.1 c.2) bits i
  | [], b, bits, _, hbits => ⟨b, rfl, rfl, hbits⟩
  | c :: calls, b, bits, hin, hbits => by
    have hput : ∀ i < (b.put c.1 c.2).sz,
        (b.put c.1 c.2).bit i = Function.update bits c.1 c.2 i := by
      intro i hi
      rw [bit_put, Function.update_apply, hbits i hi]
    obtain ⟨b', hall, hsz, hread⟩ := setAll_spec calls (b.put c.1 c.2) _
      (fun x hx => hin x (List.mem_cons_of_mem _ hx)) hput
    refine ⟨b', ?_, hsz, hread⟩
    show (b.set c.1 c.2 >>= fun b => b.setAll calls) = .ok b'
    rw [set_ok (hin c List.mem_cons_self), ok_bind]
    exact hall

theorem alignDown_eq_iff (units : ℕ) : alignDown units 64 = units ↔ 64 ∣ units := by
  unfold alignDown
  omega

/-- **A bitmap is an array of `units` bits** exactly when `units` is a multiple of 64. -/
theorem array_iff (buffer : ℕ → BitVec 64) (units : ℕ) (dflt : Bool) :
    ActsAsArray buffer units dflt ↔ 64 ∣ units := by
  constructor
  · intro harray
    -- the last bit can be read
    obtain ⟨b, hb, hread⟩ := harray [] fun _ hc => absurd hc List.not_mem_nil
    obtain rfl : init buffer units dflt = b := Except.ok.inj hb
    rw [← alignDown_eq_iff]
    by_contra hne
    have hlt : alignDown units 64 < units := Nat.lt_of_le_of_ne (Nat.div_mul_le_self _ _) hne
    have hlast := hread (alignDown units 64) hlt
    rw [get, init_sz, if_pos (Nat.le_refl _)] at hlast
    cases hlast
  · intro hdvd calls hin
    have hsz : (init buffer units dflt).sz = units := (alignDown_eq_iff units).mpr hdvd
    obtain ⟨b, hall, hsame, hread⟩ := setAll_spec calls (init buffer units dflt) (fun _ => dflt)
      (fun c hc => hsz.symm ▸ hin c hc) fun i hi => init_bit buffer dflt hi
    rw [hsz] at hsame hread
    refine ⟨b, hall, fun i hi => ?_⟩
    rw [get_ok (hsame.symm ▸ hi), hread i hi]
    rfl

/-- The map of the 179 scan codes (`input_init`) has 128 bits: the state of F2, whose code
is 128, can neither be read nor set. -/
theorem key_states_short : ¬ ActsAsArray (fun _ => 0) 179 false ∧
    (init (fun _ => 0) 179 false).get 128 =
      .error (.fatal "get out of bounds! (%llu > %llu)") := by
  refine ⟨fun harray => ?_, rfl⟩
  obtain ⟨b, hb, -⟩ := harray [(128, true)] (by simp)
  cases hb

/-! ## Searching all of the bitmap -/

/-- `r` is the start of `n` clear bits, which are set now and are the only ones that
changed; or there are no `n` clear bits in a row and nothing changed. -/
def Complete (b : Bitmap) (n : ℕ) (r : Option ℕ × Bitmap) : Prop :=
  match r.1 with
  | none => r.2 = b ∧ ∀ c, c + n ≤ b.sz → ¬ b.Clear c n
  | some c =>
    c + n ≤ b.sz ∧ b.Clear c n ∧ r.2.sz = b.sz ∧
      ∀ k, r.2.bit k = (decide (c ≤ k ∧ k < c + n) || b.bit k)

/-- A run before `start` or from `start` on. -/
def Beside (start c n : ℕ) : Prop := start ≤ c ∨ c + n ≤ start

/-- What `find_and_set_multiple` does: it finds a run beside `start_at` where there is
one, and else it leaves the bitmap alone. -/
theorem findAndSetMultiple_spec (b : Bitmap) (startAt : ℕ) {n : ℕ} (hn : 0 < n) :
    ∃ r, b.findAndSetMultiple n startAt = .ok r ∧
      ((∃ c, r.1 = some c ∧ Beside startAt c n ∧ b.Complete n r) ∨
        (r = (none, b) ∧ ∀ c, c + n ≤ b.sz → Beside startAt c n → ¬ b.Clear c n)) := by
  obtain ⟨⟨first, b₁⟩, hfirst, hfound⟩ := allocateRange_ok b startAt b.sz hn
  rw [Nat.min_self] at hfound
  unfold findAndSetMultiple
  rw [hfirst, ok_bind]
  cases first with
  | some c =>
    obtain ⟨hle, hend, hclear, -, hsz, hbits⟩ := hfound
    exact ⟨_, rfl, .inl ⟨c, rfl, .inl hle, hend, hclear, hsz, hbits⟩⟩
  | none =>
    obtain ⟨rfl, hnone⟩ := hfound
    obtain ⟨⟨second, b₂⟩, hsecond, hfound⟩ := allocateRange_ok b₁ 0 startAt hn
    refine ⟨_, hsecond, ?_⟩
    cases second with
    | some c =>
      obtain ⟨-, hend, hclear, -, hsz, hbits⟩ := hfound
      have hend' := Nat.le_min.mp hend
      exact .inl ⟨c, rfl, .inr hend'.1, hend'.2, hclear, hsz, hbits⟩
    | none =>
      obtain ⟨rfl, hnone'⟩ := hfound
      refine .inr ⟨rfl, fun c hend hbeside => ?_⟩
      rcases hbeside with hle | hle
      · exact hnone c hle hend
      · exact hnone' c (Nat.zero_le c) (Nat.le_min.mpr ⟨hle, hend⟩)

/-- **The search is complete** exactly when the clear runs do not all have bits on both
sides of `start_at`. -/
theorem findAndSetMultiple_complete_iff (b : Bitmap) (startAt : ℕ) {n : ℕ} (hn : 0 < n) :
    (∃ r, b.findAndSetMultiple n startAt = .ok r ∧ b.Complete n r) ↔
      ((∃ c, c + n ≤ b.sz ∧ b.Clear c n) →
        ∃ c, c + n ≤ b.sz ∧ b.Clear c n ∧ (startAt ≤ c ∨ c + n ≤ startAt)) := by
  obtain ⟨r, hr, hspec⟩ := findAndSetMultiple_spec b startAt hn
  have hcase : (∃ r, b.findAndSetMultiple n startAt = .ok r ∧ b.Complete n r) ↔
      b.Complete n r := by
    constructor
    · rintro ⟨r', hr', hcomplete⟩
      rw [hr] at hr'
      exact Except.ok.inj hr' ▸ hcomplete
    · exact fun hcomplete => ⟨r, hr, hcomplete⟩
  rw [hcase]
  rcases hspec with ⟨c, hc, hbeside, hcomplete⟩ | ⟨rfl, hnone⟩
  · refine iff_of_true hcomplete fun _ => ?_
    unfold Complete at hcomplete
    rw [hc] at hcomplete
    exact ⟨c, hcomplete.1, hcomplete.2.1, hbeside⟩
  · constructor
    · rintro ⟨-, hfull⟩ ⟨c, hend, hclear⟩
      exact absurd hclear (hfull c hend)
    · intro hcond
      refine ⟨rfl, fun c hend hclear => ?_⟩
      obtain ⟨c', hend', hclear', hbeside⟩ := hcond ⟨c, hend, hclear⟩
      exact hnone c' hend' hbeside hclear'

/-- One word with the bits 7 and 8 clear. -/
def twoClear : Bitmap := ⟨fun _ => ~~~0x180#64, 64⟩

/-- From 7 on, the two clear bits are found. -/
theorem findAndSetMultiple_from_seven : 0 < 2 ∧
    ∃ r, twoClear.findAndSetMultiple 2 7 = .ok r ∧ twoClear.Complete 2 r := by
  refine ⟨by decide, (findAndSetMultiple_complete_iff twoClear 7 (by decide)).mpr fun _ => ?_⟩
  refine ⟨7, by decide, fun k hk hk' => ?_, Or.inl (Nat.le_refl 7)⟩
  obtain rfl | rfl : k = 7 ∨ k = 8 := by omega
  all_goals decide

/-- From 8 on they are not: each half of the search sees one of them. -/
theorem split_run_missed : twoClear.Clear 7 2 ∧ 7 + 2 ≤ twoClear.sz ∧
    (twoClear.findAndSetMultiple 2 8).map Prod.fst = .ok none := by
  refine ⟨fun k hk hk' => ?_, by decide, by decide⟩
  obtain rfl | rfl : k = 7 ∨ k = 8 := by omega
  all_goals decide

end NeptunOS.Bitmap
