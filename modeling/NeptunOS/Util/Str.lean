import Mathlib.Data.List.Basic

/-!
# `util/string.cc`

The two comparisons, and the one of `StringView`. For `strncmp` and `strcmp` a C string is
the list of the bytes that may be read; past the end of the list the terminator is read. Both
return 0 for "equal".
-/

namespace NeptunOS

/-- The loop of `strncmp`: the end of either string ends it too, as equal. -/
def strncmpLoop : ℕ → List UInt8 → List UInt8 → ℕ
  | 0, _, _ => 0
  | chars + 1, a :: s1, b :: s2 =>
    if a = 0 ∨ b = 0 then 0
    else if a ≠ b then 1
    else strncmpLoop chars s1 s2
  | _ + 1, _, _ => 0

/-- `strncmp(s1, s2, chars)`. -/
def strncmp (s1 s2 : List UInt8) (chars : ℕ) : ℕ :=
  if chars = 0 ∨ s1.headD 0 ≠ s2.headD 0 then 1 else strncmpLoop chars s1 s2

/-- `strcmp(s1, s2)`. -/
def strcmp : List UInt8 → List UInt8 → ℕ
  | a :: s1, b :: s2 =>
    if a = 0 ∨ b = 0 then (if a ≠ b then 1 else 0)
    else if a ≠ b then 1
    else strcmp s1 s2
  | s1, s2 => if s1.headD 0 ≠ s2.headD 0 then 1 else 0

/-- A C string at `mem`; what lies behind its terminator is not known. -/
structure CString (mem : ℕ → UInt8) (str : List UInt8) : Prop where
  chars : ∀ i < str.length, mem i = str.getD i 0
  terminated : mem str.length = 0
  nonzero : 0 ∉ str

/-- `StringView`: where it begins and the characters it shows. -/
structure StringView where
  pos : ℕ
  text : List UInt8
deriving DecidableEq, Repr

/-- The loop of `StringView::operator==(const char* rhs)` from one character on. -/
def viewEq : List UInt8 → (ℕ → UInt8) → Bool
  | [], rhs => rhs 0 = 0
  | b :: text, rhs => if rhs 0 ≠ b then false else viewEq text fun i => rhs (i + 1)

/-- `StringView::operator==(const char* rhs)`. -/
def StringView.equal (v : StringView) (rhs : ℕ → UInt8) : Bool := viewEq v.text rhs

variable {str s1 s2 : List UInt8} {mem : ℕ → UInt8} {n : ℕ}

theorem cstring_getD (h : 0 ∉ str) : CString (fun i => str.getD i 0) str :=
  ⟨fun _ _ => rfl, by simp, h⟩

theorem CString.tail {b : UInt8} (h : CString mem (b :: str)) :
    CString (fun i => mem (i + 1)) str where
  chars i hi := h.chars (i + 1) (Nat.succ_lt_succ hi)
  terminated := h.terminated
  nonzero hmem := h.nonzero (List.mem_cons_of_mem b hmem)

/-- The comparison ends at the terminator of the C string if the view has no zero. -/
theorem viewEq_eq {text : List UInt8} (hstr : CString mem str) (htext : 0 ∉ text) :
    viewEq text mem = decide (text = str) := by
  induction text generalizing str mem with
  | nil =>
    cases str with
    | nil =>
      have hzero : mem 0 = 0 := hstr.terminated
      simp [viewEq, hzero]
    | cons c str =>
      have hc : mem 0 = c := hstr.chars 0 (Nat.succ_pos _)
      have hne : c ≠ 0 := fun h => hstr.nonzero (h ▸ List.mem_cons_self)
      simp [viewEq, hc, hne]
  | cons b text ih =>
    obtain ⟨hb, htext⟩ := not_or.mp (List.mem_cons.not.mp htext)
    cases str with
    | nil =>
      have hzero : mem 0 = 0 := hstr.terminated
      simp [viewEq, hzero, hb]
    | cons c str =>
      have hc : mem 0 = c := hstr.chars 0 (Nat.succ_pos _)
      rw [viewEq, hc, ih hstr.tail htext]
      by_cases hcb : c = b
      · simp [hcb]
      · simp [hcb, Ne.symm hcb]

/-- `s1` is not empty and ends before `s2` and before `n` characters, and they agree so far. -/
def EndsFirst (s1 s2 : List UInt8) (n : ℕ) : Prop :=
  s1 ≠ [] ∧ s1 <+: s2 ∧ s1.length < min s2.length n

instance (s1 s2 : List UInt8) (n : ℕ) : Decidable (EndsFirst s1 s2 n) :=
  inferInstanceAs (Decidable (_ ∧ _))

/-- The loop also ends, as equal, where only one string ends. -/
theorem strncmpLoop_eq : ∀ {n : ℕ} {s1 s2 : List UInt8}, 0 ∉ s1 → 0 ∉ s2 →
    strncmpLoop n s1 s2 = if (s1 ++ [0]).take n = (s2 ++ [0]).take n ∨
      s1 <+: s2 ∧ s1.length < min s2.length n ∨ s2 <+: s1 ∧ s2.length < min s1.length n
      then 0 else 1
  | 0, _, _, _, _ => by simp [strncmpLoop]
  | n + 1, [], s2, _, _ => by cases s2 <;> simp [strncmpLoop]
  | n + 1, a :: s1, [], _, _ => by simp [strncmpLoop]
  | n + 1, a :: s1, b :: s2, h1, h2 => by
    rw [List.mem_cons, not_or] at h1 h2
    have hne : ¬ (a = 0 ∨ b = 0) := fun h => h.elim (h1.1 ·.symm) (h2.1 ·.symm)
    rw [strncmpLoop, if_neg hne]
    by_cases hab : a = b
    · simp [hab, strncmpLoop_eq h1.2 h2.2, List.cons_prefix_cons]
    · simp [hab, Ne.symm hab, List.cons_prefix_cons]

theorem strncmp_eq (h1 : 0 ∉ s1) (h2 : 0 ∉ s2) :
    strncmp s1 s2 n = if n ≠ 0 ∧ ((s1 ++ [0]).take n = (s2 ++ [0]).take n ∨
      EndsFirst s1 s2 n ∨ EndsFirst s2 s1 n) then 0 else 1 := by
  unfold strncmp EndsFirst
  cases n with
  | zero => simp
  | succ n =>
    rw [strncmpLoop_eq h1 h2]
    cases s1 with
    | nil =>
      cases s2 with
      | nil => simp
      | cons b s2 =>
        have hb : (0 : UInt8) ≠ b := fun h => h2 (h ▸ List.mem_cons_self)
        simp [hb]
    | cons a s1 =>
      cases s2 with
      | nil =>
        have ha : a ≠ 0 := fun h => h1 (h ▸ List.mem_cons_self)
        simp [ha]
      | cons b s2 =>
        by_cases hab : a = b
        · simp [hab]
        · simp [hab, Ne.symm hab, List.cons_prefix_cons]

theorem strncmp_eq_zero (h1 : 0 ∉ s1) (h2 : 0 ∉ s2) (hn1 : n ≤ s1.length) (hn2 : n ≤ s2.length) :
    strncmp s1 s2 n = 0 ↔ n ≠ 0 ∧ s1.take n = s2.take n := by
  rw [strncmp_eq h1 h2, List.take_append_of_le_length hn1, List.take_append_of_le_length hn2]
  simp [EndsFirst, hn1, hn2, Nat.not_lt.mpr]

/-- **Prefixes.** `strncmp` compares `n` characters of the terminated strings, except that no
characters count as different, and a string that ends before the other as equal to it. -/
theorem strncmp_prefix_iff {s1 s2 : List UInt8} (n : ℕ) (h1 : 0 ∉ s1) (h2 : 0 ∉ s2) :
    strncmp s1 s2 n = (if (s1 ++ [0]).take n = (s2 ++ [0]).take n then 0 else 1) ↔
      n ≠ 0 ∧ ¬ EndsFirst s1 s2 n ∧ ¬ EndsFirst s2 s1 n := by
  have hends : ∀ {s1 s2 : List UInt8}, 0 ∉ s2 → EndsFirst s1 s2 n →
      (s1 ++ [0]).take n ≠ (s2 ++ [0]).take n := by
    rintro s1 - h2 ⟨-, ⟨t, rfl⟩, hlt⟩ heq
    have hget := congrArg (·[s1.length]?) heq
    cases t with
    | nil =>
      rw [List.append_nil] at hlt
      omega
    | cons c t =>
      simp [show s1.length < n by omega] at hget
      simp [← hget] at h2
  rw [strncmp_eq h1 h2]
  by_cases hspec : (s1 ++ [0]).take n = (s2 ++ [0]).take n
  · have h12 : ¬ EndsFirst s1 s2 n := fun h => hends h2 h hspec
    have h21 : ¬ EndsFirst s2 s1 n := fun h => hends h1 h hspec.symm
    simp [hspec, h12, h21]
  · have hn : n ≠ 0 := by
      rintro rfl
      exact hspec rfl
    simp [hspec, hn]

theorem strncmp_prefix_differ : strncmp [97, 98] [97, 99, 100] 2 = 1 :=
  (strncmp_prefix_iff 2 (by decide) (by decide)).mpr (by decide)

/-- No characters at all, and a string of one letter against one of two. -/
theorem strncmp_not_prefix : strncmp [97] [97] 0 = 1 ∧ strncmp [97] [97, 98] 2 = 0 := by
  decide

end NeptunOS
