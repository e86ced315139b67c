import Mathlib.Data.List.Induction
import NeptunOS.Lib.Stepwise
import NeptunOS.Util.Word

/-!
# Typing a line

`append_char` keeps the line that is being typed in `input_buffer` and passes it on at a line
feed. What it is for is the fold `line` of the keys pressed since the last line feed, whatever
characters count as `printable`.

- `step_folded_iff`: what a single key press does.
- `typing_runs`: no key halts `append_char`.
- `typing_folded_iff`: the runs of key presses that `append_char` handles like the fold.
-/

namespace NeptunOS.Input

open Function Stepwise

/-! ## `append_char` -/

/-- `kbd_translate_hu(c)`. -/
def kbdTranslateHu (c : UInt8) : UInt32 :=
  if c = 0x5d then 0x151       -- ő
  else if c = 0x5b then 0xfa   -- ú
  else if c = 0x3b then 0xe9   -- é
  else if c = 0x27 then 0xe1   -- á
  else if c = 0x5c then 0x171  -- ű
  else if c = 0x2c then 0x2c
  else if c = 0x2e then 0x2e
  else if c = 0x2f then 0x2d
  else if c = 0x60 then 0x30
  else if c = 0x30 then 0xf6   -- ö
  else if c = 0x2d then 0xfc   -- ü
  else if c = 0x3d then 0xf3   -- ó
  else c.toUInt32

/-- `INPUT_BUFFER_MAX_SIZE`. -/
def inputBufferMaxSize : ℕ := 4096

/-- `input_buffer` and `input_buffer_size`. -/
structure InputBuffer where
  buffer : ℕ → UInt8
  size : ℕ

/-- The first `size` characters. -/
def textOf (buffer : ℕ → UInt8) (size : ℕ) : List UInt32 :=
  (List.range size).map fun i => (buffer i).toUInt32

def InputBuffer.text (s : InputBuffer) : List UInt32 := textOf s.buffer s.size

/-- `append_char(sc)`, with the buffer as it is passed to `cmdline_evaluate_buffer`. -/
def appendChar (s : InputBuffer) (sc : UInt8) :
    Except Halt (Option InputBuffer × InputBuffer) :=
  let c := kbdTranslateHu sc
  if c >>> 24 ≠ 0 then
    .error (.fatal "UTF-8 characters with more than 3 code points are not supported!")
  else if s.size = inputBufferMaxSize - 1 then .ok (none, s)
  else if c &&& ~~~0x7f ≠ 0 then .ok (none, s)
  else if c = 0x0a then
    let buffer := update s.buffer s.size 0
    .ok (some ⟨buffer, s.size⟩, ⟨update buffer 0 0, 0⟩)
  else if c = 0x08 then
    if 0 < s.size then .ok (none, ⟨update s.buffer (s.size - 1) 0, s.size - 1⟩) else .ok (none, s)
  else .ok (none, ⟨update s.buffer s.size c.toUInt8, s.size + 1⟩)

/-! ## The line -/

section Line

variable (printable : UInt32 → Bool)

/-- What a character does to the line in front of it; code 0 is no character. -/
def edit (l : List UInt32) (c : UInt32) : List UInt32 :=
  if c = 0 then l
  else if c = 0x0a then []
  else if c = 0x08 then l.dropLast
  else if printable c = true ∧ l.length < inputBufferMaxSize - 1 then l ++ [c]
  else l

/-- The line that the keys pressed since the last line feed make up. -/
def line (keys : List UInt8) : List UInt32 :=
  (keys.map kbdTranslateHu).foldl (edit printable) []

/-- What goes to `cmdline_evaluate_buffer` when key `k` is pressed behind `keys`. -/
def Answered (keys : List UInt8) (k : UInt8) : Option InputBuffer → Prop
  | some b => kbdTranslateHu k = 0x0a ∧ b.text = line printable keys ∧ b.buffer b.size = 0
  | none => kbdTranslateHu k ≠ 0x0a

/-- The buffer behind the key presses of `h` is in order, and so were the lines passed on. -/
structure Folded (h : List (UInt8 × Option InputBuffer)) (s : InputBuffer) : Prop where
  size_lt : s.size < inputBufferMaxSize
  text_eq : s.text = line printable (h.map Prod.fst)
  answers : ∀ pre k y, pre ++ [(k, y)] <+: h → Answered printable (pre.map Prod.fst) k y

/-- A full buffer takes no line feed and no backspace, and in any other one `append_char` has
to agree on what is printable: it stores every code of seven bits, 0 included, and no other
one. -/
def Meets (s : InputBuffer) (k : UInt8) : Prop :=
  if s.size = inputBufferMaxSize - 1 then kbdTranslateHu k ≠ 0x0a ∧ kbdTranslateHu k ≠ 0x08
  else kbdTranslateHu k = 0x0a ∨ kbdTranslateHu k = 0x08 ∨
    kbdTranslateHu k ≠ 0 ∧ (printable (kbdTranslateHu k) = true ↔ kbdTranslateHu k < 0x80)

end Line

/-! ## Texts -/

section Text

variable {buffer : ℕ → UInt8} {b : UInt8} {i n : ℕ}

theorem length_textOf (buffer : ℕ → UInt8) (n : ℕ) : (textOf buffer n).length = n := by
  rw [textOf, List.length_map, List.length_range]

theorem textOf_succ (buffer : ℕ → UInt8) (n : ℕ) :
    textOf buffer (n + 1) = textOf buffer n ++ [(buffer n).toUInt32] := by
  rw [textOf, List.range_succ, List.map_append, List.map_singleton, textOf]

theorem textOf_update (hi : n ≤ i) : textOf (update buffer i b) n = textOf buffer n :=
  List.map_congr_left fun j hj => by
    have hj := List.mem_range.mp hj
    rw [update_of_ne (by omega)]

theorem textOf_append (buffer : ℕ → UInt8) (n : ℕ) (b : UInt8) :
    textOf (update buffer n b) (n + 1) = textOf buffer n ++ [b.toUInt32] := by
  rw [textOf_succ, textOf_update (Nat.le_refl n), update_self]

theorem textOf_dropLast (hpos : 0 < n) :
    textOf (update buffer (n - 1) b) (n - 1) = (textOf buffer n).dropLast := by
  obtain ⟨m, rfl⟩ := Nat.exists_eq_succ_of_ne_zero (Nat.ne_of_gt hpos)
  rw [Nat.succ_sub_one, textOf_update (Nat.le_refl m), Nat.succ_eq_add_one, textOf_succ,
    List.dropLast_concat]

end Text

/-! ## A single key -/

section Step

variable {printable : UInt32 → Bool} {h : List (UInt8 × Option InputBuffer)}
  {s s' : InputBuffer} {k : UInt8} {y : Option InputBuffer} {l : List UInt32} {c : UInt32}

theorem line_concat (keys : List UInt8) (k : UInt8) :
    line printable (keys ++ [k]) = edit printable (line printable keys) (kbdTranslateHu k) := by
  rw [line, List.map_append, List.foldl_append]
  rfl

theorem translate_bits (k : UInt8) : kbdTranslateHu k >>> 24 = 0 ∧
    (kbdTranslateHu k &&& ~~~0x7f = 0 ↔ kbdTranslateHu k < 0x80) := by
  have hall : ∀ i < 16, ∀ j < 16, kbdTranslateHu (.ofNat (16 * i + j)) >>> 24 = 0 ∧
      (kbdTranslateHu (.ofNat (16 * i + j)) &&& ~~~0x7f = 0 ↔
        kbdTranslateHu (.ofNat (16 * i + j)) < 0x80) := by
    decide
  have hk := hall (k.toNat / 16) (Nat.div_lt_of_lt_mul k.toNat_lt) (k.toNat % 16)
    (Nat.mod_lt _ (by decide))
  rwa [Nat.div_add_mod, UInt8.ofNat_toNat] at hk

theorem toUInt8_toUInt32 (hc : c < 0x80) : c.toUInt8.toUInt32 = c := by
  have hlt : c.toNat < 0x80 := hc
  apply UInt32.toNat_inj.mp
  exact Nat.mod_eq_of_lt (by omega)

/-- Apart from line feeds, the line stays as it is where there is nothing to delete, nothing
to store or no room. -/
theorem edit_eq_self_iff (hne : c ≠ 0x0a) : edit printable l c = l ↔ (c = 0x08 → l.length = 0) ∧
      (c ≠ 0 → c ≠ 0x08 → printable c = true → inputBufferMaxSize - 1 ≤ l.length) := by
  rw [edit, if_neg hne]
  split
  case isTrue hzero =>
    exact iff_of_true rfl
      ⟨fun h => absurd (hzero.symm.trans h) (by decide), fun h => absurd hzero h⟩
  case isFalse hzero =>
    split
    case isTrue hback =>
      rw [and_iff_left fun _ h => absurd hback h, imp_iff_right hback]
      constructor
      · intro heq
        have hlen := congrArg List.length heq
        rw [List.length_dropLast] at hlen
        omega
      · intro hlen
        rw [List.eq_nil_of_length_eq_zero hlen]
        rfl
    case isFalse hback =>
      rw [and_iff_right fun h => absurd h hback, imp_iff_right hzero, imp_iff_right hback]
      split
      case isTrue hroom =>
        refine iff_of_false (fun heq => ?_) fun h => absurd (h hroom.1) (Nat.not_le.mpr hroom.2)
        have hlen := congrArg List.length heq
        rw [List.length_append, List.length_singleton] at hlen
        omega
      case isFalse hroom =>
        exact iff_of_true rfl fun hp => Nat.not_lt.mp fun hlt => hroom ⟨hp, hlt⟩

theorem edit_eq_concat_iff (hfeed : c ≠ 0x0a) (hback : c ≠ 0x08)
    (hroom : l.length < inputBufferMaxSize - 1) :
    edit printable l c = l ++ [c] ↔ c ≠ 0 ∧ printable c = true := by
  have hne : l ≠ l ++ [c] := by simp
  rw [edit, if_neg hfeed, if_neg hback]
  split
  case isTrue hzero => exact iff_of_false hne fun h => h.1 hzero
  case isFalse hzero =>
    split
    case isTrue hprint => exact iff_of_true rfl ⟨hzero, hprint.1⟩
    case isFalse hprint => exact iff_of_false hne fun h => hprint ⟨h.2, hroom⟩

theorem folded_concat_iff (hfold : Folded printable h s) (hsize : s'.size < inputBufferMaxSize) :
    Folded printable (h ++ [(k, y)]) s' ↔
      s'.text = edit printable s.text (kbdTranslateHu k) ∧
        Answered printable (h.map Prod.fst) k y := by
  constructor
  · rintro ⟨-, htext, hanswers⟩
    rw [List.map_append, List.map_singleton, line_concat, ← hfold.text_eq] at htext
    exact ⟨htext, hanswers h k y (List.prefix_rfl)⟩
  · rintro ⟨htext, hanswered⟩
    refine ⟨hsize, ?_, ?_⟩
    · rw [List.map_append, List.map_singleton, line_concat, ← hfold.text_eq, htext]
    · intro pre k' y' hpre
      rcases List.prefix_concat_iff.mp hpre with heq | hpre
      · obtain ⟨rfl, hlast⟩ := List.append_inj' heq rfl
        cases hlast
        exact hanswered
      · exact hfold.answers pre k' y' hpre

/-- Where the buffer stays as it is and nothing is passed on. -/
theorem folded_ignored_iff (hfold : Folded printable h s) :
    Folded printable (h ++ [(k, none)]) s ↔ kbdTranslateHu k ≠ 0x0a ∧
      (kbdTranslateHu k = 0x08 → s.size = 0) ∧
      (kbdTranslateHu k ≠ 0 → kbdTranslateHu k ≠ 0x08 → printable (kbdTranslateHu k) = true →
        inputBufferMaxSize - 1 ≤ s.size) := by
  have hlen : s.text.length = s.size := length_textOf _ _
  rw [folded_concat_iff hfold hfold.size_lt, and_comm, eq_comm, ← hlen]
  exact and_congr_right edit_eq_self_iff

/-- A key is handled like the fold exactly when it `Meets` the buffer. -/
theorem step_folded_iff (hfold : Folded printable h s) (hstep : appendChar s k = .ok (y, s')) :
    Folded printable (h ++ [(k, y)]) s' ↔ Meets printable s k := by
  obtain ⟨hhigh, hascii⟩ := translate_bits k
  have hlt : s.size < inputBufferMaxSize := hfold.size_lt
  rw [Meets]
  rw [appendChar, if_neg (not_not_intro hhigh)] at hstep
  split at hstep
  case isTrue hfull =>
    cases hstep
    rw [if_pos hfull, folded_ignored_iff hfold, hfull]
    refine and_congr_right fun _ => ⟨fun h hback => absurd (h.1 hback) (by decide), fun h => ?_⟩
    exact ⟨fun hback => absurd hback h, fun _ _ _ => Nat.le_refl _⟩
  case isFalse hroom =>
    have hsize : s.size < inputBufferMaxSize - 1 := by omega
    rw [if_neg hroom]
    split at hstep
    case isTrue hwide =>
      cases hstep
      have hbig : ¬kbdTranslateHu k < 0x80 := fun h => hwide (hascii.mpr h)
      have hzero : kbdTranslateHu k ≠ 0 := fun h => hbig (by rw [h]; decide)
      have hfeed : kbdTranslateHu k ≠ 0x0a := fun h => hbig (by rw [h]; decide)
      have hback : kbdTranslateHu k ≠ 0x08 := fun h => hbig (by rw [h]; decide)
      rw [folded_ignored_iff hfold, and_iff_right hfeed, and_iff_right fun h => absurd h hback,
        imp_iff_right hzero, imp_iff_right hback, or_iff_right hfeed, or_iff_right hback,
        and_iff_right hzero, iff_false_right hbig]
      exact imp_congr_right fun _ => iff_of_false (Nat.not_le.mpr hsize) not_false
    case isFalse hbits =>
      have hsmall := hascii.mp (not_not.mp hbits)
      split at hstep
      case isTrue hfeed =>
        cases hstep
        refine iff_of_true ((folded_concat_iff hfold (Nat.zero_lt_of_lt hlt)).mpr
          ⟨?_, hfeed, ?_, ?_⟩) (.inl hfeed)
        · rw [hfeed]
          rfl
        · exact (textOf_update (Nat.le_refl _)).trans hfold.text_eq
        · exact update_self _ _ _
      case isFalse hfeed =>
        split at hstep
        case isTrue hback =>
          refine iff_of_true ?_ (.inr (.inl hback))
          split at hstep
          case isTrue hpos =>
            cases hstep
            refine (folded_concat_iff hfold (Nat.lt_of_le_of_lt (Nat.sub_le _ _) hlt)).mpr
              ⟨?_, hfeed⟩
            rw [hback]
            exact textOf_dropLast hpos
          case isFalse hpos =>
            cases hstep
            rw [folded_ignored_iff hfold]
            exact ⟨hfeed, fun _ => Nat.eq_zero_of_not_pos hpos, fun _ h => absurd hback h⟩
        case isFalse hback =>
          cases hstep
          have hstored : InputBuffer.text
              ⟨update s.buffer s.size (kbdTranslateHu k).toUInt8, s.size + 1⟩ =
                s.text ++ [kbdTranslateHu k] := by
            rw [InputBuffer.text, textOf_append, toUInt8_toUInt32 hsmall]
            rfl
          have hlen : s.text.length < inputBufferMaxSize - 1 := by
            rwa [InputBuffer.text, length_textOf]
          rw [folded_concat_iff hfold (Nat.add_lt_of_lt_sub hsize), or_iff_right hfeed,
            or_iff_right hback, iff_true_right hsmall, hstored, eq_comm,
            edit_eq_concat_iff hfeed hback hlen]
          exact and_iff_left hfeed

/-- Every key is taken: no translated code is too long for `append_char`. -/
theorem appendChar_returns (s : InputBuffer) (k : UInt8) :
    ∃ y s', appendChar s k = .ok (y, s') := by
  rw [appendChar, if_neg (not_not_intro (translate_bits k).1)]
  split_ifs <;> exact ⟨_, _, rfl⟩

end Step

/-! ## Runs -/

section Run

variable {printable : UInt32 → Bool} {h : List (UInt8 × Option InputBuffer)}
  {s : InputBuffer}

/-- Before the first key. -/
def noInput (buffer : ℕ → UInt8) : InputBuffer := ⟨buffer, 0⟩

theorem folded_nil (printable : UInt32 → Bool) (buffer : ℕ → UInt8) :
    Folded printable [] (noInput buffer) where
  size_lt := Nat.zero_lt_succ _
  text_eq := rfl
  answers _ _ _ hpre := absurd (List.prefix_nil.mp hpre) (List.concat_ne_nil _ _)

/-- Any keys can be pressed. -/
theorem typing_runs (buffer : ℕ → UInt8) (keys : List UInt8) : ∃ h s,
    h.map Prod.fst = keys ∧ Runs appendChar (fun _ _ => True) (noInput buffer) h s := by
  induction keys using List.reverseRecOn with
  | nil => exact ⟨[], _, rfl, .nil _⟩
  | append_singleton keys k ih =>
    obtain ⟨h, s, rfl, hrun⟩ := ih
    obtain ⟨y, s', hstep⟩ := appendChar_returns s k
    exact ⟨h ++ [(k, y)], s', List.map_append, hrun.snoc trivial hstep⟩

/-- `append_char` is in order behind every key of a run exactly when every key `Meets` the
buffer it finds. -/
theorem typing_folded_iff (buffer : ℕ → UInt8)
    (hrun : Runs appendChar (fun _ _ => True) (noInput buffer) h s) :
    (∀ h' s', Runs appendChar (fun _ _ => True) (noInput buffer) h' s' → h' <+: h →
      Folded printable h' s') ↔
    Runs appendChar (Meets printable) (noInput buffer) h s := by
  exact hrun.forall_prefix_iff (folded_nil printable buffer)
    fun _ _ _ _ _ hfold hstep => step_folded_iff hfold hstep

/-- The printable characters of ASCII. -/
def isPrint (c : UInt32) : Bool := 0x20 ≤ c ∧ c < 0x7f

/-- The line "a". -/
theorem typing_folded_a : ∃ h s, h.map Prod.fst = [0x61, 0x0a] ∧
    Runs appendChar (Meets isPrint) (noInput fun _ => 0) h s ∧ Folded isPrint h s := by
  have hrun : Runs appendChar (fun _ _ => True) (noInput fun _ => 0) _ _ :=
    ((Runs.nil _).snoc trivial (rfl : appendChar _ 0x61 = .ok (none, _))).snoc trivial
      (rfl : appendChar _ 0x0a = .ok (some _, _))
  have hletter : Meets isPrint (noInput fun _ => 0) 0x61 :=
    (if_neg (by decide)).mpr (Or.inr (Or.inr (by decide)))
  have hfeed : Meets isPrint ⟨update (fun _ => 0) 0 0x61, 1⟩ 0x0a :=
    (if_neg (by decide)).mpr (Or.inl (by decide))
  have hguarded : Runs appendChar (Meets isPrint) (noInput fun _ => 0) _ _ :=
    ((Runs.nil _).snoc hletter (rfl : appendChar _ 0x61 = .ok (none, _))).snoc hfeed
      (rfl : appendChar _ 0x0a = .ok (some _, _))
  exact ⟨_, _, rfl, hguarded,
    (typing_folded_iff (fun _ => 0) hrun).mpr hguarded _ _ hrun List.prefix_rfl⟩

/-- A key without a character and a line feed: a line of one character is passed on. -/
theorem typing_code_zero : ∃ b s,
    Runs appendChar (fun _ _ => True) (noInput fun _ => 0) [(0, none), (0x0a, some b)] s ∧
      b.text = [0] ∧ ∀ printable, line printable [0] = [] := by
  refine ⟨_, _, ((Runs.nil _).snoc trivial (rfl : appendChar _ 0 = .ok (none, _))).snoc trivial
    (rfl : appendChar _ 0x0a = .ok (some _, _)), ?_, ?_⟩
  · rfl
  · intro printable
    rfl

end Run

end NeptunOS.Input
