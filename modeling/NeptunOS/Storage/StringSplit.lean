import NeptunOS.Lib.Stepwise
import NeptunOS.Util.Str
import NeptunOS.Util.Word
import Mathlib.Data.List.Infix

/-!
# `StringSplitIterator`

The iterator steps over a delimiter and over a terminator alike, and stops at a terminator
only if it stands right behind one of them.

- `Stops`: the strings in which it stops.
- `tokens_cases`: what it yields there, and elsewhere.
- `flatMap_tokens`: a delimiter stands behind every word it yields, so that a join of the
  words is not the string.
-/

namespace NeptunOS.StringSplit

open Stepwise

/-! ## The iterator -/

/-- `StringSplitIterator`: where it stands and what memory holds from there on. -/
structure Iter where
  pos : ℕ
  str : List UInt8

/-- `str[i] != 0 && str[i] != delimiter`. -/
def inWord (delimiter b : UInt8) : Bool := b ≠ 0 ∧ b ≠ delimiter

namespace Iter

variable (delimiter : UInt8)

/-- `operator*`. -/
def deref (it : Iter) : Except Halt StringView :=
  if it.str.dropWhile (inWord delimiter) = [] then .error (.exception "read behind the memory")
  else .ok ⟨it.pos, it.str.takeWhile (inWord delimiter)⟩

/-- `operator++`. -/
def next (it : Iter) : Except Halt Iter :=
  match it.str.dropWhile (inWord delimiter) with
  | [] => .error (.exception "read behind the memory")
  | _ :: rest => .ok ⟨it.pos + (it.str.takeWhile (inWord delimiter)).length + 1, rest⟩

/-- `for (StringView v : it)`: what is yielded up to the end. -/
def tokens : ℕ → Iter → Except Halt (List StringView)
  | 0, _ => .error .endless
  | fuel + 1, it =>
    match it.str with
    | [] => .error (.exception "read behind the memory")
    | b :: _ =>
      if b = 0 then .ok []
      else do
        let v ← it.deref delimiter
        let it' ← it.next delimiter
        let vs ← tokens fuel it'
        .ok (v :: vs)

end Iter

/-! ## One word -/

section Word

variable {delimiter e : UInt8} {w rest : List UInt8} {p : ℕ}

section

variable (hw : ∀ b ∈ w, inWord delimiter b = true)

include hw

section

variable (he : inWord delimiter e = false)

include he

theorem dropWhile_word : (w ++ e :: rest).dropWhile (inWord delimiter) = e :: rest := by
  rw [List.dropWhile_append_of_pos hw, List.dropWhile_cons_of_neg (by rw [he]; decide)]

theorem takeWhile_word : (w ++ e :: rest).takeWhile (inWord delimiter) = w := by
  rw [List.takeWhile_append_of_pos hw, List.takeWhile_cons_of_neg (by rw [he]; decide),
    List.append_nil]

theorem deref_word : Iter.deref delimiter ⟨p, w ++ e :: rest⟩ = .ok ⟨p, w⟩ := by
  rw [Iter.deref, dropWhile_word hw he, if_neg (List.cons_ne_nil _ _), takeWhile_word hw he]

theorem next_word : Iter.next delimiter ⟨p, w ++ e :: rest⟩ = .ok ⟨p + w.length + 1, rest⟩ := by
  simp only [Iter.next, dropWhile_word hw he, takeWhile_word hw he]

end

end

end Word

/-! ## Where the iterator stops -/

section Stop

variable {delimiter : UInt8} {s w rest : List UInt8} {e : UInt8} {p : ℕ}

/-- Somewhere in the string or at its end, a terminator follows a delimiter or another
terminator. -/
def Closed (delimiter : UInt8) (s : List UInt8) : Prop :=
  ∃ e, inWord delimiter e = false ∧ [e, 0] <:+: s ++ [0]

/-- An iterator at the beginning of `s` comes to a stop in `s` or at its end. -/
def Stops (delimiter : UInt8) (s : List UInt8) : Prop :=
  (s ++ [0]).head? = some 0 ∨ Closed delimiter s

theorem inWord_zero (delimiter : UInt8) : inWord delimiter 0 = false := by
  simp [inWord]

/-- A string is a single word, or begins with one. -/
theorem word_cases (delimiter : UInt8) (s : List UInt8) : (∀ b ∈ s, inWord delimiter b = true) ∨
      ∃ w e rest, s = w ++ e :: rest ∧ (∀ b ∈ w, inWord delimiter b = true) ∧
        inWord delimiter e = false := by
  induction s with
  | nil => exact .inl fun b hb => absurd hb List.not_mem_nil
  | cons b s ih =>
    cases hb : inWord delimiter b with
    | false => exact .inr ⟨[], b, s, rfl, fun x hx => absurd hx List.not_mem_nil, hb⟩
    | true =>
      rcases ih with hall | ⟨w, e, rest, rfl, hw, he⟩
      · exact .inl (List.forall_mem_cons.mpr ⟨hb, hall⟩)
      · exact .inr ⟨b :: w, e, rest, rfl, List.forall_mem_cons.mpr ⟨hb, hw⟩, he⟩

theorem infix_pair_cons {a b x : UInt8} {l : List UInt8} :
    [a, b] <:+: x :: l ↔ (x = a ∧ l.head? = some b) ∨ [a, b] <:+: l := by
  rw [List.infix_cons_iff, List.cons_prefix_cons]
  cases l with
  | nil => simp
  | cons c l => rw [List.cons_prefix_cons]; simp [eq_comm]

theorem not_closed_word (hs : ∀ b ∈ s, inWord delimiter b = true) : ¬Closed delimiter s := by
  rintro ⟨e, he, hin⟩
  induction s with
  | nil =>
    have := hin.length_le
    simp at this
  | cons b s ih =>
    obtain ⟨hb, hs⟩ := List.forall_mem_cons.mp hs
    rcases infix_pair_cons.mp hin with ⟨rfl, -⟩ | hin
    · exact absurd hb (by rw [he]; decide)
    · exact ih hs hin

theorem closed_append (hw : ∀ b ∈ w, inWord delimiter b = true) (he : inWord delimiter e = false) :
    Closed delimiter (w ++ e :: rest) ↔ Stops delimiter rest := by
  induction w with
  | nil =>
    constructor
    · rintro ⟨e', he', hin⟩
      rcases infix_pair_cons.mp hin with ⟨-, hhead⟩ | hin
      · exact .inl hhead
      · exact .inr ⟨e', he', hin⟩
    · rintro (hhead | ⟨e', he', hin⟩)
      · exact ⟨e, he, infix_pair_cons.mpr (.inl ⟨rfl, hhead⟩)⟩
      · exact ⟨e', he', infix_pair_cons.mpr (.inr hin)⟩
  | cons b w ih =>
    obtain ⟨hb, hw⟩ := List.forall_mem_cons.mp hw
    rw [← ih hw]
    constructor
    · rintro ⟨e', he', hin⟩
      rcases infix_pair_cons.mp hin with ⟨rfl, -⟩ | hin
      · exact absurd hb (by rw [he']; decide)
      · exact ⟨e', he', hin⟩
    · rintro ⟨e', he', hin⟩
      exact ⟨e', he', infix_pair_cons.mpr (.inr hin)⟩

end Stop

/-! ## What the iterator yields -/

section Tokens

variable {delimiter e : UInt8} {s w rest : List UInt8} {p fuel fuel' : ℕ} {it : Iter}
  {vs : List StringView}

theorem tokens_word (hw : ∀ b ∈ w, inWord delimiter b = true) (he : inWord delimiter e = false)
    (hhead : (w ++ e :: rest).head? ≠ some 0) :
    Iter.tokens delimiter (fuel + 1) ⟨p, w ++ e :: rest⟩ =
      (Iter.tokens delimiter fuel ⟨p + w.length + 1, rest⟩).map (⟨p, w⟩ :: ·) := by
  have hderef := @deref_word delimiter e w rest p hw he
  have hnext := @next_word delimiter e w rest p hw he
  obtain ⟨b, l, hl⟩ := List.exists_cons_of_ne_nil (List.append_ne_nil_of_right_ne_nil w
    (List.cons_ne_nil e rest))
  have hb : b ≠ 0 := fun h => hhead (by rw [hl, h]; rfl)
  rw [hl] at hderef hnext
  simp only [Iter.tokens, hl, if_neg hb, hderef, hnext, ok_bind]
  cases Iter.tokens delimiter fuel ⟨p + w.length + 1, rest⟩ <;> rfl

theorem tokens_mono (hle : fuel ≤ fuel') (h : Iter.tokens delimiter fuel it = .ok vs) :
    Iter.tokens delimiter fuel' it = .ok vs := by
  induction fuel generalizing fuel' it vs with
  | zero => cases h
  | succ fuel ih =>
    obtain ⟨f, rfl⟩ := Nat.exists_eq_add_of_le' (Nat.le_trans (Nat.le_add_left 1 fuel) hle)
    obtain ⟨p, _ | ⟨b, str⟩⟩ := it
    · cases h
    · simp only [Iter.tokens] at h ⊢
      by_cases hzero : b = 0
      · rwa [if_pos hzero] at h ⊢
      · rw [if_neg hzero] at h ⊢
        obtain ⟨v, hv, h⟩ := bind_eq_ok.mp h
        obtain ⟨it', hit', h⟩ := bind_eq_ok.mp h
        obtain ⟨vs', hvs', h⟩ := bind_eq_ok.mp h
        rw [hv, ok_bind, hit', ok_bind, ih (Nat.le_of_succ_le_succ hle) hvs', ok_bind, h]

/-- An iterator at the beginning of a string either comes to a stop there, and yields words
of the string whatever lies behind its terminator, or goes on behind the terminator. -/
theorem tokens_cases (delimiter : UInt8) (s : List UInt8) (p : ℕ) :
    Stops delimiter s ∧ (∃ k vs, (∀ v ∈ vs, v.pos + v.text.length ≤ p + s.length) ∧
      ∀ t fuel, Iter.tokens delimiter (fuel + k) ⟨p, s ++ 0 :: t⟩ = .ok vs) ∨
    ¬Stops delimiter s ∧ ∃ k vs, ∀ t fuel, Iter.tokens delimiter (fuel + k) ⟨p, s ++ 0 :: t⟩ =
      (Iter.tokens delimiter fuel ⟨p + s.length + 1, t⟩).map (vs ++ ·) := by
  induction hn : s.length using Nat.strong_induction_on generalizing s p with
  | _ n ih =>
    by_cases hhead : (s ++ [0]).head? = some 0
    · refine .inl ⟨.inl hhead, 1, [], fun v hv => absurd hv List.not_mem_nil, fun t fuel => ?_⟩
      cases s with
      | nil => simp [Iter.tokens]
      | cons b s =>
        have hb : b = 0 := Option.some.inj hhead
        simp [Iter.tokens, hb]
    · have hhead' : ∀ t, (s ++ 0 :: t).head? ≠ some 0 := by
        cases s with
        | nil => exact absurd rfl hhead
        | cons b s => exact fun t => hhead
      rcases word_cases delimiter s with hword | ⟨w, e, rest, rfl, hw, he⟩
      · refine .inr ⟨not_or.mpr ⟨hhead, not_closed_word hword⟩, 1, [⟨p, s⟩], fun t fuel => ?_⟩
        rw [tokens_word hword (inWord_zero delimiter) (hhead' t), hn]
        rfl
      · have hstops : Stops delimiter (w ++ e :: rest) ↔ Stops delimiter rest :=
          (or_iff_right hhead).trans (closed_append hw he)
        have hlen : (w ++ e :: rest).length = w.length + rest.length + 1 := by simp; omega
        have hstep : ∀ t fuel, Iter.tokens delimiter (fuel + 1) ⟨p, w ++ e :: rest ++ 0 :: t⟩ =
            (Iter.tokens delimiter fuel ⟨p + w.length + 1, rest ++ 0 :: t⟩).map (⟨p, w⟩ :: ·) := by
          intro t fuel
          have h := hhead' t
          rw [List.append_assoc, List.cons_append] at h ⊢
          exact tokens_word hw he h
        rcases ih rest.length (by omega) rest (p + w.length + 1) rfl with
          ⟨hstop, k, vs, hin, hvs⟩ | ⟨hnot, k, vs, hvs⟩
        · refine .inl ⟨hstops.mpr hstop, k + 1, ⟨p, w⟩ :: vs, ?_, fun t fuel => ?_⟩
          · refine List.forall_mem_cons.mpr ⟨?_, fun v hv => ?_⟩
            · show p + w.length ≤ _
              omega
            · have := hin v hv
              omega
          · rw [← Nat.add_assoc, hstep, hvs]
            rfl
        · refine .inr ⟨hstops.not.mpr hnot, k + 1, ⟨p, w⟩ :: vs, fun t fuel => ?_⟩
          have hpos : p + w.length + 1 + rest.length + 1 = p + n + 1 := by omega
          rw [← Nat.add_assoc, hstep, hvs, hpos]
          cases Iter.tokens delimiter fuel ⟨p + n + 1, t⟩ <;> rfl

/-! ## Joining what it yields -/

/-- Behind the memory nothing is yielded. -/
theorem tokens_behind (fuel : ℕ) (p : ℕ) : Iter.tokens delimiter fuel ⟨p, []⟩ ≠ .ok vs := by
  cases fuel with
  | zero => exact fun h => nomatch h
  | succ fuel => exact fun h => nomatch h

/-- A string in which the iterator stops is what it yields with a delimiter behind every
word, also behind the last one. -/
theorem flatMap_tokens (hs : 0 ∉ s) (h : Iter.tokens delimiter fuel ⟨p, s ++ [0]⟩ = .ok vs) :
    vs.flatMap (fun v => v.text ++ [delimiter]) = s := by
  induction fuel generalizing s p vs with
  | zero => cases h
  | succ fuel ih =>
    by_cases hnil : s = []
    · subst hnil
      obtain rfl : [] = vs := Except.ok.inj h
      rfl
    have hhead : (s ++ [0]).head? ≠ some 0 := by
      obtain ⟨b, l, rfl⟩ := List.exists_cons_of_ne_nil hnil
      intro hb
      rw [Option.some.inj hb] at hs
      exact hs List.mem_cons_self
    rcases word_cases delimiter s with hword | ⟨w, e, rest, rfl, hw, he⟩
    · -- the only word ends at the terminator, and the iterator steps behind it
      rw [tokens_word hword (inWord_zero delimiter) hhead] at h
      obtain ⟨_, hbehind, -⟩ := map_eq_ok.mp h
      exact absurd hbehind (tokens_behind _ _)
    · obtain ⟨-, hs⟩ := not_or.mp (List.mem_append.not.mp hs)
      obtain ⟨hzero, hrest⟩ := not_or.mp (List.mem_cons.not.mp hs)
      obtain rfl : e = delimiter := by
        by_contra hne
        simp [inWord, Ne.symm hzero, hne] at he
      rw [List.append_assoc, List.cons_append] at h hhead
      rw [tokens_word hw he hhead] at h
      obtain ⟨vs', hvs', rfl⟩ := map_eq_ok.mp h
      rw [List.flatMap_cons, ih hrest hvs', List.append_assoc, List.singleton_append]

/-- Joined words lack the delimiter behind the last one. -/
theorem intercalate_append_delimiter (hvs : vs ≠ []) :
    [delimiter].intercalate (vs.map StringView.text) ++ [delimiter] =
      vs.flatMap fun v => v.text ++ [delimiter] := by
  induction vs with
  | nil => exact absurd rfl hvs
  | cons v vs ih =>
    cases vs with
    | nil => simp
    | cons v' vs =>
      rw [List.map_cons, List.map_cons, List.intercalate_cons_cons, List.append_assoc,
        ← List.map_cons, ih (List.cons_ne_nil _ _), List.flatMap_cons (x := v)]

/-- **Splitting.** For every string and every delimiter: the iteration reads nothing behind
the terminator, ends, and yields words without delimiters that joined again are the string,
exactly if the string is empty. -/
theorem split_join_iff (hs : 0 ∉ s) :
    (∃ fuel vs, Iter.tokens delimiter fuel ⟨0, s ++ [0]⟩ = .ok vs ∧
      (∀ v ∈ vs, delimiter ∉ v.text) ∧ [delimiter].intercalate (vs.map StringView.text) = s) ↔
      s = [] := by
  constructor
  · rintro ⟨fuel, vs, htokens, -, hjoin⟩
    have hwords := flatMap_tokens hs htokens
    by_cases hvs : vs = []
    · rw [hvs] at hwords
      exact hwords.symm
    · rw [← intercalate_append_delimiter hvs, hjoin] at hwords
      exact absurd (List.append_right_eq_self.mp hwords) (List.cons_ne_nil _ _)
  · rintro rfl
    exact ⟨1, [], rfl, fun v hv => absurd hv List.not_mem_nil, rfl⟩

/-- The empty string at `,`. -/
theorem split_join_iff_empty :
    ∃ fuel vs, Iter.tokens 0x2c fuel ⟨0, [0]⟩ = .ok vs ∧ (∀ v ∈ vs, 0x2c ∉ v.text) ∧
      [0x2c].intercalate (vs.map StringView.text) = [] :=
  (split_join_iff List.not_mem_nil).mpr rfl

/-- `a` at `,`: the iterator steps over the terminator and reads on behind it. `a,` at `,`:
it stops, and the empty word behind the delimiter is missing. -/
theorem split_join_lost :
    (∀ fuel, Iter.tokens 0x2c (fuel + 2) ⟨0, [0x61, 0]⟩ =
      .error (.exception "read behind the memory")) ∧
    Iter.tokens 0x2c 2 ⟨0, [0x61, 0x2c, 0]⟩ = .ok [⟨0, [0x61]⟩] ∧
      [0x2c].intercalate [[0x61]] ≠ ([0x61, 0x2c] : List UInt8) :=
  ⟨fun _ => rfl, rfl, by decide⟩

end Tokens

end NeptunOS.StringSplit
