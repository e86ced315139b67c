import NeptunOS.Storage.StringSplit
import Mathlib.Data.List.TakeWhile

/-!
# `cmdline_evaluate_buffer`

The first word of the line selects a command, which gets an iterator over the rest. Behind
the line stands its terminator, and behind that whatever earlier lines have left there.

- `evaluate_own_line_iff`: the lines whose commands see nothing of it.
-/

namespace NeptunOS.Cmdline

open Stepwise StringSplit

/-- `Command`, as far as `cmdline_evaluate_buffer` reads it. -/
structure Command where
  name : List UInt8
  name_ne : 0 ∉ name
deriving DecidableEq

/-- The loop over the registered commands, with the iterator that the callback gets. -/
def select (mem : List UInt8) : List Command → Except Halt (Option (Command × Iter))
  | [] => .ok none
  | c :: cmds => do
    let v ← Iter.deref 0x20 ⟨0, mem⟩
    if v.equal fun i => c.name.getD i 0 then do
      let args ← Iter.next 0x20 ⟨0, mem⟩
      .ok (some (c, args))
    else select mem cmds

/-- `cmdline_evaluate_buffer(buf, sz)`; `mem` is the memory from `buf` on. -/
def evaluateBuffer (active : Bool) (cmds : List Command) (mem : List UInt8) (sz : ℕ) :
    Except Halt (Option (Command × Iter)) :=
  if active = false then .ok none
  else if sz = 0 then .ok none
  else select mem cmds

/-- Two evaluations of a line of `sz` characters select the same command, if any, and pass
iterators that yield the same tokens, all of them in the line. -/
inductive Same (sz : ℕ) : Except Halt (Option (Command × Iter)) →
    Except Halt (Option (Command × Iter)) → Prop
  | none : Same sz (.ok none) (.ok none)
  | some {c : Command} {args₁ args₂ : Iter} {vs : List StringView}
      (h₁ : ∃ fuel, args₁.tokens 0x20 fuel = .ok vs) (h₂ : ∃ fuel, args₂.tokens 0x20 fuel = .ok vs)
      (hin : ∀ v ∈ vs, v.pos + v.text.length ≤ sz) :
      Same sz (.ok (some (c, args₁))) (.ok (some (c, args₂)))

theorem Same.yields {sz : ℕ} {c : Command} {args₁ args₂ : Iter}
    (h : Same sz (.ok (Option.some (c, args₁))) (.ok (Option.some (c, args₂)))) :
    ∃ vs, (∃ fuel, args₁.tokens 0x20 fuel = .ok vs) ∧ ∀ v ∈ vs, v.pos + v.text.length ≤ sz := by
  cases h with
  | some h₁ _ hin => exact ⟨_, h₁, hin⟩

/-- The word that selects the command. -/
def firstWord (line : List UInt8) : List UInt8 := line.takeWhile (inWord 0x20)

section Line

variable {line w rest : List UInt8} {e : UInt8} {cmds : List Command}

theorem zero_notMem_word (hw : ∀ b ∈ w, inWord 0x20 b = true) : 0 ∉ w := fun h =>
  absurd (hw 0 h) (by decide)

theorem select_eq (hw : ∀ b ∈ w, inWord 0x20 b = true) (he : inWord 0x20 e = false)
    (cmds : List Command) :
    select (w ++ e :: rest) cmds =
      .ok ((cmds.find? (·.name = w)).map fun c => (c, ⟨w.length + 1, rest⟩)) := by
  induction cmds with
  | nil => rfl
  | cons c cmds ih =>
    have hname := viewEq_eq (cstring_getD c.name_ne) (zero_notMem_word hw)
    rw [select, deref_word hw he, ok_bind, next_word hw he, ok_bind, Nat.zero_add, List.find?_cons,
      StringView.equal, hname]
    by_cases hc : c.name = w
    · rw [decide_eq_true hc, decide_eq_true hc.symm]
      rfl
    · rw [decide_eq_false hc, decide_eq_false (Ne.symm hc), if_neg Bool.false_ne_true, ih]

/-- The iterator behind the first word of a line comes to a stop in the line, or goes on
behind it. -/
theorem args_cases (line : List UInt8) : ∃ args : List UInt8 → Iter,
    (∀ t cmds, select (line ++ 0 :: t) cmds =
      .ok ((cmds.find? (·.name = firstWord line)).map fun c => (c, args t))) ∧
    (Closed 0x20 line ∧ (∃ k vs, (∀ v ∈ vs, v.pos + v.text.length ≤ line.length) ∧
        ∀ t fuel, (args t).tokens 0x20 (fuel + k) = .ok vs) ∨
      ¬Closed 0x20 line ∧ ∃ k vs, ∀ t fuel, (args t).tokens 0x20 (fuel + k) =
        (Iter.tokens 0x20 fuel ⟨line.length + 1, t⟩).map (vs ++ ·)) := by
  rcases word_cases 0x20 line with hword | ⟨w, e, rest, rfl, hw, he⟩
  · have hfirst : firstWord line = line := List.takeWhile_eq_self_iff.mpr hword
    refine ⟨fun t => ⟨line.length + 1, t⟩, fun t cmds => ?_, .inr ⟨not_closed_word hword, 0, [],
      fun t fuel => ?_⟩⟩
    · rw [hfirst, select_eq hword (inWord_zero _)]
    · show Iter.tokens 0x20 fuel ⟨line.length + 1, t⟩ = _
      cases Iter.tokens 0x20 fuel ⟨line.length + 1, t⟩ <;> rfl
  · have hfirst : firstWord (w ++ e :: rest) = w := takeWhile_word hw he
    have hlen : w.length + 1 + rest.length = (w ++ e :: rest).length := by simp; omega
    refine ⟨fun t => ⟨w.length + 1, rest ++ 0 :: t⟩, fun t cmds => ?_, ?_⟩
    · rw [hfirst, List.append_assoc, List.cons_append, select_eq hw he]
    · rw [closed_append hw he, ← hlen]
      exact tokens_cases 0x20 rest (w.length + 1)

/-- A command sees only its own line exactly if none is selected, or if a delimiter or a
terminator in the line is followed by a terminator. In a line without terminators, that is a
blank at its end. -/
theorem evaluate_own_line_iff (active : Bool) (cmds : List Command) (line : List UInt8) :
    (∀ t₁ t₂, Same line.length (evaluateBuffer active cmds (line ++ 0 :: t₁) line.length)
      (evaluateBuffer active cmds (line ++ 0 :: t₂) line.length)) ↔
    active = false ∨ line = [] ∨ (∀ c ∈ cmds, c.name ≠ firstWord line) ∨ Closed 0x20 line := by
  by_cases hactive : active = false
  · simp only [evaluateBuffer, if_pos hactive]
    exact iff_of_true (fun _ _ => .none) (Or.inl hactive)
  by_cases hline : line = []
  · simp only [evaluateBuffer, if_neg hactive, hline, List.length_nil, if_pos]
    exact iff_of_true (fun _ _ => .none) (Or.inr (Or.inl trivial))
  have hlength : line.length ≠ 0 := fun h => hline (List.eq_nil_of_length_eq_zero h)
  rw [or_iff_right hactive, or_iff_right hline]
  obtain ⟨args, hselect, hargs⟩ := args_cases line
  simp only [evaluateBuffer, if_neg hactive, if_neg hlength, hselect]
  cases hfind : cmds.find? (·.name = firstWord line) with
  | none =>
    refine iff_of_true (fun _ _ => .none) (Or.inl fun c hc => ?_)
    simpa using List.find?_eq_none.mp hfind c hc
  | some c =>
    have hfound : ¬∀ c ∈ cmds, c.name ≠ firstWord line := fun h =>
      h c (List.mem_of_find?_eq_some hfind) (by simpa using List.find?_some hfind)
    rw [or_iff_right hfound]
    rcases hargs with ⟨hclosed, k, vs, hin, hvs⟩ | ⟨hopen, k, vs, hvs⟩
    · exact iff_of_true (fun t₁ t₂ => .some ⟨_, hvs t₁ 0⟩ ⟨_, hvs t₂ 0⟩ hin) hclosed
    · refine iff_of_false (fun hall => ?_) hopen
      -- a letter behind the terminator is yielded
      have hbehind : (args [0x78, 0, 0]).tokens 0x20 (2 + k) =
          .ok (vs ++ [⟨line.length + 1, [0x78]⟩]) := hvs [0x78, 0, 0] 2
      obtain ⟨ws, ⟨fuel, hfuel⟩, hin⟩ := (hall [0x78, 0, 0] [0x78, 0, 0]).yields
      have heq : ws = vs ++ [⟨line.length + 1, [0x78]⟩] :=
        Except.ok.inj ((tokens_mono (Nat.le_max_left fuel (2 + k)) hfuel).symm.trans
          (tokens_mono (Nat.le_max_right fuel (2 + k)) hbehind))
      have hlast : line.length + 1 + 1 ≤ line.length :=
        hin ⟨line.length + 1, [0x78]⟩ (by rw [heq]; exact List.mem_concat_self)
      omega

end Line

/-! ## What an earlier line has left -/

def xb : Command := ⟨[0x78, 0x62], by decide⟩

/-- The line "xb" over an earlier line "xb 1234": the argument is the one of the earlier
line. -/
theorem evaluate_leftover : ∃ args₁ args₂,
    evaluateBuffer true [xb] ([0x78, 0x62] ++ 0 :: [0x31, 0x32, 0x33, 0x34, 0, 0]) 2 =
      .ok (some (xb, args₁)) ∧ args₁.tokens 0x20 2 = .ok [⟨3, [0x31, 0x32, 0x33, 0x34]⟩] ∧
    evaluateBuffer true [xb] ([0x78, 0x62] ++ 0 :: [0]) 2 = .ok (some (xb, args₂)) ∧
      args₂.tokens 0x20 2 = .ok [] :=
  ⟨_, _, rfl, rfl, rfl, rfl⟩

end NeptunOS.Cmdline
