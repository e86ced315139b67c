import NeptunOS.Input.LineEditing

/-!
# Scan codes of set 2

`handlekb` takes the bytes of the keyboard one by one, and keeps in `released` that the next
key code belongs to a key that is let go.

- `feed_eq_iff`: the sequences of keys that it decodes.
-/

namespace NeptunOS.Input

/-! ## `handlekb` -/

/-- `scancode_set2_to_ascii[code]`. -/
def scancodeSet2ToAscii (code : UInt8) : UInt8 :=
  [ 0,    0,    0,    0,    0,    0,    0,    0,    0,    0,    0,    0,    0,    0x09, 0x60, 0,
    0,    0,    0,    0,    0,    0x71, 0x31, 0,    0,    0,    0x7a, 0x73, 0x61, 0x77, 0x32, 0,
    0,    0x63, 0x78, 0x64, 0x65, 0x34, 0x33, 0,    0,    0x20, 0x76, 0x66, 0x74, 0x72, 0x35, 0,
    0,    0x6e, 0x62, 0x68, 0x67, 0x79, 0x36, 0,    0,    0,    0x6d, 0x6a, 0x75, 0x37, 0x38, 0,
    0,    0x2c, 0x6b, 0x69, 0x6f, 0x30, 0x39, 0,    0,    0x2e, 0x2f, 0x6c, 0x3b, 0x70, 0x2d, 0,
    0,    0,    0x27, 0,    0x5b, 0x3d, 0,    0,    0,    0,    0x0a, 0x5d, 0,    0x5c, 0,    0,
    0,    0,    0,    0,    0,    0,    0x08, 0,    0,    0,    0,    0,    0,    0,    0,    0
  ].getD code.toNat 0

/-- A call of `kbd_press` or `kbd_release`. -/
inductive KbdCall where
  | press (c : UInt8)
  | release (c : UInt8)
deriving DecidableEq, Repr

/-- `handlekb` for the byte `code`: the new value of `released`, and the call it makes. -/
def handlekb (released : Bool) (code : UInt8) : Bool × Option KbdCall :=
  if code = 0xf0 then (true, none)
  else if 0x6f < code then (released, none)
  else if released then (false, some (.release (scancodeSet2ToAscii code)))
  else (false, some (.press (scancodeSet2ToAscii code)))

/-- `handlekb` for one byte after the other. -/
def feed (released : Bool) : List UInt8 → List KbdCall
  | [] => []
  | code :: codes =>
    (handlekb released code).2.toList ++ feed (handlekb released code).1 codes

/-! ## Keys -/

/-- A key that is pressed (`down`) or let go; `extended` keys send 0xE0 first. The code is
not the one that announces a break. -/
structure KeyEvent where
  down : Bool
  extended : Bool
  code : UInt8
  code_ne : code ≠ 0xf0

namespace KeyEvent

/-- What the keyboard sends. -/
def bytes (e : KeyEvent) : List UInt8 :=
  (if e.extended then [0xe0] else []) ++ (if e.down then [] else [0xf0]) ++ [e.code]

/-- `handlekb` has no use for the code. -/
def ignored (e : KeyEvent) : Prop := 0x6f < e.code

instance (e : KeyEvent) : Decidable e.ignored := inferInstanceAs (Decidable (0x6f < e.code))

/-- What the key stands for. -/
def calls (e : KeyEvent) : List KbdCall :=
  if e.ignored then []
  else if e.down then [.press (scancodeSet2ToAscii e.code)]
  else [.release (scancodeSet2ToAscii e.code)]

end KeyEvent

/-- The first code that `handlekb` has a use for belongs to a key that is let go. -/
def Quiet (es : List KeyEvent) : Prop :=
  ∀ pre e post, es = pre ++ e :: post → (∀ x ∈ pre, x.ignored) → e.down = true → e.ignored

/-- Behind every break of an ignored code, all is `Quiet`. -/
def Settled (es : List KeyEvent) : Prop :=
  ∀ pre e post, es = pre ++ e :: post → e.down = false → e.ignored → Quiet post

section Decoding

variable {e : KeyEvent} {es : List KeyEvent} {r : Bool} {rest : List UInt8}

theorem quiet_nil : Quiet [] := fun _ _ _ h => by simp at h

theorem settled_nil : Settled [] := fun _ _ _ h => by simp at h

theorem quiet_cons : Quiet (e :: es) ↔ (e.down = true → e.ignored) ∧ (e.ignored → Quiet es) := by
  constructor
  · intro h
    refine ⟨h [] e es rfl (fun _ hx => absurd hx List.not_mem_nil),
      fun hign pre x post heq hpre => ?_⟩
    exact h (e :: pre) x post (by rw [heq]; rfl) (List.forall_mem_cons.mpr ⟨hign, hpre⟩)
  · rintro ⟨hhead, htail⟩ pre x post heq hpre
    cases pre with
    | nil =>
      cases heq
      exact hhead
    | cons y pre =>
      cases heq
      obtain ⟨hign, hpre⟩ := List.forall_mem_cons.mp hpre
      exact htail hign pre x post rfl hpre

theorem settled_cons : Settled (e :: es) ↔
    (e.down = false → e.ignored → Quiet es) ∧ Settled es := by
  constructor
  · intro h
    exact ⟨h [] e es rfl, fun pre x post heq => h (e :: pre) x post (by rw [heq]; rfl)⟩
  · rintro ⟨hhead, htail⟩ pre x post heq
    cases pre with
    | nil =>
      cases heq
      exact hhead
    | cons y pre =>
      cases heq
      exact htail pre x post rfl

theorem feed_cons (r : Bool) (code : UInt8) (codes : List UInt8) : feed r (code :: codes) =
      (handlekb r code).2.toList ++ feed (handlekb r code).1 codes := rfl

/-- The bytes of one key. A break of an ignored code leaves `released` set. -/
theorem feed_bytes (e : KeyEvent) (r : Bool) (rest : List UInt8) : feed r (e.bytes ++ rest) =
      if e.ignored then feed (r || !e.down) rest
      else (if r || !e.down then KbdCall.release (scancodeSet2ToAscii e.code)
        else .press (scancodeSet2ToAscii e.code)) :: feed false rest := by
  have hcode : ∀ r, feed r (e.code :: rest) = if e.ignored then feed r rest
      else (if r then KbdCall.release (scancodeSet2ToAscii e.code)
        else .press (scancodeSet2ToAscii e.code)) :: feed false rest := by
    intro r
    rw [feed_cons, handlekb, if_neg e.code_ne]
    by_cases hign : e.ignored
    · rw [if_pos hign, if_pos (show 0x6f < e.code from hign)]
      rfl
    · rw [if_neg hign, if_neg (show ¬0x6f < e.code from hign)]
      cases r <;> rfl
  have hbreak : ∀ r codes, feed r (0xf0 :: codes) = feed true codes := fun r codes => rfl
  have hprefix : ∀ r codes, feed r (0xe0 :: codes) = feed r codes := fun r codes => rfl
  cases hdown : e.down <;> cases hext : e.extended <;>
    simp [KeyEvent.bytes, hdown, hext, hcode, hbreak, hprefix]

/-- The keys are decoded exactly where no ignored break is left pending. -/
theorem feed_flatMap_iff (r : Bool) (es : List KeyEvent) :
    feed r (es.flatMap KeyEvent.bytes) = es.flatMap KeyEvent.calls ↔
      Settled es ∧ (r = true → Quiet es) := by
  induction es generalizing r with
  | nil => exact iff_of_true rfl ⟨settled_nil, fun _ => quiet_nil⟩
  | cons e es ih =>
    rw [List.flatMap_cons, List.flatMap_cons, feed_bytes, settled_cons, quiet_cons, KeyEvent.calls]
    by_cases hign : e.ignored
    · rw [if_pos hign, if_pos hign, List.nil_append, ih]
      cases r <;> cases e.down <;> simp [hign, and_comm]
    · cases r <;> cases hdown : e.down <;> simp [hign, ih]

/-- `handlekb` makes the calls that the keys stand for, one key after the other, exactly when
behind every break of a code above 0x6f the next code up to 0x6f belongs to a break. -/
theorem feed_eq_iff (es : List KeyEvent) :
    feed false (es.flatMap KeyEvent.bytes) = es.flatMap KeyEvent.calls ↔ Settled es := by
  rw [feed_flatMap_iff]
  exact and_iff_left fun h => absurd h Bool.false_ne_true

end Decoding

/-- The right arrow is let go, which `handlekb` ignores; then "a" is pressed, and it is let
go instead. -/
theorem feed_after_arrow :
    feed false [0xe0, 0xf0, 0x74, 0x1c] = [.release 0x61] ∧
      [KeyEvent.mk false true 0x74 (by decide), ⟨true, false, 0x1c, by decide⟩].flatMap
        KeyEvent.bytes = [0xe0, 0xf0, 0x74, 0x1c] ∧
      [KeyEvent.mk false true 0x74 (by decide), ⟨true, false, 0x1c, by decide⟩].flatMap
        KeyEvent.calls = [.press 0x61] := by
  decide

end NeptunOS.Input
