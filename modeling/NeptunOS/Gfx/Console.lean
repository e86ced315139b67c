import NeptunOS.Lib.Stepwise
import NeptunOS.Util.Word

/-!
# The console

`con_putc` draws into a back buffer of `width * height` pixels and moves the cursor, with
32-bit arithmetic throughout. A call is modelled by the pixels it writes, in order, and the
cursor it leaves.

- `plain_inside`, `newline_inside`: what stays inside whatever the cursor is.
- `backspace_inside_iff`, `tab_inside_iff`: what a backspace and a tab need for that.
- `console_inside_iff`: the runs of characters that stay inside.
-/

namespace NeptunOS.Console

open Stepwise

/-! ## `con_putc` -/

/-- The framebuffer and the font: `fb_width`, `fb_height`, `con_glyphw`, `con_glyphh`,
`con_glyphsize`, the memory around `con_glyphs`, and the colours. -/
structure Screen where
  width : ℕ
  height : ℕ
  glyphw : ℕ
  glyphh : ℕ
  glyphsize : ℕ
  glyphs : ℤ → UInt8
  fg : UInt32
  bg : UInt32
  width_lt : width < 2 ^ 32
  height_lt : height < 2 ^ 32
  glyphw_lt : glyphw < 2 ^ 8
  glyphh_lt : glyphh < 2 ^ 8

/-- `con_cx` and `con_cy`. -/
structure Cursor where
  cx : ℕ
  cy : ℕ
deriving DecidableEq, Repr

/-- `con_padx`, which nothing changes. -/
def padx : ℕ := 1

/-- `con_pady`, which nothing changes. -/
def pady : ℕ := 1

/-- `TAB_WIDTH`. -/
def tabWidth : ℕ := 8

/-- `a - b` on `u32`. -/
def sub32 (a b : ℕ) : ℕ := (a + (2 ^ 32 - b)) % 2 ^ 32

/-- A written pixel: its index in the back buffer, and its colour. -/
abbrev Pixel := ℕ × UInt32

namespace Screen

variable (scr : Screen)

/-- `con_glyphw + con_padx`. -/
def cw : ℕ := scr.glyphw + padx

/-- `con_glyphh + con_pady`. -/
def lineh : ℕ := scr.glyphh + pady

/-- `fb_pixel(x, y, color, idx)`. -/
def fbPixel (x y : ℕ) (color : UInt32) : Pixel :=
  (x % 2 ^ 32 + y % 2 ^ 32 * scr.width % 2 ^ 32, color)

/-- The two lowest rows of a cell, if it has them. -/
def cursorRows : List ℕ := if 2 ≤ scr.glyphh then List.range' (scr.glyphh - 2) 2 else []

/-- `con_clear_cursor()` and `con_put_cursor()`, by colour. -/
def cursorPixels (color : UInt32) (s : Cursor) : List Pixel :=
  (List.range scr.glyphw).flatMap fun x =>
    scr.cursorRows.map fun y => scr.fbPixel (s.cx + x) (s.cy + y) color

/-- `row`, for line `y` of the glyph of `c`; `char` is signed. -/
def glyphRow (c : UInt8) (y : ℕ) : ℕ :=
  let start : ℤ := c.toInt8.toInt * scr.glyphsize
  if 8 < scr.glyphw then
    (scr.glyphs (start + 2 * y)).toNat * 256 + (scr.glyphs (start + 2 * y + 1)).toNat
  else (scr.glyphs (start + y)).toNat

/-- `u16 mask`, for column `x`. -/
def mask (x : ℕ) : ℕ := ((if 8 < scr.glyphw then 2 ^ 16 else 2 ^ 8) % 2 ^ 16) >>> x

/-- The loops that draw a glyph. -/
def glyphPixels (c : UInt8) (s : Cursor) : List Pixel :=
  (List.range scr.glyphh).flatMap fun y => (List.range scr.glyphw).map fun x =>
    scr.fbPixel (s.cx + x) (s.cy + y)
      (if scr.glyphRow c y &&& scr.mask x ≠ 0 then scr.fg else scr.bg)

/-- The line below; `con_scroll()` where the screen ends. -/
def nextLine (cy : ℕ) : ℕ :=
  let cy := (cy + scr.lineh) % 2 ^ 32
  if sub32 scr.height scr.glyphh ≤ cy then sub32 cy scr.lineh else cy

/-- `con_putc('\n')`. -/
def newline (s : Cursor) : List Pixel × Cursor :=
  let s' : Cursor := ⟨0, scr.nextLine s.cy⟩
  (scr.cursorPixels scr.bg s ++ scr.cursorPixels scr.fg s', s')

/-- `if (con_cx + con_glyphw + con_padx > fb_width) con_putc('\n');`. -/
def wrap (s : Cursor) : List Pixel × Cursor :=
  if scr.width < (s.cx + scr.cw) % 2 ^ 32 then scr.newline s else ([], s)

/-- `con_putc(c)` for a character that is drawn. -/
def plain (c : UInt8) (s : Cursor) : List Pixel × Cursor :=
  let r := scr.wrap s
  let s' : Cursor := ⟨(r.2.cx + scr.cw) % 2 ^ 32, r.2.cy⟩
  (scr.cursorPixels scr.bg s ++ r.1 ++ scr.glyphPixels c r.2 ++ scr.cursorPixels scr.fg s', s')

/-- `con_cx += cw; con_cx = align(con_cx, cw * TAB_WIDTH);`. -/
def tabStop (cx : ℕ) : ℕ :=
  let cx := (cx + scr.cw) % 2 ^ 32
  (cx + (scr.cw * tabWidth - 1)) % 2 ^ 32 / (scr.cw * tabWidth) * (scr.cw * tabWidth)

/-- `con_putc('\t')`. -/
def tab (s : Cursor) : List Pixel × Cursor :=
  let r := scr.wrap ⟨scr.tabStop s.cx, s.cy⟩
  (scr.cursorPixels scr.bg s ++ r.1 ++ scr.cursorPixels scr.fg r.2, r.2)

/-- `con_putc('\b')`. -/
def backspace (s : Cursor) : List Pixel × Cursor :=
  let r := scr.plain 0x20 ⟨sub32 s.cx scr.cw, s.cy⟩
  let s' : Cursor := ⟨sub32 r.2.cx scr.cw, r.2.cy⟩
  (scr.cursorPixels scr.bg s ++ scr.cursorPixels scr.bg s ++ r.1 ++
    scr.cursorPixels scr.bg r.2 ++ scr.cursorPixels scr.fg s', s')

/-- `con_putc('\r')`. -/
def carriageReturn (s : Cursor) : List Pixel × Cursor :=
  let s' : Cursor := ⟨0, s.cy⟩
  (scr.cursorPixels scr.bg s ++ scr.cursorPixels scr.fg s', s')

/-- `con_putc(c)`. -/
def conPutc (s : Cursor) (c : UInt8) : Except Halt (List Pixel × Cursor) :=
  .ok (if c = 0x0a then scr.newline s
    else if c = 0x09 then scr.tab s
    else if c = 0x08 then scr.backspace s
    else if c = 0x0d then scr.carriageReturn s
    else scr.plain c s)

/-! ## Staying inside -/

/-- There is room for a cell, and below it for another line. -/
structure Roomy : Prop where
  width_ge : scr.cw ≤ scr.width
  height_ge : scr.glyphh + scr.lineh ≤ scr.height

/-- The pixels lie in the back buffer. -/
def InBuffer (ps : List Pixel) : Prop := ∀ p ∈ ps, p.1 < scr.width * scr.height

/-- The cursor is on the screen. -/
structure OnScreen (s : Cursor) : Prop where
  cx_le : s.cx ≤ scr.width
  cy_lt : s.cy < scr.height - scr.glyphh

/-- Whatever has been written lies in the back buffer, and the cursor is on the screen. -/
def Inside (h : List (UInt8 × List Pixel)) (s : Cursor) : Prop :=
  (∀ x ∈ h, scr.InBuffer x.2) ∧ scr.OnScreen s

/-- A backspace needs a column to its left (or a framebuffer so wide that the column that
wraps around is one of its own). A tab has to move to a column of the screen, or the cells in
which it clears the cursor before it begins a new line have to lie in the back buffer. -/
def Meets (s : Cursor) (c : UInt8) : Prop :=
  (c = 0x08 → scr.cw ≤ s.cx ∨ s.cx + (2 ^ 32 - scr.cw) ≤ scr.width) ∧
  (c = 0x09 → scr.tabStop s.cx ≤ scr.width ∨
    scr.width < (scr.tabStop s.cx + scr.cw) % 2 ^ 32 ∧
      ∀ x < scr.glyphw, ∀ y ∈ scr.cursorRows,
        (scr.tabStop s.cx + x) % 2 ^ 32 + (s.cy + y) % 2 ^ 32 * scr.width % 2 ^ 32 <
          scr.width * scr.height)

/-! ## Pixels -/

section Pixels

variable {scr : Screen} {s : Cursor} {x y : ℕ} {color : UInt32} {c : UInt8} {ps qs : List Pixel}

theorem InBuffer.append (hps : scr.InBuffer ps) (hqs : scr.InBuffer qs) :
    scr.InBuffer (ps ++ qs) := fun p hp =>
  (List.mem_append.mp hp).elim (hps p) (hqs p)

theorem inBuffer_nil : scr.InBuffer [] := fun _ hp => absurd hp List.not_mem_nil

/-- A row further down is two rows of room to the right. -/
theorem fbPixel_lt (hx : x < 2 * scr.width) (hy : y + 2 ≤ scr.height) :
    (scr.fbPixel x y color).1 < scr.width * scr.height := by
  have hrow : y % 2 ^ 32 * scr.width % 2 ^ 32 ≤ y * scr.width :=
    (Nat.mod_le _ _).trans (Nat.mul_le_mul_right _ (Nat.mod_le _ _))
  have hcol : x % 2 ^ 32 ≤ x := Nat.mod_le _ _
  calc x % 2 ^ 32 + y % 2 ^ 32 * scr.width % 2 ^ 32
      ≤ x + y * scr.width := Nat.add_le_add hcol hrow
    _ < 2 * scr.width + y * scr.width := Nat.add_lt_add_right hx _
    _ = scr.width * (y + 2) := by rw [← Nat.add_mul, Nat.add_comm 2 y, Nat.mul_comm]
    _ ≤ scr.width * scr.height := Nat.mul_le_mul_left _ hy

theorem lt_of_mem_cursorRows (hy : y ∈ scr.cursorRows) : y < scr.glyphh := by
  rw [cursorRows] at hy
  split at hy
  · have := List.mem_range'_1.mp hy
    omega
  · exact absurd hy List.not_mem_nil

theorem mem_cursorPixels {p : Pixel} : p ∈ scr.cursorPixels color s ↔
    ∃ x < scr.glyphw, ∃ y ∈ scr.cursorRows, scr.fbPixel (s.cx + x) (s.cy + y) color = p := by
  simp only [cursorPixels, List.mem_flatMap, List.mem_range, List.mem_map]

theorem cursor_inBuffer (hcx : s.cx + scr.glyphw ≤ 2 * scr.width)
    (hcy : s.cy < scr.height - scr.glyphh) : scr.InBuffer (scr.cursorPixels color s) := by
  intro p hp
  obtain ⟨x, hx, y, hy, rfl⟩ := mem_cursorPixels.mp hp
  have hy := lt_of_mem_cursorRows hy
  exact fbPixel_lt (by omega) (by omega)

theorem glyph_inBuffer (hcx : s.cx + scr.glyphw ≤ 2 * scr.width)
    (hcy : s.cy < scr.height - scr.glyphh) : scr.InBuffer (scr.glyphPixels c s) := by
  intro p hp
  simp only [glyphPixels, List.mem_flatMap, List.mem_range, List.mem_map] at hp
  obtain ⟨y, hy, x, hx, rfl⟩ := hp
  exact fbPixel_lt (by omega) (by omega)

end Pixels

/-! ## Cursors -/

section Cursors

variable {scr : Screen} {s : Cursor} {color : UInt32} {a b : ℕ} {c : UInt8}

theorem sub32_of_le (hle : b ≤ a) (ha : a < 2 ^ 32) : sub32 a b = a - b := by
  rw [sub32]
  omega

theorem sub32_of_lt (hlt : a < b) (hb : b ≤ 2 ^ 32) : sub32 a b = a + (2 ^ 32 - b) := by
  rw [sub32]
  omega

theorem sub32_add (ha : a < 2 ^ 32) (hb : b ≤ 2 ^ 32) : (sub32 a b + b) % 2 ^ 32 = a := by
  rw [sub32]
  omega

theorem cw_lt (scr : Screen) : scr.cw < 2 ^ 32 := by
  have := scr.glyphw_lt
  rw [cw, padx]
  omega

theorem nextLine_lt (hcy : s.cy < scr.height - scr.glyphh) :
    scr.nextLine s.cy < scr.height - scr.glyphh := by
  have hlt := scr.height_lt
  have hline : scr.lineh = scr.glyphh + 1 := rfl
  rw [nextLine, Nat.mod_eq_of_lt (by omega), sub32_of_le (by omega) hlt]
  split
  · rw [sub32_of_le (by omega) (by omega)]
    omega
  · omega

section

variable (hroom : scr.Roomy)

include hroom

theorem OnScreen.cx_room (hs : scr.OnScreen s) : s.cx + scr.glyphw ≤ 2 * scr.width := by
  have hcx := hs.cx_le
  have hwidth := hroom.width_ge
  rw [cw, padx] at hwidth
  omega

theorem OnScreen.cursor (hs : scr.OnScreen s) : scr.InBuffer (scr.cursorPixels color s) :=
  cursor_inBuffer (hs.cx_room hroom) hs.cy_lt

/-- At a line feed, only the cursor that is cleared may lie outside. -/
theorem newline_inside (hcy : s.cy < scr.height - scr.glyphh)
    (hclear : scr.InBuffer (scr.cursorPixels scr.bg s)) :
    scr.InBuffer (scr.newline s).1 ∧ scr.OnScreen (scr.newline s).2 := by
  have hs : scr.OnScreen (scr.newline s).2 := ⟨Nat.zero_le _, nextLine_lt hcy⟩
  exact ⟨hclear.append (hs.cursor hroom), hs⟩

section

variable (hs : scr.OnScreen s)

include hs

theorem wrap_inside : scr.InBuffer (scr.wrap s).1 ∧ scr.OnScreen (scr.wrap s).2 ∧
      ((scr.wrap s).2.cx + scr.cw) % 2 ^ 32 ≤ scr.width := by
  rw [wrap]
  split
  case isTrue =>
    obtain ⟨hpixels, hcursor⟩ := newline_inside hroom hs.cy_lt (hs.cursor hroom)
    refine ⟨hpixels, hcursor, ?_⟩
    show (0 + scr.cw) % 2 ^ 32 ≤ scr.width
    rw [Nat.zero_add, Nat.mod_eq_of_lt (cw_lt scr)]
    exact hroom.width_ge
  case isFalse h => exact ⟨inBuffer_nil, hs, Nat.not_lt.mp h⟩

theorem plain_inside : scr.InBuffer (scr.plain c s).1 ∧ scr.OnScreen (scr.plain c s).2 := by
  obtain ⟨hpixels, hwrap, hfits⟩ := wrap_inside hroom hs
  have hnext : scr.OnScreen (scr.plain c s).2 := ⟨hfits, hwrap.cy_lt⟩
  refine ⟨?_, hnext⟩
  exact (((hs.cursor hroom).append hpixels).append
    (glyph_inBuffer (hwrap.cx_room hroom) hwrap.cy_lt)).append (hnext.cursor hroom)

theorem carriageReturn_inside :
    scr.InBuffer (scr.carriageReturn s).1 ∧ scr.OnScreen (scr.carriageReturn s).2 := by
  have hnext : scr.OnScreen (scr.carriageReturn s).2 := ⟨Nat.zero_le _, hs.cy_lt⟩
  exact ⟨(hs.cursor hroom).append (hnext.cursor hroom), hnext⟩

theorem backspace_inside_iff :
    (scr.InBuffer (scr.backspace s).1 ∧ scr.OnScreen (scr.backspace s).2) ↔
      scr.cw ≤ s.cx ∨ s.cx + (2 ^ 32 - scr.cw) ≤ scr.width := by
  have hcw := cw_lt scr
  have hcx : s.cx < 2 ^ 32 := Nat.lt_of_le_of_lt hs.cx_le scr.width_lt
  have hback : (sub32 s.cx scr.cw + scr.cw) % 2 ^ 32 = s.cx := sub32_add hcx (Nat.le_of_lt hcw)
  -- the blank is drawn without a new line, and leaves the cursor where it was
  have hblank : (scr.plain 0x20 ⟨sub32 s.cx scr.cw, s.cy⟩).2 = s := by
    simp only [plain, wrap, hback, if_neg (Nat.not_lt.mpr hs.cx_le)]
  have hend : (scr.backspace s).2 = ⟨sub32 s.cx scr.cw, s.cy⟩ := by
    simp only [backspace, hblank]
  have hle : sub32 s.cx scr.cw ≤ scr.width ↔
      scr.cw ≤ s.cx ∨ s.cx + (2 ^ 32 - scr.cw) ≤ scr.width := by
    by_cases h : scr.cw ≤ s.cx
    · rw [sub32_of_le h hcx]
      exact iff_of_true ((Nat.sub_le _ _).trans hs.cx_le) (.inl h)
    · rw [sub32_of_lt (Nat.not_le.mp h) (Nat.le_of_lt hcw), or_iff_right h]
  rw [← hle]
  constructor
  · rintro ⟨-, hcursor⟩
    rw [hend] at hcursor
    exact hcursor.cx_le
  · intro hcol
    have hleft : scr.OnScreen ⟨sub32 s.cx scr.cw, s.cy⟩ := ⟨hcol, hs.cy_lt⟩
    have hclear : scr.InBuffer (scr.cursorPixels scr.bg s) := hs.cursor hroom
    rw [hend]
    refine ⟨?_, hleft⟩
    simp only [backspace, hblank]
    exact (((hclear.append hclear).append (plain_inside hroom hleft).1).append hclear).append
      (hleft.cursor hroom)

theorem tab_inside_iff : (scr.InBuffer (scr.tab s).1 ∧ scr.OnScreen (scr.tab s).2) ↔
      scr.tabStop s.cx ≤ scr.width ∨ scr.width < (scr.tabStop s.cx + scr.cw) % 2 ^ 32 ∧
        scr.InBuffer (scr.cursorPixels scr.bg ⟨scr.tabStop s.cx, s.cy⟩) := by
  by_cases hcol : scr.tabStop s.cx ≤ scr.width
  · have hstop : scr.OnScreen ⟨scr.tabStop s.cx, s.cy⟩ := ⟨hcol, hs.cy_lt⟩
    obtain ⟨hpixels, hwrap, -⟩ := wrap_inside hroom hstop
    refine iff_of_true ⟨?_, hwrap⟩ (.inl hcol)
    exact ((hs.cursor hroom).append hpixels).append (hwrap.cursor hroom)
  · rw [or_iff_right hcol]
    by_cases hwrap : scr.width < (scr.tabStop s.cx + scr.cw) % 2 ^ 32
    · rw [and_iff_right hwrap]
      simp only [tab, wrap, if_pos hwrap]
      constructor
      · rintro ⟨hpixels, -⟩ p hp
        exact hpixels p (by simp [newline, hp])
      · intro hclear
        obtain ⟨hpixels, hcursor⟩ :=
          newline_inside (s := ⟨scr.tabStop s.cx, s.cy⟩) hroom hs.cy_lt hclear
        exact ⟨((hs.cursor hroom).append hpixels).append (hcursor.cursor hroom), hcursor⟩
    · simp only [tab, wrap, if_neg hwrap]
      exact iff_of_false (fun h => hcol h.2.cx_le) fun h => hwrap h.1

end

end

end Cursors

/-! ## Runs -/

section Run

variable {scr : Screen} {h : List (UInt8 × List Pixel)} {s s' : Cursor} {c : UInt8}
  {ps : List Pixel}

theorem inside_concat : scr.Inside (h ++ [(c, ps)]) s' ↔
    (∀ x ∈ h, scr.InBuffer x.2) ∧ scr.InBuffer ps ∧ scr.OnScreen s' := by
  rw [Inside, List.forall_mem_append, List.forall_mem_singleton, and_assoc]

theorem cursor_inBuffer_iff : scr.InBuffer (scr.cursorPixels scr.bg s) ↔
    ∀ x < scr.glyphw, ∀ y ∈ scr.cursorRows,
      (s.cx + x) % 2 ^ 32 + (s.cy + y) % 2 ^ 32 * scr.width % 2 ^ 32 < scr.width * scr.height := by
  constructor
  · intro hin x hx y hy
    exact hin _ (mem_cursorPixels.mpr ⟨x, hx, y, hy, rfl⟩)
  · intro hcells p hp
    obtain ⟨x, hx, y, hy, rfl⟩ := mem_cursorPixels.mp hp
    exact hcells x hx y hy

/-- A character keeps everything inside exactly when it `Meets` the cursor. -/
theorem step_inside_iff (hroom : scr.Roomy) (hin : scr.Inside h s)
    (hstep : scr.conPutc s c = .ok (ps, s')) :
    scr.Inside (h ++ [(c, ps)]) s' ↔ scr.Meets s c := by
  obtain ⟨hpast, hs⟩ := hin
  rw [inside_concat, and_iff_right hpast, Meets]
  have hresult := Except.ok.inj hstep
  by_cases htab : c = 0x09
  · subst htab
    obtain ⟨rfl, rfl⟩ : (scr.tab s).1 = ps ∧ (scr.tab s).2 = s' := Prod.mk.inj hresult
    rw [tab_inside_iff hroom hs, cursor_inBuffer_iff, and_iff_right fun h => absurd h (by decide),
      imp_iff_right rfl]
  by_cases hback : c = 0x08
  · subst hback
    obtain ⟨rfl, rfl⟩ : (scr.backspace s).1 = ps ∧ (scr.backspace s).2 = s' := Prod.mk.inj hresult
    rw [backspace_inside_iff hroom hs, and_iff_left fun h => absurd h (by decide),
      imp_iff_right rfl]
  refine iff_of_true ?_ ⟨fun h => absurd h hback, fun h => absurd h htab⟩
  split at hresult
  case isTrue =>
    obtain ⟨rfl, rfl⟩ : (scr.newline s).1 = ps ∧ (scr.newline s).2 = s' := Prod.mk.inj hresult
    exact newline_inside hroom hs.cy_lt (hs.cursor hroom)
  case isFalse =>
    split at hresult
    case isTrue =>
      obtain ⟨rfl, rfl⟩ : (scr.carriageReturn s).1 = ps ∧ (scr.carriageReturn s).2 = s' :=
        Prod.mk.inj hresult
      exact carriageReturn_inside hroom hs
    case isFalse =>
      obtain ⟨rfl, rfl⟩ : (scr.plain c s).1 = ps ∧ (scr.plain c s).2 = s' := Prod.mk.inj hresult
      exact plain_inside hroom hs

/-- Where the cursor is at first. -/
def origin : Cursor := ⟨0, 0⟩

/-- Along a run, all pixels lie in the back buffer and the cursor stays on the screen exactly
when every character `Meets` the cursor it finds. -/
theorem console_inside_iff (hroom : scr.Roomy)
    (hrun : Runs scr.conPutc (fun _ _ => True) origin h s) :
    (∀ h' s', Runs scr.conPutc (fun _ _ => True) origin h' s' → h' <+: h → scr.Inside h' s') ↔
      Runs scr.conPutc scr.Meets origin h s := by
  have hheight := hroom.height_ge
  have hline : scr.lineh = scr.glyphh + 1 := rfl
  have hinit : scr.Inside [] origin :=
    ⟨fun _ hx => absurd hx List.not_mem_nil, Nat.zero_le _, Nat.sub_pos_of_lt (by omega)⟩
  exact hrun.forall_prefix_iff hinit fun _ _ _ _ _ hin hstep => step_inside_iff hroom hin hstep

end Run

end Screen

/-! ## A screen of 640 by 480 -/

/-- With a font of 8 by 16. -/
def vga : Screen where
  width := 640
  height := 480
  glyphw := 8
  glyphh := 16
  glyphsize := 16
  glyphs _ := 0
  fg := 0xffd0d0d0
  bg := 0xff000000
  width_lt := by decide
  height_lt := by decide
  glyphw_lt := by decide
  glyphh_lt := by decide

theorem vga_roomy : vga.Roomy := ⟨by decide, by decide⟩

/-- A letter that is taken back. -/
theorem console_inside_letter : ∃ h s, h.map Prod.fst = [0x61, 0x08] ∧
    Runs vga.conPutc vga.Meets Screen.origin h s ∧ vga.Inside h s := by
  have hrun : Runs vga.conPutc (fun _ _ => True) Screen.origin _ _ :=
    ((Runs.nil _).snoc trivial (rfl : vga.conPutc _ 0x61 = .ok (_, _))).snoc trivial
      (rfl : vga.conPutc _ 0x08 = .ok (_, _))
  have hletter : vga.Meets Screen.origin 0x61 :=
    ⟨fun h => absurd h (by decide), fun h => absurd h (by decide)⟩
  have hback : vga.Meets ⟨9, 0⟩ 0x08 := ⟨fun _ => Or.inl (by decide), fun h => absurd h (by decide)⟩
  have hguarded : Runs vga.conPutc vga.Meets Screen.origin _ _ :=
    ((Runs.nil _).snoc hletter (rfl : vga.conPutc _ 0x61 = .ok (_, _))).snoc hback
      (rfl : vga.conPutc _ 0x08 = .ok (_, _))
  exact ⟨_, _, rfl, hguarded, (Screen.console_inside_iff vga_roomy hrun).mpr hguarded _ _ hrun
    List.prefix_rfl⟩

/-- A backspace at the left edge moves the cursor behind the back buffer, and draws there. -/
theorem backspace_at_origin : vga.Roomy ∧ ∃ ps s,
    vga.conPutc Screen.origin 0x08 = .ok (ps, s) ∧ s.cx = 2 ^ 32 - 9 ∧
      ∃ p ∈ ps, vga.width * vga.height ≤ p.1 := by
  have hcell : (4294976247, vga.bg) ∈
      vga.cursorPixels vga.bg ⟨sub32 Screen.origin.cx vga.cw, Screen.origin.cy⟩ :=
    Screen.mem_cursorPixels.mpr ⟨0, by decide, 14, by decide, by decide⟩
  refine ⟨vga_roomy, _, _, rfl, by decide, (4294976247, vga.bg), ?_, by decide⟩
  simp [Screen.plain, hcell]

end NeptunOS.Console
