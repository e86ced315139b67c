import NeptunOS.Mm.Ownership

/-!
# `wm_alloc` of `mm/vmm.cc`

The watermark allocator cuts an area from the front. It rounds the size up to 16 bytes and
then aligns the cursor to the larger of size and alignment, so a size that is not a power
of two decides the alignment of the result, and a large size pads by up to its own length.
`contract_iff`: along a sequence of calls, every call keeps the allocator's contract
exactly when each call `Fits`.
-/

namespace NeptunOS

open Stepwise

/-- `wm_cursor` and `wm_free`. -/
structure Watermark where
  cursor : ℕ
  free : ℕ
deriving DecidableEq, Repr

namespace Watermark

/-- `wm_alloc(size, align)`. -/
def wmAlloc (w : Watermark) (size al : ℕ) : Except Halt (ℕ × Watermark) :=
  let size := align size 16
  let al := max size al
  let alignfix := wsub (align w.cursor al) w.cursor
  let p := wadd w.cursor alignfix
  if w.free < wadd size alignfix then .error (.fatal "Watermark allocator out of memory!")
  else .ok (p, ⟨wadd p size, wsub w.free (wadd size alignfix)⟩)

/-- The arguments of a call. -/
structure Request where
  size : ℕ
  align : ℕ
deriving DecidableEq, Repr

/-- A size that is not 0 and a power of two, both `u64`. -/
structure Request.Typed (x : Request) : Prop where
  pos : 0 < x.size
  lt : x.size < 2 ^ 64
  power : ∃ k < 64, x.align = 2 ^ k

def step (w : Watermark) (x : Request) : Except Halt (ℕ × Watermark) :=
  w.wmAlloc x.size x.align

/-- The bytes a call returned. -/
def region (x : Request × ℕ) : Set ℕ := Set.Ico x.2 (x.2 + x.1.size)

/-- The state of an area in the direct map. -/
structure Area (w : Watermark) : Prop where
  base : hhdm ≤ w.cursor
  unit : 16 ∣ w.cursor
  fits : w.cursor + w.free < 2 ^ 64

/-- What the call `x` owes, made in the state `w` after the calls `before`: the pointer is
aligned, its bytes are in the area and in no region returned before, the end of the area
stays, and less than `max(align, 16)` bytes are used up beyond the size. -/
structure Contract (w₀ : Watermark) (before : List (Request × ℕ)) (w : Watermark)
    (x : Request) (p : ℕ) (w' : Watermark) : Prop where
  aligned : x.align ∣ p
  inside : w₀.cursor ≤ p ∧ p + x.size ≤ w₀.cursor + w₀.free
  apart : ∀ y ∈ before, Disjoint (region y) (region (x, p))
  total : wadd w'.cursor w'.free = wadd w.cursor w.free
  waste : w.free < w'.free + x.size + max x.align 16

/-- A sequence of calls that all kept the contract. -/
inductive Honoured (w₀ : Watermark) : List (Request × ℕ) → Watermark → Prop
  | nil : Honoured w₀ [] w₀
  | snoc {h : List (Request × ℕ)} {w w' : Watermark} {x : Request} {p : ℕ} :
      Honoured w₀ h w → w.step x = .ok (p, w') → Contract w₀ h w x p w' →
      Honoured w₀ (h ++ [(x, p)]) w'

/-- `size` in units of 16. -/
def units (size : ℕ) : ℕ := (size + 15) / 16 * 16

/-- A request that is served as it should: its rounded size does not wrap and is below
the cursor, and either it is at most `max(align, 16)`, or a multiple of it that `align`
divides is less than `max(align, 16)` behind the cursor. -/
def Fits (w : Watermark) (x : Request) : Prop :=
  x.size + 15 < 2 ^ 64 ∧ units x.size < w.cursor ∧
    (units x.size ≤ max x.align 16 ∨
      ∃ k, x.align ∣ k * units x.size ∧ w.cursor ≤ k * units x.size ∧
        k * units x.size + units x.size < w.cursor + x.size + max x.align 16)

/-! ## One call -/

section Step

variable {w₀ w w' : Watermark} {before : List (Request × ℕ)} {x : Request} {p : ℕ}

/-- The area is used from the front: what was returned ends before the cursor. -/
structure Sound (w₀ : Watermark) (before : List (Request × ℕ)) (w : Watermark) : Prop where
  base : w₀.cursor ≤ w.cursor
  unit : 16 ∣ w.cursor
  total : w.cursor + w.free = w₀.cursor + w₀.free
  below : ∀ y ∈ before, y.2 + y.1.size ≤ w.cursor

theorem align_units {size : ℕ} (h : size + 15 < 2 ^ 64) : align size 16 = units size := by
  rw [align_of_lt h, units]

/-- What a call returns, whatever wraps. -/
theorem step_eq_ok (hc : w.cursor < 2 ^ 64) (h : w.step x = .ok (p, w')) :
    p = align w.cursor (max (align x.size 16) x.align) ∧
      wadd (align x.size 16) (wsub p w.cursor) ≤ w.free ∧
      w' = ⟨wadd p (align x.size 16),
        wsub w.free (wadd (align x.size 16) (wsub p w.cursor))⟩ := by
  have hlt := align_lt w.cursor (max (align x.size 16) x.align)
  have hp : wadd w.cursor (wsub (align w.cursor (max (align x.size 16) x.align)) w.cursor) =
      align w.cursor (max (align x.size 16) x.align) := by
    unfold wadd wsub
    omega
  unfold step wmAlloc at h
  dsimp only at h
  rw [hp] at h
  split at h
  case isTrue => cases h
  case isFalse hfree =>
    cases h
    exact ⟨rfl, Nat.not_lt.mp hfree, rfl⟩

/-- A request whose rounded size is below the cursor is served from the front of the
rest of the area. -/
theorem step_front (ha : Area w₀) (hs : Sound w₀ before w) (hfit : x.size + 15 < 2 ^ 64)
    (hbelow : units x.size < w.cursor) (h : w.step x = .ok (p, w')) :
    max (units x.size) x.align ∣ p ∧ w.cursor ≤ p ∧
      p < w.cursor + max (units x.size) x.align ∧
      w'.cursor = p + units x.size ∧ w'.cursor + w'.free = w₀.cursor + w₀.free := by
  have hend := ha.fits
  have htotal := hs.total
  obtain ⟨hp, hroom, rfl⟩ := step_eq_ok (by omega) h
  rw [align_units hfit] at hp hroom ⊢
  have hpos : 0 < max (units x.size) x.align ∨ max (units x.size) x.align = 0 :=
    (Nat.eq_zero_or_pos _).symm
  have hplt : p < 2 ^ 64 := hp ▸ align_lt _ _
  have hdvd : max (units x.size) x.align ∣ p := hp ▸ align_dvd _ _
  generalize max (units x.size) x.align = al at hp hdvd hpos ⊢
  -- the sum in `align` does not wrap, or the fix would not fit in the area
  have hwrap : w.cursor + (al - 1) < 2 ^ 64 := by
    by_contra hge
    have hzero : p = 0 := by
      rw [hp, align]
      have hlt : wadd w.cursor (al - 1) < al := by
        unfold wadd
        omega
      rw [Nat.div_eq_of_lt hlt, Nat.zero_mul]
    unfold wadd wsub at hroom
    omega
  rcases hpos with hpos | hzero
  · obtain ⟨hle, hlt⟩ := le_align hpos hwrap
    rw [← hp] at hle hlt
    rw [wsub_of_le hplt hle, wadd_of_lt (by omega)] at hroom ⊢
    rw [wadd_of_lt (by omega), wsub_of_le (by omega) hroom]
    exact ⟨hdvd, hle, hlt, rfl, by dsimp only; omega⟩
  · rw [hzero, align, Nat.div_zero, Nat.zero_mul] at hp
    unfold wadd wsub at hroom
    omega

theorem units_spec (size : ℕ) : 16 ∣ units size ∧ size ≤ units size ∧ units size ≤ size + 15 := by
  unfold units
  omega

/-- A power of two divides 16 or is a multiple of it. -/
theorem Request.Typed.sixteen (hx : x.Typed) :
    (x.align < 16 → x.align ∣ 16) ∧ (16 ≤ x.align → 16 ∣ x.align) := by
  obtain ⟨k, -, hk⟩ := hx.power
  rw [hk, show 16 = 2 ^ 4 from rfl]
  constructor
  · intro hlt
    exact Nat.pow_dvd_pow 2 ((Nat.pow_lt_pow_iff_right (by decide)).mp hlt).le
  · intro hle
    exact Nat.pow_dvd_pow 2 ((Nat.pow_le_pow_iff_right (by decide)).mp hle)

/-- Small sizes: the alignment is `align`, or 16 and then the cursor has it already. -/
theorem placed_small (hx : x.Typed) (hunit : 16 ∣ w.cursor)
    (hsmall : units x.size ≤ max x.align 16) (hdvd : max (units x.size) x.align ∣ p)
    (hle : w.cursor ≤ p) (hlt : p < w.cursor + max (units x.size) x.align) :
    x.align ∣ p ∧ p + units x.size < w.cursor + x.size + max x.align 16 := by
  obtain ⟨hsixteen, hsize, hround⟩ := units_spec x.size
  obtain ⟨hdvd16, hmul16⟩ := hx.sixteen
  have hpos := hx.pos
  rcases Nat.le_total (units x.size) x.align with hal | hal
  · rw [max_eq_right hal] at hdvd hlt
    have hal16 : 16 ∣ x.align := hmul16 (by omega)
    have hp16 : 16 ∣ p := hal16.trans hdvd
    exact ⟨hdvd, by omega⟩
  · rw [max_eq_left hal] at hdvd hlt
    have hp16 : 16 ∣ p := hsixteen.trans hdvd
    rcases Nat.lt_or_ge x.align 16 with hlt16 | hge16
    · exact ⟨(hdvd16 hlt16).trans hp16, by omega⟩
    · have heq : units x.size = x.align := by omega
      rw [heq] at hdvd hlt
      exact ⟨hdvd, by omega⟩

/-- Large sizes: there is one multiple of the size within its length of the cursor. -/
theorem placed_multiple {k : ℕ} (hlarge : max x.align 16 < units x.size)
    (hdvd : max (units x.size) x.align ∣ p) (hle : w.cursor ≤ p)
    (hlt : p < w.cursor + max (units x.size) x.align) (hkle : w.cursor ≤ k * units x.size)
    (hklt : k * units x.size + units x.size < w.cursor + x.size + max x.align 16) :
    p = k * units x.size := by
  obtain ⟨-, hsize, -⟩ := units_spec x.size
  rw [max_eq_left (by omega)] at hdvd hlt
  obtain ⟨j, rfl⟩ := hdvd
  rw [Nat.mul_comm] at hle hlt ⊢
  congr 1
  rcases Nat.lt_trichotomy j k with hjk | hjk | hjk
  · have := Nat.mul_le_mul_right (units x.size) hjk
    rw [Nat.succ_mul] at this
    omega
  · exact hjk
  · have := Nat.mul_le_mul_right (units x.size) hjk
    rw [Nat.succ_mul] at this
    omega

/-- Where the aligned cursor is, a request fits exactly when it is aligned and not padded
too much. -/
theorem placed_iff (hx : x.Typed) (hunit : 16 ∣ w.cursor)
    (hdvd : max (units x.size) x.align ∣ p) (hle : w.cursor ≤ p)
    (hlt : p < w.cursor + max (units x.size) x.align) :
    (x.align ∣ p ∧ p + units x.size < w.cursor + x.size + max x.align 16) ↔
      (units x.size ≤ max x.align 16 ∨
        ∃ k, x.align ∣ k * units x.size ∧ w.cursor ≤ k * units x.size ∧
          k * units x.size + units x.size < w.cursor + x.size + max x.align 16) := by
  rcases Nat.lt_or_ge (max x.align 16) (units x.size) with hlarge | hsmall
  · constructor
    · rintro ⟨hal, hwaste⟩
      rw [max_eq_left (by omega)] at hdvd
      obtain ⟨k, rfl⟩ := hdvd
      rw [Nat.mul_comm] at hal hle hwaste
      exact .inr ⟨k, hal, hle, hwaste⟩
    · rintro (hsmall | ⟨k, hk, hkle, hklt⟩)
      · omega
      · obtain rfl := placed_multiple hlarge hdvd hle hlt hkle hklt
        exact ⟨hk, hklt⟩
  · exact iff_of_true (placed_small hx hunit hsmall hdvd hle hlt) (.inl hsmall)

/-- **One call** keeps the contract exactly when it fits; the area is then still used
from the front. -/
theorem contract_iff_fits (ha : Area w₀) (hs : Sound w₀ before w) (hx : x.Typed)
    (h : w.step x = .ok (p, w')) :
    (Contract w₀ before w x p w' ↔ w.Fits x) ∧
      (w.Fits x → Sound w₀ (before ++ [(x, p)]) w') := by
  obtain ⟨hsixteen, hsize, hround⟩ := units_spec x.size
  have hbase := ha.base
  have hend := ha.fits
  have hcur := hs.base
  have htotal := hs.total
  have hdirect : hhdm = 2 ^ 64 - 2 ^ 47 := by decide
  constructor
  · constructor
    · intro hc
      obtain ⟨hlo, hhi⟩ := hc.inside
      have hfit : x.size + 15 < 2 ^ 64 := by omega
      have hbelow : units x.size < w.cursor := by omega
      obtain ⟨hdvd, hle, hlt, hcur', htotal'⟩ := step_front ha hs hfit hbelow h
      have hwaste := hc.waste
      exact ⟨hfit, hbelow, (placed_iff hx hs.unit hdvd hle hlt).mp ⟨hc.aligned, by omega⟩⟩
    · rintro ⟨hfit, hbelow, hplaced⟩
      obtain ⟨hdvd, hle, hlt, hcur', htotal'⟩ := step_front ha hs hfit hbelow h
      obtain ⟨hal, hwaste⟩ := (placed_iff hx hs.unit hdvd hle hlt).mpr hplaced
      refine ⟨hal, ⟨by omega, by omega⟩, fun y hy => ?_, ?_, by omega⟩
      · rw [Set.disjoint_left]
        intro a hay hax
        have := hs.below y hy
        have := hay.2
        have := hax.1
        omega
      · rw [wadd, wadd, htotal', htotal]
  · rintro ⟨hfit, hbelow, hplaced⟩
    obtain ⟨hdvd, hle, hlt, hcur', htotal'⟩ := step_front ha hs hfit hbelow h
    refine ⟨by omega, ?_, htotal', fun y hy => ?_⟩
    · have hp16 : 16 ∣ p := by
        rcases Nat.le_total (units x.size) x.align with hal | hal
        · rw [max_eq_right hal] at hdvd
          have hpos := hx.pos
          exact (hx.sixteen.2 (by omega)).trans hdvd
        · rw [max_eq_left hal] at hdvd
          exact hsixteen.trans hdvd
      rw [hcur']
      exact Nat.dvd_add hp16 hsixteen
    · rcases List.mem_append.mp hy with hy | hy
      · have := hs.below y hy
        omega
      · obtain rfl := List.mem_singleton.mp hy
        dsimp only
        omega

end Step

/-! ## All calls -/

section Runs

variable {w₀ w : Watermark} {hist : List (Request × ℕ)}

theorem Honoured.concat_iff {x : Request} {p : ℕ} {w' : Watermark} :
    Honoured w₀ (hist ++ [(x, p)]) w' ↔
      ∃ w, Honoured w₀ hist w ∧ w.step x = .ok (p, w') ∧ Contract w₀ hist w x p w' := by
  constructor
  · generalize hh : hist ++ [(x, p)] = hist'
    rintro (_ | ⟨hprev, hs, hc⟩)
    · exact absurd hh (List.concat_ne_nil _ _)
    · obtain ⟨rfl, hlast⟩ := List.append_inj' hh rfl
      cases hlast
      exact ⟨_, hprev, hs, hc⟩
  · rintro ⟨w, hprev, hs, hc⟩
    exact hprev.snoc hs hc

theorem Honoured.runs (h : Honoured w₀ hist w) : Runs step (fun _ _ => True) w₀ hist w := by
  induction h with
  | nil => exact .nil _
  | snoc _ hs _ ih => exact ih.snoc trivial hs

/-- The area stays in order as long as the contract is kept. -/
theorem honoured_sound (ha : Area w₀) (hrun : Runs step (fun _ x => x.Typed) w₀ hist w)
    (hh : Honoured w₀ hist w) : Sound w₀ hist w := by
  induction hrun with
  | nil => exact ⟨Nat.le_refl _, ha.unit, rfl, fun y hy => absurd hy List.not_mem_nil⟩
  | snoc hrun hx hs ih =>
    obtain ⟨w, hprev, hs', hc⟩ := Honoured.concat_iff.mp hh
    obtain rfl := hrun.unique hprev.runs
    obtain ⟨hiff, hsound⟩ := contract_iff_fits ha (ih hprev) hx hs
    exact hsound (hiff.mp hc)

/-- **The contract.** In a sequence of calls on an area of the direct map that all return,
every call keeps the contract exactly when every call fits. -/
theorem contract_iff (ha : Area w₀) (hrun : Runs step (fun _ x => x.Typed) w₀ hist w) :
    Honoured w₀ hist w ↔ Runs step (fun w x => x.Typed ∧ w.Fits x) w₀ hist w := by
  induction hrun with
  | nil => exact iff_of_true .nil (.nil _)
  | snoc hrun hx hs ih =>
    rw [Honoured.concat_iff, Runs.concat_iff]
    constructor
    · rintro ⟨w, hprev, hs', hc⟩
      obtain rfl := hrun.unique hprev.runs
      have hsound := honoured_sound ha hrun hprev
      exact ⟨_, ih.mp hprev, ⟨hx, (contract_iff_fits ha hsound hx hs).1.mp hc⟩, hs⟩
    · rintro ⟨w, hprev, ⟨-, hfits⟩, hs'⟩
      obtain rfl := hrun.unique hprev
      have hhon := ih.mpr hprev
      have hsound := honoured_sound ha hrun hhon
      exact ⟨_, hhon, hs, (contract_iff_fits ha hsound hx hs).1.mpr hfits⟩

end Runs

/-- An area of 64 MiB from the second MiB on. -/
def secondMib : Watermark := ⟨hhdm + 0x100000, 2 ^ 26⟩

theorem secondMib_area : Area secondMib := ⟨by decide, by decide, by decide⟩

/-- Sizes up to the alignment are served as they should be. -/
theorem contract_second_mib : ∃ hist w, hist.map Prod.fst = [⟨24, 32⟩, ⟨4096, 4096⟩] ∧
    Honoured secondMib hist w := by
  have h₁ : secondMib.step ⟨24, 32⟩ =
      .ok (hhdm + 0x100000, ⟨hhdm + 0x100020, 2 ^ 26 - 0x20⟩) := rfl
  have h₂ : (⟨hhdm + 0x100020, 2 ^ 26 - 0x20⟩ : Watermark).step ⟨4096, 4096⟩ =
      .ok (hhdm + 0x101000, ⟨hhdm + 0x102000, 2 ^ 26 - 0x2000⟩) := rfl
  have ht₁ : Request.Typed ⟨24, 32⟩ := ⟨by decide, by decide, 5, by decide, rfl⟩
  have ht₂ : Request.Typed ⟨4096, 4096⟩ := ⟨by decide, by decide, 12, by decide, rfl⟩
  have hrun : Runs step (fun _ x => x.Typed) secondMib _ _ :=
    ((Runs.nil secondMib).snoc ht₁ h₁).snoc ht₂ h₂
  refine ⟨_, _, rfl, (contract_iff secondMib_area hrun).mpr ?_⟩
  refine ((Runs.nil secondMib).snoc ⟨ht₁, ?_⟩ h₁).snoc ⟨ht₂, ?_⟩ h₂
  · exact ⟨by decide, by decide, Or.inl (by decide)⟩
  · exact ⟨by decide, by decide, Or.inl (by decide)⟩

/-- With the cursor 16 bytes into the area, 48 bytes aligned to 32 are placed at a multiple
of 48 that is none of 32, and 4096 bytes aligned to 16 use up 4080 bytes of padding. -/
theorem size_decides_alignment : ∃ w p w' q w'',
    Runs step (fun _ x => x.Typed) secondMib [(⟨16, 16⟩, hhdm + 0x100000)] w ∧
      w.step ⟨48, 32⟩ = .ok (p, w') ∧ ¬ 32 ∣ p ∧
      w.step ⟨4096, 16⟩ = .ok (q, w'') ∧ w.free = w''.free + 4096 + 4080 := by
  have h : secondMib.step ⟨16, 16⟩ =
      .ok (hhdm + 0x100000, ⟨hhdm + 0x100010, 2 ^ 26 - 0x10⟩) := rfl
  have ht : Request.Typed ⟨16, 16⟩ := ⟨by decide, by decide, 4, by decide, rfl⟩
  exact ⟨_, hhdm + 0x100030, ⟨hhdm + 0x100060, 2 ^ 26 - 0x60⟩, hhdm + 0x101000,
    ⟨hhdm + 0x102000, 2 ^ 26 - 0x2000⟩, (Runs.nil secondMib).snoc ht h, rfl, by decide, rfl,
    by decide⟩

end Watermark

end NeptunOS
