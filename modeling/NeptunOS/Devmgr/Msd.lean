import NeptunOS.Fs.Fat
import NeptunOS.Util.Mem

/-!
# Reading from a mass storage device (`devmgr/msd/msd.cc`)

A driver reads whole sectors. `msd_read` passes a request on if everything is aligned, and
otherwise reads into a bounce buffer of `align(bytes, 512)` bytes and copies from there. The copy
begins at `offset % 512`, so the buffer can be a sector too short.

- `msdRead_iff`: the requests that are served.
- `msdRead_eq_read`: what the caller gets in any case, which is what the FAT32 driver works with.
-/

namespace NeptunOS.Msd

/-! ## The model -/

/-- `funcs->read(d, lba, sectors, buf)`, of a driver that reads whole sectors. -/
def driverRead (disk : ℕ → UInt8) (lba sectors buf : ℕ) (mem : Mem) : Mem :=
  storeSeq mem buf (fun k => disk (512 * lba + k)) (512 * sectors)

/-- The kernel heap, as far as it is used here. -/
structure Allocator where
  kmallocAligned : ℕ → ℕ → Mem → ℕ × Mem
  kfree : ℕ → Mem → Mem

/-- A call of the driver. -/
structure Request where
  lba : ℕ
  sectors : ℕ
  buf : ℕ
deriving DecidableEq, Repr

/-- What `msd_read` leaves: the memory, the call of the driver, the bounce buffer with its size,
and the addresses that `memcpy` has read. -/
structure Transfer where
  mem : Mem
  request : Request
  bounce : Option (ℕ × ℕ)
  copied : List ℕ

section Model

variable (disk : ℕ → UInt8) (a : Allocator) (offset bytes buf : ℕ) (mem : Mem)

/-- The call of the driver with the buffer itself. -/
def directPath : Transfer where
  mem := driverRead disk (offset / 512) (bytes / 512) buf mem
  request := ⟨offset / 512, bytes / 512, buf⟩
  bounce := none
  copied := []

/-- `bounce`. -/
def bounceAt : ℕ := (a.kmallocAligned (align bytes 512) 512 mem).1

/-- The memory once the driver has filled the bounce buffer. -/
def filled : Mem :=
  driverRead disk (offset / 512) (align bytes 512 / 512) (bounceAt a bytes mem)
    (a.kmallocAligned (align bytes 512) 512 mem).2

/-- The memory behind the `memcpy`. -/
def copiedMem : Mem :=
  memcpy (filled disk a offset bytes mem) buf (wadd (bounceAt a bytes mem) (offset % 512)) bytes

/-- The way through the bounce buffer. -/
def bouncePath : Transfer where
  mem := a.kfree (bounceAt a bytes mem) (copiedMem disk a offset bytes buf mem)
  request := ⟨offset / 512, align bytes 512 / 512, bounceAt a bytes mem⟩
  bounce := some (bounceAt a bytes mem, align bytes 512)
  copied := (List.range bytes).map (wadd (wadd (bounceAt a bytes mem) (offset % 512)))

/-- `msd_read(d, offset, bytes, buf)`. -/
def msdRead : Transfer :=
  if isAligned offset 512 ∧ isAligned bytes 512 ∧ isAligned buf 512 then
    directPath disk offset bytes buf mem
  else bouncePath disk a offset bytes buf mem

/-! ## The specification -/

/-- The heap hands out a block that does not meet the buffer, and takes it back without a change
to the buffer. -/
structure Sound : Prop where
  fits : bounceAt a bytes mem + align bytes 512 ≤ 2 ^ 64
  apart : bounceAt a bytes mem + align bytes 512 ≤ buf ∨ buf + bytes ≤ bounceAt a bytes mem
  kept : ∀ i < bytes, a.kfree (bounceAt a bytes mem) (copiedMem disk a offset bytes buf mem)
    (buf + i) = copiedMem disk a offset bytes buf mem (buf + i)

/-- The buffer gets the bytes of the disk, `memcpy` reads only from the bounce buffer and only what
the driver was asked for, and on aligned requests both ways give the same. -/
structure Served : Prop where
  data : ∀ i < bytes, (msdRead disk a offset bytes buf mem).mem (buf + i) = disk (offset + i)
  inside : ∀ x ∈ (msdRead disk a offset bytes buf mem).copied,
    ∃ p n, (msdRead disk a offset bytes buf mem).bounce = some (p, n) ∧ p ≤ x ∧ x < p + n
  requested : ∀ x ∈ (msdRead disk a offset bytes buf mem).copied,
    (msdRead disk a offset bytes buf mem).request.buf ≤ x ∧
      x < (msdRead disk a offset bytes buf mem).request.buf +
        512 * (msdRead disk a offset bytes buf mem).request.sectors
  agree : isAligned offset 512 ∧ isAligned bytes 512 ∧ isAligned buf 512 →
    ∀ i < bytes, (directPath disk offset bytes buf mem).mem (buf + i) =
      (bouncePath disk a offset bytes buf mem).mem (buf + i)

end Model

/-! ## What is read -/

section Read

variable {disk : ℕ → UInt8} {a : Allocator} {lba sectors offset bytes buf i : ℕ} {mem : Mem}

theorem sectors_align (bytes : ℕ) : 512 * (align bytes 512 / 512) = align bytes 512 :=
  Nat.mul_div_cancel' (align_dvd bytes 512)

theorem driverRead_apply (hbuf : buf + 512 * sectors ≤ 2 ^ 64) (hi : i < 512 * sectors) :
    driverRead disk lba sectors buf mem (buf + i) = disk (512 * lba + i) := by
  have hsub : wsub (buf + i) buf = i := by
    rw [wsub_of_le (by omega) (Nat.le_add_right buf i), Nat.add_sub_cancel_left]
  rw [driverRead, storeSeq_apply (by omega) (by omega) (by omega), hsub, if_pos hi]

theorem driverRead_frame {x : ℕ} (hbuf : buf + 512 * sectors < 2 ^ 64) (hx : x < 2 ^ 64)
    (hout : x < buf ∨ buf + 512 * sectors ≤ x) :
    driverRead disk lba sectors buf mem x = mem x := by
  have hsub : ¬ wsub x buf < 512 * sectors := by
    unfold wsub
    omega
  rw [driverRead, storeSeq_apply (by omega) hx (by omega), if_neg hsub]

theorem aligned_iff : (isAligned offset 512 ∧ isAligned bytes 512 ∧ isAligned buf 512) ↔
      offset % 512 = 0 ∧ bytes % 512 = 0 ∧ buf % 512 = 0 := by
  simp only [isAligned, decide_eq_true_eq]

/-- An aligned number of bytes is not rounded. -/
theorem align_of_mod (hlt : bytes < 2 ^ 64) (hbytes : bytes % 512 = 0) :
    align bytes 512 = bytes := by
  rw [align, wadd, Nat.mod_eq_of_lt (by omega)]
  omega

/-- The driver's bytes, counted from the offset. -/
theorem sector_offset (offset i : ℕ) : 512 * (offset / 512) + (offset % 512 + i) = offset + i := by
  omega

theorem directPath_apply (hbuf : buf + bytes ≤ 2 ^ 64) (hoffset : offset % 512 = 0)
    (hbytes : bytes % 512 = 0) (hi : i < bytes) :
    (directPath disk offset bytes buf mem).mem (buf + i) = disk (offset + i) := by
  have hlba : 512 * (offset / 512) + i = offset + i := by omega
  have hread := @driverRead_apply disk (offset / 512) (bytes / 512) buf i mem (by omega) (by omega)
  rw [hlba] at hread
  exact hread

/-- The copy takes what lies in memory from the offset in the bounce buffer on. -/
theorem bouncePath_copies (hbuf : buf + bytes ≤ 2 ^ 64) (hsound : Sound disk a offset bytes buf mem)
    (hsrc : bounceAt a bytes mem + offset % 512 + bytes ≤ 2 ^ 64)
    (hapart : bounceAt a bytes mem + offset % 512 + bytes ≤ buf ∨
      buf + bytes ≤ bounceAt a bytes mem) (hi : i < bytes) :
    (bouncePath disk a offset bytes buf mem).mem (buf + i) =
      filled disk a offset bytes mem (bounceAt a bytes mem + (offset % 512 + i)) := by
  have hstart : wadd (bounceAt a bytes mem) (offset % 512) = bounceAt a bytes mem + offset % 512 :=
    wadd_of_lt (by omega)
  calc (bouncePath disk a offset bytes buf mem).mem (buf + i)
      = copiedMem disk a offset bytes buf mem (buf + i) := hsound.kept i hi
    _ = filled disk a offset bytes mem (bounceAt a bytes mem + offset % 512 + i) := by
        rw [copiedMem, hstart]
        exact memcpy_copies hbuf (by omega) (by omega) hi
    _ = filled disk a offset bytes mem (bounceAt a bytes mem + (offset % 512 + i)) := by
        rw [Nat.add_assoc]

/-- In the bounce buffer is what the driver has read. -/
theorem filled_inside (hfits : bounceAt a bytes mem + align bytes 512 ≤ 2 ^ 64)
    (hi : offset % 512 + i < align bytes 512) :
    filled disk a offset bytes mem (bounceAt a bytes mem + (offset % 512 + i)) =
      disk (offset + i) := by
  have hsectors := sectors_align bytes
  rw [filled, driverRead_apply (by omega) (by omega), sector_offset]

theorem bouncePath_apply (hbuf : buf + bytes ≤ 2 ^ 64) (hsound : Sound disk a offset bytes buf mem)
    (hcover : offset % 512 + bytes ≤ align bytes 512) (hi : i < bytes) :
    (bouncePath disk a offset bytes buf mem).mem (buf + i) = disk (offset + i) := by
  have hfits := hsound.fits
  have hapart := hsound.apart
  rw [bouncePath_copies hbuf hsound (by omega) (by omega) hi, filled_inside hfits (by omega)]

theorem inside_of_covers (hcover : offset % 512 + bytes ≤ align bytes 512)
    (hfits : bounceAt a bytes mem + align bytes 512 ≤ 2 ^ 64) :
    ∀ x ∈ (bouncePath disk a offset bytes buf mem).copied,
      bounceAt a bytes mem ≤ x ∧ x < bounceAt a bytes mem + align bytes 512 := by
  intro x hx
  obtain ⟨i, hi, rfl⟩ := List.mem_map.mp hx
  have hi := List.mem_range.mp hi
  rw [wadd_assoc, wadd_of_lt (by omega)]
  omega

/-- A bounce buffer that is left by the copy is too short. -/
theorem covers_of_inside (hbytes : 0 < bytes)
    (hinside : ∀ x ∈ (bouncePath disk a offset bytes buf mem).copied,
      bounceAt a bytes mem ≤ x ∧ x < bounceAt a bytes mem + align bytes 512)
    (hfits : bounceAt a bytes mem + align bytes 512 ≤ 2 ^ 64) :
    offset % 512 + bytes ≤ align bytes 512 := by
  have hmem : ∀ i < bytes, wadd (wadd (bounceAt a bytes mem) (offset % 512)) i ∈
      (bouncePath disk a offset bytes buf mem).copied :=
    fun i hi => List.mem_map_of_mem (List.mem_range.mpr hi)
  have hsize := align_lt bytes 512
  by_contra hshort
  -- the first byte behind the buffer
  have hbehind := hinside _ (hmem (align bytes 512 - offset % 512) (by omega))
  unfold wadd at hbehind
  omega

/-- `msd_read` serves a request exactly when the rounded number of bytes covers it from the start
of its first sector. -/
theorem msdRead_iff (hbytes : 0 < bytes) (hlt : bytes < 2 ^ 64) (hbuf : buf + bytes ≤ 2 ^ 64)
    (hsound : Sound disk a offset bytes buf mem) :
    Served disk a offset bytes buf mem ↔ offset % 512 + bytes ≤ align bytes 512 := by
  have hfits := hsound.fits
  have hsectors := sectors_align bytes
  by_cases haligned : isAligned offset 512 ∧ isAligned bytes 512 ∧ isAligned buf 512
  · have hrun : msdRead disk a offset bytes buf mem = directPath disk offset bytes buf mem :=
      if_pos haligned
    obtain ⟨hoffset, hmod, -⟩ := aligned_iff.mp haligned
    have hcover : offset % 512 + bytes ≤ align bytes 512 := by
      rw [align_of_mod hlt hmod]
      omega
    refine ⟨fun _ => hcover, fun _ => ⟨?_, ?_, ?_, ?_⟩⟩
    · rw [hrun]
      exact fun i hi => directPath_apply hbuf hoffset hmod hi
    · rw [hrun]
      exact fun x hx => absurd hx List.not_mem_nil
    · rw [hrun]
      exact fun x hx => absurd hx List.not_mem_nil
    · intro _ i hi
      rw [directPath_apply hbuf hoffset hmod hi, bouncePath_apply hbuf hsound hcover hi]
  · have hrun : msdRead disk a offset bytes buf mem = bouncePath disk a offset bytes buf mem :=
      if_neg haligned
    constructor
    · intro hserved
      refine @covers_of_inside disk a offset bytes buf mem hbytes (fun x hx => ?_) hfits
      obtain ⟨p, n, hbounce, hx⟩ := hserved.inside x (hrun ▸ hx)
      rw [hrun] at hbounce
      cases Option.some.inj hbounce
      exact hx
    · intro hcover
      refine ⟨?_, ?_, ?_, fun h => absurd h haligned⟩
      · rw [hrun]
        exact fun i hi => bouncePath_apply hbuf hsound hcover hi
      · rw [hrun]
        exact fun x hx => ⟨_, _, rfl, inside_of_covers hcover hfits x hx⟩
      · rw [hrun]
        intro x hx
        have hbounds := inside_of_covers hcover hfits x hx
        exact ⟨hbounds.1, hsectors ▸ hbounds.2⟩

/-- The buffer, whether the request is served or not: behind the bounce buffer, `memcpy` takes what
the heap has there. -/
theorem msdRead_eq_read (hlt : bytes < 2 ^ 64) (hbuf : buf + bytes ≤ 2 ^ 64)
    (hsound : Sound disk a offset bytes buf mem)
    (hsrc : bounceAt a bytes mem + offset % 512 + bytes < 2 ^ 64)
    (hapart : bounceAt a bytes mem + offset % 512 + bytes ≤ buf ∨
      buf + bytes ≤ bounceAt a bytes mem) (hi : i < bytes) :
    (msdRead disk a offset bytes buf mem).mem (buf + i) =
      Fat.Disk.read ⟨disk, fun o k => (a.kmallocAligned (align bytes 512) 512 mem).2
        (bounceAt a bytes mem + (o % 512 + k))⟩ offset bytes i := by
  have hfits := hsound.fits
  rw [Fat.Disk.read]
  by_cases haligned : isAligned offset 512 ∧ isAligned bytes 512 ∧ isAligned buf 512
  · obtain ⟨hoffset, hmod, -⟩ := aligned_iff.mp haligned
    rw [msdRead, if_pos haligned, directPath_apply hbuf hoffset hmod hi, align_of_mod hlt hmod,
      if_pos (by omega)]
  · rw [msdRead, if_neg haligned, bouncePath_copies hbuf hsound (by omega) hapart hi]
    by_cases hin : offset % 512 + i < align bytes 512
    · rw [if_pos hin, filled_inside hfits hin]
    · rw [if_neg hin, filled, driverRead_frame (by omega) (by omega) (by omega)]

end Read

/-- A heap whose next block is at 4096. -/
def bumpHeap : Allocator where
  kmallocAligned _ _ mem := (4096, mem)
  kfree _ mem := mem

/-- Byte `k` of the disk is `k` modulo 256. -/
def counting (k : ℕ) : UInt8 := UInt8.ofNat k

theorem bumpHeap_sound {disk : ℕ → UInt8} {offset bytes buf : ℕ} {mem : Mem}
    (hsize : align bytes 512 ≤ 2 ^ 63) (hbuf : buf + bytes ≤ 4096) :
    Sound disk bumpHeap offset bytes buf mem where
  fits := by
    change 4096 + align bytes 512 ≤ 2 ^ 64
    omega
  apart := .inr hbuf
  kept _ _ := rfl

/-- A range inside of one sector. -/
theorem msdRead_iff_sector : Served counting bumpHeap 515 4 1024 (fun _ => 0) :=
  (msdRead_iff (by decide) (by decide) (by decide) (bumpHeap_sound (by decide) (by decide))).mpr
    (by decide)

/-- Two bytes across the end of a sector: one sector is read, and the second byte is taken from
behind the bounce buffer. -/
theorem msdRead_short :
    Sound counting bumpHeap 1023 2 1024 (fun _ => 7) ∧
    (msdRead counting bumpHeap 1023 2 1024 (fun _ => 7)).request = ⟨1, 1, 4096⟩ ∧
    (msdRead counting bumpHeap 1023 2 1024 (fun _ => 7)).bounce = some (4096, 512) ∧
    (msdRead counting bumpHeap 1023 2 1024 (fun _ => 7)).copied = [4607, 4608] ∧
    (msdRead counting bumpHeap 1023 2 1024 (fun _ => 7)).mem (1024 + 1) = 7 ∧
    counting (1023 + 1) = 0 := by
  have hsound : Sound counting bumpHeap 1023 2 1024 (fun _ => 7) :=
    bumpHeap_sound (by decide) (by decide)
  refine ⟨hsound, rfl, rfl, by decide, ?_, by decide⟩
  rw [msdRead_eq_read (by decide) (by decide) hsound (by decide) (Or.inr (by decide)) (by decide)]
  decide

end NeptunOS.Msd
