import NeptunOS.Pci.Enumeration

/-!
# PCI registers

`pci_read` and `pci_write` reach a register through the dword that holds it. `pci_write` clears
the low bits of that dword wherever the register is, and shifts the new value into place as it
is.

- `locate_injective`: the dwords of the functions are apart, through either mechanism.
- `newValue_eq_due_iff`: the dwords and values for which clearing and shifting come out right.
- `written_iff`: the writes after which the register, and nothing else, has changed.
-/

namespace NeptunOS.Pci

/-! ## Access -/

/-- How configuration space is reached: through the window of `mcfg`, or `CFG_ADDR` and
`CFG_DATA`. -/
inductive Access where
  | window (base : ℕ)
  | ports
deriving DecidableEq, Repr

namespace Access

/-- The bytes that a function has. -/
def size : Access → ℕ
  | .window _ => 4096
  | .ports => 256

/-- Where a dword is: an address, or what is written to `CFG_ADDR`. -/
def locate : Access → Addr → ℕ → ℕ
  | .window base, a, offset =>
    wadd (virt base) ((a.bus.toNat <<< 20) + (a.dev.val <<< 15) + (a.fn.val <<< 12) + offset)
  | .ports, a, offset =>
    (a.bus.toNat <<< 16) ||| (a.dev.val <<< 11) ||| (a.fn.val <<< 8) ||| offset ||| 0x80000000

theorem le_size (w : Access) : 256 ≤ w.size := by
  cases w with
  | window base => exact Nat.le_of_ble_eq_true rfl
  | ports => exact Nat.le_refl 256

end Access

/-- A configuration space that can be read and written everywhere. -/
abbrev Space := ℕ → BitVec 32

section Calls

variable (w : Access) (s : Space) (a : Addr)

/-- `pci_read32(bus, slot, func, offset)`; `offset` is a `u8`. -/
def pciRead32 (offset : ℕ) : BitVec 32 := s (w.locate a (offset % 256))

/-- `pci_write32(bus, slot, func, offset, data)`. -/
def pciWrite32 (offset : ℕ) (data : BitVec 32) : Space :=
  Function.update s (w.locate a (offset % 256)) data

/-- `new_value` of `pci_write`. -/
def newValue (reg : Register) (value data : BitVec 32) : BitVec 32 :=
  (value.setWidth 64 &&& ~~~numbits reg.bits).setWidth 32 |||
    data <<< ((reg.offset &&& 3) * 8)

/-- `pci_write(bus, slot, func, reg, data)`. -/
def writeRegister (reg : Register) (data : BitVec 32) : Space :=
  let realoffset := alignDown reg.offset 4
  pciWrite32 w s a realoffset (newValue reg (pciRead32 w s a realoffset) data)

end Calls

/-! ## Dwords apart -/

theorem or_eq_add_of_lt {x y i : ℕ} (hy : y < 2 ^ i) : (x <<< i) ||| y = 2 ^ i * x + y := by
  rw [← Nat.shiftLeft_add_eq_or_of_lt hy, Nat.shiftLeft_eq, Nat.mul_comm]

theorem locate_ports {a : Addr} {offset : ℕ} (h : offset < 256) : Access.ports.locate a offset =
      2 ^ 31 + (2 ^ 16 * a.bus.toNat + (2 ^ 11 * a.dev.val + (2 ^ 8 * a.fn.val + offset))) := by
  have hbus := a.bus.toNat_lt
  rw [Access.locate, Nat.or_comm _ 0x80000000, show (0x80000000 : ℕ) = 1 <<< 31 from rfl,
    Nat.or_assoc, Nat.or_assoc, or_eq_add_of_lt (i := 8) h,
    or_eq_add_of_lt (i := 11) (by omega), or_eq_add_of_lt (i := 16) (by omega),
    or_eq_add_of_lt (i := 31) (by omega), Nat.mul_one]

/-- The dwords of the functions are apart. -/
theorem locate_injective {w : Access} {a a' : Addr} {offset offset' : ℕ} (h : offset < w.size)
    (h' : offset' < w.size) (heq : w.locate a offset = w.locate a' offset') :
    a = a' ∧ offset = offset' := by
  obtain ⟨bus, dev, fn⟩ := a
  obtain ⟨bus', dev', fn'⟩ := a'
  have hbus := bus.toNat_lt
  have hbus' := bus'.toNat_lt
  have hfields : bus.toNat = bus'.toNat ∧ dev.val = dev'.val ∧ fn.val = fn'.val ∧
      offset = offset' := by
    cases w with
    | window base =>
      change offset < 4096 at h
      change offset' < 4096 at h'
      have hsum := wadd_left_cancel (by dsimp only; omega) (by dsimp only; omega) heq
      dsimp only at hsum
      omega
    | ports =>
      rw [locate_ports h, locate_ports h'] at heq
      dsimp only at heq
      change offset < 256 at h
      change offset' < 256 at h'
      omega
  obtain ⟨hb, hd, hf, ho⟩ := hfields
  rw [UInt8.toNat_inj.mp hb, Fin.ext hd, Fin.ext hf]
  exact ⟨rfl, ho⟩

/-! ## One dword -/

namespace Register

/-- The first bit of the register in its dword. -/
def shift (reg : Register) : ℕ := reg.offset % 4 * 8

/-- Of the widths that occur, and inside one dword. -/
structure Aligned (reg : Register) : Prop where
  width : reg.bits = 8 ∨ reg.bits = 16 ∨ reg.bits = 32
  whole : alignDown reg.offset 4 = alignDown (reg.offset + reg.bits / 8 - 1) 4

/-- Bit `k` of the dword at `o` is one of the register's. -/
def Covers (reg : Register) (o k : ℕ) : Prop :=
  o = alignDown reg.offset 4 ∧ reg.shift ≤ k ∧ k < reg.shift + reg.bits

instance (reg : Register) (o k : ℕ) : Decidable (reg.Covers o k) :=
  inferInstanceAs (Decidable (_ ∧ _ ∧ _))

theorem Aligned.fits {reg : Register} (h : reg.Aligned) : reg.shift + reg.bits ≤ 32 := by
  have hwhole := h.whole
  unfold alignDown at hwhole
  unfold shift
  rcases h.width with hw | hw | hw <;> rw [hw] at hwhole ⊢ <;> omega

theorem Aligned.bits_le {reg : Register} (h : reg.Aligned) : reg.bits ≤ 32 :=
  (Nat.le_add_left _ _).trans h.fits

end Register

def PciRegs.cmd : Register := ⟨0x04, 16⟩

theorem cmd_aligned : PciRegs.cmd.Aligned := ⟨by decide, by decide⟩

section Dword

variable {reg : Register} {value data : BitVec 32} {k : ℕ}

theorem numbits_getLsbD {n : ℕ} (hn : n ≤ 32) (k : ℕ) : (numbits n).getLsbD k = decide (k < n) := by
  have hpow : 2 ^ n ≤ 2 ^ 32 := Nat.pow_le_pow_right (by decide) hn
  have hone : 1 ≤ 2 ^ n := Nat.one_le_two_pow
  have hnat : (numbits n).toNat = 2 ^ n - 1 := by
    rw [numbits, BitVec.toNat_sub, BitVec.toNat_shiftLeft, BitVec.toNat_one (by decide),
      Nat.shiftLeft_eq, Nat.one_mul]
    omega
  rw [BitVec.getLsbD, hnat, Nat.testBit_two_pow_sub_one]

theorem newValue_getLsbD (h : reg.Aligned) (hk : k < 32) : (newValue reg value data).getLsbD k =
      (value.getLsbD k && !decide (k < reg.bits) ||
        (decide (reg.shift ≤ k) && data.getLsbD (k - reg.shift))) := by
  have hshift : (reg.offset &&& 3) * 8 = reg.shift := by
    rw [Register.shift, show (3 : ℕ) = 2 ^ 2 - 1 from rfl, Nat.and_two_pow_sub_one_eq_mod]
  have h64 : k < 64 := Nat.lt_trans hk (by decide)
  have hnot : (!decide (k < reg.shift)) = decide (reg.shift ≤ k) := by
    rw [← decide_not, decide_eq_decide]
    exact Nat.not_lt
  rw [newValue, hshift, BitVec.getLsbD_or, BitVec.getLsbD_setWidth, BitVec.getLsbD_and,
    BitVec.getLsbD_not, numbits_getLsbD h.bits_le, BitVec.getLsbD_setWidth,
    BitVec.getLsbD_shiftLeft, hnot]
  simp [hk, h64]

/-- For these dwords and values `pci_write` comes out right: in front of the register nothing is
cleared, inside of it nothing is left over, and behind it nothing is added. -/
structure Writable (reg : Register) (value data : BitVec 32) : Prop where
  before : ∀ k, k < reg.shift → k < reg.bits → value.getLsbD k = false
  inside : ∀ k, reg.shift ≤ k → k < reg.shift + reg.bits → reg.bits ≤ k →
    value.getLsbD k = true → data.getLsbD (k - reg.shift) = true
  behind : ∀ k < 32, reg.shift + reg.bits ≤ k → data.getLsbD (k - reg.shift) = true →
    value.getLsbD k = true

/-- A register at the start of its dword can be written with values of its width. -/
theorem Writable.of_narrow (hshift : reg.shift = 0)
    (hdata : ∀ k, reg.bits ≤ k → data.getLsbD k = false) : Writable reg value data where
  before k hk := by
    rw [hshift] at hk
    exact absurd hk (Nat.not_lt_zero k)
  inside k _ hhi hbits := by
    rw [hshift, Nat.zero_add] at hhi
    exact absurd hhi (Nat.not_lt.mpr hbits)
  behind k _ hhi hset := by
    rw [hshift, Nat.zero_add] at hhi
    rw [hshift, Nat.sub_zero, hdata k hhi] at hset
    cases hset

/-- What a bit of the dword ought to be. -/
def dueBit (reg : Register) (value data : BitVec 32) (k : ℕ) : Bool :=
  if reg.shift ≤ k ∧ k < reg.shift + reg.bits then data.getLsbD (k - reg.shift)
  else value.getLsbD k

theorem newValue_eq_due_iff (h : reg.Aligned) :
    (∀ k < 32, (newValue reg value data).getLsbD k = dueBit reg value data k) ↔
      Writable reg value data := by
  have hfits := h.fits
  constructor
  · intro hdue
    constructor
    case before =>
      intro k hk hbits
      have hbit := hdue k (by omega)
      rw [newValue_getLsbD h (by omega), dueBit, if_neg (by omega)] at hbit
      simpa [hbits, Nat.not_le.mpr hk] using hbit.symm
    case inside =>
      intro k hlo hhi hbits hset
      have hbit := hdue k (by omega)
      rw [newValue_getLsbD h (by omega), dueBit, if_pos ⟨hlo, hhi⟩] at hbit
      simpa [hset, Nat.not_lt.mpr hbits] using hbit.symm
    case behind =>
      intro k hk hhi hset
      have hbit := hdue k hk
      rw [newValue_getLsbD h hk, dueBit, if_neg (by omega)] at hbit
      simpa [hset, show reg.shift ≤ k by omega, show ¬ k < reg.bits by omega] using hbit.symm
  · intro hw k hk
    rw [newValue_getLsbD h hk, dueBit]
    by_cases hlo : reg.shift ≤ k
    · by_cases hhi : k < reg.shift + reg.bits
      · rw [if_pos ⟨hlo, hhi⟩]
        by_cases hbits : k < reg.bits
        · simp [hbits, hlo]
        · have hleft := hw.inside k hlo hhi (Nat.not_lt.mp hbits)
          cases hset : value.getLsbD k with
          | false => simp [hlo]
          | true => simp [hlo, hleft hset]
      · rw [if_neg fun hin => hhi hin.2]
        have hadd := hw.behind k hk (Nat.not_lt.mp hhi)
        have hbits : ¬ k < reg.bits := by omega
        cases hset : data.getLsbD (k - reg.shift) with
        | false => simp [hbits]
        | true => simp [hbits, hlo, hadd hset]
    · by_cases hbits : k < reg.bits
      · rw [hw.before k (Nat.not_le.mp hlo) hbits]
        simp [hlo]
      · simp [hbits, hlo]

/-- Equality modulo a power of two is equality of the low bits. -/
theorem toNat_eq_mod_iff {x : BitVec 32} {n : ℕ} (hx : ∀ k, n ≤ k → x.getLsbD k = false) :
    x.toNat = data.toNat % 2 ^ n ↔ ∀ k < n, x.getLsbD k = data.getLsbD k := by
  constructor
  · intro heq k hk
    rw [BitVec.getLsbD, heq, Nat.testBit_mod_two_pow, decide_eq_true hk, Bool.true_and]
    rfl
  · intro hbits
    refine Nat.eq_of_testBit_eq fun k => ?_
    rw [Nat.testBit_mod_two_pow]
    by_cases hk : k < n
    · rw [decide_eq_true hk, Bool.true_and]
      exact hbits k hk
    · rw [decide_eq_false hk, Bool.false_and]
      exact hx k (Nat.not_lt.mp hk)

end Dword

/-! ## Reading and writing -/

section Space

variable {w : Access} {s s' : Space} {a : Addr} {reg : Register} {data : BitVec 32}

theorem pciRead_getLsbD (h : reg.Aligned) (k : ℕ) :
    (pciRead (pciRead32 w s) a reg).getLsbD k = (decide (k < reg.bits) &&
      (pciRead32 w s a (alignDown reg.offset 4)).getLsbD (reg.shift + k)) := by
  have hshift : (reg.offset - alignDown reg.offset 4) * 8 = reg.shift := by
    unfold alignDown Register.shift
    omega
  have hbits := h.bits_le
  unfold pciRead
  dsimp only
  rw [hshift, BitVec.getLsbD_setWidth, BitVec.getLsbD_and, numbits_getLsbD hbits,
    BitVec.getLsbD_setWidth, BitVec.getLsbD_ushiftRight]
  by_cases hk : k < reg.bits
  · simp [hk, show k < 32 by omega, show k < 64 by omega]
  · simp [hk]

/-- The register reads as `data` exactly if its bits are those of `data`. -/
theorem pciRead_eq_iff (h : reg.Aligned) :
    (pciRead (pciRead32 w s) a reg).toNat = data.toNat % 2 ^ reg.bits ↔
      ∀ k < reg.bits,
        (pciRead32 w s a (alignDown reg.offset 4)).getLsbD (reg.shift + k) = data.getLsbD k := by
  have hhigh : ∀ k, reg.bits ≤ k → (pciRead (pciRead32 w s) a reg).getLsbD k = false := by
    intro k hk
    rw [pciRead_getLsbD h, decide_eq_false (Nat.not_lt.mpr hk), Bool.false_and]
  rw [toNat_eq_mod_iff hhigh]
  refine forall₂_congr fun k hk => ?_
  rw [pciRead_getLsbD h, decide_eq_true hk, Bool.true_and]

/-- The register holds `data`, cut to its width, and no other bit of the configuration space has
changed. -/
structure Written (w : Access) (s s' : Space) (a : Addr) (reg : Register) (data : BitVec 32) :
    Prop where
  value : (pciRead (pciRead32 w s') a reg).toNat = data.toNat % 2 ^ reg.bits
  others : ∀ a' o k, o < w.size → 4 ∣ o → ¬ (a' = a ∧ reg.Covers o k) →
    (s' (w.locate a' o)).getLsbD k = (s (w.locate a' o)).getLsbD k

/-- The dword that is written is the one that is read again. -/
theorem pciRead32_write (w : Access) (s : Space) (a : Addr) (reg : Register) (data : BitVec 32) :
    pciRead32 w (writeRegister w s a reg data) a (alignDown reg.offset 4) =
      newValue reg (pciRead32 w s a (alignDown reg.offset 4)) data :=
  Function.update_self ..

/-- Every other dword is kept. -/
theorem writeRegister_other {a' : Addr} {o : ℕ} (ho : o < w.size)
    (hne : ¬ (a' = a ∧ o = alignDown reg.offset 4 % 256)) :
    writeRegister w s a reg data (w.locate a' o) = s (w.locate a' o) := by
  have hsize : alignDown reg.offset 4 % 256 < w.size :=
    (Nat.mod_lt _ (by decide)).trans_le w.le_size
  exact Function.update_of_ne (fun heq => hne (locate_injective ho hsize heq)) ..

/-- Where the value can be written, it is. -/
theorem Writable.written (h : reg.Aligned)
    (hw : Writable reg (pciRead32 w s a (alignDown reg.offset 4)) data)
    (hplace : reg.offset < 256 ∨
      (pciRead (pciRead32 w s) a reg).toNat = data.toNat % 2 ^ reg.bits) :
    Written w s (writeRegister w s a reg data) a reg data := by
  have hfits := h.fits
  have hdue := (newValue_eq_due_iff h).mpr hw
  constructor
  case value =>
    rw [pciRead_eq_iff h, pciRead32_write]
    intro k hk
    rw [hdue _ (by omega), dueBit, if_pos (by omega), Nat.add_sub_cancel_left]
  case others =>
    intro a' o k ho _ hout
    by_cases hdword : a' = a ∧ o = alignDown reg.offset 4 % 256
    · obtain ⟨rfl, rfl⟩ := hdword
      refine (congrArg (BitVec.getLsbD · k) (pciRead32_write w s a' reg data)).trans ?_
      show _ = (pciRead32 w s a' (alignDown reg.offset 4)).getLsbD k
      by_cases hk : k < 32
      · rw [hdue k hk, dueBit]
        split
        case isTrue hc =>
          -- here the write went to another dword, but left it as it was
          rcases hplace with hlow | hsame
          · refine absurd ⟨rfl, ?_, hc⟩ hout
            unfold alignDown
            omega
          · have hbit := (pciRead_eq_iff h).mp hsame (k - reg.shift) (by omega)
            rw [Nat.add_sub_cancel' hc.1] at hbit
            exact hbit.symm
        case isFalse => rfl
      · rw [BitVec.getLsbD_of_ge _ _ (Nat.not_lt.mp hk),
          BitVec.getLsbD_of_ge _ _ (Nat.not_lt.mp hk)]
    · rw [writeRegister_other ho hdword]

/-- **Writing a register.** After `pci_write` the register reads as the value that was written,
cut to its width, and everything else in configuration space is as before, if and only if the
dword and the value are `Writable`, and the register is one of the first 256 bytes or holds the
value already. -/
theorem written_iff (h : reg.Aligned) (hin : reg.offset < w.size) :
    Written w s (writeRegister w s a reg data) a reg data ↔
      Writable reg (pciRead32 w s a (alignDown reg.offset 4)) data ∧
        (reg.offset < 256 ∨ (pciRead (pciRead32 w s) a reg).toNat = data.toNat % 2 ^ reg.bits) := by
  have hfits := h.fits
  have hreal : alignDown reg.offset 4 < w.size ∧ alignDown reg.offset 4 % 256 < w.size := by
    have hle := w.le_size
    unfold alignDown
    omega
  constructor
  · rintro ⟨hvalue, hothers⟩
    rw [← newValue_eq_due_iff h]
    have hvalue := (pciRead_eq_iff h).mp hvalue
    rw [pciRead32_write] at hvalue
    -- the dword that is written, as far as it is not the register's
    have hkept : ∀ k, ¬ reg.Covers (alignDown reg.offset 4 % 256) k →
        (newValue reg (pciRead32 w s a (alignDown reg.offset 4)) data).getLsbD k =
          (pciRead32 w s a (alignDown reg.offset 4)).getLsbD k := by
      intro k hk
      have hbit := hothers a _ k hreal.2 (by unfold alignDown; omega) fun hc => hk hc.2
      rw [← pciRead32_write]
      exact hbit
    have hdue : (∀ k, ¬ (reg.shift ≤ k ∧ k < reg.shift + reg.bits) →
        (newValue reg (pciRead32 w s a (alignDown reg.offset 4)) data).getLsbD k =
          (pciRead32 w s a (alignDown reg.offset 4)).getLsbD k) →
        ∀ k < 32, (newValue reg (pciRead32 w s a (alignDown reg.offset 4)) data).getLsbD k =
          dueBit reg (pciRead32 w s a (alignDown reg.offset 4)) data k := by
      intro hout k _
      rw [dueBit]
      split
      case isTrue hc =>
        have hbit := hvalue (k - reg.shift) (by omega)
        rwa [Nat.add_sub_cancel' hc.1] at hbit
      case isFalse hc => exact hout k hc
    by_cases hlow : reg.offset < 256
    · exact ⟨hdue fun k hc => hkept k fun hcov => hc hcov.2, Or.inl hlow⟩
    · have hbit : ∀ k, (newValue reg (pciRead32 w s a (alignDown reg.offset 4)) data).getLsbD k =
          (pciRead32 w s a (alignDown reg.offset 4)).getLsbD k := by
        refine fun k => hkept k fun hcov => ?_
        have hout := hcov.1
        unfold alignDown at hout
        omega
      refine ⟨hdue fun k _ => hbit k, Or.inr ((pciRead_eq_iff h).mpr fun k hk => ?_)⟩
      rw [← hbit]
      exact hvalue k hk
  · rintro ⟨hw, hplace⟩
    exact hw.written h hplace

end Space

/-- Writing 7 to a command register of 0, next to the status `0x10`. -/
theorem written_iff_command :
    Written .ports (fun _ => 0x00100000) (writeRegister .ports (fun _ => 0x00100000)
      ⟨0, 0, 0⟩ PciRegs.cmd 7) ⟨0, 0, 0⟩ PciRegs.cmd 7 := by
  refine (written_iff cmd_aligned (by decide)).mpr
    ⟨Writable.of_narrow rfl fun k hk => ?_, Or.inl (by decide)⟩
  exact Nat.testBit_lt_two_pow (Nat.lt_of_lt_of_le (show 7 < 2 ^ 16 by decide)
    (Nat.pow_le_pow_right (by decide) hk))

/-- Enabling MSI: the control word of the capability at `0x40` goes from `0x0080` to `0x0081`, and
the number of the capability in front of it is cleared. -/
theorem msi_control_clobbers :
    (⟨0x42, 16⟩ : Register).Aligned ∧
    writeRegister .ports (fun _ => 0x00800005) ⟨0, 0, 0⟩ ⟨0x42, 16⟩ 0x0081
      (Access.ports.locate ⟨0, 0, 0⟩ 0x40) = 0x00810000 ∧
    ¬ Written .ports (fun _ => 0x00800005) (writeRegister .ports (fun _ => 0x00800005)
      ⟨0, 0, 0⟩ ⟨0x42, 16⟩ 0x0081) ⟨0, 0, 0⟩ ⟨0x42, 16⟩ 0x0081 := by
  refine ⟨⟨by decide, by decide⟩, by decide, fun hwritten => ?_⟩
  have hbit := hwritten.others ⟨0, 0, 0⟩ 0x40 0 (by decide) (by decide) (by decide)
  revert hbit
  decide

/-! ## The command register -/

/-- `pci_setup_cmd_reg(dev)`. -/
def pciSetupCmdReg (w : Access) (s : Space) (a : Addr) : Space :=
  let pcicmd := pciRead (pciRead32 w s) a PciRegs.cmd
  writeRegister w s a PciRegs.cmd (pcicmd ||| 0b100 ||| 0b010 ||| 0b001)

/-- `pci_setup_cmd_reg` sets the three bits and, where the space keeps what is written, changes
nothing else: the status that shares the dword is written back as it was read. -/
theorem pciSetupCmdReg_written (w : Access) (s : Space) (a : Addr) :
    Written w s (pciSetupCmdReg w s a) a PciRegs.cmd
      (pciRead (pciRead32 w s) a PciRegs.cmd ||| 0b100 ||| 0b010 ||| 0b001) := by
  have hin : PciRegs.cmd.offset < 256 := by decide
  refine Writable.written cmd_aligned (Writable.of_narrow rfl fun k hk => ?_) (.inl hin)
  change 16 ≤ k at hk
  have hconst : ∀ c : BitVec 32, c.toNat < 2 ^ 3 → c.getLsbD k = false := fun c hc =>
    Nat.testBit_lt_two_pow (hc.trans_le (Nat.pow_le_pow_right (by decide) (by omega)))
  rw [BitVec.getLsbD_or, BitVec.getLsbD_or, BitVec.getLsbD_or, pciRead_getLsbD cmd_aligned,
    decide_eq_false (show ¬ k < PciRegs.cmd.bits from Nat.not_lt.mpr hk), hconst _ (by decide),
    hconst _ (by decide), hconst _ (by decide)]
  rfl

end NeptunOS.Pci
