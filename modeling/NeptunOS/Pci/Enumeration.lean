import NeptunOS.Lib.Descent
import NeptunOS.Util.Word
import Mathlib.Data.List.FinRange
import Mathlib.Order.WellFounded

/-!
# PCI enumeration

`pci_init` looks for the buses to start at on device 0 of bus 0, and `check_bus` follows the
secondary buses of the bridges from there. Neither remembers which buses it has been to.

- `checkBus_eq`: `check_bus` is the unmarked descent of `Lib.Descent`.
- `pciInit_once_iff`: the configurations in which every function is reported once.
-/

namespace NeptunOS.Pci

open Stepwise Descent

/-! ## Configuration space -/

/-- Bus, device and function. -/
structure Addr where
  bus : UInt8
  dev : Fin 32
  fn : Fin 8
deriving DecidableEq, Repr

/-- `pci_register_t`. -/
structure Register where
  offset : ℕ
  bits : ℕ

namespace PciRegs

def vendor : Register := ⟨0x00, 16⟩

def product : Register := ⟨0x02, 16⟩

def progif : Register := ⟨0x09, 8⟩

def subclass : Register := ⟨0x0a, 8⟩

def class_ : Register := ⟨0x0b, 8⟩

def hdrtype : Register := ⟨0x0e, 8⟩

def primarybus : Register := ⟨0x18, 8⟩

def secondarybus : Register := ⟨0x19, 8⟩

end PciRegs

/-- What `pci_read32` finds at the aligned offsets of a function. -/
def Config : Type := Addr → ℕ → BitVec 32

/-- `numbits(x)`. -/
def numbits (x : ℕ) : BitVec 64 := (1#64 <<< x) - 1#64

/-- `pci_read(bus, slot, func, reg)`. -/
def pciRead (cfg : Config) (a : Addr) (reg : Register) : BitVec 32 :=
  let realoffset := alignDown reg.offset 4
  let data := cfg a realoffset >>> ((reg.offset - realoffset) * 8)
  (data.setWidth 64 &&& numbits reg.bits).setWidth 32

/-- `device_t_PCI`. -/
structure DevicePci where
  vendor : BitVec 32
  product : BitVec 32
  class_ : BitVec 32
  subclass : BitVec 32
  progif : BitVec 32
  addr : Addr

/-- The device that `check_bus` passes to `devmgr_add_device`. -/
def device (cfg : Config) (a : Addr) : DevicePci where
  vendor := pciRead cfg a PciRegs.vendor
  product := pciRead cfg a PciRegs.product
  class_ := pciRead cfg a PciRegs.class_
  subclass := pciRead cfg a PciRegs.subclass
  progif := pciRead cfg a PciRegs.progif
  addr := a

/-! ## The scan -/

/-- The functions of a bus, in the order of the two loops. -/
def functions (bus : UInt8) : List Addr :=
  (List.finRange 32).flatMap fun j => (List.finRange 8).map fun i => ⟨bus, j, i⟩

/-- `u8 secondary = pci_read(.., PciRegs::SECONDARYBUS)`. -/
def secondary (cfg : Config) (a : Addr) : UInt8 := .ofNat (pciRead cfg a PciRegs.secondarybus).toNat

/-- The body of the loops of `check_bus`. -/
def checkFunction (cfg : Config) (checkBus : UInt8 → Except Halt (List DevicePci)) (a : Addr) :
    Except Halt (List DevicePci) :=
  if pciRead cfg a PciRegs.vendor = 0xffff then .ok []
  else if pciRead cfg a PciRegs.hdrtype &&& 3 = 1 then do
    let found ← checkBus (secondary cfg a)
    .ok (device cfg a :: found)
  else .ok [device cfg a]

/-- `check_bus(bus)`: the calls of `devmgr_add_device`. -/
def checkBus (cfg : Config) : ℕ → UInt8 → Except Halt (List DevicePci)
  | 0, _ => .error .endless
  | fuel + 1, bus => collect (checkFunction cfg (checkBus cfg fuel)) (functions bus)

/-- The body of the loop of `pci_init`. -/
def checkRoot (cfg : Config) (fuel : ℕ) (fn : Fin 8) : Except Halt (List DevicePci) :=
  let root : Addr := ⟨0, ⟨0, Nat.succ_pos 31⟩, fn⟩
  if pciRead cfg root PciRegs.vendor = 0xffff then .ok []
  else
    let cl := pciRead cfg root PciRegs.class_
    let scl := pciRead cfg root PciRegs.subclass
    if cl = 6 ∧ scl = 4 then do
      let primary ← checkBus cfg fuel (.ofNat (pciRead cfg root PciRegs.primarybus).toNat)
      let secondary ← checkBus cfg fuel (secondary cfg root)
      .ok (primary ++ secondary)
    else if cl = 6 ∧ scl = 0 then checkBus cfg fuel (.ofNat fn.val)
    else .ok []

/-- `(mcfg->length - 36) / sizeof(mcfg->cfg_spaces[0])`. -/
def numCfgSpaces (length : UInt32) : ℕ := (length - 36).toNat / 16

/-- `pci_init()`; `mcfg` is the length of the table, if there is one. -/
def pciInit (cfg : Config) (mcfg : Option UInt32) (fuel : ℕ) : Except Halt (List DevicePci) :=
  if ∃ length ∈ mcfg, 1 < numCfgSpaces length then
    .error (.fatal "only 1 segment group supproted")
  else collect (checkRoot cfg fuel) (List.finRange 8)

/-! ## Bridges -/

/-- A function answers at this address. -/
def present (cfg : Config) (a : Addr) : Bool := pciRead cfg a PciRegs.vendor ≠ 0xffff

/-- The present functions of a bus. -/
def items (cfg : Config) (bus : UInt8) : List Addr := (functions bus).filter (present cfg)

/-- The bus behind a bridge. -/
def down (cfg : Config) (a : Addr) : Option UInt8 :=
  if pciRead cfg a PciRegs.hdrtype &&& 3 = 1 then some (secondary cfg a) else none

/-- The buses that function `fn` of device 0 makes `pci_init` scan. -/
def rootBuses (cfg : Config) (fn : Fin 8) : List UInt8 :=
  let root : Addr := ⟨0, ⟨0, Nat.succ_pos 31⟩, fn⟩
  if present cfg root = false then []
  else if pciRead cfg root PciRegs.class_ = 6 ∧ pciRead cfg root PciRegs.subclass = 4 then
    [.ofNat (pciRead cfg root PciRegs.primarybus).toNat, secondary cfg root]
  else if pciRead cfg root PciRegs.class_ = 6 ∧ pciRead cfg root PciRegs.subclass = 0 then
    [.ofNat fn.val]
  else []

/-- The buses that `pci_init` scans. -/
def starts (cfg : Config) : List UInt8 := (List.finRange 8).flatMap (rootBuses cfg)

/-- Reachable from bus 0 through bridges. -/
def Reachable (cfg : Config) (bus : UInt8) : Prop :=
  Relation.ReflTransGen (fun b c => Below (items cfg) (down cfg) c b) 0 bus

theorem mem_functions {a : Addr} {bus : UInt8} : a ∈ functions bus ↔ a.bus = bus := by
  simp only [functions, List.mem_flatMap, List.mem_map, List.mem_finRange, true_and]
  constructor
  · rintro ⟨j, i, rfl⟩
    rfl
  · rintro rfl
    exact ⟨a.dev, a.fn, rfl⟩

theorem functions_nodup (bus : UInt8) : (functions bus).Nodup := by
  refine List.nodup_flatMap.mpr ⟨fun j _ => ?_, ?_⟩
  · exact (List.nodup_finRange 8).map fun i i' h => (Addr.mk.inj h).2.2
  · refine (List.nodup_finRange 32).imp fun hne a ha ha' => ?_
    obtain ⟨i, -, rfl⟩ := List.mem_map.mp ha
    obtain ⟨i', -, heq⟩ := List.mem_map.mp ha'
    exact hne (Addr.mk.inj heq).2.1.symm

theorem items_nodup (cfg : Config) (bus : UInt8) : (items cfg bus).Nodup :=
  (functions_nodup bus).filter _

/-! ## The scan as a descent -/

section Scan

variable {cfg : Config} {mcfg : Option UInt32} {fuel : ℕ}

theorem checkBus_eq (cfg : Config) (fuel : ℕ) (bus : UInt8) : checkBus cfg fuel bus =
      (walk (items cfg) (down cfg) Halt.endless fuel bus).map (List.map (device cfg)) := by
  induction fuel generalizing bus with
  | zero => rfl
  | succ fuel ih =>
    refine collect_filter (fun a => ?_) (functions bus)
    rw [checkFunction, walkItem, down]
    by_cases habsent : pciRead cfg a PciRegs.vendor = 0xffff
    · have hno : present cfg a = false := decide_eq_false (not_not_intro habsent)
      rw [if_pos habsent, hno, if_neg Bool.false_ne_true]
    · have hyes : present cfg a = true := decide_eq_true habsent
      rw [if_neg habsent, hyes, if_pos rfl]
      by_cases hbridge : pciRead cfg a PciRegs.hdrtype &&& 3 = 1
      · rw [if_pos hbridge, if_pos hbridge, ih, Option.elim_some]
        cases walk (items cfg) (down cfg) Halt.endless fuel (secondary cfg a) <;> rfl
      · rw [if_neg hbridge, if_neg hbridge]
        rfl

theorem checkRoot_eq (cfg : Config) (fuel : ℕ) (fn : Fin 8) :
    checkRoot cfg fuel fn = collect (checkBus cfg fuel) (rootBuses cfg fn) := by
  simp only [checkRoot, rootBuses, present, decide_eq_false_iff_not, not_not]
  split
  case isTrue => rfl
  case isFalse =>
    split
    case isTrue => rw [collect, collect_singleton]
    case isFalse =>
      split
      case isTrue => rw [collect_singleton]
      case isFalse => rfl

theorem pciInit_eq (hmcfg : ∀ length ∈ mcfg, numCfgSpaces length ≤ 1) : pciInit cfg mcfg fuel =
      (walkAll (items cfg) (down cfg) Halt.endless fuel (starts cfg)).map
        (List.map (device cfg)) := by
  rw [pciInit, if_neg, funext (checkRoot_eq cfg fuel), ← collect_flatMap]
  · exact collect_rename (checkBus_eq cfg fuel) (starts cfg)
  · rintro ⟨length, hlength, hlt⟩
    exact absurd (hmcfg length hlength) (Nat.not_le.mpr hlt)

theorem count_device (l : List Addr) (a : Addr) :
    ((l.map (device cfg)).map DevicePci.addr).count a = l.count a := by
  rw [List.map_map]
  exact congrArg (List.count a) (List.map_id l)

/-- `pci_init` comes to an end and reports every function that is present and reachable from
bus 0 once, exactly when there is at most one segment group, no bus that it starts at leads
into endlessly many bridges, and each of these functions lies on a single route from a
single one of these buses. -/
theorem pciInit_once_iff (cfg : Config) (mcfg : Option UInt32) :
    (∃ fuel ds, pciInit cfg mcfg fuel = .ok ds ∧
      ∀ a, present cfg a = true → Reachable cfg a.bus →
        (ds.map DevicePci.addr).count a = 1) ↔
    (∀ length ∈ mcfg, numCfgSpaces length ≤ 1) ∧
    (∀ bus ∈ starts cfg, Acc (Below (items cfg) (down cfg)) bus) ∧
    ∀ a, present cfg a = true → Reachable cfg a.bus →
      ∃! x : (UInt8 × ℕ) × List Addr, x.1 ∈ (starts cfg).zipIdx ∧
        Route (items cfg) (down cfg) x.1.1 x.2 a := by
  constructor
  · rintro ⟨fuel, ds, hrun, honce⟩
    have hmcfg : ∀ length ∈ mcfg, numCfgSpaces length ≤ 1 := by
      intro length hlength
      by_contra hlt
      rw [pciInit, if_pos ⟨length, hlength, Nat.not_le.mp hlt⟩] at hrun
      cases hrun
    rw [pciInit_eq hmcfg] at hrun
    obtain ⟨l, hl, rfl⟩ := map_eq_ok.mp hrun
    refine ⟨hmcfg, walkAll_terminates_iff.mp ⟨fuel, l, hl⟩, fun a hpresent hreach => ?_⟩
    rw [← walkAll_count_eq_one_iff (items_nodup cfg) hl, ← count_device l a]
    exact honce a hpresent hreach
  · rintro ⟨hmcfg, hacc, hroute⟩
    obtain ⟨fuel, l, hl⟩ := (@walkAll_terminates_iff _ _ _ _ _ Halt.endless _).mpr hacc
    refine ⟨fuel, l.map (device cfg), ?_, fun a hpresent hreach => ?_⟩
    · rw [pciInit_eq hmcfg, hl]
      rfl
    · rw [count_device, walkAll_count_eq_one_iff (items_nodup cfg) hl]
      exact hroute a hpresent hreach

end Scan

/-! ## A bridge that nobody has configured -/

/-- A host bridge, and on the same bus a PCI-to-PCI bridge whose bus numbers still have the
value they have after a reset. -/
def unconfigured : Config := fun a offset =>
  if a = ⟨0, ⟨0, Nat.succ_pos 31⟩, 0⟩ then
    if offset = 0 then 0x12378086 else if offset = 8 then 0x06000000 else 0
  else if a = ⟨0, ⟨1, Nat.one_lt_succ_succ 30⟩, 0⟩ then
    if offset = 0 then 0x00011b36 else if offset = 8 then 0x06040000
    else if offset = 12 then 0x00010000 else 0
  else 0xffffffff

theorem unconfigured_below : Below (items unconfigured) (down unconfigured) 0 0 :=
  ⟨⟨0, 1, 0⟩, List.mem_filter.mpr ⟨mem_functions.mpr rfl, by decide⟩, by decide⟩

/-- The bridge leads back to its own bus, and `check_bus` follows it forever. -/
theorem pciInit_unconfigured : ¬∃ fuel ds, pciInit unconfigured none fuel = .ok ds := by
  rintro ⟨fuel, ds, hrun⟩
  rw [pciInit_eq fun _ h => (by cases h)] at hrun
  obtain ⟨l, hl, -⟩ := map_eq_ok.mp hrun
  have hacc := walkAll_terminates_iff.mp ⟨fuel, l, hl⟩ 0 (by decide)
  exact not_acc_iff_exists_descending_chain.mpr
    ⟨fun _ => 0, rfl, fun _ => unconfigured_below⟩ hacc

end NeptunOS.Pci
