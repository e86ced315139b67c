import NeptunOS.Lib.Radix
import NeptunOS.Util.Word

/-!
# `arch/amd64/paging.hh`, `arch/amd64/paging.cc`

The four-level page tables. A table is known by the pointer the kernel uses
for it, an entry is a 64-bit word that the `flags` bitfield overlays with its
low 12 bits. `frames` are the pages that the next calls of `allocpage` return.

`mapPage` and `pagingLookup` are the kernel's functions, `walk` is what the
processor does: the present entries from the PML4 to the leaf.
-/

namespace NeptunOS.Paging

open Radix

/-! ## Words -/

namespace Mflags

def present : ℕ := 0b00000001
def rw : ℕ := 0b00000010
def user : ℕ := 0b00000100
def huge : ℕ := 0b10000000
def s4K : ℕ := 1 <<< 29
def s2M : ℕ := 1 <<< 30
def s1G : ℕ := 1 <<< 31
def exe : ℕ := 1 <<< 32

def kdata : ℕ := rw ||| present
def udata : ℕ := user ||| kdata

end Mflags

/-- `ADDR_PTI(a)`. -/
def addrPti (a : ℕ) : ℕ := a >>> 12 &&& 511

/-- `ADDR_PDI(a)`. -/
def addrPdi (a : ℕ) : ℕ := a >>> 21 &&& 511

/-- `ADDR_PDPI(a)`. -/
def addrPdpi (a : ℕ) : ℕ := a >>> 30 &&& 511

/-- `ADDR_PML4I(a)`. -/
def addrPml4i (a : ℕ) : ℕ := a >>> 39 &&& 511

/-- `entry->flags & PRESENT`. -/
def present (e : ℕ) : Bool := e.testBit 0

/-- `entry->flags & RW`. -/
def rw (e : ℕ) : Bool := e.testBit 1

/-- `entry->flags & USER`. -/
def user (e : ℕ) : Bool := e.testBit 2

/-- `entry->flags & HUGE`. -/
def huge (e : ℕ) : Bool := e.testBit 7

/-- The execute-disable bit. -/
def nx (e : ℕ) : Bool := e.testBit 63

/-- `entry->flags = f`: the bitfield has 12 bits. -/
def setFlags (e f : ℕ) : ℕ := e / 2 ^ 12 * 2 ^ 12 + f % 2 ^ 12

/-- `entry->addr = bitset(entry->addr, 63, 0)`. -/
def clearNx (e : ℕ) : ℕ := e % 2 ^ 63

/-- `VIRTUAL(entry->addr & ~0x0fff)`. -/
def tableOf (e : ℕ) : ℕ := virt (e / 2 ^ 12 * 2 ^ 12)

/-- The table an entry of an upper level points to. -/
def child (e : ℕ) : Option ℕ :=
  if present e ∧ ¬ huge e then some (tableOf e) else none

/-! ## `map_page` -/

/-- Page tables in memory: table pointer, index, entry. -/
structure Tables where
  mem : ℕ → ℕ → ℕ
  frames : List ℕ

/-- The three page sizes. -/
inductive PageSize where
  | s4K
  | s2M
  | s1G
deriving DecidableEq, Repr

def PageSize.bytes : PageSize → ℕ
  | .s4K => 2 ^ 12
  | .s2M => 2 ^ 21
  | .s1G => 2 ^ 30

/-- The size that `map_page` reads from its flags: `s2M` wins, 4 KiB is the
default. -/
def pageSize (flags : ℕ) : PageSize :=
  if flags.testBit 30 then .s2M else if flags.testBit 31 then .s1G else .s4K

/-- `exemask`. -/
def exeMask (flags : ℕ) : ℕ := if flags.testBit 32 then 0 else 2 ^ 63

/-- `patbits4k`. -/
def patbits4k (cache : ℕ) : ℕ :=
  (cache % 2) <<< 3 ||| (cache >>> 1 % 2) <<< 4 ||| (cache >>> 2 % 2) <<< 7

/-- `patbits2m`. -/
def patbits2m (cache : ℕ) : ℕ :=
  (cache % 2) <<< 3 ||| (cache >>> 1 % 2) <<< 4 ||| (cache >>> 2 % 2) <<< 12

/-- `allocpage()` and the `memset` of the new table. -/
def newTable (s : Tables) : Except Halt (ℕ × Tables) :=
  match s.frames with
  | [] => .error (.fatal "Watermark allocator out of memory!")
  | f :: fs => .ok (f, { mem := fill s.mem f 0, frames := fs })

/-- One upper level of `map_page`: the table below entry `i` of table `t`,
which is made if there is none. -/
def descend (flags exemask : ℕ) (s : Tables) (t i : ℕ) : Except Halt (ℕ × Tables) :=
  let e := s.mem t i
  if present e then
    .ok (tableOf e,
      if user flags then
        { s with mem := put s.mem t i (setFlags e (e ||| Mflags.user)) }
      else s)
  else do
    let (f, s') ← newTable s
    return (f, { s' with mem := put s'.mem t i (setFlags (phys f ||| exemask) flags) })

/-- The upper levels one after the other: the entries on the way, the table
they lead to and the new state. -/
def descendAll (flags exemask : ℕ) :
    List ℕ → ℕ → Tables → Except Halt (List (ℕ × ℕ) × ℕ × Tables)
  | [], t, s => .ok ([], t, s)
  | i :: is, t, s => do
    let (t', s') ← descend flags exemask s t i
    let (way, last, s'') ← descendAll flags exemask is t' s'
    return ((t, i) :: way, last, s'')

/-- The NX bit is cleared in every entry of the way. -/
def clearWay (way : List (ℕ × ℕ)) (m : ℕ → ℕ → ℕ) : ℕ → ℕ → ℕ :=
  way.foldl (fun m x => put m x.1 x.2 (clearNx (m x.1 x.2))) m

/-- The leaf of `map_page`: address, NX bits of the whole way, flags. -/
def writeLeaf (m : ℕ → ℕ → ℕ) (way : List (ℕ × ℕ)) (t i addr exemask flags : ℕ) :
    ℕ → ℕ → ℕ :=
  let m := put m t i (addr ||| exemask)
  let m := if exemask = 0 then clearWay (way ++ [(t, i)]) m else m
  put m t i (setFlags (m t i) flags)

/-- Indices of the upper levels, from the PML4 on. -/
def upperIndices (virt : ℕ) : PageSize → List ℕ
  | .s4K => [addrPml4i virt, addrPdpi virt, addrPdi virt]
  | .s2M => [addrPml4i virt, addrPdpi virt]
  | .s1G => [addrPml4i virt]

/-- Index of the leaf in its table. -/
def leafIndex (virt : ℕ) : PageSize → ℕ
  | .s4K => addrPti virt
  | .s2M => addrPdi virt
  | .s1G => addrPdpi virt

/-- The flags of the leaf. -/
def leafFlags (flags cache : ℕ) : PageSize → ℕ
  | .s4K => flags ||| patbits4k cache
  | .s2M => flags ||| Mflags.huge ||| patbits2m cache
  | .s1G => flags ||| Mflags.huge ||| patbits2m cache

/-- `map_page(cr3, virt, phys, flags, cache)`. -/
def mapPage (s : Tables) (cr3 virt phys flags cache : ℕ) : Except Halt Tables := do
  let exemask := exeMask flags
  let size := pageSize flags
  let phys := alignDown phys size.bytes
  let virt := alignDown virt size.bytes
  let flags := flags % 2 ^ 13
  let (way, t, s') ← descendAll flags exemask (upperIndices virt size) cr3 s
  return { s' with
    mem := writeLeaf s'.mem way t (leafIndex virt size) phys exemask
      (leafFlags flags cache size) }

/-! ## `paging_lookup` -/

/-- `-1` as a `u64`. -/
def minusOne : ℕ := 2 ^ 64 - 1

/-- `paging_lookup(cr3, virt)`. A 1 GiB page is recognised only after an entry
of the page itself has been read as a page directory's. -/
def pagingLookup (m : ℕ → ℕ → ℕ) (cr3 virt : ℕ) : ℕ :=
  let e4 := m cr3 (addrPml4i virt)
  if ¬ present e4 then minusOne else
  let pdp := tableOf e4
  let e3 := m pdp (addrPdpi virt)
  if ¬ present e3 then minusOne else
  let pd := tableOf e3
  let e2 := m pd (addrPdi virt)
  if ¬ present e2 then minusOne else
  if huge e3 then wadd pd (virt % 2 ^ 30) % 2 ^ 63 else
  let pt := tableOf e2
  if huge e2 then phys (wadd pt (virt % 2 ^ 21)) % 2 ^ 63 else
  let e1 := m pt (addrPti virt)
  if ¬ present e1 then minusOne else
  wadd (e1 / 2 ^ 12 * 2 ^ 12) (virt % 2 ^ 12) % 2 ^ 63

/-! ## The processor -/

/-- The entries the processor reads from table `t` on, for the given indices. -/
def walkFrom (m : ℕ → ℕ → ℕ) (t : ℕ) : List ℕ → Option (List ℕ)
  | [] => none
  | i :: is =>
    let e := m t i
    if ¬ present e then none
    else if is = [] ∨ huge e then some [e]
    else (walkFrom m (tableOf e) is).map (e :: ·)

/-- The four indices of an address. -/
def indices (v : ℕ) : List ℕ := [addrPml4i v, addrPdpi v, addrPdi v, addrPti v]

/-- The entries from the PML4 to the leaf that maps an address. -/
def walk (m : ℕ → ℕ → ℕ) (cr3 v : ℕ) : Option (List ℕ) := walkFrom m cr3 (indices v)

/-- What a walk allows: `USER` and `RW` in all entries, NX in none. -/
structure Rights where
  user : Bool
  rw : Bool
  nx : Bool
deriving DecidableEq, Repr

def rightsOf (es : List ℕ) : Rights where
  user := es.all user
  rw := es.all rw
  nx := es.any nx

/-- The effective rights of an address, if it is mapped. -/
def rights (m : ℕ → ℕ → ℕ) (cr3 v : ℕ) : Option Rights := (walk m cr3 v).map rightsOf

/-- The size of the page a walk of `n` entries ends in. -/
def walkShift : ℕ → ℕ
  | 4 => 12
  | 3 => 21
  | _ => 30

/-- The physical address of `v`, if it is mapped. -/
def translate (m : ℕ → ℕ → ℕ) (cr3 v : ℕ) : Option ℕ :=
  (walk m cr3 v).map fun es =>
    let n := 2 ^ walkShift es.length
    es.getLastD 0 % 2 ^ 52 / n * n + v % n

/-! ## Bits of entries -/

section Bits

variable (e f : ℕ)

theorem testBit_setFlags (j : ℕ) :
    (setFlags e f).testBit j = if j < 12 then f.testBit j else e.testBit j := by
  have hlt : f % 2 ^ 12 < 2 ^ 12 := Nat.mod_lt _ (by decide)
  rw [setFlags, Nat.mul_comm, Nat.testBit_two_pow_mul_add _ hlt]
  split
  case isTrue h => rw [Nat.testBit_mod_two_pow, decide_eq_true h, Bool.true_and]
  case isFalse h => rw [Nat.testBit_div_two_pow, Nat.sub_add_cancel (by omega)]

@[simp] theorem present_setFlags : present (setFlags e f) = present f := testBit_setFlags e f 0

@[simp] theorem rw_setFlags : rw (setFlags e f) = rw f := testBit_setFlags e f 1

@[simp] theorem user_setFlags : user (setFlags e f) = user f := testBit_setFlags e f 2

@[simp] theorem huge_setFlags : huge (setFlags e f) = huge f := testBit_setFlags e f 7

@[simp] theorem nx_setFlags : nx (setFlags e f) = nx e := testBit_setFlags e f 63

@[simp] theorem present_clearNx : present (clearNx e) = present e := Nat.testBit_mod_two_pow e 63 0

@[simp] theorem rw_clearNx : rw (clearNx e) = rw e := Nat.testBit_mod_two_pow e 63 1

@[simp] theorem user_clearNx : user (clearNx e) = user e := Nat.testBit_mod_two_pow e 63 2

@[simp] theorem huge_clearNx : huge (clearNx e) = huge e := Nat.testBit_mod_two_pow e 63 7

@[simp] theorem nx_clearNx : nx (clearNx e) = false := Nat.testBit_mod_two_pow e 63 63

@[simp] theorem clearNx_clearNx : clearNx (clearNx e) = clearNx e := Nat.mod_mod _ _

@[simp] theorem present_or : present (e ||| f) = (present e || present f) := Nat.testBit_or e f 0

@[simp] theorem rw_or : rw (e ||| f) = (rw e || rw f) := Nat.testBit_or e f 1

@[simp] theorem user_or : user (e ||| f) = (user e || user f) := Nat.testBit_or e f 2

@[simp] theorem huge_or : huge (e ||| f) = (huge e || huge f) := Nat.testBit_or e f 7

@[simp] theorem nx_or : nx (e ||| f) = (nx e || nx f) := Nat.testBit_or e f 63

theorem setFlags_lt {e : ℕ} (h : e < 2 ^ 64) : setFlags e f < 2 ^ 64 := by
  unfold setFlags
  omega

theorem clearNx_lt : clearNx e < 2 ^ 64 := (Nat.mod_lt e (by decide : 0 < 2 ^ 63)).trans (by decide)

@[simp] theorem tableOf_setFlags : tableOf (setFlags e f) = tableOf e := by
  have hdiv : (e / 2 ^ 12 * 2 ^ 12 + f % 2 ^ 12) / 2 ^ 12 = e / 2 ^ 12 := by omega
  rw [tableOf, setFlags, hdiv, tableOf]

theorem tableOf_eq {e : ℕ} (h : e < 2 ^ 64) : tableOf e = hhdm + e % 2 ^ 47 / 2 ^ 12 * 2 ^ 12 := by
  rw [tableOf, virt_eq (by omega)]
  omega

theorem tableOf_clearNx {e : ℕ} (h : e < 2 ^ 64) : tableOf (clearNx e) = tableOf e := by
  rw [tableOf_eq h, tableOf_eq (clearNx_lt e), clearNx]
  omega

end Bits

/-- A page of the direct map, by the kernel's pointer to it. -/
structure IsFrame (f : ℕ) : Prop where
  low : hhdm ≤ f
  high : f < hhdm + 2 ^ 47
  aligned : 2 ^ 12 ∣ f

theorem IsFrame.phys_eq {f : ℕ} (hf : IsFrame f) : phys f = f - hhdm := by
  have := hf.low
  have := hf.high
  rw [phys_eq_mod]
  unfold hhdm at *
  omega

theorem exeMask_cases (flags : ℕ) : exeMask flags = 0 ∨ exeMask flags = 2 ^ 63 := by
  unfold exeMask
  split
  · exact .inl rfl
  · exact .inr rfl

/-- The mask is above every address. -/
theorem or_exeMask {x : ℕ} (hx : x < 2 ^ 63) (flags : ℕ) :
    x ||| exeMask flags = x + exeMask flags := by
  rcases exeMask_cases flags with h | h
  · rw [h, Nat.or_zero, Nat.add_zero]
  · rw [h, Nat.or_comm, Nat.add_comm]
    exact (Nat.two_pow_add_eq_or_of_lt hx 1).symm

theorem exeMask_le (flags : ℕ) : exeMask flags ≤ 2 ^ 63 := by
  rcases exeMask_cases flags with h | h
  · rw [h]; exact Nat.zero_le _
  · rw [h]

/-- A new upper entry points to its table. -/
theorem tableOf_newEntry {f : ℕ} (hf : IsFrame f) (flags flags' : ℕ) :
    tableOf (setFlags (phys f ||| exeMask flags) flags') = f := by
  have hlow := hf.low
  have hhigh := hf.high
  have halign := hf.aligned
  have hmask := exeMask_le flags
  rw [tableOf_setFlags, hf.phys_eq, or_exeMask (by omega), tableOf_eq (by omega)]
  rcases exeMask_cases flags with h | h <;> rw [h] <;> unfold hhdm at * <;> omega

end NeptunOS.Paging
