import NeptunOS.Lib.Stepwise
import NeptunOS.Util.Word

/-!
# The MADT (`arch_parse_madt`)

The loop over the entries of the table. It goes on by the length that an entry has, whatever
that is, and reads the fields of an entry without a look at the end of the table.

- `parseEntry`, `parseLoop`: the loop, with every read checked against the table.
- `Chain`: complete entries up to the end of the table.
- `parse_total`: the tables for which the loop does what it should.
- `chain_iff`: what that says of each entry.
-/

namespace NeptunOS.Madt

open Stepwise

/-- The table: `sdt.length`, and the memory from the table on. -/
structure Table where
  length : ℕ
  byte : ℕ → UInt8
  length_lt : length < 2 ^ 32

/-- `sizeof(madt_t)`. -/
def headerSize : ℕ := 44

/-- A field of `n` bytes. -/
def Table.field (t : Table) (pos n : ℕ) : Except Halt ℕ :=
  if pos + n ≤ t.length then .ok (leBytes t.byte pos n)
  else .error (.exception "read behind the table")

/-- `ioapic_redir`. -/
structure Redir where
  gsi : ℕ
  activelow : Bool
  lvltrig : Bool
deriving DecidableEq, Repr

/-- What the loop changes: `cpus`, `ioapics`, `redirection_table`, `lapic_base`, and the pages
that are mapped on the way. -/
structure Apics where
  cpus : List (ℕ × ℕ)
  ioapics : List (ℕ × ℕ)
  redirectionTable : ℕ → Redir
  lapicBase : ℕ
  mapped : List ℕ

/-- `redirection_table[irq] = r`; `operator[]` lets index 16 through. -/
def Apics.redirect (a : Apics) (irq : ℕ) (r : Redir) : Except Halt Apics :=
  if 16 < irq then .error (.fatal "array<> access out of bounds! idx %lld size %lld")
  else if irq = 16 then .error (.exception "write behind redirection_table")
  else .ok { a with redirectionTable := fun i => if i = irq then r else a.redirectionTable i }

/-- `MadtTypes` of the entries that are looked at. -/
inductive Kind where
  | lapic
  | ioapic
  | override
  | lapicAddr
  | other
deriving DecidableEq, Repr

def kindOf (type : ℕ) : Kind :=
  match type with
  | 0 => .lapic
  | 1 => .ioapic
  | 2 => .override
  | 5 => .lapicAddr
  | _ => .other

/-- A case of the `switch`, for the entry at `pos`. -/
def parseKind (t : Table) (pos : ℕ) (a : Apics) : Kind → Except Halt Apics
  | .lapic => do
    let apicId ← t.field (pos + 3) 1
    if apicId = 0 then return a
    else
      let acpiId ← t.field (pos + 2) 1
      return { a with cpus := a.cpus ++ [(apicId, acpiId)] }
  | .ioapic => do
    let addr ← t.field (pos + 4) 4
    let gsiBase ← t.field (pos + 8) 4
    return { a with ioapics := a.ioapics ++ [(virt addr, gsiBase)], mapped := a.mapped ++ [addr] }
  | .override => do
    let irq ← t.field (pos + 3) 1
    let gsi ← t.field (pos + 4) 4
    let flags ← t.field (pos + 8) 2
    a.redirect irq ⟨gsi, flags.testBit 1, flags.testBit 3⟩
  | .lapicAddr => do
    let lapic ← t.field (pos + 4) 8
    return { a with lapicBase := lapic }
  | .other => return a

/-- The `switch`. -/
def parseEntry (t : Table) (pos : ℕ) (a : Apics) : Except Halt Apics := do
  let type ← t.field pos 1
  parseKind t pos a (kindOf type)

/-- The loop from `offset` on; `offset` is a `u32`. -/
def parseLoop (t : Table) : ℕ → ℕ → Apics → Except Halt Apics
  | 0, _, _ => .error .endless
  | fuel + 1, offset, a =>
    if headerSize + offset < t.length then do
      let a ← parseEntry t (headerSize + offset) a
      let length ← t.field (headerSize + offset + 1) 1
      parseLoop t fuel ((offset + length) % 2 ^ 32) a
    else .ok a

/-! ## Entries -/

/-- The bytes of an entry that are looked at: the last field that is used, and in any case
`type` and `length`. -/
def Kind.size : Kind → ℕ
  | .lapic => 4
  | .ioapic => 12
  | .override => 10
  | .lapicAddr => 12
  | .other => 2

/-- The type and the length of the entry at `pos`, and the IRQ of an override. -/
def Table.kind (t : Table) (pos : ℕ) : Kind := kindOf (t.byte pos).toNat

def Table.entryLength (t : Table) (pos : ℕ) : ℕ := (t.byte (pos + 1)).toNat

def Table.irq (t : Table) (pos : ℕ) : ℕ := (t.byte (pos + 3)).toNat

/-- The entry at `pos` lies in the table as far as it is looked at, and an override is for one
of the 16 IRQs. -/
structure Complete (t : Table) (pos : ℕ) : Prop where
  inside : pos + (t.kind pos).size ≤ t.length
  irq_lt : t.kind pos = .override → t.irq pos < 16

/-- Complete entries, one behind the other, up to the end of the table. -/
inductive Chain (t : Table) : ℕ → Prop where
  | done {offset : ℕ} : t.length ≤ headerSize + offset → Chain t offset
  | entry {offset : ℕ} : headerSize + offset < t.length → Complete t (headerSize + offset) →
      Chain t ((offset + t.entryLength (headerSize + offset)) % 2 ^ 32) → Chain t offset

section

variable {t : Table} {pos n offset : ℕ} {a : Apics}

/-- What follows a field is come to if the field lies in the table. -/
theorem field_bind_ok_iff {β : Type} {f : ℕ → Except Halt β} : (∃ y, t.field pos n >>= f = .ok y) ↔
      pos + n ≤ t.length ∧ ∃ y, f (leBytes t.byte pos n) = .ok y := by
  unfold Table.field
  split
  case isTrue h => simp [h, ok_bind]
  case isFalse h => exact iff_of_false (fun ⟨_, hy⟩ => by cases hy) fun hy => h hy.1

theorem field_one (h : pos < t.length) : t.field pos 1 = .ok (t.byte pos).toNat :=
  if_pos (Nat.succ_le_of_lt h)

theorem redirect_eq_ok_iff {irq : ℕ} {r : Redir} :
    (∃ a', a.redirect irq r = .ok a') ↔ irq < 16 := by
  unfold Apics.redirect
  split
  · exact iff_of_false (fun ⟨_, h⟩ => by cases h) (by omega)
  · split
    · exact iff_of_false (fun ⟨_, h⟩ => by cases h) (by omega)
    · exact iff_of_true ⟨_, rfl⟩ (by omega)

theorem exists_return_ok {β : Type} (x : β) : ∃ y, (pure x : Except Halt β) = .ok y := ⟨x, rfl⟩

/-- The case of the `switch` is come through if its fields lie in the table. -/
theorem complete_iff (hpos : pos < t.length) (a : Apics) :
    Complete t pos ↔ (∃ a', parseEntry t pos a = .ok a') ∧ pos + 1 < t.length := by
  have hentry : parseEntry t pos a = parseKind t pos a (t.kind pos) := by
    rw [parseEntry, field_one hpos]
    rfl
  have hcomplete : Complete t pos ↔ pos + (t.kind pos).size ≤ t.length ∧
      (t.kind pos = .override → t.irq pos < 16) := ⟨fun h => ⟨h.1, h.2⟩, fun h => ⟨h.1, h.2⟩⟩
  rw [hentry, hcomplete]
  cases t.kind pos with
  | lapic =>
    -- The second identifier lies before the first.
    by_cases hid : leBytes t.byte (pos + 3) 1 = 0 <;>
      simp only [parseKind, field_bind_ok_iff, hid, if_true, if_false, exists_return_ok, Kind.size,
        reduceCtorEq, false_imp_iff, and_true] <;> omega
  | ioapic | lapicAddr | other =>
    simp only [parseKind, field_bind_ok_iff, exists_return_ok, Kind.size, reduceCtorEq,
      false_imp_iff, and_true, true_and]
    omega
  | override =>
    have hirq : leBytes t.byte (pos + 3) 1 = t.irq pos := rfl
    simp only [parseKind, field_bind_ok_iff, redirect_eq_ok_iff, Kind.size, hirq, true_imp_iff]
    omega

/-! ## The loop -/

theorem Chain.parseLoop_ok (h : Chain t offset) (a : Apics) :
    ∃ fuel a', parseLoop t fuel offset a = .ok a' := by
  induction h generalizing a with
  | done hend => exact ⟨1, a, if_neg (Nat.not_lt.mpr hend)⟩
  | @entry offset hlt hcomplete _ ih =>
    obtain ⟨⟨a₁, ha₁⟩, hlength⟩ := (complete_iff hlt a).mp hcomplete
    obtain ⟨fuel, a', ha'⟩ := ih a₁
    refine ⟨fuel + 1, a', ?_⟩
    rw [parseLoop, if_pos hlt, ha₁, ok_bind, field_one hlength, ok_bind]
    exact ha'

theorem chain_of_parseLoop {fuel : ℕ} {a' : Apics} (h : parseLoop t fuel offset a = .ok a') :
    Chain t offset := by
  induction fuel generalizing offset a with
  | zero => cases h
  | succ fuel ih =>
    rw [parseLoop] at h
    by_cases hlt : headerSize + offset < t.length
    · rw [if_pos hlt] at h
      obtain ⟨a₁, hentry, h⟩ := bind_eq_ok.mp h
      have hlength := (field_bind_ok_iff.mp ⟨a', h⟩).1
      rw [field_one hlength, ok_bind] at h
      exact .entry hlt ((complete_iff hlt a).mpr ⟨⟨a₁, hentry⟩, hlength⟩) (ih h)
    · exact .done (Nat.not_lt.mp hlt)

/-- **The parser is total** if and only if the table is a chain of complete entries. -/
theorem parse_total (t : Table) (a : Apics) :
    (∃ fuel a', parseLoop t fuel 0 a = .ok a') ↔ Chain t 0 :=
  ⟨fun ⟨_, _, h⟩ => chain_of_parseLoop h, fun h => h.parseLoop_ok a⟩

/-! ## Chains -/

/-- The offsets of the entries that are come to. -/
inductive Starts (t : Table) : ℕ → Prop where
  | first : Starts t 0
  | next {offset : ℕ} : Starts t offset → headerSize + offset < t.length →
      Starts t (offset + t.entryLength (headerSize + offset))

/-- No entry of a chain stays where it is. -/
theorem Chain.entryLength_pos (h : Chain t offset) (hlt : headerSize + offset < t.length) :
    0 < t.entryLength (headerSize + offset) := by
  induction h with
  | done hend => omega
  | @entry offset _ _ _ ih =>
    rw [Nat.pos_iff_ne_zero]
    intro hzero
    have hsmall : offset < 2 ^ 32 := by
      have := t.length_lt
      omega
    rw [hzero, Nat.add_zero, Nat.mod_eq_of_lt hsmall] at ih
    exact absurd hzero (Nat.pos_iff_ne_zero.mp (ih hlt))

section

variable (hsmall : t.length + 2 ^ 8 ≤ 2 ^ 32)

include hsmall

theorem next_offset (hlt : headerSize + offset < t.length) :
    (offset + t.entryLength (headerSize + offset)) % 2 ^ 32 =
      offset + t.entryLength (headerSize + offset) := by
  have hlength : t.entryLength (headerSize + offset) < 2 ^ 8 := UInt8.toNat_lt _
  exact Nat.mod_eq_of_lt (by omega)

theorem Chain.starts (h : Chain t 0) (hstart : Starts t offset) : Chain t offset := by
  induction hstart with
  | first => exact h
  | next _ hlt ih =>
    cases ih with
    | done hend => omega
    | entry _ _ hrest => rwa [next_offset hsmall hlt] at hrest

/-- Where `offset` cannot overflow, a chain means that every entry that is come to is complete
and not empty. -/
theorem chain_iff : Chain t 0 ↔ ∀ offset, Starts t offset → headerSize + offset < t.length →
    Complete t (headerSize + offset) ∧ 0 < t.entryLength (headerSize + offset) := by
  constructor
  · intro h offset hstart hlt
    have hc := h.starts hsmall hstart
    refine ⟨?_, hc.entryLength_pos hlt⟩
    cases hc with
    | done hend => omega
    | entry _ hcomplete _ => exact hcomplete
  · intro h
    -- what is left of the table gets shorter with every entry
    have hchain : ∀ n offset, t.length - offset ≤ n → Starts t offset → Chain t offset := by
      intro n
      induction n with
      | zero =>
        intro offset hn _
        exact .done (by omega)
      | succ n ih =>
        intro offset hn hstart
        by_cases hlt : headerSize + offset < t.length
        · obtain ⟨hcomplete, hpos⟩ := h offset hstart hlt
          refine .entry hlt hcomplete ?_
          rw [next_offset hsmall hlt]
          exact ih _ (by omega) (.next hstart hlt)
        · exact .done (Nat.not_lt.mp hlt)
    exact hchain _ 0 (Nat.le_refl _) .first

end

end

/-- A table with one entry, which has no length. -/
def emptyEntry : Table := ⟨46, fun pos => if pos = 44 then 4 else 0, by decide⟩

/-- A table with an override for IRQ 16. -/
def lateIrq : Table :=
  ⟨54, fun pos => if pos = 44 then 2 else if pos = 45 then 10 else if pos = 47 then 16 else 0,
    by decide⟩

/-- The globals at the start; IRQ 9 is the SCI. -/
def initial : Apics := ⟨[], [], fun irq => ⟨irq, irq == 9, irq == 9⟩, 0xfee00000, []⟩

/-- The loop does not get past the empty entry, and the override is written behind the array. -/
theorem parse_not_total :
    (∀ fuel, parseLoop emptyEntry fuel 0 initial = .error .endless) ∧
    ∀ fuel, parseLoop lateIrq (fuel + 1) 0 initial =
      .error (.exception "write behind redirection_table") := by
  refine ⟨fun fuel => ?_, fun fuel => rfl⟩
  induction fuel with
  | zero => rfl
  | succ fuel ih => exact ih

end NeptunOS.Madt
