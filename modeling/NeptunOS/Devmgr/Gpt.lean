import Mathlib.Data.List.Forall2
import NeptunOS.Devmgr.Msd
import NeptunOS.Fs.FatVolume
import NeptunOS.Storage.String

/-!
# Partition tables (`devmgr/msd/msd.cc`)

`msd_scout` reads the header of a GPT and registers a partition for every entry in use. It takes
the entries for 128 bytes long, drops the type it has looked up, and takes the bytes of the UTF-16
name for a C string.

- `scoutLoop_eq`: the loop as a fold over the entries it finds.
- `msdScout_iff`: the tables whose entries are registered as they are.
- `Sees.kept_iff_plain`: which entries these are in a table with entries of 128 bytes.
-/

namespace NeptunOS.Gpt

open Stepwise

/-! ## The model -/

/-- `PartitionType`. -/
inductive PartitionType where
  | other
  | efiSystemPartition
  | microsoftBasicData
  | microsoftReserved
  | linuxFilesystem
deriving DecidableEq, Repr

/-- `Partition`, without the device it is on. -/
structure Partition where
  type : PartitionType
  offset : ℕ
  size : ℕ
  name : List UInt8
deriving DecidableEq, Repr

/-- `make_guid("XXXXXXXX-XXXX-XXXX-XXXX-XXXXXXXXXXXX").getraw()`. -/
def makeGuid (data1 data2 data3 : ℕ) (data4 : List ℕ) : ℕ :=
  data1 + data2 * 2 ^ 32 + data3 * 2 ^ 48 + data4.foldr (fun x n => x + 256 * n) 0 * 2 ^ 64

/-- `guid2parttype(guid)`. -/
def guid2parttype (guid : ℕ) : PartitionType :=
  if guid = makeGuid 0xC12A7328 0xF81F 0x11D2 [0xBA, 0x4B, 0x00, 0xA0, 0xC9, 0x3E, 0xC9, 0x3B] then
    .efiSystemPartition
  else if guid =
      makeGuid 0x0FC63DAF 0x8483 0x4772 [0x8E, 0x79, 0x3D, 0x69, 0xD8, 0x47, 0x7D, 0xE4] then
    .linuxFilesystem
  else if guid =
      makeGuid 0xEBD0A0A2 0xB9E5 0x4433 [0x87, 0xC0, 0x68, 0xB6, 0xB7, 0x26, 0x99, 0xC7] then
    .microsoftBasicData
  else if guid =
      makeGuid 0xE3C9E316 0x0B5C 0x4DB8 [0x81, 0x7D, 0xF9, 0x2D, 0xF0, 0x02, 0x15, 0xAE] then
    .microsoftReserved
  else .other

/-- `msd_read(d, offset, 512, buf)` with an aligned offset and buffer. -/
def readSector (disk : ℕ → UInt8) (offset : ℕ) : ℕ → UInt8 := fun k => disk (offset + k)

/-- `ents[j]`, and how many bytes there are from it to the end of the buffer. -/
structure View where
  bytes : ℕ → UInt8
  room : ℕ

def View.of (ents : ℕ → UInt8) (j : ℕ) : View where
  bytes k := ents (128 * j + k)
  room := 512 - 128 * j

namespace View

variable (v : View)

/-- `*(u128*)e.type`. -/
def type : ℕ := leBytes v.bytes 0 16

/-- `e.start`. -/
def start : ℕ := leBytes v.bytes 32 8

/-- `e.end`. -/
def last : ℕ := leBytes v.bytes 40 8

/-- The memory from `e.name` on. -/
def name : List UInt8 := (List.range (v.room - 56)).map fun k => v.bytes (56 + k)

end View

/-- `String(str)`, where `mem` is the memory from `str` on. -/
def cname (mem : List UInt8) : Except Halt (List UInt8) :=
  if 0 ∈ mem then
    .ok ((mem.takeWhile (· ≠ 0)).take (Str.strlen (mem.takeWhile (· ≠ 0))))
  else .error (.exception "read behind the buffer")

/-- The `Partition` that `msd_scout` builds for an entry. -/
def partitionOf (v : View) : Except Halt Partition := do
  let name ← cname v.name
  return {
    type := .other
    offset := v.start * 512 % 2 ^ 64
    size := wsub (wadd v.last 1) v.start * 512 % 2 ^ 64
    name }

/-- An entry in use: the partition is registered, and the first one of all is mounted. -/
def enter (mount : Partition → Except Halt Unit) (s : Bool × List Partition) (v : View) :
    Except Halt (Bool × List Partition) := do
  let p ← partitionOf v
  if ¬ s.1 then mount p
  return (true, s.2 ++ [p])

/-- The loop of `msd_scout`, from entry `i` on; the state is `mounted` and the partitions. -/
def scoutLoop (disk : ℕ → UInt8) (mount : Partition → Except Halt Unit) (startlba : ℕ) :
    ℕ → ℕ → (ℕ → UInt8) → Bool × List Partition → Except Halt (Bool × List Partition)
  | 0, _, _, s => .ok s
  | n + 1, i, ents, s => do
    let ents :=
      if i % 4 = 0 then readSector disk (wadd startlba (align i 4 / 4) * 512 % 2 ^ 64) else ents
    if (View.of ents (i % 4)).type = 0 then scoutLoop disk mount startlba n (i + 1) ents s
    else
      let s ← enter mount s (View.of ents (i % 4))
      scoutLoop disk mount startlba n (i + 1) ents s

/-- `hdr`. -/
def header (disk : ℕ → UInt8) : ℕ → UInt8 := readSector disk 512

/-- `"EFI PART"`. -/
def signature : List UInt8 := [0x45, 0x46, 0x49, 0x20, 0x50, 0x41, 0x52, 0x54]

/-- The device has a GPT. -/
def HasGpt (disk : ℕ → UInt8) : Prop := (List.range 8).map (header disk) = signature

instance (disk : ℕ → UInt8) : Decidable (HasGpt disk) := inferInstanceAs (Decidable (_ = _))

/-- `hdr->startlba`. -/
def startlba (disk : ℕ → UInt8) : ℕ := leBytes (header disk) 72 8

/-- `hdr->num_parts`. -/
def numParts (disk : ℕ → UInt8) : ℕ := leBytes (header disk) 80 4

/-- `hdr->entry_size`. -/
def entrySize (disk : ℕ → UInt8) : ℕ := leBytes (header disk) 84 4

/-- `msd_scout(d)`; `buf` is what the buffer for the entries holds at first. -/
def msdScout (disk : ℕ → UInt8) (mount : Partition → Except Halt Unit) (isMsd : Bool)
    (buf : ℕ → UInt8) (s : Bool × List Partition) : Except Halt (Bool × List Partition) :=
  if ¬ isMsd then .error (.assertion "d.subsys == DevmgrSubsys::MSD")
  else if HasGpt disk then scoutLoop disk mount (startlba disk) (numParts disk) 0 buf s
  else .ok s

/-! ## The format -/

/-- An entry of the table, with its name as UTF-16 code units. -/
structure Entry where
  type : ℕ
  start : ℕ
  last : ℕ
  units : List ℕ
deriving DecidableEq, Repr

/-- The entry at byte `pos` of the disk. -/
def entryAt (disk : ℕ → UInt8) (pos : ℕ) : Entry where
  type := leBytes disk pos 16
  start := leBytes disk (pos + 32) 8
  last := leBytes disk (pos + 40) 8
  units := (List.range 36).map fun k => leBytes disk (pos + 56 + 2 * k) 2

/-- The code points of a UTF-16 string; a surrogate without its partner is replaced. -/
def decodeUtf16 : List ℕ → List ℕ
  | [] => []
  | [u] => [if 0xd800 ≤ u ∧ u < 0xe000 then 0xfffd else u]
  | u :: v :: us =>
    if 0xd800 ≤ u ∧ u < 0xdc00 ∧ 0xdc00 ≤ v ∧ v < 0xe000 then
      (0x10000 + (u - 0xd800) * 0x400 + (v - 0xdc00)) :: decodeUtf16 us
    else (if 0xd800 ≤ u ∧ u < 0xe000 then 0xfffd else u) :: decodeUtf16 (v :: us)

/-- The name of an entry. -/
def Entry.name (e : Entry) : List ℕ := decodeUtf16 (e.units.takeWhile (· ≠ 0))

/-- The entries in use, where the header says they are. -/
def dueEntries (disk : ℕ → UInt8) : List Entry :=
  ((List.range (numParts disk)).map fun i =>
    entryAt disk (startlba disk * 512 + i * entrySize disk)).filter (·.type ≠ 0)

/-- `p` is the partition of the entry `e`. -/
structure Describes (p : Partition) (e : Entry) : Prop where
  type : p.type = guid2parttype e.type
  offset : p.offset = e.start * 512
  size : p.size = (e.last + 1 - e.start) * 512
  name : p.name.map UInt8.toNat = e.name

/-! ## The entries that are found -/

/-- Entry `i` as `msd_scout` sees it. -/
def viewAt (disk : ℕ → UInt8) (startlba i : ℕ) : View :=
  View.of (readSector disk (wadd startlba (i / 4) * 512 % 2 ^ 64)) (i % 4)

/-- The entries that it takes for being in use. -/
def seenEntries (disk : ℕ → UInt8) : List View :=
  ((List.range (numParts disk)).map (viewAt disk (startlba disk))).filter (·.type ≠ 0)

/-- What is registered for `v` describes `e`. -/
structure Kept (v : View) (e : Entry) : Prop where
  type : guid2parttype e.type = .other
  offset : v.start * 512 % 2 ^ 64 = e.start * 512
  size : wsub (wadd v.last 1) v.start * 512 % 2 ^ 64 = (e.last + 1 - e.start) * 512
  name : ∃ n, cname v.name = .ok n ∧ n.map UInt8.toNat = e.name

/-! ## The scan -/

section Scan

variable {disk : ℕ → UInt8} {mount : Partition → Except Halt Unit} {lba n i : ℕ}
  {ents : ℕ → UInt8} {s : Bool × List Partition}
variable {m : Bool} {parts : List Partition} {l : List View} {v : View} {r : Bool × List Partition}

theorem align_four (hi : i < 2 ^ 32) (hmod : i % 4 = 0) : align i 4 / 4 = i / 4 := by
  rw [align_of_lt (by omega)]
  omega

/-- The loop goes over the entries that it finds at steps of 128 bytes. -/
theorem scoutLoop_eq (hlt : i + n ≤ 2 ^ 32)
    (hents : i % 4 ≠ 0 → ents = readSector disk (wadd lba (i / 4) * 512 % 2 ^ 64)) :
    scoutLoop disk mount lba n i ents s =
      (((List.range' i n).map (viewAt disk lba)).filter (·.type ≠ 0)).foldlM (enter mount) s := by
  induction n generalizing i ents s with
  | zero => rfl
  | succ n ih =>
    have hsector : (if i % 4 = 0 then
        readSector disk (wadd lba (align i 4 / 4) * 512 % 2 ^ 64) else ents) =
          readSector disk (wadd lba (i / 4) * 512 % 2 ^ 64) := by
      by_cases hmod : i % 4 = 0
      · rw [if_pos hmod, align_four (by omega) hmod]
      · rw [if_neg hmod, hents hmod]
    have hnext : (i + 1) % 4 ≠ 0 → readSector disk (wadd lba (i / 4) * 512 % 2 ^ 64) =
        readSector disk (wadd lba ((i + 1) / 4) * 512 % 2 ^ 64) := by
      intro hmod
      rw [show (i + 1) / 4 = i / 4 by omega]
    have hrest := fun t => @ih (i + 1) _ t (by omega) hnext
    rw [scoutLoop, List.range'_succ, List.map_cons, viewAt]
    simp only [hsector, hrest]
    by_cases htype : (View.of (readSector disk (wadd lba (i / 4) * 512 % 2 ^ 64)) (i % 4)).type = 0
    · rw [if_pos htype, List.filter_cons_of_neg (by simpa using htype)]
    · rw [if_neg htype, List.filter_cons_of_pos (by simpa using htype), List.foldlM_cons]

theorem enter_eq_ok :
    enter mount (m, parts) v = .ok r ↔
      ∃ p, partitionOf v = .ok p ∧ (m = true ∨ mount p = .ok ()) ∧ r = (true, parts ++ [p]) := by
  unfold enter
  cases m with
  | true =>
    constructor
    · intro h
      obtain ⟨p, hp, h⟩ := bind_eq_ok.mp h
      exact ⟨p, hp, .inl rfl, (Except.ok.inj h).symm⟩
    · rintro ⟨p, hp, -, rfl⟩
      rw [hp]
      rfl
  | false =>
    constructor
    · intro h
      obtain ⟨p, hp, h⟩ := bind_eq_ok.mp h
      change (mount p >>= fun _ => .ok (true, parts ++ [p])) = .ok r at h
      obtain ⟨⟨⟩, hmount, h⟩ := bind_eq_ok.mp h
      exact ⟨p, hp, .inr hmount, (Except.ok.inj h).symm⟩
    · rintro ⟨p, hp, hmount, rfl⟩
      rw [hp, ok_bind, if_pos Bool.false_ne_true, hmount.resolve_left Bool.false_ne_true]
      rfl

/-- The fold returns when every entry can be read and the first one of all can be mounted. -/
theorem foldlM_enter :
    l.foldlM (enter mount) (m, parts) = .ok r ↔
      ∃ ps, List.Forall₂ (fun v p => partitionOf v = .ok p) l ps ∧
        (m = true ∨ ∀ p ∈ ps.head?, mount p = .ok ()) ∧ r = (m || !l.isEmpty, parts ++ ps) := by
  induction l generalizing m parts with
  | nil =>
    constructor
    · intro h
      refine ⟨[], .nil, .inr (by simp), ?_⟩
      rw [List.append_nil, List.isEmpty_nil, Bool.not_true, Bool.or_false]
      exact (Except.ok.inj h).symm
    · rintro ⟨ps, hps, -, rfl⟩
      cases hps
      rw [List.append_nil, List.isEmpty_nil, Bool.not_true, Bool.or_false]
      rfl
  | cons v l ih =>
    rw [List.foldlM_cons, bind_eq_ok]
    constructor
    · rintro ⟨a, henter, hrest⟩
      obtain ⟨p, hp, hmount, rfl⟩ := enter_eq_ok.mp henter
      obtain ⟨ps, hps, -, rfl⟩ := ih.mp hrest
      refine ⟨p :: ps, .cons hp hps, hmount.imp_right fun h q hq => ?_, ?_⟩
      · rw [← Option.some.inj hq]
        exact h
      · rw [List.append_assoc, List.singleton_append, List.isEmpty_cons, Bool.not_false,
          Bool.or_true, Bool.true_or]
    · rintro ⟨ps, hps, hmount, rfl⟩
      cases hps with
      | @cons _ p _ ps hp hps =>
        refine ⟨(true, parts ++ [p]), enter_eq_ok.mpr ⟨p, hp, ?_, rfl⟩,
          ih.mpr ⟨ps, hps, .inl rfl, ?_⟩⟩
        · exact hmount.imp_right fun h => h p rfl
        · rw [List.append_assoc, List.singleton_append, List.isEmpty_cons, Bool.not_false,
            Bool.or_true, Bool.true_or]

theorem kept_iff {e : Entry} : Kept v e ↔ ∃ p, partitionOf v = .ok p ∧ Describes p e := by
  constructor
  · rintro ⟨htype, hoffset, hsize, n, hn, hname⟩
    refine ⟨⟨.other, _, _, n⟩, ?_, htype.symm, hoffset, hsize, hname⟩
    rw [partitionOf, hn]
    rfl
  · rintro ⟨p, hp, hdescribes⟩
    obtain ⟨n, hn, hp⟩ := bind_eq_ok.mp hp
    obtain rfl := Except.ok.inj hp
    exact ⟨hdescribes.type.symm, hdescribes.offset, hdescribes.size, n, hn, hdescribes.name⟩

/-- One partition per entry, step by step. -/
theorem forall₂_kept {es : List Entry} : List.Forall₂ Kept l es ↔
      ∃ ps, List.Forall₂ (fun v p => partitionOf v = .ok p) l ps ∧
        List.Forall₂ Describes ps es := by
  constructor
  · intro h
    induction h with
    | nil => exact ⟨[], .nil, .nil⟩
    | cons hkept _ ih =>
      obtain ⟨p, hp, hdescribes⟩ := kept_iff.mp hkept
      obtain ⟨ps, hps, hrest⟩ := ih
      exact ⟨p :: ps, .cons hp hps, .cons hdescribes hrest⟩
  · rintro ⟨ps, hps, hes⟩
    induction hps generalizing es with
    | nil =>
      cases hes
      exact .nil
    | cons hp _ ih =>
      cases hes with
      | cons hdescribes hrest => exact .cons (kept_iff.mpr ⟨_, hp, hdescribes⟩) (ih hrest)

/-- What the first partition is depends on the first entry only. -/
theorem head_mounts {ps : List Partition}
    (hps : List.Forall₂ (fun v p => partitionOf v = .ok p) l ps) :
    (∀ p ∈ ps.head?, mount p = .ok ()) ↔
      ∀ v ∈ l.head?, ∀ p, partitionOf v = .ok p → mount p = .ok () := by
  cases hps with
  | nil => exact ⟨fun _ _ hv => (nomatch hv), fun _ _ hp => (nomatch hp)⟩
  | @cons v p l ps hp _ =>
    constructor
    · intro hfirst v' hv' q hq
      obtain rfl := Option.some.inj hv'
      obtain rfl := Except.ok.inj (hp.symm.trans hq)
      exact hfirst p rfl
    · intro hfirst q hq
      obtain rfl := Option.some.inj hq
      exact hfirst v rfl p hp

theorem numParts_lt (disk : ℕ → UInt8) : numParts disk < 2 ^ 32 := leBytes_lt _ _ 4

theorem msdScout_eq (hgpt : HasGpt disk) (buf : ℕ → UInt8) :
    msdScout disk mount true buf s = (seenEntries disk).foldlM (enter mount) s := by
  rw [msdScout, if_neg (not_not_intro rfl), if_pos hgpt,
    scoutLoop_eq (by have := numParts_lt disk; omega) (fun h => absurd rfl h), seenEntries,
    List.range_eq_range']

/-- On a device with a GPT, `msd_scout` registers one partition for every entry in use, in order
and with the data of the entry, exactly when the entries it finds are kept in this way and, if
nothing is mounted yet, the first one can be. -/
theorem msdScout_iff {parts : List Partition} {mounted : Bool} (hgpt : HasGpt disk)
    (buf : ℕ → UInt8) :
    (∃ mounted' ps, msdScout disk mount true buf (mounted, parts) = .ok (mounted', parts ++ ps) ∧
        List.Forall₂ Describes ps (dueEntries disk)) ↔
      List.Forall₂ Kept (seenEntries disk) (dueEntries disk) ∧
        (mounted = true ∨
          ∀ v ∈ (seenEntries disk).head?, ∀ p, partitionOf v = .ok p → mount p = .ok ()) := by
  rw [msdScout_eq hgpt, forall₂_kept]
  constructor
  · rintro ⟨mounted', ps, hrun, hdue⟩
    obtain ⟨ps', hps, hmount, heq⟩ := foldlM_enter.mp hrun
    obtain rfl : ps = ps' := List.append_cancel_left (congrArg Prod.snd heq)
    exact ⟨⟨ps, hps, hdue⟩, hmount.imp_right (head_mounts hps).mp⟩
  · rintro ⟨⟨ps, hps, hdue⟩, hmount⟩
    exact ⟨_, ps, foldlM_enter.mpr ⟨ps, hps, hmount.imp_right (head_mounts hps).mpr, rfl⟩, hdue⟩

end Scan

/-! ## Tables with entries of 128 bytes -/

section Plain

variable {disk f : ℕ → UInt8} {i n pos : ℕ} {v : View} {e : Entry}
variable {u : ℕ} {b : UInt8} {us : List ℕ} {mem : List UInt8}

/-- An entry that `msd_scout` registers as it is: a type without a name of its own, no overflow,
and a name of at most one character, which has to fit into a byte. -/
structure Entry.Plain (e : Entry) : Prop where
  type : guid2parttype e.type = .other
  offset : e.start * 512 < 2 ^ 64
  size : (e.last + 1 - e.start) * 512 < 2 ^ 64
  name : e.units.getD 0 0 = 0 ∨ e.units.getD 0 0 < 256 ∧ e.units.getD 1 0 = 0

theorem decodeUtf16_eq_nil : decodeUtf16 us = [] ↔ us = [] := by
  fun_cases decodeUtf16 us <;> simp_all

/-- A name without characters. -/
theorem decodeUtf16_empty : decodeUtf16 ((u :: us).takeWhile (· ≠ 0)) = [] ↔ u = 0 := by
  rw [decodeUtf16_eq_nil]
  by_cases hu : u = 0
  · rw [List.takeWhile_cons_of_neg (by simpa using hu)]
    exact ⟨fun _ => hu, fun _ => rfl⟩
  · rw [List.takeWhile_cons_of_pos (by simpa using hu)]
    exact ⟨fun h => (nomatch h), fun h => absurd h hu⟩

theorem decodeUtf16_small (hu : u < 256) : decodeUtf16 (u :: us) = u :: decodeUtf16 us := by
  have hlow : ¬ (0xd800 ≤ u ∧ u < 0xe000) := by omega
  cases us with
  | nil => exact congrArg (fun c => [c]) (if_neg hlow)
  | cons v us => rw [decodeUtf16, if_neg (by omega), if_neg hlow]

/-- A code unit that does not fit into a byte does not begin a name of bytes. -/
theorem decodeUtf16_large (hu : 256 ≤ u) : ∃ c cs, decodeUtf16 (u :: us) = c :: cs ∧ 256 ≤ c := by
  cases us with
  | nil =>
    refine ⟨_, _, rfl, ?_⟩
    split <;> omega
  | cons v us =>
    rw [decodeUtf16]
    split
    · exact ⟨_, _, rfl, by omega⟩
    · refine ⟨_, _, rfl, ?_⟩
      split <;> omega

theorem leBytes_two (f : ℕ → UInt8) (k : ℕ) :
    leBytes f k 2 = (f k).toNat + (f (k + 1)).toNat * 256 := by
  simp [leBytes, Nat.mul_comm]

theorem cname_empty (hb : b = 0) : cname (b :: mem) = .ok [] := by
  rw [cname, if_pos (hb ▸ List.mem_cons_self), List.takeWhile_cons_of_neg (by simpa using hb)]
  rfl

theorem cname_single {c : UInt8} (hb : b ≠ 0) (hc : c = 0) : cname (b :: c :: mem) = .ok [b] := by
  rw [cname, if_pos (hc ▸ List.mem_cons_of_mem _ List.mem_cons_self),
    List.takeWhile_cons_of_pos (by simpa using hb), List.takeWhile_cons_of_neg (by simpa using hc)]
  rfl

/-- Bytes are not a name that begins with such a code unit. -/
theorem bytes_ne_decodeUtf16 (hu : 256 ≤ u) (s : List UInt8) :
    s.map UInt8.toNat ≠ decodeUtf16 (u :: us) := by
  obtain ⟨c, cs, hdecode, hc⟩ := @decodeUtf16_large u us hu
  rw [hdecode]
  intro hname
  cases s with
  | nil => cases hname
  | cons b s =>
    have hb := b.toNat_lt
    have := (List.cons.inj hname).1
    omega

/-- The first two and the others. -/
theorem map_range_two {α : Type} (g : ℕ → α) (n : ℕ) :
    (List.range (n + 2)).map g = g 0 :: g 1 :: (List.range n).map fun k => g (k + 2) := by
  rw [List.range_succ_eq_map, List.range_succ_eq_map]
  simp [Function.comp_def]

/-- The C string in the bytes of a name is the name exactly when the name is that short. -/
theorem cname_iff (f : ℕ → UInt8) (n : ℕ) :
    (∃ s, cname ((List.range (n + 2)).map f) = .ok s ∧ s.map UInt8.toNat =
        decodeUtf16 (((List.range 36).map fun k => leBytes f (2 * k) 2).takeWhile (· ≠ 0))) ↔
      leBytes f 0 2 = 0 ∨ leBytes f 0 2 < 256 ∧ leBytes f 2 2 = 0 := by
  have hfirst : leBytes f 0 2 = (f 0).toNat + (f 1).toNat * 256 := leBytes_two f 0
  have hlt := (f 0).toNat_lt
  rw [map_range_two, map_range_two (fun k => leBytes f (2 * k) 2) 34, Nat.mul_zero, Nat.mul_one]
  by_cases h0 : f 0 = 0
  · -- the string is empty
    have hzero :
        leBytes f 0 2 = 0 ∨ leBytes f 0 2 < 256 ∧ leBytes f 2 2 = 0 ↔ leBytes f 0 2 = 0 := by
      have : (f 0).toNat = 0 := congrArg UInt8.toNat h0
      omega
    rw [hzero, ← decodeUtf16_empty]
    constructor
    · rintro ⟨s, hs, hname⟩
      obtain rfl := Except.ok.inj (hs.symm.trans (cname_empty h0))
      exact hname.symm
    · exact fun hname => ⟨[], cname_empty h0, hname.symm⟩
  · have hpos : 0 < (f 0).toNat := Nat.pos_of_ne_zero fun h => h0 (UInt8.toNat_inj.mp h)
    have hne : leBytes f 0 2 ≠ 0 := by omega
    rw [List.takeWhile_cons_of_pos (by simpa using hne)]
    by_cases h1 : f 1 = 0
    · -- the second byte ends it
      have hvalue : leBytes f 0 2 = (f 0).toNat := by
        have : (f 1).toNat = 0 := congrArg UInt8.toNat h1
        omega
      rw [decodeUtf16_small (by omega)]
      constructor
      · rintro ⟨s, hs, hname⟩
        obtain rfl := Except.ok.inj (hs.symm.trans (cname_single h0 h1))
        exact .inr ⟨by omega, decodeUtf16_empty.mp (List.cons.inj hname).2.symm⟩
      · intro hshort
        refine ⟨[f 0], cname_single h0 h1, ?_⟩
        rw [decodeUtf16_empty.mpr (hshort.resolve_left hne).2, hvalue]
        rfl
    · -- its first character does not fit into a byte
      have hlarge : 256 ≤ leBytes f 0 2 := by
        have : 0 < (f 1).toNat := Nat.pos_of_ne_zero fun h => h1 (UInt8.toNat_inj.mp h)
        omega
      refine iff_of_false ?_ (by omega)
      rintro ⟨s, -, hname⟩
      exact bytes_ne_decodeUtf16 hlarge s hname

/-- What is seen of an entry, when it is looked for in the right place. -/
structure Sees (disk : ℕ → UInt8) (pos : ℕ) (v : View) : Prop where
  bytes : ∀ k, v.bytes k = disk (pos + k)
  room : 128 ≤ v.room

theorem viewAt_sees (hfits : startlba disk * 512 + numParts disk * 128 ≤ 2 ^ 64)
    (hi : i < numParts disk) :
    Sees disk (startlba disk * 512 + i * 128) (viewAt disk (startlba disk) i) := by
  constructor
  · intro k
    have hpos : (startlba disk + i / 4) * 512 + (128 * (i % 4) + k) =
        startlba disk * 512 + i * 128 + k := by omega
    change disk (wadd (startlba disk) (i / 4) * 512 % 2 ^ 64 + (128 * (i % 4) + k)) = _
    rw [wadd_of_lt (by omega), Nat.mod_eq_of_lt (by omega), hpos]
  · change 128 ≤ 512 - 128 * (i % 4)
    omega

theorem Sees.le_eq (hsees : Sees disk pos v) (k n : ℕ) :
    leBytes v.bytes k n = leBytes disk (pos + k) n :=
  leBytes_congr fun j _ => by rw [hsees.bytes, Nat.add_assoc]

theorem Sees.type_eq (hsees : Sees disk pos v) : v.type = (entryAt disk pos).type :=
  hsees.le_eq 0 16

theorem size_eq_iff {first last : ℕ} (hlast : last < 2 ^ 64) (hle : first ≤ last) :
    wsub (wadd last 1) first * 512 % 2 ^ 64 = (last + 1 - first) * 512 ↔
      (last + 1 - first) * 512 < 2 ^ 64 := by
  unfold wsub wadd
  omega

theorem Sees.name_iff (hsees : Sees disk pos v) :
    (∃ n, cname v.name = .ok n ∧ n.map UInt8.toNat = (entryAt disk pos).name) ↔
      (entryAt disk pos).units.getD 0 0 = 0 ∨
        (entryAt disk pos).units.getD 0 0 < 256 ∧ (entryAt disk pos).units.getD 1 0 = 0 := by
  have hroom := hsees.room
  obtain ⟨n, hn⟩ : ∃ n, v.room - 56 = n + 2 := ⟨v.room - 58, by omega⟩
  have hmem : v.name = (List.range (n + 2)).map fun k => disk (pos + 56 + k) := by
    rw [View.name, hn]
    exact List.map_congr_left fun k _ => by rw [hsees.bytes, Nat.add_assoc]
  have hunits : (entryAt disk pos).units =
      (List.range 36).map fun k => leBytes (fun k => disk (pos + 56 + k)) (2 * k) 2 :=
    List.map_congr_left fun k _ => leBytes_congr fun j _ => by rw [Nat.add_assoc]
  rw [Entry.name, hunits, hmem]
  exact cname_iff (fun k => disk (pos + 56 + k)) n

/-- An entry in its place is kept exactly when it is plain. -/
theorem Sees.kept_iff_plain (hsees : Sees disk pos v)
    (hordered : (entryAt disk pos).start ≤ (entryAt disk pos).last) :
    Kept v (entryAt disk pos) ↔ (entryAt disk pos).Plain := by
  have hstart : v.start = (entryAt disk pos).start := hsees.le_eq 32 8
  have hlast : v.last = (entryAt disk pos).last := hsees.le_eq 40 8
  have hltlast : (entryAt disk pos).last < 2 ^ 64 := leBytes_lt _ _ 8
  have hoffset := @Nat.mod_eq_iff_lt (2 ^ 64) ((entryAt disk pos).start * 512) (by decide)
  have hsize := size_eq_iff hltlast hordered
  have hname := hsees.name_iff
  constructor
  · intro h
    have hkept := h.offset
    have hlen := h.size
    rw [hstart] at hkept
    rw [hstart, hlast] at hlen
    exact ⟨h.type, hoffset.mp hkept, hsize.mp hlen, hname.mp h.name⟩
  · intro h
    refine ⟨h.type, ?_, ?_, hname.mpr h.name⟩
    · rw [hstart]
      exact hoffset.mpr h.offset
    · rw [hstart, hlast]
      exact hsize.mpr h.size

/-- In a table with entries of 128 bytes, every entry is found in its place. -/
theorem forall₂_kept_iff (hsize : entrySize disk = 128)
    (hfits : startlba disk * 512 + numParts disk * 128 ≤ 2 ^ 64)
    (hordered : ∀ e ∈ dueEntries disk, e.start ≤ e.last) :
    List.Forall₂ Kept (seenEntries disk) (dueEntries disk) ↔ ∀ e ∈ dueEntries disk, e.Plain := by
  have hsees : ∀ i ∈ List.range (numParts disk),
      Sees disk (startlba disk * 512 + i * 128) (viewAt disk (startlba disk) i) :=
    fun i hi => viewAt_sees hfits (List.mem_range.mp hi)
  have hused : (List.range (numParts disk)).filter
        (fun i => (viewAt disk (startlba disk) i).type ≠ 0) =
      (List.range (numParts disk)).filter
        (fun i => (entryAt disk (startlba disk * 512 + i * 128)).type ≠ 0) :=
    List.filter_congr fun i hi => by rw [(hsees i hi).type_eq]
  have hdue : dueEntries disk = ((List.range (numParts disk)).filter
      (fun i => (entryAt disk (startlba disk * 512 + i * 128)).type ≠ 0)).map
        fun i => entryAt disk (startlba disk * 512 + i * 128) := by
    rw [dueEntries, hsize, List.filter_map]
    simp only [Function.comp_def]
  have hseen : seenEntries disk = ((List.range (numParts disk)).filter
      (fun i => (entryAt disk (startlba disk * 512 + i * 128)).type ≠ 0)).map
        (viewAt disk (startlba disk)) := by
    rw [seenEntries, List.filter_map, ← hused]
    simp only [Function.comp_def]
  rw [hdue] at hordered
  rw [hdue, hseen, List.forall₂_map_left_iff, List.forall₂_map_right_iff, List.forall₂_same,
    List.forall_mem_map]
  exact forall₂_congr fun i hi => (hsees i (List.mem_filter.mp hi).1).kept_iff_plain
    (hordered _ (List.mem_map_of_mem hi))

end Plain

/-! ## Small tables -/

/-- A disk with a table of one entry of 128 bytes in sector 2, for the sectors 34 to 40. -/
def oneEntry (entry : List (ℕ × UInt8)) : ℕ → UInt8 := fun k =>
  (([(512, 0x45), (513, 0x46), (514, 0x49), (515, 0x20), (516, 0x50), (517, 0x41), (518, 0x52),
    (519, 0x54), (584, 2), (592, 1), (596, 128), (1056, 34), (1064, 40)] ++
      entry.map fun x : ℕ × UInt8 => (1024 + x.1, x.2)).lookup k).getD 0

/-- A partition of an unknown type with the name `A`. -/
theorem msdScout_iff_unknown :
    HasGpt (oneEntry [(0, 1), (56, 0x41)]) ∧
    ∃ mounted ps, msdScout (oneEntry [(0, 1), (56, 0x41)]) (fun _ => .ok ()) true (fun _ => 0)
        (false, []) = .ok (mounted, [] ++ ps) ∧
      List.Forall₂ Describes ps (dueEntries (oneEntry [(0, 1), (56, 0x41)])) := by
  have hgpt : HasGpt (oneEntry [(0, 1), (56, 0x41)]) := by decide
  have hdue : dueEntries (oneEntry [(0, 1), (56, 0x41)]) =
      [⟨1, 34, 40, 0x41 :: List.replicate 35 0⟩] := by decide
  refine ⟨hgpt, (msdScout_iff hgpt _).mpr ⟨?_, Or.inr fun _ _ _ _ => rfl⟩⟩
  refine (forall₂_kept_iff (by decide) (by decide) (by rw [hdue]; decide)).mpr ?_
  rw [hdue, List.forall_mem_singleton]
  exact ⟨by decide, by decide, by decide, Or.inr ⟨by decide, by decide⟩⟩

/-- An EFI system partition with the name `EFI`. -/
def systemPartition : List (ℕ × UInt8) :=
  [(0, 0x28), (1, 0x73), (2, 0x2a), (3, 0xc1), (4, 0x1f), (5, 0xf8), (6, 0xd2), (7, 0x11),
    (8, 0xba), (9, 0x4b), (11, 0xa0), (12, 0xc9), (13, 0x3e), (14, 0xc9), (15, 0x3b),
    (56, 0x45), (58, 0x46), (60, 0x49)]

/-- It is registered with another type and another name. -/
theorem msdScout_system_partition :
    HasGpt (oneEntry systemPartition) ∧
    (dueEntries (oneEntry systemPartition)).map (fun e => (guid2parttype e.type, e.name)) =
      [(.efiSystemPartition, [0x45, 0x46, 0x49])] ∧
    msdScout (oneEntry systemPartition) (fun _ => .ok ()) true (fun _ => 0) (false, []) =
      .ok (true, [⟨.other, 34 * 512, 7 * 512, [0x45]⟩]) :=
  ⟨by decide, by decide, eq_ok_of_toOption (by decide +kernel)⟩

end NeptunOS.Gpt
