import NeptunOS.Arch.CheckPages

/-!
# AHCI read commands (`modules/ahci/src/ahci.cc`)

`ahci_read` fills a free slot of a port: the command header, the FIS that goes to the drive, and
one entry of the region table for every sector. The highest byte of the address is taken from the
wrong place.

- `fillLoop_eq_ok`: the region table.
- `lbaOf_fisOf`: the address that the drive is told.
- `ahciBuild_iff`: when the command is the request.
-/

namespace NeptunOS.Ahci

open Function Stepwise Paging

/-! ## The model -/

/-- `fis_reg_h2d`, the fields that are set. -/
structure Fis where
  type : ℕ
  cmdCtl : ℕ
  cmd : ℕ
  lba0 : ℕ
  lba1 : ℕ
  lba2 : ℕ
  device : ℕ
  lba3 : ℕ
  lba4 : ℕ
  lba5 : ℕ
  count : ℕ
deriving DecidableEq, Repr

/-- `prdt_entry`; `bytes` is one less than the length of the region. -/
structure PrdtEntry where
  dataBase : ℕ
  bytes : ℕ
  ioc : Bool
deriving DecidableEq, Repr

/-- `cmd_table`. -/
structure CmdTable where
  fis : Fis
  entries : ℕ → PrdtEntry

/-- `cmd_hdr`. -/
structure CmdHdr where
  cmdFisLen : ℕ
  write : Bool
  prdtlen : ℕ
deriving DecidableEq, Repr

/-- A port with its command list; every header has a table of its own. -/
structure Port where
  cmdIssue : BitVec 32
  sataActive : BitVec 32
  hdrs : ℕ → CmdHdr
  tables : ℕ → CmdTable

/-- Header and table of one slot. -/
def Port.install (p : Port) (slot : ℕ) (hdr : CmdHdr) (tbl : CmdTable) : Port :=
  { p with hdrs := update p.hdrs slot hdr, tables := update p.tables slot tbl }

@[simp] theorem Port.install_hdrs (p : Port) (slot : ℕ) (hdr : CmdHdr) (tbl : CmdTable) :
    (p.install slot hdr tbl).hdrs slot = hdr := by
  simp [Port.install]

@[simp] theorem Port.install_tables (p : Port) (slot : ℕ) (hdr : CmdHdr) (tbl : CmdTable) :
    (p.install slot hdr tbl).tables slot = tbl := by
  simp [Port.install]

/-- `PRDTL`. -/
def prdtl : ℕ := 4080

/-- `alloc_cmdslot(r, port)`. -/
def allocCmdslot (p : Port) : ℕ :=
  ((List.range 32).find? fun i => !(p.cmdIssue ||| p.sataActive).getLsbD i).getD (2 ^ 32 - 1)

/-- The FIS of `ahci_read`. -/
def fisOf (lba sectors : ℕ) : Fis where
  type := 0x27
  cmdCtl := 1
  cmd := 0x25
  lba0 := (lba >>> 0) &&& 0xff
  lba1 := (lba >>> 8) &&& 0xff
  lba2 := (lba >>> 16) &&& 0xff
  device := 1 <<< 6
  lba3 := (lba >>> 24) &&& 0xff
  lba4 := (lba >>> 32) &&& 0xff
  lba5 := (lba >>> 48) &&& 0xff
  count := sectors % 2 ^ 16

/-- The loop of `ahci_read`, for `sectors` more sectors at `into`. The page at `into` is mapped, so
that reading from it before changes nothing. -/
def fillLoop (m : ℕ → ℕ → ℕ) (cr3 : ℕ) :
    ℕ → ℕ → ℕ → (ℕ → PrdtEntry) → Except Halt ((ℕ → PrdtEntry) × ℕ)
  | 0, j, _, entries => .ok (entries, j)
  | sectors + 1, j, into, entries =>
    if pagingLookup m cr3 into = minusOne then
      .error (.assertion "paging_lookup(into) != -1ull")
    else
      fillLoop m cr3 sectors (j + 1) (wadd into 512)
        (update entries j ⟨pagingLookup m cr3 into, 511, false⟩)

/-- `create_cmd(tbl)` of `ahci_read`: the table and `prdtl`. -/
def createCmd (m : ℕ → ℕ → ℕ) (cr3 lba sectors into : ℕ) (tbl : CmdTable) :
    Except Halt (CmdTable × ℕ) := do
  let (entries, j) ← fillLoop m cr3 sectors 0 into tbl.entries
  let last := (j + (2 ^ 32 - 1)) % 2 ^ 32
  return (⟨fisOf lba sectors, update entries last { entries last with ioc := true }⟩,
    sectors % 2 ^ 32)

/-- `ahci_read(dev, lba, sectors, into)` up to the command, which is in the returned slot. -/
def ahciBuild (m : ℕ → ℕ → ℕ) (cr3 : ℕ) (isMsd : Bool) (p : Port) (lba sectors into : ℕ) :
    Except Halt (ℕ × Port) :=
  if ¬ isMsd then .error (.assertion "dev.subsys == DevmgrSubsys::MSD")
  else if into &&& 511 ≠ 0 then .error (.assertion "((u64)into & 511) == 0")
  else if ¬ sectors < prdtl then .error (.assertion "sectors < PRDTL")
  else if 32 ≤ allocCmdslot p then .error (.exception "access behind the command list")
  else do
    let slot := allocCmdslot p
    let (tbl, len) ← createCmd m cr3 lba sectors into (p.tables slot)
    return (slot, p.install slot ⟨20 / 4, false, len % 2 ^ 16⟩ tbl)

/-! ## The specification -/

/-- The address in a FIS. -/
def Fis.lba (f : Fis) : ℕ :=
  f.lba0 + f.lba1 * 2 ^ 8 + f.lba2 * 2 ^ 16 + f.lba3 * 2 ^ 24 + f.lba4 * 2 ^ 32 + f.lba5 * 2 ^ 40

/-- The command reads `sectors` sectors from `lba` on to the pages behind `into`. -/
structure Decodes (m : ℕ → ℕ → ℕ) (cr3 : ℕ) (hdr : CmdHdr) (tbl : CmdTable)
    (lba sectors into : ℕ) : Prop where
  lba : tbl.fis.lba = lba
  count : tbl.fis.count = sectors
  prdtlen : hdr.prdtlen = sectors
  region : ∀ j < sectors, Paging.translate m cr3 (into + 512 * j) = some (tbl.entries j).dataBase ∧
    (tbl.entries j).bytes + 1 = 512

/-- Some slot of the port is free. -/
def HasSlot (p : Port) : Prop := ∃ i < 32, (p.cmdIssue ||| p.sataActive).getLsbD i = false

/-! ## The command -/

section Command

variable {m : ℕ → ℕ → ℕ} {cr3 lba sectors into j n : ℕ} {entries : ℕ → PrdtEntry} {p : Port}

/-- The drive is told the address modulo `2 ^ 40`. -/
theorem lbaOf_fisOf (hlba : lba < 2 ^ 48) : (fisOf lba sectors).lba = lba % 2 ^ 40 := by
  have hand : ∀ x, x &&& 0xff = x % 2 ^ 8 := fun x => Nat.and_two_pow_sub_one_eq_mod x 8
  simp only [Fis.lba, fisOf, hand, Nat.shiftRight_eq_div_pow]
  omega

/-- The entries that the loop leaves. -/
def filled (m : ℕ → ℕ → ℕ) (cr3 n j into : ℕ) (entries : ℕ → PrdtEntry) : ℕ → PrdtEntry :=
  fun i =>
    if j ≤ i ∧ i < j + n then ⟨pagingLookup m cr3 (wadd into (512 * (i - j))), 511, false⟩
    else entries i

theorem filled_succ (hinto : into < 2 ^ 64) : filled m cr3 n (j + 1) (wadd into 512)
        (update entries j ⟨pagingLookup m cr3 into, 511, false⟩) =
      filled m cr3 (n + 1) j into entries := by
  funext i
  simp only [filled]
  by_cases hij : i = j
  · rw [hij, if_neg (by omega), if_pos (by omega), update_self, Nat.sub_self, Nat.mul_zero,
      wadd_zero hinto]
  · by_cases hin : j + 1 ≤ i ∧ i < j + 1 + n
    · have hstep : 512 + 512 * (i - (j + 1)) = 512 * (i - j) := by omega
      rw [if_pos hin, if_pos (by omega), wadd_assoc, hstep]
    · rw [if_neg hin, if_neg (by omega), update_of_ne hij]

/-- The loop fills one entry per sector, or halts at a sector that is not found. -/
theorem fillLoop_eq_ok {r : (ℕ → PrdtEntry) × ℕ} (hinto : into < 2 ^ 64) :
    fillLoop m cr3 n j into entries = .ok r ↔
      (∀ i < n, pagingLookup m cr3 (wadd into (512 * i)) ≠ minusOne) ∧
        r = (filled m cr3 n j into entries, j + n) := by
  induction n generalizing j into entries with
  | zero =>
    have hnone : filled m cr3 0 j into entries = entries := by
      funext i
      exact if_neg (by omega)
    rw [fillLoop, hnone]
    exact ⟨fun h => ⟨fun i hi => absurd hi (Nat.not_lt_zero i), (Except.ok.inj h).symm⟩,
      fun h => by rw [h.2]; rfl⟩
  | succ n ih =>
    rw [fillLoop]
    by_cases hfound : pagingLookup m cr3 into = minusOne
    · rw [if_pos hfound]
      refine ⟨fun h => (nomatch h), fun h => absurd hfound ?_⟩
      have h0 := h.1 0 (Nat.succ_pos n)
      rwa [Nat.mul_zero, wadd_zero hinto] at h0
    · have hshift : ∀ i, wadd (wadd into 512) (512 * i) = wadd into (512 * (i + 1)) := by
        intro i
        rw [wadd_assoc, Nat.mul_succ, Nat.add_comm]
      rw [if_neg hfound, ih (wadd_lt _ _), filled_succ hinto, Nat.add_right_comm,
        Nat.forall_lt_succ_left, Nat.mul_zero, wadd_zero hinto]
      simp only [hshift, hfound, ne_eq, not_false_eq_true, true_and]
      rfl

theorem allocCmdslot_lt : ¬ 32 ≤ allocCmdslot p ↔ HasSlot p := by
  rw [allocCmdslot, HasSlot]
  cases hfind : (List.range 32).find? fun i => !(p.cmdIssue ||| p.sataActive).getLsbD i with
  | none =>
    have hbusy := List.find?_eq_none.mp hfind
    refine ⟨fun h => absurd (by decide) h, ?_⟩
    rintro ⟨i, hi, hfree⟩
    exact absurd (by rw [hfree]; rfl) (hbusy i (List.mem_range.mpr hi))
  | some i =>
    have hi := List.mem_range.mp (List.mem_of_find?_eq_some hfind)
    have hfree := List.find?_some hfind
    exact ⟨fun _ => ⟨i, hi, by simpa using hfree⟩, fun _ => Nat.not_le.mpr hi⟩

/-- The table of the command; its last entry raises the interrupt. -/
def builtTable (m : ℕ → ℕ → ℕ) (cr3 lba sectors into : ℕ) (tbl : CmdTable) : CmdTable where
  fis := fisOf lba sectors
  entries := update (filled m cr3 sectors 0 into tbl.entries) (sectors - 1)
    ⟨pagingLookup m cr3 (wadd into (512 * (sectors - 1))), 511, true⟩

theorem builtTable_entry {tbl : CmdTable} (hj : j < sectors) :
    (builtTable m cr3 lba sectors into tbl).entries j =
      ⟨pagingLookup m cr3 (wadd into (512 * j)), 511, decide (j = sectors - 1)⟩ := by
  unfold builtTable
  dsimp only
  by_cases hlast : j = sectors - 1
  · rw [hlast, update_self, decide_eq_true rfl]
  · rw [update_of_ne hlast, filled, if_pos (by omega), Nat.sub_zero, decide_eq_false hlast]

theorem createCmd_eq_ok {tbl : CmdTable} {r : CmdTable × ℕ} (hsectors : 0 < sectors)
    (hlt : sectors < 2 ^ 32) (hinto : into < 2 ^ 64) :
    createCmd m cr3 lba sectors into tbl = .ok r ↔
      (∀ i < sectors, pagingLookup m cr3 (wadd into (512 * i)) ≠ minusOne) ∧
        r = (builtTable m cr3 lba sectors into tbl, sectors) := by
  have hlast : (0 + sectors + (2 ^ 32 - 1)) % 2 ^ 32 = sectors - 1 := by omega
  have hentry : filled m cr3 sectors 0 into tbl.entries (sectors - 1) =
      ⟨pagingLookup m cr3 (wadd into (512 * (sectors - 1))), 511, false⟩ := by
    rw [filled, if_pos (by omega), Nat.sub_zero]
  rw [createCmd, bind_eq_ok]
  constructor
  · rintro ⟨a, hfill, hr⟩
    obtain ⟨hfound, rfl⟩ := (fillLoop_eq_ok hinto).mp hfill
    refine ⟨hfound, ?_⟩
    rw [← Except.ok.inj hr]
    simp only [hlast, hentry, Nat.mod_eq_of_lt hlt, builtTable]
  · rintro ⟨hfound, rfl⟩
    refine ⟨_, (fillLoop_eq_ok hinto).mpr ⟨hfound, rfl⟩, ?_⟩
    simp only [hlast, hentry, Nat.mod_eq_of_lt hlt]
    rfl

/-- An aligned request of a legal size is built when a slot is free and its sectors are found. -/
theorem ahciBuild_eq_ok {r : ℕ × Port} (hsectors : 1 ≤ sectors ∧ sectors ≤ 4079)
    (haligned : into % 512 = 0) (hinto : into < 2 ^ 64) :
    ahciBuild m cr3 true p lba sectors into = .ok r ↔
      HasSlot p ∧ (∀ i < sectors, pagingLookup m cr3 (wadd into (512 * i)) ≠ minusOne) ∧
        r = (allocCmdslot p, p.install (allocCmdslot p) ⟨5, false, sectors⟩
          (builtTable m cr3 lba sectors into (p.tables (allocCmdslot p)))) := by
  have hmask : into &&& 511 = 0 := (Nat.and_two_pow_sub_one_eq_mod into 9).trans haligned
  have hlimit : sectors < prdtl := Nat.lt_succ_of_le hsectors.2
  have hcreate := fun t => @createCmd_eq_ok m cr3 lba sectors into (p.tables (allocCmdslot p)) t
    hsectors.1 (by omega) hinto
  rw [ahciBuild, if_neg (not_not_intro rfl), if_neg (not_not_intro hmask),
    if_neg (not_not_intro hlimit), ← allocCmdslot_lt]
  by_cases hslot : 32 ≤ allocCmdslot p
  · rw [if_pos hslot]
    exact ⟨fun h => (nomatch h), fun h => absurd hslot h.1⟩
  · rw [if_neg hslot, bind_eq_ok]
    constructor
    · rintro ⟨t, ht, hr⟩
      obtain ⟨hfound, rfl⟩ := (hcreate t).mp ht
      refine ⟨hslot, hfound, ?_⟩
      rw [← Except.ok.inj hr, Nat.mod_eq_of_lt (by omega : sectors < 2 ^ 16)]
    · rintro ⟨-, hfound, rfl⟩
      refine ⟨_, (hcreate _).mpr ⟨hfound, rfl⟩, ?_⟩
      dsimp only
      rw [Nat.mod_eq_of_lt (by omega : sectors < 2 ^ 16)]
      rfl

theorem translate_lt {v x : ℕ} (h : Paging.translate m cr3 v = some x) : x < 2 ^ 52 := by
  obtain ⟨es, -, rfl⟩ := Option.map_eq_some_iff.mp h
  dsimp only
  have hshift : walkShift es.length = 12 ∨ walkShift es.length = 21 ∨
      walkShift es.length = 30 := by
    unfold walkShift
    split <;> simp
  rcases hshift with h | h | h <;> rw [h] <;> omega

/-- The command that `ahci_read` builds is the request exactly when the address has 40 bits, a slot
is free, and `paging_lookup` finds the physical address of every sector of the buffer. -/
theorem ahciBuild_iff (hlba : lba < 2 ^ 48) (hsectors : 1 ≤ sectors ∧ sectors ≤ 4079)
    (haligned : into % 512 = 0) (hbuf : into + 512 * sectors ≤ 2 ^ 64) :
    (∃ slot p', ahciBuild m cr3 true p lba sectors into = .ok (slot, p') ∧
        Decodes m cr3 (p'.hdrs slot) (p'.tables slot) lba sectors into) ↔
      lba < 2 ^ 40 ∧ HasSlot p ∧
        ∀ j < sectors, Paging.translate m cr3 (into + 512 * j) =
          some (pagingLookup m cr3 (into + 512 * j)) := by
  have hplace : ∀ j < sectors, wadd into (512 * j) = into + 512 * j :=
    fun j hj => wadd_of_lt (by omega)
  have hbuild := fun r => @ahciBuild_eq_ok m cr3 lba sectors into p r hsectors haligned (by omega)
  have hfis := @lbaOf_fisOf lba sectors hlba
  constructor
  · rintro ⟨slot, p', hrun, hdecodes⟩
    obtain ⟨hslot, -, hr⟩ := (hbuild _).mp hrun
    obtain ⟨rfl, rfl⟩ := Prod.mk.inj hr
    rw [Port.install_hdrs, Port.install_tables] at hdecodes
    refine ⟨?_, hslot, fun j hj => ?_⟩
    · have := hfis.symm.trans hdecodes.lba
      omega
    · rw [(hdecodes.region j hj).1, builtTable_entry hj, hplace j hj]
  · rintro ⟨hsmall, hslot, hfound⟩
    have hne : ∀ j < sectors, pagingLookup m cr3 (wadd into (512 * j)) ≠ minusOne := by
      intro j hj
      have := translate_lt (hfound j hj)
      rw [hplace j hj]
      unfold minusOne
      omega
    refine ⟨_, _, (hbuild _).mpr ⟨hslot, hne, rfl⟩, ?_⟩
    rw [Port.install_hdrs, Port.install_tables]
    refine ⟨hfis.trans (Nat.mod_eq_of_lt hsmall), Nat.mod_eq_of_lt (by omega), rfl, ?_⟩
    intro j hj
    rw [builtTable_entry hj, hplace j hj]
    exact ⟨hfound j hj, rfl⟩

end Command

/-! ## A small machine -/

/-- Page tables that map the page at `0x1000` to the frame at `0x5000`. -/
def onePage (t i : ℕ) : ℕ :=
  if t = hhdm + 0x1000 ∧ i = 0 then 0x2003
  else if t = hhdm + 0x2000 ∧ i = 0 then 0x3003
  else if t = hhdm + 0x3000 ∧ i = 0 then 0x4003
  else if t = hhdm + 0x4000 ∧ i = 1 then 0x5003
  else 0

section Lookup

variable {m : ℕ → ℕ → ℕ} {cr3 v : ℕ} {es : List ℕ}

/-- Without 1 GiB pages a walk ends in a page directory or in a page table. -/
theorem walk_length (h : NoGiant m cr3 v) (hw : walk m cr3 v = some es) :
    es.length = 3 ∨ es.length = 4 := by
  have hroot := h [addrPml4i v] (by simp) (by simp) ⟨[addrPti v, addrPdi v, addrPdpi v], rfl⟩
  have hnext := h [addrPdpi v, addrPml4i v] (by simp) (by simp) ⟨[addrPti v, addrPdi v], rfl⟩
  rw [walk_eq, indices] at hw
  simp only [walkAt] at hw
  split_ifs at hw <;> simp_all
  all_goals
    rw [← hw]
    simp

/-- **Addresses for the drive.** In a page of 4 KiB, `paging_lookup` finds the physical address
exactly when the leaf has no bit between the address and NX; in one of 2 MiB, when the address has
47 bits and the nine bits below it are clear. -/
theorem lookup_translates_iff (h : NoGiant m cr3 v) (hw : walk m cr3 v = some es) :
    Paging.translate m cr3 v = some (pagingLookup m cr3 v) ↔
      if es.length = 3 then es.getLastD 0 % 2 ^ 52 < 2 ^ 47 ∧ es.getLastD 0 / 2 ^ 12 % 2 ^ 9 = 0
      else es.getLastD 0 % 2 ^ 63 < 2 ^ 52 := by
  rw [pagingLookup_eq h, Paging.translate, hw, Option.map_some, Option.some_inj, lookupOf]
  dsimp only
  generalize es.getLastD 0 = e
  rcases walk_length h hw with hlen | hlen
  · have htable : tableOf e % 2 ^ 47 = e / 2 ^ 12 * 2 ^ 12 % 2 ^ 47 := by
      rw [tableOf, ← phys_eq_mod, phys_virt]
    rw [if_pos hlen, if_pos hlen, phys_eq_mod, hlen, show walkShift 3 = 21 from rfl]
    unfold wadd
    omega
  · rw [if_neg (by omega), if_neg (by omega), hlen, show walkShift 4 = 12 from rfl]
    unfold wadd
    omega

theorem lookup_translates_page : Paging.translate onePage (hhdm + 0x1000) 0x1234 =
    some (pagingLookup onePage (hhdm + 0x1000) 0x1234) := by
  have hw : walk onePage (hhdm + 0x1000) 0x1234 = some [0x2003, 0x3003, 0x4003, 0x5003] := by decide
  refine (lookup_translates_iff ?_ hw).mpr (by decide)
  intro σ hσ hlen hs _
  rcases suffix_path_cases hs hσ hlen with rfl | rfl <;> decide

end Lookup

/-- A port without commands. -/
def idlePort : Port where
  cmdIssue := 0
  sataActive := 0
  hdrs _ := ⟨0, false, 4080⟩
  tables _ := ⟨⟨0, 0, 0, 0, 0, 0, 0, 0, 0, 0, 0⟩, fun _ => ⟨0, 0, false⟩⟩

theorem idlePort_hasSlot : HasSlot idlePort := ⟨0, by decide, by decide⟩

/-- Two sectors from sector 2048 on. -/
theorem ahciBuild_iff_page :
    ∃ slot p', ahciBuild onePage (hhdm + 0x1000) true idlePort 2048 2 0x1000 = .ok (slot, p') ∧
      Decodes onePage (hhdm + 0x1000) (p'.hdrs slot) (p'.tables slot) 2048 2 0x1000 :=
  (ahciBuild_iff (by decide) (by decide) (by decide) (by decide)).mpr
    ⟨by decide, idlePort_hasSlot, by decide⟩

/-- Sector `2 ^ 40` is read as sector 0. -/
theorem ahciBuild_high_sector :
    HasSlot idlePort ∧
    Paging.translate onePage (hhdm + 0x1000) 0x1000 = some 0x5000 ∧
    (ahciBuild onePage (hhdm + 0x1000) true idlePort (2 ^ 40) 1 0x1000).toOption.map
      (fun r => ((r.2.tables r.1).fis.lba, (r.2.tables r.1).fis.count, (r.2.hdrs r.1).prdtlen,
        (r.2.tables r.1).entries 0)) = some (0, 1, 1, ⟨0x5000, 511, true⟩) :=
  ⟨idlePort_hasSlot, by decide, by decide⟩

end NeptunOS.Ahci
