import NeptunOS.Util.Ustar

/-!
# `ustar_lookup`

The other walk over an archive. It reads the size field together with its terminator,
steps over the data but not over the header, and compares names only as far as both go.

- `Agreeable`: the archives and names where none of this matters.
- `ustar_lookup_agrees`: there, and apart from steps to places that are no headers only
  there, the result is the first entry of `ustar_list` with the name.
-/

namespace NeptunOS

namespace Ustar

open Stepwise

/-! ## The source -/

/-- The loop of `ustar_lookup`. `strlen` counts in a `u8`, so that at most 255 characters
are compared. -/
def lookupLoop (mem : Mem) (stop : ℕ) (file : List UInt8) : ℕ → ℕ → Except Halt (Option File)
  | 0, _ => .error .endless
  | fuel + 1, h =>
    if h < stop ∧ strncmp (bytesAt mem (h + 257) 6) magic 5 = 0 then
      let size := oct2bin (bytesAt mem (h + 124) 12)
      if strncmp file (bytesAt mem h 256) (file.length % 2 ^ 8) = 0 then
        .ok (some ⟨h, size, h + 512⟩)
      else lookupLoop mem stop file fuel (wadd h (512 * blocks size))
    else .ok none

/-- `ustar_lookup(archive, archivesize, file)`, for at most `fuel` rounds. -/
def lookup (mem : Mem) (archive archivesize : ℕ) (file : List UInt8) (fuel : ℕ) :
    Except Halt (Option File) :=
  lookupLoop mem (wadd archive archivesize) file fuel archive

/-! ## What it should return -/

/-- The name of the entry, as a string in memory. -/
def Named (mem : Mem) (file : List UInt8) (e : File) : Prop :=
  bytesAt mem e.name (file.length + 1) = file ++ [0]

instance (mem : Mem) (file : List UInt8) : DecidablePred (Named mem file) :=
  fun _ => inferInstanceAs (Decidable (_ = _))

/-- The lookup comes to an end with the first entry of that name. -/
def Finds (mem : Mem) (archive archivesize : ℕ) (file : List UInt8) (es : List File) : Prop :=
  ∃ fuel, lookup mem archive archivesize file fuel = .ok (es.find? (Named mem file))

/-- The size that the lookup reads: one more digit, the terminator. -/
def Member.misread (f : Member) : ℕ :=
  (f.data.length * 8 + (f.attrs 135).toNat + (2 ^ 32 - 48)) % 2 ^ 32

/-- The names agree as far as both go. -/
def Matches (file : List UInt8) (f : Member) : Prop :=
  strncmp file f.name (file.length % 2 ^ 8) = 0

instance (file : List UInt8) : DecidablePred (Matches file) :=
  fun _ => inferInstanceAs (Decidable (_ = _))

/-- The size as it is read leads to the next header. -/
def Member.StepsRight (f : Member) : Prop := blocks f.misread = blocks f.data.length + 1

/-- Every member in front of the first one that matches steps right, and that one has the
name and, as it is read, the size. -/
def Agreeable (file : List UInt8) : List Member → Prop
  | [] => True
  | f :: files =>
    if Matches file f then f.name = file ∧ f.misread = f.data.length
    else f.StepsRight ∧ Agreeable file files

/-- Some member in front of the first one that matches leads to a place in the data or
behind the next header. -/
def Strays (file : List UInt8) : List Member → Prop
  | [] => False
  | f :: files =>
    ¬ Matches file f ∧
      (blocks f.misread ≠ 0 ∧ ¬ f.StepsRight ∨ f.StepsRight ∧ Strays file files)

/-! ## Strings in memory -/

section

variable {mem : Mem} {a : ℕ} {xs ys file : List UInt8} {f : Member} {files : List Member}

theorem bytesAt_add (p m n : ℕ) :
    bytesAt mem p (m + n) = bytesAt mem p m ++ bytesAt mem (p + m) n := by
  rw [bytesAt, List.range_add, List.map_append, List.map_map]
  refine congrArg (_ ++ ·) (List.map_congr_left fun i _ => ?_)
  rw [Function.comp_apply, Nat.add_assoc]

/-- There is one string at an address. -/
theorem loaded_string_unique (hx : 0 ∉ xs) (hy : 0 ∉ ys) (h : Loaded mem a (xs ++ [0]))
    (h' : Loaded mem a (ys ++ [0])) : xs = ys := by
  induction xs generalizing a ys with
  | nil =>
    cases ys with
    | nil => rfl
    | cons y ys =>
      have h0 : mem (a + 0) = 0 := h 0 0 rfl
      have hy0 : mem (a + 0) = y := h' 0 y rfl
      exact absurd (hy0.symm.trans h0) fun he => hy (he ▸ List.mem_cons_self)
  | cons x xs ih =>
    cases ys with
    | nil =>
      have h0 : mem (a + 0) = 0 := h' 0 0 rfl
      have hx0 : mem (a + 0) = x := h 0 x rfl
      exact absurd (hx0.symm.trans h0) fun he => hx (he ▸ List.mem_cons_self)
    | cons y ys =>
      have hx0 : mem (a + 0) = x := h 0 x rfl
      have hy0 : mem (a + 0) = y := h' 0 y rfl
      have hx' : Loaded mem a ([x] ++ (xs ++ [0])) := h
      have hy' : Loaded mem a ([y] ++ (ys ++ [0])) := h'
      have htail := ih (fun hm => hx (List.mem_cons_of_mem x hm))
        (fun hm => hy (List.mem_cons_of_mem y hm)) (loaded_append.mp hx').2
        (loaded_append.mp hy').2
      rw [hx0.symm.trans hy0, htail]

theorem loaded_bytesAt (p n : ℕ) : Loaded mem p (bytesAt mem p n) := by
  intro i b hb
  rw [bytesAt, List.getElem?_map] at hb
  obtain ⟨j, hj, rfl⟩ := Option.map_eq_some_iff.mp hb
  obtain ⟨hlt, rfl⟩ := List.getElem?_eq_some_iff.mp hj
  rw [List.getElem_range]

/-- An entry has the name of its member. -/
theorem named_iff (hfile : 0 ∉ file) (h : Loaded mem a f.bytes) {n b : ℕ} :
    Named mem file ⟨a, n, b⟩ ↔ f.name = file := by
  have hname := loaded_name h
  constructor
  · intro hnamed
    have hload := @loaded_bytesAt mem a (file.length + 1)
    rw [show bytesAt mem a (file.length + 1) = file ++ [0] from hnamed] at hload
    exact loaded_string_unique f.name_zero hfile hname hload
  · rintro rfl
    have hread := bytesAt_eq hname
    rwa [List.length_append, List.length_singleton] at hread

/-- What follows the terminator is not compared. -/
theorem strncmpLoop_append (k : ℕ) (s xs ys : List UInt8) :
    strncmpLoop k s (xs ++ 0 :: ys) = strncmpLoop k s xs := by
  induction k generalizing s xs with
  | zero => rfl
  | succ k ih =>
    cases s with
    | nil => cases xs <;> rfl
    | cons a s =>
      cases xs with
      | nil =>
        rw [List.nil_append, strncmpLoop, if_pos (.inr rfl)]
        rfl
      | cons b xs => rw [List.cons_append, strncmpLoop, strncmpLoop, ih]

theorem matches_iff (h : Loaded mem a f.bytes) :
    strncmp file (bytesAt mem a 256) (file.length % 2 ^ 8) = 0 ↔ Matches file f := by
  have hle := f.name_le
  have hread := bytesAt_eq (loaded_name h)
  have hsplit : bytesAt mem a 256 =
      f.name ++ 0 :: bytesAt mem (a + (f.name.length + 1)) (255 - f.name.length) := by
    rw [show 256 = f.name.length + 1 + (255 - f.name.length) by omega, bytesAt_add]
    rw [List.length_append, List.length_singleton] at hread
    rw [hread, List.append_assoc]
    rfl
  have hhead : (f.name ++ 0 :: bytesAt mem (a + (f.name.length + 1))
      (255 - f.name.length)).headD 0 = f.name.headD 0 := by
    cases hn : f.name with
    | nil => exact absurd hn f.name_ne
    | cons x xs => rfl
  rw [Matches, hsplit, strncmp, strncmp, hhead, strncmpLoop_append]

/-- A name matches itself. -/
theorem matches_self : Matches f.name f := by
  have hle := f.name_le
  have hpos := List.length_pos_iff.mpr f.name_ne
  rw [Matches, Nat.mod_eq_of_lt (by omega),
    strncmp_eq_zero f.name_zero f.name_zero (Nat.le_refl _) (Nat.le_refl _)]
  exact ⟨by omega, rfl⟩

theorem misread_eq (h : Loaded mem a f.bytes) : oct2bin (bytesAt mem (a + 124) 12) = f.misread := by
  have hlast : bytesAt mem (a + 124 + 11) 1 = [f.attrs 135] := by
    have hbyte := loaded_header h (i := 135) (by decide)
    rw [Member.header, if_neg (by decide), if_neg (by decide), if_neg (by decide)] at hbyte
    rw [bytesAt, List.range_one, List.map_singleton, Nat.add_zero, hbyte]
  have hsize := size_read h
  unfold oct2bin at hsize ⊢
  rw [show 12 = 11 + 1 from rfl, bytesAt_add, hlast, List.foldl_append, hsize,
    List.foldl_cons, List.foldl_nil, Member.misread]

/-! ## The loop -/

variable {stop fuel zeros : ℕ}

theorem lookupLoop_member (h : Loaded mem a f.bytes) (hstop : a < stop) :
    lookupLoop mem stop file (fuel + 1) a =
      if Matches file f then .ok (some ⟨a, f.misread, a + 512⟩)
      else lookupLoop mem stop file fuel (wadd a (512 * blocks f.misread)) := by
  rw [lookupLoop, if_pos ⟨hstop, magic_read h⟩, misread_eq h]
  exact if_congr (matches_iff h) rfl rfl

theorem lookupLoop_zeros (h : Loaded mem a (List.replicate (512 * (zeros + 1)) 0)) :
    lookupLoop mem stop file (fuel + 1) a = .ok none := by
  rw [lookupLoop, if_neg fun hcond => magic_zeros h hcond.2]

/-- A header that leads to itself is never left. -/
theorem lookupLoop_stuck (h : Loaded mem a f.bytes) (hstop : a < stop) (ha : a < 2 ^ 64)
    (hno : ¬ Matches file f) (hzero : blocks f.misread = 0) :
    lookupLoop mem stop file fuel a = .error .endless := by
  induction fuel with
  | zero => rfl
  | succ fuel ih =>
    rw [lookupLoop_member h hstop, if_neg hno, hzero, Nat.mul_zero, wadd, Nat.add_zero,
      Nat.mod_eq_of_lt ha, ih]

theorem le_of_mem_entries {e : File} (h : e ∈ entries a files) : a ≤ e.name := by
  induction files generalizing a with
  | nil => exact absurd h List.not_mem_nil
  | cons f files ih =>
    rcases List.mem_cons.mp h with rfl | hmem
    · exact Nat.le_refl a
    · exact Nat.le_trans (Nat.le_add_right _ _) (ih hmem)

theorem find_entries (hfile : 0 ∉ file) (h : Loaded mem a f.bytes) :
    (entries a (f :: files)).find? (Named mem file) =
      if f.name = file then some ⟨a, f.data.length, a + 512⟩
      else (entries (a + f.bytes.length) files).find? (Named mem file) := by
  rw [entries, List.find?_cons]
  by_cases hname : f.name = file
  · rw [if_pos hname, decide_eq_true ((named_iff hfile h).mpr hname)]
  · rw [if_neg hname, decide_eq_false fun hn => hname ((named_iff hfile h).mp hn)]

/-- The step to the next header, where it is right. -/
theorem stepsRight_wadd (hright : f.StepsRight) (hwrap : a + f.bytes.length < 2 ^ 64) :
    wadd a (512 * blocks f.misread) = a + f.bytes.length := by
  rw [hright, ← f.bytes_length, wadd_of_lt hwrap]

theorem lookupLoop_agrees (hfile : 0 ∉ file) (hload : Loaded mem a (archiveBytes zeros files))
    (hstop : stop = a + (archiveBytes zeros files).length) (hwrap : stop < 2 ^ 64)
    (hagree : Agreeable file files) :
    ∃ fuel, lookupLoop mem stop file fuel a =
      .ok ((entries a files).find? (Named mem file)) := by
  induction files generalizing a with
  | nil => exact ⟨1, lookupLoop_zeros hload⟩
  | cons f files ih =>
    obtain ⟨hmember, hrest⟩ := loaded_append.mp hload
    have hlen := f.bytes_length
    rw [archiveBytes, List.length_append] at hstop
    rw [Agreeable] at hagree
    rw [find_entries hfile hmember]
    by_cases hmatch : Matches file f
    · rw [if_pos hmatch] at hagree
      refine ⟨1, ?_⟩
      rw [lookupLoop_member hmember (by omega), if_pos hmatch, if_pos hagree.1, hagree.2]
    · rw [if_neg hmatch] at hagree
      have hname : f.name ≠ file := fun hname => hmatch (hname ▸ matches_self)
      obtain ⟨fuel, hfuel⟩ := ih hrest (by omega) hagree.2
      refine ⟨fuel + 1, ?_⟩
      rw [lookupLoop_member hmember (by omega), if_neg hmatch, if_neg hname,
        stepsRight_wadd hagree.1 (by omega), hfuel]

theorem agreeable_of_lookupLoop (hfile : 0 ∉ file) (hload : Loaded mem a (archiveBytes zeros files))
    (hstop : stop = a + (archiveBytes zeros files).length) (hwrap : stop < 2 ^ 64)
    (hfuel : lookupLoop mem stop file fuel a = .ok ((entries a files).find? (Named mem file))) :
    Agreeable file files ∨ Strays file files := by
  induction files generalizing a fuel with
  | nil => exact .inl trivial
  | cons f files ih =>
    obtain ⟨hmember, hrest⟩ := loaded_append.mp hload
    have hlen := f.bytes_length
    rw [archiveBytes, List.length_append] at hstop
    rw [Agreeable, Strays]
    rw [find_entries hfile hmember] at hfuel
    cases fuel with
    | zero => cases hfuel
    | succ fuel =>
      by_cases hmatch : Matches file f
      · rw [lookupLoop_member hmember (by omega), if_pos hmatch] at hfuel
        have hfound := Except.ok.inj hfuel
        rw [if_pos hmatch]
        by_cases hname : f.name = file
        · rw [if_pos hname] at hfound
          exact .inl ⟨hname, (File.mk.inj (Option.some.inj hfound)).2.1⟩
        · -- the entry found would be one of the members behind
          rw [if_neg hname] at hfound
          have hge : a + f.bytes.length ≤ a :=
            le_of_mem_entries (List.mem_of_find?_eq_some hfound.symm)
          omega
      · have hname : f.name ≠ file := fun hname => hmatch (hname ▸ matches_self)
        rw [if_neg hmatch]
        by_cases hzero : blocks f.misread = 0
        · rw [lookupLoop_stuck hmember (by omega) (by omega) hmatch hzero] at hfuel
          cases hfuel
        · by_cases hright : f.StepsRight
          · rw [lookupLoop_member hmember (by omega), if_neg hmatch, if_neg hname,
              stepsRight_wadd hright (by omega)] at hfuel
            rcases ih hrest (by omega) hfuel with hagree | hstray
            · exact .inl ⟨hright, hagree⟩
            · exact .inr ⟨hmatch, .inr ⟨hright, hstray⟩⟩
          · exact .inr ⟨hmatch, .inl ⟨hzero, hright⟩⟩

/-- **Lookup and listing** agree on the archives and names where the misread sizes do not
matter, and on no others, except where a step leads to a place that is no header. -/
theorem ustar_lookup_agrees {grow : ℕ → Grow File} {v : Vec File} {es : List File}
    (hfile : 0 ∉ file) (hload : Loaded mem a (archiveBytes zeros files))
    (hwrap : a + (archiveBytes zeros files).length < 2 ^ 64)
    (hlist : list mem a (archiveBytes zeros files).length grow = .ok v) (hv : v.Filled es) :
    (Agreeable file files → Finds mem a (archiveBytes zeros files).length file es) ∧
    (Finds mem a (archiveBytes zeros files).length file es →
      Agreeable file files ∨ Strays file files) := by
  obtain rfl : es = entries a files := by
    rcases list_result grow hload hwrap with ⟨⟨v', hv', hf'⟩, -⟩ | ⟨hend, -⟩
    · rw [Except.ok.inj (hlist.symm.trans hv')] at hv
      exact hv.unique hf'
    · rw [hend] at hlist
      cases hlist
  unfold Finds lookup
  rw [wadd_of_lt hwrap]
  constructor
  · intro hagree
    exact lookupLoop_agrees hfile hload rfl hwrap hagree
  · rintro ⟨fuel, hfuel⟩
    exact agreeable_of_lookupLoop hfile hload rfl hwrap hfuel

end

theorem sample_misread (n : ℕ) (h : n < 2 ^ 31) :
    (sample n h).misread = (n * 8 + (2 ^ 32 - 48)) % 2 ^ 32 := by
  rw [Member.misread, sample, List.length_replicate]
  rfl

/-- A file of 100 bytes is stepped over as it should be: it is read as one of 752. -/
theorem ustar_lookup_agrees_absent :
    let files := [sample 100 (by decide)]
    ∃ v, list (tape 4096 1 files) 4096 (archiveBytes 1 files).length moving = .ok v ∧
      Finds (tape 4096 1 files) 4096 (archiveBytes 1 files).length [0x78]
        [⟨4096, 100, 4608⟩] := by
  intro files
  have hlen : (archiveBytes 1 files).length = 512 * 4 := by
    rw [archiveBytes, archiveBytes, List.length_append, sample_bytes_length,
      List.length_replicate]
    decide
  have hentries : entries 4096 files = [⟨4096, 100, 4608⟩] := by
    rw [entries, entries, sample, List.length_replicate]
  have hwrap : 4096 + (archiveBytes 1 files).length < 2 ^ 64 := by
    rw [hlen]
    decide
  have hagree : Agreeable [0x78] files := by
    rw [Agreeable, if_neg (by decide), Member.StepsRight, sample_misread, sample,
      List.length_replicate]
    exact ⟨by decide, trivial⟩
  obtain ⟨v, hv, hf⟩ := (list_iff moving (tape_loaded 4096 1 files) hwrap).mpr
    fun j hbig _ hlast => by
      have hone : files.length = 1 := rfl
      omega
  exact ⟨v, hv, (ustar_lookup_agrees (by decide) (tape_loaded 4096 1 files) hwrap hv
    (hentries ▸ hf)).1 hagree⟩

/-- A file of 600 bytes is found with a size of 4752. -/
theorem lookup_misreads_size :
    let files := [sample 600 (by decide)]
    lookup (tape 4096 1 files) 4096 (archiveBytes 1 files).length [0x6d] 1 =
        .ok (some ⟨4096, 4752, 4608⟩) ∧
      entries 4096 files = [⟨4096, 600, 4608⟩] ∧
      ¬ Finds (tape 4096 1 files) 4096 (archiveBytes 1 files).length [0x6d]
        (entries 4096 files) := by
  intro files
  have hmember := (loaded_append.mp (tape_loaded 4096 1 files)).1
  have hlen : (archiveBytes 1 files).length = 512 * 5 := by
    rw [archiveBytes, archiveBytes, List.length_append, sample_bytes_length,
      List.length_replicate]
    decide
  have hentries : entries 4096 files = [⟨4096, 600, 4608⟩] := by
    rw [entries, entries, sample, List.length_replicate]
  have hsize : (sample 600 (by decide)).misread = 4752 := by
    rw [sample_misread]
    decide
  have hname : (sample 600 (by decide)).name = [0x6d] := rfl
  have hround : ∀ fuel, lookup (tape 4096 1 files) 4096 (archiveBytes 1 files).length [0x6d]
      (fuel + 1) = .ok (some ⟨4096, 4752, 4608⟩) := by
    intro fuel
    rw [lookup, hlen, lookupLoop_member hmember (by decide), if_pos (by decide), hsize]
  refine ⟨hround 0, hentries, ?_⟩
  rintro ⟨fuel, hfuel⟩
  cases fuel with
  | zero => cases hfuel
  | succ fuel =>
    rw [hround, find_entries (by decide) hmember, if_pos hname, sample,
      List.length_replicate] at hfuel
    exact absurd (File.mk.inj (Option.some.inj (Except.ok.inj hfuel))).2.1 (by decide)

end Ustar

end NeptunOS
