import NeptunOS.Storage.Vector
import NeptunOS.Util.Mem
import NeptunOS.Util.Str

/-!
# `util/ustar.cc`

`ustar_list` steps from header to header of an archive in memory. `Archive.bytes` is the
standard layout; `ustar_list_iff` says that the list read back from it is the one that
was written. What limits it is the vector of the results, which has to be moved by a
loop with a `u32` counter.
-/

namespace NeptunOS

namespace Ustar

open Stepwise

/-! ## The source -/

/-- `oct2bin(str, size)`. The result is used as a `u32`. -/
def oct2bin (str : List UInt8) : ℕ :=
  str.foldl (fun n c => (n * 8 + c.toNat + (2 ^ 32 - 48)) % 2 ^ 32) 0

/-- `n` bytes of memory at `p`. -/
def bytesAt (mem : Mem) (p n : ℕ) : List UInt8 := (List.range n).map fun i => mem (p + i)

/-- "ustar". -/
def magic : List UInt8 := [0x75, 0x73, 0x74, 0x61, 0x72]

/-- `ustar_file`; `name` points into the header. -/
structure File where
  name : ℕ
  size : ℕ
  address : ℕ
deriving DecidableEq, Repr

/-- `align(size, 512) / 512` for a `u32`. -/
def blocks (size : ℕ) : ℕ := (size + 511) % 2 ^ 32 / 512

/-- The loop of `ustar_list`. `grow k` is the answer of the allocator to the vector when
it has `k` elements. -/
def listLoop (mem : Mem) (stop : ℕ) (grow : ℕ → Grow File) :
    ℕ → ℕ → Vec File → Except Halt (Vec File)
  | 0, _, _ => .error .endless
  | fuel + 1, h, ret =>
    if h < stop ∧ strncmp (bytesAt mem (h + 257) 6) magic 5 = 0 then do
      let size := oct2bin (bytesAt mem (h + 124) 11)
      let ret ← ret.emplaceBack (grow ret.size) ⟨h, size, h + 512⟩
      listLoop mem stop grow fuel (wadd h (512 * (blocks size + 1))) ret
    else .ok ret

/-- `ustar_list(archive, archivesize)`. Every round takes at least 512 bytes. -/
def list (mem : Mem) (archive archivesize : ℕ) (grow : ℕ → Grow File) :
    Except Halt (Vec File) :=
  listLoop mem (wadd archive archivesize) grow (archivesize / 512 + 2) archive
    ⟨none, 0, 0, fun _ => rfl⟩

/-! ## Archives -/

/-- The last `w` octal digits of `n`. -/
def octal : ℕ → ℕ → List UInt8
  | 0, _ => []
  | w + 1, n => octal w (n / 8) ++ [UInt8.ofNat (48 + n % 8)]

/-- A file to be archived, with the header bytes that say nothing about its name, size
or the format. -/
structure Member where
  name : List UInt8
  data : List UInt8
  attrs : ℕ → UInt8
  name_ne : name ≠ []
  name_le : name.length ≤ 99
  name_zero : (0 : UInt8) ∉ name
  size_lt : data.length < 2 ^ 31

/-- Byte `i` of the header. -/
def Member.header (f : Member) (i : ℕ) : UInt8 :=
  if i < 100 then f.name.getD i 0
  else if 124 ≤ i ∧ i < 135 then (octal 11 f.data.length).getD (i - 124) 0
  else if 257 ≤ i ∧ i < 263 then magic.getD (i - 257) 0
  else f.attrs i

/-- Bytes of padding behind `n` bytes of data. -/
def padding (n : ℕ) : ℕ := (n + 511) / 512 * 512 - n

/-- Header and padded data. -/
def Member.bytes (f : Member) : List UInt8 :=
  (List.range 512).map f.header ++ (f.data ++ List.replicate (padding f.data.length) 0)

/-- The archive, ended by `zeros + 1` zero blocks. -/
def archiveBytes (zeros : ℕ) : List Member → List UInt8
  | [] => List.replicate (512 * (zeros + 1)) 0
  | f :: files => f.bytes ++ archiveBytes zeros files

/-- What a list of the archive at `a` should return. -/
def entries (a : ℕ) : List Member → List File
  | [] => []
  | f :: files => ⟨a, f.data.length, a + 512⟩ :: entries (a + f.bytes.length) files

/-- The bytes are in memory at `a`. -/
def Loaded (mem : Mem) (a : ℕ) (bytes : List UInt8) : Prop :=
  ∀ i b, bytes[i]? = some b → mem (a + i) = b

/-- The entry leads to the name and the data of the member. -/
def Describes (mem : Mem) (f : Member) (e : File) : Prop :=
  Loaded mem e.name (f.name ++ [0]) ∧ e.size = f.data.length ∧ Loaded mem e.address f.data

section

variable {mem : Mem} {a p : ℕ} {xs ys : List UInt8}

theorem loaded_append :
    Loaded mem a (xs ++ ys) ↔ Loaded mem a xs ∧ Loaded mem (a + xs.length) ys := by
  constructor
  · intro h
    constructor
    · intro i b hb
      refine h i b ?_
      rw [List.getElem?_append_left (List.getElem?_eq_some_iff.mp hb).1]
      exact hb
    · intro i b hb
      rw [Nat.add_assoc]
      refine h _ b ?_
      rw [List.getElem?_append_right (Nat.le_add_right _ _), Nat.add_sub_cancel_left]
      exact hb
  · rintro ⟨hx, hy⟩ i b hb
    by_cases hi : i < xs.length
    · rw [List.getElem?_append_left hi] at hb
      exact hx i b hb
    · rw [List.getElem?_append_right (Nat.not_lt.mp hi)] at hb
      have := hy _ b hb
      rwa [Nat.add_assoc, Nat.add_sub_cancel' (Nat.not_lt.mp hi)] at this

/-- A field is read as what is in memory there. -/
theorem bytesAt_eq (h : Loaded mem p xs) : bytesAt mem p xs.length = xs := by
  refine List.ext_getElem (by simp [bytesAt]) fun i _ hi => ?_
  simp only [bytesAt, List.getElem_map, List.getElem_range]
  exact h i _ (List.getElem?_eq_getElem hi)

/-! ## Octal numbers -/

theorem octal_length (w : ℕ) : ∀ n, (octal w n).length = w := by
  induction w with
  | zero => exact fun _ => rfl
  | succ w ih =>
    intro n
    rw [octal, List.length_append, ih, List.length_singleton]

/-- The digits are added up again; nothing overflows on the way. -/
theorem oct2bin_octal (w : ℕ) : ∀ {n : ℕ}, n < 2 ^ 32 → oct2bin (octal w n) = n % 8 ^ w := by
  induction w with
  | zero =>
    intro n _
    rw [pow_zero, Nat.mod_one]
    rfl
  | succ w ih =>
    intro n hn
    have hdigit : (UInt8.ofNat (48 + n % 8)).toNat = 48 + n % 8 :=
      UInt8.toNat_ofNat_of_lt' (by show 48 + n % 8 < 256; omega)
    have hmod : n % 8 ^ (w + 1) = n % 8 + 8 * (n / 8 % 8 ^ w) := by
      rw [Nat.pow_succ', Nat.mod_mul]
    have hle : n / 8 % 8 ^ w ≤ n / 8 := Nat.mod_le _ _
    have hprev := ih (show n / 8 < 2 ^ 32 by omega)
    unfold oct2bin at hprev ⊢
    rw [octal, List.foldl_append, hprev, List.foldl_cons, List.foldl_nil, hdigit, hmod]
    omega

/-! ## One member -/

variable {f : Member}

theorem Member.bytes_length (f : Member) : f.bytes.length = 512 * (blocks f.data.length + 1) := by
  have hlt := f.size_lt
  have hblocks : blocks f.data.length = (f.data.length + 511) / 512 := by
    rw [blocks, Nat.mod_eq_of_lt (by omega)]
  rw [hblocks]
  simp only [bytes, padding, List.length_append, List.length_map, List.length_range,
    List.length_replicate]
  omega

section

variable (h : Loaded mem a f.bytes)

include h

theorem loaded_header {i : ℕ} (hi : i < 512) : mem (a + i) = f.header i := by
  refine (loaded_append.mp h).1 i _ ?_
  rw [List.getElem?_map, List.getElem?_range hi]
  rfl

/-- A field that the header takes from a list. -/
theorem loaded_field {off : ℕ} (hoff : off + xs.length ≤ 512)
    (hfield : ∀ i < xs.length, f.header (off + i) = xs.getD i 0) : Loaded mem (a + off) xs := by
  intro i b hb
  obtain ⟨hi, rfl⟩ := List.getElem?_eq_some_iff.mp hb
  rw [Nat.add_assoc, loaded_header h (by omega), hfield i hi]
  exact List.getD_eq_getElem xs 0 hi

theorem loaded_name : Loaded mem a (f.name ++ [0]) := by
  have hle := f.name_le
  rw [← Nat.add_zero a]
  refine loaded_field h (by simp; omega) fun i hi => ?_
  rw [List.length_append, List.length_singleton] at hi
  rw [Nat.zero_add, Member.header, if_pos (by omega)]
  by_cases hlt : i < f.name.length
  · rw [List.getD_append _ _ _ _ hlt]
  · rw [List.getD_append_right _ _ _ _ (Nat.not_lt.mp hlt),
      List.getD_eq_default _ _ (Nat.not_lt.mp hlt), show i - f.name.length = 0 by omega]
    rfl

theorem magic_read : strncmp (bytesAt mem (a + 257) 6) magic 5 = 0 := by
  have hfield : Loaded mem (a + 257) (magic ++ [0]) := by
    refine loaded_field h (by decide) fun i hi => ?_
    have hlt : i < 6 := hi
    rw [Member.header, if_neg (by omega), if_neg (by omega), if_pos (by omega),
      Nat.add_sub_cancel_left]
    exact (show ∀ i < 6, magic.getD i 0 = (magic ++ [0]).getD i 0 by decide) i hlt
  have hread : bytesAt mem (a + 257) 6 = magic ++ [0] := bytesAt_eq hfield
  rw [hread]
  decide

theorem size_read : oct2bin (bytesAt mem (a + 124) 11) = f.data.length := by
  have hlen := octal_length 11 f.data.length
  have hlt := f.size_lt
  have hfield : Loaded mem (a + 124) (octal 11 f.data.length) := by
    refine loaded_field h (by omega) fun i hi => ?_
    rw [Member.header, if_neg (by omega), if_pos (by omega), Nat.add_sub_cancel_left]
  have hread := bytesAt_eq hfield
  rw [hlen] at hread
  rw [hread, oct2bin_octal 11 (by omega), Nat.mod_eq_of_lt (by omega)]

theorem loaded_describes : Describes mem f ⟨a, f.data.length, a + 512⟩ := by
  refine ⟨loaded_name h, rfl, ?_⟩
  have hdata := (loaded_append.mp (loaded_append.mp h).2).1
  rwa [List.length_map, List.length_range] at hdata

end

/-! ## The loop -/

variable {stop fuel zeros : ℕ} {grow : ℕ → Grow File} {ret : Vec File}

theorem listLoop_member (h : Loaded mem a f.bytes) (hstop : a < stop)
    (hwrap : a + f.bytes.length < 2 ^ 64) :
    listLoop mem stop grow (fuel + 1) a ret =
      ret.emplaceBack (grow ret.size) ⟨a, f.data.length, a + 512⟩ >>=
        listLoop mem stop grow fuel (a + f.bytes.length) := by
  rw [listLoop, if_pos ⟨hstop, magic_read h⟩, size_read h]
  dsimp only
  rw [← f.bytes_length, wadd_of_lt hwrap]

/-- A zero block is no header. -/
theorem magic_zeros (h : Loaded mem a (List.replicate (512 * (zeros + 1)) 0)) :
    strncmp (bytesAt mem (a + 257) 6) magic 5 ≠ 0 := by
  have hzero : ∀ i < 512, mem (a + i) = 0 := fun i hi =>
    h i 0 (List.getElem?_replicate_of_lt (by omega))
  have hread : bytesAt mem (a + 257) 6 = List.replicate 6 0 := by
    suffices Loaded mem (a + 257) (List.replicate 6 0) from bytesAt_eq this
    intro i b hb
    obtain ⟨hi, rfl⟩ := List.getElem?_eq_some_iff.mp hb
    rw [List.length_replicate] at hi
    rw [Nat.add_assoc, hzero _ (by omega), List.getElem_replicate]
  rw [hread]
  decide

theorem listLoop_zeros (h : Loaded mem a (List.replicate (512 * (zeros + 1)) 0)) :
    listLoop mem stop grow (fuel + 1) a ret = .ok ret := by
  rw [listLoop, if_neg fun hcond => magic_zeros h hcond.2]

/-- Where the results have to be moved, the block is extended in place. -/
def Extends (grow : ℕ → Grow File) (first last : ℕ) : Prop :=
  ∀ j, 2 ^ 32 ≤ 8 * 2 ^ j → first ≤ 8 * 2 ^ j → 8 * 2 ^ j < last →
    (grow (8 * 2 ^ j)).inPlace = true

theorem extends_succ {n last : ℕ} (hplace : ∀ j, n = 8 * 2 ^ j → 2 ^ 32 ≤ n →
    (grow n).inPlace = true) : Extends grow (n + 1) last ↔ Extends grow n last := by
  constructor
  · intro hext j hbig hfirst hlast
    by_cases hk : n = 8 * 2 ^ j
    · rw [← hk]
      exact hplace j hk (hk ▸ hbig)
    · exact hext j hbig (by omega) hlast
  · intro hext j hbig hfirst hlast
    exact hext j hbig (by omega) hlast

/-- The loop lists the members, or it never comes to an end. -/
theorem listLoop_result (grow : ℕ → Grow File) (files : List Member) :
    ∀ {a fuel : ℕ} {ret : Vec File} {xs : List File},
    Loaded mem a (archiveBytes zeros files) →
    stop = a + (archiveBytes zeros files).length → stop < 2 ^ 64 →
    files.length < fuel → ret.Filled xs → ret.Grown → xs.length + files.length < 2 ^ 63 →
    ((∃ v, listLoop mem stop grow fuel a ret = .ok v ∧ v.Filled (xs ++ entries a files)) ∧
        Extends grow xs.length (xs.length + files.length) ∨
      listLoop mem stop grow fuel a ret = .error .endless ∧
        ¬ Extends grow xs.length (xs.length + files.length)) := by
  induction files with
  | nil =>
    intro a fuel ret xs hload _ _ hfuel hf _ _
    obtain ⟨fuel, rfl⟩ := Nat.exists_eq_succ_of_ne_zero (Nat.ne_of_gt hfuel)
    refine .inl ⟨⟨ret, listLoop_zeros hload, ?_⟩, fun j _ hfirst hlast => ?_⟩
    · rwa [entries, List.append_nil]
    · rw [List.length_nil] at hlast
      omega
  | cons f files ih =>
    intro a fuel ret xs hload hstop hwrap hfuel hf hg hsize
    obtain ⟨fuel, rfl⟩ := Nat.exists_eq_succ_of_ne_zero (Nat.ne_of_gt (Nat.lt_of_le_of_lt
      (Nat.zero_le _) hfuel))
    obtain ⟨hmember, hrest⟩ := loaded_append.mp hload
    have hlen := f.bytes_length
    rw [archiveBytes, List.length_append] at hstop
    rw [List.length_cons] at hfuel hsize ⊢
    have hround : listLoop mem stop grow (fuel + 1) a ret = _ :=
      listLoop_member hmember (by omega) (by omega)
    rw [hround]
    have hxs := hf.1
    by_cases hstuck : Vec.Stuck (grow ret.size) ret.size ret.capacity
    case pos =>
      rw [Vec.emplaceBack_stuck hg hstuck]
      obtain ⟨heq, hbig, hplace⟩ := hstuck
      refine .inr ⟨rfl, fun hext => ?_⟩
      rcases hg.doubled with hzero | ⟨j, hj⟩
      · omega
      · have hk : ret.size = 8 * 2 ^ j := heq.trans hj
        have := hext j (by omega) (by omega) (by omega)
        rw [← hk, hplace] at this
        cases this
    case neg =>
      obtain ⟨ret', hput, hf', hg'⟩ := Vec.emplaceBack_spec hf hg (by rw [hf.1]; omega) hstuck
      rw [hput, ok_bind]
      have hih := ih hrest (by omega) hwrap (show files.length < fuel by omega) hf' hg'
        (by simp; omega)
      have hplace : ∀ j, xs.length = 8 * 2 ^ j → 2 ^ 32 ≤ xs.length →
          (grow xs.length).inPlace = true := by
        intro j hk hbig
        by_contra hplace
        rw [Bool.not_eq_true, ← hf.1] at hplace
        exact hstuck ⟨hg.full (hf.1.trans hk), by rw [hf.1]; exact hbig, hplace⟩
      rw [List.append_assoc, List.length_append, List.length_singleton,
        extends_succ hplace, Nat.add_right_comm, Nat.add_assoc] at hih
      exact hih

theorem archiveBytes_length_ge (zeros : ℕ) (files : List Member) :
    512 * (files.length + 1) ≤ (archiveBytes zeros files).length := by
  induction files with
  | nil =>
    rw [archiveBytes, List.length_replicate, List.length_nil]
    omega
  | cons f files ih =>
    rw [archiveBytes, List.length_append, List.length_cons, f.bytes_length]
    omega

theorem entries_describe (files : List Member) : ∀ {a : ℕ},
    Loaded mem a (archiveBytes zeros files) →
    List.Forall₂ (Describes mem) files (entries a files) := by
  induction files with
  | nil => exact fun _ => .nil
  | cons f files ih =>
    intro a hload
    obtain ⟨hmember, hrest⟩ := loaded_append.mp hload
    exact .cons (loaded_describes hmember) (ih hrest)

/-- The loop from an empty vector, which has fuel enough for every member. -/
theorem list_result (grow : ℕ → Grow File) {files : List Member}
    (hload : Loaded mem a (archiveBytes zeros files))
    (hwrap : a + (archiveBytes zeros files).length < 2 ^ 64) :
    (∃ v, list mem a (archiveBytes zeros files).length grow = .ok v ∧
        v.Filled (entries a files)) ∧ Extends grow 0 files.length ∨
      list mem a (archiveBytes zeros files).length grow = .error .endless ∧
        ¬ Extends grow 0 files.length := by
  have hlen := archiveBytes_length_ge zeros files
  unfold list
  rw [wadd_of_lt hwrap]
  have hempty : Vec.Filled (⟨none, 0, 0, fun _ => rfl⟩ : Vec File) [] :=
    ⟨rfl, fun i hi => absurd hi (Nat.not_lt_zero i)⟩
  have hgrown : Vec.Grown (⟨none, 0, 0, fun _ => rfl⟩ : Vec File) :=
    ⟨fun _ => rfl, .inl rfl, Nat.le_refl _, .inl (Nat.zero_le _)⟩
  have hloop := listLoop_result grow files hload rfl hwrap
    (show files.length < (archiveBytes zeros files).length / 512 + 2 by omega)
    hempty hgrown (by simp; omega)
  rwa [List.nil_append, List.length_nil, Nat.zero_add] at hloop

theorem list_iff (grow : ℕ → Grow File) {files : List Member}
    (hload : Loaded mem a (archiveBytes zeros files))
    (hwrap : a + (archiveBytes zeros files).length < 2 ^ 64) :
    (∃ v, list mem a (archiveBytes zeros files).length grow = .ok v ∧
      v.Filled (entries a files)) ↔ Extends grow 0 files.length := by
  rcases list_result grow hload hwrap with ⟨hv, hext⟩ | ⟨hend, hext⟩
  · exact iff_of_true hv hext
  · refine iff_of_false (fun ⟨v, hv, _⟩ => ?_) hext
    rw [hend] at hv
    cases hv

/-- **Listing inverts archiving** exactly where the vector of the results can grow: past
`2 ^ 32` files only in place. -/
theorem ustar_list_iff (grow : ℕ → Grow File) {files : List Member}
    (hload : Loaded mem a (archiveBytes zeros files))
    (hwrap : a + (archiveBytes zeros files).length < 2 ^ 64) :
    (∃ v, list mem a (archiveBytes zeros files).length grow = .ok v ∧
      v.Filled (entries a files) ∧ List.Forall₂ (Describes mem) files (entries a files)) ↔
    ∀ j, 2 ^ 32 ≤ 8 * 2 ^ j → 8 * 2 ^ j < files.length →
      (grow (8 * 2 ^ j)).inPlace = true := by
  have hdescribe := entries_describe files hload
  constructor
  · rintro ⟨v, hv, hf, -⟩ j hbig hlast
    exact (list_iff grow hload hwrap).mp ⟨v, hv, hf⟩ j hbig (Nat.zero_le _) hlast
  · intro hplace
    obtain ⟨v, hv, hf⟩ := (list_iff grow hload hwrap).mpr fun j hbig _ hlast =>
      hplace j hbig hlast
    exact ⟨v, hv, hf, hdescribe⟩

end

/-- Memory with an archive at `a`. -/
def tape (a zeros : ℕ) (files : List Member) : Mem :=
  fun i => (archiveBytes zeros files).getD (i - a) 0

theorem tape_loaded (a zeros : ℕ) (files : List Member) :
    Loaded (tape a zeros files) a (archiveBytes zeros files) := by
  intro i b hb
  rw [tape, Nat.add_sub_cancel_left, List.getD_eq_getElem?_getD, hb]
  rfl

/-- A file of `n` bytes under the name "m". -/
def sample (n : ℕ) (h : n < 2 ^ 31) : Member :=
  ⟨[0x6d], List.replicate n 1, fun _ => 0, by decide, by decide, by decide,
    by rwa [List.length_replicate]⟩

@[simp] theorem sample_bytes_length (n : ℕ) (h : n < 2 ^ 31) :
    (sample n h).bytes.length = 512 * (blocks n + 1) := by
  rw [Member.bytes_length, sample, List.length_replicate]

/-- The vector always moves to a new block. -/
def moving (_ : ℕ) : Grow File := ⟨false, fun _ => ⟨0, 0, 0⟩⟩

/-- A file of 600 bytes and an empty one. -/
theorem ustar_list_iff_two :
    let files := [sample 600 (by decide), sample 0 (by decide)]
    ∃ v, list (tape 4096 1 files) 4096 (archiveBytes 1 files).length moving = .ok v ∧
      v.Filled [⟨4096, 600, 4608⟩, ⟨5632, 0, 6144⟩] := by
  intro files
  have hlen : (archiveBytes 1 files).length = 512 * 6 := by
    rw [archiveBytes, archiveBytes, archiveBytes, List.length_append, List.length_append,
      sample_bytes_length, sample_bytes_length, List.length_replicate]
    decide
  have hentries : entries 4096 files = [⟨4096, 600, 4608⟩, ⟨5632, 0, 6144⟩] := by
    rw [entries, entries, entries, sample_bytes_length, sample, sample,
      List.length_replicate, List.length_replicate]
    decide
  obtain ⟨v, hv, hf, -⟩ := (ustar_list_iff moving (tape_loaded 4096 1 files)
    (by rw [hlen]; decide)).mpr fun j hbig hlast => by
      have : files.length = 2 := rfl
      omega
  exact ⟨v, hv, hentries ▸ hf⟩

theorem archiveBytes_empty_length (zeros n : ℕ) :
    (archiveBytes zeros (List.replicate n (sample 0 (by decide)))).length =
      512 * (n + zeros + 1) := by
  induction n with
  | zero => simp [archiveBytes]
  | succ n ih =>
    have hblocks : blocks 0 = 0 := by decide
    rw [List.replicate_succ, archiveBytes, List.length_append, ih, sample_bytes_length, hblocks]
    omega

/-- `2 ^ 32 + 1` empty files are not listed when the results have to move. -/
theorem list_endless :
    let files := List.replicate (2 ^ 32 + 1) (sample 0 (by decide))
    ¬ ∃ v, list (tape 0 1 files) 0 (archiveBytes 1 files).length moving = .ok v ∧
      v.Filled (entries 0 files) := by
  intro files
  have hlen : (archiveBytes 1 files).length = 512 * (2 ^ 32 + 1 + 1 + 1) :=
    archiveBytes_empty_length 1 (2 ^ 32 + 1)
  rw [list_iff moving (tape_loaded 0 1 files) (by rw [hlen]; decide)]
  intro hext
  have hcount : files.length = 2 ^ 32 + 1 := List.length_replicate
  have := hext 29 (by decide) (Nat.zero_le _) (by rw [hcount]; decide)
  cases this

end Ustar

end NeptunOS
