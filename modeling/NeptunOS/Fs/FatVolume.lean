import NeptunOS.Fs.Fat
import NeptunOS.Lib.Stepwise

/-!
# FAT32 volumes

Where the clusters of a volume and their chains are, what `mod_main` makes of it, and what the long
name buffer holds while a directory is read: the first piece of the last long name (`Holds`).
-/

namespace NeptunOS.Fat

open Function Fs Stepwise

/-! ## The format -/

section Volume

variable (d : Disk) (offset : ℕ) (b : Bpb)

/-- Where the FAT begins. -/
def fatStart : ℕ := offset + b.numReservedSectors * b.bytesPerSector

/-- Where cluster 2 begins. -/
def dataStart : ℕ := fatStart offset b + b.numFats * b.sectorsPerFat * b.bytesPerSector

def clusterBytes : ℕ := b.bytesPerSector * b.sectorsPerCluster

def location (c : ℕ) : ℕ := dataStart offset b + (c - 2) * clusterBytes b

def nextCluster (c : ℕ) : ℕ := leBytes d.bytes (fatStart offset b + 4 * c) 4 % 2 ^ 28

/-- The clusters from `c` to the end of the chain. -/
inductive Chain : ℕ → List ℕ → Prop
  | last {c : ℕ} (hc : 2 ≤ c) (hend : 0x0ffffff8 ≤ nextCluster d offset b c) : Chain c [c]
  | cons {c : ℕ} {cs : List ℕ} (hc : 2 ≤ c) (hnext : nextCluster d offset b c < 0x0ffffff8)
      (htail : Chain (nextCluster d offset b c) cs) : Chain c (c :: cs)

end Volume

section Format

variable {d : Disk} {offset : ℕ} {b : Bpb} {h : Handle} {c : ℕ} {e : Slot}

theorem Chain.head {cs : List ℕ} (h : Chain d offset b c cs) : ∃ rest, cs = c :: rest := by
  cases h with
  | last => exact ⟨[], rfl⟩
  | cons => exact ⟨_, rfl⟩

theorem cluster_lt (e : Slot) : e.cluster < 2 ^ 32 := by
  have h20 := (e 20).toNat_lt
  have h21 := (e 21).toNat_lt
  have h26 := (e 26).toNat_lt
  have h27 := (e 27).toNat_lt
  refine Nat.or_lt_two_pow ?_ ?_
  · rw [Slot.clusterLo]
    omega
  · rw [Slot.clusterHi, Nat.shiftLeft_eq]
    omega

/-- The next directory is read from its place. -/
theorem clusteroff_eq_location (hoff : h.dataoffset = dataStart offset h.bpb)
    (htwo : 2 ≤ e.cluster) (hproduct : (e.cluster - 2) * clusterBytes h.bpb < 2 ^ 32)
    (hfits : location offset h.bpb e.cluster < 2 ^ 64) :
    clusteroff h e = location offset h.bpb e.cluster := by
  have hlt := cluster_lt e
  have hminus : (e.cluster + (2 ^ 32 - 2)) % 2 ^ 32 = e.cluster - 2 := by omega
  rw [clusterBytes, ← Nat.mul_assoc] at hproduct
  rw [location, clusterBytes, ← Nat.mul_assoc] at hfits
  rw [clusteroff, hminus, Nat.mod_eq_of_lt hproduct, hoff, wadd, location, clusterBytes,
    ← Nat.mul_assoc]
  exact Nat.mod_eq_of_lt hfits

theorem diskoffset_eq_location (hoff : h.dataoffset = dataStart offset h.bpb) (htwo : 2 ≤ c)
    (hplace : c = 2 ∨ clusterBytes h.bpb = 512) (hproduct : (c - 2) * 512 < 2 ^ 32)
    (hfits : location offset h.bpb c < 2 ^ 64) :
    diskoffset h c = .ok (location offset h.bpb c) := by
  rw [diskoffset, if_neg (Nat.not_lt.mpr htwo), Nat.mod_eq_of_lt hproduct, hoff, wadd, location]
  rw [location] at hfits
  rcases hplace with rfl | hsize
  · rw [Nat.sub_self, Nat.zero_mul] at hfits ⊢
    rw [Nat.mod_eq_of_lt (by simpa using hfits), Nat.zero_mul]
  · rw [hsize] at hfits ⊢
    rw [Nat.mod_eq_of_lt hfits]

theorem patch_cluster (s : Slot) : s.patch.cluster = 2 := by
  have hlo : s.patch.clusterLo = 2 := rfl
  have hhi : s.patch.clusterHi = 0 := rfl
  rw [Slot.cluster, hlo, hhi]
  rfl

end Format

/-- The bytes of a cluster. -/
def clusterData (d : Disk) (offset : ℕ) (b : Bpb) (c : ℕ) : List UInt8 :=
  (List.range (clusterBytes b)).map fun k => d.bytes (location offset b c + k)

/-! ## Mounting -/

section Mount

variable {d : Disk} {offset : ℕ} {h : Handle}

/-- What `mod_main` leaves in the handle. -/
structure Mounted (d : Disk) (offset : ℕ) (h : Handle) : Prop where
  fat : h.fat = d.read (fatStart offset h.bpb) h.fatsize
  fatsize : h.fatsize < 2 ^ 32
  dataoffset : h.dataoffset = dataStart offset h.bpb
  cluster : 512 ≤ clusterBytes h.bpb
  cluster_lt : clusterBytes h.bpb < 2 ^ 32

/-- The parameters of an accepted volume. -/
structure Accepted (b : Bpb) : Prop where
  sector_ge : 512 ≤ b.bytesPerSector
  sector_le : b.bytesPerSector ≤ 4096
  reserved : b.numReservedSectors < 2 ^ 16
  cluster_pos : 0 < b.sectorsPerCluster
  cluster_lt : b.sectorsPerCluster < 2 ^ 8

theorem modMain_eq_some (hmod : modMain d offset = .ok (some h)) : Accepted h.bpb ∧ h = {
      bpb := h.bpb
      fat := d.read (wadd offset (h.bpb.numReservedSectors * h.bpb.bytesPerSector % 2 ^ 32))
        (h.bpb.sectorsPerFat * h.bpb.bytesPerSector % 2 ^ 32)
      fatsize := h.bpb.sectorsPerFat * h.bpb.bytesPerSector % 2 ^ 32
      dataoffset := wadd (wadd offset (h.bpb.numReservedSectors * h.bpb.bytesPerSector % 2 ^ 32))
        (h.bpb.numFats * h.bpb.sectorsPerFat * h.bpb.bytesPerSector % 2 ^ 64) } := by
  have hreserved : (Bpb.ofBytes (d.read offset 512)).numReservedSectors < 2 ^ 16 := leBytes_lt _ _ 2
  have hper : (Bpb.ofBytes (d.read offset 512)).sectorsPerCluster < 2 ^ 8 := leBytes_lt _ _ 1
  simp only [modMain] at hmod
  split at hmod
  case isTrue => cases hmod
  case isFalse =>
    split at hmod
    case isTrue => cases hmod
    case isFalse hbps =>
      split at hmod
      case isTrue => cases hmod
      case isFalse hspc =>
        split at hmod
        case isTrue => cases hmod
        case isFalse =>
          obtain rfl := Option.some.inj (Except.ok.inj hmod)
          rw [not_or, Nat.not_lt, Nat.not_lt] at hbps
          exact ⟨⟨hbps.1, hbps.2, hreserved, Nat.pos_of_ne_zero hspc, hper⟩, rfl⟩

theorem Accepted.clusterBytes_bounds {b : Bpb} (h : Accepted b) :
    512 ≤ clusterBytes b ∧ clusterBytes b < 2 ^ 32 := by
  have hlow : 512 * 1 ≤ b.bytesPerSector * b.sectorsPerCluster :=
    Nat.mul_le_mul h.sector_ge h.cluster_pos
  have hhigh : b.bytesPerSector * b.sectorsPerCluster ≤ 4096 * 2 ^ 8 :=
    Nat.mul_le_mul h.sector_le (Nat.le_of_lt h.cluster_lt)
  exact ⟨hlow, Nat.lt_of_le_of_lt hhigh (by decide)⟩

theorem modMain_mounted (hmod : modMain d offset = .ok (some h))
    (hfits : dataStart offset h.bpb < 2 ^ 64) : Mounted d offset h := by
  obtain ⟨haccepted, heq⟩ := modMain_eq_some hmod
  obtain ⟨hlow, hhigh⟩ := haccepted.clusterBytes_bounds
  have hsmall : h.bpb.numReservedSectors * h.bpb.bytesPerSector ≤ 2 ^ 16 * 4096 :=
    Nat.mul_le_mul (Nat.le_of_lt haccepted.reserved) haccepted.sector_le
  rw [dataStart] at hfits
  have hstart : wadd offset (h.bpb.numReservedSectors * h.bpb.bytesPerSector % 2 ^ 32) =
      fatStart offset h.bpb := by
    rw [fatStart] at hfits ⊢
    rw [Nat.mod_eq_of_lt (by omega), wadd, Nat.mod_eq_of_lt (by omega)]
  rw [hstart] at heq
  have hsize : h.fatsize = h.bpb.sectorsPerFat * h.bpb.bytesPerSector % 2 ^ 32 :=
    congrArg Handle.fatsize heq
  have hfat : h.fat = d.read (fatStart offset h.bpb) _ := congrArg Handle.fat heq
  have hdata : h.dataoffset = wadd (fatStart offset h.bpb) _ := congrArg Handle.dataoffset heq
  refine ⟨hfat.trans (by rw [hsize]), hsize ▸ Nat.mod_lt _ (by decide), ?_, hlow, hhigh⟩
  rw [hdata, Nat.mod_eq_of_lt (by omega), wadd, Nat.mod_eq_of_lt hfits, dataStart]

end Mount

/-! ## Cluster chains -/

section Chains

variable {d : Disk} {h : Handle} {c fuel bpc bytes next o : ℕ} {buf : Bool} {data : List UInt8}

/-- The round at the last cluster. -/
theorem chainLoop_end (hdata : readCluster d h buf c o (min bytes (bpc - o)) = .ok data)
    (hnext : fatent h c = .ok next) (hend : 0x0ffffff8 ≤ next) (hbytes : bytes ≠ 0) :
    chainLoop d h bpc buf (fuel + 1) c o bytes = .ok (data, min bytes (bpc - o)) := by
  simp only [chainLoop, if_neg hbytes, hdata, hnext, ok_bind, if_pos hend]
  rfl

/-- The round at any other one. -/
theorem chainLoop_next (hdata : readCluster d h buf c o (min bytes (bpc - o)) = .ok data)
    (hnext : fatent h c = .ok next) (hmore : next < 0x0ffffff8) (hbytes : bytes ≠ 0) :
    chainLoop d h bpc buf (fuel + 1) c o bytes =
      chainLoop d h bpc buf fuel next 0 (if buf then bytes - min bytes (bpc - o) else bytes) >>=
        fun r => .ok (data ++ r.1, min bytes (bpc - o) + r.2) := by
  simp only [chainLoop, if_neg hbytes, hdata, hnext, ok_bind, if_neg (Nat.not_le.mpr hmore)]
  rfl

section

variable (hdata : readCluster d h buf c 0 (min bytes bpc) = .ok data)

include hdata

theorem chainLoop_last
    (hnext : fatent h c = .ok next) (hend : 0x0ffffff8 ≤ next) (hbytes : bytes ≠ 0) :
    chainLoop d h bpc buf (fuel + 1) c 0 bytes = .ok (data, min bytes bpc) :=
  chainLoop_end hdata hnext hend hbytes

theorem chainLoop_more
    (hnext : fatent h c = .ok next) (hmore : next < 0x0ffffff8) (hbytes : bytes ≠ 0) :
    chainLoop d h bpc buf (fuel + 1) c 0 bytes =
      chainLoop d h bpc buf fuel next 0 (if buf then bytes - min bytes bpc else bytes) >>=
        fun r => .ok (data ++ r.1, min bytes bpc + r.2) :=
  chainLoop_next hdata hnext hmore hbytes

theorem chainLoop_cons {rest : List UInt8} {n : ℕ}
    (hnext : fatent h c = .ok next) (hmore : next < 0x0ffffff8) (hbytes : bytes ≠ 0)
    (hrest : chainLoop d h bpc buf fuel next 0 (if buf then bytes - min bytes bpc else bytes) =
      .ok (rest, n)) :
    chainLoop d h bpc buf (fuel + 1) c 0 bytes = .ok (data ++ rest, min bytes bpc + n) := by
  rw [chainLoop_more hdata hnext hmore hbytes, hrest, ok_bind]

end

end Chains

namespace Slot

def chars (e : Slot) : List ℕ := e.no1 ++ e.no2 ++ e.no3

end Slot

/-! ## The long name buffer -/

/-- The first 13 characters of a long name, as `longname` gets them. -/
def pieceBytes (e : Slot) : List UInt8 := (e.chars.map UInt8.ofNat).takeWhile (· ≠ 0)

/-- `longname` keeps the first piece of the last long name that was met. -/
def remember (σ : Option (List UInt8)) (e : Slot) : Option (List UInt8) :=
  if e.isLfn ∧ e.order = 1 then (if pieceBytes e = [] then none else some (pieceBytes e))
  else σ

section LongName

variable {e : Slot} {L L' : ℕ → UInt8} {σ : Option (List UInt8)}

theorem chars_length (e : Slot) : e.chars.length = 13 := rfl

/-- The terminator of a piece is overwritten by the next one. -/
theorem ucs2ToAsciin_append (cs cs' : List ℕ) (L : ℕ → UInt8) (pos : ℕ) :
    ucs2ToAsciin cs' (ucs2ToAsciin cs L pos) (pos + cs.length) =
      ucs2ToAsciin (cs ++ cs') L pos := by
  funext k
  simp only [ucs2ToAsciin, List.length_append]
  by_cases hlo : k < pos + cs.length
  · rw [if_neg (by omega), if_neg (by omega)]
    by_cases hk : pos ≤ k
    · rw [if_pos ⟨hk, hlo⟩, if_pos ⟨hk, by omega⟩, List.getD_append _ _ _ _ (by omega)]
    · rw [if_neg (by omega), if_neg (by omega), if_neg (by omega), if_neg (by omega)]
  · by_cases hhi : k < pos + cs.length + cs'.length
    · rw [if_pos (by omega), if_pos (by omega), List.getD_append_right _ _ _ _ (by omega)]
      congr 2
      omega
    · by_cases hk : k = pos + cs.length + cs'.length
      · rw [if_neg (by omega), if_pos hk, if_neg (by omega), if_pos (by omega)]
      · rw [if_neg (by omega), if_neg hk, if_neg (by omega), if_neg (by omega),
          if_neg (by omega), if_neg (by omega)]

/-- The three pieces are stored as one. -/
theorem storeLfn_eq (h1 : 1 ≤ e.order) (h19 : e.order ≤ 19) (L : ℕ → UInt8) :
    storeLfn e L = .ok (ucs2ToAsciin e.chars L ((e.order - 1) * 13)) := by
  unfold storeLfn
  rw [if_neg (by omega)]
  refine congrArg Except.ok ?_
  have h12 := ucs2ToAsciin_append e.no1 e.no2 L ((e.order - 1) * 13)
  have h123 := ucs2ToAsciin_append (e.no1 ++ e.no2) e.no3 L
    ((e.order - 1) * 13)
  rw [← h12] at h123
  exact h123

/-- The buffer holds nothing, or a string with the given first 13 characters. -/
def Holds (L : ℕ → UInt8) : Option (List UInt8) → Prop
  | none => L 0 = 0
  | some x => x ≠ [] ∧ ((List.range 13).map L).takeWhile (· ≠ 0) = x

theorem take_takeWhile {α : Type} (p : α → Bool) (n : ℕ) (l : List α) :
    (l.takeWhile p).take n = (l.take n).takeWhile p := by
  induction l generalizing n with
  | nil => simp
  | cons a l ih =>
    cases n with
    | zero => simp
    | succ n =>
      rw [List.take_succ_cons, List.takeWhile_cons, List.takeWhile_cons]
      cases p a with
      | false => rfl
      | true => exact congrArg (a :: ·) (ih n)

theorem takeWhile_append_cons {α : Type} {p : α → Bool} {a : α} (h : p a = false)
    (l l' : List α) : (l ++ a :: l').takeWhile p = l.takeWhile p := by
  induction l with
  | nil => simp [h]
  | cons b l ih => rw [List.cons_append, List.takeWhile_cons, List.takeWhile_cons, ih]

theorem cstr_take (L : ℕ → UInt8) :
    (cstr L).take 13 = ((List.range 13).map L).takeWhile (· ≠ 0) := by
  rw [cstr, take_takeWhile, ← List.map_take, List.take_range]
  rfl

theorem cstr_nil : cstr L = [] ↔ L 0 = 0 := by
  rw [cstr, List.range_succ_eq_map, List.map_cons, List.takeWhile_cons]
  by_cases h0 : L 0 = 0 <;> simp [h0]

theorem Holds.cstr_take {x : List UInt8} (h : Holds L (some x)) : (cstr L).take 13 = x :=
  (Fat.cstr_take L).trans h.2

theorem Holds.cstr_ne {x : List UInt8} (h : Holds L (some x)) : cstr L ≠ [] := by
  intro hnil
  have htake := h.cstr_take
  rw [hnil] at htake
  exact h.1 htake.symm

/-- Thirteen characters at the start of the buffer. -/
theorem map_range_chars (L : ℕ → UInt8) :
    (List.range 13).map (ucs2ToAsciin e.chars L 0) = e.chars.map UInt8.ofNat := by
  refine List.ext_getElem (by simp [chars_length]) fun k hk hk' => ?_
  have hlt : k < e.chars.length := by simpa using hk'
  simp only [List.getElem_map, List.getElem_range, ucs2ToAsciin, Nat.zero_le, true_and,
    Nat.zero_add, Nat.sub_zero]
  rw [if_pos hlt, List.getD_eq_getElem _ _ hlt]

/-- The first piece of a long name replaces what was in the buffer. -/
theorem first_piece (L : ℕ → UInt8) : cstr (ucs2ToAsciin e.chars L 0) = pieceBytes e := by
  obtain ⟨ks, hsplit⟩ : ∃ ks, List.range 256 = List.range 13 ++ 13 :: ks := by
    refine ⟨(List.range 242).map (13 + 1 + ·), ?_⟩
    rw [show 256 = 13 + (242 + 1) from rfl, List.range_add, @List.range_succ_eq_map 242]
    simp [Function.comp_def, Nat.add_comm]
  have hterm : ucs2ToAsciin e.chars L 0 13 = 0 := by
    simp [ucs2ToAsciin, chars_length]
  rw [cstr, hsplit, List.map_append, map_range_chars, pieceBytes, List.map_cons]
  exact takeWhile_append_cons (by simp [hterm]) _ _

/-- Storing a piece changes what is remembered as `remember` says. -/
theorem Holds.store (h : Holds L σ) (hlfn : e.isLfn = true) (h1 : 1 ≤ e.order) :
    Holds (ucs2ToAsciin e.chars L ((e.order - 1) * 13)) (remember σ e) := by
  by_cases horder : e.order = 1
  · rw [remember, if_pos ⟨hlfn, horder⟩, horder, Nat.sub_self, Nat.zero_mul]
    split
    case isTrue hnil => exact cstr_nil.mp ((first_piece L).trans hnil)
    case isFalse hne =>
      refine ⟨hne, ?_⟩
      rw [map_range_chars, pieceBytes]
  · rw [remember, if_neg fun hand => horder hand.2]
    -- later pieces are stored behind the first 13 characters
    have hsame : ∀ k < 13, ucs2ToAsciin e.chars L ((e.order - 1) * 13) k = L k := by
      intro k hk
      rw [ucs2ToAsciin, if_neg (by omega), if_neg (by omega)]
    cases σ with
    | none => exact (hsame 0 (by decide)).trans h
    | some x =>
      refine ⟨h.1, ?_⟩
      rw [List.map_congr_left fun k hk => hsame k (List.mem_range.mp hk)]
      exact h.2

end LongName

/-! ## Small volumes -/

/-- The parameters of a volume of 512-byte clusters in sector 1, and in sector 2 the FAT,
where cluster 2 is the end of a chain. -/
def header : List (ℕ × UInt8) :=
  [(524, 2), (525, 1), (526, 1), (528, 1), (548, 1), (556, 2), (1032, 0xff), (1033, 0xff),
    (1034, 0xff), (1035, 0x0f)]

/-- Such a volume, with the given bytes in the root directory. -/
def small (root : List (ℕ × UInt8)) : Disk where
  bytes k := ((header ++ root.map fun x : ℕ × UInt8 => (1536 + x.1, x.2)).lookup k).getD 0
  behind _ _ := 0

def smallBpb : Bpb := ⟨512, 1, 1, 1, 1, 2⟩

def smallHandle (root : List (ℕ × UInt8)) : Handle where
  bpb := smallBpb
  fat := (small root).read 1024 512
  fatsize := 512
  dataoffset := 1536

theorem small_mounts {root : List (ℕ × UInt8)}
    (h : Bpb.ofBytes ((small root).read 512 512) = smallBpb) :
    modMain (small root) 512 = .ok (some (smallHandle root)) := by
  simp only [modMain, h]
  rfl

/-- The short name entry `i` with a name of one character. -/
def letter (i : ℕ) (x attrs : UInt8) : List (ℕ × UInt8) :=
  (32 * i, x) :: (32 * i + 11, attrs) :: (List.range 10).map fun k => (32 * i + k + 1, 0x20)

/-- A volume label and the file `B`. -/
def labelled : List (ℕ × UInt8) := (letter 0 0x56 0x08).append (letter 1 0x42 0x20)

end NeptunOS.Fat
