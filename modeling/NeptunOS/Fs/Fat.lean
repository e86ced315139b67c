import NeptunOS.Fs.Path
import NeptunOS.Storage.String
import NeptunOS.Util.Str

/-!
# The FAT32 driver (`modules/fat/src/fat.cc`)

`mod_main`, `fat32_lookup` and `fat32_readdir`. Strings are the bytes they hold.
Reading or writing outside a buffer is an error here: the code goes on with what it
has read or damaged.
-/

namespace NeptunOS

open Function Fs

namespace Fat

/-! ## The disk -/

/-- The bytes of a device, and for every read what lies in memory behind the bounce
buffer of `msd_read`. -/
structure Disk where
  bytes : ℕ → UInt8
  behind : ℕ → ℕ → UInt8

/-- `msd_read(d, offset, bytes, buf)`: byte `k` of `buf`. Whole sectors are read from
the one that holds `offset`, and copied from there. -/
def Disk.read (d : Disk) (offset bytes k : ℕ) : UInt8 :=
  if offset % 512 + k < align bytes 512 then d.bytes (offset + k) else d.behind offset k

/-- The fields of `fat_bpb` that are used. -/
structure Bpb where
  bytesPerSector : ℕ
  sectorsPerCluster : ℕ
  numReservedSectors : ℕ
  numFats : ℕ
  sectorsPerFat : ℕ
  rootdirCluster : ℕ
deriving DecidableEq, Repr

/-- `fat_bpb` in memory. -/
def Bpb.ofBytes (f : ℕ → UInt8) : Bpb where
  bytesPerSector := leBytes f 11 2
  sectorsPerCluster := leBytes f 13 1
  numReservedSectors := leBytes f 14 2
  numFats := leBytes f 16 1
  sectorsPerFat := leBytes f 36 4
  rootdirCluster := leBytes f 44 4

/-- `fat_fshandle`. -/
structure Handle where
  bpb : Bpb
  fat : ℕ → UInt8
  fatsize : ℕ
  dataoffset : ℕ

/-- `mod_main(f)` for a partition at `offset`. -/
def modMain (d : Disk) (offset : ℕ) : Except Halt (Option Handle) :=
  if offset = 0 then .error (.fatal "FAT volume at the start of the drive?")
  else
    let bpb := Bpb.ofBytes (d.read offset 512)
    let bps := bpb.bytesPerSector
    if bps < 512 ∨ 0x1000 < bps then .ok none
    else if bpb.sectorsPerCluster = 0 then .ok none
    else if bpb.numFats ≠ 1 ∧ bpb.numFats ≠ 2 then .ok none
    else
      let fatsize := bpb.sectorsPerFat * bps % 2 ^ 32
      let fatoffset := wadd offset (bpb.numReservedSectors * bps % 2 ^ 32)
      .ok (some {
        bpb
        fat := d.read fatoffset fatsize
        fatsize
        dataoffset := wadd fatoffset (bpb.numFats * bpb.sectorsPerFat * bps % 2 ^ 64) })

/-! ## Directory entries -/

/-- 32 bytes of a directory: a `fat_entry` or a `fat_lfn_entry`. -/
abbrev Slot := Fin 32 → UInt8

namespace Slot

def bytes (e : Slot) : List UInt8 := List.ofFn e

/-- `simplename[0]`, or the byte of `order`. -/
def first (e : Slot) : UInt8 := e 0

def attrs (e : Slot) : UInt8 := e 11

def clusterLo (e : Slot) : ℕ := (e 26).toNat + 256 * (e 27).toNat

def clusterHi (e : Slot) : ℕ := (e 20).toNat + 256 * (e 21).toNat

def size (e : Slot) : ℕ :=
  (e 28).toNat + 256 * (e 29).toNat + 256 ^ 2 * (e 30).toNat + 256 ^ 3 * (e 31).toNat

/-- `clusterfrom(lo, hi)`. -/
def cluster (e : Slot) : ℕ := e.clusterLo ||| (e.clusterHi <<< 16)

/-- `attrs == FatAttrs::LFN`. -/
def isLfn (e : Slot) : Bool := e.attrs = 0x0f

/-- `attrs & FatAttrs::VOLUME_ID`. -/
def isVolume (e : Slot) : Bool := e.attrs &&& 0x08 ≠ 0

/-- `attrs & FatAttrs::DIRECTORY`. -/
def isDirectory (e : Slot) : Bool := e.attrs &&& 0x10 ≠ 0

/-- `order`, of five bits. -/
def order (e : Slot) : ℕ := e.first.toNat % 32

def wchar (e : Slot) (k : Fin 32) : ℕ := (e k).toNat + 256 * (e (k + 1)).toNat

def no1 (e : Slot) : List ℕ := [e.wchar 1, e.wchar 3, e.wchar 5, e.wchar 7, e.wchar 9]

def no2 (e : Slot) : List ℕ :=
  [e.wchar 14, e.wchar 16, e.wchar 18, e.wchar 20, e.wchar 22, e.wchar 24]

def no3 (e : Slot) : List ℕ := [e.wchar 28, e.wchar 30]

/-- `cluster_hi16 = 0; cluster_lo16 = 2`. -/
def patch (e : Slot) : Slot :=
  update (update (update (update e 20 0) 21 0) 26 2) 27 0

end Slot

/-! ## Names -/

/-- `ucs2_to_asciin(in, out + pos, n)` for the `n` characters `cs`. -/
def ucs2ToAsciin (cs : List ℕ) (out : ℕ → UInt8) (pos : ℕ) : ℕ → UInt8 := fun k =>
  if pos ≤ k ∧ k < pos + cs.length then UInt8.ofNat (cs.getD (k - pos) 0)
  else if k = pos + cs.length then 0
  else out k

/-- The three pieces of a long name entry go to `longname`, which has 256 bytes. -/
def storeLfn (e : Slot) (longname : ℕ → UInt8) : Except Halt (ℕ → UInt8) :=
  if e.order = 0 ∨ 256 ≤ (e.order - 1) * 13 + 13 then
    .error (.exception "write outside of the long name")
  else
    let base := (e.order - 1) * 13
    .ok (ucs2ToAsciin e.no3 (ucs2ToAsciin e.no2 (ucs2ToAsciin e.no1 longname base) (base + 5))
      (base + 11))

/-- The C string in `longname`. -/
def cstr (longname : ℕ → UInt8) : List UInt8 :=
  ((List.range 256).map longname).takeWhile (· ≠ 0)

/-- `fat32_getname(longname, en)`; `mem` is the memory from `en` on. -/
def getname (longname mem : List UInt8) : Except Halt (Option (List UInt8)) :=
  if longname ≠ [] then .ok (some longname)
  else if strncmp mem [0x2e] 1 = 0 then .ok none
  else if strncmp mem [0x2e, 0x2e] 2 = 0 then .ok none
  else if mem.headD 0 = 0x20 then .ok none
  else if 128 < mem.headD 0 then .ok none
  else if 0x20 ∉ mem then .error (.exception "read behind the buffer")
  else
    let name := mem.takeWhile (· ≠ 0x20)
    .ok (if name = [] then none else some name)

/-- The name that `fat32_readdir` lists. A short name comes in an `Opt<String>`, which holds a
copy. -/
def listedName (longname mem : List UInt8) : Except Halt (Option (List UInt8)) := do
  let name ← getname longname mem
  if longname = [] then Str.destroyCopy (name.getD []).length
  return name

/-! ## `fat32_lookup` -/

/-- `clusteroff(f, clusterlo, clusterhi)`, whose product has 32 bits. -/
def clusteroff (h : Handle) (e : Slot) : ℕ :=
  wadd h.dataoffset ((e.cluster + (2 ^ 32 - 2)) % 2 ^ 32 * h.bpb.bytesPerSector *
    h.bpb.sectorsPerCluster % 2 ^ 32)

/-- 512 bytes of the disk as directory entries. -/
def readSlots (d : Disk) (offset : ℕ) : ℕ → Slot := fun i k => d.read offset 512 (32 * i + k)

/-- The buffer from entry `i` on. -/
def bytesFrom (ent : ℕ → Slot) (i : ℕ) : List UInt8 :=
  (List.range (16 - i)).flatMap fun j => (ent (i + j)).bytes

/-- The variables of `fat32_lookup`. -/
structure Cursor where
  ent : ℕ → Slot
  longname : ℕ → UInt8
  path : Path

/-- How the inner loop ends: with `return ent[i]`, or with `found`. -/
inductive Scanned where
  | hit (e : Slot)
  | done (c : Cursor) (found : Bool)

/-- `name.present && !strcmp(basename, name)`. -/
def isNamed (basename : Path) (name : Option (List UInt8)) : Bool :=
  name.any fun n => strcmp basename n = 0

/-- The inner loop, from entry `i` on. A match that does not end the path replaces the
buffer and goes on with the next index. -/
def scanLoop (d : Disk) (h : Handle) (basename : Path) :
    ℕ → ℕ → Cursor → Bool → Except Halt Scanned
  | 0, _, c, found => .ok (.done c found)
  | fuel + 1, i, c, found =>
    let e := c.ent i
    if e.attrs = 0 then .ok (.done c found)
    else if e.isLfn then do
      let longname ← storeLfn e c.longname
      scanLoop d h basename fuel (i + 1) { c with longname } found
    else if e.isVolume then scanLoop d h basename fuel (i + 1) c found
    else do
      let name ← getname (cstr c.longname) (bytesFrom c.ent i)
      -- the copy in `name` is destroyed at the end of the round
      Str.destroyCopy (name.getD []).length
      if ¬ isNamed basename name then scanLoop d h basename fuel (i + 1) c found
      else if c.path.length < basename.length then .error (.exception "read behind the path")
      else if c.path.drop basename.length = [] then .ok (.hit e)
      else
        scanLoop d h basename fuel (i + 1) ⟨readSlots d (clusteroff h e),
          update c.longname 0 0, c.path.drop basename.length⟩ true

/-- The outer loop; every pass takes a component off the path. -/
def lookupLoop (d : Disk) (h : Handle) : ℕ → Cursor → Except Halt Slot
  | 0, _ => .error .endless
  | fuel + 1, c =>
    if c.path = [] then .error (.fatal "File not found!")
    else
      let path := c.path.dropWhile (· = slash)
      if path = [] then .ok (c.ent 0)
      else do
        match ← scanLoop d h (path.takeWhile (· ≠ slash)) 16 0 { c with path } false with
        | .hit e => .ok e
        | .done c found =>
          if found then lookupLoop d h fuel c
          else .error (.fatal "No such file or folder: %s")

/-- `fat32_lookup(f, path)`. -/
def lookup (d : Disk) (h : Handle) (path : Path) : Except Halt Slot :=
  let root := readSlots d h.dataoffset
  lookupLoop d h (path.length + 1) ⟨update root 0 (root 0).patch, fun _ => 0, path⟩

/-! ## `fat32_readdir` -/

/-- `h->fat[cluster] & 0x0fffffff`. -/
def fatent (h : Handle) (cluster : ℕ) : Except Halt ℕ :=
  if 4 * cluster + 4 ≤ h.fatsize then .ok (leBytes h.fat (4 * cluster) 4 % 2 ^ 28)
  else .error (.exception "read behind the FAT")

/-- `diskoffset(f, cluster)`. -/
def diskoffset (h : Handle) (cluster : ℕ) : Except Halt ℕ :=
  if cluster < 2 then .error (.assertion "cluster >= 2")
  else .ok (wadd h.dataoffset ((cluster - 2) * 512 % 2 ^ 32))

/-- The loop of `chainread` that skips whole clusters. -/
def skipLoop (h : Handle) : ℕ → ℕ → Except Halt ℕ
  | 0, cluster => .ok cluster
  | n + 1, cluster => do
    let next ← fatent h cluster
    if 0x0ffffff8 ≤ cluster then .error (.fatal "File not big enough to skip to offset??")
    else skipLoop h n next

/-- `if (buf) msd_read(..)`. -/
def readCluster (d : Disk) (h : Handle) (buf : Bool) (cluster clusteroff readlen : ℕ) :
    Except Halt (List UInt8) :=
  if buf then do
    let p ← diskoffset h cluster
    return (List.range readlen).map (d.read (wadd p clusteroff) readlen)
  else .ok []

/-- The loop of `chainread` that reads: what is stored and how many bytes were counted. -/
def chainLoop (d : Disk) (h : Handle) (bpc : ℕ) (buf : Bool) :
    ℕ → ℕ → ℕ → ℕ → Except Halt (List UInt8 × ℕ)
  | 0, _, _, _ => .error .endless
  | fuel + 1, cluster, clusteroff, bytes =>
    if bytes = 0 then .ok ([], 0)
    else do
      let readlen := min bytes (bpc - clusteroff)
      let data ← readCluster d h buf cluster clusteroff readlen
      let next ← fatent h cluster
      if 0x0ffffff8 ≤ next then return (data, readlen)
      else
        let (rest, n) ← chainLoop d h bpc buf fuel next 0 (if buf then bytes - readlen else bytes)
        return (data ++ rest, readlen + n)

/-- `chainread(f, cluster, offset, bytes, buf, fsize)`, for chains of less than `fuel`
clusters; without `buf` it counts. -/
def chainread (d : Disk) (h : Handle) (fuel cluster offset bytes : ℕ) (buf : Bool) :
    Except Halt (List UInt8 × ℕ) := do
  let bpc := h.bpb.bytesPerSector * h.bpb.sectorsPerCluster
  let cluster ← skipLoop h (offset / bpc) cluster
  chainLoop d h bpc buf fuel cluster (offset % bpc) (if buf then bytes else 2 ^ 32 - 1)

/-- The loop of `fat32_readdir`. -/
def listLoop : List Slot → (ℕ → UInt8) → Except Halt (List FsEntry)
  | [], _ => .error (.exception "read behind the directory")
  | e :: rest, longname =>
    if e.attrs = 0 then .ok []
    else if e.isLfn then do
      let longname ← storeLfn e longname
      listLoop rest longname
    else if e.isVolume then listLoop rest longname
    else do
      let name ← listedName (cstr longname) ((e :: rest).flatMap Slot.bytes)
      let entries ← listLoop rest (update longname 0 0)
      return (name.map fun n => ⟨n, e.isDirectory⟩).toList ++ entries

/-- A run of bytes as directory entries. -/
def slotsOf (bytes : List UInt8) : List Slot :=
  (List.range (bytes.length / 32)).map fun i k => bytes.getD (32 * i + k) 0

/-- `fat32_readdir(f, path)`; `area` is what the long name buffer holds at first. -/
def readdir (d : Disk) (h : Handle) (fuel : ℕ) (area : ℕ → UInt8) (path : Path) :
    Except Halt (List FsEntry) := do
  let _ ← lookup d h [slash]
  let _ ← lookup d h path
  let e ← lookup d h path
  let (_, bytes) ← chainread d h fuel e.cluster 0 (2 ^ 64 - 1) false
  let (tmp, _) ← chainread d h fuel e.cluster 0 bytes true
  listLoop (slotsOf tmp) (update area 0 0)

end Fat

end NeptunOS
