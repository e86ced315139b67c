import NeptunOS.Arch.PageFault
import NeptunOS.Lib.Mapping
import NeptunOS.Util.Str

/-!
# `loader/loader.cc`

`program::program` builds an address space for an ELF image: the kernel half of
the PML4 is copied, the pages of the `PT_LOAD` segments are taken from the
physical allocator, and so is a stack of 2 MiB, which gets a 2 MiB page.

The new PML4, the image and the segments are reached through page tables. What is
not mapped in the heap window is mapped by the page fault handler, which takes a
page for it; everywhere else an access that is not allowed ends in a halt. The
bytes of physical memory are kept beside the tables; those of the tables and of
the allocators' own data are not among them. `granted` collects what `pmm_alloc`
has returned to the constructor.
-/

namespace NeptunOS.Loader

open Paging Stepwise

/-- The contents of physical memory. -/
abbrev Bytes := ℕ → UInt8

/-- `Elf64_Phdr` with its address and, for `p_offset`, the address of the segment in the file
and the bytes from there on. -/
structure Phdr where
  addr : ℕ
  pType : ℕ
  pVaddr : ℕ
  pFilesz : ℕ
  pMemsz : ℕ
  source : ℕ
  file : ℕ → UInt8

/-- `PT_LOAD`. -/
def ptLoad : ℕ := 1

/-- The parts of the image at `addr` that are read: those of its `Elf64_Ehdr`, and the program
headers. -/
structure Elf where
  addr : ℕ
  eIdent : List UInt8
  eEntry : ℕ
  phdrs : List Phdr

/-- The magic bytes, `"\177ELF"`. -/
def elfMagic : List UInt8 := [0x7f, 0x45, 0x4c, 0x46]

/-- `struct program`. -/
structure Program where
  entry : ℕ
  cr3 : ℕ
  stack : ℕ
deriving DecidableEq, Repr

/-- The machine while the constructor runs, and what it has been granted. -/
structure Loading where
  machine : Machine
  granted : List (Pmm.Request × ℕ)

/-- `pmm_alloc(size)`, called by the constructor. -/
def Loading.alloc (l : Loading) (size : ℕ) : Except Halt (ℕ × Loading) := do
  let (ptr, pmm) ← pmmAlloc l.machine.pmm size
  return (ptr, {
    machine := { l.machine with pmm := pmm }
    granted := l.granted ++ [(.alloc size, ptr)] })

/-- `map_page(cr3, virt, phys, flags)`. -/
def Loading.map (l : Loading) (cr3 virt phys flags : ℕ) : Except Halt Loading := do
  let tables ← mapPage l.machine.tables cr3 virt phys flags 0
  return { l with machine := { l.machine with tables := tables } }

/-! ## Accesses -/

/-- What the processor lets the kernel do at `v`: reads where a page is mapped, stores
(`write`) where it is also writable, since `CR0.WP` is set. -/
def allowed (write : Bool) (mem : ℕ → ℕ → ℕ) (cr3 v : ℕ) : Bool :=
  (rights mem cr3 v).any fun r => !write || r.rw

/-- An access to `v` under `cr3`. An access that the page fault handler does not make possible
is repeated until there is no page left. -/
def touch (write : Bool) (cr3 v : ℕ) (l : Loading) : Except Halt Loading :=
  if ¬ Canonical v then .error (.exception "Halting...")
  else if allowed write l.machine.tables.mem cr3 v then .ok l
  else do
    let (_, m) ← l.machine.onPageFault v
    if allowed write m.tables.mem cr3 v then .ok { l with machine := m }
    else .error (.assertion "addr != -1ull")

/-- Accesses to the bytes `[v, v + n)`. -/
def access (write : Bool) (cr3 v : ℕ) : ℕ → Loading → Except Halt Loading
  | 0, l => .ok l
  | n + 1, l => do
    let l ← access write cr3 v n l
    touch write cr3 (wadd v n) l

/-- The accesses of `memcpy(v, src, n)`. -/
def copyAccess (cr3 v src : ℕ) : ℕ → Loading → Except Halt Loading
  | 0, l => .ok l
  | n + 1, l => do
    let l ← copyAccess cr3 v src n l
    let l ← touch false cr3 (wadd src n) l
    touch true cr3 (wadd v n) l

/-- `n` stores from `v` on, under the tables of `cr3`. -/
def store (mem : ℕ → ℕ → ℕ) (cr3 v : ℕ) (src : ℕ → UInt8) (n : ℕ) (b : Bytes) : Bytes :=
  Mapping.put (translate mem cr3) (wadd v) src n b

/-! ## The constructor -/

/-- The two halves of the new PML4: empty, and the kernel's. -/
def halves (m : Machine) (cr3 : ℕ) : Machine :=
  { m with
    tables := { m.tables with
      mem := fun t i =>
        if t = cr3 then (if i < 256 then 0 else m.tables.mem m.pml4 i)
        else m.tables.mem t i } }

/-- The new PML4, in the page `cr3` of the heap, which may not have been touched before. -/
def newSpace (m : Machine) (cr3 : ℕ) : Except Halt Loading := do
  let l ← touch true m.pml4 cr3 ⟨m, []⟩
  return { l with machine := halves l.machine cr3 }

/-- One round of the mapping loops here and in `modules_load`. -/
def backPage (flags cr3 v : ℕ) (l : Loading) : Except Halt Loading :=
  if pagingLookup l.machine.tables.mem cr3 v = minusOne then do
    let (ptr, l) ← l.alloc 4096
    l.map cr3 v (phys ptr) flags
  else .ok l

/-- `0b11 | MFLAGS::EXE | MFLAGS::USER | PMM_PAGESIZE_FLAG`. -/
def segmentFlags : ℕ := 0b11 ||| Mflags.exe ||| Mflags.user ||| Mflags.s4K

/-- `MFLAGS::UDATA | MFLAGS::s2M`. -/
def stackFlags : ℕ := Mflags.udata ||| Mflags.s2M

/-- The mapping loop from offset `mapped` on: one page every 2 MiB. -/
def mapRounds (cr3 v : ℕ) : ℕ → ℕ → Loading → Except Halt Loading
  | 0, _, l => .ok l
  | n + 1, mapped, l => do
    let l ← backPage segmentFlags cr3 (wadd v mapped) l
    mapRounds cr3 v n (mapped + 0x200000) l

/-- The mapping loop of a segment. The rounds are counted, which is the source's loop as long
as `p_memsz` is not within 2 MiB of `2^64`. -/
def mapSegment (cr3 : ℕ) (ph : Phdr) (l : Loading) : Except Halt Loading :=
  mapRounds cr3 ph.pVaddr ((ph.pMemsz + 0x1fffff) / 0x200000) 0 l

/-- The body of the loop over the program headers. A header is read up to `p_type`, or up to
`p_memsz`, in front of which the other fields are. -/
def loadSegment (cr3 : ℕ) (ph : Phdr) (l : Loading) (b : Bytes) :
    Except Halt (Loading × Bytes) := do
  let l ← access false l.machine.pml4 ph.addr 4 l
  if ph.pType ≠ ptLoad then .ok (l, b)
  else do
    let l ← access false l.machine.pml4 ph.addr 0x30 l
    let l ← mapSegment cr3 ph l
    let l ← access true cr3 ph.pVaddr ph.pMemsz l
    let b := store l.machine.tables.mem cr3 ph.pVaddr (fun _ => 0) ph.pMemsz b
    let l ← copyAccess cr3 ph.pVaddr ph.source ph.pFilesz l
    return (l, store l.machine.tables.mem cr3 ph.pVaddr ph.file ph.pFilesz b)

def loadSegments (cr3 : ℕ) : List Phdr → Loading → Bytes → Except Halt (Loading × Bytes)
  | [], l, b => .ok (l, b)
  | ph :: phs, l, b => do
    let (l, b) ← loadSegment cr3 ph l b
    loadSegments cr3 phs l b

/-- `VSTACK`. -/
def vstack : ℕ := 0x00007fffff000000

/-- `USER_STACK_SIZE`. -/
def userStackSize : ℕ := 0x200000

/-- The stack, and the fields of the result. -/
def finish (cr3 : ℕ) (elf : Elf) (l : Loading) : Except Halt (Program × Loading) := do
  let (ptr, l) ← l.alloc userStackSize
  let l ← l.map cr3 vstack (phys ptr) stackFlags
  return ({
    entry := elf.eEntry
    cr3 := pagingLookup l.machine.tables.mem l.machine.pml4 cr3
    stack := vstack + 4096 - 256 }, l)

/-- The new address space, and the `Elf64_Ehdr` up to `e_phnum`. -/
def start (m : Machine) (cr3 : ℕ) (elf : Elf) : Except Halt Loading := do
  let l ← newSpace m cr3
  access false l.machine.pml4 elf.addr 0x3a l

/-- `program::program(exefile)`; `cr3` is the page that `kmalloc_aligned`
returned. -/
def program (m : Machine) (cr3 : ℕ) (elf : Elf) (b : Bytes) :
    Except Halt (Program × Loading × Bytes) := do
  let l ← start m cr3 elf
  if strncmp elf.eIdent elfMagic 4 ≠ 0 then
    .error (.fatal "Only ELF files are supported for loading!")
  else do
    let (l, b) ← loadSegments cr3 elf.phdrs l b
    let (r, l) ← finish cr3 elf l
    return (r, l, b)

end NeptunOS.Loader
