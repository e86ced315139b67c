import NeptunOS.Loader.KernelHalf

/-!
# `devmgr/module.cc`

`modules_load` gives a module a window of 1 GiB, loads its allocated sections there one behind the
other, notes their addresses in the section headers and then lets `modules_link` apply the
relocations.

The file is given by its section headers, each with the bytes from its `sh_offset` on; that the
headers are themselves in the file is not modelled. `granted` and `written` are no variables of
the source: they collect what `pmm_alloc` has returned and where `modules_link` has stored.
-/

namespace NeptunOS.Modules

open Paging Stepwise Loader

/-! ## The file -/

/-- `SHF_ALLOC`. -/
def shfAlloc : ℕ := 2

/-- `SHT_SYMTAB`. -/
def shtSymtab : ℕ := 2

/-- `SHT_RELA`. -/
def shtRela : ℕ := 4

/-- `SHT_NOBITS`. -/
def shtNobits : ℕ := 8

/-- `SHT_REL`. -/
def shtRel : ℕ := 9

/-- `SHN_UNDEF`. -/
def shnUndef : ℕ := 0

/-- `SHN_ABS`. -/
def shnAbs : ℕ := 0xfff1

/-- `STT_SECTION`. -/
def sttSection : ℕ := 3

/-- `R_X86_64_64`. -/
def rX86_64_64 : ℕ := 1

/-- `Elf64_Shdr`, with the file from `sh_offset` on. -/
structure Shdr where
  shName : ℕ
  shType : ℕ
  shFlags : ℕ
  shAddr : ℕ
  shSize : ℕ
  shInfo : ℕ
  content : ℕ → UInt8

/-- A relocatable file. `shdrs` goes on behind the `e_shnum` headers, for the section indices that
are not checked. -/
structure Elf where
  eShnum : ℕ
  eShstrndx : ℕ
  shdrs : ℕ → Shdr
  /-- `e_shnum` is a `u16`. -/
  shnum_lt : eShnum < 2 ^ 16

/-- `Elf64_Sym`. -/
structure Sym where
  stName : ℕ
  stInfo : ℕ
  stShndx : ℕ
  stValue : ℕ

/-- `symtab[i]`. -/
def symAt (symtab : ℕ → UInt8) (i : ℕ) : Sym where
  stName := leBytes symtab (24 * i) 4
  stInfo := leBytes symtab (24 * i + 4) 1
  stShndx := leBytes symtab (24 * i + 6) 2
  stValue := leBytes symtab (24 * i + 8) 8

/-- `Elf64_Rela`; the addend is taken as a `u64`. -/
structure Rela where
  rOffset : ℕ
  rInfo : ℕ
  rAddend : ℕ
deriving DecidableEq

/-- `rela[j]`. -/
def relaAt (content : ℕ → UInt8) (j : ℕ) : Rela where
  rOffset := leBytes content (24 * j) 8
  rInfo := leBytes content (24 * j + 8) 8
  rAddend := leBytes content (24 * j + 16) 8

/-- The first `n` bytes of the string at `off`. -/
def peek (f : ℕ → UInt8) (off n : ℕ) : List UInt8 := (List.range n).map fun k => f (off + k)

/-- `!strcmp(f + off, name)`. -/
def isNamed (f : ℕ → UInt8) (off : ℕ) (name : List UInt8) : Bool :=
  strcmp (peek f off (name.length + 1)) name = 0

/-! ## Windows -/

/-- `MODULES_BASE`. -/
def modulesBase : ℕ := 0xfffffff000000000

/-- `gibs2bytes(1)`. -/
def windowSize : ℕ := 2 ^ 30

/-- `bm_init` and `bm`. -/
structure Windows where
  bmInit : Bool
  bm : Bitmap

/-- `modbase`, for the next module. A search without result gives `-1`, like any other number. -/
def Windows.take (w : Windows) : Except Halt (ℕ × Windows) := do
  let bm := if w.bmInit then w.bm else Bitmap.init w.bm.buffer 64 false
  let (modid, bm) ← bm.findAndSet
  return (wadd modulesBase (windowSize * modid.getD minusOne), ⟨true, bm⟩)

/-! ## Sections -/

/-- The sections that are loaded: `(sh_flags & SHF_ALLOC) && sh_size`. -/
def Shdr.Loads (h : Shdr) : Prop := h.shFlags &&& shfAlloc ≠ 0 ∧ h.shSize ≠ 0

instance (h : Shdr) : Decidable h.Loads := inferInstanceAs (Decidable (_ ∧ _))

/-- What `memset` or `memcpy` stores. -/
def Shdr.byteAt (h : Shdr) (j : ℕ) : UInt8 := if h.shType = shtNobits then 0 else h.content j

/-- `modules_load` while it goes through the sections. -/
structure State where
  shdrs : ℕ → Shdr
  loading : Loading
  bytes : Bytes
  sectionbase : ℕ

/-- `n` stores from `v` on, under the kernel's tables. -/
def write (v n : ℕ) (src : ℕ → UInt8) (l : Loading) (b : Bytes) :
    Except Halt (Loading × Bytes) := do
  let l ← access true l.machine.pml4 v n l
  return (l, store l.machine.tables.mem l.machine.pml4 v src n b)

/-- `MFLAGS::KDATA | MFLAGS::EXE | PMM_PAGESIZE_FLAG`. -/
def moduleFlags : ℕ := Mflags.kdata ||| Mflags.exe ||| Mflags.s4K

/-- The addresses that the mapping loop looks up, one page past the rounded size. -/
def sectionPages (base size : ℕ) : List ℕ :=
  (List.range (align size 4096 / 4096 + 1)).map fun k => wadd base (4096 * k)

/-- The mapping loop. Its counter is a `u32`, which is never greater than `0xfffff000`. -/
def mapSection (base size : ℕ) (l : Loading) : Except Halt Loading :=
  if 0xfffff000 ≤ align size 4096 then .error .endless
  else (sectionPages base size).foldlM
    (fun l' v => backPage moduleFlags l.machine.pml4 v l') l

/-- The body of the loop over the section headers. -/
def loadSection (i : ℕ) (s : State) : Except Halt State :=
  if (s.shdrs i).Loads then do
    let l ← mapSection s.sectionbase (s.shdrs i).shSize s.loading
    let (l, b) ← write s.sectionbase (s.shdrs i).shSize (s.shdrs i).byteAt l s.bytes
    return {
      shdrs := Function.update s.shdrs i { s.shdrs i with shAddr := s.sectionbase }
      loading := l
      bytes := b
      sectionbase := wadd s.sectionbase (align (s.shdrs i).shSize 32) }
  else .ok s

/-- The first `n` rounds of that loop. -/
def loadSections (elf : Elf) (modbase : ℕ) (m : Machine) (b : Bytes) (n : ℕ) :
    Except Halt State :=
  (List.range n).foldlM (fun s i => loadSection i s) ⟨elf.shdrs, ⟨m, []⟩, b, modbase⟩

/-! ## Relocations -/

/-- A kernel symbol. -/
structure Ksym where
  name : List UInt8
  value : ℕ

/-- What the first loop of `modules_link` looks for. -/
structure Symbols where
  strtab : ℕ → UInt8
  symtab : ℕ → UInt8
  numSyms : ℕ

/-- `".strtab"`. -/
def strtabName : List UInt8 := [0x2e, 0x73, 0x74, 0x72, 0x74, 0x61, 0x62]

/-- `"mod_main"`. -/
def entryName : List UInt8 := [0x6d, 0x6f, 0x64, 0x5f, 0x6d, 0x61, 0x69, 0x6e]

/-- `shstrtab`. -/
def Elf.shstrtab (elf : Elf) : ℕ → UInt8 := (elf.shdrs elf.eShstrndx).content

/-- The first loop of `modules_link`; `x` are its variables before they are set. -/
def findSymbols (elf : Elf) (x : Symbols) : Symbols :=
  (List.range elf.eShnum).foldl (fun x i =>
    if isNamed elf.shstrtab (elf.shdrs i).shName strtabName then
      { x with strtab := (elf.shdrs i).content }
    else if (elf.shdrs i).shType = shtSymtab then
      { x with symtab := (elf.shdrs i).content
               numSyms := (elf.shdrs i).shSize / 24 % 2 ^ 32 }
    else x) x

/-- The second loop: the address of `mod_main`, or 0. -/
def findEntry (x : Symbols) (shdrs : ℕ → Shdr) : ℕ :=
  (List.range x.numSyms).foldl (fun entry i =>
    if isNamed x.strtab (symAt x.symtab i).stName entryName then
      wadd (shdrs (symAt x.symtab i).stShndx).shAddr (symAt x.symtab i).stValue
    else entry) 0

/-- The kernel symbol with the name at `off`. -/
def findKsym (ksyms : List Ksym) (f : ℕ → UInt8) (off : ℕ) : Option Ksym :=
  ksyms.find? fun k => strcmp k.name (peek f off (k.name.length + 1)) = 0

/-- `address`, if it is found. -/
def resolve (ksyms : List Ksym) (elf : Elf) (x : Symbols) (shdrs : ℕ → Shdr) (y : Sym) :
    Option ℕ :=
  if y.stShndx = shnUndef then
    (if y.stInfo = sttSection then findKsym ksyms elf.shstrtab (shdrs y.stShndx).shName
     else findKsym ksyms x.strtab y.stName).map Ksym.value
  else some (wadd (shdrs y.stShndx).shAddr y.stValue)

/-- `modules_link` while it goes through the relocations. -/
structure Linking where
  loading : Loading
  bytes : Bytes
  written : List ℕ

/-- The bytes of a `u64`. -/
def wordByte (x k : ℕ) : UInt8 := UInt8.ofNat (x / 256 ^ k)

/-- The body of the loop over the relocations of a section. -/
def relocate (ksyms : List Ksym) (elf : Elf) (x : Symbols) (shdrs : ℕ → Shdr) (linkee : ℕ)
    (r : Rela) (k : Linking) : Except Halt Linking :=
  match resolve ksyms elf x shdrs (symAt x.symtab (r.rInfo >>> 32)) with
  | none => .error (.fatal "Szimbolum nem talalhato: %s")
  | some address =>
    if r.rInfo &&& 0xffffffff = rX86_64_64 then do
      let v := wadd (shdrs linkee).shAddr r.rOffset
      let (l, b) ← write v 8 (wordByte (wadd address r.rAddend)) k.loading k.bytes
      return ⟨l, b, k.written ++ [v]⟩
    else .error (.fatal "Unsupported reloc type: %lld")

/-- `num_rela`. -/
def Shdr.numRela (h : Shdr) : ℕ := h.shSize / 24 % 2 ^ 32

/-- The body of the last loop of `modules_link`. -/
def linkSection (ksyms : List Ksym) (elf : Elf) (x : Symbols) (shdrs : ℕ → Shdr) (i : ℕ)
    (k : Linking) : Except Halt Linking :=
  if (shdrs i).shType = shtRel then .error (.fatal "'%s' nevu section rel!")
  else if (shdrs i).shType ≠ shtRela then .ok k
  else (List.range (shdrs i).numRela).foldlM (fun k j =>
    relocate ksyms elf x shdrs (shdrs i).shInfo (relaAt (shdrs i).content j) k) k

/-- `modules_link`, after the sections have been loaded; `x` are its variables before they are
set. -/
def modulesLink (ksyms : List Ksym) (elf : Elf) (x : Symbols) (s : State) :
    Except Halt (ℕ × Linking) :=
  let x := findSymbols elf x
  let entry := findEntry x s.shdrs
  if entry = 0 then
    .error (.fatal "Entry point not found as '%s'! Is the mangling correct?")
  else do
    let k ← (List.range elf.eShnum).foldlM
      (fun k i => linkSection ksyms elf x s.shdrs i k) ⟨s.loading, s.bytes, []⟩
    return (entry, k)

/-- What `modules_load` leaves behind. -/
structure Result where
  windows : Windows
  modbase : ℕ
  shdrs : ℕ → Shdr
  entry : ℕ
  linking : Linking

/-- `modules_load`. -/
def modulesLoad (ksyms : List Ksym) (x : Symbols) (w : Windows) (elf : Elf) (m : Machine)
    (b : Bytes) : Except Halt Result := do
  let (modbase, w) ← w.take
  let s ← loadSections elf modbase m b elf.eShnum
  let (entry, k) ← modulesLink ksyms elf x s
  return ⟨w, modbase, s.shdrs, entry, k⟩

end NeptunOS.Modules
