import NeptunOS.Devmgr.Placement

/-!
# What `modules_link` stores

The section headers double as the table of load addresses. That works for the sections that were
loaded; the header of any other section still has the `sh_addr` of the file, and for a special
section index such as `SHN_ABS` the header is whatever lies behind the table. Neither the target of
a relocation section nor the section of a symbol is checked.

`relocated_iff` says for which files the relocations come out right: `Inside` is about the targets,
`Due` about the symbols. Where relocations overlap, the last one over a byte decides (`fields`).
-/

namespace NeptunOS.Modules

open Paging Stepwise Loader Mapping

/-- An entry of a relocation section, with the section that it is for. -/
structure Relocation where
  linkee : ℕ
  entry : Rela
deriving DecidableEq

/-- The relocations of the first `n` sections, in the order in which they are applied. -/
def relocations (elf : Elf) (n : ℕ) : List Relocation :=
  (List.range n).flatMap fun i =>
    if (elf.shdrs i).shType = shtRela then
      (List.range (elf.shdrs i).numRela).map fun j =>
        ⟨(elf.shdrs i).shInfo, relaAt (elf.shdrs i).content j⟩
    else []

/-- What `modules_link` works with: `symbols` are its variables after the first loop. -/
structure Link where
  ksyms : List Ksym
  elf : Elf
  symbols : Symbols
  modbase : ℕ

/-- For a file that is loaded at `modbase`; `x` are the variables before the first loop. -/
def linkOf (ksyms : List Ksym) (x : Symbols) (elf : Elf) (modbase : ℕ) : Link :=
  ⟨ksyms, elf, findSymbols elf x, modbase⟩

namespace Link

variable (L : Link)

/-- The section headers after loading. -/
def shdrs : ℕ → Shdr := L.elf.placed L.modbase L.elf.eShnum

def relocs : List Relocation := relocations L.elf L.elf.eShnum

def symbol (r : Relocation) : Sym := symAt L.symbols.symtab (r.entry.rInfo >>> 32)

/-- `qwptr`. -/
def place (r : Relocation) : ℕ := wadd (L.shdrs r.linkee).shAddr r.entry.rOffset

/-- `address + rela[j].r_addend`. -/
def value (r : Relocation) : ℕ :=
  wadd ((resolve L.ksyms L.elf L.symbols L.shdrs (L.symbol r)).getD 0) r.entry.rAddend

/-- Section `i` has been loaded. -/
def Loaded (i : ℕ) : Prop := i < L.elf.eShnum ∧ (L.elf.shdrs i).Loads

instance (i : ℕ) : Decidable (L.Loaded i) := inferInstanceAs (Decidable (_ ∧ _))

/-! ## A relocated module -/

/-- The final address of a symbol, if it has one. -/
def finalAddress (y : Sym) : Option ℕ :=
  if y.stShndx = shnUndef then (findKsym L.ksyms L.symbols.strtab y.stName).map Ksym.value
  else if y.stShndx = shnAbs then some y.stValue
  else if L.Loaded y.stShndx then some (wadd (L.elf.addr L.modbase y.stShndx) y.stValue)
  else none

/-- All relocations are of type `R_X86_64_64`, and undefined symbols occur in `ksyms`. A section
symbol is not undefined. -/
structure Relocatable : Prop where
  types : ∀ r ∈ L.relocs, r.entry.rInfo &&& 0xffffffff = rX86_64_64
  undefined : ∀ r ∈ L.relocs, (L.symbol r).stShndx = shnUndef →
    (L.symbol r).stInfo ≠ sttSection ∧
      (findKsym L.ksyms L.symbols.strtab (L.symbol r).stName).isSome = true

/-- The relocations of loaded sections are in memory, and nothing has been written outside of the
loaded sections. -/
structure Relocated (k : Linking) : Prop where
  stored : ∀ r ∈ L.relocs, L.Loaded r.linkee → ∃ S, L.finalAddress (L.symbol r) = some S ∧
    ∀ i < 8, see k.loading.machine.translate k.bytes
      (wadd (wadd (L.elf.addr L.modbase r.linkee) r.entry.rOffset) i) =
        some (wordByte (wadd S r.entry.rAddend) i)
  inside : ∀ v ∈ k.written, ∀ i < 8, Used L.elf L.modbase (wadd v i)

/-! ## What it takes -/

/-- The last symbol with the name `mod_main` has an address. -/
def HasMain : Prop :=
  ∃ i < L.symbols.numSyms, isNamed L.symbols.strtab (symAt L.symbols.symtab i).stName entryName ∧
    (∀ k, i < k → k < L.symbols.numSyms →
      ¬ isNamed L.symbols.strtab (symAt L.symbols.symtab k).stName entryName) ∧
    wadd (L.shdrs (symAt L.symbols.symtab i).stShndx).shAddr (symAt L.symbols.symtab i).stValue ≠ 0

/-- No section is of type `SHT_REL`. -/
def NoRel : Prop := ∀ i < L.elf.eShnum, (L.elf.shdrs i).shType ≠ shtRel

/-- The places of all relocations are in loaded sections. -/
def Inside : Prop := ∀ r ∈ L.relocs, ∀ i < 8, Used L.elf L.modbase (wadd (L.place r) i)

/-- What a relocation stores at `a`. -/
def field (r : Relocation) (a : ℕ) : Option UInt8 :=
  if wsub a (L.place r) < 8 then some (wordByte (L.value r) (wsub a (L.place r))) else none

/-- What the last of the relocations over `a` stores there. -/
def fields (rs : List Relocation) (a : ℕ) : Option UInt8 :=
  rs.foldl (fun o r => (L.field r a).or o) none

/-- The bytes that are due are stored last. -/
def Due : Prop :=
  ∀ r ∈ L.relocs, L.Loaded r.linkee → ∃ S, L.finalAddress (L.symbol r) = some S ∧
    ∀ i < 8, L.fields L.relocs (wadd (L.place r) i) = some (wordByte (wadd S r.entry.rAddend) i)

/-- Relocations do not overlap. -/
def Apart : Prop :=
  L.relocs.Pairwise fun r r' => ∀ i < 8, ∀ k < 8, wadd (L.place r) i ≠ wadd (L.place r') k

/-- A symbol that the headers resolve: it is undefined, or its section has been loaded, or it is
absolute and there is a zero where header `SHN_ABS` would have its address. -/
def Resolves (y : Sym) : Prop :=
  y.stShndx = shnUndef ∨
    y.stShndx = shnAbs ∧ (L.shdrs shnAbs).shAddr % 2 ^ 64 = 0 ∨
    y.stShndx ≠ shnAbs ∧ L.Loaded y.stShndx

end Link

/-! ## Words -/

/-- Eight bytes tell two words apart. -/
theorem wordByte_inj {x y : ℕ} (hx : x < 2 ^ 64) (hy : y < 2 ^ 64)
    (h : ∀ k < 8, wordByte x k = wordByte y k) : x = y := by
  have hbyte : ∀ k < 8, x / 256 ^ k % 256 = y / 256 ^ k % 256 := by
    intro k hk
    have := congrArg UInt8.toNat (h k hk)
    rwa [wordByte, wordByte, UInt8.toNat_ofNat', UInt8.toNat_ofNat'] at this
  have h0 := hbyte 0 (by decide)
  have h1 := hbyte 1 (by decide)
  have h2 := hbyte 2 (by decide)
  have h3 := hbyte 3 (by decide)
  have h4 := hbyte 4 (by decide)
  have h5 := hbyte 5 (by decide)
  have h6 := hbyte 6 (by decide)
  have h7 := hbyte 7 (by decide)
  omega

theorem wsub_wadd_left {v k : ℕ} (hv : v < 2 ^ 64) (hk : k < 2 ^ 64) : wsub (wadd v k) v = k := by
  unfold wsub wadd
  omega

theorem wadd_wsub_left {a v : ℕ} (ha : a < 2 ^ 64) (hv : v < 2 ^ 64) : wadd v (wsub a v) = a := by
  unfold wsub wadd
  omega

/-! ## The loops of `modules_link` -/

namespace Link

/-- One relocation. -/
def apply (L : Link) (k : Linking) (r : Relocation) : Except Halt Linking :=
  relocate L.ksyms L.elf L.symbols L.shdrs r.linkee r.entry k

/-- The last loop, up to section `n`. -/
def linkAll (L : Link) (n : ℕ) (k : Linking) : Except Halt Linking :=
  (List.range n).foldlM (fun k i => linkSection L.ksyms L.elf L.symbols L.shdrs i k) k

section Loops

variable {L : Link} {n : ℕ} {k k' : Linking} {r : Relocation}

/-- The second loop looks for the last `mod_main`. -/
theorem findEntry_ne_zero : findEntry L.symbols L.shdrs ≠ 0 ↔ L.HasMain := by
  unfold findEntry HasMain
  generalize L.symbols.numSyms = n
  induction n with
  | zero => simp
  | succ n ih =>
    rw [List.range_succ, List.foldl_append, List.foldl_cons, List.foldl_nil]
    split
    case isTrue hnamed =>
      constructor
      · intro hne
        exact ⟨n, Nat.lt_succ_self n, hnamed, fun k hk hk' => absurd hk' (by omega), hne⟩
      · rintro ⟨i, hi, -, hlast, hne⟩
        have heq : i = n := by
          by_contra hin
          exact hlast n (by omega) (Nat.lt_succ_self n) hnamed
        rwa [heq] at hne
    case isFalse hnamed =>
      rw [ih]
      constructor
      · rintro ⟨i, hi, hi', hlast, hne⟩
        refine ⟨i, by omega, hi', fun k hk hk' => ?_, hne⟩
        rcases Nat.lt_succ_iff_lt_or_eq.mp hk' with hk' | rfl
        · exact hlast k hk hk'
        · exact hnamed
      · rintro ⟨i, hi, hi', hlast, hne⟩
        have hin : i ≠ n := by
          rintro rfl
          exact hnamed hi'
        exact ⟨i, by omega, hi', fun k hk hk' => hlast k hk (by omega), hne⟩

/-- Loading changes nothing but the addresses in the headers. -/
theorem shdrs_eq (L : Link) (i : ℕ) :
    L.shdrs i = { L.elf.shdrs i with shAddr := (L.shdrs i).shAddr } := by
  unfold shdrs Elf.placed
  split
  · rfl
  · rfl

theorem shAddr_of_loaded {i : ℕ} (h : L.Loaded i) :
    (L.shdrs i).shAddr = L.elf.addr L.modbase i := by
  rw [shdrs, Elf.placed, if_pos ⟨h.1, h.2⟩]

theorem linkAll_succ (L : Link) (n : ℕ) (k : Linking) : L.linkAll (n + 1) k =
    L.linkAll n k >>= linkSection L.ksyms L.elf L.symbols L.shdrs n := by
  rw [linkAll, linkAll, List.range_succ, List.foldlM_append]
  congr 1
  funext k
  rw [List.foldlM_cons]
  exact bind_pure _

theorem linkSection_eq {i : ℕ} (h : (L.elf.shdrs i).shType ≠ shtRel) :
    linkSection L.ksyms L.elf L.symbols L.shdrs i k =
      (if (L.elf.shdrs i).shType = shtRela then
        (List.range (L.elf.shdrs i).numRela).map fun j =>
          (⟨(L.elf.shdrs i).shInfo, relaAt (L.elf.shdrs i).content j⟩ : Relocation)
      else []).foldlM L.apply k := by
  unfold linkSection
  rw [L.shdrs_eq i]
  rw [if_neg h]
  by_cases hrela : (L.elf.shdrs i).shType = shtRela
  · rw [if_neg (not_not_intro hrela), if_pos hrela, List.foldlM_map]
    rfl
  · rw [if_pos hrela, if_neg hrela]
    rfl

/-- Without sections of the other type, the loops go through the relocations. -/
theorem linkAll_eq (h : ∀ i < n, (L.elf.shdrs i).shType ≠ shtRel) :
    L.linkAll n k = (relocations L.elf n).foldlM L.apply k := by
  induction n with
  | zero => rfl
  | succ n ih =>
    rw [linkAll_succ, ih fun i hi => h i (Nat.lt_succ_of_lt hi), relocations, relocations,
      List.range_succ, List.flatMap_append, List.foldlM_append, List.flatMap_singleton]
    congr 1
    funext k
    exact linkSection_eq (h n (Nat.lt_succ_self n))

theorem noRel_of_linkAll (h : L.linkAll n k = .ok k') :
    ∀ i < n, (L.elf.shdrs i).shType ≠ shtRel := by
  induction n generalizing k' with
  | zero => exact fun i hi => absurd hi (Nat.not_lt_zero i)
  | succ n ih =>
    rw [linkAll_succ] at h
    obtain ⟨k₁, h₁, h⟩ := bind_eq_ok.mp h
    intro i hi
    rcases Nat.lt_succ_iff_lt_or_eq.mp hi with hi | rfl
    · exact ih h₁ i hi
    · intro hrel
      unfold linkSection at h
      rw [L.shdrs_eq i, if_pos hrel] at h
      cases h

theorem apply_written (h : L.apply k r = .ok k') : k'.written = k.written ++ [L.place r] := by
  unfold apply relocate at h
  split at h
  · cases h
  · split at h
    case isTrue =>
      obtain ⟨⟨l, b⟩, _, h⟩ := bind_eq_ok.mp h
      cases h
      rfl
    case isFalse => cases h

theorem applyAll_written {rs : List Relocation} (h : rs.foldlM L.apply k = .ok k') :
    k'.written = k.written ++ rs.map L.place := by
  induction rs generalizing k with
  | nil =>
    cases h
    exact (List.append_nil _).symm
  | cons r rs ih =>
    rw [List.foldlM_cons] at h
    obtain ⟨k₁, h₁, h⟩ := bind_eq_ok.mp h
    rw [ih h, apply_written h₁, List.append_assoc]
    rfl

end Loops

/-! ## Memory -/

/-- The loaded sections have frames of their own. -/
structure Room (L : Link) (l : Loading) : Prop where
  canonical : ∀ a, Used L.elf L.modbase a → Canonical a
  notHeap : ∀ a, Used L.elf L.modbase a → ¬ Machine.HeapWindow a
  mapped : ∀ a, Used L.elf L.modbase a → (l.machine.translate a).isSome = true
  writable : ∀ a, Used L.elf L.modbase a →
    Loader.Writable l.machine.tables.mem l.machine.pml4 a
  separate : Separate l.machine.translate (Used L.elf L.modbase)

theorem room {L : Link} {m : Machine} {s : State} (hs : Site L.elf L.modbase m)
    (hp : Placing L.elf L.modbase m L.elf.eShnum s) (h : Exclusive L.elf L.modbase m) :
    L.Room s.loading where
  canonical _ ha := ha.canonical hs
  notHeap a ha := by
    obtain ⟨i, hi, hl, j, hj, rfl⟩ := ha
    exact hs.byte_not_heap hi hl hj
  mapped a ha := by
    obtain ⟨i, hi, hl, j, hj, rfl⟩ := ha
    exact hp.mapped i hi hl j hj
  writable a ha := by
    obtain ⟨i, hi, hl, j, hj, rfl⟩ := ha
    rw [hp.backed.pml4]
    exact hp.backed.writable_iff.mpr (hp.writable i hi hl j hj)
  separate a a' p ha ha' hq hq' := by
    rw [hp.cell_eq (ha.canonical hs)] at hq
    rw [hp.cell_eq (ha'.canonical hs)] at hq'
    exact h.separate_cells hp.backed.grants a a' p ha ha' hq hq'

section Fields

variable {L : Link} {rs : List Relocation} {r : Relocation} {a i : ℕ}

theorem place_lt (L : Link) (r : Relocation) : L.place r < 2 ^ 64 := wadd_lt _ _

theorem value_lt (L : Link) (r : Relocation) : L.value r < 2 ^ 64 := wadd_lt _ _

theorem field_self (hi : i < 8) :
    L.field r (wadd (L.place r) i) = some (wordByte (L.value r) i) := by
  rw [field, wsub_wadd_left (L.place_lt r) (by omega), if_pos hi]

theorem field_eq_none (ha : a < 2 ^ 64) (h : ∀ i < 8, wadd (L.place r) i ≠ a) :
    L.field r a = none := by
  rw [field, if_neg]
  intro hlt
  exact h _ hlt (wadd_wsub_left ha (L.place_lt r))

theorem fields_snoc (L : Link) (rs : List Relocation) (r : Relocation) (a : ℕ) :
    L.fields (rs ++ [r]) a = (L.field r a).or (L.fields rs a) := by
  rw [fields, List.foldl_append]
  rfl

theorem fields_isSome (hr : r ∈ rs) (hi : i < 8) :
    (L.fields rs (wadd (L.place r) i)).isSome = true := by
  induction rs using List.reverseRecOn with
  | nil => cases hr
  | append_singleton rs r' ih =>
    rw [fields_snoc, Option.isSome_or, Bool.or_eq_true]
    rcases List.mem_append.mp hr with hr | hr
    · exact .inr (ih hr)
    · obtain rfl := List.mem_singleton.mp hr
      exact .inl (by rw [field_self hi]; rfl)

end Fields

/-- Memory after the relocations `rs`. -/
structure Applied (L : Link) (l : Loading) (b : Bytes) (rs : List Relocation) (k : Linking) :
    Prop where
  loading : k.loading = l
  bytes : ∀ a p, Used L.elf L.modbase a → l.machine.translate a = some p →
    k.bytes p = (L.fields rs a).getD (b p)

section Apply

variable {L : Link} {l : Loading} {b : Bytes} {rs : List Relocation} {r : Relocation} {k : Linking}

/-- What a relocation needs. -/
theorem resolve_isSome (h : L.Relocatable) (hr : r ∈ L.relocs) :
    (resolve L.ksyms L.elf L.symbols L.shdrs (L.symbol r)).isSome = true := by
  unfold resolve
  split
  case isTrue hundef =>
    obtain ⟨hsection, hfound⟩ := h.undefined r hr hundef
    rw [if_neg hsection, Option.isSome_map]
    exact hfound
  case isFalse => rfl

/-- A relocation whose place is inside the sections. -/
theorem Applied.apply (h : L.Applied l b rs k) (hroom : L.Room l) (hrel : L.Relocatable)
    (hr : r ∈ L.relocs) (hin : ∀ i < 8, Used L.elf L.modbase (wadd (L.place r) i)) :
    ∃ k', L.apply k r = .ok k' ∧ L.Applied l b (rs ++ [r]) k' := by
  obtain ⟨address, haddress⟩ := Option.isSome_iff_exists.mp (resolve_isSome hrel hr)
  have hvalue : wadd address r.entry.rAddend = L.value r := by
    rw [value, haddress, Option.getD_some]
  have hwrite : write (L.place r) 8 (wordByte (L.value r)) k.loading k.bytes = .ok _ :=
    (write_eq_ok_iff (fun i hi => hroom.notHeap _ (hin i hi))
      (fun i hi => hroom.canonical _ (hin i hi))
      (fun i hi => h.loading ▸ hroom.mapped _ (hin i hi))).mpr
      ⟨fun i hi => h.loading ▸ hroom.writable _ (hin i hi), rfl⟩
  refine ⟨⟨k.loading, put k.loading.machine.translate (wadd (L.place r)) (wordByte (L.value r)) 8
    k.bytes, k.written ++ [L.place r]⟩, ?_, h.loading, ?_⟩
  · unfold Link.apply relocate
    rw [show resolve L.ksyms L.elf L.symbols L.shdrs
      (symAt L.symbols.symtab (r.entry.rInfo >>> 32)) = some address from haddress]
    dsimp only
    rw [if_pos (hrel.types r hr), hvalue, show wadd (L.shdrs r.linkee).shAddr r.entry.rOffset =
      L.place r from rfl, hwrite, ok_bind]
    rfl
  · intro a p ha hp
    have hold := h.bytes a p ha hp
    show put k.loading.machine.translate (wadd (L.place r)) (wordByte (L.value r)) 8 k.bytes p = _
    rw [h.loading, fields_snoc]
    have hsame : ∀ i < 8, l.machine.translate (wadd (L.place r) i) = some p →
        wadd (L.place r) i = a := fun i hi hpi => hroom.separate _ a p (hin i hi) ha hpi hp
    by_cases hcover : ∃ i < 8, wadd (L.place r) i = a
    · obtain ⟨i, hi, rfl⟩ := hcover
      rw [field_self hi, Option.some_or, Option.getD_some]
      refine put_eq (fun j hj hpj => ?_) (.inr ⟨i, hi, hp⟩)
      rw [wadd_left_cancel (by omega) (by omega) (hsame j hj hpj)]
    · have hnot : ∀ i < 8, wadd (L.place r) i ≠ a := fun i hi heq => hcover ⟨i, hi, heq⟩
      obtain ⟨_, _, _, _, _, haeq⟩ := ha
      rw [field_eq_none (haeq ▸ wadd_lt _ _) hnot, Option.none_or,
        put_apply_other fun i hi hpi => hnot i hi (hsame i hi hpi), hold]

/-- Relocations whose places are inside are applied. -/
theorem applyAll (hroom : L.Room l) (hrel : L.Relocatable) (hrs : ∀ r ∈ rs, r ∈ L.relocs)
    (hin : ∀ r ∈ rs, ∀ i < 8, Used L.elf L.modbase (wadd (L.place r) i)) :
    ∃ k, rs.foldlM L.apply ⟨l, b, []⟩ = .ok k ∧ L.Applied l b rs k := by
  induction rs using List.reverseRecOn with
  | nil => exact ⟨_, rfl, rfl, fun a p _ _ => rfl⟩
  | append_singleton rs r ih =>
    obtain ⟨k₁, h₁, happlied⟩ := ih (fun r hr => hrs r (List.mem_append_left _ hr))
      fun r hr => hin r (List.mem_append_left _ hr)
    obtain ⟨k, hk, hstep⟩ := happlied.apply hroom hrel (hrs r (by simp)) (hin r (by simp))
    refine ⟨k, ?_, hstep⟩
    rw [List.foldlM_append, h₁, ok_bind, List.foldlM_cons, hk, ok_bind]
    rfl

end Apply

/-! ## Symbols -/

section Symbols

variable {L : Link} {r : Relocation}

/-- Where nothing overlaps, each relocation's own bytes stay. -/
theorem fields_of_apart {rs : List Relocation} {i : ℕ}
    (h : rs.Pairwise fun r r' => ∀ i < 8, ∀ k < 8, wadd (L.place r) i ≠ wadd (L.place r') k)
    (hr : r ∈ rs) (hi : i < 8) :
    L.fields rs (wadd (L.place r) i) = some (wordByte (L.value r) i) := by
  induction rs using List.reverseRecOn with
  | nil => cases hr
  | append_singleton rs r' ih =>
    obtain ⟨hrs, -, hlast⟩ := List.pairwise_append.mp h
    rw [fields_snoc]
    rcases List.mem_append.mp hr with hr | hr
    · rw [field_eq_none (wadd_lt _ _) fun k hk =>
        (hlast r hr r' (List.mem_singleton_self r') i hi k hk).symm, Option.none_or, ih hrs hr]
    · obtain rfl := List.mem_singleton.mp hr
      rw [field_self hi, Option.some_or]

/-- The headers give a symbol its final address in three cases. -/
theorem value_eq_iff (h : L.Relocatable) (hr : r ∈ L.relocs) :
    (∃ S, L.finalAddress (L.symbol r) = some S ∧ L.value r = wadd S r.entry.rAddend) ↔
      L.Resolves (L.symbol r) := by
  unfold finalAddress Resolves value resolve
  by_cases hundef : (L.symbol r).stShndx = shnUndef
  · obtain ⟨hsection, hfound⟩ := h.undefined r hr hundef
    obtain ⟨y, hy⟩ := Option.isSome_iff_exists.mp hfound
    rw [if_pos hundef, if_pos hundef, if_neg hsection, hy]
    exact iff_of_true ⟨y.value, rfl, rfl⟩ (.inl hundef)
  · rw [if_neg hundef, if_neg hundef, Option.getD_some]
    by_cases habs : (L.symbol r).stShndx = shnAbs
    · rw [if_pos habs, habs]
      have hiff : wadd (wadd (L.shdrs shnAbs).shAddr (L.symbol r).stValue) r.entry.rAddend =
          wadd (L.symbol r).stValue r.entry.rAddend ↔ (L.shdrs shnAbs).shAddr % 2 ^ 64 = 0 := by
        unfold wadd
        omega
      have hne : shnAbs ≠ shnUndef := by decide
      simp [hiff, hne]
    · rw [if_neg habs]
      by_cases hloaded : L.Loaded (L.symbol r).stShndx
      · rw [if_pos hloaded, shAddr_of_loaded hloaded]
        exact iff_of_true ⟨_, rfl, rfl⟩ (.inr (.inr ⟨habs, hloaded⟩))
      · rw [if_neg hloaded]
        refine iff_of_false (fun ⟨S, hS, _⟩ => by cases hS) ?_
        rintro (hu | ⟨ha, -⟩ | ⟨-, hl⟩)
        · exact hundef hu
        · exact habs ha
        · exact hloaded hl

theorem due_iff (h : L.Relocatable) (hapart : L.Apart) :
    L.Due ↔ ∀ r ∈ L.relocs, L.Loaded r.linkee → L.Resolves (L.symbol r) := by
  refine forall_congr' fun r => forall_congr' fun hr => imp_congr_right fun _ => ?_
  rw [← value_eq_iff h hr]
  refine exists_congr fun S => and_congr_right fun _ => ?_
  constructor
  · intro hbytes
    refine wordByte_inj (L.value_lt r) (wadd_lt _ _) fun i hi => ?_
    have hbyte := hbytes i hi
    rw [fields_of_apart hapart hr hi] at hbyte
    exact Option.some.inj hbyte
  · intro hvalue i hi
    rw [fields_of_apart hapart hr hi, hvalue]

end Symbols

/-! ## The whole function -/

section Whole

variable {L : Link} {l : Loading} {b : Bytes} {k : Linking}

theorem place_of_loaded {r : Relocation} (h : L.Loaded r.linkee) :
    wadd (L.elf.addr L.modbase r.linkee) r.entry.rOffset = L.place r := by
  rw [place, shAddr_of_loaded h]

/-- What is seen at the place of a relocation. -/
theorem Applied.see_eq (h : L.Applied l b L.relocs k) (hroom : L.Room l) (hin : L.Inside)
    {r : Relocation} (hr : r ∈ L.relocs) {i : ℕ} (hi : i < 8) :
    see k.loading.machine.translate k.bytes (wadd (L.place r) i) =
      L.fields L.relocs (wadd (L.place r) i) := by
  obtain ⟨p, hp⟩ := Option.isSome_iff_exists.mp (hroom.mapped _ (hin r hr i hi))
  obtain ⟨x, hx⟩ := Option.isSome_iff_exists.mp (@fields_isSome L L.relocs r i hr hi)
  rw [see, h.loading, hp, Option.map_some, h.bytes _ p (hin r hr i hi) hp, hx, Option.getD_some]

/-- After all relocations, memory holds what is due if it was stored last. -/
theorem Applied.relocated_iff_due (h : L.Applied l b L.relocs k) (hroom : L.Room l)
    (hin : L.Inside) (hwritten : k.written = L.relocs.map L.place) :
    L.Relocated k ↔ L.Due := by
  constructor
  · intro hrelocated r hr hl
    obtain ⟨S, hS, hbytes⟩ := hrelocated.stored r hr hl
    refine ⟨S, hS, fun i hi => ?_⟩
    rw [← h.see_eq hroom hin hr hi, ← hbytes i hi, place_of_loaded hl]
  · intro hdue
    constructor
    case stored =>
      intro r hr hl
      obtain ⟨S, hS, hbytes⟩ := hdue r hr hl
      refine ⟨S, hS, fun i hi => ?_⟩
      rw [place_of_loaded hl, h.see_eq hroom hin hr hi, hbytes i hi]
    case inside =>
      intro v hv i hi
      rw [hwritten] at hv
      obtain ⟨r, hr, rfl⟩ := List.mem_map.mp hv
      exact hin r hr i hi

/-- `modules_link` returns and leaves the relocations in place. -/
theorem linkAll_relocated_iff (hroom : L.Room l) (hrel : L.Relocatable) :
    (∃ k, L.linkAll L.elf.eShnum ⟨l, b, []⟩ = .ok k ∧ L.Relocated k) ↔
      L.NoRel ∧ L.Inside ∧ L.Due := by
  constructor
  · rintro ⟨k, hk, hrelocated⟩
    have hnoRel := noRel_of_linkAll hk
    rw [linkAll_eq hnoRel] at hk
    have hwritten := applyAll_written hk
    rw [List.nil_append] at hwritten
    have hin : L.Inside := by
      intro r hr i hi
      refine hrelocated.inside _ ?_ i hi
      rw [hwritten]
      exact List.mem_map_of_mem hr
    obtain ⟨k', hk', happlied⟩ := @applyAll L l b L.relocs hroom hrel (fun r hr => hr) hin
    obtain rfl := Except.ok.inj (hk.symm.trans hk')
    exact ⟨hnoRel, hin, (happlied.relocated_iff_due hroom hin hwritten).mp hrelocated⟩
  · rintro ⟨hnoRel, hin, hdue⟩
    obtain ⟨k, hk, happlied⟩ := @applyAll L l b L.relocs hroom hrel (fun r hr => hr) hin
    have hwritten := applyAll_written hk
    refine ⟨k, ?_, (happlied.relocated_iff_due hroom hin hwritten).mpr hdue⟩
    rw [linkAll_eq hnoRel]
    exact hk

end Whole

end Link

section Load

variable {ksyms : List Ksym} {x : Symbols} {w w' : Windows} {elf : Elf} {modbase : ℕ}
  {m : Machine} {b : Bytes} {s : State}

/-- `modules_load` after the sections. -/
theorem modulesLoad_eq_ok (htake : w.take = .ok (modbase, w'))
    (hload : loadSections elf modbase m b elf.eShnum = .ok s)
    (hshdrs : s.shdrs = elf.placed modbase elf.eShnum) (P : Linking → Prop) :
    (∃ R, modulesLoad ksyms x w elf m b = .ok R ∧ P R.linking) ↔
      (linkOf ksyms x elf modbase).HasMain ∧
        ∃ k, (linkOf ksyms x elf modbase).linkAll elf.eShnum ⟨s.loading, s.bytes, []⟩ = .ok k ∧
          P k := by
  rw [← Link.findEntry_ne_zero]
  unfold modulesLoad
  rw [htake, ok_bind]
  dsimp only
  rw [hload, ok_bind]
  unfold modulesLink
  dsimp only
  rw [hshdrs]
  split
  case isTrue hzero =>
    refine iff_of_false ?_ fun h => h.1 hzero
    rintro ⟨R, h, -⟩
    cases h
  case isFalse hne =>
    constructor
    · rintro ⟨R, h, hP⟩
      obtain ⟨⟨entry, k⟩, hlink, h⟩ := bind_eq_ok.mp h
      obtain ⟨k', hk, hlink⟩ := bind_eq_ok.mp hlink
      cases hlink
      cases h
      exact ⟨hne, k, hk, hP⟩
    · rintro ⟨-, k, hk, hP⟩
      refine ⟨⟨w', modbase, elf.placed modbase elf.eShnum,
        findEntry (findSymbols elf x) (elf.placed modbase elf.eShnum), k⟩, ?_, hP⟩
      exact bind_eq_ok.mpr ⟨(_, k), bind_eq_ok.mpr ⟨k, hk, rfl⟩, rfl⟩

/-- **Relocation of a module.** For a file whose relocations are all of type `R_X86_64_64` and
whose undefined symbols are kernel symbols, once its sections are loaded: `modules_load` returns,
with `S + A` at the place of every relocation of a loaded section and without a write outside of
the loaded sections, if and only if the file has a `mod_main` and no section of type `SHT_REL`, all
relocations are for places in loaded sections, and what is stored last at each place is due there.
If no relocations overlap, this is so if their symbols are undefined, or in loaded sections, or
absolute where the memory behind the headers happens to be zero. -/
theorem relocated_iff (hw : w.Ready) (htake : w.take = .ok (modbase, w'))
    (hwf : WellFormed m.tables m.pml4) (htotal : total elf.shdrs elf.eShnum < 2 ^ 46)
    (hng : ∀ v ∈ visits elf modbase elf.eShnum, NoGiant m.tables.mem m.pml4 v)
    (hexclusive : Exclusive elf modbase m)
    (hload : loadSections elf modbase m b elf.eShnum = .ok s)
    (hrel : (linkOf ksyms x elf modbase).Relocatable) :
    let L := linkOf ksyms x elf modbase
    ((∃ R, modulesLoad ksyms x w elf m b = .ok R ∧ L.Relocated R.linking) ↔
      L.HasMain ∧ L.NoRel ∧ L.Inside ∧ L.Due) ∧
    (L.Apart →
      (L.Due ↔ ∀ r ∈ L.relocs, L.Loaded r.linkee → L.Resolves (L.symbol r))) := by
  intro L
  have hs : Site elf modbase m := ⟨hwf, w.take_window hw htake, htotal, hng⟩
  have hp := loadSections_placing hs (Nat.le_refl _) hload
  have hroom : L.Room s.loading := Link.room hs hp hexclusive
  refine ⟨?_, Link.due_iff hrel⟩
  rw [modulesLoad_eq_ok htake hload hp.shdrs L.Relocated]
  exact and_congr_right fun _ => Link.linkAll_relocated_iff hroom hrel

end Load

/-! ## Two files -/

def fileBytes (bs : List UInt8) (k : ℕ) : UInt8 := bs.getD k 0

/-- `.symtab`: nothing, `mod_main` in the first section, and an absolute symbol. -/
def symtabBytes : List UInt8 :=
  List.replicate 24 0 ++
    [1, 0, 0, 0, 0x12, 0, 1, 0] ++ List.replicate 16 0 ++
    [0, 0, 0, 0, 0x10, 0, 0xf1, 0xff, 0x34, 0x12, 0, 0, 0, 0, 0, 0] ++ List.replicate 8 0

/-- `.rela.text`: a word at 8, for symbol `n` plus 4. -/
def relaBytes (n : UInt8) : List UInt8 :=
  [8, 0, 0, 0, 0, 0, 0, 0, 1, 0, 0, 0, n, 0, 0, 0, 4, 0, 0, 0, 0, 0, 0, 0]

/-- A module with one relocation. The memory behind its section headers has `a` where `sh_addr` of
header `SHN_ABS` would be. -/
def linkElf (n : UInt8) (a : ℕ) : Elf where
  eShnum := 6
  eShstrndx := 5
  shdrs i :=
    if i = shnAbs then ⟨0, 0, 0, a, 0, 0, fun _ => 0⟩
    else match i with
      | 1 => ⟨0, 1, 6, 0, 16, 0, fun _ => 0x90⟩
      | 2 => ⟨0, shtSymtab, 0, 0, 72, 0, fileBytes symtabBytes⟩
      | 3 => ⟨1, 3, 0, 0, 10, 0, fileBytes ([0] ++ entryName ++ [0])⟩
      | 4 => ⟨0, shtRela, 0, 0, 24, 1, fileBytes (relaBytes n)⟩
      | 5 => ⟨0, 3, 0, 0, 9, 0, fileBytes ([0] ++ strtabName ++ [0])⟩
      | _ => ⟨0, 0, 0, 0, 0, 0, fun _ => 0⟩
  shnum_lt := by decide

def noSymbols : Symbols := ⟨fun _ => 0, fun _ => 0, 0⟩

/-- Both files are linked with an empty kernel symbol table. -/
def fileLink (n : UInt8) (a : ℕ) : Link := linkOf [] noSymbols (linkElf n a) modulesBase

section Files

variable {n : UInt8} {a : ℕ} {r : Relocation}

theorem fileLink_loaded : (fileLink n a).Loaded 1 :=
  ⟨show 1 < 6 by decide, show 6 &&& shfAlloc ≠ 0 by decide, show 16 ≠ 0 by decide⟩

theorem linkElf_addr (n : UInt8) (a : ℕ) : (linkElf n a).addr modulesBase 1 = modulesBase := by
  have hzero : ¬ ((linkElf n a).shdrs 0).Loads := fun h => h.2 rfl
  rw [Elf.addr, offset, if_neg hzero]
  show wadd modulesBase (0 + 0) = modulesBase
  decide

theorem fileLink_main (hnum : (fileLink n a).symbols.numSyms = 3) : (fileLink n a).HasMain := by
  have hsym : ∀ k, symAt (fileLink n a).symbols.symtab k = symAt (fileBytes symtabBytes) k :=
    fun k => rfl
  have hstrtab : (fileLink n a).symbols.strtab = fileBytes ([0] ++ entryName ++ [0]) := rfl
  have hone : (symAt (fileBytes symtabBytes) 1).stShndx = 1 ∧
      (symAt (fileBytes symtabBytes) 1).stValue = 0 := by decide
  refine ⟨1, by omega, by rw [hsym, hstrtab]; decide, ?_, ?_⟩
  · intro k hk hk'
    obtain rfl : k = 2 := by omega
    rw [hsym, hstrtab]
    decide
  · rw [hsym, hone.1, hone.2, Link.shAddr_of_loaded fileLink_loaded,
      show (fileLink n a).elf.addr (fileLink n a).modbase 1 = modulesBase from linkElf_addr n a]
    decide

section

variable (hrelocs : (fileLink n a).relocs = [r])

include hrelocs

theorem fileLink_inside
    (hplace : (fileLink n a).place r = modulesBase + 8) : (fileLink n a).Inside := by
  intro r' hr' i hi
  rw [hrelocs, List.mem_singleton] at hr'
  rw [hr', hplace]
  refine ⟨1, fileLink_loaded.1, fileLink_loaded.2, 8 + i, show 8 + i < 16 by omega, ?_⟩
  rw [show (fileLink n a).elf.addr (fileLink n a).modbase 1 = modulesBase from linkElf_addr n a]
  unfold wadd modulesBase
  omega

theorem fileLink_relocatable (htype : r.entry.rInfo &&& 0xffffffff = rX86_64_64)
    (hdefined : ((fileLink n a).symbol r).stShndx ≠ shnUndef) : (fileLink n a).Relocatable := by
  constructor
  case types =>
    intro r' hr'
    rw [hrelocs, List.mem_singleton] at hr'
    rwa [hr']
  case undefined =>
    intro r' hr' hundef
    rw [hrelocs, List.mem_singleton] at hr'
    rw [hr'] at hundef
    exact absurd hundef hdefined

theorem fileLink_apart : (fileLink n a).Apart := by
  rw [Link.Apart, hrelocs]
  exact List.pairwise_singleton _ _

end

end Files

/-- A relocation for `mod_main`. -/
theorem mod_main_relocated :
    ∃ R, modulesLoad [] noSymbols noWindows (linkElf 1 0) wideMachine (fun _ => 1) = .ok R ∧
      (fileLink 1 0).Relocated R.linking := by
  have htotal : total (linkElf 1 0).shdrs (linkElf 1 0).eShnum < windowSize := by decide
  have hrelocs : (fileLink 1 0).relocs = [⟨1, ⟨8, 0x100000001, 4⟩⟩] := by decide
  have hsymbol : ((fileLink 1 0).symbol ⟨1, ⟨8, 0x100000001, 4⟩⟩).stShndx = 1 := by decide
  have hnoRel : (fileLink 1 0).NoRel := by
    unfold Link.NoRel
    decide
  obtain ⟨w, htake⟩ := noWindows_take
  obtain ⟨s, hload⟩ := wide_loads htotal fun _ => 1
  obtain ⟨hiff, hdue⟩ := relocated_iff noWindows_ready htake wide_wellFormed
    (htotal.trans (by decide)) (wide_site htotal).noGiant (wide_exclusive htotal) hload
    (fileLink_relocatable hrelocs (by decide) (by decide))
  refine hiff.mpr ⟨fileLink_main (by decide), hnoRel, fileLink_inside hrelocs (by decide),
    (hdue (fileLink_apart hrelocs)).mpr fun r hr _ => ?_⟩
  rw [show (linkOf [] noSymbols (linkElf 1 0) modulesBase).relocs = _ from hrelocs,
    List.mem_singleton] at hr
  rw [hr]
  exact Or.inr (Or.inr ⟨by decide, hsymbol ▸ fileLink_loaded⟩)

/-- A relocation for the absolute symbol `0x1234`, with `0x10` in the memory behind the section
headers: `0x1248` is stored instead of `0x1238`. -/
theorem absolute_symbol_misplaced :
    (fileLink 2 0x10).Relocatable ∧
    (fileLink 2 0x10).relocs = [⟨1, ⟨8, 0x200000001, 4⟩⟩] ∧
    (fileLink 2 0x10).finalAddress ((fileLink 2 0x10).symbol ⟨1, ⟨8, 0x200000001, 4⟩⟩) =
      some 0x1234 ∧
    ∃ R, modulesLoad [] noSymbols noWindows (linkElf 2 0x10) wideMachine (fun _ => 1) = .ok R ∧
      see R.linking.loading.machine.translate R.linking.bytes (modulesBase + 8) = some 0x48 ∧
      ¬ (fileLink 2 0x10).Relocated R.linking := by
  have htotal : total (linkElf 2 0x10).shdrs (linkElf 2 0x10).eShnum < windowSize := by decide
  have hrelocs : (fileLink 2 0x10).relocs = [⟨1, ⟨8, 0x200000001, 4⟩⟩] := by decide
  have hplace : (fileLink 2 0x10).place ⟨1, ⟨8, 0x200000001, 4⟩⟩ = modulesBase + 8 := by decide
  have hnoRel : (fileLink 2 0x10).NoRel := by
    unfold Link.NoRel
    decide
  have hrel := fileLink_relocatable hrelocs (by decide) (by decide)
  have hin := fileLink_inside hrelocs hplace
  have hapart := fileLink_apart hrelocs
  have hmem : (⟨1, ⟨8, 0x200000001, 4⟩⟩ : Relocation) ∈ (fileLink 2 0x10).relocs := by
    rw [hrelocs]
    exact List.mem_singleton_self _
  refine ⟨hrel, hrelocs, by decide, ?_⟩
  obtain ⟨w, htake⟩ := noWindows_take
  obtain ⟨s, hload⟩ := wide_loads htotal fun _ => 1
  have hp := loadSections_placing (wide_site htotal) (Nat.le_refl _) hload
  have hroom : (fileLink 2 0x10).Room s.loading :=
    Link.room (wide_site htotal) hp (wide_exclusive htotal)
  obtain ⟨k, hk, happlied⟩ :=
    @Link.applyAll (fileLink 2 0x10) s.loading s.bytes _ hroom hrel (fun r hr => hr) hin
  refine (modulesLoad_eq_ok htake hload hp.shdrs fun k =>
    see k.loading.machine.translate k.bytes (modulesBase + 8) = some 0x48 ∧
      ¬ (fileLink 2 0x10).Relocated k).mpr ⟨fileLink_main (by decide), k, ?_, ?_, ?_⟩
  · exact (Link.linkAll_eq hnoRel).trans hk
  · have hsee := happlied.see_eq hroom hin hmem (show 0 < 8 by decide)
    rw [Link.fields_of_apart hapart hmem (by decide), hplace] at hsee
    exact hsee.trans (by decide)
  · intro hrelocated
    have hwritten := Link.applyAll_written hk
    rw [List.nil_append] at hwritten
    have hdue := (happlied.relocated_iff_due hroom hin hwritten).mp hrelocated
    have hresolves := (Link.due_iff hrel hapart).mp hdue _ hmem fileLink_loaded
    exact absurd hresolves (by unfold Link.Resolves; decide)

end NeptunOS.Modules
