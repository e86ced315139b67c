import NeptunOS.Loader.Backing

/-!
# What a user program can reach

The pages of the segments are the loader's own: each round of the mapping loop
maps at most one page, and one that it has just been granted. Page faults on the
image, which is read under both address spaces, map pages of the heap window and take
pages from the allocator as well. `Placed` says which page has been given to what, and so
where the stack will be. The stack is granted at a multiple of 4 KiB but mapped as a
2 MiB page, so that the user also reaches what is between the 2 MiB boundary and the
stack. `isolated_iff` says that the program is isolated exactly when all of that was
granted for segments.
-/

namespace NeptunOS.Loader

open Radix Paging Stepwise Ledger Pmm

/-- Everything the lower half lets the user reach was granted to the loader. -/
def Isolated (cr3 : ℕ) (l : Loading) : Prop :=
  ∀ v r p, v < 2 ^ 47 → rights l.machine.tables.mem cr3 v = some r → r.user = true →
    translate l.machine.tables.mem cr3 v = some p → ∃ x ∈ l.granted, p ∈ handed x

/-- The segment has no bytes, or is in the lower half. -/
def Phdr.Low (ph : Phdr) : Prop :=
  ph.pType = ptLoad → 0 < max ph.pMemsz ph.pFilesz →
    ph.pVaddr + max ph.pMemsz ph.pFilesz ≤ 2 ^ 47

instance (ph : Phdr) : Decidable ph.Low := inferInstanceAs (Decidable (_ → _ → _))

/-- All `PT_LOAD` segments are in the lower half. -/
def Elf.Lower (elf : Elf) : Prop := ∀ ph ∈ elf.phdrs, ph.Low

instance (elf : Elf) : Decidable elf.Lower := inferInstanceAs (Decidable (∀ ph ∈ elf.phdrs, _))

/-- The first 512 GiB of the heap window, for which a PML4 has one entry. -/
def InHeap (v : ℕ) : Prop := 0xffff900000000000 ≤ v ∧ v < 0xffff908000000000

instance (v : ℕ) : Decidable (InHeap v) := inferInstanceAs (Decidable (_ ∧ _))

/-- Accesses to the range fault in the first 512 GiB of the heap window only. -/
def Near (v n : ℕ) : Prop := ∀ k < n, Machine.HeapWindow (wadd v k) → InHeap (wadd v k)

/-- What is read of the image. -/
def Elf.Near (elf : Elf) : Prop :=
  Loader.Near elf.addr 0x3a ∧
    ∀ ph ∈ elf.phdrs, Loader.Near ph.addr 0x30 ∧ Loader.Near ph.source ph.pFilesz

/-- The page for the new PML4 is one of the heap's, is not read-only, and none of the kernel's
tables. -/
structure FreshPage (m : Machine) (cr3 : ℕ) : Prop where
  wf : WellFormed m.tables m.pml4
  table : ∀ π, π.length ≤ 3 → Radix.table child m.tables.mem m.pml4 π ≠ some cr3
  frame : cr3 ∉ m.tables.frames
  heap : InHeap cr3
  writable : Writable m.tables.mem m.pml4 cr3

/-! ## The pages that are asked for -/

/-- What the new address space translates an address to before anything is mapped. -/
def before (m : Machine) (a : ℕ) : Option ℕ := if a < 2 ^ 47 then none else m.translate a

/-- The addresses of a range at which a read may fault. -/
def touched (v n : ℕ) : List ℕ := ((List.range n).map (wadd v)).filter fun a => InHeap a

/-- The addresses that the mapping loop looks up from offset `mapped` on. -/
def roundAddrs (v : ℕ) : ℕ → ℕ → List ℕ
  | 0, _ => []
  | n + 1, mapped => (v + mapped) :: roundAddrs v n (mapped + 0x200000)

/-- The addresses that the mapping loop of a segment looks up. -/
def Phdr.rounds (ph : Phdr) : List ℕ :=
  if ph.pType = ptLoad then roundAddrs ph.pVaddr ((ph.pMemsz + 0x1fffff) / 0x200000) 0 else []

/-- All that is looked up or read for a program header, in this order. -/
def Phdr.asks (ph : Phdr) : List ℕ :=
  touched ph.addr 4 ++ if ph.pType = ptLoad then
    touched ph.addr 0x30 ++ ph.rounds ++ touched ph.source ph.pFilesz else []

/-- The pages that `pmm_alloc` is asked for up to the headers `phs`: those of the heap that are
touched for the first time, and those of the segments. -/
def asked (m : Machine) (cr3 addr : ℕ) (phs : List Phdr) : List ℕ :=
  (cr3 :: touched addr 0x3a ++ phs.flatMap Phdr.asks).foldl (addMissing (before m)) []

/-- The pages of the segments with the grants for them. -/
def lowFrames (pages : List ℕ) (taken : List (Request × ℕ)) : List (ℕ × Request × ℕ) :=
  (pages.zip taken).filter fun x => x.1 < 2 ^ 35

/-- What was granted for segments. -/
def lowGrants (pages : List ℕ) (taken : List (Request × ℕ)) : List (Request × ℕ) :=
  (lowFrames pages taken).map Prod.snd

/-- What lies between the stack and the 2 MiB boundary below it is granted for segments. -/
def StackBacked (m : Machine) (cr3 : ℕ) (elf : Elf) : Prop :=
  ∀ taken p ptr p', takePages (asked m cr3 elf.addr elf.phdrs).length m.pmm = .ok (taken, p) →
    pmmAlloc p userStackSize = .ok (ptr, p') →
    ∀ a, alignDown (phys ptr) (2 ^ 21) ≤ a → a < phys ptr →
      ∃ x ∈ lowGrants (asked m cr3 elf.addr elf.phdrs) taken, a ∈ handed x

/-! ## The new address space -/

section NewSpace

variable {m : Machine} {cr3 : ℕ}
variable {v ptr : ℕ}

/-- Below its root the new tree is the upper half of the kernel's. -/
theorem halves_table (h : FreshPage m cr3) {π : List ℕ} {t : ℕ} (hlen : π.length ≤ 3)
    (hne : π ≠ []) (hπ : table child (halves m cr3).tables.mem cr3 π = some t) :
    table child m.tables.mem m.pml4 π = some t := by
  induction π generalizing t with
  | nil => exact absurd rfl hne
  | cons i π ih =>
    cases hρ : table child (halves m cr3).tables.mem cr3 π with
    | none =>
      rw [table_none_of_suffix hρ (List.suffix_cons i π)] at hπ
      cases hπ
    | some u =>
      rw [table_cons hρ] at hπ
      rw [List.length_cons] at hlen
      cases π with
      | nil =>
        obtain rfl := Option.some.inj hρ
        rw [table_cons rfl]
        by_cases hi : i < 256
        · simp [halves, hi, child_zero] at hπ
        · simpa [halves, hi] using hπ
      | cons j π =>
        have hu := ih (by omega) (by simp) hρ
        have hne' : u ≠ cr3 := by
          rintro rfl
          exact h.table _ (by omega) hu
        rw [table_cons hu]
        simpa [halves, hne'] using hπ

theorem halves_wellFormed (h : FreshPage m cr3) : WellFormed (halves m cr3).tables cr3 := by
  have hroot : ∀ {π : List ℕ}, π.length ≤ 3 →
      table child (halves m cr3).tables.mem cr3 π = some cr3 → π = [] := by
    intro π hlen hπ
    by_contra hne
    exact h.table π hlen (halves_table h hlen hne hπ)
  constructor
  case tree =>
    intro π π' t hlen hlen' hπ hπ'
    by_cases hne : π = []
    · subst hne
      obtain rfl := Option.some.inj hπ
      exact (hroot hlen' hπ').symm
    · by_cases hne' : π' = []
      · subst hne'
        obtain rfl := Option.some.inj hπ'
        exact absurd (hroot hlen hπ) hne
      · exact h.wf.tree hlen hlen' (halves_table h hlen hne hπ) (halves_table h hlen' hne' hπ')
  case typed =>
    intro t i
    show (if t = cr3 then (if i < 256 then 0 else m.tables.mem m.pml4 i)
      else m.tables.mem t i) < 2 ^ 64
    split
    · split
      · decide
      · exact h.wf.typed _ _
    · exact h.wf.typed _ _
  case fresh =>
    intro π f hlen hπ
    by_cases hne : π = []
    · subst hne
      obtain rfl := Option.some.inj hπ
      exact h.frame
    · exact h.wf.fresh π f hlen (halves_table h hlen hne hπ)
  case nodup => exact h.wf.nodup
  case frames => exact h.wf.frames

theorem addrPml4i_low (hv : v < 2 ^ 47) : addrPml4i v < 256 := by
  rw [addrPml4i, addr_index]
  omega

theorem InHeap.index (hv : InHeap v) : addrPml4i v = 288 := by
  unfold InHeap at hv
  rw [addrPml4i, addr_index]
  omega

/-- The lower half is empty. -/
theorem halves_entryAt (hv : v < 2 ^ 47) {σ : List ℕ} (hσ : σ ≠ []) (hs : σ <:+ path v) :
    present (entryAt (halves m cr3).tables.mem cr3 σ) = false := by
  have hroot : entryAt (halves m cr3).tables.mem cr3 [addrPml4i v] = 0 := by
    rw [entryAt, view_cons rfl]
    simp [halves, addrPml4i_low hv]
  induction σ with
  | nil => exact absurd rfl hσ
  | cons i σ ih =>
    by_cases hne : σ = []
    · subst hne
      rw [root_of_suffix hs, hroot]
      rfl
    · have habs := ih hne ((List.suffix_cons i σ).trans hs)
      rw [entryAt_below hne habs]
      rfl

theorem halves_translate (hv : v < 2 ^ 47) : translate (halves m cr3).tables.mem cr3 v = none := by
  have habs := @halves_entryAt m cr3 v hv [addrPml4i v] (by simp)
    (root_suffix (List.cons_ne_nil _ _) List.suffix_rfl)
  rw [Paging.translate, walk_eq, indices, walkAt]
  simp [habs]

/-- The heap is the kernel's. -/
theorem halves_heap (h : FreshPage m cr3) {a : ℕ} (ha : InHeap a) :
    translate (halves m cr3).tables.mem cr3 a = m.translate a := by
  refine translate_agree (P := (· = 288)) ?_ ?_ ha.index
  · rintro _ rfl
    exact (if_pos rfl).trans (if_neg (by decide))
  · rintro π t i - hlen hπ
    refine if_neg ?_
    rintro rfl
    exact h.table π hlen hπ

/-- What a page fault does to tables in which its page is missing. -/
theorem faultCall_maps {r : ℕ} {s s' : Tables} (hwf : WellFormed s r) (hv : Canonical v)
    (hdvd : 4096 ∣ phys ptr) (hnone : translate s.mem r v = none)
    (hrun : (Machine.faultCall v (phys ptr)).run s r = .ok s') :
    (WellFormed s' r ∧ Maps (Machine.faultCall v (phys ptr)) (entryAt s.mem r) (entryAt s'.mem r) ∧
      ∀ a, Canonical a → translate s'.mem r a =
        if a / 4096 = v / 4096 then some (phys ptr + a % 4096) else translate s.mem r a) ∧
    (Machine.faultCall v (phys ptr)).Frame r s s' := by
  have hnh : ∀ σ, σ ≠ [] → σ <:+ (path v).tail → present (entryAt s.mem r σ) = true →
      huge (entryAt s.mem r σ) = false :=
    fun σ hσ hs => pointers_of_translate_none hnone hσ (hs.trans (List.tail_suffix _))
  refine ⟨page_maps (Machine.faultCall_size v _) hwf ⟨hv, phys_lt ptr, rfl⟩ hdvd hnh hrun, ?_⟩
  rw [← Machine.faultCall_slot v (phys ptr)] at hnh
  exact mapPage_frame hwf ((phys_lt ptr).trans (by decide)) hnh hrun

/-- A page of the heap that is mapped is no reason against the page. -/
theorem FreshPage.fault {m' : Machine} (h : FreshPage m cr3) (hnone : m.translate v = none)
    (hfault : m.onPageFault v = .ok (ptr, m')) :
    FreshPage m' cr3 ∧ ∀ a, Canonical a → m'.translate a =
      if a / 4096 = v / 4096 then some (phys ptr + a % 4096) else m.translate a := by
  obtain ⟨hw, halloc, hmap, hpml4⟩ := Machine.onPageFault_eq_ok hfault
  have hsize := Machine.faultCall_size v (phys ptr)
  obtain ⟨⟨hwf, hmaps, htranslate⟩, hframe⟩ :=
    faultCall_maps h.wf hw.canonical (phys_dvd halloc) hnone hmap
  refine ⟨?_, fun a ha => by rw [Machine.translate, hpml4]; exact htranslate a ha⟩
  constructor
  case wf => rwa [hpml4]
  case table =>
    intro π hlen hπ
    rw [hpml4] at hπ
    rcases hframe.origin π cr3 hlen hπ with hold | ⟨hin, -⟩
    · exact h.table π hlen hold
    · exact h.frame hin
  case frame => exact fun hin => h.frame (hframe.frames hin)
  case heap => exact h.heap
  case writable =>
    rw [hpml4]
    exact fun σ hσ hs hro =>
      h.writable σ hσ hs (readOnly_of_maps hsize hmaps hσ hs.length_le rfl hro)

/-- The new address space is made from a machine in which the page is mapped. -/
theorem newSpace_cases {l : Loading} (h : FreshPage m cr3) (hr : newSpace m cr3 = .ok l) :
    ∃ m₁, l = ⟨halves m₁ cr3, []⟩ ∧ FreshPage m₁ cr3 ∧ m₁.translate cr3 ≠ none ∧
      (m₁ = m ∨ m.translate cr3 = none ∧ ∃ ptr, m.onPageFault cr3 = .ok (ptr, m₁)) := by
  obtain ⟨l₁, htouch, hr⟩ := bind_eq_ok.mp hr
  cases hr
  obtain ⟨-, hallowed, hl₁⟩ := touch_cases htouch
  have hmapped := Option.isSome_iff_ne_none.mp (allowed_write.mp hallowed).1
  rcases hl₁ with rfl | ⟨hnot, ptr, m₁, hfault, rfl⟩
  · exact ⟨m, rfl, h, hmapped, .inl rfl⟩
  · have hnone : m.translate cr3 = none := by
      by_contra hsome
      rw [allowed_write.mpr ⟨Option.isSome_iff_ne_none.mpr hsome, h.writable⟩] at hnot
      cases hnot
    rw [← (Machine.onPageFault_eq_ok hfault).2.2.2] at hmapped
    exact ⟨m₁, rfl, (h.fault hnone hfault).1, hmapped, .inr ⟨hnone, ptr, hfault⟩⟩

end NewSpace

/-! ## Beside the kernel's address space -/

/-- The kernel's PML4 is no table of the new address space, and both have the same entry for the
heap window. -/
structure Beside (cr3 pml4 : ℕ) (s : Tables) : Prop where
  frame : pml4 ∉ s.frames
  table : ∀ π, π.length ≤ 3 → Radix.table child s.mem cr3 π ≠ some pml4
  heap : s.mem cr3 288 = s.mem pml4 288
  present : Paging.present (s.mem pml4 288) = true

section Beside

variable {m : Machine} {cr3 pml4 v : ℕ} {s s' : Tables}

theorem halves_beside (h : FreshPage m cr3) (hmapped : m.translate cr3 ≠ none) :
    Beside cr3 m.pml4 (halves m cr3).tables := by
  have hne : m.pml4 ≠ cr3 := fun heq => h.table [] (Nat.zero_le 3) (congrArg some heq)
  have hroot : (halves m cr3).tables.mem m.pml4 288 = m.tables.mem m.pml4 288 := if_neg hne
  constructor
  case frame => exact h.wf.fresh [] _ (Nat.zero_le 3) rfl
  case table =>
    intro π hlen hπ
    by_cases hnil : π = []
    · subst hnil
      exact hne (Option.some.inj hπ).symm
    · exact hnil (h.wf.tree hlen (Nat.zero_le 3) (halves_table h hlen hnil hπ) rfl)
  case heap =>
    exact ((if_pos rfl).trans (if_neg (by decide))).trans hroot.symm
  case present =>
    rw [hroot]
    by_contra habs
    refine hmapped ?_
    rw [Machine.translate, translate_eq_none, walk, indices, h.heap.index, walkFrom]
    exact if_pos habs

/-- `map_page` for a page of the kernel does not depend on which of two roots it starts from, if
both have the entry. -/
theorem run_root {c : Call} {r r' i : ℕ} {is : List ℕ} (hup : c.uppers = i :: is)
    (hu : c.user = false) (hx : c.exe = false) (hroot : s.mem r' i = s.mem r i)
    (hp : present (s.mem r i) = true) (h : c.run s r = .ok s') : c.run s r' = .ok s' := by
  have hdown : ∀ t, s.mem t i = s.mem r i →
      descend c.low (exeMask c.flags) s t i = .ok (tableOf (s.mem r i), s) := by
    intro t ht
    unfold descend
    simp only [ht, hp, c.user_low, hu, if_true, Bool.false_eq_true, if_false]
  have hmask : exeMask c.flags ≠ 0 := by
    rw [c.exeMask_flags, hx]
    decide
  obtain ⟨way, t, s₁, hall, rfl⟩ := Call.run_eq_ok h
  rw [hup, descendAll, hdown r rfl, ok_bind] at hall
  obtain ⟨⟨way', last, s₂⟩, hrest, hall⟩ := bind_eq_ok.mp hall
  cases hall
  have hall' : descendAll c.low (exeMask c.flags) c.uppers r' s = .ok ((r', i) :: way', t, s₁) := by
    rw [hup, descendAll, hdown r' hroot, ok_bind]
    exact bind_eq_ok.mpr ⟨_, hrest, rfl⟩
  show (descendAll c.low (exeMask c.flags) c.uppers r' s >>= _) = _
  rw [hall', ok_bind]
  unfold writeLeaf
  simp only [if_neg hmask]
  rfl

/-- Both address spaces agree on the heap. -/
theorem Beside.translate_eq (h : Beside cr3 pml4 s) (hv : InHeap v) :
    translate s.mem cr3 v = translate s.mem pml4 v :=
  translate_agree (P := (· = 288)) (fun _ hi => hi ▸ h.heap) (fun _ _ _ _ _ _ => rfl) hv.index

/-- A call under the new root that leaves the entry for the heap as it is. -/
theorem Beside.map {c : Call} (h : Beside cr3 pml4 s) (hf : c.Frame cr3 s s')
    (hheap : s'.mem cr3 288 = s.mem cr3 288) : Beside cr3 pml4 s' := by
  have htable : ∀ π, π.length ≤ 3 → Radix.table child s'.mem cr3 π ≠ some pml4 := by
    intro π hlen hπ
    rcases hf.origin π _ hlen hπ with hold | ⟨hin, -⟩
    · exact h.table π hlen hold
    · exact h.frame hin
  have hroot : s'.mem pml4 288 = s.mem pml4 288 := by
    refine hf.mem _ _ (fun ρ hρ => htable ρ ?_) fun hin => absurd hin h.frame
    have := hρ.length_le
    have := c.uppers_length
    rw [List.length_tail, c.slot_length] at *
    omega
  exact ⟨fun hin => h.frame (hf.frames hin), htable, by rw [hroot]; exact hheap.trans h.heap,
    by rw [hroot]; exact h.present⟩

end Beside

/-! ## While the segments are loaded -/

/-- The lower half is writable, and mapped to pages that were granted. -/
structure Loaded (cr3 : ℕ) (l : Loading) : Prop where
  wf : WellFormed l.machine.tables cr3
  beside : Beside cr3 l.machine.pml4 l.machine.tables
  small : Small l.machine.tables.mem cr3 (· < 2 ^ 47)
  writable : ∀ v, v < 2 ^ 47 → Writable l.machine.tables.mem cr3 v
  owned : ∀ v p, v < 2 ^ 47 → translate l.machine.tables.mem cr3 v = some p →
    ∃ x ∈ l.granted, p ∈ handed x

/-- Nothing is granted between the two states, and the lower half stays as it is. -/
structure LowKept (cr3 : ℕ) (l l' : Loading) : Prop where
  granted : l'.granted = l.granted
  pml4 : l'.machine.pml4 = l.machine.pml4
  low : ∀ v, v < 2 ^ 47 →
    translate l'.machine.tables.mem cr3 v = translate l.machine.tables.mem cr3 v

theorem LowKept.refl (cr3 : ℕ) (l : Loading) : LowKept cr3 l l := ⟨rfl, rfl, fun _ _ => rfl⟩

theorem LowKept.trans {cr3 : ℕ} {l₁ l₂ l₃ : Loading} (h : LowKept cr3 l₁ l₂)
    (h' : LowKept cr3 l₂ l₃) : LowKept cr3 l₁ l₃ :=
  ⟨h'.granted.trans h.granted, h'.pml4.trans h.pml4, fun v hv => (h'.low v hv).trans (h.low v hv)⟩

/-- The call for the stack. -/
def stackCall (frame : ℕ) : Call := ⟨vstack, frame, true, true, false, false, true, false, 0⟩

theorem segmentFlags_eq : segmentFlags = pageFlags true := by decide

theorem stackFlags_eq : stackFlags = flagBits true true false false true false := by decide

theorem stackCall_size (frame : ℕ) : (stackCall frame).size = .s2M := by
  rw [Call.size_eq]
  rfl

section Loaded

variable {m : Machine} {cr3 v : ℕ} {l l' : Loading}

theorem newSpace_loaded (h : FreshPage m cr3) (hr : newSpace m cr3 = .ok l) : Loaded cr3 l := by
  obtain ⟨m₁, rfl, hf, hmapped, -⟩ := newSpace_cases h hr
  constructor
  case wf => exact halves_wellFormed hf
  case beside => exact halves_beside hf hmapped
  case small =>
    intro v hv σ hσ hs hp
    rw [halves_entryAt hv hσ (hs.trans (List.tail_suffix _))] at hp
    cases hp
  case writable =>
    rintro v hv σ hσ hs ⟨hp, -⟩
    rw [halves_entryAt hv hσ hs] at hp
    cases hp
  case owned =>
    intro v p hv hp
    rw [halves_translate hv] at hp
    cases hp

section

variable (h : Loaded cr3 l)

include h

/-- A page fault in the heap. -/
theorem Loaded.fault {ptr : ℕ} {m' : Machine} (hv : InHeap v)
    (hnone : translate l.machine.tables.mem cr3 v = none)
    (hfault : l.machine.onPageFault v = .ok (ptr, m')) :
    Loaded cr3 { l with machine := m' } ∧ ∀ a, Canonical a → translate m'.tables.mem cr3 a =
      if a / 4096 = v / 4096 then some (phys ptr + a % 4096)
      else translate l.machine.tables.mem cr3 a := by
  obtain ⟨hw, halloc, hmap, hpml4⟩ := Machine.onPageFault_eq_ok hfault
  have hslot := Machine.faultCall_slot v (phys ptr)
  have hsize := Machine.faultCall_size v (phys ptr)
  have hup : (Machine.faultCall v (phys ptr)).uppers = 288 :: [addrPdpi v, addrPdi v] := by
    have hrev := congrArg List.tail hslot
    rw [← hv.index]
    exact List.reverse_injective hrev
  -- both address spaces have the same tables for the heap
  have hrun := run_root hup rfl rfl h.beside.heap h.beside.present hmap
  obtain ⟨⟨hwf, hmaps, htranslate⟩, hframe⟩ :=
    faultCall_maps h.wf hw.canonical (phys_dvd halloc) hnone hrun
  refine ⟨?_, htranslate⟩
  constructor
  case wf => exact hwf
  case beside =>
    have hroot : [288] <:+ (Machine.faultCall v (phys ptr)).slot.tail := by
      rw [hslot, ← hv.index]
      exact ⟨[addrPdi v, addrPdpi v], rfl⟩
    have hp : present (l.machine.tables.mem cr3 288) = true := h.beside.heap ▸ h.beside.present
    show Beside cr3 m'.pml4 m'.tables
    rw [hpml4]
    exact h.beside.map hframe ((hmaps.upper [288] (by simp) hroot).kept hp rfl rfl)
  case small => exact h.small.maps hmaps hsize
  case writable =>
    exact fun w hw σ hσ hs hro =>
      h.writable w hw σ hσ hs (readOnly_of_maps hsize hmaps hσ hs.length_le rfl hro)
  case owned =>
    intro w p hlt hp
    change translate m'.tables.mem cr3 w = some p at hp
    have hpage : ¬ w / 4096 = v / 4096 := by unfold InHeap at hv; omega
    exact h.owned w p hlt (((htranslate w (.inl hlt)).trans (if_neg hpage)).symm.trans hp)

/-- `memset` of the lower half returns exactly where it is mapped. -/
theorem Loaded.set_iff {n : ℕ} (hv : n = 0 ∨ v + n ≤ 2 ^ 47) :
    access true cr3 v n l = .ok l' ↔
      (∀ k < n, (translate l.machine.tables.mem cr3 (v + k)).isSome = true) ∧ l' = l := by
  have hlow : ∀ k < n, wadd v k = v + k ∧ v + k < 2 ^ 47 := fun k hk =>
    ⟨wadd_of_lt (by omega), by omega⟩
  rw [access_eq_ok_iff fun k hk hw => ?_]
  · refine and_congr_left fun _ => forall₂_congr fun k hk => ?_
    obtain ⟨hsum, hlt⟩ := hlow k hk
    rw [hsum, allowed_write]
    exact ⟨fun hk => hk.2.1, fun hk => ⟨.inl hlt, hk, h.writable _ hlt⟩⟩
  · obtain ⟨hsum, hlt⟩ := hlow k hk
    rw [hsum] at hw
    have := hw.bounds
    omega

/-- The page that a round maps, and all others. -/
theorem Loaded.round_maps (hv : v < 2 ^ 47) {ptr : ℕ} {pmm : Pmm}
    {tables : Tables} (halloc : pmmAlloc l.machine.pmm 4096 = .ok (ptr, pmm))
    (hmap : (pageCall true v (phys ptr)).run l.machine.tables cr3 = .ok tables) :
    WellFormed tables cr3 ∧ Maps (pageCall true v (phys ptr))
        (entryAt l.machine.tables.mem cr3) (entryAt tables.mem cr3) ∧
      ∀ w, Canonical w → translate tables.mem cr3 w =
        if w / 4096 = v / 4096 then some (phys ptr + w % 4096)
        else translate l.machine.tables.mem cr3 w :=
  page_maps (pageCall_size true v (phys ptr)) h.wf ⟨.inl hv, phys_lt ptr, rfl⟩ (phys_dvd halloc)
    (h.small v hv) hmap

/-- A call for the lower half writes to no table of the kernel's. -/
theorem Loaded.beside_map {c : Call} {s : Tables} (hv : v < 2 ^ 47) (hs : c.slot <:+ path v)
    (hlong : 2 ≤ c.slot.length) (hf : c.Frame cr3 l.machine.tables s)
    (hm : Maps c (entryAt l.machine.tables.mem cr3) (entryAt s.mem cr3)) :
    Beside cr3 l.machine.pml4 s := by
  refine h.beside.map hf (hm.other [288] (by decide) (fun hin => ?_) fun hin => ?_)
  · have := addrPml4i_low hv
    rw [← root_of_suffix (hin.trans hs)] at this
    omega
  · have := hin.length_le
    rw [List.length_singleton] at this
    omega

theorem Loaded.round (hv : v < 2 ^ 47) (hr : backPage segmentFlags cr3 v l = .ok l') :
    Loaded cr3 l' := by
  rw [segmentFlags_eq] at hr
  rcases backPage_cases hr with ⟨-, rfl⟩ | ⟨ptr, pmm, tables, hnone, halloc, hmap, rfl⟩
  · exact h
  · obtain ⟨hwf, hmaps, htranslate⟩ := h.round_maps hv halloc hmap
    have hsize := pageCall_size true v (phys ptr)
    have hslot : (pageCall true v (phys ptr)).slot = path v := Call.slot_4K hsize
    have hphys : (pageCall true v (phys ptr)).phys < 2 ^ 63 := (phys_lt ptr).trans (by decide)
    have hframe := mapPage_frame h.wf hphys (by rw [hslot]; exact h.small v hv) hmap
    constructor
    case wf => exact hwf
    case beside =>
      refine h.beside_map hv (hslot ▸ List.suffix_rfl) ?_ hframe hmaps
      rw [hslot, Call.path_length]
      decide
    case small => exact h.small.maps hmaps hsize
    case writable =>
      exact fun w hw σ hσ hs hro =>
        h.writable w hw σ hσ hs (readOnly_of_maps hsize hmaps hσ hs.length_le rfl hro)
    case owned =>
      intro w p hw hp
      change translate tables.mem cr3 w = some p at hp
      rw [htranslate w (.inl hw)] at hp
      split at hp
      case isTrue =>
        obtain rfl := Option.some.inj hp
        refine ⟨_, List.mem_append_right _ (List.mem_singleton_self _), ?_⟩
        rw [mem_handed_page]
        omega
      case isFalse =>
        obtain ⟨x, hx, hpx⟩ := h.owned w p hw hp
        exact ⟨x, List.mem_append_left _ hx, hpx⟩

end

end Loaded

/-! ## Who has which page -/

/-- Addresses at which pages are asked for. -/
def Tracked (a : ℕ) : Prop := a < 2 ^ 47 ∨ InHeap a

theorem Tracked.canonical {a : ℕ} (h : Tracked a) : Canonical a := by
  unfold Tracked InHeap at h
  unfold Canonical hhdm
  omega

/-- While the segments are loaded: `taken` are the grants for `pages`, in this order. -/
structure Placed (m : Machine) (cr3 : ℕ) (pages : List ℕ) (taken : List (Request × ℕ))
    (l : Loading) : Prop extends Loaded cr3 l where
  takes : takePages pages.length m.pmm = .ok (taken, l.machine.pmm)
  granted : l.granted = lowGrants pages taken
  frames : ∀ a, Tracked a → translate l.machine.tables.mem cr3 a = cell (before m) pages taken a

section Placed

variable {m : Machine} {cr3 v : ℕ} {pages : List ℕ} {taken : List (Request × ℕ)} {l l' : Loading}

theorem lowGrants_snoc (hlen : taken.length = pages.length) (π : ℕ) (g : Request × ℕ) :
    lowGrants (pages ++ [π]) (taken ++ [g]) =
      lowGrants pages taken ++ if π < 2 ^ 35 then [g] else [] := by
  rw [lowGrants, lowGrants, lowFrames, lowFrames, List.zip_append hlen.symm, List.filter_append,
    List.map_append]
  congr 1
  simp only [List.zip_cons_cons, List.zip_nil_right, List.filter_cons, List.filter_nil,
    decide_eq_true_eq]
  split
  case isTrue => rfl
  case isFalse => rfl

section

variable (h : Placed m cr3 pages taken l)

include h

/-- A page that was not mapped has been given a frame. -/
theorem Placed.grant {ptr : ℕ} (hv : Tracked v)
    (hnone : translate l.machine.tables.mem cr3 v = none)
    (halloc : pmmAlloc l.machine.pmm 4096 = .ok (ptr, l'.machine.pmm))
    (hmap : ∀ a, Canonical a → translate l'.machine.tables.mem cr3 a =
      if a / 4096 = v / 4096 then some (phys ptr + a % 4096)
      else translate l.machine.tables.mem cr3 a)
    (hl' : Loaded cr3 l')
    (hgranted : l'.granted = l.granted ++ if v < 2 ^ 47 then [(.alloc 4096, ptr)] else []) :
    Placed m cr3 (addMissing (before m) pages v) (taken ++ [(.alloc 4096, ptr)]) l' := by
  have hlen := takePages_length h.takes
  rw [addMissing_of_cell_none hlen ((h.frames v hv).symm.trans hnone)]
  refine ⟨hl', ?_, ?_, fun a ha => ?_⟩
  · rw [List.length_append]
    exact bind_eq_ok.mpr ⟨_, h.takes, bind_eq_ok.mpr ⟨_, halloc, rfl⟩⟩
  · rw [hgranted, h.granted, lowGrants_snoc hlen]
    congr 2
    exact propext (by omega)
  · exact cell_page (D := Tracked) hlen (fun _ => Tracked.canonical) h.frames hv.canonical hnone
      hmap ha

theorem Placed.found (hv : Tracked v)
    (hsome : (translate l.machine.tables.mem cr3 v).isSome = true) :
    addMissing (before m) pages v = pages := by
  rw [h.frames v hv] at hsome
  exact addMissing_of_cell (takePages_length h.takes) hsome

/-- A read. -/
theorem Placed.touch {r : ℕ} (hr : r = cr3 ∨ r = l.machine.pml4)
    (hnear : Machine.HeapWindow v → InHeap v) (ht : touch false r v l = .ok l') :
    LowKept cr3 l l' ∧ ∃ taken', Placed m cr3
      (([v].filter fun a => InHeap a).foldl (addMissing (before m)) pages) taken' l' := by
  by_cases hv : InHeap v
  · have hroot : translate l.machine.tables.mem r v = translate l.machine.tables.mem cr3 v := by
      rcases hr with rfl | rfl
      · rfl
      · exact (h.beside.translate_eq hv).symm
    rw [List.filter_singleton, decide_eq_true hv]
    obtain ⟨-, hallowed, rfl | ⟨hnot, ptr, m', hfault, rfl⟩⟩ := touch_cases ht
    · rw [allowed_read, hroot] at hallowed
      refine ⟨LowKept.refl cr3 l', taken, ?_⟩
      show Placed m cr3 (addMissing (before m) pages v) taken l'
      rwa [h.found (.inr hv) hallowed]
    · rw [← Bool.not_eq_true, allowed_read, Option.not_isSome_iff_eq_none, hroot] at hnot
      obtain ⟨-, halloc, -, hpml4⟩ := Machine.onPageFault_eq_ok hfault
      obtain ⟨hl', hmap⟩ := h.toLoaded.fault hv hnot hfault
      have hhigh : ¬ v < 2 ^ 47 := by unfold InHeap at hv; omega
      refine ⟨⟨rfl, hpml4, fun w hw => ?_⟩, _, h.grant (.inr hv) hnot halloc hmap hl' ?_⟩
      · rw [hmap w (.inl hw), if_neg (by unfold InHeap at hv; omega)]
      · rw [if_neg hhigh, List.append_nil]
  · rw [List.filter_singleton, decide_eq_false hv]
    obtain ⟨-, rfl⟩ := (touch_eq_ok_iff (mt hnear hv)).mp ht
    exact ⟨LowKept.refl cr3 l', taken, h⟩

end

theorem touched_succ (v n : ℕ) :
    touched v (n + 1) = touched v n ++ [wadd v n].filter fun a => InHeap a := by
  rw [touched, List.range_succ, List.map_append, List.filter_append]
  rfl

theorem Placed.read (h : Placed m cr3 pages taken l) {r n : ℕ} (hr : r = cr3 ∨ r = l.machine.pml4)
    (hnear : Near v n) (ha : access false r v n l = .ok l') :
    LowKept cr3 l l' ∧
      ∃ taken', Placed m cr3 ((touched v n).foldl (addMissing (before m)) pages) taken' l' := by
  induction n generalizing l' with
  | zero =>
    cases ha
    exact ⟨LowKept.refl cr3 l, taken, h⟩
  | succ n ih =>
    obtain ⟨l₁, hfirst, hlast⟩ := bind_eq_ok.mp ha
    obtain ⟨hkept, _, h₁⟩ := ih (fun k hk => hnear k (Nat.lt_succ_of_lt hk)) hfirst
    obtain ⟨hkept', h₂⟩ := h₁.touch (hkept.pml4 ▸ hr) (hnear n (Nat.lt_succ_self n)) hlast
    rw [touched_succ, List.foldl_append]
    exact ⟨hkept.trans hkept', h₂⟩

/-- `memcpy` to the lower half. -/
theorem Placed.copy (h : Placed m cr3 pages taken l) {src n : ℕ} (hnear : Near src n)
    (hv : n = 0 ∨ v + n ≤ 2 ^ 47) (ha : copyAccess cr3 v src n l = .ok l') :
    LowKept cr3 l l' ∧
      (∃ taken', Placed m cr3 ((touched src n).foldl (addMissing (before m)) pages) taken' l') ∧
      ∀ k < n, (translate l.machine.tables.mem cr3 (v + k)).isSome = true := by
  induction n generalizing l' with
  | zero =>
    cases ha
    exact ⟨LowKept.refl cr3 l, ⟨taken, h⟩, fun k hk => absurd hk (Nat.not_lt_zero k)⟩
  | succ n ih =>
    obtain ⟨l₁, hfirst, ha⟩ := bind_eq_ok.mp ha
    obtain ⟨l₂, hread, hstore⟩ := bind_eq_ok.mp ha
    have hsum : wadd v n = v + n := wadd_of_lt (by omega)
    rw [hsum] at hstore
    obtain ⟨hkept, ⟨_, h₁⟩, hall⟩ :=
      ih (fun k hk => hnear k (Nat.lt_succ_of_lt hk)) (by omega) hfirst
    obtain ⟨hkept', h₂⟩ := h₁.touch (.inl rfl) (hnear n (Nat.lt_succ_self n)) hread
    have hlow : ¬ Machine.HeapWindow (v + n) := fun hw => by
      have := hw.bounds
      omega
    obtain ⟨⟨-, hallowed⟩, rfl⟩ := (touch_eq_ok_iff hlow).mp hstore
    have hkept := hkept.trans hkept'
    rw [touched_succ, List.foldl_append]
    refine ⟨hkept, h₂, fun k hk => ?_⟩
    rcases Nat.lt_succ_iff_lt_or_eq.mp hk with hk | rfl
    · exact hall k hk
    · rw [← hkept.low _ (by omega)]
      exact (allowed_write.mp hallowed).1

/-- A round of the mapping loop. -/
theorem Placed.round (h : Placed m cr3 pages taken l) (hv : v < 2 ^ 47)
    (hr : backPage segmentFlags cr3 v l = .ok l') :
    ∃ taken', Placed m cr3 (addMissing (before m) pages v) taken' l' := by
  have hl' := h.toLoaded.round hv hr
  have hlookup := h.small.lookup_eq_minusOne hv
  rw [segmentFlags_eq] at hr
  rcases backPage_cases hr with ⟨hfound, rfl⟩ | ⟨ptr, pmm, tables, hnone, halloc, hmap, rfl⟩
  · rw [h.found (.inl hv) (Option.isSome_iff_ne_none.mpr (mt hlookup.mpr hfound))]
    exact ⟨taken, h⟩
  · refine ⟨_, h.grant (.inl hv) (hlookup.mp hnone) halloc (h.round_maps hv halloc hmap).2.2 hl' ?_⟩
    rw [if_pos hv]

theorem newSpace_placed (h : FreshPage m cr3) (hr : newSpace m cr3 = .ok l) :
    ∃ taken, Placed m cr3 (addMissing (before m) [] cr3) taken l := by
  have hl := newSpace_loaded h hr
  have hhigh : ∀ {a}, InHeap a → ¬ a < 2 ^ 47 := fun ha => by unfold InHeap at ha; omega
  have hcr3 : before m cr3 = m.translate cr3 := if_neg (hhigh h.heap)
  obtain ⟨m₁, rfl, hf, hmapped, rfl | ⟨hnone, ptr, hfault⟩⟩ := newSpace_cases h hr
  · refine ⟨[], hl, ?_, ?_, ?_⟩
    all_goals
      rw [addMissing, hcr3, if_pos (Option.isSome_iff_ne_none.mpr hmapped)]
    · rfl
    · rfl
    · intro a ha
      rw [cell, List.zip_nil_left, List.lookup_nil, Option.map_none, Option.or_none, before]
      split
      case isTrue hlow => exact halves_translate hlow
      case isFalse hhigh => exact halves_heap h (ha.resolve_left hhigh)
  · obtain ⟨hw, halloc, -, -⟩ := Machine.onPageFault_eq_ok hfault
    have hpages : addMissing (before m) [] cr3 = [] ++ [cr3 / 4096] := by
      rw [addMissing, hcr3, hnone]
      rfl
    rw [hpages]
    refine ⟨[] ++ [(.alloc 4096, ptr)], hl, ?_, ?_, ?_⟩
    · exact bind_eq_ok.mpr ⟨_, rfl, bind_eq_ok.mpr ⟨_, halloc, rfl⟩⟩
    · rw [lowGrants_snoc rfl, if_neg (by have := hhigh h.heap; omega)]
      rfl
    · intro a ha
      rw [cell_snoc rfl]
      by_cases hlow : a < 2 ^ 47
      · have := hhigh h.heap
        rw [if_neg (by omega), cell, before, if_pos hlow]
        exact halves_translate hlow
      · have ha := ha.resolve_left hlow
        show translate (halves m₁ cr3).tables.mem cr3 a = _
        rw [halves_heap hf ha, (h.fault hnone hfault).2 a (Tracked.canonical (.inr ha)), cell,
          before, if_neg hlow, List.zip_nil_left, List.lookup_nil, Option.map_none, Option.or_none]
        split
        case isTrue hpage =>
          have hnone : m.translate a = none := translate_page_none
            (Tracked.canonical (.inr ha)) hw.canonical hpage hnone
          rw [hnone, Option.none_or]
        case isFalse => rw [Option.or_none]

end Placed

/-! ## The segments -/

section Segments

variable {m : Machine} {cr3 v : ℕ} {l l' : Loading} {b b' : Bytes} {ph : Phdr} {elf : Elf}
  {pages : List ℕ} {taken : List (Request × ℕ)}

/-- What a round keeps, the mapping loop keeps. -/
theorem mapSegment_induct {P : List ℕ → Loading → Prop} {T : ℕ → Option ℕ} {pages : List ℕ}
    (hround : ∀ pages v l l', v < 2 ^ 47 → P pages l → backPage segmentFlags cr3 v l = .ok l' →
      P (addMissing T pages v) l')
    (htype : ph.pType = ptLoad) (hlow : ph.Low) (h : P pages l)
    (hr : mapSegment cr3 ph l = .ok l') : P (ph.rounds.foldl (addMissing T) pages) l' := by
  have hrounds : ∀ n mapped pages l, ph.pVaddr + mapped + 0x200000 * n < 2 ^ 47 + 0x200000 →
      P pages l → mapRounds cr3 ph.pVaddr n mapped l = .ok l' →
      P ((roundAddrs ph.pVaddr n mapped).foldl (addMissing T) pages) l' := by
    intro n
    induction n with
    | zero =>
      intro mapped pages l _ h hr
      cases hr
      exact h
    | succ n ih =>
      intro mapped pages l hv h hr
      obtain ⟨l₁, hfirst, hr⟩ := bind_eq_ok.mp hr
      have hsum : wadd ph.pVaddr mapped = ph.pVaddr + mapped := wadd_of_lt (by omega)
      rw [hsum] at hfirst
      exact ih _ _ _ (by omega) (hround _ _ _ _ (by omega) h hfirst) hr
  have hlow := hlow htype
  rw [Phdr.rounds, if_pos htype]
  unfold mapSegment at hr
  by_cases hzero : ph.pMemsz = 0
  · rw [hzero] at hr ⊢
    cases hr
    exact h
  · exact hrounds _ _ _ _ (by omega) h hr

/-- The steps of the loop over the program headers. -/
theorem loadSegment_cases (h : loadSegment cr3 ph l b = .ok (l', b')) :
    ∃ l₁, access false l.machine.pml4 ph.addr 4 l = .ok l₁ ∧
      (ph.pType ≠ ptLoad ∧ l' = l₁ ∧ b' = b ∨
        ph.pType = ptLoad ∧ ∃ l₂ l₃ l₄, access false l₁.machine.pml4 ph.addr 0x30 l₁ = .ok l₂ ∧
          mapSegment cr3 ph l₂ = .ok l₃ ∧ access true cr3 ph.pVaddr ph.pMemsz l₃ = .ok l₄ ∧
          copyAccess cr3 ph.pVaddr ph.source ph.pFilesz l₄ = .ok l' ∧
          b' = store l'.machine.tables.mem cr3 ph.pVaddr ph.file ph.pFilesz
            (store l₄.machine.tables.mem cr3 ph.pVaddr (fun _ => 0) ph.pMemsz b)) := by
  obtain ⟨l₁, hhead, h⟩ := bind_eq_ok.mp h
  refine ⟨l₁, hhead, ?_⟩
  split at h
  case isTrue htype =>
    cases h
    exact .inl ⟨htype, rfl, rfl⟩
  case isFalse htype =>
    obtain ⟨l₂, hfields, h⟩ := bind_eq_ok.mp h
    obtain ⟨l₃, hmap, h⟩ := bind_eq_ok.mp h
    obtain ⟨l₄, hset, h⟩ := bind_eq_ok.mp h
    obtain ⟨l₅, hcopy, h⟩ := bind_eq_ok.mp h
    cases h
    exact .inr ⟨not_not.mp htype, l₂, l₃, l₄, hfields, hmap, hset, hcopy, rfl⟩

/-- What a segment keeps, the loop over all of them keeps. -/
theorem loadSegments_induct {P : List Phdr → Loading → Bytes → Prop} {phs done : List Phdr}
    (hseg : ∀ done ph l b l' b', ph ∈ phs → P done l b →
      loadSegment cr3 ph l b = .ok (l', b') → P (done ++ [ph]) l' b')
    (h : P done l b) (hr : loadSegments cr3 phs l b = .ok (l', b')) : P (done ++ phs) l' b' := by
  induction phs generalizing done l b with
  | nil =>
    cases hr
    rwa [List.append_nil]
  | cons ph phs ih =>
    obtain ⟨⟨l₁, b₁⟩, hfirst, hr⟩ := bind_eq_ok.mp hr
    have h₁ := ih (fun done ph' l b l' b' hph' => hseg done ph' l b l' b'
      (List.mem_cons_of_mem _ hph')) (hseg _ _ _ _ _ _ List.mem_cons_self h hfirst) hr
    rwa [List.append_assoc] at h₁

/-- The parts of the constructor. -/
theorem program_cases {r : Program} (h : program m cr3 elf b = .ok (r, l, b')) :
    ∃ l₀ l₁, start m cr3 elf = .ok l₀ ∧ loadSegments cr3 elf.phdrs l₀ b = .ok (l₁, b') ∧
      finish cr3 elf l₁ = .ok (r, l) := by
  obtain ⟨l₀, hstart, h⟩ := bind_eq_ok.mp h
  split at h
  case isTrue => cases h
  case isFalse =>
    obtain ⟨⟨l₁, b₁⟩, hsegs, h⟩ := bind_eq_ok.mp h
    obtain ⟨⟨r', l₂⟩, hfinish, h⟩ := bind_eq_ok.mp h
    cases h
    exact ⟨l₀, l₁, hstart, hsegs, hfinish⟩

theorem Near.mono {n n' : ℕ} (h : Near v n') (hle : n ≤ n') : Near v n :=
  fun k hk => h k (Nat.lt_of_lt_of_le hk hle)

theorem asked_snoc (m : Machine) (cr3 addr : ℕ) (phs : List Phdr) (ph : Phdr) :
    asked m cr3 addr (phs ++ [ph]) =
      ph.asks.foldl (addMissing (before m)) (asked m cr3 addr phs) := by
  rw [asked, List.flatMap_append, ← List.append_assoc, List.foldl_append, List.flatMap_singleton]
  rfl

theorem start_placed (hf : FreshPage m cr3) (hnear : elf.Near) (hr : start m cr3 elf = .ok l) :
    ∃ taken, Placed m cr3 (asked m cr3 elf.addr []) taken l := by
  obtain ⟨l₀, hnew, hr⟩ := bind_eq_ok.mp hr
  obtain ⟨_, h₀⟩ := newSpace_placed hf hnew
  have h₁ := (h₀.read (.inr rfl) hnear.1 hr).2
  rwa [asked, List.flatMap_nil, List.append_nil]

/-- A header is read. -/
theorem Placed.fields (h : Placed m cr3 pages taken l) (hnear : Near ph.addr 0x30) {l₁ : Loading}
    (hhead : access false l.machine.pml4 ph.addr 4 l = .ok l₁)
    (hfields : access false l₁.machine.pml4 ph.addr 0x30 l₁ = .ok l') :
    LowKept cr3 l l' ∧ ∃ taken', Placed m cr3 ((touched ph.addr 4 ++ touched ph.addr 0x30).foldl
      (addMissing (before m)) pages) taken' l' := by
  obtain ⟨hkept₁, _, h₁⟩ := h.read (.inr rfl) (hnear.mono (by decide)) hhead
  obtain ⟨hkept₂, h₂⟩ := h₁.read (.inr rfl) hnear hfields
  rw [List.foldl_append]
  exact ⟨hkept₁.trans hkept₂, h₂⟩

theorem Placed.segment (h : Placed m cr3 pages taken l) (hlow : ph.Low)
    (hnear : Near ph.addr 0x30 ∧ Near ph.source ph.pFilesz)
    (hr : loadSegment cr3 ph l b = .ok (l', b')) :
    ∃ taken', Placed m cr3 (ph.asks.foldl (addMissing (before m)) pages) taken' l' := by
  rw [Phdr.asks]
  obtain ⟨l₁, hhead, ⟨htype, rfl, -⟩ | ⟨htype, l₂, l₃, l₄, hfields, hmap, hset, hcopy, -⟩⟩ :=
    loadSegment_cases hr
  · rw [if_neg htype, List.append_nil]
    exact (h.read (.inr rfl) (hnear.1.mono (by decide)) hhead).2
  · obtain ⟨_, h₃⟩ := @mapSegment_induct cr3 l₂ l₃ ph
      (fun pages l => ∃ taken, Placed m cr3 pages taken l) _ _
      (fun _ _ _ _ hv ⟨_, h⟩ hr => h.round hv hr) htype hlow (h.fields hnear.1 hhead hfields).2 hmap
    have hext := hlow htype
    obtain ⟨-, rfl⟩ := (h₃.set_iff (by omega)).mp hset
    rw [if_pos htype, ← List.append_assoc, ← List.append_assoc, List.foldl_append,
      List.foldl_append]
    exact (h₃.copy hnear.2 (by omega) hcopy).2.1

theorem loadSegments_placed (hf : FreshPage m cr3) (hnear : elf.Near) (hlow : elf.Lower)
    (hstart : start m cr3 elf = .ok l) (hr : loadSegments cr3 elf.phdrs l b = .ok (l', b')) :
    ∃ taken, Placed m cr3 (asked m cr3 elf.addr elf.phdrs) taken l' := by
  refine @loadSegments_induct cr3 l l' b b'
    (fun phs l _ => ∃ taken, Placed m cr3 (asked m cr3 elf.addr phs) taken l) elf.phdrs []
    (fun done ph _ _ _ _ hph ⟨_, h⟩ hr => ?_) (start_placed hf hnear hstart) hr
  rw [asked_snoc]
  exact h.segment (hlow ph hph) (hnear.2 ph hph) hr

end Segments

/-! ## The stack -/

section Stack

variable {m : Machine} {cr3 : ℕ} {elf : Elf} {l l' : Loading} {r : Program}

theorem finish_eq_ok (h : finish cr3 elf l = .ok (r, l')) :
    ∃ ptr pmm tables, pmmAlloc l.machine.pmm userStackSize = .ok (ptr, pmm) ∧
      (stackCall (phys ptr)).run l.machine.tables cr3 = .ok tables ∧
      l' = ⟨⟨pmm, tables, l.machine.pml4⟩, l.granted ++ [(.alloc userStackSize, ptr)]⟩ := by
  obtain ⟨⟨ptr, l₁⟩, hgrant, h⟩ := bind_eq_ok.mp h
  obtain ⟨l₂, hcall, h⟩ := bind_eq_ok.mp h
  cases h
  obtain ⟨pmm, halloc, rfl⟩ := alloc_eq_ok hgrant
  obtain ⟨tables, hmap, rfl⟩ := map_eq_ok hcall
  rw [stackFlags_eq] at hmap
  exact ⟨ptr, pmm, tables, halloc, hmap, rfl⟩

/-- The call for the stack meets pointers only. -/
theorem Loaded.stack_uppers (h : Loaded cr3 l) (frame : ℕ) :
    ∀ σ, σ ≠ [] → σ <:+ (stackCall frame).slot.tail →
      present (entryAt l.machine.tables.mem cr3 σ) = true →
        huge (entryAt l.machine.tables.mem cr3 σ) = false := by
  intro σ hσ hs
  rw [Call.slot_2M (stackCall_size frame)] at hs
  exact h.small vstack (by decide) σ hσ (hs.trans (List.tail_suffix _))

theorem stackCall_legal (ptr : ℕ) : (stackCall (phys ptr)).Legal :=
  ⟨(by decide : Canonical vstack), phys_lt ptr, rfl⟩

theorem stackCall_covers {ptr v : ℕ} :
    (stackCall (phys ptr)).Covers v ↔ v / 2 ^ 21 = vstack / 2 ^ 21 := by
  rw [Call.Covers, stackCall_size]
  rfl

/-- Where the stack is mapped, and everywhere else. -/
theorem Loaded.stack_maps (h : Loaded cr3 l) {ptr : ℕ} {tables : Tables}
    (hmap : (stackCall (phys ptr)).run l.machine.tables cr3 = .ok tables) :
    Maps (stackCall (phys ptr)) (entryAt l.machine.tables.mem cr3) (entryAt tables.mem cr3) ∧
      ∀ v, v < 2 ^ 47 → translate tables.mem cr3 v =
        if v / 2 ^ 21 = vstack / 2 ^ 21 then some (alignDown (phys ptr) (2 ^ 21) + v % 2 ^ 21)
        else translate l.machine.tables.mem cr3 v := by
  have hsize := stackCall_size (phys ptr)
  have hlegal := stackCall_legal ptr
  have hnh := h.stack_uppers (phys ptr)
  obtain ⟨_, hmaps⟩ := mapPage_spec h.wf (hlegal.phys.trans (by decide)) hnh hmap
  have hframe : (stackCall (phys ptr)).frame = alignDown (phys ptr) (2 ^ 21) := by
    rw [Call.frame, hsize]
    rfl
  refine ⟨hmaps, fun v hv => ?_⟩
  split
  case isTrue hin =>
    rw [translate_self hmaps hlegal (.inl hv) (stackCall_covers.mpr hin), hframe, hsize]
    rfl
  case isFalse hout =>
    exact translate_other hmaps hlegal (.inl hv) hnh (mt stackCall_covers.mp hout)

theorem mem_handed_stack {ptr a : ℕ} :
    a ∈ handed (.alloc userStackSize, ptr) ↔ phys ptr ≤ a ∧ a < phys ptr + 2 ^ 21 := by
  have hsize : align userStackSize 4096 = 2 ^ 21 := by decide
  show a ∈ Set.Ico _ (_ + align userStackSize 4096) ↔ _
  rw [hsize, Set.mem_Ico]

end Stack

/-- A machine with 8 MiB, of which `used` is taken, and an empty PML4. -/
def smallMachine (used : ℕ → BitVec 64) : Machine where
  pmm := ⟨⟨used, 2048⟩, 0, 0, 0, 0, 0, false⟩
  tables := bootTables
  pml4 := hhdm + 0x1000

/-- A page of the heap. -/
def heapPage : ℕ := 0xffff900000001000

theorem smallMachine_fresh (used : ℕ → BitVec 64) : FreshPage (smallMachine used) heapPage where
  wf := bootTables_empty.wellFormed
  table π _ hπ := absurd (bootTables_empty.table hπ).2 (by decide)
  frame := show heapPage ∉ bootTables.frames by decide
  heap := by unfold InHeap; decide
  writable σ _ _ hro := by
    have hp : present (entryAt bootTables.mem (hhdm + 0x1000) σ) = true := hro.1
    rw [bootTables_empty.entryAt_eq_zero] at hp
    cases hp

theorem smallMachine_mapped (used : ℕ → BitVec 64) : (smallMachine used).pmm.Mapped := by
  intro k hk
  have hlt : k < 2048 := hk.1
  omega

/-- Three pages are free below 2 MiB. -/
def evenUsed (w : ℕ) : BitVec 64 :=
  if w = 0 then BitVec.allOnes 64 <<< 3 else if w < 8 then BitVec.allOnes 64 else 0

/-- An image in the first page of the heap, with segments whose bytes are there too. -/
def heapElf (segments : List (ℕ × ℕ × ℕ × UInt8)) : Elf where
  addr := 0xffff900000000000
  eIdent := elfMagic
  eEntry := 0x400000
  phdrs := segments.mapIdx fun i x => {
    addr := 0xffff900000000040 + 0x38 * i
    pType := ptLoad
    pVaddr := x.1
    pFilesz := x.2.1
    pMemsz := x.2.2.1
    source := 0xffff900000000200 + 0x100 * i
    file := fun _ => x.2.2.2 }

theorem heapElf_near {segments : List (ℕ × ℕ × ℕ × UInt8)} (hlen : segments.length ≤ 8)
    (h : ∀ x ∈ segments, x.2.1 < 2 ^ 38) : (heapElf segments).Near := by
  have hnear : ∀ v n, 0xffff900000000000 ≤ v → v + n < 0xffff908000000000 → Near v n := by
    intro v n hle hlt j hj hw
    rw [wadd_of_lt (by omega)]
    exact ⟨by omega, by omega⟩
  refine ⟨hnear 0xffff900000000000 0x3a (by decide) (by decide), fun ph hph => ?_⟩
  obtain ⟨i, hi, rfl⟩ := List.mem_mapIdx.mp hph
  have hfile := h segments[i] (List.getElem_mem hi)
  exact ⟨hnear (0xffff900000000040 + 0x38 * i) 0x30 (by omega) (by omega),
    hnear (0xffff900000000200 + 0x100 * i) segments[i].2.1 (by omega) (by omega)⟩

end NeptunOS.Loader
