import NeptunOS.Loader.Isolation

/-!
# The kernel half

The new address space has the kernel's upper half, and the constructor zeroes and
copies segments under it. Nothing checks `p_vaddr`: a segment in the upper half is
written over the kernel's memory, or is mapped there for all address spaces at once.
A page of the heap that is touched for the first time is mapped as well. `respects_kernel`
says that nothing else can happen: where the image and the page for the new PML4 have been
touched before, images without such segments leave no trace; the stores reach granted pages
only, and no table of the kernel is written to (`Owned`).
-/

namespace NeptunOS.Loader

open Radix Paging Stepwise Ledger Pmm

/-! ## What is respected -/

/-- Addresses of the upper half. -/
def KernelHalf (v : ℕ) : Prop := hhdm ≤ v ∧ v < 2 ^ 64

/-- What the constructor may do to the kernel: the bytes of the upper half that change
are in pages that it was granted, the tables that change are the new PML4 and those
that it took from `frames`, and the upper half is translated as before, in the kernel's
address space and in the new one. -/
structure RespectsKernel (m : Machine) (cr3 : ℕ) (b : Bytes) (l : Loading) (b' : Bytes) :
    Prop where
  bytes : ∀ v p, KernelHalf v → m.translate v = some p → b' p ≠ b p →
    ∃ x ∈ l.granted, p ∈ handed x
  tables : ∀ t i, l.machine.tables.mem t i ≠ m.tables.mem t i →
    t = cr3 ∨ t ∈ m.tables.frames ∧ t ∉ l.machine.tables.frames
  kernel : ∀ v, KernelHalf v → l.machine.translate v = m.translate v
  space : ∀ v, KernelHalf v → translate l.machine.tables.mem cr3 v = m.translate v

/-- The bytes are in the upper half and mapped. -/
def Resident (m : Machine) (v n : ℕ) : Prop :=
  ∀ k < n, KernelHalf (wadd v k) ∧ (m.translate (wadd v k)).isSome = true

instance (m : Machine) (v n : ℕ) : Decidable (Resident m v n) :=
  inferInstanceAs (Decidable (∀ k < n, (hhdm ≤ wadd v k ∧ wadd v k < 2 ^ 64) ∧
    (m.translate (wadd v k)).isSome = true))

/-- All that is read of the image has been touched before. -/
def Elf.Resident (m : Machine) (elf : Elf) : Prop :=
  Loader.Resident m elf.addr 0x3a ∧
    ∀ ph ∈ elf.phdrs, Loader.Resident m ph.addr 4 ∧ (ph.pType = ptLoad →
      Loader.Resident m ph.addr 0x30 ∧ Loader.Resident m ph.source ph.pFilesz)

instance (m : Machine) (elf : Elf) : Decidable (elf.Resident m) :=
  inferInstanceAs (Decidable (Loader.Resident m elf.addr 0x3a ∧
    ∀ ph ∈ elf.phdrs, _ ∧ (ph.pType = ptLoad → _ ∧ _)))

/-! ## The tables -/

/-- The path starts in the lower half of the root. -/
def LowPath (π : List ℕ) : Prop := ∀ i, [i] <:+ π → i < 256

theorem LowPath.mono {π σ : List ℕ} (h : LowPath σ) (hs : π <:+ σ) : LowPath π :=
  fun i hi => h i (hi.trans hs)

/-- The lower half has tables of its own, everything else is as the kernel left it. -/
structure Owned (m : Machine) (cr3 : ℕ) (s : Tables) : Prop where
  frames : s.frames ⊆ m.tables.frames
  tables : ∀ π t, π.length ≤ 3 → LowPath π → table child s.mem cr3 π = some t →
    t = cr3 ∨ t ∈ m.tables.frames ∧ t ∉ s.frames
  mem : ∀ t i, t ≠ cr3 → (t ∈ m.tables.frames → t ∈ s.frames) →
    s.mem t i = m.tables.mem t i
  root : ∀ i, 256 ≤ i → s.mem cr3 i = m.tables.mem m.pml4 i

section Tables

variable {m : Machine} {cr3 : ℕ} {s s' : Tables}

theorem halves_owned (m : Machine) (cr3 : ℕ) : Owned m cr3 (halves m cr3).tables where
  frames := List.Subset.refl _
  tables π t _ hlow hπ := by
    by_cases hne : π = []
    · subst hne
      exact .inl (Option.some.inj hπ).symm
    · -- the lower half of the root is empty
      have hs : [π.getLast hne] <:+ π := ⟨π.dropLast, List.dropLast_append_getLast hne⟩
      have hnone : table child (halves m cr3).tables.mem cr3 [π.getLast hne] = none := by
        rw [table_cons rfl]
        simp [halves, hlow _ hs, child_zero]
      rw [table_none_of_suffix hnone hs] at hπ
      cases hπ
  mem t i ht _ := if_neg ht
  root i hi := by
    show (if cr3 = cr3 then (if i < 256 then 0 else m.tables.mem m.pml4 i)
      else m.tables.mem cr3 i) = _
    rw [if_pos rfl, if_neg (by omega)]

/-- A call for a page of the lower half keeps this. -/
theorem Owned.map {c : Call} (h : Owned m cr3 s) (hlow : LowPath c.slot)
    (hlong : 2 ≤ c.slot.length) (hf : c.Frame cr3 s s')
    (hm : Maps c (entryAt s.mem cr3) (entryAt s'.mem cr3)) : Owned m cr3 s' := by
  have htables : ∀ π t, π.length ≤ 3 → LowPath π → table child s'.mem cr3 π = some t →
      t = cr3 ∨ t ∈ m.tables.frames ∧ t ∉ s'.frames := by
    intro π t hlen hπ ht
    rcases hf.origin π t hlen ht with hold | ⟨hin, hout⟩
    · exact (h.tables π t hlen hπ hold).imp id fun ht =>
        ⟨ht.1, fun hin => ht.2 (hf.frames hin)⟩
    · exact .inr ⟨h.frames hin, hout⟩
  constructor
  case frames => exact fun f hin => h.frames (hf.frames hin)
  case tables => exact htables
  case mem =>
    intro t i ht hkept
    have hoff : ∀ ρ, ρ <:+ c.slot.tail → table child s'.mem cr3 ρ ≠ some t := by
      intro ρ hρ hin
      have hlen := hρ.length_le
      rw [List.length_tail, c.slot_length] at hlen
      have hups := c.uppers_length
      have hlowρ := hlow.mono (hρ.trans (List.tail_suffix _))
      rcases htables ρ t (by omega) hlowρ hin with hroot | ⟨hfr, hout⟩
      · exact ht hroot
      · exact hout (hkept hfr)
    rw [hf.mem t i hoff fun hin => hkept (h.frames hin)]
    exact h.mem t i ht fun hin => hf.frames (hkept hin)
  case root =>
    intro i hi
    have hout : ¬ [i] <:+ c.slot := fun hs => absurd (hlow i hs) (by omega)
    have hover : ¬ c.slot <:+ [i] := fun hs => by
      have := hs.length_le
      rw [List.length_singleton] at this
      omega
    have hentry := hm.other [i] (by simp) hout hover
    rw [entryAt, entryAt, view_cons rfl, view_cons rfl] at hentry
    rw [hentry, h.root i hi]

/-- The tables of the kernel are not among those written to. -/
theorem Owned.kernel_mem (h : Owned m cr3 s) (hf : FreshPage m cr3) {π : List ℕ} {t : ℕ}
    (hlen : π.length ≤ 3) (hπ : table child m.tables.mem m.pml4 π = some t) (i : ℕ) :
    s.mem t i = m.tables.mem t i := by
  refine h.mem t i ?_ fun hin => absurd hin (hf.wf.fresh π t hlen hπ)
  rintro rfl
  exact hf.table π hlen hπ

theorem Owned.kernel (h : Owned m cr3 s) (hf : FreshPage m cr3) (v : ℕ) :
    translate s.mem m.pml4 v = m.translate v :=
  @translate_agree _ _ _ _ (fun _ => True)
    (fun i _ => @Owned.kernel_mem m cr3 s h hf [] _ (Nat.zero_le 3) rfl i)
    (fun _ _ i _ hlen hπ => h.kernel_mem hf hlen hπ i) v trivial

theorem Owned.space (h : Owned m cr3 s) (hf : FreshPage m cr3) {v : ℕ} (hv : KernelHalf v) :
    translate s.mem cr3 v = m.translate v := by
  refine @translate_agree _ _ _ _ (256 ≤ ·) h.root
    (fun _ _ i _ hlen hπ => h.kernel_mem hf hlen hπ i) v ?_
  have hlo := hv.1
  have hhi := hv.2
  unfold hhdm at hlo
  rw [addrPml4i, addr_index]
  omega

end Tables

/-! ## The stores -/

theorem store_apply {mem : ℕ → ℕ → ℕ} {cr3 v n : ℕ} {src : ℕ → UInt8} {b : Bytes} {p : ℕ}
    (h : store mem cr3 v src n b p ≠ b p) : ∃ k < n, translate mem cr3 (wadd v k) = some p := by
  by_contra hnone
  exact h (Mapping.put_apply_other fun k hk hp => hnone ⟨k, hk, hp⟩)

/-- What holds while the segments are loaded. -/
structure Within (m : Machine) (cr3 : ℕ) (b : Bytes) (l : Loading) (b' : Bytes) : Prop where
  loaded : Loaded cr3 l
  owned : Owned m cr3 l.machine.tables
  pml4 : l.machine.pml4 = m.pml4
  bytes : ∀ p, b' p ≠ b p → ∃ x ∈ l.granted, p ∈ handed x

section Segments

variable {m : Machine} {cr3 v n : ℕ} {b b₁ b₂ : Bytes} {l l' : Loading}

theorem lowPath {v : ℕ} (hv : v < 2 ^ 47) : LowPath (path v) := by
  intro i hi
  rw [root_of_suffix hi]
  exact addrPml4i_low hv

section

variable (h : Within m cr3 b l b₁)

include h

theorem Within.round (hv : v < 2 ^ 47) (hr : backPage segmentFlags cr3 v l = .ok l') :
    Within m cr3 b l' b₁ := by
  have hloaded := h.loaded.round hv hr
  rw [segmentFlags_eq] at hr
  rcases backPage_cases hr with ⟨-, rfl⟩ | ⟨ptr, pmm, tables, -, halloc, hmap, rfl⟩
  · exact h
  · have hslot : (pageCall true v (phys ptr)).slot = path v := Call.slot_4K (pageCall_size true v _)
    have hphys : (pageCall true v (phys ptr)).phys < 2 ^ 63 := (phys_lt ptr).trans (by decide)
    have hframe := mapPage_frame h.loaded.wf hphys (by rw [hslot]; exact h.loaded.small v hv) hmap
    refine ⟨hloaded, h.owned.map (hslot ▸ lowPath hv) ?_ hframe
      (h.loaded.round_maps hv halloc hmap).2.1, h.pml4, fun p hp => ?_⟩
    · rw [hslot, Call.path_length]
      decide
    · obtain ⟨x, hx, hpx⟩ := h.bytes p hp
      exact ⟨x, List.mem_append_left _ hx, hpx⟩

/-- The stores to a lower-half address reach a granted page. -/
theorem Within.stores (hv : n = 0 ∨ v + n ≤ 2 ^ 47) (src : ℕ → UInt8) :
    Within m cr3 b l (store l.machine.tables.mem cr3 v src n b₁) := by
  refine ⟨h.loaded, h.owned, h.pml4, fun p hp => ?_⟩
  by_cases hsame : store l.machine.tables.mem cr3 v src n b₁ p = b₁ p
  · exact h.bytes p (hsame ▸ hp)
  · obtain ⟨k, hk, hp⟩ := store_apply hsame
    have hsum : wadd v k = v + k := wadd_of_lt (by omega)
    exact h.loaded.owned _ p (by omega) hp

/-- What was touched before is still mapped, for both address spaces. -/
theorem Within.resident (hf : FreshPage m cr3) {r : ℕ} (hr : r = cr3 ∨ r = l.machine.pml4)
    (hres : Resident m v n) {k : ℕ} (hk : k < n) :
    Canonical (wadd v k) ∧ allowed false l.machine.tables.mem r (wadd v k) = true := by
  obtain ⟨hhalf, hsome⟩ := hres k hk
  refine ⟨.inr hhalf, allowed_read.mpr ?_⟩
  rcases hr with rfl | rfl
  · rwa [h.owned.space hf hhalf]
  · rwa [h.pml4, h.owned.kernel hf]

theorem Within.read_eq (hf : FreshPage m cr3) (hres : Resident m v n)
    (hr : access false l.machine.pml4 v n l = .ok l') : l' = l := by
  rw [access_of_allowed fun k hk => h.resident hf (.inr rfl) hres hk] at hr
  exact (Except.ok.inj hr).symm

theorem Within.copy_eq {src : ℕ} (hf : FreshPage m cr3) (hres : Resident m src n)
    (hv : n = 0 ∨ v + n ≤ 2 ^ 47) (hr : copyAccess cr3 v src n l = .ok l') : l' = l := by
  induction n generalizing l' with
  | zero => exact (Except.ok.inj hr).symm
  | succ n ih =>
    obtain ⟨l₁, hfirst, hr⟩ := bind_eq_ok.mp hr
    obtain ⟨l₂, hread, hstore⟩ := bind_eq_ok.mp hr
    obtain rfl := ih (fun k hk => hres k (Nat.lt_succ_of_lt hk)) (by omega) hfirst
    obtain ⟨hcanonical, hallowed⟩ := h.resident hf (.inl rfl) hres (Nat.lt_succ_self n)
    rw [touch_of_allowed hcanonical hallowed] at hread
    obtain rfl := Except.ok.inj hread
    have hsum : wadd v n = v + n := wadd_of_lt (by omega)
    refine ((touch_eq_ok_iff fun hw => ?_).mp hstore).2
    have := hw.bounds
    omega

theorem Within.segment {ph : Phdr} (hf : FreshPage m cr3) (hlow : ph.Low)
    (hres : Resident m ph.addr 4 ∧ (ph.pType = ptLoad →
      Resident m ph.addr 0x30 ∧ Resident m ph.source ph.pFilesz))
    (hr : loadSegment cr3 ph l b₁ = .ok (l', b₂)) : Within m cr3 b l' b₂ := by
  obtain ⟨hhead, hload⟩ := hres
  obtain ⟨l₁, hread, ⟨-, rfl, rfl⟩ | ⟨htype, l₂, l₃, l₄, hfields, hmap, hset, hcopy, rfl⟩⟩ :=
    loadSegment_cases hr
  · rwa [h.read_eq hf hhead hread]
  · obtain rfl := h.read_eq hf hhead hread
    obtain ⟨hheader, hsource⟩ := hload htype
    obtain rfl := h.read_eq hf hheader hfields
    have h₃ : Within m cr3 b l₃ b₁ := @mapSegment_induct cr3 l₂ l₃ ph
      (fun _ l => Within m cr3 b l b₁) (fun _ => none) [] (fun _ _ _ _ hv h hr => h.round hv hr)
      htype hlow h hmap
    have hext := hlow htype
    have hmem : ph.pMemsz = 0 ∨ ph.pVaddr + ph.pMemsz ≤ 2 ^ 47 := by omega
    have hfile : ph.pFilesz = 0 ∨ ph.pVaddr + ph.pFilesz ≤ 2 ^ 47 := by omega
    obtain ⟨-, rfl⟩ := (h₃.loaded.set_iff hmem).mp hset
    obtain rfl := (h₃.stores hmem fun _ => 0).copy_eq hf hsource hfile hcopy
    exact (h₃.stores hmem _).stores hfile _

/-- The stack is in the lower half as well. -/
theorem Within.finish {elf : Elf} {r : Program} (hr : finish cr3 elf l = .ok (r, l')) :
    Owned m cr3 l'.machine.tables ∧ l'.machine.pml4 = m.pml4 ∧
      ∀ p, b₁ p ≠ b p → ∃ x ∈ l'.granted, p ∈ handed x := by
  obtain ⟨ptr, pmm, tables, -, hmap, rfl⟩ := finish_eq_ok hr
  have hphys : (stackCall (phys ptr)).phys < 2 ^ 63 := (phys_lt ptr).trans (by decide)
  have hframe := mapPage_frame h.loaded.wf hphys (h.loaded.stack_uppers _) hmap
  have hslot := Call.slot_2M (stackCall_size (phys ptr))
  refine ⟨h.owned.map ?_ ?_ hframe (h.loaded.stack_maps hmap).1, h.pml4, fun p hp => ?_⟩
  · rw [hslot]
    exact LowPath.mono (@lowPath vstack (by decide)) (List.tail_suffix _)
  · rw [hslot, List.length_tail, Call.path_length]
    decide
  · obtain ⟨x, hx, hpx⟩ := h.bytes p hp
    exact ⟨x, List.mem_append_left _ hx, hpx⟩

end

theorem start_within {elf : Elf} (hf : FreshPage m cr3) (hpage : m.translate cr3 ≠ none)
    (hres : elf.Resident m) (b : Bytes) (hr : start m cr3 elf = .ok l) : Within m cr3 b l b := by
  obtain ⟨l₀, hnew, hread⟩ := bind_eq_ok.mp hr
  obtain ⟨m₁, rfl, -, -, hm₁⟩ := newSpace_cases hf hnew
  obtain rfl := hm₁.resolve_right fun hfault => hpage hfault.1
  have h₀ : Within m₁ cr3 b ⟨halves m₁ cr3, []⟩ b :=
    ⟨newSpace_loaded hf hnew, halves_owned m₁ cr3, rfl, fun _ hp => absurd rfl hp⟩
  rw [h₀.read_eq hf hres.1 hread]
  exact h₀

end Segments

/-- A machine of 8 MiB of which the first page of the heap has been touched, and `heapPage` if
`both`. -/
def touchedMachine (both : Bool) : Except Halt Machine := do
  let (_, m) ← (smallMachine fun w => if w = 0 then 1 else 0).onPageFault 0xffff900000000000
  if both then do
    let (_, m) ← m.onPageFault heapPage
    return m
  else .ok m

theorem touchedMachine_fresh {both : Bool} {m : Machine} (h : touchedMachine both = .ok m) :
    FreshPage m heapPage := by
  obtain ⟨⟨ptr, m₁⟩, hfirst, h⟩ := bind_eq_ok.mp h
  have hnone : ∀ v, (smallMachine fun w => if w = 0 then 1 else 0).translate v = none :=
    bootTables_empty.translate
  obtain ⟨h₁, htranslate⟩ := (smallMachine_fresh _).fault (hnone _) hfirst
  cases both with
  | false =>
    obtain rfl := Except.ok.inj h
    exact h₁
  | true =>
    obtain ⟨⟨ptr', m₂⟩, hsecond, h⟩ := bind_eq_ok.mp h
    obtain rfl := Except.ok.inj h
    refine (h₁.fault ?_ hsecond).1
    rw [htranslate heapPage (by decide), if_neg (by decide), hnone]

end NeptunOS.Loader
