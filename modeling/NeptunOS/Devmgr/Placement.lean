import NeptunOS.Devmgr.Module

/-!
# Where the sections of a module are

The sections lie one behind the other, each rounded up to 32 bytes, and share pages. A page that is
mapped is skipped by the mapping loop, whether an earlier section has mapped it or somebody else:
`Placing` says that every section is mapped where it is copied, whatever the sizes are.

Three things are not checked. Pages that were mapped before may be read-only, and the copy halts;
the rounding is not part of the sections' sizes, so sections of less than 1 GiB may leave the
window; and pages that were mapped before may share frames. `sections_placed_iff` says that nothing
else goes wrong.
-/

namespace NeptunOS.Modules

open Paging Stepwise Loader Mapping

/-! ## The layout -/

/-- Where section `i` starts in the window. -/
def offset (f : ℕ → Shdr) : ℕ → ℕ
  | 0 => 0
  | i + 1 => offset f i + if (f i).Loads then align (f i).shSize 32 else 0

/-- The sizes of the sections that are loaded. -/
def total (f : ℕ → Shdr) : ℕ → ℕ
  | 0 => 0
  | i + 1 => total f i + if (f i).Loads then (f i).shSize else 0

/-- The load address of section `i`. -/
def Elf.addr (elf : Elf) (modbase i : ℕ) : ℕ := wadd modbase (offset elf.shdrs i)

/-- The section headers after `n` rounds. -/
def Elf.placed (elf : Elf) (modbase n i : ℕ) : Shdr :=
  if i < n ∧ (elf.shdrs i).Loads then { elf.shdrs i with shAddr := elf.addr modbase i }
  else elf.shdrs i

/-- The addresses that the mapping loops of the first `n` rounds look up. -/
def visits (elf : Elf) (modbase n : ℕ) : List ℕ :=
  (List.range n).flatMap fun i =>
    if (elf.shdrs i).Loads then sectionPages (elf.addr modbase i) (elf.shdrs i).shSize else []

/-- The pages that are mapped in the first `n` rounds. -/
def newPages (elf : Elf) (modbase : ℕ) (m : Machine) (n : ℕ) : List ℕ :=
  (visits elf modbase n).foldl (addMissing m.translate) []

/-- No section ends behind the window. -/
def Fits (elf : Elf) : Prop :=
  ∀ i < elf.eShnum, (elf.shdrs i).Loads →
    offset elf.shdrs i + (elf.shdrs i).shSize ≤ windowSize

/-- Bytes of the sections that come to lie in one byte of physical memory are equal. -/
def Agree (elf : Elf) (modbase : ℕ) (m : Machine) : Prop :=
  ∀ granted p, takePages (newPages elf modbase m elf.eShnum).length m.pmm = .ok (granted, p) →
    ∀ i < elf.eShnum, (elf.shdrs i).Loads → ∀ i' < elf.eShnum, (elf.shdrs i').Loads →
      ∀ j < (elf.shdrs i).shSize, ∀ j' < (elf.shdrs i').shSize,
        cell m.translate (newPages elf modbase m elf.eShnum) granted
            (wadd (elf.addr modbase i) j) =
          cell m.translate (newPages elf modbase m elf.eShnum) granted
            (wadd (elf.addr modbase i') j') →
        (elf.shdrs i).byteAt j = (elf.shdrs i').byteAt j'

/-! ## Sections in place -/

/-- A byte under the kernel's tables. -/
def State.seen (s : State) (a : ℕ) : Option UInt8 := see s.loading.machine.translate s.bytes a

/-- The sections are in the window, apart from each other, and with their bytes; no section changes
the frames or the bytes of an earlier one. -/
structure WellPlaced (elf : Elf) (modbase : ℕ) (m : Machine) (b : Bytes) (s : State) : Prop where
  window : ∀ i < elf.eShnum, (elf.shdrs i).Loads → modbase ≤ (s.shdrs i).shAddr ∧
    (s.shdrs i).shAddr + (elf.shdrs i).shSize ≤ modbase + windowSize
  disjoint : ∀ i < elf.eShnum, ∀ k < i, (elf.shdrs i).Loads → (elf.shdrs k).Loads →
    (s.shdrs k).shAddr + (elf.shdrs k).shSize ≤ (s.shdrs i).shAddr ∨
      (s.shdrs i).shAddr + (elf.shdrs i).shSize ≤ (s.shdrs k).shAddr
  holds : ∀ i < elf.eShnum, (elf.shdrs i).Loads → ∀ j < (elf.shdrs i).shSize,
    s.seen (wadd (s.shdrs i).shAddr j) = some ((elf.shdrs i).byteAt j)
  undisturbed : ∀ i < elf.eShnum, ∀ s₁ s₂, loadSections elf modbase m b i = .ok s₁ →
    loadSection i s₁ = .ok s₂ → ∀ k < i, (elf.shdrs k).Loads → ∀ j < (elf.shdrs k).shSize,
      s₂.loading.machine.translate (wadd (s.shdrs k).shAddr j) =
          s₁.loading.machine.translate (wadd (s.shdrs k).shAddr j) ∧
        s₂.seen (wadd (s.shdrs k).shAddr j) = s₁.seen (wadd (s.shdrs k).shAddr j)

/-! ## Sizes and offsets -/

section Layout

variable {f : ℕ → Shdr} {i k n : ℕ}

theorem offset_succ (h : (f i).Loads) : offset f (i + 1) = offset f i + align (f i).shSize 32 := by
  rw [offset, if_pos h]

theorem offset_mono (h : i ≤ k) : offset f i ≤ offset f k := by
  induction k, h using Nat.le_induction with
  | base => exact Nat.le_refl _
  | succ k _ ih => exact ih.trans (Nat.le_add_right _ _)

theorem total_mono (h : i ≤ k) : total f i ≤ total f k := by
  induction k, h using Nat.le_induction with
  | base => exact Nat.le_refl _
  | succ k _ ih => exact ih.trans (Nat.le_add_right _ _)

theorem align_le (x a : ℕ) : align x a ≤ x + (a - 1) :=
  (Nat.div_mul_le_self _ _).trans (Nat.mod_le _ _)

/-- At most 31 bytes are lost behind each section. -/
theorem offset_le (f : ℕ → Shdr) (i : ℕ) : offset f i ≤ total f i + 31 * i := by
  induction i with
  | zero => exact Nat.le_refl 0
  | succ i ih =>
    rw [offset, total]
    split
    case isTrue =>
      have := align_le (f i).shSize 32
      omega
    case isFalse => omega

/-- The extent of a section that is loaded. -/
theorem extent_le (hk : i < n) (h : (f i).Loads) :
    offset f i + (f i).shSize ≤ total f n + 31 * n := by
  have hoff := offset_le f i
  have htotal := @total_mono f (i + 1) n hk
  rw [total, if_pos h] at htotal
  omega

/-- Sections do not overlap. -/
theorem offset_add_size_le (hk : i < k) (h : (f i).Loads) (hsize : (f i).shSize < 2 ^ 63) :
    offset f i + (f i).shSize ≤ offset f k := by
  have hmono := @offset_mono f (i + 1) k hk
  rw [offset_succ h] at hmono
  have := (le_align (show 0 < 32 by decide) (show (f i).shSize + (32 - 1) < 2 ^ 64 by omega)).1
  omega

end Layout

/-! ## The windows -/

/-- A bitmap that has been set up has 64 bits. -/
def Windows.Ready (w : Windows) : Prop := w.bmInit = true → w.bm.sz = 64

/-- The addresses from which the windows start; the window for `-1` is the one before the first. -/
def IsWindow (modbase : ℕ) : Prop :=
  modulesBase - windowSize ≤ modbase ∧ modbase + windowSize ≤ 2 ^ 64

theorem Windows.take_window {w w' : Windows} {modbase : ℕ} (hw : w.Ready)
    (h : w.take = .ok (modbase, w')) : IsWindow modbase := by
  obtain ⟨⟨modid, bm⟩, hfind, h⟩ := bind_eq_ok.mp h
  cases h
  obtain ⟨-, hfound⟩ := Bitmap.findAndSetMultiple_zero hfind
  have hsz : (if w.bmInit then w.bm else Bitmap.init w.bm.buffer 64 false).sz = 64 := by
    split
    case isTrue hinit => exact hw hinit
    case isFalse => rfl
  rw [hsz] at hfound
  cases modid with
  | none =>
    rw [Option.getD_none]
    unfold IsWindow wadd modulesBase windowSize minusOne
    omega
  | some c =>
    have hc : c + 1 ≤ 64 := hfound.2.1
    rw [Option.getD_some]
    unfold IsWindow wadd modulesBase windowSize
    omega

/-- What is known of a module and the machine before it is loaded. -/
structure Site (elf : Elf) (modbase : ℕ) (m : Machine) : Prop where
  wf : WellFormed m.tables m.pml4
  window : IsWindow modbase
  total : total elf.shdrs elf.eShnum < 2 ^ 46
  noGiant : ∀ v ∈ visits elf modbase elf.eShnum, NoGiant m.tables.mem m.pml4 v

section Site

variable {elf : Elf} {modbase : ℕ} {m : Machine} {i j : ℕ}
variable {x base size v : ℕ}

theorem IsWindow.canonical (h : IsWindow modbase) (hx : x < 2 ^ 47) :
    Canonical (wadd modbase x) := by
  unfold IsWindow modulesBase windowSize at h
  unfold Canonical wadd hhdm
  omega

theorem IsWindow.not_heap (h : IsWindow modbase) (hx : x < 2 ^ 47) :
    ¬ Machine.HeapWindow (wadd modbase x) := by
  intro hw
  have := hw.bounds
  unfold IsWindow modulesBase windowSize at h
  unfold wadd at this
  omega

theorem Site.extent (h : Site elf modbase m) (hi : i < elf.eShnum) (hl : (elf.shdrs i).Loads) :
    offset elf.shdrs i + (elf.shdrs i).shSize < 2 ^ 46 + 2 ^ 21 := by
  have := extent_le hi hl
  have := h.total
  have := elf.shnum_lt
  omega

theorem Site.byte_canonical (h : Site elf modbase m) (hi : i < elf.eShnum)
    (hl : (elf.shdrs i).Loads) (hj : j < (elf.shdrs i).shSize) :
    Canonical (wadd (elf.addr modbase i) j) := by
  have := h.extent hi hl
  rw [Elf.addr, wadd_assoc]
  exact h.window.canonical (by omega)

theorem Site.byte_not_heap (h : Site elf modbase m) (hi : i < elf.eShnum)
    (hl : (elf.shdrs i).Loads) (hj : j < (elf.shdrs i).shSize) :
    ¬ Machine.HeapWindow (wadd (elf.addr modbase i) j) := by
  have := h.extent hi hl
  rw [Elf.addr, wadd_assoc]
  exact h.window.not_heap (by omega)

theorem mem_sectionPages :
    v ∈ sectionPages base size ↔ ∃ k, k ≤ align size 4096 / 4096 ∧ wadd base (4096 * k) = v := by
  rw [sectionPages, List.mem_map]
  simp only [List.mem_range, Nat.lt_succ_iff]

theorem Site.page_canonical (h : Site elf modbase m) (hi : i < elf.eShnum)
    (hl : (elf.shdrs i).Loads) (hv : v ∈ sectionPages (elf.addr modbase i) (elf.shdrs i).shSize) :
    Canonical v := by
  obtain ⟨k, hk, rfl⟩ := mem_sectionPages.mp hv
  have := h.extent hi hl
  have := align_le (elf.shdrs i).shSize 4096
  rw [Elf.addr, wadd_assoc]
  exact h.window.canonical (by omega)

theorem visits_succ (elf : Elf) (modbase n : ℕ) : visits elf modbase (n + 1) =
    visits elf modbase n ++ if (elf.shdrs n).Loads then
      sectionPages (elf.addr modbase n) (elf.shdrs n).shSize else [] := by
  rw [visits, visits, List.range_succ, List.flatMap_append, List.flatMap_singleton]

theorem mem_visits {n : ℕ} (hi : i < n) (hl : (elf.shdrs i).Loads)
    (hv : v ∈ sectionPages (elf.addr modbase i) (elf.shdrs i).shSize) :
    v ∈ visits elf modbase n := by
  refine List.mem_flatMap.mpr ⟨i, List.mem_range.mpr hi, ?_⟩
  rwa [if_pos hl]

/-- Every byte of a section lies in a page that is looked up. -/
theorem exists_sectionPage (hsize : size < 2 ^ 63) (hj : j < size) :
    ∃ v ∈ sectionPages base size, wadd base j / 4096 = v / 4096 := by
  have halign : align size 4096 = (size + 4095) / 4096 * 4096 := align_of_lt (by omega)
  refine ⟨_, mem_sectionPages.mpr ⟨(base % 4096 + j) / 4096, ?_, rfl⟩, ?_⟩
  · omega
  · unfold wadd
    omega

end Site

/-! ## Writes -/

/-- No page of section `i` is read-only. -/
def Elf.Writable (elf : Elf) (modbase : ℕ) (m : Machine) (i : ℕ) : Prop :=
  ∀ j < (elf.shdrs i).shSize,
    Loader.Writable m.tables.mem m.pml4 (wadd (elf.addr modbase i) j)

/-- Outside the heap, stores to a mapped range return where it is writable. -/
theorem write_eq_ok_iff {v n : ℕ} {l : Loading} {b : Bytes} {src : ℕ → UInt8} {y : Loading × Bytes}
    (hout : ∀ j < n, ¬ Machine.HeapWindow (wadd v j)) (hcanonical : ∀ j < n, Canonical (wadd v j))
    (h : ∀ j < n, (l.machine.translate (wadd v j)).isSome = true) :
    write v n src l b = .ok y ↔
      (∀ j < n, Loader.Writable l.machine.tables.mem l.machine.pml4 (wadd v j)) ∧
        y = (l, put l.machine.translate (wadd v) src n b) := by
  have hallowed : (∀ j < n, Canonical (wadd v j) ∧
      allowed true l.machine.tables.mem l.machine.pml4 (wadd v j) = true) ↔
      ∀ j < n, Loader.Writable l.machine.tables.mem l.machine.pml4 (wadd v j) := by
    refine forall₂_congr fun j hj => ?_
    rw [allowed_write]
    exact ⟨fun hw => hw.2.2, fun hw => ⟨hcanonical j hj, h j hj, hw⟩⟩
  unfold write
  simp only [bind_eq_ok, access_eq_ok_iff hout, hallowed]
  constructor
  · rintro ⟨l', ⟨hw, rfl⟩, hy⟩
    exact ⟨hw, (Except.ok.inj hy).symm⟩
  · rintro ⟨hw, rfl⟩
    exact ⟨l, ⟨hw, rfl⟩, rfl⟩

/-! ## The rounds -/

/-- After `n` rounds: the sections are mapped, at their addresses. -/
structure Placing (elf : Elf) (modbase : ℕ) (m : Machine) (n : ℕ) (s : State) : Prop where
  shdrs : s.shdrs = elf.placed modbase n
  base : s.sectionbase = elf.addr modbase n
  backed : Backed m m.pml4 (newPages elf modbase m n) s.loading
  mapped : ∀ i < n, (elf.shdrs i).Loads → ∀ j < (elf.shdrs i).shSize,
    (s.loading.machine.translate (wadd (elf.addr modbase i) j)).isSome = true
  writable : ∀ i < n, (elf.shdrs i).Loads → elf.Writable modbase m i

section Rounds

variable {elf : Elf} {modbase n : ℕ} {m : Machine} {b : Bytes} {s s' : State} {l : Loading}

theorem placed_succ (hl : (elf.shdrs n).Loads) : elf.placed modbase (n + 1) =
    Function.update (elf.placed modbase n) n
      { elf.shdrs n with shAddr := elf.addr modbase n } := by
  funext i
  by_cases hi : i = n
  · subst hi
    rw [Function.update_self, Elf.placed, if_pos ⟨Nat.lt_succ_self i, hl⟩]
  · have hiff : i < n + 1 ↔ i < n := by omega
    rw [Function.update_of_ne hi]
    simp only [Elf.placed, hiff]

theorem placed_succ_of_not (hl : ¬ (elf.shdrs n).Loads) :
    elf.placed modbase (n + 1) = elf.placed modbase n := by
  funext i
  by_cases hi : i = n
  · subst hi
    rw [Elf.placed, Elf.placed, if_neg fun hc => hl hc.2, if_neg fun hc => hl hc.2]
  · have hiff : i < n + 1 ↔ i < n := by omega
    simp only [Elf.placed, hiff]

theorem Placing.start (h : Site elf modbase m) :
    Placing elf modbase m 0 ⟨elf.shdrs, ⟨m, []⟩, b, modbase⟩ where
  shdrs := by
    funext i
    rw [Elf.placed, if_neg fun hi => Nat.not_lt_zero i hi.1]
  base := by
    have hlt : modbase < 2 ^ 64 :=
      Nat.lt_of_lt_of_le (Nat.lt_add_of_pos_right (by decide)) h.window.2
    exact (wadd_zero hlt).symm
  backed := Backed.refl h.wf
  mapped i hi := absurd hi (Nat.not_lt_zero i)
  writable i hi := absurd hi (Nat.not_lt_zero i)

theorem Placing.shdr (h : Placing elf modbase m n s) : s.shdrs n = elf.shdrs n := by
  rw [h.shdrs, Elf.placed, if_neg fun hi => Nat.lt_irrefl n hi.1]

theorem Placing.translate_eq (h : Placing elf modbase m n s) :
    s.loading.machine.translate = translate s.loading.machine.tables.mem m.pml4 := by
  funext a
  rw [Machine.translate, h.backed.pml4]

theorem moduleFlags_eq : moduleFlags = pageFlags false := by decide

/-- The state when a section is copied. -/
theorem Placing.mapSection (h : Placing elf modbase m n s) (hs : Site elf modbase m)
    (hn : n < elf.eShnum) (hl : (elf.shdrs n).Loads)
    (hr : mapSection s.sectionbase (elf.shdrs n).shSize s.loading = .ok l) :
    Backed m m.pml4 (newPages elf modbase m (n + 1)) l ∧ Keeps m.pml4 s.loading l ∧
      ∀ j < (elf.shdrs n).shSize,
        (l.machine.translate (wadd (elf.addr modbase n) j)).isSome = true := by
  unfold Modules.mapSection at hr
  split at hr
  case isTrue => cases hr
  case isFalse =>
    rw [h.base, h.backed.pml4, moduleFlags_eq] at hr
    have hvs : ∀ v ∈ sectionPages (elf.addr modbase n) (elf.shdrs n).shSize,
        Canonical v ∧ NoGiant m.tables.mem m.pml4 v := fun v hv =>
      ⟨hs.page_canonical hn hl hv, hs.noGiant v (mem_visits hn hl hv)⟩
    obtain ⟨hbacked, hkeeps⟩ := h.backed.rounds hvs hr
    have hpages : newPages elf modbase m (n + 1) =
        (sectionPages (elf.addr modbase n) (elf.shdrs n).shSize).foldl
          (addMissing (translate m.tables.mem m.pml4)) (newPages elf modbase m n) := by
      rw [newPages, visits_succ, if_pos hl, List.foldl_append]
      rfl
    refine ⟨hpages ▸ hbacked, hkeeps, fun j hj => ?_⟩
    have hext := hs.extent hn hl
    obtain ⟨v, hv, hpage⟩ := @exists_sectionPage j (elf.addr modbase n) _ (by omega) hj
    rw [Machine.translate, hbacked.pml4]
    exact hbacked.rounds_mapped hv (hvs v hv).1 (hs.byte_canonical hn hl hj) hpage

/-- The copy of a section that is mapped. -/
theorem Site.write_iff {k : ℕ} {src : ℕ → UInt8} {b : Bytes} {y : Loading × Bytes}
    (hs : Site elf modbase m) (hn : n < elf.eShnum) (hl : (elf.shdrs n).Loads)
    (hbacked : Backed m m.pml4 (newPages elf modbase m k) l)
    (hmapped : ∀ j < (elf.shdrs n).shSize,
      (l.machine.translate (wadd (elf.addr modbase n) j)).isSome = true) :
    write (elf.addr modbase n) (elf.shdrs n).shSize src l b = .ok y ↔ elf.Writable modbase m n ∧
      y = (l, put l.machine.translate (wadd (elf.addr modbase n)) src (elf.shdrs n).shSize b) := by
  rw [write_eq_ok_iff (fun j hj => hs.byte_not_heap hn hl hj)
    (fun j hj => hs.byte_canonical hn hl hj) hmapped]
  refine and_congr_left fun _ => forall₂_congr fun j _ => ?_
  rw [hbacked.pml4]
  exact hbacked.writable_iff

/-- What a round does. -/
theorem Placing.step (h : Placing elf modbase m n s) (hs : Site elf modbase m)
    (hn : n < elf.eShnum) (hr : loadSection n s = .ok s') :
    Placing elf modbase m (n + 1) s' ∧ Keeps m.pml4 s.loading s'.loading ∧
      s'.bytes = if (elf.shdrs n).Loads then
          put s'.loading.machine.translate (wadd (elf.addr modbase n)) (elf.shdrs n).byteAt
            (elf.shdrs n).shSize s.bytes
        else s.bytes := by
  unfold loadSection at hr
  rw [h.shdr] at hr
  split at hr
  case isTrue hl =>
    obtain ⟨l₁, hmap, hr⟩ := bind_eq_ok.mp hr
    obtain ⟨hbacked, hkeeps, hmapped⟩ := h.mapSection hs hn hl hmap
    obtain ⟨y, hwrite, hr⟩ := bind_eq_ok.mp hr
    rw [h.base, hs.write_iff hn hl hbacked hmapped] at hwrite
    obtain ⟨hwritable, rfl⟩ := hwrite
    cases hr
    refine ⟨⟨?_, ?_, hbacked, ?_, ?_⟩, hkeeps, by rw [if_pos hl]⟩
    · rw [placed_succ hl, ← h.shdrs, ← h.base]
    · show wadd s.sectionbase (align (elf.shdrs n).shSize 32) = elf.addr modbase (n + 1)
      rw [h.base, Elf.addr, wadd_assoc, Elf.addr, offset_succ hl]
    · intro i hi hli j hj
      rcases Nat.lt_succ_iff_lt_or_eq.mp hi with hi | rfl
      · have hold := h.mapped i hi hli j hj
        rw [h.translate_eq] at hold
        obtain ⟨p, hp⟩ := Option.isSome_iff_exists.mp hold
        show (Machine.translate _ _).isSome = true
        rw [Machine.translate, hbacked.pml4, hkeeps _ p (hs.byte_canonical (by omega) hli hj) hp]
        rfl
      · exact hmapped j hj
    · intro i hi hli
      rcases Nat.lt_succ_iff_lt_or_eq.mp hi with hi | rfl
      · exact h.writable i hi hli
      · exact hwritable
  case isFalse hl =>
    cases hr
    have hold : ∀ i < n + 1, (elf.shdrs i).Loads → i < n := by
      intro i hi hli
      rcases Nat.lt_succ_iff_lt_or_eq.mp hi with hi | rfl
      · exact hi
      · exact absurd hli hl
    refine ⟨⟨?_, ?_, ?_, fun i hi hli => h.mapped i (hold i hi hli) hli,
      fun i hi hli => h.writable i (hold i hi hli) hli⟩, fun a p _ hp => hp, by rw [if_neg hl]⟩
    · rw [placed_succ_of_not hl, h.shdrs]
    · rw [h.base, Elf.addr, Elf.addr, offset, if_neg hl]
      rfl
    · rw [newPages, visits_succ, if_neg hl, List.append_nil]
      exact h.backed

theorem loadSections_succ (elf : Elf) (modbase : ℕ) (m : Machine) (b : Bytes) (n : ℕ) :
    loadSections elf modbase m b (n + 1) = loadSections elf modbase m b n >>= loadSection n := by
  rw [loadSections, loadSections, List.range_succ, List.foldlM_append]
  congr 1
  funext s
  exact bind_pure _

theorem loadSections_placing (hs : Site elf modbase m) (hn : n ≤ elf.eShnum)
    (hr : loadSections elf modbase m b n = .ok s) : Placing elf modbase m n s := by
  induction n generalizing s with
  | zero =>
    cases hr
    exact Placing.start hs
  | succ n ih =>
    rw [loadSections_succ] at hr
    obtain ⟨s₁, h₁, hr⟩ := bind_eq_ok.mp hr
    exact ((ih (by omega) h₁).step hs hn hr).1

/-- The states that a run goes through; later rounds keep what is mapped. -/
theorem loadSections_prefix (hs : Site elf modbase m) (hn : n ≤ elf.eShnum)
    (hr : loadSections elf modbase m b n = .ok s) {k : ℕ} (hk : k ≤ n) :
    ∃ s₁, loadSections elf modbase m b k = .ok s₁ ∧ Keeps m.pml4 s₁.loading s.loading := by
  induction n, hk using Nat.le_induction generalizing s with
  | base => exact ⟨s, hr, fun a p _ hp => hp⟩
  | succ n _ ih =>
    rw [loadSections_succ] at hr
    obtain ⟨s₂, h₂, hr⟩ := bind_eq_ok.mp hr
    obtain ⟨s₁, h₁, hkeeps⟩ := ih (by omega) h₂
    have hstep := (loadSections_placing hs (by omega) h₂).step hs hn hr
    exact ⟨s₁, h₁, hkeeps.trans hstep.2.1⟩

/-- On pages that are mapped already the loop does nothing. -/
theorem mapSection_of_found {base size : ℕ} (hsize : align size 4096 < 0xfffff000)
    (h : ∀ v ∈ sectionPages base size,
      pagingLookup l.machine.tables.mem l.machine.pml4 v ≠ minusOne) :
    mapSection base size l = .ok l := by
  rw [mapSection, if_neg (Nat.not_le.mpr hsize)]
  generalize sectionPages base size = vs at h
  induction vs with
  | nil => rfl
  | cons v vs ih =>
    rw [List.foldlM_cons, backPage, if_neg (h v List.mem_cons_self), ok_bind]
    exact ih fun w hw => h w (List.mem_cons_of_mem _ hw)

/-- In a window that is mapped, sections are loaded without a page of memory. -/
theorem loadSections_of_mapped (hs : Site elf modbase m) (hn : n ≤ elf.eShnum)
    (hsize : ∀ i < n, (elf.shdrs i).Loads → align (elf.shdrs i).shSize 4096 < 0xfffff000)
    (hmapped : ∀ v ∈ visits elf modbase n, (m.translate v).isSome = true)
    (hwritable : ∀ i < n, elf.Writable modbase m i) :
    ∃ s, loadSections elf modbase m b n = .ok s := by
  induction n with
  | zero => exact ⟨_, rfl⟩
  | succ n ih =>
    obtain ⟨s, hr⟩ := ih (by omega) (fun i hi => hsize i (Nat.lt_succ_of_lt hi))
      (fun v hv => hmapped v (by rw [visits_succ]; exact List.mem_append_left _ hv))
      fun i hi => hwritable i (Nat.lt_succ_of_lt hi)
    have hp := loadSections_placing hs (by omega) hr
    rw [loadSections_succ, hr, ok_bind]
    unfold loadSection
    rw [hp.shdr]
    split
    case isTrue hl =>
      have hmap : mapSection s.sectionbase (elf.shdrs n).shSize s.loading = .ok s.loading := by
        refine mapSection_of_found (hsize n (Nat.lt_succ_self n) hl) fun v hv => ?_
        rw [hp.base] at hv
        have hin := mem_visits (Nat.lt_succ_self n) hl hv
        have hv' := hs.page_canonical hn hl hv
        have hng := hp.backed.noGiant v (hs.noGiant v (mem_visits hn hl hv))
        rw [hp.backed.pml4, Ne, hng.lookup_eq_minusOne, ← Ne, ← Option.isSome_iff_ne_none]
        exact (hp.backed.mapped hv').mpr (.inl (hmapped v hin))
      obtain ⟨hbacked, -, hbytes⟩ := hp.mapSection hs hn hl hmap
      rw [hmap, ok_bind, hp.base]
      exact ⟨_, bind_eq_ok.mpr ⟨_, (hs.write_iff hn hl hbacked hbytes).mpr
        ⟨hwritable n (Nat.lt_succ_self n), rfl⟩, rfl⟩⟩
    case isFalse => exact ⟨s, rfl⟩

end Rounds

/-! ## Contents -/

/-- `Agree`, for the translation that the sections are written through. -/
def AgreeUnder (elf : Elf) (modbase : ℕ) (T : ℕ → Option ℕ) : Prop :=
  ∀ i < elf.eShnum, (elf.shdrs i).Loads → ∀ i' < elf.eShnum, (elf.shdrs i').Loads →
    ∀ j < (elf.shdrs i).shSize, ∀ j' < (elf.shdrs i').shSize, ∀ p,
      T (wadd (elf.addr modbase i) j) = some p → T (wadd (elf.addr modbase i') j') = some p →
      (elf.shdrs i).byteAt j = (elf.shdrs i').byteAt j'

/-- The first `n` sections are in memory. -/
def Holding (elf : Elf) (modbase n : ℕ) (s : State) : Prop :=
  ∀ i < n, (elf.shdrs i).Loads → ∀ j < (elf.shdrs i).shSize, ∀ p,
    s.loading.machine.translate (wadd (elf.addr modbase i) j) = some p →
    s.bytes p = (elf.shdrs i).byteAt j

section Contents

variable {elf : Elf} {modbase n i j : ℕ} {m : Machine} {b : Bytes} {s : State}

theorem Placing.cell_eq (h : Placing elf modbase m n s) {a : ℕ} (ha : Canonical a) :
    s.loading.machine.translate a =
      cell m.translate (newPages elf modbase m n) s.loading.granted a := by
  rw [h.translate_eq, h.backed.frames a ha]
  rfl

theorem Placing.shAddr (h : Placing elf modbase m n s) (hi : i < n) (hl : (elf.shdrs i).Loads) :
    (s.shdrs i).shAddr = elf.addr modbase i := by
  rw [h.shdrs, Elf.placed, if_pos ⟨hi, hl⟩]

/-- The frames are known before. -/
theorem Placing.agree_iff (h : Placing elf modbase m elf.eShnum s) (hs : Site elf modbase m) :
    Agree elf modbase m ↔ AgreeUnder elf modbase s.loading.machine.translate := by
  constructor
  · intro hagree i hi hl i' hi' hl' j hj j' hj' p hp hp'
    refine hagree _ _ h.backed.grants i hi hl i' hi' hl' j hj j' hj' ?_
    rw [← h.cell_eq (hs.byte_canonical hi hl hj), ← h.cell_eq (hs.byte_canonical hi' hl' hj'),
      hp, hp']
  · intro hagree granted p htake i hi hl i' hi' hl' j hj j' hj' hcell
    obtain ⟨rfl, -⟩ := Prod.mk.inj (Except.ok.inj (h.backed.grants.symm.trans htake))
    rw [← h.cell_eq (hs.byte_canonical hi hl hj),
      ← h.cell_eq (hs.byte_canonical hi' hl' hj')] at hcell
    obtain ⟨q, hq⟩ := Option.isSome_iff_exists.mp (h.mapped i hi hl j hj)
    exact hagree i hi hl i' hi' hl' j hj j' hj' q hq (hcell ▸ hq)

/-- Mapped bytes keep their frames. -/
theorem Placing.kept {s' : State} {k : ℕ} (h : Placing elf modbase m n s)
    (h' : Placing elf modbase m k s') (hs : Site elf modbase m) (hn : n ≤ elf.eShnum)
    (hkeeps : Keeps m.pml4 s.loading s'.loading) (hi : i < n) (hl : (elf.shdrs i).Loads)
    (hj : j < (elf.shdrs i).shSize) :
    s'.loading.machine.translate (wadd (elf.addr modbase i) j) =
      s.loading.machine.translate (wadd (elf.addr modbase i) j) := by
  obtain ⟨p, hp⟩ := Option.isSome_iff_exists.mp (h.mapped i hi hl j hj)
  rw [hp, h'.translate_eq]
  rw [h.translate_eq] at hp
  exact hkeeps _ p (hs.byte_canonical (by omega) hl hj) hp

/-- Where equal frames mean equal bytes, every section stays in memory. -/
theorem holding (hs : Site elf modbase m) (hr : loadSections elf modbase m b elf.eShnum = .ok s)
    (hagree : AgreeUnder elf modbase s.loading.machine.translate) {s₁ : State}
    (hn : n ≤ elf.eShnum) (h₁ : loadSections elf modbase m b n = .ok s₁) :
    Holding elf modbase n s₁ := by
  induction n generalizing s₁ with
  | zero => exact fun i hi => absurd hi (Nat.not_lt_zero i)
  | succ n ih =>
    have hp₁ := loadSections_placing hs hn h₁
    have hfinal := loadSections_placing hs (Nat.le_refl _) hr
    obtain ⟨s₁', h₁', hlater⟩ := loadSections_prefix hs (Nat.le_refl _) hr hn
    obtain rfl := Except.ok.inj (h₁.symm.trans h₁')
    rw [loadSections_succ] at h₁
    obtain ⟨s₂, h₂, hstep⟩ := bind_eq_ok.mp h₁
    have hp₂ := loadSections_placing hs (by omega) h₂
    obtain ⟨-, hkeeps, hbytes⟩ := hp₂.step hs hn hstep
    intro i hi hl j hj p hp
    have hpf := hp
    rw [← hp₁.kept hfinal hs hn hlater hi hl hj] at hpf
    -- what the copy of section `n` stores to this frame is the same byte
    have hsrc : (elf.shdrs n).Loads → ∀ j' < (elf.shdrs n).shSize,
        s₁.loading.machine.translate (wadd (elf.addr modbase n) j') = some p →
        (elf.shdrs n).byteAt j' = (elf.shdrs i).byteAt j := by
      intro hln j' hj' hp'
      rw [← hp₁.kept hfinal hs hn hlater (Nat.lt_succ_self n) hln hj'] at hp'
      exact hagree n (by omega) hln i (by omega) hl j' hj' j hj p hp' hpf
    rcases Nat.lt_succ_iff_lt_or_eq.mp hi with hi | rfl
    · have hold : s₂.bytes p = (elf.shdrs i).byteAt j := by
        rw [hp₂.kept hp₁ hs (by omega) hkeeps hi hl hj] at hp
        exact ih (by omega) h₂ i hi hl j hj p hp
      rw [hbytes]
      split
      case isTrue hln => exact put_eq (hsrc hln) (.inl hold)
      case isFalse => exact hold
    · rw [hbytes, if_pos hl]
      exact put_eq (hsrc hl) (.inr ⟨j, hj, hp⟩)

theorem Holding.seen_eq (h : Holding elf modbase n s) (hp : Placing elf modbase m n s) (hi : i < n)
    (hl : (elf.shdrs i).Loads) (hj : j < (elf.shdrs i).shSize) :
    s.seen (wadd (elf.addr modbase i) j) = some ((elf.shdrs i).byteAt j) := by
  obtain ⟨p, hq⟩ := Option.isSome_iff_exists.mp (hp.mapped i hi hl j hj)
  rw [State.seen, see, hq, Option.map_some, h i hi hl j hj p hq]

/-- Inside the window addresses do not wrap. -/
theorem addr_eq_of_fits (hw : IsWindow modbase) (hfits : Fits elf) (hi : i < elf.eShnum)
    (hl : (elf.shdrs i).Loads) : elf.addr modbase i = modbase + offset elf.shdrs i := by
  have hle := hfits i hi hl
  have hpos := Nat.pos_of_ne_zero hl.2
  have := hw.2
  exact wadd_of_lt (by omega)

theorem fits_iff (hs : Site elf modbase m) (h : Placing elf modbase m elf.eShnum s) :
    (∀ i < elf.eShnum, (elf.shdrs i).Loads → modbase ≤ (s.shdrs i).shAddr ∧
      (s.shdrs i).shAddr + (elf.shdrs i).shSize ≤ modbase + windowSize) ↔ Fits elf := by
  constructor
  · intro hwindow i hi hl
    obtain ⟨hlo, hhi⟩ := hwindow i hi hl
    have hext := hs.extent hi hl
    have hbase := hs.window
    rw [h.shAddr hi hl] at hlo hhi
    unfold Elf.addr wadd at hlo hhi
    unfold IsWindow modulesBase windowSize at *
    omega
  · intro hfits i hi hl
    have := hfits i hi hl
    rw [h.shAddr hi hl, addr_eq_of_fits hs.window hfits hi hl]
    omega

/-! ### Frames of one's own -/

/-- The bytes of the sections. -/
def Used (elf : Elf) (modbase a : ℕ) : Prop :=
  ∃ i < elf.eShnum, (elf.shdrs i).Loads ∧ ∃ j < (elf.shdrs i).shSize,
    a = wadd (elf.addr modbase i) j

/-- What is mapped where the sections go has frames of its own, none of them free. So it is in a
window that nobody uses. -/
structure Exclusive (elf : Elf) (modbase : ℕ) (m : Machine) : Prop where
  reach : m.pmm.Mapped
  owned : ∀ a p, Used elf modbase a → m.translate a = some p → p ∉ m.pmm.freeBytes
  separate : Separate m.translate (Used elf modbase)

theorem Used.canonical (hs : Site elf modbase m) {a : ℕ} (ha : Used elf modbase a) :
    Canonical a := by
  obtain ⟨i, hi, hl, j, hj, rfl⟩ := ha
  exact hs.byte_canonical hi hl hj

theorem Exclusive.separate_cells (h : Exclusive elf modbase m) {granted : List (Pmm.Request × ℕ)}
    {p : Pmm} (htake : takePages (newPages elf modbase m n).length m.pmm = .ok (granted, p)) :
    Separate (cell m.translate (newPages elf modbase m n) granted) (Used elf modbase) :=
  cell_separate h.reach htake h.owned h.separate

/-- An address belongs to one section. -/
theorem Site.addr_inj (hs : Site elf modbase m) {i' j' : ℕ} (hi : i < elf.eShnum)
    (hl : (elf.shdrs i).Loads) (hi' : i' < elf.eShnum) (hl' : (elf.shdrs i').Loads)
    (hj : j < (elf.shdrs i).shSize) (hj' : j' < (elf.shdrs i').shSize)
    (h : wadd (elf.addr modbase i) j = wadd (elf.addr modbase i') j') : i = i' ∧ j = j' := by
  have hext := hs.extent hi hl
  have hext' := hs.extent hi' hl'
  rw [Elf.addr, Elf.addr, wadd_assoc, wadd_assoc] at h
  have hsum := wadd_left_cancel (by omega) (by omega) h
  rcases Nat.lt_trichotomy i i' with hlt | rfl | hlt
  · have := offset_add_size_le hlt hl (by omega)
    omega
  · exact ⟨rfl, by omega⟩
  · have := offset_add_size_le hlt hl' (by omega)
    omega

theorem Exclusive.agree (h : Exclusive elf modbase m) (hs : Site elf modbase m)
    (hp : Placing elf modbase m elf.eShnum s) : Agree elf modbase m := by
  intro granted p htake i hi hl i' hi' hl' j hj j' hj' hcell
  obtain ⟨q, hq⟩ := Option.isSome_iff_exists.mp (hp.mapped i hi hl j hj)
  obtain ⟨rfl, -⟩ := Prod.mk.inj (Except.ok.inj (hp.backed.grants.symm.trans htake))
  rw [hp.cell_eq (hs.byte_canonical hi hl hj)] at hq
  have hsame := h.separate_cells htake _ _ q ⟨i, hi, hl, j, hj, rfl⟩
    ⟨i', hi', hl', j', hj', rfl⟩ hq (hcell ▸ hq)
  obtain ⟨rfl, rfl⟩ := hs.addr_inj hi hl hi' hl' hj hj' hsame
  rfl

end Contents

/-- **Placement of a module's sections.** Whatever the page tables and the sizes are, every section
is mapped where it is copied, and the copy returns if and only if none of its pages was read-only
before. When all sections have been copied, they are in the window, apart, in memory and
undisturbed if and only if none of them leaves the window after the rounding, and bytes that share
a frame are equal. -/
theorem sections_placed_iff {elf : Elf} {w w' : Windows} {modbase : ℕ} {m : Machine} {b : Bytes}
    (hw : w.Ready) (htake : w.take = .ok (modbase, w')) (hwf : WellFormed m.tables m.pml4)
    (htotal : total elf.shdrs elf.eShnum < windowSize)
    (hng : ∀ v ∈ visits elf modbase elf.eShnum, NoGiant m.tables.mem m.pml4 v) :
    (∀ i < elf.eShnum, (elf.shdrs i).Loads → ∀ s l, loadSections elf modbase m b i = .ok s →
      mapSection s.sectionbase (elf.shdrs i).shSize s.loading = .ok l →
      (∀ j < (elf.shdrs i).shSize,
        (l.machine.translate (wadd s.sectionbase j)).isSome = true) ∧
      ((∃ y, write s.sectionbase (elf.shdrs i).shSize (elf.shdrs i).byteAt l s.bytes = .ok y) ↔
        elf.Writable modbase m i)) ∧
    ∀ s, loadSections elf modbase m b elf.eShnum = .ok s →
      (WellPlaced elf modbase m b s ↔ Fits elf ∧ Agree elf modbase m) := by
  have hs : Site elf modbase m :=
    ⟨hwf, w.take_window hw htake, htotal.trans (by decide), hng⟩
  constructor
  · intro i hi hl s l hr hmap
    have hp := loadSections_placing hs hi.le hr
    obtain ⟨hbacked, -, hmapped⟩ := hp.mapSection hs hi hl hmap
    rw [hp.base]
    refine ⟨hmapped, ?_⟩
    simp only [hs.write_iff hi hl hbacked hmapped, exists_and_left, exists_eq, and_true]
  · intro s hr
    have hp := loadSections_placing hs (Nat.le_refl _) hr
    rw [← fits_iff hs hp, hp.agree_iff hs]
    constructor
    · intro h
      refine ⟨h.window, fun i hi hl i' hi' hl' j hj j' hj' p hq hq' => ?_⟩
      have hbyte := h.holds i hi hl j hj
      have hbyte' := h.holds i' hi' hl' j' hj'
      rw [hp.shAddr hi hl, State.seen, see, hq] at hbyte
      rw [hp.shAddr hi' hl', State.seen, see, hq'] at hbyte'
      exact Option.some.inj (hbyte.symm.trans hbyte')
    · rintro ⟨hwindow, hagree⟩
      have hfits := (fits_iff hs hp).mp hwindow
      have haddr := fun i hi hl => @addr_eq_of_fits elf modbase i hs.window hfits hi hl
      refine ⟨hwindow, ?_, ?_, ?_⟩
      · intro i hi k hk hl hlk
        left
        rw [hp.shAddr (hk.trans hi) hlk, hp.shAddr hi hl, haddr i hi hl, haddr k (hk.trans hi) hlk]
        have hext := hs.extent (hk.trans hi) hlk
        have := @offset_add_size_le elf.shdrs k i hk hlk (by omega)
        omega
      · intro i hi hl j hj
        rw [hp.shAddr hi hl]
        exact (holding hs hr hagree (Nat.le_refl _) hr).seen_eq hp hi hl hj
      · intro i hi s₁ s₂ h₁ hstep k hk hl j hj
        have hp₁ := loadSections_placing hs hi.le h₁
        obtain ⟨hp₂, hkeeps, -⟩ := hp₁.step hs hi hstep
        have h₂ : loadSections elf modbase m b (i + 1) = .ok s₂ := by
          rw [loadSections_succ, h₁]
          exact hstep
        rw [hp.shAddr (hk.trans hi) hl]
        refine ⟨hp₁.kept hp₂ hs hi.le hkeeps hk hl hj, ?_⟩
        rw [(holding hs hr hagree hi.le h₁).seen_eq hp₁ hk hl hj,
          (holding hs hr hagree hi h₂).seen_eq hp₂ (Nat.lt_succ_of_lt hk) hl hj]

/-! ## Two modules -/

/-- No module has been loaded. -/
def noWindows : Windows := ⟨false, ⟨fun _ => 0, 0⟩⟩

theorem noWindows_ready : noWindows.Ready := fun h => by cases h

theorem noWindows_take : ∃ w, noWindows.take = .ok (modulesBase, w) := by
  have hfst : noWindows.take.map Prod.fst = .ok modulesBase := by decide
  obtain ⟨⟨modbase, w⟩, htake, rfl⟩ := Stepwise.map_eq_ok.mp hfst
  exact ⟨w, htake⟩

/-- A section header without a name. -/
def plainShdr (shType shFlags shSize : ℕ) (content : ℕ → UInt8) : Shdr :=
  ⟨0, shType, shFlags, 0, shSize, 0, content⟩

/-- Five bytes of text, and forty bytes that are zero. -/
def smallElf : Elf where
  eShnum := 3
  eShstrndx := 0
  shdrs i := match i with
    | 1 => plainShdr 1 6 5 fun _ => 0x90
    | 2 => plainShdr shtNobits 3 40 fun _ => 0
    | _ => plainShdr 0 0 0 fun _ => 0
  shnum_lt := by decide

/-- Page tables that map the first two windows to the physical memory from 1 GiB on, in pages of
2 MiB. -/
def wideMem (t i : ℕ) : ℕ :=
  if t = hhdm + 0x1000 then (if i = 511 then 0x2003 else 0)
  else if t = hhdm + 0x2000 then (if i = 448 then 0x3003 else if i = 449 then 0x4003 else 0)
  else if t = hhdm + 0x3000 then (if i < 512 then 0x40000083 + i * 2 ^ 21 else 0)
  else if t = hhdm + 0x4000 then (if i < 512 then 0x80000083 + i * 2 ^ 21 else 0)
  else 0

/-- A machine of 8 MiB, of which the kernel has mapped more. -/
def wideMachine : Machine where
  pmm := (smallMachine evenUsed).pmm
  tables := ⟨wideMem, []⟩
  pml4 := hhdm + 0x1000

theorem wide_leaf (n i : ℕ) : present (n * 2 ^ 30 + 0x83 + i * 2 ^ 21) = true ∧
    huge (n * 2 ^ 30 + 0x83 + i * 2 ^ 21) = true := by
  unfold present huge
  rw [Nat.testBit_eq_decide_div_mod_eq, Nat.testBit_eq_decide_div_mod_eq, decide_eq_true_eq,
    decide_eq_true_eq]
  omega

/-- The paths of the four tables. -/
def widePath (t : ℕ) : List ℕ :=
  if t = hhdm + 0x2000 then [511] else if t = hhdm + 0x3000 then [448, 511]
  else if t = hhdm + 0x4000 then [449, 511] else []

theorem wide_child (t i u : ℕ) (h : child (wideMem t i) = some u) :
    widePath u = i :: widePath t := by
  unfold wideMem at h
  split_ifs at h with ht hi ht hi hi ht hi ht hi
  · subst ht hi
    obtain rfl := Option.some.inj h
    decide
  · cases h
  · subst ht hi
    obtain rfl := Option.some.inj h
    decide
  · subst ht hi
    obtain rfl := Option.some.inj h
    decide
  · cases h
  · exact absurd ((child_of_huge (wide_leaf 1 i).2).symm.trans h) nofun
  · cases h
  · exact absurd ((child_of_huge (wide_leaf 2 i).2).symm.trans h) nofun
  · cases h
  · cases h

theorem wide_table {π : List ℕ} {t : ℕ} (h : Radix.table child wideMem (hhdm + 0x1000) π = some t) :
    π = widePath t :=
  Radix.path_unique (by decide) wide_child h

theorem wide_wellFormed : WellFormed wideMachine.tables wideMachine.pml4 where
  tree π π' t _ _ h h' := (wide_table h).trans (wide_table h').symm
  typed t i := by
    show wideMem t i < 2 ^ 64
    unfold wideMem
    split_ifs <;> omega
  fresh _ _ _ _ h := by cases h
  nodup := List.nodup_nil
  frames _ h := by cases h

theorem wide_noGiant (v : ℕ) : NoGiant wideMachine.tables.mem wideMachine.pml4 v := by
  intro σ hσ hlen _ _
  obtain ⟨i, π, rfl⟩ := List.exists_cons_of_ne_nil hσ
  show huge (((Radix.table child wideMem (hhdm + 0x1000) π).map (wideMem · i)).getD 0) = false
  cases ht : Radix.table child wideMem (hhdm + 0x1000) π with
  | none => exact (by decide : huge 0 = false)
  | some t =>
    -- the tables of the lowest level have longer paths
    have hshort : (widePath t).length ≤ 1 := by
      rw [← wide_table ht]
      exact Nat.le_of_succ_le_succ hlen
    show huge (wideMem t i) = false
    unfold wideMem
    split_ifs with ht hi ht hi hi ht hi ht hi
    any_goals decide
    all_goals
      rw [ht] at hshort
      exact absurd hshort (by decide)

theorem wide_writable (v : ℕ) : Loader.Writable wideMachine.tables.mem wideMachine.pml4 v := by
  have hrw : ∀ t i, present (wideMem t i) = true → Paging.rw (wideMem t i) = true := by
    intro t i hp
    unfold wideMem at hp ⊢
    split_ifs at hp ⊢
    any_goals first | rfl | cases hp
    all_goals
      unfold Paging.rw
      rw [Nat.testBit_eq_decide_div_mod_eq, decide_eq_true_eq]
      omega
  rintro σ hσ - ⟨hp, hro⟩
  obtain ⟨i, π, rfl⟩ := List.exists_cons_of_ne_nil hσ
  change present (((Radix.table child wideMem (hhdm + 0x1000) π).map (wideMem · i)).getD 0) = true
    at hp
  change Paging.rw
    (((Radix.table child wideMem (hhdm + 0x1000) π).map (wideMem · i)).getD 0) = false at hro
  cases ht : Radix.table child wideMem (hhdm + 0x1000) π with
  | none =>
    rw [ht] at hp
    exact absurd (show present 0 = true from hp) (by decide)
  | some t =>
    rw [ht] at hp hro
    exact Bool.noConfusion ((hrw t i hp).symm.trans hro)

theorem wide_walk {n i k : ℕ} (hn : n = 0 ∨ n = 1) (hi : i < 512) :
    ∃ e, walkFrom wideMem (hhdm + 0x1000) [511, 448 + n, i, k] =
      some [0x2003, e, (1 + n) * 2 ^ 30 + 0x83 + i * 2 ^ 21] := by
  have hroot : wideMem (hhdm + 0x1000) 511 = 0x2003 := by decide
  have hp2 : present 0x2003 = true ∧ huge 0x2003 = false ∧ tableOf 0x2003 = hhdm + 0x2000 := by
    decide
  have hmid : wideMem (hhdm + 0x2000) (448 + n) = 0x3003 + n * 0x1000 ∧
      present (0x3003 + n * 0x1000) = true ∧ huge (0x3003 + n * 0x1000) = false ∧
      tableOf (0x3003 + n * 0x1000) = hhdm + 0x3000 + n * 0x1000 := by
    rcases hn with rfl | rfl <;> decide
  have hpd : wideMem (hhdm + 0x3000 + n * 0x1000) i = (1 + n) * 2 ^ 30 + 0x83 + i * 2 ^ 21 := by
    rcases hn with rfl | rfl <;> exact if_pos hi
  obtain ⟨hp, hh⟩ := wide_leaf (1 + n) i
  generalize (1 + n) * 2 ^ 30 + 0x83 + i * 2 ^ 21 = e at *
  exact ⟨0x3003 + n * 0x1000, by simp [walkFrom, hroot, hp2, hmid, hpd, hp, hh]⟩

theorem wide_translate {x : ℕ} (hx : x < 2 ^ 31) :
    wideMachine.translate (modulesBase + x) = some (2 ^ 30 + x) := by
  have h4 : addrPml4i (modulesBase + x) = 511 := by
    rw [addrPml4i, addr_index]
    unfold modulesBase
    omega
  have h3 : addrPdpi (modulesBase + x) = 448 + x / 2 ^ 30 := by
    rw [addrPdpi, addr_index]
    unfold modulesBase
    omega
  have h2 : addrPdi (modulesBase + x) = x / 2 ^ 21 % 512 := by
    rw [addrPdi, addr_index]
    unfold modulesBase
    omega
  obtain ⟨e, hwalk⟩ := @wide_walk (x / 2 ^ 30) (x / 2 ^ 21 % 512) (addrPti (modulesBase + x))
    (by omega) (Nat.mod_lt _ (by decide))
  rw [← h2, ← h3, ← h4] at hwalk
  rw [Machine.translate, Paging.translate,
    show walk wideMachine.tables.mem wideMachine.pml4 (modulesBase + x) = _ from hwalk, h2]
  show some (((1 + x / 2 ^ 30) * 2 ^ 30 + 0x83 + x / 2 ^ 21 % 512 * 2 ^ 21) % 2 ^ 52 / 2 ^ 21 *
    2 ^ 21 + (modulesBase + x) % 2 ^ 21) = some (2 ^ 30 + x)
  unfold modulesBase
  congr 1
  omega

section Wide

variable {elf : Elf}

section

variable (htotal : total elf.shdrs elf.eShnum < windowSize)

include htotal

theorem wide_site : Site elf modulesBase wideMachine where
  wf := wide_wellFormed
  window := by unfold IsWindow; decide
  total := htotal.trans (by decide)
  noGiant v _ := wide_noGiant v

/-- This machine loads every module of less than 1 GiB. -/
theorem wide_loads (b : Bytes) :
    ∃ s, loadSections elf modulesBase wideMachine b elf.eShnum = .ok s := by
  have hn := elf.shnum_lt
  unfold windowSize at htotal
  have hext := fun i hi hl => @extent_le elf.shdrs i elf.eShnum hi hl
  refine loadSections_of_mapped (wide_site htotal) (Nat.le_refl _) (fun i hi hl => ?_) ?_
    fun i _ j _ => wide_writable _
  · have := hext i hi hl
    have := align_le (elf.shdrs i).shSize 4096
    omega
  · intro v hv
    obtain ⟨i, hi, hv⟩ := List.mem_flatMap.mp hv
    split at hv
    case isFalse => cases hv
    case isTrue hl =>
      obtain ⟨k, hk, rfl⟩ := mem_sectionPages.mp hv
      have := hext i (List.mem_range.mp hi) hl
      have := align_le (elf.shdrs i).shSize 4096
      have hsum : modulesBase + (offset elf.shdrs i + 4096 * k) < 2 ^ 64 := by
        unfold modulesBase
        omega
      rw [Elf.addr, wadd_assoc, wadd_of_lt hsum, wide_translate (by omega)]
      rfl

theorem wide_exclusive : Exclusive elf modulesBase wideMachine := by
  have hused : ∀ a, Used elf modulesBase a → ∃ x < 2 ^ 31, a = modulesBase + x := by
    rintro a ⟨i, hi, hl, j, hj, rfl⟩
    have := extent_le hi hl
    have := elf.shnum_lt
    unfold windowSize at htotal
    refine ⟨offset elf.shdrs i + j, by omega, ?_⟩
    rw [Elf.addr, wadd_assoc]
    exact wadd_of_lt (by unfold modulesBase; omega)
  refine ⟨smallMachine_mapped evenUsed, fun a p ha hp hfree => ?_, fun a a' p ha ha' hp hp' => ?_⟩
  · obtain ⟨x, hx, rfl⟩ := hused a ha
    rw [wide_translate hx] at hp
    obtain rfl := Option.some.inj hp
    have hlt : (2 ^ 30 + x) / 4096 < 2048 := hfree.1
    omega
  · obtain ⟨x, hx, rfl⟩ := hused a ha
    obtain ⟨x', hx', rfl⟩ := hused a' ha'
    rw [wide_translate hx] at hp
    rw [wide_translate hx'] at hp'
    have := Option.some.inj (hp.trans hp'.symm)
    omega

end

end Wide

theorem sections_placed_small :
    ∃ s, loadSections smallElf modulesBase wideMachine (fun _ => 1) 3 = .ok s ∧
      WellPlaced smallElf modulesBase wideMachine (fun _ => 1) s := by
  have htotal : total smallElf.shdrs smallElf.eShnum < windowSize := by decide
  have hfits : Fits smallElf := by unfold Fits; decide
  have hsite := wide_site htotal
  obtain ⟨w, htake⟩ := noWindows_take
  obtain ⟨s, hr⟩ := wide_loads htotal fun _ => 1
  have hagree := (wide_exclusive htotal).agree hsite
    (loadSections_placing hsite (Nat.le_refl _) hr)
  exact ⟨s, hr, ((sections_placed_iff noWindows_ready htake wide_wellFormed htotal
    hsite.noGiant).2 s hr).mpr ⟨hfits, hagree⟩⟩

/-- Sections of `2^30 - 40`, 1 and 1 bytes. Rounded up, the first two fill the window. -/
def wideElf : Elf where
  eShnum := 4
  eShstrndx := 0
  shdrs i := match i with
    | 1 => plainShdr shtNobits 3 (2 ^ 30 - 40) fun _ => 0
    | 2 => plainShdr shtNobits 3 1 fun _ => 0
    | 3 => plainShdr shtNobits 3 1 fun _ => 0
    | _ => plainShdr 0 0 0 fun _ => 0
  shnum_lt := by decide

/-- The last one is behind the window. -/
theorem section_behind_window :
    ∃ w s, noWindows.take = .ok (modulesBase, w) ∧
      total wideElf.shdrs wideElf.eShnum < windowSize ∧
      loadSections wideElf modulesBase wideMachine (fun _ => 0) wideElf.eShnum = .ok s ∧
      (s.shdrs 3).shAddr = modulesBase + windowSize ∧
      ¬ WellPlaced wideElf modulesBase wideMachine (fun _ => 0) s := by
  have htotal : total wideElf.shdrs wideElf.eShnum < windowSize := by decide
  have hl : (wideElf.shdrs 3).Loads := by decide
  obtain ⟨w, htake⟩ := noWindows_take
  obtain ⟨s, hr⟩ := wide_loads htotal fun _ => 0
  have hp := loadSections_placing (wide_site htotal) (Nat.le_refl _) hr
  have haddr : (s.shdrs 3).shAddr = modulesBase + windowSize := by
    rw [hp.shAddr (by decide) hl]
    decide
  refine ⟨w, s, htake, htotal, hr, haddr, fun h => ?_⟩
  have hlast := (h.window 3 (by decide) hl).2
  have hone : (wideElf.shdrs 3).shSize = 1 := rfl
  omega

end NeptunOS.Modules
