import NeptunOS.Mm.Ownership

/-!
# What `pmm_init` marks

`pmm_init` sizes the bitmap by the end of memory, but `init` rounds the size down to
whole words, and the loop that takes the pages of the areas uses the number of bits of
the bitmap as its number of bytes. `boots_iff`: it returns, with every usable page outside
the areas free, exactly when the bitmap still covers all that is marked and the pages
taken by mistake are not usable.
-/

namespace NeptunOS.Pmm

open Stepwise

/-- The pages of the watermark area and of a bitmap of `size` bits. -/
def reservedPages (size : ℕ) (cand : MmapEntry) : Set ℕ :=
  Set.Ico (cand.base / 4096) (cand.base / 4096 + (size / 8 + wmSize + 4095) / 4096)

/-- `pmm_init` takes `e` for the entry with the areas. -/
def Recognised (cand e : MmapEntry) : Prop :=
  wadd e.base wmSize = phys (virt (wadd cand.base wmSize))

instance (size : ℕ) (cand : MmapEntry) : DecidablePred (· ∈ reservedPages size cand) := fun k =>
  inferInstanceAs (Decidable (cand.base / 4096 ≤ k ∧ k < _))

instance (cand e : MmapEntry) : Decidable (Recognised cand e) :=
  inferInstanceAs (Decidable (_ = _))

/-- The boot returns, and every usable page outside the areas is free, page 0 apart. -/
def Boots (garbage : ℕ → BitVec 64) (es : List MmapEntry) (size : ℕ) (cand : MmapEntry) :
    Prop :=
  ∃ p, pmmInit garbage es = .ok p ∧ ∀ e ∈ es, e.type = .usable →
    ∀ k ∈ entryPages e, k ≠ 0 → k ∉ reservedPages size cand → k ∈ p.free

/-- The whole words of the bitmap cover every usable page and every page taken for the
areas, and the usable pages taken for the areas are in the areas. -/
structure Covers (es : List MmapEntry) (size : ℕ) (cand : MmapEntry) : Prop where
  entries : ∀ e ∈ es, e.type = .usable → e.length ≠ 0 →
    e.base / 4096 + e.length / 4096 ≤ alignDown size 64
  areas : ∀ e ∈ es, e.type = .usable → Recognised cand e →
    e.base / 4096 + (size + wmSize + 4095) / 4096 ≤ alignDown size 64
  spared : ∀ e ∈ es, e.type = .usable → Recognised cand e →
    ∀ k ∈ entryPages e, k ∈ heldPages size e → k = 0 ∨ k ∈ reservedPages size cand

section

variable {garbage : ℕ → BitVec 64} {es : List MmapEntry} {last cand : MmapEntry}
variable {mm : MemoryMap} {size : ℕ}

/-- What follows the entry that ends the memory is reserved. -/
theorem lastEntry_eq_ok (h : lastEntry es = .ok last) :
    ∃ pre post, es = pre ++ last :: post ∧ ∀ e ∈ post, e.type = .reserved := by
  unfold lastEntry at h
  split at h
  case h_1 => cases h
  case h_2 e rest hrev =>
    have hes : es = rest.reverse ++ [e] := by
      rw [← List.reverse_reverse es, hrev, List.reverse_cons]
    split at h
    case isTrue hres =>
      split at h
      case h_1 => cases h
      case h_2 e' rest' =>
        obtain rfl := Except.ok.inj h
        refine ⟨rest'.reverse, [e], ?_, fun x hx => List.mem_singleton.mp hx ▸ hres⟩
        rw [hes, List.reverse_cons, List.append_assoc]
        rfl
    case isFalse =>
      obtain rfl := Except.ok.inj h
      exact ⟨rest.reverse, [], hes, fun x hx => absurd hx List.not_mem_nil⟩

/-- No usable memory is above the end that `pmm_init` assumes. -/
theorem usable_le_total (hlast : lastEntry mm.entries = .ok last) :
    ∀ e ∈ mm.entries, e.type = .usable → e.base + e.length ≤ last.base + last.length := by
  obtain ⟨pre, post, hes, hpost⟩ := lastEntry_eq_ok hlast
  have hsorted := mm.sorted
  rw [hes] at hsorted ⊢
  intro e he hu
  rcases List.mem_append.mp he with he | he
  · have := (List.pairwise_append.mp hsorted).2.2 e he last List.mem_cons_self
    omega
  · rcases List.mem_cons.mp he with rfl | he
    · exact Nat.le_refl _
    · rw [hpost e he] at hu
      cases hu

theorem exists_candidate (h : ∃ e ∈ es, e.type = .usable ∧ size / 8 + wmSize ≤ e.length) :
    ∃ cand, candidate size es = some cand := by
  obtain ⟨e, he, hu, hlen⟩ := h
  rw [← Option.isSome_iff_exists, candidate, List.find?_isSome]
  exact ⟨e, he, decide_eq_true ⟨hu, hlen⟩⟩

/-- The bitmap has a word, since the areas themselves need pages. -/
theorem Covers.pos (h : Covers es size cand) (hcand : candidate size es = some cand) :
    0 < alignDown size 64 := by
  obtain ⟨hmem, hu, hroom⟩ := candidate_some hcand
  have hwm := wmSize_eq
  have := h.entries cand hmem hu (by omega)
  omega

/-- The free pages of a boot, entry by entry. -/
theorem Marked.mem_free_iff {p : Pmm} (hm : Marked garbage mm.entries size cand p)
    (hwhole : ∀ e ∈ mm.entries, e.type = .usable → Whole e) {e : MmapEntry} (he : e ∈ mm.entries)
    (hu : e.type = .usable) {k : ℕ} (hk : k ∈ entryPages e) :
    k ∈ p.free ↔ k ≠ 0 ∧ ¬ (Recognised cand e ∧ k ∈ heldPages size e) := by
  have hlt : k < alignDown size 64 := by
    have hhi := hk.2
    have hlo := hk.1
    refine hhi.trans_le ((hm.inside e he hu).entry fun hz => ?_)
    rw [hz, Nat.zero_div, Nat.add_zero] at hhi
    exact Nat.not_lt.mpr hlo hhi
  show k < p.bm.sz ∧ p.bm.bit k = false ↔ _
  rw [hm.areas.sz, hm.bits k hlt, fold_entry he hu mm.sorted hwhole hk]
  by_cases hk0 : k = 0
  · simp [hk0]
  · rw [if_neg hk0, decide_eq_false_iff_not]
    exact ⟨fun h => ⟨hk0, h.2⟩, fun h => ⟨hlt, h.2⟩⟩

end

/-- **The boot.** On a map that ends below `2^52` and has a usable entry of at least
`bm_bytes` + 64 MiB, `pmm_init` returns and leaves every usable page outside the areas
free exactly when `Covers` holds. -/
theorem boots_iff (garbage : ℕ → BitVec 64) (mm : MemoryMap) {last : MmapEntry}
    (hlast : lastEntry mm.entries = .ok last) (htotal : last.base + last.length < 2 ^ 52)
    (hroom : ∃ e ∈ mm.entries, e.type = .usable ∧ bmSize last / 8 + wmSize ≤ e.length) :
    ∃ cand, candidate (bmSize last) mm.entries = some cand ∧
      (Boots garbage mm.entries (bmSize last) cand ↔
        Covers mm.entries (bmSize last) cand) := by
  obtain ⟨cand, hcand⟩ := exists_candidate hroom
  refine ⟨cand, hcand, ?_⟩
  have hwhole : ∀ e ∈ mm.entries, e.type = .usable → Whole e := by
    intro e he hu
    have := usable_le_total hlast e he hu
    exact ⟨(mm.aligned e he hu).1, (mm.aligned e he hu).2, by omega, by omega⟩
  have hmarked : ∀ p, pmmInit garbage mm.entries = .ok p →
      Marked garbage mm.entries (bmSize last) cand p := by
    intro p hp
    obtain ⟨last', cand', hlast', hcand', hm⟩ := pmmInit_marked hwhole hp
    obtain rfl := Except.ok.inj (hlast.symm.trans hlast')
    obtain rfl := Option.some.inj (hcand.symm.trans hcand')
    exact hm
  constructor
  · rintro ⟨p, hp, hfree⟩
    have hm := hmarked p hp
    refine ⟨fun e he hu => (hm.inside e he hu).entry, fun e he hu => (hm.inside e he hu).held,
      fun e he hu hrec k hk hheld => ?_⟩
    by_contra hout
    rw [not_or] at hout
    have := hfree e he hu k hk hout.1 hout.2
    exact ((hm.mem_free_iff hwhole he hu hk).mp this).2 ⟨hrec, hheld⟩
  · intro hc
    obtain ⟨p, hp⟩ := pmmInit_returns garbage hlast hcand hwhole (hc.pos hcand)
      fun e he hu => ⟨hc.entries e he hu, hc.areas e he hu⟩
    refine ⟨p, hp, fun e he hu k hk hk0 hout => ?_⟩
    refine ((hmarked p hp).mem_free_iff hwhole he hu hk).mpr ⟨hk0, fun ⟨hrec, hheld⟩ => ?_⟩
    rcases hc.spared e he hu hrec k hk hheld with hzero | hin
    · exact hk0 hzero
    · exact hout hin

/-- Memory whose first usable entry has just room for the areas. -/
def snugMap : MemoryMap where
  entries := [⟨0x100000, 0x4002000, .usable⟩, ⟨0x8000000, 0x8000000, .usable⟩]
  bounded := by decide
  sorted := by decide
  aligned := by decide

theorem boots_snug_map :
    Boots (fun _ => 0) snugMap.entries 65536 ⟨0x100000, 0x4002000, .usable⟩ := by
  have hlast : lastEntry snugMap.entries = .ok ⟨0x8000000, 0x8000000, .usable⟩ := rfl
  obtain ⟨cand, hcand, hiff⟩ := boots_iff (fun _ => 0) snugMap hlast (by decide) (by decide)
  have hsize : bmSize ⟨0x8000000, 0x8000000, .usable⟩ = 65536 := by decide
  rw [hsize] at hcand hiff
  obtain rfl : (⟨0x100000, 0x4002000, .usable⟩ : MmapEntry) = cand :=
    Option.some.inj ((show candidate 65536 snugMap.entries = _ by decide).symm.trans hcand)
  refine hiff.mpr ⟨by decide, by decide, fun e he hu hrec k hk _ => Or.inr ?_⟩
  rcases List.mem_cons.mp he with rfl | he
  · exact hk
  · obtain rfl := List.mem_singleton.mp he
    exact absurd hrec (by decide)

/-- One page more than whole words of the bitmap. -/
def oddMap : MemoryMap where
  entries := [⟨0, 0x100000, .reserved⟩, ⟨0x100000, 0xff01000, .usable⟩]
  bounded := by decide
  sorted := by decide
  aligned := by decide

/-- With 65537 pages the boot does not return: the bitmap has 65536 bits. With 65536 it
returns, but page 16650 is taken although the areas end at page 16642. -/
theorem boot_overruns :
    (∃ e ∈ oddMap.entries, e.type = .usable ∧
      bmSize ⟨0x100000, 0xff01000, .usable⟩ / 8 + wmSize ≤ e.length) ∧
    lastEntry oddMap.entries = .ok ⟨0x100000, 0xff01000, .usable⟩ ∧
    (∀ p, pmmInit (fun _ => 0) oddMap.entries ≠ .ok p) ∧
    ∀ p, pmmInit (fun _ => 0) smallMap.entries = .ok p → 16650 ∉ p.free ∧
      16650 ∈ entryPages ⟨0x100000, 0xff00000, .usable⟩ ∧
      16650 ∉ reservedPages 65536 ⟨0x100000, 0xff00000, .usable⟩ := by
  refine ⟨by decide, rfl, fun p hp => ?_, fun p hp => ?_⟩
  · obtain ⟨last, cand, hlast, -, hm⟩ := pmmInit_marked (whole_of_low (by decide)) hp
    obtain rfl := Except.ok.inj hlast
    have hin := (hm.inside ⟨0x100000, 0xff01000, .usable⟩ (by decide) rfl).entry (by decide)
    exact absurd hin (by decide)
  · have hwhole := whole_of_low (show smallMap.Low by decide)
    have hm := smallMap_marked hp
    have hk : 16650 ∈ entryPages ⟨0x100000, 0xff00000, .usable⟩ := by decide
    refine ⟨fun hfree => ?_, hk, by decide⟩
    exact ((hm.mem_free_iff hwhole (by decide) rfl hk).mp hfree).2 ⟨by decide, by decide⟩

end NeptunOS.Pmm
