import Mathlib.Order.Interval.Finset.Nat
import NeptunOS.Mm.Boot

/-!
# `pmm_freemem` and `pmm_usedmem`

The two counters against the bitmap. An allocation changes both as it should
(`Counted.step`), so a difference made by `pmm_init` stays: it adds the length of every
usable entry to `pmm_freemem` and then takes page 0 and the pages of the areas without
subtracting them. `accounting_iff`: the counters are right, at the end of any sequence of
allocations, exactly when the boot takes no usable page.
-/

namespace NeptunOS.Pmm

open Stepwise

/-- The clear bits of the bitmap. -/
def clearBits (p : Pmm) : Finset ℕ := {k ∈ Finset.range p.bm.sz | p.bm.bit k = false}

/-- The bits set since `p₀`. -/
def newBits (p₀ p : Pmm) : Finset ℕ :=
  {k ∈ Finset.range p.bm.sz | p₀.bm.bit k = false ∧ p.bm.bit k = true}

/-- The counters say what the bitmap says. -/
def Accounted (p₀ p : Pmm) : Prop :=
  p.freemem = 4096 * p.clearBits.card ∧ p.usedmem = 4096 * (newBits p₀ p).card

/-- No usable page is taken by the boot: page 0 is not usable, and no usable entry is
taken for the one with the areas. -/
def Untouched (es : List MmapEntry) (cand : MmapEntry) : Prop :=
  ∀ e ∈ es, e.type = .usable → e.length ≠ 0 → e.base ≠ 0 ∧ ¬ Recognised cand e

theorem mem_clearBits {p : Pmm} {k : ℕ} : k ∈ p.clearBits ↔ k ∈ p.free := by
  rw [clearBits, Finset.mem_filter, Finset.mem_range]
  rfl

/-! ## Allocations -/

/-- Both counters move by the bytes of the pages handed out. -/
theorem step_counters {p p' : Pmm} {r : Request} {ptr : ℕ} (h : step p r = .ok (ptr, p')) :
    p'.usedmem = wadd p.usedmem (4096 * pages r.size) ∧
      p'.freemem = wsub p.freemem (4096 * pages r.size) := by
  have hfrom : ∃ startAt, allocFrom startAt p r.size = .ok (ptr, p') := by
    cases r with
    | alloc size => exact ⟨_, h⟩
    | alloc4g size => exact ⟨_, h⟩
  obtain ⟨startAt, h⟩ := hfrom
  unfold allocFrom at h
  split at h
  case isTrue => cases h
  case isFalse =>
    obtain ⟨⟨bit, bm⟩, -, h⟩ := bind_eq_ok.mp h
    cases bit with
    | none => cases h
    | some c =>
      cases h
      rw [Nat.mul_comm, pages_mul]
      exact ⟨rfl, rfl⟩

theorem Grant.clearBits_eq {p p' : Pmm} {n c : ℕ} (h : Grant p n c p') :
    p'.clearBits = p.clearBits \ Finset.Ico c (c + n) := by
  ext k
  rw [mem_clearBits, h.rest, Finset.mem_sdiff, mem_clearBits, Finset.mem_Ico]
  rfl

theorem Grant.card_clearBits {p p' : Pmm} {n c : ℕ} (h : Grant p n c p') :
    p'.clearBits.card + n = p.clearBits.card := by
  have hsub : Finset.Ico c (c + n) ⊆ p.clearBits := fun k hk =>
    mem_clearBits.mpr (h.avail (Finset.mem_Ico.mp hk))
  have hcard := Finset.card_sdiff_add_card_eq_card hsub
  rwa [← h.clearBits_eq, Nat.card_Ico, Nat.add_sub_cancel_left] at hcard

/-- What holds of the counters in all that follows the state `p₀`. -/
structure Counted (p₀ p : Pmm) : Prop where
  sz : p.bm.sz = p₀.bm.sz
  sub : p.clearBits ⊆ p₀.clearBits
  used : p.usedmem + 4096 * p.clearBits.card = 4096 * p₀.clearBits.card
  free : p.freemem + p.usedmem = p₀.freemem

section

variable {p₀ p p' : Pmm}

theorem Counted.step {r : Request} {ptr : ℕ} (h : Counted p₀ p)
    (hle : 4096 * p₀.clearBits.card ≤ p₀.freemem) (hlt : p₀.freemem < 2 ^ 64)
    (hs : step p r = .ok (ptr, p')) : Counted p₀ p' := by
  obtain ⟨c, -, hg⟩ := step_grant hs
  obtain ⟨hused', hfree'⟩ := step_counters hs
  have hcard := hg.card_clearBits
  have hused := h.used
  have hfree := h.free
  rw [wadd_of_lt (by omega)] at hused'
  rw [wsub_of_le (by omega) (by omega)] at hfree'
  refine ⟨hg.areas.sz.trans h.sz, ?_, by omega, by omega⟩
  rw [hg.clearBits_eq]
  exact Finset.sdiff_subset.trans h.sub

theorem Counted.card_newBits (h : Counted p₀ p) :
    (newBits p₀ p).card + p.clearBits.card = p₀.clearBits.card := by
  have hset : newBits p₀ p = p₀.clearBits \ p.clearBits := by
    ext k
    rw [newBits, clearBits, clearBits, h.sz]
    simp only [Finset.mem_filter, Finset.mem_sdiff, Finset.mem_range, not_and, Bool.not_eq_false]
    tauto
  rw [hset, Finset.card_sdiff_add_card_eq_card h.sub]

/-- An error in `pmm_freemem` stays as it is. -/
theorem Counted.accounted_iff (h : Counted p₀ p) :
    Accounted p₀ p ↔ p₀.freemem = 4096 * p₀.clearBits.card := by
  have hnew := h.card_newBits
  have hused := h.used
  have hfree := h.free
  unfold Accounted
  omega

end

/-! ## The boot -/

/-- The pages of the usable entries. -/
def usablePages : List MmapEntry → Finset ℕ
  | [] => ∅
  | e :: es =>
    (if e.type = .usable then Finset.Ico (e.base / 4096) (e.base / 4096 + e.length / 4096)
      else ∅) ∪ usablePages es

theorem mem_usablePages {k : ℕ} : ∀ {es : List MmapEntry},
    k ∈ usablePages es ↔ ∃ e ∈ es, e.type = .usable ∧ k ∈ entryPages e
  | [] => by simp [usablePages]
  | e :: es => by
    rw [usablePages, Finset.mem_union, mem_usablePages, List.exists_mem_cons_iff]
    refine or_congr ?_ Iff.rfl
    by_cases hu : e.type = .usable
    · simp [hu, entryPages]
    · simp [hu]

/-- Entries do not overlap, so the bytes are those of the pages. -/
theorem card_usablePages : ∀ {es : List MmapEntry},
    (es.Pairwise fun e e' => e.base + e.length ≤ e'.base) →
    (∀ e ∈ es, e.type = .usable → Whole e) →
    4096 * (usablePages es).card = usableBytes es
  | [], _, _ => rfl
  | e :: es, hsorted, hwhole => by
    obtain ⟨hlater, hsorted⟩ := List.pairwise_cons.mp hsorted
    have ih := card_usablePages hsorted fun e' he' => hwhole e' (List.mem_cons_of_mem _ he')
    rw [usablePages, usableBytes]
    by_cases hu : e.type = .usable
    · obtain ⟨hbase, hlen, -, -⟩ := hwhole e List.mem_cons_self hu
      have hdisj : Disjoint (Finset.Ico (e.base / 4096) (e.base / 4096 + e.length / 4096))
          (usablePages es) := by
        rw [Finset.disjoint_left]
        intro k hk hk'
        obtain ⟨e', he', -, hin⟩ := mem_usablePages.mp hk'
        have hhi := (Finset.mem_Ico.mp hk).2
        have hlo := hin.1
        have := hlater e' he'
        omega
      rw [if_pos hu, if_pos hu, Finset.card_union_of_disjoint hdisj, Nat.card_Ico,
        Nat.add_sub_cancel_left]
      omega
    · rw [if_neg hu, if_neg hu, Finset.empty_union, ih, Nat.zero_add]

section Boot

variable {garbage : ℕ → BitVec 64} {mm : MemoryMap} {size : ℕ} {cand : MmapEntry} {p : Pmm}

section

variable (h : Marked garbage mm.entries size cand p)

include h

theorem Marked.clearBits_subset : p.clearBits ⊆ usablePages mm.entries := by
  intro k hk
  obtain ⟨hlt, hbit⟩ := mem_clearBits.mp hk
  rw [h.areas.sz] at hlt
  rw [h.bits k hlt] at hbit
  split at hbit
  · cases hbit
  · rcases fold_false hbit with hfalse | hused
    · cases hfalse
    · exact mem_usablePages.mpr hused

theorem Marked.freemem_eq
    (hwhole : ∀ e ∈ mm.entries, e.type = .usable → Whole e) (hsize : size < 2 ^ 52) :
    p.freemem = 4096 * (usablePages mm.entries).card := by
  have hsz : alignDown size 64 ≤ size := Nat.div_mul_le_self _ _
  have hsub : usablePages mm.entries ⊆ Finset.range (alignDown size 64) := by
    intro k hk
    obtain ⟨e, he, hu, hin⟩ := mem_usablePages.mp hk
    have hlo := hin.1
    have hhi := hin.2
    have hne : e.length ≠ 0 := by
      rintro hz
      omega
    exact Finset.mem_range.mpr (hhi.trans_le ((h.inside e he hu).entry hne))
  have hcard := Finset.card_le_card hsub
  rw [Finset.card_range] at hcard
  rw [h.freemem, ← card_usablePages mm.sorted hwhole, Nat.mod_eq_of_lt (by omega)]

/-- The counter is right after the boot when no usable page was taken. -/
theorem Marked.freemem_iff
    (hwhole : ∀ e ∈ mm.entries, e.type = .usable → Whole e) (hsize : size < 2 ^ 52) :
    p.freemem = 4096 * p.clearBits.card ↔ Untouched mm.entries cand := by
  have hsub := h.clearBits_subset
  have hall : p.freemem = 4096 * p.clearBits.card ↔ usablePages mm.entries ⊆ p.clearBits := by
    rw [h.freemem_eq hwhole hsize]
    constructor
    · intro heq
      exact (Finset.eq_of_subset_of_card_le hsub (by omega)).ge
    · intro hsup
      rw [Finset.Subset.antisymm hsub hsup]
  rw [hall]
  constructor
  · intro hsup e he hu hne
    obtain ⟨hbase, hlen, -, -⟩ := hwhole e he hu
    -- the first page of the entry
    have hfirst : e.base / 4096 ∈ entryPages e := ⟨Nat.le_refl _, by omega⟩
    have hfree := mem_clearBits.mp (hsup (mem_usablePages.mpr ⟨e, he, hu, hfirst⟩))
    obtain ⟨hpos, hheld⟩ := (h.mem_free_iff hwhole he hu hfirst).mp hfree
    have hwm := wmSize_eq
    refine ⟨by omega, fun hrec => hheld ⟨hrec, Nat.le_refl _, by omega⟩⟩
  · intro huntouched k hk
    obtain ⟨e, he, hu, hin⟩ := mem_usablePages.mp hk
    have hlo := hin.1
    have hhi := hin.2
    obtain ⟨hbase, -, -, -⟩ := hwhole e he hu
    obtain ⟨hne, hrec⟩ := huntouched e he hu (by rintro hz; rw [hz] at hhi; omega)
    exact mem_clearBits.mpr ((h.mem_free_iff hwhole he hu hin).mpr
      ⟨by omega, fun hheld => hrec hheld.1⟩)

end

end Boot

/-- **Accounting.** After a boot and any sequence of allocations that return,
`pmm_freemem` is the number of bytes of the clear bits and `pmm_usedmem` that of the bits
set since the boot exactly when the boot took no usable page. -/
theorem accounting_iff (garbage : ℕ → BitVec 64) (mm : MemoryMap)
    (hu64 : ∀ e ∈ mm.entries, e.base < 2 ^ 64) {p₀ p : Pmm} {hist : List (Request × ℕ)}
    (hinit : pmmInit garbage mm.entries = .ok p₀)
    (hrun : Runs step (fun _ _ => True) p₀ hist p) :
    ∃ last cand, lastEntry mm.entries = .ok last ∧
      candidate (bmSize last) mm.entries = some cand ∧
      (Accounted p₀ p ↔ Untouched mm.entries cand) := by
  have hwhole : ∀ e ∈ mm.entries, e.type = .usable → Whole e := fun e he hu =>
    ⟨(mm.aligned e he hu).1, (mm.aligned e he hu).2, hu64 e he, mm.bounded e he⟩
  obtain ⟨last, cand, hlast, hcand, hm⟩ := pmmInit_marked hwhole hinit
  have hsize := bmSize_lt last
  have hle : 4096 * p₀.clearBits.card ≤ p₀.freemem := by
    rw [hm.freemem_eq hwhole hsize]
    exact Nat.mul_le_mul_left _ (Finset.card_le_card hm.clearBits_subset)
  have hlt : p₀.freemem < 2 ^ 64 := hm.freemem ▸ Nat.mod_lt _ (by decide)
  have hcounted : Counted p₀ p := by
    apply hrun.invariant (P := fun _ p => Counted p₀ p)
    · refine ⟨rfl, Finset.Subset.refl _, ?_, ?_⟩
      · rw [hm.usedmem, Nat.zero_add]
      · rw [hm.usedmem, Nat.add_zero]
    · exact fun _ _ _ _ _ h _ hs => h.step hle hlt hs
  exact ⟨last, cand, hlast, hcand, hcounted.accounted_iff.trans (hm.freemem_iff hwhole hsize)⟩

/-- Where the areas are not recognised, the counters are right. -/
theorem accounting_far_map : ∃ p₀ p hist, pmmInit (fun _ => 0) farMap.entries = .ok p₀ ∧
    Runs step (fun _ _ => True) p₀ hist p ∧ hist ≠ [] ∧ Accounted p₀ p := by
  obtain ⟨p₀, hinit, hlock, -, -, hfirst, -⟩ := farMap_boots fun _ => 0
  have hpages : pages 4096 = 1 := by decide
  obtain ⟨ptr, p, halloc⟩ : ∃ ptr p, allocFrom 0 p₀ 4096 = .ok (ptr, p) := by
    apply allocFrom_ok (c := 2 ^ 35) hlock (by decide)
    rintro k ⟨hlo, hhi⟩
    exact (show k = 2 ^ 35 by omega) ▸ hfirst
  have hrun : Runs step (fun _ _ => True) p₀ [(.alloc 4096, ptr)] p :=
    (Runs.nil p₀).snoc trivial halloc
  obtain ⟨last, cand, hlast, hcand, hiff⟩ :=
    accounting_iff (fun _ => 0) farMap (by decide) hinit hrun
  refine ⟨p₀, p, _, hinit, hrun, List.cons_ne_nil _ _, hiff.mpr ?_⟩
  obtain rfl := Except.ok.inj hlast
  rw [show bmSize ⟨0x800000000000, 0x200000000, .usable⟩ = 34361835520 by decide] at hcand
  obtain rfl : (⟨0x800000000000, 0x200000000, .usable⟩ : MmapEntry) = cand :=
    Option.some.inj ((show candidate 34361835520 farMap.entries = _ by decide).symm.trans hcand)
  unfold Untouched
  decide

/-- On a machine with 256 MiB, `pmm_freemem` counts the areas as free memory. -/
theorem areas_counted_free : ∃ p, pmmInit (fun _ => 0) smallMap.entries = .ok p ∧
    p.freemem = 0xff00000 ∧ 4096 * p.clearBits.card < p.freemem ∧ ¬ Accounted p p := by
  obtain ⟨p, hp, -⟩ := smallMap_boots fun _ => 0
  have hwhole := whole_of_low (show smallMap.Low by decide)
  have hm := smallMap_marked hp
  have hne : p.freemem ≠ 4096 * p.clearBits.card := fun heq =>
    absurd ((hm.freemem_iff hwhole (by decide)).mp heq) (by unfold Untouched; decide)
  have hle : 4096 * p.clearBits.card ≤ p.freemem := by
    rw [hm.freemem_eq hwhole (by decide)]
    exact Nat.mul_le_mul_left _ (Finset.card_le_card hm.clearBits_subset)
  exact ⟨p, hp, hm.freemem, Nat.lt_of_le_of_ne hle hne.symm, fun h => hne h.1⟩

end NeptunOS.Pmm
