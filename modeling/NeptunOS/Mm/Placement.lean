import NeptunOS.Mm.Ownership

/-!
# Memory below 4 GiB

`pmm_alloc` is meant to search above 4 GiB first and `pmm_alloc4g` to stay below. But
`gibs2bytes(4)` shifts an `int` and is 0, so both search from page 0 and neither has a
limit: they are the same function. `placement_iff` says when that is enough.
-/

namespace NeptunOS.Pmm

open Stepwise

/-- The first page at or above 4 GiB. -/
def page4g : ℕ := 2 ^ 20

/-- The pages an allocation has taken. -/
def taken (p p' : Pmm) : Set ℕ := p.free \ p'.free

/-- There are `n` free pages in a row from `lo` on and before `hi`. -/
def RunIn (p : Pmm) (n lo hi : ℕ) : Prop :=
  ∃ c, lo ≤ c ∧ c + n ≤ hi ∧ c + n ≤ p.bm.sz ∧ p.bm.Clear c n

/-- The call returned the pages `c .. c + pages size`. -/
def Returned (call : Pmm → ℕ → Except Halt (ℕ × Pmm)) (p : Pmm) (size c : ℕ) : Prop :=
  ∃ ptr p', call p size = .ok (ptr, p') ∧ ptr = virt (c * 4096 % 2 ^ 64) ∧
    taken p p' = Set.Ico c (c + pages size)

/-- What `pmm_alloc4g` returns is below 4 GiB; what `pmm_alloc` returns is not, if there is
a long enough run of free pages up there. -/
def Placed (p : Pmm) (size : ℕ) : Prop :=
  (∀ ptr p', pmmAlloc4g p size = .ok (ptr, p') →
    ∃ c, Returned pmmAlloc4g p size c ∧ c + pages size ≤ page4g) ∧
  (RunIn p ((size + 4095) / 4096) page4g p.bm.sz →
    ∃ c, Returned pmmAlloc p size c ∧ page4g ≤ c)

/-- The shift overflows: the two calls are the same. -/
theorem pmmAlloc_eq_alloc4g : pmmAlloc = pmmAlloc4g := by
  funext p size
  exact pmmAlloc_eq p size

section

variable {p p' : Pmm} {size ptr n c : ℕ}

theorem Grant.taken_eq (h : Grant p n c p') : taken p p' = Set.Ico c (c + n) := by
  rw [taken, h.rest, sdiff_sdiff_right_self]
  exact Set.inter_eq_right.mpr h.avail

/-- There is one lowest run. -/
theorem Grant.unique {c' : ℕ} {p'' : Pmm} (h : Grant p n c p') (h' : Grant p n c' p'') :
    c = c' := by
  rcases Nat.lt_trichotomy c c' with hlt | heq | hlt
  · exact absurd h.avail (h'.least c hlt)
  · exact heq
  · exact absurd h'.avail (h.least c' hlt)

theorem returned_iff : Returned pmmAlloc4g p size c ↔
    ∃ ptr p', pmmAlloc4g p size = .ok (ptr, p') ∧ Grant p (pages size) c p' := by
  constructor
  · rintro ⟨ptr, p', h, -, htaken⟩
    obtain ⟨c', -, hg⟩ := allocFrom_grant h
    have hsame : Set.Ico c (c + pages size) = Set.Ico c' (c' + pages size) :=
      htaken.symm.trans hg.taken_eq
    have hpos := hg.pos
    have hc : c ∈ Set.Ico c' (c' + pages size) := hsame ▸ ⟨Nat.le_refl _, by omega⟩
    have hc' : c' ∈ Set.Ico c (c + pages size) := hsame ▸ ⟨Nat.le_refl _, by omega⟩
    obtain rfl : c = c' := Nat.le_antisymm hc'.1 hc.1
    exact ⟨ptr, p', h, hg⟩
  · rintro ⟨ptr, p', h, hg⟩
    obtain ⟨c', hptr, hg'⟩ := allocFrom_grant h
    obtain rfl := hg.unique hg'
    exact ⟨ptr, p', h, hptr, hg.taken_eq⟩

end

/-- **Placement.** Both promises are kept exactly when there is no long enough run of free
pages above 4 GiB, and one below if `pmm_alloc4g` returns at all. -/
theorem placement_iff (p : Pmm) (size : ℕ) :
    Placed p size ↔ ¬ RunIn p ((size + 4095) / 4096) page4g p.bm.sz ∧
      (p.locked = false → 0 < pages size → RunIn p (pages size) 0 p.bm.sz →
        RunIn p (pages size) 0 page4g) := by
  unfold Placed
  rw [pmmAlloc_eq_alloc4g]
  constructor
  · rintro ⟨hlow, hhigh⟩
    refine ⟨fun hrun => ?_, fun hlock hpos ⟨c, _, _, hend, hclear⟩ => ?_⟩
    · obtain ⟨c, hc, hge⟩ := hhigh hrun
      obtain ⟨ptr, p', h, hg⟩ := returned_iff.mp hc
      obtain ⟨c', hc', hlt⟩ := hlow ptr p' h
      obtain ⟨_, _, -, hg'⟩ := returned_iff.mp hc'
      obtain rfl := hg.unique hg'
      have := hg.pos
      omega
    · obtain ⟨ptr, p', h⟩ := allocFrom_ok hlock hpos ((clear_iff hpos).mpr ⟨hend, hclear⟩)
      obtain ⟨c', hc', hlt⟩ := hlow ptr p' h
      obtain ⟨_, _, -, hg⟩ := returned_iff.mp hc'
      obtain ⟨hend', hclear'⟩ := (clear_iff hpos).mp hg.avail
      exact ⟨c', Nat.zero_le _, hlt, hend', hclear'⟩
  · rintro ⟨hhigh, hlow⟩
    refine ⟨fun ptr p' h => ?_, fun hrun => absurd hrun hhigh⟩
    obtain ⟨c, -, hg⟩ := allocFrom_grant h
    have hlock : p.locked = false := by
      by_contra hlock
      rw [pmmAlloc4g, allocFrom, if_pos (by simpa using hlock)] at h
      cases h
    obtain ⟨hend, hclear⟩ := (clear_iff hg.pos).mp hg.avail
    obtain ⟨c', -, hlt, hend', hclear'⟩ :=
      hlow hlock hg.pos ⟨c, Nat.zero_le _, hend, hend, hclear⟩
    have hle : c ≤ c' := by
      by_contra hgt
      exact hg.least c' (Nat.not_le.mp hgt) ((clear_iff hg.pos).mpr ⟨hend', hclear'⟩)
    exact ⟨c, returned_iff.mpr ⟨ptr, p', h, hg⟩, by omega⟩

/-- 8 GiB of memory; the pages before the bitmap's word `first` are taken. -/
def freeFrom (first : ℕ) : Pmm where
  bm := ⟨fun i => if i < first then BitVec.allOnes 64 else 0, 2 ^ 21⟩
  buffer := hhdm
  freemem := 2 ^ 33
  usedmem := 0
  wmCursor := hhdm
  wmFree := 0
  locked := false

theorem mem_freeFrom {first k : ℕ} : k ∈ (freeFrom first).free ↔ 64 * first ≤ k ∧ k < 2 ^ 21 := by
  have hlt : k % 64 < 64 := Nat.mod_lt _ (by decide)
  show k < 2 ^ 21 ∧ (freeFrom first).bm.bit k = false ↔ _
  have hbit : (freeFrom first).bm.bit k = decide (k / 64 < first) := by
    rw [Bitmap.bit_eq]
    by_cases hk : k / 64 < first
    · rw [decide_eq_true hk]
      simp only [freeFrom, if_pos hk, BitVec.getLsbD_allOnes, decide_eq_true hlt]
    · simp [freeFrom, hk]
  rw [hbit, decide_eq_false_iff_not]
  omega

/-- One page is taken where the free pages start. -/
theorem freeFrom_returned {first : ℕ} (h : 64 * first < 2 ^ 21) :
    Returned pmmAlloc4g (freeFrom first) 4096 (64 * first) := by
  have hpages : pages 4096 = 1 := by decide
  have hrun : Set.Ico (64 * first) (64 * first + pages 4096) ⊆ (freeFrom first).free := by
    rintro k ⟨hlo, hhi⟩
    exact mem_freeFrom.mpr (by omega)
  obtain ⟨ptr, p', halloc⟩ := allocFrom_ok rfl (by decide) hrun
  obtain ⟨c, -, hg⟩ := allocFrom_grant halloc
  have hge := (mem_freeFrom.mp (hg.avail ⟨Nat.le_refl c, by omega⟩)).1
  obtain rfl : c = 64 * first := by
    by_contra hne
    exact hg.least (64 * first) (by omega) hrun
  exact returned_iff.mpr ⟨ptr, p', halloc, hg⟩

/-- With everything free, `pmm_alloc` takes page 0 although there are free pages above
4 GiB; with nothing free below, `pmm_alloc4g` returns the page at 4 GiB. -/
theorem low_memory_misplaced :
    (Returned pmmAlloc (freeFrom 0) 4096 0 ∧ page4g ∈ (freeFrom 0).free) ∧
      Returned pmmAlloc4g (freeFrom (2 ^ 14)) 4096 page4g ∧
      ¬ Placed (freeFrom (2 ^ 14)) 4096 := by
  have hhigh := @freeFrom_returned (2 ^ 14) (by decide)
  refine ⟨⟨pmmAlloc_eq_alloc4g ▸ @freeFrom_returned 0 (by decide), ?_⟩, hhigh, ?_⟩
  · exact mem_freeFrom.mpr (by decide)
  · rintro ⟨hlow, -⟩
    obtain ⟨ptr, p', h, hg⟩ := returned_iff.mp hhigh
    obtain ⟨c, hc, hlt⟩ := hlow ptr p' h
    obtain ⟨_, _, -, hg'⟩ := returned_iff.mp hc
    obtain rfl := hg.unique hg'
    exact absurd hlt (by decide)

end NeptunOS.Pmm
