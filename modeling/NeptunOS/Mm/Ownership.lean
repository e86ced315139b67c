import NeptunOS.Mm.Pmm

/-!
# Ownership of physical pages

Over any sequence of allocations after the boot, the ranges handed out are
disjoint usable memory outside page 0, the watermark area and the bitmap
(`runs_ownership`). This needs all usable memory to be below `2^47`: above it
`PHYSICAL` does not undo `VIRTUAL`, so `pmm_init` does not find the entry it
has placed the areas in and leaves them free (`far_memory_given_twice`).
-/

namespace NeptunOS.Pmm

open Stepwise Ledger

/-- The allocator's interface. -/
inductive Request where
  | alloc (size : ℕ)
  | alloc4g (size : ℕ)
deriving DecidableEq, Repr

def Request.size : Request → ℕ
  | .alloc size => size
  | .alloc4g size => size

def step (p : Pmm) : Request → Except Halt (ℕ × Pmm)
  | .alloc size => pmmAlloc p size
  | .alloc4g size => pmmAlloc4g p size

/-- The physical bytes behind the pointer a request returned. -/
def handed (x : Request × ℕ) : Set ℕ :=
  Set.Ico (phys x.2) (phys x.2 + align x.1.size 4096)

/-- The physical bytes of the watermark area that `pmm_init` sets up. -/
def wmArea (p : Pmm) : Set ℕ := Set.Ico (phys p.wmCursor) (phys p.wmCursor + p.wmFree)

/-- The physical bytes of the bitmap's words. -/
def bufferArea (p : Pmm) : Set ℕ :=
  Set.Ico (phys p.buffer) (phys p.buffer + p.bm.sz / 8)

/-- The bytes of the free pages. -/
def freeBytes (p : Pmm) : Set ℕ := {a | a / 4096 ∈ p.free}

/-- Every free page is inside the direct map. -/
def Mapped (p : Pmm) : Prop := ∀ k ∈ p.free, k < 2 ^ 35

/-! ## Steps -/

theorem step_grant {p p' : Pmm} {r : Request} {ptr : ℕ} (h : step p r = .ok (ptr, p')) :
    ∃ c, ptr = virt (c * 4096 % 2 ^ 64) ∧ Grant p (pages r.size) c p' := by
  cases r with
  | alloc size => exact allocFrom_grant h
  | alloc4g size => exact allocFrom_grant h

/-- Inside the direct map the pointer is the address of the granted pages. -/
theorem Grant.phys_eq {p p' : Pmm} {n c : ℕ} (h : Grant p n c p') (hm : p.Mapped) :
    phys (virt (c * 4096 % 2 ^ 64)) = c * 4096 := by
  have hc := hm c (h.avail ⟨Nat.le_refl _, by have := h.pos; omega⟩)
  rw [phys_virt]
  omega

theorem mem_pages_iff {c n a : ℕ} :
    a ∈ Set.Ico (c * 4096) (c * 4096 + n * 4096) ↔ a / 4096 ∈ Set.Ico c (c + n) := by
  simp only [Set.mem_Ico]
  omega

/-- An allocation takes the bytes it hands out from the free pages. -/
theorem step_takes : Takes step (fun _ _ => True) Mapped freeBytes handed := by
  intro p r ptr p' hm _ h
  obtain ⟨c, rfl, hg⟩ := step_grant h
  have hhanded : ∀ a, a ∈ handed (r, virt (c * 4096 % 2 ^ 64)) ↔
      a / 4096 ∈ Set.Ico c (c + pages r.size) := by
    intro a
    rw [handed, hg.phys_eq hm, ← pages_mul]
    exact mem_pages_iff
  refine ⟨?_, ?_, ?_⟩
  · intro k hk
    rw [hg.rest] at hk
    exact hm k hk.1
  · intro a ha
    exact hg.avail ((hhanded a).mp ha)
  · intro a ha
    change a / 4096 ∈ p'.free at ha
    rw [hg.rest] at ha
    exact ⟨ha.1, fun hin => ha.2 ((hhanded a).mp hin)⟩

/-! ## The stock after the boot -/

section Booted

variable {mm : MemoryMap} {cand : MmapEntry} {p : Pmm}

section

variable (h : Booted mm cand p)

include h

theorem Booted.mapped (hlow : mm.Low) : p.Mapped := by
  intro k hk
  obtain ⟨e, he, hu, hke⟩ := h.inUsable k hk
  have := hlow e he hu
  have := hke.2
  omega

theorem Booted.freeBytes_usable : p.freeBytes ⊆ mm.usable := by
  intro a ha
  obtain ⟨e, he, hu, hke⟩ := h.inUsable _ ha
  obtain ⟨hb, hl⟩ := mm.aligned e he hu
  have hlo := hke.1
  have hhi := hke.2
  refine ⟨e, he, hu, ?_, ?_⟩
  · omega
  · omega

theorem Booted.freeBytes_page0 : Disjoint p.freeBytes (Set.Ico 0 4096) := by
  rw [Set.disjoint_left]
  intro a ha ha0
  have hpage : a / 4096 = 0 := Nat.div_eq_of_lt ha0.2
  exact h.zero (hpage ▸ ha)

/-- The two areas, one after the other, hold no free page. -/
theorem Booted.freeBytes_held : Disjoint p.freeBytes
      (Set.Ico cand.base (cand.base + wmSize + p.bm.sz / 8)) := by
  rw [Set.disjoint_left]
  intro a ha hin
  obtain ⟨hb, _⟩ := mm.aligned cand h.mem h.usable
  have hlo := hin.1
  have hhi := hin.2
  have := h.notHeld _ ha (by omega)
  omega

theorem Booted.wmArea_eq (hlow : mm.Low) : p.wmArea = Set.Ico cand.base (cand.base + wmSize) := by
  have := hlow cand h.mem h.usable
  have := h.room
  have := wmSize_eq
  rw [wmArea, h.wmCursor, h.wmFree, phys_virt_of_lt (by omega)]

theorem Booted.bufferArea_subset (hlow : mm.Low) :
    p.bufferArea ⊆ Set.Ico cand.base (cand.base + wmSize + p.bm.sz / 8) := by
  have hfits := hlow cand h.mem h.usable
  have hroom := h.room
  intro a ha
  rw [bufferArea, h.buffer] at ha
  by_cases hsz : p.bm.sz / 8 = 0
  · rw [hsz, Nat.add_zero, Set.Ico_self] at ha
    exact ha.elim
  · rw [phys_virt_of_lt (by omega)] at ha
    exact ⟨by have := ha.1; omega, ha.2⟩

end

end Booted

/-- **Ownership.** Whatever is allocated after a boot, the ranges handed out are
pairwise disjoint, made of usable memory, and away from page 0, the watermark
area and the bitmap. -/
theorem runs_ownership (garbage : ℕ → BitVec 64) (mm : MemoryMap) (hlow : mm.Low)
    {p p' : Pmm} {h : List (Request × ℕ)} (hinit : pmmInit garbage mm.entries = .ok p)
    (hrun : Runs step (fun _ _ => True) p h p') :
    h.Pairwise (fun x y => Disjoint (handed x) (handed y)) ∧
      ∀ x ∈ h, handed x ⊆ mm.usable ∧ Disjoint (handed x) (Set.Ico 0 4096) ∧
        Disjoint (handed x) p.wmArea ∧ Disjoint (handed x) p.bufferArea := by
  obtain ⟨cand, hboot⟩ := pmmInit_booted hlow hinit
  obtain ⟨_, hbal⟩ := runs_balanced step_takes (hboot.mapped hlow) hrun
  refine ⟨hbal.apart, fun x hx => ?_⟩
  have htaken := hbal.taken x hx
  have hheld := hboot.freeBytes_held.mono_left htaken
  refine ⟨htaken.trans hboot.freeBytes_usable,
    hboot.freeBytes_page0.mono_left htaken, hheld.mono_right ?_,
    hheld.mono_right (hboot.bufferArea_subset hlow)⟩
  rw [hboot.wmArea_eq hlow]
  exact Set.Ico_subset_Ico_right (Nat.le_add_right _ _)

/-- A machine with 256 MiB: the first MiB is reserved. -/
def smallMap : MemoryMap where
  entries := [⟨0, 0x100000, .reserved⟩, ⟨0x100000, 0xff00000, .usable⟩]
  bounded := by decide
  sorted := by decide
  aligned := by decide

theorem smallMap_candidate :
    candidate 65536 smallMap.entries = some ⟨0x100000, 0xff00000, .usable⟩ := by
  decide

/-- The watermark area takes 64 MiB and the bitmap 64 KiB of it. -/
theorem smallMap_boots (garbage : ℕ → BitVec 64) :
    ∃ p, pmmInit garbage smallMap.entries = .ok p ∧ p.locked = false ∧
      ∀ k, 16656 ≤ k → k < 65536 → k ∈ p.free := by
  have hlast : lastEntry smallMap.entries = .ok ⟨0x100000, 0xff00000, .usable⟩ := rfl
  obtain ⟨p, hp, -, -, hsame, hbits, -, -⟩ := pmmInit_ok garbage hlast (by decide)
    smallMap_candidate (by decide) (by decide) (by decide) (by decide)
  refine ⟨p, hp, hsame.locked, fun k hlo hhi => ⟨?_, ?_⟩⟩
  · rw [hsame.sz]
    exact hhi
  · have hk : k ≠ 0 := by omega
    have hheld : k ∉ heldPages 65536 ⟨0x100000, 0xff00000, .usable⟩ := by
      intro h
      have := h.2
      simp [wmSize_eq] at this
      omega
    have hin : k ∈ entryPages ⟨0x100000, 0xff00000, .usable⟩ := ⟨by simp; omega, by simp; omega⟩
    rw [hbits k hhi, if_neg hk]
    simp [smallMap, entryMark, hheld, hin]

/-- The pages that the start of this machine marks. -/
theorem smallMap_marked {garbage : ℕ → BitVec 64} {p : Pmm}
    (hp : pmmInit garbage smallMap.entries = .ok p) :
    Marked garbage smallMap.entries 65536 ⟨0x100000, 0xff00000, .usable⟩ p := by
  obtain ⟨last, cand, hlast, hcand, hm⟩ :=
    pmmInit_marked (whole_of_low (show smallMap.Low by decide)) hp
  obtain rfl := Except.ok.inj hlast
  obtain rfl := Option.some.inj (smallMap_candidate.symm.trans hcand)
  exact hm

theorem runs_ownership_small_map :
    ∃ p p' x, pmmInit (fun _ => 0) smallMap.entries = .ok p ∧
      Runs step (fun _ _ => True) p [x] p' ∧ handed x ⊆ smallMap.usable ∧
      Disjoint (handed x) p.wmArea := by
  obtain ⟨p, hp, hlock, hfree⟩ := smallMap_boots fun _ => 0
  obtain ⟨ptr, p', halloc⟩ : ∃ ptr p', allocFrom 0 p 8192 = .ok (ptr, p') := by
    apply allocFrom_ok (c := 20000) hlock (by decide)
    rintro k ⟨hlo, hhi⟩
    have hpages : pages 8192 = 2 := by decide
    exact hfree k (by omega) (by omega)
  have hrun : Runs step (fun _ _ => True) p [(.alloc 8192, ptr)] p' :=
    (Runs.nil p).snoc trivial halloc
  obtain ⟨_, hx⟩ := runs_ownership (fun _ => 0) smallMap (by decide) hp hrun
  obtain ⟨husable, _, hwm, _⟩ := hx _ (List.mem_singleton_self _)
  exact ⟨p, p', _, hp, hrun, husable, hwm⟩

/-- A machine whose only usable memory starts at `2^47`. -/
def farMap : MemoryMap where
  entries := [⟨0x100000, 0x200000000, .bootloaderReclaimable⟩,
    ⟨0x800000000000, 0x200000000, .usable⟩]
  bounded := by decide
  sorted := by decide
  aligned := by decide

/-- Its areas are placed at `2^47`, and its first free page is there too. -/
theorem farMap_boots (garbage : ℕ → BitVec 64) :
    ∃ p, pmmInit garbage farMap.entries = .ok p ∧ p.locked = false ∧
      p.wmCursor = virt 0x800000000000 ∧ p.wmFree = wmSize ∧
      2 ^ 35 ∈ p.free ∧ ∀ k ∈ p.free, 2 ^ 35 ≤ k := by
  have hlast : lastEntry farMap.entries = .ok ⟨0x800000000000, 0x200000000, .usable⟩ := rfl
  have hcand : candidate 34361835520 farMap.entries =
      some ⟨0x800000000000, 0x200000000, .usable⟩ := by
    decide
  -- the areas are not recognised in the entry that has them
  have hlost : wadd 0x800000000000 wmSize ≠
      phys (virt (wadd 0x800000000000 wmSize)) := by
    decide
  obtain ⟨p, hp, -, -, hsame, hbits, -, -⟩ := pmmInit_ok garbage hlast (by decide) hcand
    (by decide) (by decide) (by decide) (by decide)
  have hsz : p.bm.sz = 34361835520 := hsame.sz
  have hbit : ∀ k < 34361835520, k ≠ 0 → p.bm.bit k =
      if k ∈ entryPages ⟨0x800000000000, 0x200000000, .usable⟩ then false else true := by
    intro k hk hk0
    rw [hbits k hk, if_neg hk0]
    simp [farMap, entryMark, hlost]
  refine ⟨p, hp, hsame.locked, hsame.wmCursor, hsame.wmFree, ⟨?_, ?_⟩, ?_⟩
  · rw [hsz]
    decide
  · rw [hbit _ (by decide) (by decide), if_pos]
    exact ⟨by decide, by decide⟩
  · rintro k ⟨hk, hfree⟩
    by_contra hlt
    rw [hsz] at hk
    by_cases hk0 : k = 0
    · rw [hk0, hbits 0 (by decide), if_pos rfl] at hfree
      cases hfree
    · rw [hbit k hk hk0, if_neg] at hfree
      · cases hfree
      · intro hin
        exact hlt hin.1

/-- There the first allocation returns the watermark area itself. -/
theorem far_memory_given_twice :
    ∃ p p', pmmInit (fun _ => 0) farMap.entries = .ok p ∧
      pmmAlloc p 4096 = .ok (p.wmCursor, p') ∧
      ¬ Disjoint (handed (.alloc 4096, p.wmCursor)) p.wmArea ∧
      ¬ handed (.alloc 4096, p.wmCursor) ⊆ farMap.usable := by
  obtain ⟨p, hp, hlock, hcursor, hwm, hfirst, hleast⟩ := farMap_boots fun _ => 0
  have hpages : pages 4096 = 1 := by decide
  have hsub : Set.Ico (2 ^ 35) (2 ^ 35 + pages 4096) ⊆ p.free := by
    rintro k ⟨hlo, hhi⟩
    have hk : k = 2 ^ 35 := by omega
    exact hk ▸ hfirst
  obtain ⟨ptr, p', halloc⟩ := allocFrom_ok hlock (by decide) hsub
  obtain ⟨c, hptr, hg⟩ := allocFrom_grant halloc
  -- first fit: page `2^35`
  have hc : c = 2 ^ 35 := by
    have hge := hleast c (hg.avail ⟨Nat.le_refl _, by omega⟩)
    have hle : ¬ 2 ^ 35 < c := fun hlt => hg.least _ hlt hsub
    omega
  subst hc
  have hsame : ptr = p.wmCursor := by
    rw [hptr, hcursor]
    congr 1
  have hphys : phys p.wmCursor = 0 := by
    rw [hcursor]
    decide
  have hzero : 0 ∈ handed (.alloc 4096, p.wmCursor) := by
    rw [handed, hphys]
    exact ⟨Nat.le_refl _, show 0 < 0 + align 4096 4096 by decide⟩
  refine ⟨p, p', hp, hsame ▸ halloc, ?_, ?_⟩
  · rw [Set.not_disjoint_iff]
    refine ⟨0, hzero, ?_⟩
    rw [wmArea, hphys, hwm]
    exact ⟨Nat.le_refl _, by decide⟩
  · intro hin
    obtain ⟨e, he, hu, hmem⟩ := hin hzero
    have hbase : ∀ e ∈ farMap.entries, 0 < e.base := by decide
    have := hbase e he
    have := hmem.1
    omega

end NeptunOS.Pmm
