import NeptunOS.Arch.Grants

/-!
# `paging_lookup` and 1 GiB pages

`paging_lookup` reads an entry of the "page directory" before it asks whether the
entry above is the leaf of a 1 GiB page, and then adds the offset to the pointer
into the direct map, not to the frame. So the answer depends on what lies in the
page, and it is the physical address in no case (`lookup_giant_never`).
-/

namespace NeptunOS.Paging

open Radix Stepwise

/-- `v` lies in a present 1 GiB page with this physical base: the walk ends in the
PDPT. -/
def GiantAt (m : ℕ → ℕ → ℕ) (cr3 v base : ℕ) : Prop :=
  ∃ e4 e3, walk m cr3 v = some [e4, e3] ∧ e3 < 2 ^ 64 ∧ base = e3 % 2 ^ 52 / 2 ^ 30 * 2 ^ 30

/-- `paging_lookup` finds the physical address, whatever the page contains. -/
def AnswersGiant (m : ℕ → ℕ → ℕ) (cr3 v base : ℕ) : Prop :=
  pagingLookup m cr3 v = base + v % 2 ^ 30 ∧
    ∀ m' : ℕ → ℕ → ℕ, (∀ t, t < hhdm + base ∨ hhdm + base + 2 ^ 30 ≤ t → m' t = m t) →
      pagingLookup m' cr3 v = pagingLookup m cr3 v

section Giant

variable {m m' : ℕ → ℕ → ℕ} {cr3 v e4 e3 base : ℕ}

/-- One step of a walk. -/
theorem walkFrom_eq_some {t i e : ℕ} {is es : List ℕ}
    (h : walkFrom m t (i :: is) = some (e :: es)) :
    m t i = e ∧ present e = true ∧
      ((is = [] ∨ huge e = true) ∧ es = [] ∨
        huge e = false ∧ walkFrom m (tableOf e) is = some es) := by
  rw [walkFrom] at h
  split at h
  · cases h
  case isFalse hp =>
    have hp : present (m t i) = true := by simpa using hp
    split at h
    case isTrue hend =>
      obtain ⟨rfl, rfl⟩ := List.cons.inj (Option.some.inj h)
      exact ⟨rfl, hp, .inl ⟨hend, rfl⟩⟩
    case isFalse hend =>
      obtain ⟨es', hes, heq⟩ := Option.map_eq_some_iff.mp h
      obtain ⟨rfl, rfl⟩ := List.cons.inj heq
      exact ⟨rfl, hp, .inr ⟨by simpa using (not_or.mp hend).2, hes⟩⟩

/-- A walk of two entries goes through the PML4 and ends in the PDPT. -/
theorem walk_pair (hw : walk m cr3 v = some [e4, e3]) :
    m cr3 (addrPml4i v) = e4 ∧ present e4 = true ∧
      m (tableOf e4) (addrPdpi v) = e3 ∧ present e3 = true ∧ huge e3 = true := by
  obtain ⟨h4, hp4, hnext⟩ := walkFrom_eq_some hw
  obtain ⟨_, hnil⟩ | ⟨_, hrest⟩ := hnext
  · cases hnil
  obtain ⟨h3, hp3, hnext⟩ := walkFrom_eq_some hrest
  obtain ⟨hend, _⟩ | ⟨_, hrest⟩ := hnext
  · exact ⟨h4, hp4, h3, hp3, hend.resolve_left (by simp)⟩
  · rw [walkFrom] at hrest
    split at hrest
    · cases hrest
    · split at hrest
      · cases hrest
      · obtain ⟨_, _, heq⟩ := Option.map_eq_some_iff.mp hrest
        cases heq

/-- What `paging_lookup` returns there. -/
theorem lookup_giant (hw : walk m cr3 v = some [e4, e3]) : pagingLookup m cr3 v =
      if present (m (tableOf e3) (addrPdi v)) then wadd (tableOf e3) (v % 2 ^ 30) % 2 ^ 63
      else minusOne := by
  obtain ⟨h4, hp4, h3, hp3, hh3⟩ := walk_pair hw
  unfold pagingLookup
  dsimp only
  rw [h4, if_neg (by simp [hp4]), h3, if_neg (by simp [hp3])]
  by_cases hp2 : present (m (tableOf e3) (addrPdi v)) = true
  · rw [if_neg (by simp [hp2]), if_pos hh3, if_pos hp2]
  · rw [if_pos hp2, if_neg hp2]

/-- A 1 GiB page that `map_page` made. -/
theorem Maps.giantAt {c : Call} (hm : Maps c (entryAt m cr3) (entryAt m' cr3))
    (hphys : c.phys < 2 ^ 52) (hc : c.size = .s1G) (hcov : c.Covers v) :
    GiantAt m' cr3 v c.frame := by
  have hway : slotsFrom c.uppers [] = [[addrPml4i c.page]] := by rw [Call.uppers, hc]; rfl
  have hwalk := walkAt_below hm (Call.slot_suffix_path hcov)
  rw [← walk_eq, hway] at hwalk
  have hframe : c.frame = c.phys / 2 ^ 30 * 2 ^ 30 := by rw [Call.frame, hc]; rfl
  have hmask := exeMask_cases c.flags
  have haddr : c.leaf / 2 ^ 12 = (c.frame + exeMask c.flags) / 2 ^ 12 := by
    rw [Call.leaf, setFlags, or_exeMask (by omega)]
    omega
  refine ⟨_, c.leaf, hwalk, ?_⟩
  omega

/-- **1 GiB pages.** `paging_lookup` answers with the physical address of no address
in a 1 GiB page: it returns `-1`, or a sum with a pointer into the direct map. -/
theorem lookup_giant_never (h : GiantAt m cr3 v base) : ¬ AnswersGiant m cr3 v base := by
  obtain ⟨e4, e3, hw, hlt, rfl⟩ := h
  rintro ⟨hanswer, -⟩
  rw [lookup_giant hw] at hanswer
  split at hanswer
  · rw [tableOf_eq hlt] at hanswer
    unfold wadd hhdm at hanswer
    omega
  · unfold minusOne at hanswer
    omega

/-- The second GiB of memory as one page. -/
def giantCall : Call :=
  ⟨0xffff900000000000, 0x40000000, true, false, false, false, false, true, 0⟩

theorem giantCall_giantAt {s : Tables} (hs : giantCall.run bootTables (hhdm + 0x1000) = .ok s) :
    GiantAt s.mem (hhdm + 0x1000) 0xffff900000123456 0x40000000 := by
  obtain ⟨_, hmaps⟩ := mapPage_spec bootTables_empty.wellFormed (by decide)
    (fun σ _ _ hp => by rw [bootTables_empty.entryAt_eq_zero] at hp; cases hp) hs
  exact hmaps.giantAt (by decide) (by decide) (by decide)

theorem lookup_giant_never_boot :
    ∃ s, giantCall.run bootTables (hhdm + 0x1000) = .ok s ∧
      ¬ AnswersGiant s.mem (hhdm + 0x1000) 0xffff900000123456 0x40000000 := by
  obtain ⟨s, hs, _⟩ := giantCall.run_ok (hhdm + 0x1000) (s := bootTables) (by decide)
  exact ⟨s, hs, lookup_giant_never (giantCall_giantAt hs)⟩

/-- In a page of zeros nothing is found. -/
theorem giant_page_not_found :
    ∃ s, giantCall.run bootTables (hhdm + 0x1000) = .ok s ∧
      GiantAt s.mem (hhdm + 0x1000) 0xffff900000123456 0x40000000 ∧
      pagingLookup s.mem (hhdm + 0x1000) 0xffff900000123456 = minusOne := by
  have hread : (giantCall.run bootTables (hhdm + 0x1000)).map (fun s : Tables =>
      pagingLookup s.mem (hhdm + 0x1000) 0xffff900000123456) = .ok minusOne := by
    decide +kernel
  obtain ⟨s, hs, hlookup⟩ := map_eq_ok.mp hread
  exact ⟨s, hs, giantCall_giantAt hs, hlookup⟩

end Giant

end NeptunOS.Paging
