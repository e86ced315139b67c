import NeptunOS.Arch.GiantPages

/-!
# `check_page`, `check_pages`

`check_pages` is to map what is missing of a range of the direct map. Its loop
counts in bytes and multiplies the counter by the page size once more, so the pages
it checks are 16 MiB apart: `checkPages_covers_iff` says when that is enough.
-/

namespace NeptunOS.Paging

open Radix Stepwise

/-- `check_page(addr, cache)`. -/
def checkPage (cr3 : ℕ) (s : Tables) (addr cache : ℕ) : Except Halt Tables :=
  if pagingLookup s.mem cr3 addr = minusOne then
    mapPage s cr3 addr (phys addr) 0b11 cache
  else .ok s

/-- The address of a round of `check_pages`, whose counter is `0x1000 * k`. -/
def checkedAddr (addr k : ℕ) : ℕ := wadd addr (0x1000 * k * 0x1000 % 2 ^ 64)

/-- The rounds of `check_pages`. -/
def rounds (bytes : ℕ) : ℕ := align bytes 0x1000 / 0x1000

/-- `check_pages(addr, bytes)`. -/
def checkPages (cr3 : ℕ) (s : Tables) (addr bytes : ℕ) : Except Halt Tables :=
  (List.range (rounds bytes)).foldlM (fun s k => checkPage cr3 s (checkedAddr addr k) 0) s

/-! ## Page tables with pages of all sizes -/

/-- Page tables as the processor takes them: no leaf in the PML4. The first page of a
1 GiB page, which `paging_lookup` and `map_page` take for a page directory, is no
table, nor will it be one. -/
structure Regular (s : Tables) (cr3 : ℕ) : Prop extends WellFormed s cr3 where
  pml4 : ∀ i, present (entryAt s.mem cr3 [i]) = true → huge (entryAt s.mem cr3 [i]) = false
  giants : ∀ i j, present (entryAt s.mem cr3 [j, i]) = true →
    huge (entryAt s.mem cr3 [j, i]) = true →
      tableOf (entryAt s.mem cr3 [j, i]) ∉ s.frames ∧
        ∀ π, π.length ≤ 3 → table child s.mem cr3 π ≠ some (tableOf (entryAt s.mem cr3 [j, i]))

/-- The call that `check_page` makes. -/
def checkCall (addr cache : ℕ) : Call :=
  ⟨addr, phys addr, true, false, false, false, false, false, cache⟩

theorem checkCall_run (s : Tables) (cr3 addr cache : ℕ) :
    (checkCall addr cache).run s cr3 = mapPage s cr3 addr (phys addr) 0b11 cache := by
  have hflags : flagBits true false false false false false = 0b11 := by decide
  rw [Call.run, Call.flags, ← hflags]
  rfl

theorem checkCall_slot (addr cache : ℕ) : (checkCall addr cache).slot = path addr :=
  Call.slot_4K (by rw [Call.size_eq]; rfl)

section Step

variable {s s' : Tables} {cr3 addr v cache : ℕ}
variable {m : ℕ → ℕ → ℕ} {π is σ : List ℕ} {flags exemask t i last e4 e3 : ℕ} {way : List (ℕ × ℕ)}

theorem translate_eq_none : translate m cr3 v = none ↔ walk m cr3 v = none := by
  rw [translate, Option.map_eq_none_iff]

/-- Nothing is below an entry that is no pointer. -/
theorem absent_below (hπ : π ≠ []) (hp : child (entryAt m cr3 π) = none) (hσ : σ ∈ slotsFrom is π) :
    present (entryAt m cr3 σ) = false := by
  induction is generalizing π with
  | nil => cases hσ
  | cons i is ih =>
    have hzero : present (entryAt m cr3 (i :: π)) = false := by
      rw [entryAt_below_leaf hπ hp]
      rfl
    rcases List.mem_cons.mp hσ with rfl | hσ
    · exact hzero
    · exact ih (by simp) (child_of_absent hzero) hσ

/-- Where nothing is mapped, the present entries on the way are pointers. -/
theorem pointers_of_walk_none (h : walkAt (entryAt m cr3) π is = none) (hσ : σ ∈ slotsFrom is π)
    (hp : present (entryAt m cr3 σ) = true) : huge (entryAt m cr3 σ) = false := by
  induction is generalizing π with
  | nil => cases hσ
  | cons i is ih =>
    rw [walkAt] at h
    cases hpi : present (entryAt m cr3 (i :: π)) with
    | false =>
      have habs : present (entryAt m cr3 σ) = false := by
        rcases List.mem_cons.mp hσ with rfl | hσ
        · exact hpi
        · exact absent_below (by simp) (child_of_absent hpi) hσ
      rw [hp] at habs
      cases habs
    | true =>
      rw [if_neg (by simp [hpi])] at h
      split at h
      · cases h
      case isFalse hend =>
        rcases List.mem_cons.mp hσ with rfl | hσ
        · simpa using (not_or.mp hend).2
        · exact ih (Option.map_eq_none_iff.mp h) hσ

/-- Where nothing is mapped, the last entry is absent. -/
theorem last_of_walk_none (his : is ≠ []) (h : walkAt (entryAt m cr3) π is = none) :
    present (entryAt m cr3 (is.reverse ++ π)) = false := by
  induction is generalizing π with
  | nil => exact absurd rfl his
  | cons i is ih =>
    rw [List.reverse_cons, List.append_assoc, List.singleton_append]
    rw [walkAt] at h
    by_cases hend : is = []
    · subst hend
      simpa using h
    · cases hp : present (entryAt m cr3 (i :: π)) with
      | false =>
        refine absent_below (by simp) (child_of_absent hp) (mem_slotsFrom.mpr ⟨?_, List.suffix_rfl⟩)
        have := List.length_pos_iff.mpr hend
        rw [List.length_append, List.length_reverse]
        omega
      | true =>
        rw [if_neg (by simp [hp])] at h
        split at h
        case isTrue => cases h
        case isFalse => exact ih hend (Option.map_eq_none_iff.mp h)

theorem pointers_of_translate_none (h : translate m cr3 v = none) (hσ : σ ≠ []) (hs : σ <:+ path v)
    (hp : present (entryAt m cr3 σ) = true) : huge (entryAt m cr3 σ) = false := by
  have hway := translate_eq_none.mp h
  rw [walk_eq] at hway
  refine pointers_of_walk_none hway (mem_slotsFrom.mpr ⟨List.length_pos_iff.mpr hσ, ?_⟩) hp
  rwa [List.append_nil, ← path]

/-- What `paging_lookup` finds is mapped. -/
theorem mapped_of_lookup (h : pagingLookup m cr3 v ≠ minusOne) : translate m cr3 v ≠ none := by
  intro hnone
  have hgiant : NoGiant m cr3 v := fun σ hσ _ hs hp => pointers_of_translate_none hnone hσ hs hp
  exact h (hgiant.lookup_eq_minusOne.mpr hnone)

/-- A page that is missing is mapped and nothing else is. -/
theorem Regular.map_missing (h : Regular s cr3) (hnone : translate s.mem cr3 addr = none)
    (hr : (checkCall addr cache).run s cr3 = .ok s') :
    Regular s' cr3 ∧
      ∀ v, translate s'.mem cr3 v ≠ none ↔ translate s.mem cr3 v ≠ none ∨ path v = path addr := by
  have hslot := checkCall_slot addr cache
  have hphys : (checkCall addr cache).phys < 2 ^ 63 := by
    show phys addr < 2 ^ 63
    rw [phys_eq_mod]
    omega
  have hnh : ∀ σ, σ ≠ [] → σ <:+ (checkCall addr cache).slot.tail →
      present (entryAt s.mem cr3 σ) = true → huge (entryAt s.mem cr3 σ) = false := by
    intro σ hσ hs
    rw [hslot] at hs
    exact pointers_of_translate_none hnone hσ (hs.trans (List.tail_suffix _))
  obtain ⟨hwf, hm⟩ := mapPage_spec h.toWellFormed hphys hnh hr
  have hframe := mapPage_frame h.toWellFormed hphys hnh hr
  have hsize : (checkCall addr cache).size = .s4K := by
    rw [Call.size_eq]
    rfl
  refine ⟨⟨hwf, ?_, ?_⟩, ?_⟩
  · intro i hp
    cases hh : huge (entryAt s'.mem cr3 [i]) with
    | false => rfl
    | true =>
      have heq := hm.huge_kept hsize (by simp) (by simp) hh
      rw [heq] at hp hh
      rw [h.pml4 i hp] at hh
      cases hh
  · intro i j hp hh
    have heq := hm.huge_kept hsize (by simp) (by simp) hh
    rw [heq] at hp hh ⊢
    obtain ⟨hfree, htables⟩ := h.giants i j hp hh
    refine ⟨fun hin => hfree (hframe.frames hin), fun π hπ hin => ?_⟩
    rcases hframe.origin π _ hπ hin with hold | ⟨hnew, _⟩
    · exact htables π hπ hold
    · exact hfree hnew
  · intro v
    by_cases hv : path v = path addr
    · have hs : (checkCall addr cache).slot <:+ path v := by rw [hslot, hv]
      have hwalk : translate s'.mem cr3 v ≠ none := by
        rw [Ne, translate_eq_none, walk_eq, walkAt_below hm hs]
        simp
      simp [hv, hwalk]
    · have hs : ¬ (checkCall addr cache).slot <:+ path v := by
        rw [hslot]
        exact fun hs => hv (hs.eq_of_length rfl).symm
      have hsame : translate s'.mem cr3 v = translate s.mem cr3 v := by
        rw [translate_eq_leafOf, translate_eq_leafOf, leafOf_other hm hnh rfl]
        rwa [List.append_nil]
      simp [hv, hsame]

/-- The paths of the two upper levels. -/
theorem suffix_path_cases (hs : σ <:+ path addr) (hσ : σ ≠ []) (hlen : σ.length ≤ 2) :
    σ = [addrPml4i addr] ∨ σ = [addrPdpi addr, addrPml4i addr] := by
  obtain ⟨pre, hpre⟩ := hs
  have hdrop : σ = (path addr).drop pre.length := by rw [← hpre, List.drop_left]
  have hsum := congrArg List.length hpre
  rw [List.length_append, Call.path_length] at hsum
  have hpos := List.length_pos_iff.mpr hσ
  have hcases : pre.length = 3 ∨ pre.length = 2 := by omega
  rcases hcases with h | h
  · left
    rw [hdrop, h]
    rfl
  · right
    rw [hdrop, h]
    rfl

/-- A mapped address that `paging_lookup` does not find lies in a 1 GiB page. -/
theorem Regular.giant_of_lookup (h : Regular s cr3)
    (hlookup : pagingLookup s.mem cr3 addr = minusOne)
    (hmapped : translate s.mem cr3 addr ≠ none) :
    walk s.mem cr3 addr = some [entryAt s.mem cr3 [addrPml4i addr],
      entryAt s.mem cr3 [addrPdpi addr, addrPml4i addr]] := by
  -- without such a page the lookup is the processor's walk
  have hgiant : present (entryAt s.mem cr3 [addrPdpi addr, addrPml4i addr]) = true ∧
      huge (entryAt s.mem cr3 [addrPdpi addr, addrPml4i addr]) = true := by
    by_contra hno
    have hnone : NoGiant s.mem cr3 addr := by
      intro σ hσ hlen hs hp
      rcases suffix_path_cases hs hσ hlen with rfl | rfl
      · exact h.pml4 _ hp
      · simpa [hp] using hno
    exact hmapped (hnone.lookup_eq_minusOne.mp hlookup)
  obtain ⟨hp3, hh3⟩ := hgiant
  have hp4 : present (entryAt s.mem cr3 [addrPml4i addr]) = true := by
    by_contra hp4
    rw [entryAt_below (by simp) (by simpa using hp4)] at hp3
    cases hp3
  have hh4 := h.pml4 _ hp4
  rw [walk_eq, indices, walkAt, walkAt]
  simp [hp4, hh4, hp3, hh3]

theorem checkCall_indices (addr cache : ℕ) :
    (checkCall addr cache).uppers = [addrPml4i addr, addrPdpi addr, addrPdi addr] ∧
      (checkCall addr cache).index = addrPti addr := by
  have hslot := checkCall_slot addr cache
  obtain ⟨hindex, huppers⟩ := List.cons.inj hslot
  refine ⟨?_, hindex⟩
  rw [← List.reverse_inj, huppers]
  rfl

/-- A level whose entry is present, for a call without `USER`. -/
theorem descendAll_present (hp : present (s.mem t i) = true) (hu : user flags = false)
    (h : descendAll flags exemask (i :: is) t s = .ok (way, last, s')) :
    ∃ way', descendAll flags exemask is (tableOf (s.mem t i)) s = .ok (way', last, s') := by
  have hstep : descend flags exemask s t i = .ok (tableOf (s.mem t i), s) := by
    rw [descend, if_pos hp, if_neg (by simp [hu])]
  rw [descendAll, hstep, ok_bind] at h
  obtain ⟨⟨way', last', s''⟩, hrest, h⟩ := bind_eq_ok.mp h
  cases h
  exact ⟨way', hrest⟩

/-- The last upper level, with a new table. -/
theorem descendAll_absent (hp : present (s.mem t i) = false)
    (h : descendAll flags exemask [i] t s = .ok (way, last, s')) :
    s.frames = last :: s'.frames ∧
      s'.mem = put (fill s.mem last 0) t i (setFlags (phys last ||| exemask) flags) := by
  obtain ⟨⟨f, s₁⟩, hstep, h⟩ := bind_eq_ok.mp h
  cases h
  rw [descend, if_neg (by simp [hp])] at hstep
  obtain ⟨⟨f', s₂⟩, hnew, hstep⟩ := bind_eq_ok.mp hstep
  cases hstep
  rw [newTable] at hnew
  split at hnew
  · cases hnew
  case h_2 heq =>
    cases hnew
    exact ⟨heq, rfl⟩

/-- The leaf of a page that is not executable. -/
theorem writeLeaf_nx {a : ℕ} (hx : exemask ≠ 0) : writeLeaf m way t i a exemask flags =
      put (put m t i (a ||| exemask)) t i (setFlags (a ||| exemask) flags) := by
  unfold writeLeaf
  dsimp only
  rw [if_neg hx, put_apply, if_pos ⟨rfl, rfl⟩]

/-- Such a page is not found when it holds no present entry at this place. -/
theorem giant_absent (hw : walk s.mem cr3 addr = some [e4, e3])
    (hlookup : pagingLookup s.mem cr3 addr = minusOne) :
    present (s.mem (tableOf e3) (addrPdi addr)) = false := by
  rw [lookup_giant hw] at hlookup
  split at hlookup
  case isTrue =>
    unfold minusOne at hlookup
    omega
  case isFalse hp => simpa using hp

/-- Through a 1 GiB page, `map_page` writes to that page and to a new table only. -/
theorem run_giant (hw : walk s.mem cr3 addr = some [e4, e3])
    (hlookup : pagingLookup s.mem cr3 addr = minusOne)
    (hr : (checkCall addr cache).run s cr3 = .ok s') :
    ∃ f, s.frames = f :: s'.frames ∧ (∀ u, u ≠ f → u ≠ tableOf e3 → s'.mem u = s.mem u) ∧
      ((∀ t i, s.mem t i < 2 ^ 64) → ∀ t i, s'.mem t i < 2 ^ 64) := by
  obtain ⟨h4, hp4, h3, hp3, -⟩ := walk_pair hw
  have habs := giant_absent hw hlookup
  obtain ⟨huppers, -⟩ := checkCall_indices addr cache
  obtain ⟨way, t, s₁, hdown, rfl⟩ := Call.run_eq_ok hr
  have huser : user (checkCall addr cache).low = false := (checkCall addr cache).user_low
  have hmask : exeMask (checkCall addr cache).flags = 2 ^ 63 := by
    rw [Call.exeMask_flags, checkCall, cond_false]
  rw [huppers] at hdown
  obtain ⟨way₁, hdown⟩ := descendAll_present (by rw [h4, hp4]) huser hdown
  obtain ⟨way₂, hdown⟩ := descendAll_present (by rw [h4, h3, hp3]) huser hdown
  rw [h4, h3] at hdown
  obtain ⟨hframes, hmem⟩ := descendAll_absent habs hdown
  refine ⟨t, hframes, ?_, ?_⟩
  · intro u hut hu
    funext j
    show writeLeaf s₁.mem _ _ _ _ _ _ u j = s.mem u j
    rw [writeLeaf_nx (by rw [hmask]; decide), hmem]
    simp only [put_apply, fill_apply, hut, hu, false_and, if_false]
  · intro htyped
    have hlast : phys t < 2 ^ 63 := by
      rw [phys_eq_mod]
      omega
    have hframe : (checkCall addr cache).frame < 2 ^ 63 :=
      (checkCall addr cache).frame_le.trans_lt (by
        show phys addr < 2 ^ 63
        rw [phys_eq_mod]
        omega)
    have hor : ∀ x, x < 2 ^ 63 → x ||| exeMask (checkCall addr cache).flags < 2 ^ 64 := by
      intro x hx
      rw [or_exeMask hx, hmask]
      omega
    show ∀ t' i, writeLeaf s₁.mem _ _ _ _ _ _ t' i < 2 ^ 64
    rw [writeLeaf_nx (by rw [hmask]; decide), hmem]
    refine put_typed (put_typed (put_typed ?_ (setFlags_lt _ (hor _ hlast))) (hor _ hframe))
      (setFlags_lt _ (hor _ hframe))
    intro t' j
    rw [fill_apply]
    split
    · decide
    · exact htyped t' j

/-- The attempt to map a page inside a 1 GiB page leaves all translations. -/
theorem Regular.map_giant (h : Regular s cr3) (hlookup : pagingLookup s.mem cr3 addr = minusOne)
    (hmapped : translate s.mem cr3 addr ≠ none)
    (hr : (checkCall addr cache).run s cr3 = .ok s') :
    Regular s' cr3 ∧ ∀ v, translate s'.mem cr3 v = translate s.mem cr3 v := by
  have hw := h.giant_of_lookup hlookup hmapped
  obtain ⟨-, -, -, hp3, hh3⟩ := walk_pair hw
  obtain ⟨hfree, htables⟩ := h.giants _ _ hp3 hh3
  obtain ⟨f, hframes, hmem, htyped⟩ := run_giant hw hlookup hr
  have hf : f ∈ s.frames := by simp [hframes]
  -- neither of the two written pages is a table
  have hagree : ∀ π t, π.length ≤ 3 → table child s.mem cr3 π = some t →
      s'.mem t = s.mem t := by
    intro π t hπ ht
    refine hmem t ?_ ?_
    · rintro rfl
      exact h.fresh π t hπ ht hf
    · rintro rfl
      exact htables π hπ ht
  have htable : ∀ π, π.length ≤ 4 → table child s'.mem cr3 π = table child s.mem cr3 π :=
    fun π hπ => table_congr hagree hπ
  have hentry : ∀ σ, σ.length ≤ 4 → entryAt s'.mem cr3 σ = entryAt s.mem cr3 σ :=
    fun σ hσ => view_congr hagree hσ
  have hsub : ∀ g ∈ s'.frames, g ∈ s.frames := fun g hg => by simp [hframes, hg]
  refine ⟨⟨⟨?_, htyped h.typed, ?_, ?_, fun g hg => h.frames g (hsub g hg)⟩, ?_, ?_⟩, ?_⟩
  · intro π π' t hπ hπ' ht ht'
    rw [htable π (by omega)] at ht
    rw [htable π' (by omega)] at ht'
    exact h.tree hπ hπ' ht ht'
  · intro π t hπ ht hin
    rw [htable π (by omega)] at ht
    exact h.fresh π t hπ ht (hsub t hin)
  · have hnodup := h.nodup
    rw [hframes] at hnodup
    exact (List.nodup_cons.mp hnodup).2
  · intro i
    rw [hentry _ (by simp)]
    exact h.pml4 i
  · intro i j
    rw [hentry _ (by simp)]
    intro hp hh
    obtain ⟨hfree, htables⟩ := h.giants i j hp hh
    refine ⟨fun hin => hfree (hsub _ hin), fun π hπ => ?_⟩
    rw [htable π (by omega)]
    exact htables π hπ
  · intro v
    rw [translate_eq_leafOf, translate_eq_leafOf, walkAt_congr fun σ hσ => hentry σ ?_]
    have hle := (mem_slotsFrom.mp hσ).2.length_le
    simpa [indices] using hle

theorem translate_path {w : ℕ} (h : path v = path w) :
    translate m cr3 v ≠ none ↔ translate m cr3 w ≠ none := by
  rw [Ne, Ne, translate_eq_none, translate_eq_none, walk_eq, walk_eq, indices_eq, indices_eq, h]

/-- `check_page`: the page is mapped afterwards, and no other page is that was not. -/
theorem Regular.checkPage (h : Regular s cr3) (hr : checkPage cr3 s addr cache = .ok s') :
    Regular s' cr3 ∧
      ∀ v, translate s'.mem cr3 v ≠ none ↔ translate s.mem cr3 v ≠ none ∨ path v = path addr := by
  have hkept : translate s.mem cr3 addr ≠ none → ∀ v,
      translate s.mem cr3 v ≠ none ↔ translate s.mem cr3 v ≠ none ∨ path v = path addr :=
    fun hmapped v => ⟨.inl, fun hv => hv.elim id fun hp => (translate_path hp).mpr hmapped⟩
  rw [Paging.checkPage] at hr
  split at hr
  case isTrue hlookup =>
    rw [← checkCall_run] at hr
    by_cases hnone : translate s.mem cr3 addr = none
    · exact h.map_missing hnone hr
    · obtain ⟨hreg, hsame⟩ := h.map_giant hlookup hnone hr
      refine ⟨hreg, fun v => ?_⟩
      rw [hsame v]
      exact hkept hnone v
  case isFalse hlookup =>
    obtain rfl := Except.ok.inj hr
    exact ⟨h, hkept (mapped_of_lookup hlookup)⟩

end Step

/-! ## The range -/

/-- The processor finds a page for this address. -/
def Mapped (m : ℕ → ℕ → ℕ) (cr3 v : ℕ) : Prop := Canonical v ∧ translate m cr3 v ≠ none

/-- `v` lies in a page that `check_pages` checks. The tables know the low 48 bits. -/
def Visited (addr bytes v : ℕ) : Prop :=
  ∃ k < rounds bytes, v % 2 ^ 48 / 2 ^ 12 = checkedAddr addr k % 2 ^ 48 / 2 ^ 12

/-- `v` lies in a page of the range. -/
def InRange (addr bytes v : ℕ) : Prop := ∃ j < bytes, v / 2 ^ 12 = wadd addr j / 2 ^ 12

/-- The whole range is mapped, and no page outside it has been added. -/
structure Covered (cr3 : ℕ) (s s' : Tables) (addr bytes : ℕ) : Prop where
  mapped : ∀ j < bytes, Mapped s'.mem cr3 (wadd addr j)
  added : ∀ v, Mapped s'.mem cr3 v → ¬ Mapped s.mem cr3 v → InRange addr bytes v

/-- Every page of the range is there before or is checked, and every checked page
outside the range is there before. -/
structure Reached (cr3 : ℕ) (s : Tables) (addr bytes : ℕ) : Prop where
  range : ∀ j < bytes, Mapped s.mem cr3 (wadd addr j) ∨
    Canonical (wadd addr j) ∧ Visited addr bytes (wadd addr j)
  beyond : ∀ v, Canonical v → Visited addr bytes v →
    Mapped s.mem cr3 v ∨ InRange addr bytes v

section Range

variable {s s' : Tables} {cr3 addr bytes : ℕ}

/-- `check_pages` adds the checked pages that were missing. -/
theorem Regular.checkPages (h : Regular s cr3) (hr : checkPages cr3 s addr bytes = .ok s') (v : ℕ) :
    Mapped s'.mem cr3 v ↔ Mapped s.mem cr3 v ∨ Canonical v ∧ Visited addr bytes v := by
  have hinv := @foldlM_range_invariant Tables Halt _
    (fun n t => Regular t cr3 ∧ ∀ v, translate t.mem cr3 v ≠ none ↔
      translate s.mem cr3 v ≠ none ∨ ∃ k < n, path v = path (checkedAddr addr k))
    (rounds bytes) s s' hr ⟨h, by simp⟩ ?_
  case refine_1 =>
    intro k t t' _ ⟨hreg, hmapped⟩ hstep
    obtain ⟨hreg', hmapped'⟩ := hreg.checkPage hstep
    refine ⟨hreg', fun v => ?_⟩
    rw [hmapped' v, hmapped v, or_assoc]
    refine or_congr_right ⟨?_, ?_⟩
    · rintro (⟨k', hk', hp⟩ | hp)
      · exact ⟨k', by omega, hp⟩
      · exact ⟨k, by omega, hp⟩
    · rintro ⟨k', hk', hp⟩
      rcases Nat.lt_succ_iff_lt_or_eq.mp hk' with hlt | rfl
      · exact .inl ⟨k', hlt, hp⟩
      · exact .inr hp
  have hvisited : Visited addr bytes v ↔
      ∃ k < rounds bytes, path v = path (checkedAddr addr k) := by
    refine exists_congr fun k => and_congr_right fun _ => ?_
    exact (Call.drop_path_eq_iff .s4K v _).symm
  rw [Mapped, Mapped, hinv.2 v, hvisited, ← and_or_left]

/-- **`check_pages` and its range.** In every regular page-table state, for every
address and every number of bytes: afterwards the whole range is mapped and no page
outside it has been added if and only if every page of the range is mapped before
or lies a multiple of 16 MiB behind `addr` among the checked ones, and every checked
page outside the range is mapped before. -/
theorem checkPages_covers_iff (h : Regular s cr3)
    (hr : checkPages cr3 s addr bytes = .ok s') :
    Covered cr3 s s' addr bytes ↔ Reached cr3 s addr bytes := by
  have hmapped := h.checkPages hr
  constructor
  · rintro ⟨hall, hadded⟩
    refine ⟨fun j hj => (hmapped _).mp (hall j hj), fun v hv hvis => ?_⟩
    by_cases hold : Mapped s.mem cr3 v
    · exact Or.inl hold
    · exact Or.inr (hadded v ((hmapped v).mpr (Or.inr ⟨hv, hvis⟩)) hold)
  · rintro ⟨hrange, hbeyond⟩
    refine ⟨fun j hj => (hmapped _).mpr (hrange j hj), fun v hnew hold => ?_⟩
    obtain ⟨hv, hvis⟩ := ((hmapped v).mp hnew).resolve_left hold
    exact (hbeyond v hv hvis).resolve_left hold

theorem bootTables_regular : Regular bootTables (hhdm + 0x1000) := by
  refine ⟨bootTables_empty.wellFormed, fun i hp => ?_, fun i j hp => ?_⟩ <;>
    rw [bootTables_empty.entryAt_eq_zero] at hp <;> cases hp

/-- A range of one page. -/
theorem checkPages_covers_page :
    ∃ s', checkPages (hhdm + 0x1000) bootTables (hhdm + 0x100000) 0x1000 = .ok s' ∧
      Covered (hhdm + 0x1000) bootTables s' (hhdm + 0x100000) 0x1000 := by
  have hrun : (checkPages (hhdm + 0x1000) bootTables (hhdm + 0x100000) 0x1000).map
      (fun _ => ()) = .ok () := by decide
  obtain ⟨s', hs', _⟩ := map_eq_ok.mp hrun
  have hrounds : rounds 0x1000 = 1 := by decide
  have hfirst : checkedAddr (hhdm + 0x100000) 0 = hhdm + 0x100000 := by decide
  refine ⟨s', hs', (checkPages_covers_iff bootTables_regular hs').mpr ⟨?_, ?_⟩⟩
  · intro j hj
    refine Or.inr ⟨Or.inr ?_, 0, by omega, ?_⟩
    · unfold wadd hhdm
      omega
    · rw [hfirst]
      unfold wadd hhdm
      omega
  · rintro v hv ⟨k, hk, hpage⟩
    obtain rfl : k = 0 := by omega
    rw [hfirst] at hpage
    refine Or.inr ⟨0, by decide, ?_⟩
    unfold Canonical wadd hhdm at *
    omega

/-- Of two pages the second is not mapped. -/
theorem second_page_not_covered :
    ∃ s', checkPages (hhdm + 0x1000) bootTables (hhdm + 0x100000) 0x2000 = .ok s' ∧
      ¬ Covered (hhdm + 0x1000) bootTables s' (hhdm + 0x100000) 0x2000 := by
  have hread : (checkPages (hhdm + 0x1000) bootTables (hhdm + 0x100000) 0x2000).map
      (fun s : Tables => translate s.mem (hhdm + 0x1000) (wadd (hhdm + 0x100000) 0x1000)) =
      .ok none := by
    decide +kernel
  obtain ⟨s', hs', hnone⟩ := map_eq_ok.mp hread
  exact ⟨s', hs', fun h => (h.mapped 0x1000 (by decide)).2 hnone⟩

end Range

end NeptunOS.Paging
