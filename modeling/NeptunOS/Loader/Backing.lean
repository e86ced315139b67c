import NeptunOS.Arch.CheckPages
import NeptunOS.Loader.Program

/-!
# Accesses, and mapping what is missing

Outside the heap window an access is allowed by the tables as they are, or it halts
(`touch_eq_ok_iff`). A store needs a writable page: no entry on the way may be present and
without `RW` (`Writable`).

The loader of programs and the loader of modules map their pages in the same way: a page that
`paging_lookup` does not find gets a frame from `pmm_alloc`, every other page stays as it is.
`Backed` says where a sequence of such rounds leads. A page has the frame that it had before, or
the one that was granted when it was asked for first (`cell`); so the frames of all pages are known
from the tables and the allocator before. `map_page` gives no entry `RW` that is there already, so
that the same entries stay read-only.
-/

namespace NeptunOS.Loader

open Radix Paging Stepwise Ledger Pmm

/-! ## Accesses -/

/-- An entry that lets nobody store. -/
def ReadOnly (mem : ℕ → ℕ → ℕ) (cr3 : ℕ) (σ : List ℕ) : Prop :=
  present (entryAt mem cr3 σ) = true ∧ rw (entryAt mem cr3 σ) = false

/-- No entry on the way to `v` is read-only. -/
def Writable (mem : ℕ → ℕ → ℕ) (cr3 v : ℕ) : Prop :=
  ∀ σ, σ ≠ [] → σ <:+ path v → ¬ ReadOnly mem cr3 σ

section Access

variable {mem : ℕ → ℕ → ℕ} {write : Bool} {cr3 v n : ℕ} {l l' : Loading}

theorem allowed_read : allowed false mem cr3 v = true ↔ (translate mem cr3 v).isSome = true := by
  unfold allowed rights Paging.translate
  cases walk mem cr3 v with
  | none => exact Iff.rfl
  | some es => exact Iff.rfl

/-- A walk reads every present entry on its way. -/
theorem walkAt_rw {π is es : List ℕ} (h : walkAt (entryAt mem cr3) π is = some es) :
    es.all rw = true ↔ ∀ σ ∈ slotsFrom is π, ¬ ReadOnly mem cr3 σ := by
  induction is generalizing π es with
  | nil => cases h
  | cons i is ih =>
    rw [walkAt] at h
    split at h
    case isTrue => cases h
    case isFalse hp =>
      have hp : present (entryAt mem cr3 (i :: π)) = true := not_not.mp hp
      have hfirst : rw (entryAt mem cr3 (i :: π)) = true ↔ ¬ ReadOnly mem cr3 (i :: π) := by
        rw [ReadOnly, hp, and_iff_right rfl, Bool.not_eq_false]
      rw [slotsFrom, List.forall_mem_cons, ← hfirst]
      split at h
      case isTrue hend =>
        cases h
        have hrest : ∀ σ ∈ slotsFrom is (i :: π), ¬ ReadOnly mem cr3 σ := by
          rintro σ hσ ⟨hpσ, -⟩
          rcases hend with rfl | hhuge
          · cases hσ
          · rw [absent_below (by simp) (child_of_huge hhuge) hσ] at hpσ
            cases hpσ
        rw [List.all_cons, List.all_nil, Bool.and_true, and_iff_left hrest]
      case isFalse =>
        obtain ⟨es', hes, rfl⟩ := Option.map_eq_some_iff.mp h
        rw [List.all_cons, Bool.and_eq_true, ih hes]

theorem allowed_write :
    allowed true mem cr3 v = true ↔ (translate mem cr3 v).isSome = true ∧ Writable mem cr3 v := by
  have hway : ∀ σ, σ ∈ slotsFrom (indices v) [] ↔ σ ≠ [] ∧ σ <:+ path v := by
    intro σ
    rw [mem_slotsFrom, List.append_nil, ← path, List.length_nil, List.length_pos_iff]
  unfold allowed rights Paging.translate
  cases h : walk mem cr3 v with
  | none => simp
  | some es =>
    rw [walk_eq] at h
    have hrw := walkAt_rw h
    simp only [hway, and_imp] at hrw
    exact hrw.trans (and_iff_right rfl).symm

theorem touch_of_allowed (hv : Canonical v) (h : allowed write l.machine.tables.mem cr3 v = true) :
    touch write cr3 v l = .ok l := by
  rw [touch, if_neg (not_not_intro hv), if_pos h]

/-- An access is allowed, or it is after a page fault. -/
theorem touch_cases (h : touch write cr3 v l = .ok l') :
    Canonical v ∧ allowed write l'.machine.tables.mem cr3 v = true ∧
      (l' = l ∨ allowed write l.machine.tables.mem cr3 v = false ∧
        ∃ ptr m, l.machine.onPageFault v = .ok (ptr, m) ∧ l' = { l with machine := m }) := by
  unfold touch at h
  split at h
  case isTrue => cases h
  case isFalse hv =>
    refine ⟨not_not.mp hv, ?_⟩
    split at h
    case isTrue hallowed =>
      cases h
      exact ⟨hallowed, .inl rfl⟩
    case isFalse hnot =>
      obtain ⟨⟨ptr, m⟩, hfault, h⟩ := bind_eq_ok.mp h
      dsimp only at h
      split at h
      case isFalse => cases h
      case isTrue hallowed =>
        cases h
        exact ⟨hallowed, .inr ⟨Bool.not_eq_true _ ▸ hnot, ptr, m, hfault, rfl⟩⟩

theorem touch_eq_ok_iff (hv : ¬ Machine.HeapWindow v) : touch write cr3 v l = .ok l' ↔
    (Canonical v ∧ allowed write l.machine.tables.mem cr3 v = true) ∧ l' = l := by
  constructor
  · intro h
    obtain ⟨hcanonical, hallowed, rfl | ⟨-, ptr, m, hfault, -⟩⟩ := touch_cases h
    · exact ⟨⟨hcanonical, hallowed⟩, rfl⟩
    · exact absurd (Machine.onPageFault_eq_ok hfault).1 hv
  · rintro ⟨⟨hcanonical, hallowed⟩, rfl⟩
    exact touch_of_allowed hcanonical hallowed

theorem access_of_allowed (h : ∀ k < n, Canonical (wadd v k) ∧
      allowed write l.machine.tables.mem cr3 (wadd v k) = true) :
    access write cr3 v n l = .ok l := by
  induction n with
  | zero => rfl
  | succ n ih =>
    obtain ⟨hcanonical, hallowed⟩ := h n (Nat.lt_succ_self n)
    rw [access, ih fun k hk => h k (Nat.lt_succ_of_lt hk), ok_bind]
    exact touch_of_allowed hcanonical hallowed

/-- Accesses to a range outside the heap. -/
theorem access_eq_ok_iff (hv : ∀ k < n, ¬ Machine.HeapWindow (wadd v k)) :
    access write cr3 v n l = .ok l' ↔ (∀ k < n, Canonical (wadd v k) ∧
      allowed write l.machine.tables.mem cr3 (wadd v k) = true) ∧ l' = l := by
  constructor
  · intro h
    induction n generalizing l' with
    | zero => exact ⟨fun k hk => absurd hk (Nat.not_lt_zero k), (Except.ok.inj h).symm⟩
    | succ n ih =>
      obtain ⟨l₁, hfirst, hlast⟩ := bind_eq_ok.mp h
      obtain ⟨hall, rfl⟩ := ih (fun k hk => hv k (Nat.lt_succ_of_lt hk)) hfirst
      obtain ⟨hnext, rfl⟩ := (touch_eq_ok_iff (hv n (Nat.lt_succ_self n))).mp hlast
      refine ⟨fun k hk => ?_, rfl⟩
      rcases Nat.lt_succ_iff_lt_or_eq.mp hk with hk | rfl
      · exact hall k hk
      · exact hnext
  · rintro ⟨hall, rfl⟩
    exact access_of_allowed hall

end Access

/-! ## Calls for pages -/

/-- The flags of a writable and executable page of 4 KiB. -/
def pageFlags (user : Bool) : ℕ := flagBits true user true true false false

/-- The call for such a page. -/
def pageCall (user : Bool) (v frame : ℕ) : Call :=
  ⟨v, frame, true, user, true, true, false, false, 0⟩

/-- `n` calls of `pmm_alloc` for a page. -/
def takePages : ℕ → Pmm → Except Halt (List (Request × ℕ) × Pmm)
  | 0, p => .ok ([], p)
  | n + 1, p => do
    let (gs, p) ← takePages n p
    let (ptr, p) ← pmmAlloc p 4096
    return (gs ++ [(.alloc 4096, ptr)], p)

/-- The pages that are asked for, in the order in which they are asked for first. -/
def addPage (pages : List ℕ) (π : ℕ) : List ℕ := if π ∈ pages then pages else pages ++ [π]

/-- The pages that a round for `v` maps, if `T` is the translation before all rounds. -/
def addMissing (T : ℕ → Option ℕ) (pages : List ℕ) (v : ℕ) : List ℕ :=
  if (T v).isSome then pages else addPage pages (v / 4096)

/-- The translation after the rounds: `pages[i]` has the frame of the `i`-th grant. -/
def cell (T : ℕ → Option ℕ) (pages : List ℕ) (granted : List (Request × ℕ)) (a : ℕ) : Option ℕ :=
  (T a).or (((pages.zip granted).lookup (a / 4096)).map fun g => phys g.2 + a % 4096)

theorem phys_lt (ptr : ℕ) : phys ptr < 2 ^ 47 := by
  rw [phys_eq_mod]
  exact Nat.mod_lt _ (by decide)

variable {p p' : Pmm} {size ptr cr3 a : ℕ} {l l' : Loading} {granted : List (Request × ℕ)}
  {x : Request × ℕ}

/-- A pointer to pages is a multiple of 4 KiB. -/
theorem phys_dvd (h : pmmAlloc p size = .ok (ptr, p')) : 4096 ∣ phys ptr := by
  obtain ⟨c, rfl, _⟩ := allocFrom_grant h
  rw [phys_virt]
  omega

theorem alloc_eq_ok (h : l.alloc size = .ok (ptr, l')) :
    ∃ pmm, pmmAlloc l.machine.pmm size = .ok (ptr, pmm) ∧
      l' = ⟨{ l.machine with pmm := pmm }, l.granted ++ [(.alloc size, ptr)]⟩ := by
  obtain ⟨⟨_, pmm⟩, halloc, h⟩ := bind_eq_ok.mp h
  cases h
  exact ⟨pmm, halloc, rfl⟩

theorem map_eq_ok {virt frame flags : ℕ} (h : l.map cr3 virt frame flags = .ok l') :
    ∃ tables, mapPage l.machine.tables cr3 virt frame flags 0 = .ok tables ∧
      l' = { l with machine := { l.machine with tables := tables } } := by
  obtain ⟨tables, hmap, h⟩ := bind_eq_ok.mp h
  cases h
  exact ⟨tables, hmap, rfl⟩

section Call

variable {cr3 v frame : ℕ} {user : Bool}

/-- A round leaves everything as it is, or it is granted a page and maps it. -/
theorem backPage_cases {l l' : Loading} (h : backPage (pageFlags user) cr3 v l = .ok l') :
    pagingLookup l.machine.tables.mem cr3 v ≠ minusOne ∧ l' = l ∨
      ∃ ptr pmm tables, pagingLookup l.machine.tables.mem cr3 v = minusOne ∧
        pmmAlloc l.machine.pmm 4096 = .ok (ptr, pmm) ∧
        (pageCall user v (phys ptr)).run l.machine.tables cr3 = .ok tables ∧
        l' = ⟨⟨pmm, tables, l.machine.pml4⟩, l.granted ++ [(.alloc 4096, ptr)]⟩ := by
  unfold backPage at h
  split at h
  case isFalse hmapped =>
    cases h
    exact .inl ⟨hmapped, rfl⟩
  case isTrue hnone =>
    obtain ⟨⟨ptr, l₁⟩, hgrant, h⟩ := bind_eq_ok.mp h
    obtain ⟨pmm, halloc, rfl⟩ := alloc_eq_ok hgrant
    obtain ⟨tables, hmap, rfl⟩ := map_eq_ok h
    exact .inr ⟨ptr, pmm, tables, hnone, halloc, hmap, rfl⟩

theorem pageCall_size (user : Bool) (v frame : ℕ) : (pageCall user v frame).size = .s4K := by
  rw [Call.size_eq]
  rfl

end Call

section Page

variable {c : Call} {cr3 : ℕ} (hsize : c.size = .s4K)

include hsize

/-- The page of the call, and all others. -/
theorem page_maps {s s' : Tables} (hwf : WellFormed s cr3) (hlegal : c.Legal) (hdvd : 4096 ∣ c.phys)
    (hnh : ∀ σ, σ ≠ [] → σ <:+ (path c.virt).tail → present (entryAt s.mem cr3 σ) = true →
      huge (entryAt s.mem cr3 σ) = false)
    (hr : c.run s cr3 = .ok s') :
    WellFormed s' cr3 ∧ Maps c (entryAt s.mem cr3) (entryAt s'.mem cr3) ∧
      ∀ w, Canonical w → translate s'.mem cr3 w =
        if w / 4096 = c.virt / 4096 then some (c.phys + w % 4096) else translate s.mem cr3 w := by
  have hframe : c.frame = c.phys := by
    rw [Call.frame, hsize]
    exact Nat.div_mul_cancel hdvd
  rw [← Call.slot_4K hsize] at hnh
  obtain ⟨hwf', hmaps⟩ := mapPage_spec hwf (hlegal.phys.trans (by decide)) hnh hr
  have hcov : ∀ w, c.Covers w ↔ w / 4096 = c.virt / 4096 := by
    intro w
    rw [Call.Covers, hsize]
    rfl
  refine ⟨hwf', hmaps, fun w hw => ?_⟩
  split
  case isTrue hpage =>
    rw [translate_self hmaps hlegal hw ((hcov w).mpr hpage), hframe, hsize]
    rfl
  case isFalse hpage => exact translate_other hmaps hlegal hw hnh (mt (hcov w).mp hpage)

variable {mem mem' : ℕ → ℕ → ℕ} (hm : Maps c (entryAt mem cr3) (entryAt mem' cr3)) {σ : List ℕ}
  (hσ : σ ≠ []) (hlen : σ.length ≤ 4)

include hm hσ hlen

/-- An entry that is not the one of the page stays read-only, or not. -/
theorem readOnly_other (hrw : c.rw = true) (hleaf : σ ≠ c.slot) :
    ReadOnly mem' cr3 σ ↔ ReadOnly mem cr3 σ := by
  unfold ReadOnly
  by_cases hs : σ <:+ c.slot
  · have hup := hm.upper σ hσ (suffix_slot hs hleaf)
    rw [hup.present, hup.rw, hrw]
    cases present (entryAt mem cr3 σ) with
    | true => exact Iff.rfl
    | false => exact iff_of_false (fun h => Bool.noConfusion h.2) fun h => Bool.noConfusion h.1
  · rw [hm.other σ hlen hs fun hs' => hs ?_]
    rw [hs'.eq_of_length_le (by rw [Call.slot_4K hsize, Call.path_length]; exact hlen)]

/-- A call for a writable page makes no entry read-only. -/
theorem readOnly_of_maps (hrw : c.rw = true) (h : ReadOnly mem' cr3 σ) : ReadOnly mem cr3 σ := by
  by_cases hleaf : σ = c.slot
  · subst hleaf
    rw [ReadOnly, hm.leaf, Call.rw_leaf, hrw] at h
    exact Bool.noConfusion h.2
  · exact (readOnly_other hsize hm hσ hlen hrw hleaf).mp h

/-- If the page was not mapped before, it makes no read-only entry writable either. -/
theorem readOnly_map (hrw : c.rw = true) (hnone : translate mem cr3 c.virt = none) :
    ReadOnly mem' cr3 σ ↔ ReadOnly mem cr3 σ := by
  refine ⟨readOnly_of_maps hsize hm hσ hlen hrw, fun h => ?_⟩
  refine (readOnly_other hsize hm hσ hlen hrw fun hleaf => ?_).mpr h
  rw [ReadOnly, hleaf, Call.slot_4K hsize, path, ← List.append_nil (indices c.virt).reverse,
    last_of_walk_none (by simp [indices])
      (by rw [← walk_eq]; exact translate_eq_none.mp hnone)] at h
  exact Bool.noConfusion h.1

end Page

/-! ## All rounds -/

theorem takePages_length {n : ℕ} (h : takePages n p = .ok (granted, p')) : granted.length = n := by
  induction n generalizing granted p' with
  | zero =>
    cases h
    rfl
  | succ n ih =>
    obtain ⟨⟨gs, p₁⟩, h₁, h⟩ := bind_eq_ok.mp h
    obtain ⟨⟨ptr, p₂⟩, _, h⟩ := bind_eq_ok.mp h
    cases h
    rw [List.length_append, ih h₁]
    rfl

/-- The bytes of a granted page. -/
theorem mem_handed_page : a ∈ handed (.alloc 4096, ptr) ↔ phys ptr ≤ a ∧ a < phys ptr + 4096 := by
  have hsize : align 4096 4096 = 4096 := by decide
  show a ∈ Set.Ico _ (_ + align 4096 4096) ↔ _
  rw [hsize, Set.mem_Ico]

/-- Pages that are granted one by one. -/
structure Grants (granted : List (Request × ℕ)) : Prop where
  pages : ∀ x ∈ granted, x = (.alloc 4096, x.2) ∧ 4096 ∣ phys x.2
  apart : granted.Pairwise fun x y => Disjoint (handed x) (handed y)

/-- Between the states `p` and `p'` of the allocator the pages `granted` were handed out, and
perhaps others. -/
structure Held (p : Pmm) (granted : List (Request × ℕ)) (p' : Pmm) : Prop where
  reach : p'.Mapped
  left : p'.freeBytes ⊆ p.freeBytes
  took : ∀ x ∈ granted, handed x ⊆ p.freeBytes
  gone : ∀ x ∈ granted, Disjoint (handed x) p'.freeBytes
  grants : Grants granted

section Held

variable {p p₁ p₂ : Pmm} {granted : List (Request × ℕ)} {size ptr : ℕ}

theorem Held.refl (h : p.Mapped) : Held p [] p where
  reach := h
  left := Set.Subset.rfl
  took x hx := by cases hx
  gone x hx := by cases hx
  grants := ⟨fun x hx => (by cases hx), List.Pairwise.nil⟩

/-- Memory that somebody else is granted. -/
theorem Held.other (h : Held p granted p₁) (halloc : pmmAlloc p₁ size = .ok (ptr, p₂)) :
    Held p granted p₂ := by
  obtain ⟨hm, -, hleft⟩ := step_takes p₁ (.alloc size) ptr p₂ h.reach trivial halloc
  have hsub : p₂.freeBytes ⊆ p₁.freeBytes := fun a ha => (hleft ha).1
  exact ⟨hm, hsub.trans h.left, h.took, fun x hx => (h.gone x hx).mono_right hsub, h.grants⟩

/-- One more page. -/
theorem Held.alloc (h : Held p granted p₁) (halloc : pmmAlloc p₁ 4096 = .ok (ptr, p₂)) :
    Held p (granted ++ [(.alloc 4096, ptr)]) p₂ := by
  obtain ⟨-, htook, hleft⟩ := step_takes p₁ (.alloc 4096) ptr p₂ h.reach trivial halloc
  have h₂ := h.other halloc
  have hmem : ∀ {P : Request × ℕ → Prop}, (∀ x ∈ granted, P x) → P (.alloc 4096, ptr) →
      ∀ x ∈ granted ++ [(.alloc 4096, ptr)], P x := by
    intro P hold hnew x hx
    rcases List.mem_append.mp hx with hx | hx
    · exact hold x hx
    · rw [List.mem_singleton.mp hx]
      exact hnew
  refine ⟨h₂.reach, h₂.left, hmem h.took (htook.trans h.left), hmem h₂.gone ?_,
    hmem h.grants.pages ⟨rfl, phys_dvd halloc⟩, ?_⟩
  · exact Set.disjoint_left.mpr fun a ha hfree => (hleft hfree).2 ha
  · refine List.pairwise_append.mpr ⟨h.grants.apart, List.pairwise_singleton _ _, ?_⟩
    intro x hx y hy
    obtain rfl := List.mem_singleton.mp hy
    exact (h.gone x hx).mono_right htook

theorem takePages_held {n : ℕ} (hm : p.Mapped) (h : takePages n p = .ok (granted, p₁)) :
    Held p granted p₁ := by
  induction n generalizing granted p₁ with
  | zero =>
    cases h
    exact Held.refl hm
  | succ n ih =>
    obtain ⟨⟨gs, p₂⟩, h₂, h⟩ := bind_eq_ok.mp h
    obtain ⟨⟨ptr, p₃⟩, halloc, h⟩ := bind_eq_ok.mp h
    cases h
    exact (ih h₂).alloc halloc

end Held

/-- A byte of a granted page has its grant's address above the page offset. -/
theorem Grants.mem_handed (h : Grants granted) (hx : x ∈ granted) {p : ℕ} :
    p ∈ handed x ↔ phys x.2 = alignDown p 4096 := by
  obtain ⟨heq, hdvd⟩ := h.pages x hx
  rw [heq, mem_handed_page]
  dsimp only
  unfold alignDown
  omega

theorem Grants.mem_offset (h : Grants granted) (hx : x ∈ granted) (a : ℕ) :
    phys x.2 + a % 4096 ∈ handed x := by
  have hdvd := (h.pages x hx).2
  rw [h.mem_handed hx]
  unfold alignDown
  omega

/-- No byte was granted for two pages. -/
theorem Grants.zip_inj {pages : List ℕ} (h : Grants granted) {x y : ℕ × Request × ℕ} {p : ℕ}
    (hx : x ∈ pages.zip granted) (hy : y ∈ pages.zip granted) (hpx : p ∈ handed x.2)
    (hpy : p ∈ handed y.2) : x = y := by
  obtain ⟨i, hi, rfl⟩ := List.mem_iff_getElem.mp hx
  obtain ⟨j, hj, rfl⟩ := List.mem_iff_getElem.mp hy
  rw [List.length_zip] at hi hj
  rw [List.getElem_zip] at hpx hpy
  have hapart := List.pairwise_iff_getElem.mp h.apart
  rcases Nat.lt_trichotomy i j with hlt | rfl | hlt
  · exact absurd hpy (Set.disjoint_left.mp (hapart i j (by omega) (by omega) hlt) hpx)
  · rfl
  · exact absurd hpx (Set.disjoint_left.mp (hapart j i (by omega) (by omega) hlt) hpy)

/-- Where a page is not mapped, nothing in it is. -/
theorem translate_page_none {mem : ℕ → ℕ → ℕ} {v : ℕ} (ha : Canonical a) (hv : Canonical v)
    (hpage : a / 4096 = v / 4096) (hnone : translate mem cr3 v = none) :
    translate mem cr3 a = none := by
  by_contra hsome
  exact (translate_path ((path_inj ha hv).mpr hpage)).mp hsome hnone

section Cell

variable {T : ℕ → Option ℕ} {pages : List ℕ} {granted : List (Request × ℕ)} {a v : ℕ}

section

variable (hlen : granted.length = pages.length)

include hlen

theorem lookup_zip_isSome : ((pages.zip granted).lookup v).isSome = true ↔ v ∈ pages := by
  rw [List.lookup_isSome_iff]
  constructor
  · rintro ⟨x, hx, heq⟩
    rw [eq_of_beq heq]
    exact (List.of_mem_zip hx).1
  · intro hv
    rw [← List.map_fst_zip hlen.ge] at hv
    obtain ⟨x, hx, rfl⟩ := List.mem_map.mp hv
    exact ⟨x, hx, beq_self_eq_true _⟩

theorem cell_isSome :
    (cell T pages granted a).isSome = true ↔ (T a).isSome = true ∨ a / 4096 ∈ pages := by
  rw [cell, Option.isSome_or, Bool.or_eq_true, Option.isSome_map, lookup_zip_isSome hlen]

theorem addMissing_of_cell (h : (cell T pages granted v).isSome = true) :
    addMissing T pages v = pages := by
  unfold addMissing addPage
  split
  case isTrue => rfl
  case isFalse hold => rw [if_pos (((cell_isSome hlen).mp h).resolve_left hold)]

theorem addMissing_of_cell_none (h : cell T pages granted v = none) :
    addMissing T pages v = pages ++ [v / 4096] := by
  have hnot : ¬ (cell T pages granted v).isSome = true := by simp [h]
  obtain ⟨hold, hnew⟩ := not_or.mp (mt (cell_isSome hlen).mpr hnot)
  rw [addMissing, if_neg hold, addPage, if_neg hnew]

/-- One more page with its grant. -/
theorem cell_snoc (g : Request × ℕ) : cell T (pages ++ [v / 4096]) (granted ++ [g]) a =
      (cell T pages granted a).or (if a / 4096 = v / 4096 then some (phys g.2 + a % 4096)
        else none) := by
  rw [cell, cell, List.zip_append hlen.symm, List.lookup_append, Option.map_or, Option.or_assoc]
  congr 2
  by_cases h : a / 4096 = v / 4096
  · simp [h]
  · simp [h]

/-- A page that was not mapped gets its frame. -/
theorem cell_page {D : ℕ → Prop} {mem mem' : ℕ → ℕ → ℕ} {cr3 ptr : ℕ} (hD : ∀ a, D a → Canonical a)
    (hframes : ∀ a, D a → translate mem cr3 a = cell T pages granted a) (hv : Canonical v)
    (hnone : translate mem cr3 v = none) (hmap : ∀ a, Canonical a → translate mem' cr3 a =
      if a / 4096 = v / 4096 then some (phys ptr + a % 4096) else translate mem cr3 a) (ha : D a) :
    translate mem' cr3 a =
      cell T (pages ++ [v / 4096]) (granted ++ [(.alloc 4096, ptr)]) a := by
  rw [hmap a (hD a ha), cell_snoc hlen, ← hframes a ha]
  split
  case isTrue heq => rw [translate_page_none (hD a ha) hv heq hnone, Option.none_or]
  case isFalse => rw [Option.or_none]

end

/-- Granted frames are apart from each other and from what was mapped outside of free memory. -/
theorem cell_separate {D : ℕ → Prop} {pmm pmm' : Pmm} (hm : pmm.Mapped)
    (htake : takePages pages.length pmm = .ok (granted, pmm'))
    (howned : ∀ a p, D a → T a = some p → p ∉ pmm.freeBytes) (hsep : Mapping.Separate T D) :
    Mapping.Separate (cell T pages granted) D := by
  obtain ⟨-, -, hfree, -, hgrants⟩ := takePages_held hm htake
  -- a byte behind a granted page, with its grant
  have hgranted : ∀ {a p}, ((pages.zip granted).lookup (a / 4096)).map
      (fun g => phys g.2 + a % 4096) = some p → ∃ g, (a / 4096, g) ∈ pages.zip granted ∧
        p = phys g.2 + a % 4096 ∧ p ∈ handed g := by
    intro a p h
    obtain ⟨g, hg, rfl⟩ := Option.map_eq_some_iff.mp h
    obtain ⟨l₁, l₂, hl, -⟩ := List.lookup_eq_some_iff.mp hg
    have hmem : (a / 4096, g) ∈ pages.zip granted := by rw [hl]; simp
    exact ⟨g, hmem, rfl, hgrants.mem_offset (List.of_mem_zip hmem).2 a⟩
  intro a a' p ha ha' hp hp'
  rcases Option.or_eq_some_iff.mp hp with hp | ⟨-, hp⟩ <;>
    rcases Option.or_eq_some_iff.mp hp' with hp' | ⟨-, hp'⟩
  · exact hsep a a' p ha ha' hp hp'
  · obtain ⟨g, hmem, -, hin⟩ := hgranted hp'
    exact absurd (hfree g (List.of_mem_zip hmem).2 hin) (howned a p ha hp)
  · obtain ⟨g, hmem, -, hin⟩ := hgranted hp
    exact absurd (hfree g (List.of_mem_zip hmem).2 hin) (howned a' p ha' hp')
  · obtain ⟨g, hmem, hpg, hin⟩ := hgranted hp
    obtain ⟨g', hmem', hpg', hin'⟩ := hgranted hp'
    obtain ⟨hpage, rfl⟩ := Prod.mk.inj (hgrants.zip_inj hmem hmem' hin hin')
    omega

end Cell

/-- After a part of the rounds, from the machine `m` on: the pages `pages` have been mapped. -/
structure Backed (m : Machine) (cr3 : ℕ) (pages : List ℕ) (l : Loading) : Prop where
  wf : WellFormed l.machine.tables cr3
  pml4 : l.machine.pml4 = m.pml4
  noGiant : ∀ v, NoGiant m.tables.mem cr3 v → NoGiant l.machine.tables.mem cr3 v
  frames : ∀ a, Canonical a → translate l.machine.tables.mem cr3 a =
    cell (translate m.tables.mem cr3) pages l.granted a
  readOnly : ∀ σ, σ ≠ [] → σ.length ≤ 4 →
    (ReadOnly l.machine.tables.mem cr3 σ ↔ ReadOnly m.tables.mem cr3 σ)
  grants : takePages pages.length m.pmm = .ok (l.granted, l.machine.pmm)

section Backed

variable {m : Machine} {cr3 v : ℕ} {user : Bool} {pages : List ℕ} {l l' : Loading}

theorem Backed.refl (h : WellFormed m.tables cr3) : Backed m cr3 [] ⟨m, []⟩ where
  wf := h
  pml4 := rfl
  noGiant _ := id
  frames _ _ := Option.or_none.symm
  readOnly _ _ _ := Iff.rfl
  grants := rfl

theorem Backed.mapped (h : Backed m cr3 pages l) {a : ℕ} (ha : Canonical a) :
    (translate l.machine.tables.mem cr3 a).isSome = true ↔
      (translate m.tables.mem cr3 a).isSome = true ∨ a / 4096 ∈ pages := by
  rw [h.frames a ha, cell_isSome (takePages_length h.grants)]

theorem Backed.writable_iff (h : Backed m cr3 pages l) :
    Writable l.machine.tables.mem cr3 v ↔ Writable m.tables.mem cr3 v :=
  forall₃_congr fun σ hσ hs => not_congr (h.readOnly σ hσ hs.length_le)

/-- A page that was mapped in all rounds so far keeps its frame. -/
def Keeps (cr3 : ℕ) (l l' : Loading) : Prop :=
  ∀ a p, Canonical a → translate l.machine.tables.mem cr3 a = some p →
    translate l'.machine.tables.mem cr3 a = some p

theorem Keeps.trans {l₁ l₂ l₃ : Loading} (h : Keeps cr3 l₁ l₂) (h' : Keeps cr3 l₂ l₃) :
    Keeps cr3 l₁ l₃ := fun a p ha hp => h' a p ha (h a p ha hp)

/-- One round. -/
theorem Backed.round (h : Backed m cr3 pages l) (hv : Canonical v)
    (hng : NoGiant m.tables.mem cr3 v) (hr : backPage (pageFlags user) cr3 v l = .ok l') :
    Backed m cr3 (addMissing (translate m.tables.mem cr3) pages v) l' ∧ Keeps cr3 l l' := by
  have hlookup := (h.noGiant v hng).lookup_eq_minusOne
  have hlen := takePages_length h.grants
  rcases backPage_cases hr with ⟨hfound, rfl⟩ | ⟨ptr, pmm, tables, hnone, halloc, hmap, rfl⟩
  · refine ⟨?_, fun a p _ hp => hp⟩
    have hsome := Option.isSome_iff_ne_none.mpr (mt hlookup.mpr hfound)
    rw [h.frames v hv] at hsome
    rwa [addMissing_of_cell hlen hsome]
  · have hnone := hlookup.mp hnone
    have hsize := pageCall_size user v (phys ptr)
    obtain ⟨hwf, hmaps, htranslate⟩ := page_maps hsize h.wf ⟨hv, phys_lt ptr, rfl⟩
      (phys_dvd halloc)
      (fun σ hσ hs => pointers_of_translate_none hnone hσ (hs.trans (List.tail_suffix _))) hmap
    rw [addMissing_of_cell_none hlen ((h.frames v hv).symm.trans hnone)]
    constructor
    · constructor
      case wf => exact hwf
      case pml4 => exact h.pml4
      case noGiant => exact fun w hw => (h.noGiant w hw).maps hmaps hsize
      case frames =>
        exact fun a ha =>
          cell_page (D := Canonical) hlen (fun _ => id) h.frames hv hnone htranslate ha
      case readOnly =>
        intro σ hσ hlen
        rw [← h.readOnly σ hσ hlen]
        exact readOnly_map hsize hmaps hσ hlen rfl hnone
      case grants =>
        rw [List.length_append]
        exact bind_eq_ok.mpr ⟨_, h.grants, bind_eq_ok.mpr ⟨_, halloc, rfl⟩⟩
    · intro a p ha hp
      show translate tables.mem cr3 a = some p
      rw [htranslate a ha, if_neg, hp]
      intro heq
      rw [translate_page_none ha hv heq hnone] at hp
      cases hp

/-- A sequence of rounds. -/
theorem Backed.rounds {vs : List ℕ} (h : Backed m cr3 pages l)
    (hvs : ∀ v ∈ vs, Canonical v ∧ NoGiant m.tables.mem cr3 v)
    (hr : vs.foldlM (fun l v => backPage (pageFlags user) cr3 v l) l = .ok l') :
    Backed m cr3 (vs.foldl (addMissing (translate m.tables.mem cr3)) pages) l' ∧
      Keeps cr3 l l' := by
  induction vs generalizing pages l with
  | nil =>
    cases hr
    exact ⟨h, fun a p _ hp => hp⟩
  | cons v vs ih =>
    obtain ⟨l₁, hround, hr⟩ := bind_eq_ok.mp hr
    obtain ⟨hv, hng⟩ := hvs v List.mem_cons_self
    obtain ⟨h₁, hkeeps⟩ := h.round hv hng hround
    obtain ⟨h₂, hkeeps'⟩ := ih h₁ (fun w hw => hvs w (List.mem_cons_of_mem _ hw)) hr
    exact ⟨h₂, hkeeps.trans hkeeps'⟩

theorem mem_foldl_addMissing {T : ℕ → Option ℕ} {vs : List ℕ} {π : ℕ} :
    π ∈ vs.foldl (addMissing T) pages ↔ π ∈ pages ∨ ∃ v ∈ vs, T v = none ∧ v / 4096 = π := by
  have hadd : ∀ {pages v}, π ∈ addMissing T pages v ↔ π ∈ pages ∨ T v = none ∧ v / 4096 = π := by
    intro pages v
    unfold addMissing addPage
    split
    case isTrue hsome => simp [Option.isSome_iff_ne_none.mp hsome]
    case isFalse hnone =>
      rw [Option.not_isSome_iff_eq_none] at hnone
      split
      case isTrue hin => exact ⟨.inl, fun h => h.elim id fun h => h.2 ▸ hin⟩
      case isFalse => simp [hnone, eq_comm]
  induction vs generalizing pages with
  | nil => simp
  | cons v vs ih =>
    refine ih.trans ((or_congr_left hadd).trans ?_)
    simp [or_assoc]

/-- After the rounds every page that was asked for is mapped. -/
theorem Backed.rounds_mapped {vs : List ℕ}
    (h : Backed m cr3 (vs.foldl (addMissing (translate m.tables.mem cr3)) pages) l) {a : ℕ}
    (hvs : v ∈ vs) (hv : Canonical v) (ha : Canonical a) (hpage : a / 4096 = v / 4096) :
    (translate l.machine.tables.mem cr3 a).isSome = true := by
  refine (h.mapped ha).mpr ?_
  cases hT : translate m.tables.mem cr3 v with
  | none => exact .inr (mem_foldl_addMissing.mpr (.inr ⟨v, hvs, hT, hpage.symm⟩))
  | some p =>
    have hpath : path a = path v := (path_inj ha hv).mpr hpage
    refine .inl (Option.isSome_iff_ne_none.mpr ((translate_path hpath).mpr ?_))
    rw [hT]
    exact Option.some_ne_none p

end Backed

end NeptunOS.Loader
