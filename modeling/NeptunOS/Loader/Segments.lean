import Mathlib.Data.List.Nodup
import NeptunOS.Loader.Isolation

/-!
# The contents of a loaded program

The mapping loop goes through a segment in steps of 2 MiB and maps one page of 4 KiB in each, so
that most pages of a longer segment are never mapped and its `memset` faults. `Placed` says which
page gets which frame, `Filled` what the frames hold while the segments are loaded; the last step
maps the stack as one 2 MiB page, over whatever a segment has there.

`segments_loaded_iff` says when a segment is mapped where it is zeroed, and when the segments are
left with their bytes.
-/

namespace NeptunOS.Loader

open Radix Paging Stepwise Ledger Pmm Mapping

/-! ## What is asked for -/

/-- A byte that the segment is loaded to. -/
def Phdr.Covers (g : Phdr) (a : ℕ) : Prop :=
  g.pType = ptLoad ∧ g.pVaddr ≤ a ∧ a < g.pVaddr + max g.pMemsz g.pFilesz

instance (g : Phdr) (a : ℕ) : Decidable (g.Covers a) := inferInstanceAs (Decidable (_ ∧ _ ∧ _))

/-- What the segment has there: the bytes of the file, then zeros. -/
def Phdr.byteAt (g : Phdr) (a : ℕ) : UInt8 :=
  if a < g.pVaddr + g.pFilesz then g.file (a - g.pVaddr) else 0

/-- The last of the segments that cover an address gives its byte. -/
def contents (gs : List Phdr) (a : ℕ) : Option UInt8 :=
  gs.foldl (fun o g => if g.Covers a then some (g.byteAt a) else o) none

/-- Every page of the segment is looked up for it or for an earlier one. -/
def Demanded (pre : List Phdr) (g : Phdr) : Prop :=
  ∀ a, g.pVaddr ≤ a → a < g.pVaddr + g.pMemsz →
    ∃ h ∈ pre ++ [g], ∃ v ∈ h.rounds, v / 4096 = a / 4096

/-- Segments that overlap have the same bytes there. -/
def Consistent (gs : List Phdr) : Prop :=
  gs.Pairwise fun g h => ∀ a, g.Covers a → h.Covers a → h.byteAt a = g.byteAt a

/-- What physical memory holds after the segments, if page `x.1` has the frame of the grant
`x.2` for each `x` in `frames`. -/
def shown (frames : List (ℕ × Request × ℕ)) (gs : List Phdr) (b : Bytes) (p : ℕ) : UInt8 :=
  match frames.find? fun x => decide (phys x.2.2 = alignDown p 4096) with
  | none => b p
  | some x => (contents gs (x.1 * 4096 + p % 4096)).getD (b p)

/-- Where a segment lies in the 2 MiB of the stack, the memory under the stack's page was granted
and holds the segment's bytes. This is so if no segment lies there. -/
def StackAgrees (m : Machine) (cr3 : ℕ) (elf : Elf) (b : Bytes) : Prop :=
  ∀ taken p ptr p', takePages (asked m cr3 elf.addr elf.phdrs).length m.pmm = .ok (taken, p) →
    pmmAlloc p userStackSize = .ok (ptr, p') →
    ∀ g ∈ elf.phdrs, ∀ a q, g.Covers a → a / 2 ^ 21 = vstack / 2 ^ 21 →
      q = alignDown (phys ptr) (2 ^ 21) + a % 2 ^ 21 →
      (phys ptr ≤ q ∨ ∃ x ∈ lowGrants (asked m cr3 elf.addr elf.phdrs) taken, q ∈ handed x) ∧
        shown (lowFrames (asked m cr3 elf.addr elf.phdrs) taken) elf.phdrs b q = g.byteAt a

/-! ## What is seen -/

/-- The state when the `memset` of `g` is reached, after the segments `pre`. -/
def AtMemset (m : Machine) (cr3 : ℕ) (elf : Elf) (b : Bytes) (pre : List Phdr) (g : Phdr)
    (l : Loading) : Prop :=
  ∃ l₀ l₁ b₁ l₂ l₃, start m cr3 elf = .ok l₀ ∧ loadSegments cr3 pre l₀ b = .ok (l₁, b₁) ∧
    access false l₁.machine.pml4 g.addr 4 l₁ = .ok l₂ ∧
    access false l₂.machine.pml4 g.addr 0x30 l₂ = .ok l₃ ∧ mapSegment cr3 g l₃ = .ok l

/-- Every address of the segment has a frame that was granted to the loader. -/
def FullyMapped (cr3 : ℕ) (g : Phdr) (l : Loading) : Prop :=
  ∀ a, g.pVaddr ≤ a → a < g.pVaddr + g.pMemsz →
    ∃ p, translate l.machine.tables.mem cr3 a = some p ∧ ∃ x ∈ l.granted, p ∈ handed x

/-- The bytes seen under `cr3`. -/
def seen (cr3 : ℕ) (l : Loading) (b : Bytes) (a : ℕ) : Option UInt8 :=
  see (translate l.machine.tables.mem cr3) b a

/-- No segment changes what is seen of the segments before it. -/
def Unchanged (m : Machine) (cr3 : ℕ) (elf : Elf) (b : Bytes) : Prop :=
  ∀ pre g post l₀ l b₁ l' b₂, elf.phdrs = pre ++ g :: post → start m cr3 elf = .ok l₀ →
    loadSegments cr3 pre l₀ b = .ok (l, b₁) → loadSegment cr3 g l b₁ = .ok (l', b₂) →
    ∀ h ∈ pre, ∀ a, h.Covers a → seen cr3 l' b₂ a = seen cr3 l b₁ a

/-- All segments are seen with their bytes, in frames that were granted to the loader. -/
def Holds (cr3 : ℕ) (gs : List Phdr) (l : Loading) (b : Bytes) : Prop :=
  ∀ g ∈ gs, ∀ a, g.Covers a → ∃ p, translate l.machine.tables.mem cr3 a = some p ∧
    (∃ x ∈ l.granted, p ∈ handed x) ∧ b p = g.byteAt a

/-! ## Lists of segments -/

section Contents

variable {gs : List Phdr} {g : Phdr} {a : ℕ}

theorem contents_snoc (gs : List Phdr) (g : Phdr) (a : ℕ) :
    contents (gs ++ [g]) a = if g.Covers a then some (g.byteAt a) else contents gs a := by
  rw [contents, List.foldl_append]
  rfl

theorem contents_isSome : (contents gs a).isSome = true ↔ ∃ g ∈ gs, g.Covers a := by
  induction gs using List.reverseRecOn with
  | nil => simp [contents]
  | append_singleton gs g ih =>
    rw [contents_snoc]
    split
    case isTrue hc => exact iff_of_true rfl ⟨g, by simp, hc⟩
    case isFalse hc =>
      rw [ih]
      simp [hc, or_and_right, exists_or]

/-- Consistent segments have the bytes that they are left with. -/
theorem Consistent.contents_eq (h : Consistent gs) (hg : g ∈ gs) (ha : g.Covers a) :
    contents gs a = some (g.byteAt a) := by
  induction gs using List.reverseRecOn with
  | nil => cases hg
  | append_singleton gs k ih =>
    obtain ⟨hgs, -, hlast⟩ := List.pairwise_append.mp h
    rw [contents_snoc]
    rcases List.mem_append.mp hg with hg | hg
    · split
      case isTrue hk => rw [hlast g hg k (List.mem_singleton_self k) a ha hk]
      case isFalse => exact ih hgs hg
    · obtain rfl := List.mem_singleton.mp hg
      rw [if_pos ha]

theorem Phdr.Covers.lt (hg : g.Low) (h : g.Covers a) : a < 2 ^ 47 := by
  have hext := hg h.1
  have := h.2.1
  have := h.2.2
  omega

theorem mem_touched {v n : ℕ} (h : a ∈ touched v n) : InHeap a :=
  of_decide_eq_true (List.mem_filter.mp h).2

/-- In the lower half the pages are those of the mapping loops. -/
theorem mem_asked {m : Machine} {cr3 addr : ℕ} (hcr3 : InHeap cr3) (ha : a < 2 ^ 47)
    (htype : g.pType = ptLoad) :
    a / 4096 ∈ (touched g.addr 4 ++ (touched g.addr 0x30 ++ g.rounds)).foldl
        (addMissing (before m)) (asked m cr3 addr gs) ↔
      ∃ h ∈ gs ++ [g], ∃ v ∈ h.rounds, v / 4096 = a / 4096 := by
  rw [asked, ← List.foldl_append, mem_foldl_addMissing]
  constructor
  · rintro (h | ⟨v, hv, -, heq⟩)
    · cases h
    · have hheap : ¬ InHeap v := by unfold InHeap; omega
      have htouched : ∀ {w n}, v ∉ touched w n := fun h => hheap (mem_touched h)
      simp only [List.mem_append, List.mem_cons, List.mem_flatMap, htouched, false_or,
        or_false] at hv
      rcases hv with (rfl | ⟨h, hh, hv⟩) | hv
      · exact absurd hcr3 hheap
      · refine ⟨h, List.mem_append_left _ hh, v, ?_, heq⟩
        rw [Phdr.asks] at hv
        split at hv
        · simpa [htouched] using hv
        · simp [htouched] at hv
      · exact ⟨g, by simp, v, hv, heq⟩
  · rintro ⟨h, hh, v, hv, heq⟩
    have hlow : before m v = none := if_pos (by omega)
    refine .inr ⟨v, ?_, hlow, heq⟩
    rcases List.mem_append.mp hh with hh | hh
    · have hload : h.pType = ptLoad := by
        by_contra hne
        rw [Phdr.rounds, if_neg hne] at hv
        cases hv
      have hasks : v ∈ h.asks := by
        rw [Phdr.asks, if_pos hload]
        simp [hv]
      simp only [List.mem_append, List.mem_flatMap]
      exact .inl (.inr ⟨h, hh, hasks⟩)
    · obtain rfl := List.mem_singleton.mp hh
      simp [hv]

end Contents

/-! ## Frames -/

section Placed

variable {m : Machine} {cr3 v a p : ℕ} {pages : List ℕ} {taken : List (Request × ℕ)} {l : Loading}

theorem addMissing_nodup {T : ℕ → Option ℕ} (h : pages.Nodup) (v : ℕ) :
    (addMissing T pages v).Nodup := by
  unfold addMissing addPage
  split
  case isTrue => exact h
  case isFalse =>
    split
    case isTrue => exact h
    case isFalse hnew => exact List.Nodup.append h (List.nodup_singleton _) (by simpa using hnew)

theorem asked_nodup (m : Machine) (cr3 addr : ℕ) (gs : List Phdr) :
    (asked m cr3 addr gs).Nodup := by
  unfold asked
  generalize cr3 :: touched addr 0x3a ++ gs.flatMap Phdr.asks = vs
  induction vs using List.reverseRecOn with
  | nil => exact List.nodup_nil
  | append_singleton vs v ih =>
    rw [List.foldl_append]
    exact addMissing_nodup ih v

section

variable (h : Placed m cr3 pages taken l)

include h

theorem Placed.mapped_iff (ha : a < 2 ^ 47) :
    (translate l.machine.tables.mem cr3 a).isSome = true ↔ a / 4096 ∈ pages := by
  rw [h.frames a (.inl ha), cell_isSome (takePages_length h.takes), before, if_pos ha]
  simp

/-- Different addresses have different frames. -/
theorem Placed.separate (hm : m.pmm.Mapped) :
    Separate (translate l.machine.tables.mem cr3) (· < 2 ^ 47) := by
  have hnone : ∀ a p, a < 2 ^ 47 → before m a ≠ some p := fun a p ha hp => by
    rw [before, if_pos ha] at hp
    cases hp
  have hcell := cell_separate hm h.takes (fun a p ha hp => absurd hp (hnone a p ha))
    fun a a' p ha _ hp => absurd hp (hnone a p ha)
  intro a a' p ha ha' hp hp'
  exact hcell a a' p ha ha' ((h.frames a (.inl ha)).symm.trans hp)
    ((h.frames a' (.inl ha')).symm.trans hp')

/-- Stores to mapped addresses of the lower half. -/
theorem Placed.store_apply (hm : m.pmm.Mapped) {n : ℕ} {b : Bytes} (hv : n = 0 ∨ v + n ≤ 2 ^ 47)
    (src : ℕ → UInt8) (ha : a < 2 ^ 47) (hp : translate l.machine.tables.mem cr3 a = some p) :
    store l.machine.tables.mem cr3 v src n b p =
      if v ≤ a ∧ a < v + n then src (a - v) else b p := by
  refine put_apply (h.separate hm) (fun k hk => wadd_of_lt (by omega)) (fun k hk => ?_) ha hp
  omega

theorem Placed.low_frame (hnodup : pages.Nodup) {x : ℕ × Request × ℕ}
    (hx : x ∈ lowFrames pages taken) (ha : a / 4096 = x.1) :
    translate l.machine.tables.mem cr3 a = some (phys x.2.2 + a % 4096) := by
  obtain ⟨hzip, hlow⟩ := List.mem_filter.mp hx
  have hlt : a < 2 ^ 47 := by
    have := of_decide_eq_true hlow
    omega
  have hlen := takePages_length h.takes
  rw [h.frames a (.inl hlt), cell, before, if_pos hlt, Option.none_or, ha]
  obtain ⟨g, hg⟩ := Option.isSome_iff_exists.mp
    ((lookup_zip_isSome hlen).mpr (List.of_mem_zip hzip).1)
  obtain ⟨l₁, l₂, hl, -⟩ := List.lookup_eq_some_iff.mp hg
  have hmem : (x.1, g) ∈ pages.zip taken := by rw [hl]; simp
  have hkeys : ((pages.zip taken).map Prod.fst).Nodup := by rwa [List.map_fst_zip hlen.ge]
  obtain rfl := congrArg Prod.snd (List.inj_on_of_nodup_map hkeys hmem hzip rfl)
  rw [hg]
  rfl

end

end Placed

/-! ## Contents -/

/-- While the segments are loaded: they are mapped, and mapped bytes that no segment covers are
those from before. -/
structure Filled (cr3 : ℕ) (b : Bytes) (gs : List Phdr) (l : Loading) (b' : Bytes) : Prop where
  covered : ∀ g ∈ gs, ∀ a, g.Covers a → (translate l.machine.tables.mem cr3 a).isSome = true
  bytes : ∀ a, a < 2 ^ 47 → ∀ p, translate l.machine.tables.mem cr3 a = some p →
    b' p = (contents gs a).getD (b p)
  rest : ∀ p, (∀ x ∈ l.granted, p ∉ handed x) → b' p = b p

section Filled

variable {m : Machine} {cr3 v : ℕ} {b b₁ b₂ : Bytes} {pages : List ℕ} {taken : List (Request × ℕ)}
  {gs : List Phdr} {g : Phdr} {l l' : Loading}

theorem Filled.kept (h : Filled cr3 b gs l b₁) (hlow : ∀ g ∈ gs, g.Low) (hk : LowKept cr3 l l') :
    Filled cr3 b gs l' b₁ where
  covered g hg a ha := by
    rw [hk.low a (ha.lt (hlow g hg))]
    exact h.covered g hg a ha
  bytes a ha p hp := h.bytes a ha p ((hk.low a ha).symm.trans hp)
  rest p hp := h.rest p fun x hx => hp x (hk.granted ▸ hx)

/-- A page that gets a frame had none: no segment covers it, and its bytes are untouched. -/
theorem Filled.round (h : Filled cr3 b gs l b₁) (hl : Placed m cr3 pages taken l)
    (hm : m.pmm.Mapped) (hlow : ∀ g ∈ gs, g.Low) (hv : v < 2 ^ 47)
    (hr : backPage segmentFlags cr3 v l = .ok l') : Filled cr3 b gs l' b₁ := by
  rw [segmentFlags_eq] at hr
  rcases backPage_cases hr with ⟨-, rfl⟩ | ⟨ptr, pmm, tables, hnone, halloc, hmap, rfl⟩
  · exact h
  · obtain ⟨-, -, htranslate⟩ := hl.round_maps hv halloc hmap
    have hnone := (hl.small.lookup_eq_minusOne hv).mp hnone
    have hheld := takePages_held hm hl.takes
    have hnew : ∀ x ∈ l.granted, ∀ p, p ∈ handed (.alloc 4096, ptr) → p ∉ handed x := by
      intro x hx p hp hin
      rw [hl.granted] at hx
      obtain ⟨y, hy, rfl⟩ := List.mem_map.mp hx
      have hfree := (step_takes _ (.alloc 4096) ptr pmm hheld.reach trivial halloc).2.1 hp
      have hgone := hheld.gone y.2 (List.of_mem_zip (List.mem_filter.mp hy).1).2
      exact Set.disjoint_left.mp hgone hin hfree
    constructor
    case covered =>
      intro g hg a ha
      show (translate tables.mem cr3 a).isSome = true
      rw [htranslate a (.inl (ha.lt (hlow g hg)))]
      split
      case isTrue => rfl
      case isFalse => exact h.covered g hg a ha
    case bytes =>
      intro a ha p hp
      change translate tables.mem cr3 a = some p at hp
      rw [htranslate a (.inl ha)] at hp
      split at hp
      case isTrue hpage =>
        obtain rfl := Option.some.inj hp
        have hcontents : contents gs a = none := by
          rw [← Option.not_isSome_iff_eq_none, contents_isSome]
          rintro ⟨g, hg, hc⟩
          have hsome := h.covered g hg a hc
          rw [translate_page_none (.inl ha) (.inl hv) hpage hnone] at hsome
          cases hsome
        rw [hcontents, Option.getD_none]
        refine h.rest _ fun x hx => hnew x hx _ (mem_handed_page.mpr ⟨Nat.le_add_right _ _, ?_⟩)
        omega
      case isFalse => exact h.bytes a ha p hp
    case rest => exact fun p hp => h.rest p fun x hx => hp x (List.mem_append_left _ hx)

/-- `memset` and `memcpy` of a segment that is mapped. -/
theorem Filled.fill (h : Filled cr3 b gs l b₁) {pages' : List ℕ} {taken' : List (Request × ℕ)}
    (hl : Placed m cr3 pages taken l) (hl' : Placed m cr3 pages' taken' l') (hk : LowKept cr3 l l')
    (hm : m.pmm.Mapped) (hlow : ∀ k ∈ gs ++ [g], k.Low) (htype : g.pType = ptLoad)
    (hmapped : ∀ a, g.Covers a → (translate l.machine.tables.mem cr3 a).isSome = true) :
    Filled cr3 b (gs ++ [g]) l' (store l'.machine.tables.mem cr3 g.pVaddr g.file g.pFilesz
      (store l.machine.tables.mem cr3 g.pVaddr (fun _ => 0) g.pMemsz b₁)) := by
  have hext := hlow g (by simp) htype
  have hmem : g.pMemsz = 0 ∨ g.pVaddr + g.pMemsz ≤ 2 ^ 47 := by omega
  have hfile : g.pFilesz = 0 ∨ g.pVaddr + g.pFilesz ≤ 2 ^ 47 := by omega
  constructor
  case covered =>
    intro k hk' a ha
    rw [hk.low a (ha.lt (hlow k hk'))]
    rcases List.mem_append.mp hk' with hk' | hk'
    · exact h.covered k hk' a ha
    · obtain rfl := List.mem_singleton.mp hk'
      exact hmapped a ha
  case bytes =>
    intro a ha p hp
    have hp₁ := (hk.low a ha).symm.trans hp
    rw [contents_snoc, hl'.store_apply hm hfile _ ha hp, hl.store_apply hm hmem _ ha hp₁]
    by_cases hc : g.Covers a
    · have hlo := hc.2.1
      have hhi := hc.2.2
      rw [if_pos hc, Option.getD_some, Phdr.byteAt]
      by_cases hin : a < g.pVaddr + g.pFilesz
      · rw [if_pos ⟨hlo, hin⟩, if_pos hin]
      · rw [if_neg (fun h => hin h.2), if_neg hin, if_pos ⟨hlo, by omega⟩]
    · have hout : ¬ (g.pVaddr ≤ a ∧ a < g.pVaddr + max g.pMemsz g.pFilesz) :=
        fun hin => hc ⟨htype, hin⟩
      rw [if_neg hc, if_neg (by omega), if_neg (by omega)]
      exact h.bytes a ha p hp₁
  case rest =>
    intro p hp
    -- all stores go to granted frames
    have hother : ∀ k, k < max g.pMemsz g.pFilesz →
        translate l'.machine.tables.mem cr3 (wadd g.pVaddr k) ≠ some p := by
      intro k hk hpk
      rw [wadd_of_lt (by omega)] at hpk
      obtain ⟨x, hx, hin⟩ := hl'.owned _ p (by omega) hpk
      exact hp x hx hin
    have hset : ∀ k < g.pMemsz, translate l.machine.tables.mem cr3 (wadd g.pVaddr k) ≠ some p := by
      intro j hj
      have hsum : wadd g.pVaddr j = g.pVaddr + j := wadd_of_lt (by omega)
      rw [← hk.low _ (by omega)]
      exact hother j (by omega)
    rw [store, store, put_apply_other fun k hk => hother k (by omega), put_apply_other hset]
    exact h.rest p fun x hx => hp x (hk.granted ▸ hx)

end Filled

/-! ## All segments -/

section Segments

variable {m : Machine} {cr3 : ℕ} {elf : Elf} {b b₁ b₂ : Bytes} {gs : List Phdr} {g : Phdr}
  {l l₀ l₁ l₂ l' : Loading}
variable {pre post : List Phdr}

/-- What holds after the segments `gs`. -/
def Stands (m : Machine) (cr3 addr : ℕ) (b : Bytes) (gs : List Phdr) (l : Loading) (b' : Bytes) :
    Prop :=
  (∃ taken, Placed m cr3 (asked m cr3 addr gs) taken l) ∧ Filled cr3 b gs l b'

/-- The state when the `memset` of a segment is reached. -/
theorem Stands.mapped (h : Stands m cr3 elf.addr b gs l b₁) (hm : m.pmm.Mapped)
    (hlow : ∀ k ∈ gs ++ [g], k.Low) (hnear : Near g.addr 0x30) (htype : g.pType = ptLoad)
    (hhead : access false l.machine.pml4 g.addr 4 l = .ok l₁)
    (hfields : access false l₁.machine.pml4 g.addr 0x30 l₁ = .ok l₂)
    (hmap : mapSegment cr3 g l₂ = .ok l') :
    (∃ taken, Placed m cr3 ((touched g.addr 4 ++ (touched g.addr 0x30 ++ g.rounds)).foldl
      (addMissing (before m)) (asked m cr3 elf.addr gs)) taken l') ∧ Filled cr3 b gs l' b₁ := by
  obtain ⟨⟨_, hl⟩, hfilled⟩ := h
  have hlow' : ∀ k ∈ gs, k.Low := fun k hk => hlow k (List.mem_append_left _ hk)
  obtain ⟨hkept, ⟨_, h₂⟩⟩ := hl.fields hnear hhead hfields
  rw [← List.append_assoc, List.foldl_append]
  exact @mapSegment_induct cr3 l₂ l' g
    (fun pages l => (∃ taken, Placed m cr3 pages taken l) ∧ Filled cr3 b gs l b₁) _ _
    (fun _ _ _ _ hv ⟨⟨_, hl⟩, hfilled⟩ hr => ⟨hl.round hv hr, hfilled.round hl hm hlow' hv hr⟩)
    htype (hlow g (by simp)) ⟨⟨_, h₂⟩, hfilled.kept hlow' hkept⟩ hmap

theorem Stands.segment (h : Stands m cr3 elf.addr b gs l b₁) (hm : m.pmm.Mapped)
    (hlow : ∀ k ∈ gs ++ [g], k.Low) (hnear : Near g.addr 0x30 ∧ Near g.source g.pFilesz)
    (hr : loadSegment cr3 g l b₁ = .ok (l', b₂)) : Stands m cr3 elf.addr b (gs ++ [g]) l' b₂ := by
  obtain ⟨_, hl⟩ := h.1
  refine ⟨?_, ?_⟩
  · rw [asked_snoc]
    exact hl.segment (hlow g (by simp)) hnear hr
  obtain ⟨l₁, hhead, ⟨htype, rfl, rfl⟩ | ⟨htype, l₂, l₃, l₄, hfields, hmap, hset, hcopy, rfl⟩⟩ :=
    loadSegment_cases hr
  · have hkept := (hl.read (.inr rfl) (hnear.1.mono (by decide)) hhead).1
    have h₁ := h.2.kept (fun k hk => hlow k (List.mem_append_left _ hk)) hkept
    have hout : ∀ a, ¬ g.Covers a := fun a ha => htype ha.1
    refine ⟨fun k hk a ha => ?_, fun a ha p hp => ?_, h₁.rest⟩
    · rcases List.mem_append.mp hk with hk | hk
      · exact h₁.covered k hk a ha
      · obtain rfl := List.mem_singleton.mp hk
        exact absurd ha (hout a)
    · rw [contents_snoc, if_neg (hout a)]
      exact h₁.bytes a ha p hp
  · have hext := hlow g (by simp) htype
    obtain ⟨⟨_, h₃⟩, hfilled⟩ := h.mapped hm hlow hnear.1 htype hhead hfields hmap
    obtain ⟨hzero, rfl⟩ := (h₃.set_iff (by omega)).mp hset
    obtain ⟨hkept, ⟨_, h₅⟩, hfile⟩ := h₃.copy hnear.2 (by omega) hcopy
    refine hfilled.fill h₃ h₅ hkept hm hlow htype fun a ha => ?_
    obtain ⟨k, rfl⟩ := Nat.exists_eq_add_of_le ha.2.1
    by_cases hin : k < g.pMemsz
    · exact hzero k hin
    · have := ha.2.2
      exact hfile k (by omega)

theorem start_stands (hf : FreshPage m cr3) (hnear : elf.Near) (b : Bytes)
    (hr : start m cr3 elf = .ok l) : Stands m cr3 elf.addr b [] l b :=
  ⟨start_placed hf hnear hr, fun g hg => (by cases hg), fun _ _ _ _ => rfl, fun _ _ => rfl⟩

theorem loadSegments_stands (hf : FreshPage m cr3) (hm : m.pmm.Mapped) (hnear : elf.Near)
    (hlow : elf.Lower) (hgs : elf.phdrs = gs ++ post) (hstart : start m cr3 elf = .ok l₀)
    (hr : loadSegments cr3 gs l₀ b = .ok (l, b₁)) : Stands m cr3 elf.addr b gs l b₁ := by
  have hsub : ∀ k ∈ gs, k ∈ elf.phdrs := fun k hk => hgs ▸ List.mem_append_left _ hk
  have hall := @loadSegments_induct cr3 l₀ l b b₁
    (fun done l b₁ => (∀ k ∈ done, k.Low) ∧ Stands m cr3 elf.addr b done l b₁) gs []
    (fun done ph _ _ _ _ hph ⟨hdone, h⟩ hr => ?_)
    ⟨fun k hk => (by cases hk), start_stands hf hnear b hstart⟩ hr
  · exact hall.2
  · have hlow' : ∀ k ∈ done ++ [ph], k.Low := by
      intro k hk
      rcases List.mem_append.mp hk with hk | hk
      · exact hdone k hk
      · obtain rfl := List.mem_singleton.mp hk
        exact hlow k (hsub k hph)
    exact ⟨hlow', h.segment hm hlow' (hnear.2 ph (hsub ph hph)) hr⟩

/-- Covered bytes are seen as the last segment over them has left them. -/
theorem Filled.seen_eq (h : Filled cr3 b gs l b₁) (hlow : ∀ g ∈ gs, g.Low) {a : ℕ}
    (hg : g ∈ gs) (ha : g.Covers a) : seen cr3 l b₁ a = contents gs a := by
  obtain ⟨p, hp⟩ := Option.isSome_iff_exists.mp (h.covered g hg a ha)
  obtain ⟨x, hx⟩ := Option.isSome_iff_exists.mp (contents_isSome.mpr ⟨g, hg, ha⟩)
  rw [seen, see, hp, Option.map_some, h.bytes a (ha.lt (hlow g hg)) p hp, hx, Option.getD_some]

/-- All of physical memory after the segments. -/
theorem Filled.shown_eq (h : Filled cr3 b gs l b₁) {pages : List ℕ} {taken : List (Request × ℕ)}
    (hl : Placed m cr3 pages taken l) (hnodup : pages.Nodup) (hm : m.pmm.Mapped) (p : ℕ) :
    b₁ p = shown (lowFrames pages taken) gs b p := by
  have hgrants := (takePages_held hm hl.takes).grants
  unfold shown
  split
  case h_1 hnone =>
    rw [List.find?_eq_none] at hnone
    refine h.rest p fun x hx hin => ?_
    rw [hl.granted] at hx
    obtain ⟨y, hy, rfl⟩ := List.mem_map.mp hx
    have htaken := (List.of_mem_zip (List.mem_filter.mp hy).1).2
    exact hnone y hy (decide_eq_true ((hgrants.mem_handed htaken).mp hin))
  case h_2 x hx =>
    have hmem := List.mem_of_find?_eq_some hx
    have hframe : phys x.2.2 = alignDown p 4096 := by simpa using List.find?_some hx
    have hpage := of_decide_eq_true (List.mem_filter.mp hmem).2
    refine h.bytes _ (by omega) p ?_
    rw [hl.low_frame hnodup hmem (by omega), hframe]
    unfold alignDown
    congr 1
    omega

theorem loadSegments_append (cr3 : ℕ) (gs gs' : List Phdr) (l : Loading) (b : Bytes) :
    loadSegments cr3 (gs ++ gs') l b =
      loadSegments cr3 gs l b >>= fun y => loadSegments cr3 gs' y.1 y.2 := by
  induction gs generalizing l b with
  | nil => rfl
  | cons g gs ih =>
    rw [List.cons_append, loadSegments, loadSegments]
    cases loadSegment cr3 g l b with
    | error e => rfl
    | ok y => exact ih y.1 y.2

/-- The states before and after each segment of a list that is loaded. -/
theorem loadSegments_split {y : Loading × Bytes}
    (h : loadSegments cr3 (pre ++ g :: post) l b = .ok y) :
    ∃ l₁ b₁ l₂ b₂, loadSegments cr3 pre l b = .ok (l₁, b₁) ∧
      loadSegment cr3 g l₁ b₁ = .ok (l₂, b₂) := by
  rw [loadSegments_append] at h
  obtain ⟨⟨l₁, b₁⟩, hpre, h⟩ := bind_eq_ok.mp h
  obtain ⟨⟨l₂, b₂⟩, hseg, -⟩ := bind_eq_ok.mp h
  exact ⟨l₁, b₁, l₂, b₂, hpre, hseg⟩

/-- Where the segments are loaded, each leaves the earlier ones alone if and only if it agrees
with them. -/
theorem unchanged_iff (hf : FreshPage m cr3) (hm : m.pmm.Mapped) (hnear : elf.Near)
    (hlow : elf.Lower) (hstart : start m cr3 elf = .ok l₀)
    (h : loadSegments cr3 elf.phdrs l₀ b = .ok (l, b₁)) :
    Unchanged m cr3 elf b ↔ Consistent elf.phdrs := by
  have hlowPre : ∀ {pre post : List Phdr}, elf.phdrs = pre ++ post → ∀ g ∈ pre, g.Low :=
    fun hgs g hg => hlow g (hgs ▸ List.mem_append_left _ hg)
  have hsnoc : ∀ {pre post : List Phdr} {g}, elf.phdrs = pre ++ g :: post →
      elf.phdrs = (pre ++ [g]) ++ post := fun hgs => by rw [hgs, List.append_assoc]; rfl
  -- the states before and after a segment
  have hstep : ∀ {pre post g l₁ b₁ l₂ b₂}, elf.phdrs = pre ++ g :: post →
      loadSegments cr3 pre l₀ b = .ok (l₁, b₁) → loadSegment cr3 g l₁ b₁ = .ok (l₂, b₂) →
      Filled cr3 b pre l₁ b₁ ∧ Filled cr3 b (pre ++ [g]) l₂ b₂ := by
    intro pre post g l₁ b₁ l₂ b₂ hgs hpre hseg
    have h₁ := loadSegments_stands hf hm hnear hlow hgs hstart hpre
    have hg : g ∈ elf.phdrs := by rw [hgs]; simp
    exact ⟨h₁.2, (h₁.segment hm (hlowPre (hsnoc hgs)) (hnear.2 g hg) hseg).2⟩
  constructor
  · intro hunchanged
    -- by prefixes: the next segment finds the bytes of all earlier ones in place
    suffices hall : ∀ pre post, elf.phdrs = pre ++ post → Consistent pre from
      hall elf.phdrs [] (List.append_nil _).symm
    intro pre
    induction pre using List.reverseRecOn with
    | nil => exact fun _ _ => List.Pairwise.nil
    | append_singleton pre g ih =>
      intro post hgs
      have hgs' : elf.phdrs = pre ++ g :: post := by rw [hgs, List.append_assoc]; rfl
      have hpre := ih (g :: post) hgs'
      obtain ⟨l₁, b₁, l₂, b₂, hfill, hseg⟩ := loadSegments_split (hgs' ▸ h)
      obtain ⟨h₁, h₂⟩ := hstep hgs' hfill hseg
      refine List.pairwise_append.mpr ⟨hpre, List.pairwise_singleton _ _, ?_⟩
      intro k hk g' hg' a hka hga
      obtain rfl := List.mem_singleton.mp hg'
      have hsame := hunchanged pre g' post l₀ l₁ b₁ l₂ b₂ hgs' hstart hfill hseg k hk a hka
      rw [h₂.seen_eq (hlowPre hgs) (by simp) hga, contents_snoc, if_pos hga,
        h₁.seen_eq (hlowPre hgs') hk hka, hpre.contents_eq hk hka] at hsame
      exact Option.some.inj hsame
  · intro hcons pre g post l₀' l₁ b₁ l₂ b₂ hgs hstart' hfill hseg k hk a hka
    obtain rfl := Except.ok.inj (hstart.symm.trans hstart')
    have hpair : Consistent (pre ++ [g]) := (List.pairwise_append.mp (hsnoc hgs ▸ hcons)).1
    obtain ⟨h₁, h₂⟩ := hstep hgs hfill hseg
    rw [h₂.seen_eq (hlowPre (hsnoc hgs)) (List.mem_append_left _ hk) hka,
      h₁.seen_eq (hlowPre hgs) hk hka, hpair.contents_eq (List.mem_append_left _ hk) hka,
      Consistent.contents_eq (List.pairwise_append.mp hpair).1 hk hka]

/-- At the `memset` of a segment. -/
theorem atMemset_iff (hf : FreshPage m cr3) (hm : m.pmm.Mapped) (hnear : elf.Near)
    (hlow : elf.Lower) (hgs : elf.phdrs = pre ++ g :: post) (htype : g.pType = ptLoad)
    (h : AtMemset m cr3 elf b pre g l) :
    (FullyMapped cr3 g l ↔ Demanded pre g) ∧
      ((∃ l', access true cr3 g.pVaddr g.pMemsz l = .ok l') ↔ Demanded pre g) := by
  obtain ⟨l₀, l₁, b₁, l₂, l₃, hstart, hpre, hhead, hfields, hmap⟩ := h
  have h₁ := loadSegments_stands hf hm hnear hlow hgs hstart hpre
  have hlow' : ∀ k ∈ pre ++ [g], k.Low := fun k hk => hlow k (by
    rw [hgs, ← List.singleton_append, ← List.append_assoc]
    exact List.mem_append_left _ hk)
  have hext := hlow' g (by simp) htype
  obtain ⟨⟨_, h₄⟩, -⟩ :=
    h₁.mapped hm hlow' (hnear.2 g (by rw [hgs]; simp)).1 htype hhead hfields hmap
  have hmapped : ∀ a, a < 2 ^ 47 → ((translate l.machine.tables.mem cr3 a).isSome = true ↔
      ∃ h ∈ pre ++ [g], ∃ v ∈ h.rounds, v / 4096 = a / 4096) :=
    fun a ha => (h₄.mapped_iff ha).trans (mem_asked hf.heap ha htype)
  constructor
  · refine forall₃_congr fun a hlo hhi => ?_
    rw [← hmapped a (by omega), Option.isSome_iff_exists]
    exact ⟨fun ⟨p, hp, _⟩ => ⟨p, hp⟩, fun ⟨p, hp⟩ => ⟨p, hp, h₄.owned a p (by omega) hp⟩⟩
  · simp only [h₄.set_iff (show g.pMemsz = 0 ∨ g.pVaddr + g.pMemsz ≤ 2 ^ 47 by omega),
      exists_and_left, exists_eq, and_true]
    constructor
    · intro hall a hlo hhi
      obtain ⟨k, rfl⟩ := Nat.exists_eq_add_of_le hlo
      exact (hmapped _ (by omega)).mp (hall k (by omega))
    · intro hall k hk
      exact (hmapped _ (by omega)).mpr (hall _ (by omega) (by omega))

end Segments

/-- A segment of two bytes in two pages. -/
def straddling : Elf := heapElf [(0x400fff, 0, 2, 0)]

end NeptunOS.Loader
