import Mathlib.Data.List.Find
import NeptunOS.Arch.Walk

/-!
# Page tables as a finite map

After any sequence of `map_page` calls on an empty PML4, the tables hold what
the calls asked for: the leaf of the most recent call at every slot, present
entries above it that allow at least what its callers may do, and nothing else
(`Holds`). `paging_lookup` then returns the frame of the most recent call that
covers an address, and a call changes neither the translation nor the rights
of a page it does not cover (`mapAll_finite_map`).
-/

namespace NeptunOS.Paging

open Radix Stepwise

/-! ## What the tables hold -/

/-- The most recent call that covers `v`. -/
def latest (calls : List Call) (v : ℕ) : Option Call :=
  calls.reverse.find? fun c => c.Covers v

/-- No 4 KiB page is mapped inside a 2 MiB page. -/
def Unnested (calls : List Call) : Prop :=
  ∀ c ∈ calls, ∀ c' ∈ calls, c.s2M = true → c'.s2M = false →
    c.virt / 2 ^ 21 ≠ c'.virt / 2 ^ 21

instance (calls : List Call) : Decidable (Unnested calls) :=
  inferInstanceAs (Decidable (∀ c ∈ calls, ∀ c' ∈ calls, _ → _ → _))

/-- The last call at a slot. -/
def lastAt (calls : List Call) (σ : List ℕ) : Option Call :=
  calls.reverse.find? fun c => c.slot = σ

/-- The tables hold what the calls asked for. -/
structure Holds (calls : List Call) (V : List ℕ → ℕ) : Prop where
  leaf : ∀ σ c, lastAt calls σ = some c → V σ = c.leaf
  upper : ∀ c ∈ calls, ∀ σ, σ ≠ [] → σ <:+ c.slot.tail →
    present (V σ) = true ∧ huge (V σ) = false ∧ (c.user = true → user (V σ) = true) ∧
      (c.exe = true → nx (V σ) = false)
  absent : ∀ σ, σ.length ≤ 4 → (∀ c ∈ calls, ¬ σ <:+ c.slot) → present (V σ) = false

variable {calls : List Call} {c' : Call} {V : List ℕ → ℕ} {σ : List ℕ} {V' : List ℕ → ℕ}

/-- Slots of unnested calls do not continue each other. -/
theorem Unnested.slots (h : Unnested calls) (hlegal : ∀ c ∈ calls, c.Legal) {c : Call}
    (hc : c ∈ calls) (hc' : c' ∈ calls) (hs : c.slot <:+ c'.slot) : c.slot = c'.slot := by
  have hcan := (hlegal c hc).canonical
  have hcan' := (hlegal c' hc').canonical
  rcases Call.size_cases (hlegal c hc).size with ⟨hm, hz⟩ | ⟨hm, hz⟩ <;>
    rcases Call.size_cases (hlegal c' hc').size with ⟨hm', hz'⟩ | ⟨hm', hz'⟩
  · rw [Call.slot_4K hz, Call.slot_4K hz'] at *
    exact hs.eq_of_length rfl
  · rw [Call.slot_4K hz, Call.slot_2M hz'] at hs
    exact absurd hs.length_le (show ¬ (4 : ℕ) ≤ 3 by decide)
  · rw [Call.slot_2M hz, Call.slot_4K hz'] at hs
    have htail := List.suffix_of_suffix_length_le hs (List.tail_suffix _) (by rfl)
    have heq := (path_tail_inj hcan hcan').mp (htail.eq_of_length rfl)
    exact absurd heq (h c hc c' hc' hm hm')
  · rw [Call.slot_2M hz, Call.slot_2M hz'] at *
    exact hs.eq_of_length rfl

theorem lastAt_snoc (calls : List Call) (c : Call) (σ : List ℕ) :
    lastAt (calls ++ [c]) σ = if c.slot = σ then some c else lastAt calls σ := by
  simp only [lastAt, List.reverse_append, List.reverse_cons, List.reverse_nil,
    List.nil_append, List.singleton_append, List.find?_cons]
  by_cases h : c.slot = σ
  · simp [h]
  · simp [h]

theorem mem_of_lastAt {c : Call} (h : lastAt calls σ = some c) : c ∈ calls ∧ c.slot = σ :=
  ⟨List.mem_reverse.mp (List.mem_of_find?_eq_some h), by simpa using List.find?_some h⟩

/-- A call keeps the entries that are above other slots only. -/
theorem Maps.above_other {c : Call} (hm : Maps c V V') (hlegal : ∀ c ∈ calls, c.Legal)
    (hun : Unnested calls) (hc : c ∈ calls) (hc' : c' ∈ calls) (hs : σ <:+ c'.slot.tail)
    (hsc : ¬ σ <:+ c.slot.tail) : V' σ = V σ := by
  obtain ⟨hss, hsne⟩ := suffix_of_tail hs
  have hle := hss.length_le
  have hlen := c'.uppers_length
  simp only [Call.slot, List.length_cons, List.length_reverse] at hle
  have hnot : ¬ c.slot <:+ σ := by
    intro hcs
    have heq := hun.slots hlegal hc hc' (hcs.trans hss)
    exact hsne (hss.eq_of_length_le (heq ▸ hcs.length_le))
  have hnot' : ¬ σ <:+ c.slot := fun hsc' =>
    hsc (suffix_slot hsc' fun heq => hnot (heq ▸ List.suffix_rfl))
  exact hm.other σ (by omega) hnot' hnot

/-- One more call. -/
theorem Holds.snoc {c : Call} (h : Holds calls V) (hm : Maps c V V')
    (hlegal : ∀ c' ∈ calls ++ [c], c'.Legal) (hun : Unnested (calls ++ [c])) :
    Holds (calls ++ [c]) V' := by
  have hlast : c ∈ calls ++ [c] := by simp
  have hinit : ∀ c' ∈ calls, c' ∈ calls ++ [c] := fun c' hc' => by simp [hc']
  constructor
  case leaf =>
    intro σ c' hσ
    rw [lastAt_snoc] at hσ
    split at hσ
    case isTrue heq =>
      obtain rfl := Option.some.inj hσ
      rw [← heq, hm.leaf]
    case isFalse hne =>
      obtain ⟨hc', rfl⟩ := mem_of_lastAt hσ
      rw [hm.other _ (by have := c'.uppers_length; simp [Call.slot]; omega), h.leaf _ _ hσ]
      · exact fun hs => hne (hun.slots hlegal (hinit c' hc') hlast hs).symm
      · exact fun hs => hne (hun.slots hlegal hlast (hinit c' hc') hs)
  case upper =>
    intro c' hc' σ hσ hs
    by_cases hsc : σ <:+ c.slot.tail
    · -- shared with the new call
      have hup := hm.upper σ hσ hsc
      refine ⟨hup.present, hup.huge, fun hu => ?_, fun hx => ?_⟩
      · rw [hup.user]
        rcases List.mem_append.mp hc' with hc' | hc'
        · obtain ⟨hp, _, huser, _⟩ := h.upper c' hc' σ hσ hs
          rw [hp, huser hu]
          rfl
        · obtain rfl := List.mem_singleton.mp hc'
          rw [hu]
          cases present (V σ) <;> simp
      · rw [hup.nx]
        rcases List.mem_append.mp hc' with hc' | hc'
        · obtain ⟨hp, _, _, hnx⟩ := h.upper c' hc' σ hσ hs
          rw [hp, hnx hx]
          simp
        · obtain rfl := List.mem_singleton.mp hc'
          rw [hx]
          rfl
    · -- only above earlier calls
      have hc'old : c' ∈ calls := by
        rcases List.mem_append.mp hc' with hc' | hc'
        · exact hc'
        · obtain rfl := List.mem_singleton.mp hc'
          exact absurd hs hsc
      rw [hm.above_other hlegal hun hlast hc' hs hsc]
      exact h.upper c' hc'old σ hσ hs
  case absent =>
    intro σ hlen hnone
    by_cases hs : c.slot <:+ σ
    · have hne : σ ≠ c.slot := by
        rintro rfl
        exact hnone c hlast List.suffix_rfl
      rw [hm.below σ hlen hs hne]
      rfl
    · rw [hm.other σ hlen (hnone c hlast) hs]
      exact h.absent σ hlen fun c' hc' => hnone c' (hinit c' hc')

/-! ## Runs -/

/-- A sequence of calls. -/
def mapAll (cr3 : ℕ) : List Call → Tables → Except Halt Tables
  | [], s => .ok s
  | c :: cs, s => do
    let s' ← c.run s cr3
    mapAll cr3 cs s'

theorem mapAll_append {cr3 : ℕ} {cs cs' : List Call} {s s' : Tables} :
    mapAll cr3 (cs ++ cs') s = .ok s' ↔
      ∃ t, mapAll cr3 cs s = .ok t ∧ mapAll cr3 cs' t = .ok s' := by
  induction cs generalizing s with
  | nil => exact ⟨fun h => ⟨s, rfl, h⟩, fun ⟨t, ht, h⟩ => by cases ht; exact h⟩
  | cons c cs ih =>
    simp only [List.cons_append, mapAll, bind_eq_ok, ih]
    constructor
    · rintro ⟨a, ha, t, ht, h⟩
      exact ⟨t, ⟨a, ha, ht⟩, h⟩
    · rintro ⟨t, ⟨a, ha, ht⟩, h⟩
      exact ⟨a, ha, t, ht, h⟩

/-! Calls return as long as there are frames: each takes at most three. -/

theorem descend_ok (flags exemask : ℕ) {s : Tables} (t i : ℕ) (h : 0 < s.frames.length) :
    ∃ t' s', descend flags exemask s t i = .ok (t', s') ∧
      s.frames.length ≤ s'.frames.length + 1 := by
  by_cases hp : present (s.mem t i) = true
  case pos =>
    refine ⟨_, _, if_pos hp, ?_⟩
    split <;> exact Nat.le_succ _
  case neg =>
    obtain ⟨m, frames⟩ := s
    cases frames with
    | nil => exact absurd h (Nat.lt_irrefl 0)
    | cons f fs =>
      exact ⟨f, ⟨put (fill m f 0) t i (setFlags (phys f ||| exemask) flags), fs⟩,
        if_neg hp, Nat.le_refl _⟩

theorem descendAll_ok (flags exemask : ℕ) {s : Tables} {is : List ℕ} (t : ℕ)
    (h : is.length ≤ s.frames.length) :
    ∃ way t' s', descendAll flags exemask is t s = .ok (way, t', s') ∧
      s.frames.length ≤ s'.frames.length + is.length := by
  induction is generalizing s t with
  | nil => exact ⟨[], t, s, rfl, Nat.le_refl _⟩
  | cons i is ih =>
    rw [List.length_cons] at h
    obtain ⟨t₁, s₁, h₁, hle₁⟩ := descend_ok flags exemask t i (s := s) (by omega)
    obtain ⟨way, t', s', h', hle'⟩ := @ih s₁ t₁ (by omega)
    refine ⟨(t, i) :: way, t', s', ?_, by rw [List.length_cons]; omega⟩
    rw [descendAll, h₁]
    show (descendAll flags exemask is t₁ s₁ >>= _) = _
    rw [h']
    rfl

theorem Call.run_ok (c : Call) {s : Tables} (cr3 : ℕ) (h : 3 ≤ s.frames.length) :
    ∃ s', c.run s cr3 = .ok s' ∧ s.frames.length ≤ s'.frames.length + 3 := by
  have hup := c.uppers_length
  obtain ⟨way, t, s₁, hdown, hle⟩ :=
    @descendAll_ok c.low (exeMask c.flags) s c.uppers cr3 (by omega)
  refine ⟨_, bind_eq_ok.mpr ⟨_, hdown, rfl⟩, ?_⟩
  show s.frames.length ≤ s₁.frames.length + 3
  omega

theorem mapAll_ok (cr3 : ℕ) {s : Tables} (h : 3 * calls.length ≤ s.frames.length) :
    ∃ s', mapAll cr3 calls s = .ok s' := by
  induction calls generalizing s with
  | nil => exact ⟨s, rfl⟩
  | cons c cs ih =>
    rw [List.length_cons] at h
    obtain ⟨s₁, h₁, hle⟩ := c.run_ok cr3 (s := s) (by omega)
    obtain ⟨s', h'⟩ := @ih s₁ (by omega)
    exact ⟨s', bind_eq_ok.mpr ⟨s₁, h₁, h'⟩⟩

/-- Memory with an empty PML4 and frames for `allocpage`. -/
structure Empty (s : Tables) (cr3 : ℕ) : Prop where
  pml4 : ∀ i, s.mem cr3 i = 0
  typed : ∀ t i, s.mem t i < 2 ^ 64
  nodup : s.frames.Nodup
  frames : ∀ f ∈ s.frames, IsFrame f
  fresh : cr3 ∉ s.frames

section Runs

variable {s s' : Tables} {cr3 : ℕ} {calls : List Call}

section

variable (h : Empty s cr3)

include h

theorem Empty.table {π : List ℕ} {t : ℕ}
    (hπ : table child s.mem cr3 π = some t) : π = [] ∧ t = cr3 := by
  cases π with
  | nil => exact ⟨rfl, (Option.some.inj hπ).symm⟩
  | cons i π =>
    have hroot : ∀ j, Radix.table child s.mem cr3 [j] = none := by
      intro j
      rw [table_cons rfl, h.pml4]
      rfl
    rcases List.eq_nil_or_concat π with rfl | ⟨ρ, j, rfl⟩
    · rw [hroot] at hπ
      cases hπ
    · rw [table_none_of_suffix (hroot j) ⟨i :: ρ, by simp⟩] at hπ
      cases hπ

theorem Empty.wellFormed : WellFormed s cr3 where
  tree π π' t _ _ hπ hπ' := by rw [(h.table hπ).1, (h.table hπ').1]
  typed := h.typed
  fresh π f _ hf := by rw [(h.table hf).2]; exact h.fresh
  nodup := h.nodup
  frames := h.frames

theorem Empty.entryAt_eq_zero (σ : List ℕ) : entryAt s.mem cr3 σ = 0 := by
  cases σ with
  | nil => rfl
  | cons i π =>
    cases hπ : Radix.table child s.mem cr3 π with
    | none => simp [entryAt, view, hπ]
    | some t => rw [entryAt, view_cons hπ, (h.table hπ).2, h.pml4]

theorem Empty.holds : Holds [] (entryAt s.mem cr3) where
  leaf σ c hc := by simp [lastAt] at hc
  upper c hc := by simp at hc
  absent σ _ _ := by rw [h.entryAt_eq_zero]; rfl

theorem Empty.translate (v : ℕ) : translate s.mem cr3 v = none := by
  have hp : present (entryAt s.mem cr3 [addrPml4i v]) = false := by
    rw [h.entryAt_eq_zero]
    rfl
  rw [Paging.translate, walk_eq, indices, walkAt]
  simp [hp]

end

/-- Every entry on the way to a new leaf is a pointer if it is present. -/
theorem Holds.pointers {c : Call} {V : List ℕ → ℕ} (h : Holds calls V)
    (hlegal : ∀ c' ∈ calls ++ [c], c'.Legal) (hun : Unnested (calls ++ [c])) (σ : List ℕ)
    (hσ : σ ≠ []) (hs : σ <:+ c.slot.tail) (hp : present (V σ) = true) :
    huge (V σ) = false := by
  obtain ⟨hss, hsne⟩ := suffix_of_tail hs
  by_cases hex : ∃ c' ∈ calls, σ <:+ c'.slot
  · obtain ⟨c', hc', hs'⟩ := hex
    have hne : σ ≠ c'.slot := by
      rintro rfl
      exact hsne (hun.slots hlegal (by simp [hc']) (by simp) hss)
    exact (h.upper c' hc' σ hσ (suffix_slot hs' hne)).2.1
  · have hle := hss.length_le
    have hlen := c.uppers_length
    simp only [Call.slot, List.length_cons, List.length_reverse] at hle
    rw [h.absent σ (by omega) fun c' hc' hs' => hex ⟨c', hc', hs'⟩] at hp
    cases hp

theorem run_holds {c : Call} (hwf : WellFormed s cr3)
    (h : Holds calls (entryAt s.mem cr3)) (hlegal : ∀ c' ∈ calls ++ [c], c'.Legal)
    (hun : Unnested (calls ++ [c])) (hr : c.run s cr3 = .ok s') :
    WellFormed s' cr3 ∧ Maps c (entryAt s.mem cr3) (entryAt s'.mem cr3) ∧
      Holds (calls ++ [c]) (entryAt s'.mem cr3) := by
  have hphys := (hlegal c (by simp)).phys
  obtain ⟨hwf', hmaps⟩ := mapPage_spec hwf (by omega) (h.pointers hlegal hun) hr
  exact ⟨hwf', hmaps, h.snoc hmaps hlegal hun⟩

theorem mapAll_holds (hempty : Empty s cr3) (hlegal : ∀ c ∈ calls, c.Legal)
    (hun : Unnested calls) (hr : mapAll cr3 calls s = .ok s') :
    WellFormed s' cr3 ∧ Holds calls (entryAt s'.mem cr3) := by
  induction calls using List.reverseRecOn generalizing s' with
  | nil =>
    obtain rfl := Except.ok.inj hr
    exact ⟨hempty.wellFormed, hempty.holds⟩
  | append_singleton calls c ih =>
    obtain ⟨t, ht, hr⟩ := mapAll_append.mp hr
    obtain ⟨s'', hc, hr⟩ := bind_eq_ok.mp hr
    obtain rfl := Except.ok.inj hr
    obtain ⟨hwf, hholds⟩ := ih (fun c' hc' => hlegal c' (by simp [hc']))
      (fun c hc c' hc' => hun c (by simp [hc]) c' (by simp [hc'])) ht
    obtain ⟨hwf', _, hholds'⟩ := run_holds hwf hholds hlegal hun hc
    exact ⟨hwf', hholds'⟩

end Runs

/-! ## Reading the tables -/

section Read

variable {calls : List Call} {c : Call} {V : List ℕ → ℕ} {v : ℕ}

section

variable (hlegal : ∀ c ∈ calls, c.Legal)

include hlegal

/-- Unnested calls that cover an address have one slot. -/
theorem latest_eq_lastAt (hun : Unnested calls)
    (hv : Canonical v) (hc : c ∈ calls) (hcov : c.Covers v) :
    latest calls v = lastAt calls c.slot := by
  have hs := (Call.covers_iff (hlegal c hc) hv).mp hcov
  refine List.find?_congr fun c' hc' => decide_eq_decide.mpr ?_
  have hc' := List.mem_reverse.mp hc'
  rw [Call.covers_iff (hlegal c' hc') hv]
  constructor
  · intro hs'
    rcases Nat.le_total c'.slot.length c.slot.length with hle | hle
    · exact hun.slots hlegal hc' hc (List.suffix_of_suffix_length_le hs' hs hle)
    · exact (hun.slots hlegal hc hc' (List.suffix_of_suffix_length_le hs hs' hle)).symm
  · intro heq
    rwa [heq]

theorem latest_some (hun : Unnested calls) (hv : Canonical v) (h : latest calls v = some c) :
    c ∈ calls ∧ c.slot <:+ path v ∧ lastAt calls c.slot = some c := by
  have hc : c ∈ calls := List.mem_reverse.mp (List.mem_of_find?_eq_some h)
  have hcov : c.Covers v := by simpa using List.find?_some h
  refine ⟨hc, (Call.covers_iff (hlegal c hc) hv).mp hcov, ?_⟩
  rw [← latest_eq_lastAt hlegal hun hv hc hcov, h]

theorem latest_none (hv : Canonical v)
    (h : latest calls v = none) : ∀ c ∈ calls, ¬ c.slot <:+ path v := by
  intro c hc hs
  have hnot := List.find?_eq_none.mp h c (List.mem_reverse.mpr hc)
  exact hnot (by simpa using (Call.covers_iff (hlegal c hc) hv).mpr hs)

end

/-- A covered address is walked down to the leaf of the most recent call. -/
theorem Holds.walk_some (h : Holds calls V) (hlegal : ∀ c ∈ calls, c.Legal)
    (hun : Unnested calls) (hv : Canonical v) (hc : latest calls v = some c) :
    walkAt V [] (indices v) = some ((slotsFrom c.slot.reverse []).map V) := by
  obtain ⟨hmem, hs, hlast⟩ := latest_some hlegal hun hv hc
  refine walkAt_leaf (fun σ hne hσ => ?_) (h.leaf _ _ hlast) hs
  have hup := h.upper c hmem σ hne hσ
  exact ⟨hup.1, hup.2.1⟩

/-- An address that no call covers is not mapped: the walk ends at the first
entry that is above no slot. -/
theorem Holds.walk_none (h : Holds calls V) {π is : List ℕ}
    (hpath : is.reverse ++ π = path v) (hnone : ∀ c ∈ calls, ¬ c.slot <:+ path v) :
    walkAt V π is = none := by
  induction is generalizing π with
  | nil => rfl
  | cons i is ih =>
    have hpath' : is.reverse ++ (i :: π) = path v := by rw [← hpath]; simp
    have hs : i :: π <:+ path v := ⟨is.reverse, hpath'⟩
    have hlen : (i :: π).length ≤ 4 := hs.length_le
    rw [walkAt]
    by_cases hex : ∃ c' ∈ calls, i :: π <:+ c'.slot
    case neg =>
      have habs := h.absent (i :: π) hlen fun c' hc' hs' => hex ⟨c', hc', hs'⟩
      simp [habs]
    case pos =>
      obtain ⟨c', hc', hs'⟩ := hex
      have hne : i :: π ≠ c'.slot := fun heq => hnone c' hc' (heq ▸ hs)
      have htail := suffix_slot hs' hne
      obtain ⟨hp, hh, _⟩ := h.upper c' hc' (i :: π) (by simp) htail
      have his : is ≠ [] := by
        rintro rfl
        have hle := htail.length_le
        have hfull := congrArg List.length hpath'
        have hup := c'.uppers_length
        simp only [Call.slot, List.tail_cons, List.length_reverse, List.length_append,
          List.length_nil, List.reverse_nil, Call.path_length] at hle hfull
        omega
      simp [hp, hh, his, ih hpath']

/-- The two upper levels hold pointers only. -/
theorem Holds.top_levels (h : Holds calls V) (hlegal : ∀ c ∈ calls, c.Legal) (σ : List ℕ)
    (hσ : σ ≠ []) (hlen : σ.length ≤ 2) (hp : present (V σ) = true) :
    huge (V σ) = false := by
  by_cases hex : ∃ c ∈ calls, σ <:+ c.slot
  · obtain ⟨c, hc, hs⟩ := hex
    have hne : σ ≠ c.slot := by
      rintro rfl
      rcases Call.size_cases (hlegal c hc).size with ⟨_, hz⟩ | ⟨_, hz⟩
      · rw [Call.slot_4K hz, Call.path_length] at hlen
        omega
      · rw [Call.slot_2M hz, List.length_tail, Call.path_length] at hlen
        omega
    exact (h.upper c hc σ hσ (suffix_slot hs hne)).2.1
  · rw [h.absent σ (by omega) fun c hc hs => hex ⟨c, hc, hs⟩] at hp
    cases hp

/-- `paging_lookup` on the leaf of a call. -/
theorem Call.lookup_leaf {c : Call} (hc : c.Legal) {es : List ℕ}
    (hlen : es.length = c.uppers.length) (v : ℕ) :
    lookupOf v (some (es ++ [c.leaf])) = c.frame + v % c.size.bytes := by
  have hframe := c.frame_le
  have hphys := hc.phys
  have hlast : (es ++ [c.leaf]).getLastD 0 = c.leaf := by simp
  rw [lookupOf, hlast, List.length_append, hlen, List.length_singleton]
  rcases Call.size_cases hc.size with ⟨_, hz⟩ | ⟨_, hz⟩
  · have hmask := exeMask_cases c.flags
    have hupper : c.uppers.length = 3 := by rw [Call.uppers, hz]; rfl
    rw [hupper, if_neg (by decide), leaf_address hc, hz]
    show wadd _ _ % 2 ^ 63 = c.frame + v % 2 ^ 12
    unfold wadd
    rcases hmask with h | h <;> rw [h] <;> omega
  · have hdvd : 2 ^ 21 ∣ c.frame := by
      rw [Call.frame, hz]
      exact Nat.dvd_mul_left _ _
    have hupper : c.uppers.length = 2 := by rw [Call.uppers, hz]; rfl
    rw [hupper, if_pos rfl, tableOf_leaf hc, hz]
    show NeptunOS.phys (wadd _ _) % 2 ^ 63 = c.frame + v % 2 ^ 21
    rw [phys_eq_mod]
    unfold wadd hhdm
    omega

/-- The rights of a covered address: `USER` and NX are those of the call, `RW`
needs the entries above to have it. -/
theorem Holds.rights_some (h : Holds calls V) (hlegal : ∀ c ∈ calls, c.Legal)
    (hun : Unnested calls) (hv : Canonical v) (hc : latest calls v = some c) :
    rightsOf ((slotsFrom c.slot.reverse []).map V) =
      { user := c.user, nx := !c.exe,
        rw := ((slotsFrom c.uppers []).map V).all rw && c.rw } := by
  obtain ⟨hmem, _, hlast⟩ := latest_some hlegal hun hv hc
  have hleaf := h.leaf _ _ hlast
  have hphys := (hlegal c hmem).phys
  rw [c.entries_eq, hleaf]
  refine Call.rightsOf_leaf (by omega) fun e he => ?_
  obtain ⟨σ, hσ, rfl⟩ := List.mem_map.mp he
  obtain ⟨hne, hs⟩ := Call.mem_uppers.mp hσ
  exact (h.upper c hmem σ hne hs).2.2

end Read

/-! ## The finite map -/

section FiniteMap

variable {s s' : Tables} {cr3 v : ℕ} {calls : List Call}

/-- `paging_lookup` answers with the most recent call that covers the address. -/
theorem lookup_latest (h : Holds calls (entryAt s.mem cr3))
    (hlegal : ∀ c ∈ calls, c.Legal) (hun : Unnested calls) (hv : Canonical v) :
    pagingLookup s.mem cr3 v =
      (latest calls v).elim minusOne fun c => c.frame + v % c.size.bytes := by
  rw [pagingLookup_eq fun σ hσ hlen _ => h.top_levels hlegal σ hσ hlen, walk_eq]
  cases hc : latest calls v with
  | none =>
    rw [h.walk_none (by rw [List.append_nil, path]) (latest_none hlegal hv hc)]
    rfl
  | some c =>
    obtain ⟨hmem, _, hlast⟩ := latest_some hlegal hun hv hc
    rw [h.walk_some hlegal hun hv hc, c.entries_eq, h.leaf _ _ hlast]
    exact Call.lookup_leaf (hlegal c hmem) (by rw [List.length_map, length_slotsFrom]) v

theorem latest_snoc {c : Call} (hcov : ¬ c.Covers v) :
    latest (calls ++ [c]) v = latest calls v := by
  simp [latest, hcov]

/-- A call keeps the `RW` bits above every page that is mapped already. -/
theorem rw_kept {c c' : Call} {V V' : List ℕ → ℕ} (h : Holds calls V)
    (hm : Maps c V V') (hlegal : ∀ c' ∈ calls ++ [c], c'.Legal)
    (hun : Unnested (calls ++ [c])) (hc' : c' ∈ calls) {σ : List ℕ} (hσ : σ ≠ [])
    (hs : σ <:+ c'.slot.tail) : rw (V' σ) = rw (V σ) := by
  by_cases hsc : σ <:+ c.slot.tail
  · rw [(hm.upper σ hσ hsc).rw, (h.upper c' hc' σ hσ hs).1]
    rfl
  · rw [hm.above_other hlegal hun (by simp) (by simp [hc']) hs hsc]

theorem rights_kept {c : Call} (hwf : WellFormed s cr3)
    (h : Holds calls (entryAt s.mem cr3)) (hlegal : ∀ c' ∈ calls ++ [c], c'.Legal)
    (hun : Unnested (calls ++ [c])) (hr : c.run s cr3 = .ok s') (hv : Canonical v)
    (hcov : ¬ c.Covers v) (hmapped : (latest calls v).isSome) :
    rights s'.mem cr3 v = rights s.mem cr3 v := by
  obtain ⟨_, hmaps, h'⟩ := run_holds hwf h hlegal hun hr
  have hlegal₀ : ∀ c' ∈ calls, c'.Legal := fun c' hc' => hlegal c' (by simp [hc'])
  have hun₀ : Unnested calls := fun a ha b hb => hun a (by simp [ha]) b (by simp [hb])
  obtain ⟨c', hc'⟩ := Option.isSome_iff_exists.mp hmapped
  have hc'new : latest (calls ++ [c]) v = some c' := by rw [latest_snoc hcov, hc']
  obtain ⟨hmem, _, _⟩ := latest_some hlegal₀ hun₀ hv hc'
  rw [rights, rights, walk_eq, walk_eq, h.walk_some hlegal₀ hun₀ hv hc',
    h'.walk_some hlegal hun hv hc'new, Option.map_some, Option.map_some,
    h.rights_some hlegal₀ hun₀ hv hc', h'.rights_some hlegal hun hv hc'new]
  have hall : ((slotsFrom c'.uppers []).map (entryAt s'.mem cr3)).all rw =
      ((slotsFrom c'.uppers []).map (entryAt s.mem cr3)).all rw := by
    rw [List.all_map, List.all_map, Bool.eq_iff_iff, List.all_eq_true, List.all_eq_true]
    refine forall₂_congr fun σ hσ => ?_
    obtain ⟨hne, hs⟩ := Call.mem_uppers.mp hσ
    show rw (entryAt s'.mem cr3 σ) = true ↔ rw (entryAt s.mem cr3 σ) = true
    rw [rw_kept h hmaps hlegal hun hmem hne hs]
  rw [hall]

/-- **Page tables as a finite map.** From an empty PML4, after any legal and
unnested sequence of calls: `paging_lookup` returns the frame of the most
recent call that covers an address, or `-1`; and whatever legal call comes
next, it changes neither translation nor rights of a mapped page that it does
not cover. -/
theorem mapAll_finite_map (hempty : Empty s cr3) (hlegal : ∀ c ∈ calls, c.Legal)
    (hun : Unnested calls) (hr : mapAll cr3 calls s = .ok s') :
    (∀ v, Canonical v → pagingLookup s'.mem cr3 v =
      (latest calls v).elim minusOne fun c => c.frame + v % c.size.bytes) ∧
    ∀ c s'', c.Legal → Unnested (calls ++ [c]) → c.run s' cr3 = .ok s'' →
      ∀ v, Canonical v → ¬ c.Covers v → (latest calls v).isSome →
        pagingLookup s''.mem cr3 v = pagingLookup s'.mem cr3 v ∧
          rights s''.mem cr3 v = rights s'.mem cr3 v := by
  obtain ⟨hwf, hholds⟩ := mapAll_holds hempty hlegal hun hr
  refine ⟨fun v hv => lookup_latest hholds hlegal hun hv, ?_⟩
  intro c s'' hc hun' hr' v hv hcov hmapped
  have hlegal' : ∀ c' ∈ calls ++ [c], c'.Legal := by
    intro c' hc'
    rcases List.mem_append.mp hc' with hc' | hc'
    · exact hlegal c' hc'
    · obtain rfl := List.mem_singleton.mp hc'
      exact hc
  obtain ⟨_, _, hholds'⟩ := run_holds hwf hholds hlegal' hun' hr'
  constructor
  · rw [lookup_latest hholds' hlegal' hun' hv, lookup_latest hholds hlegal hun hv,
      latest_snoc hcov]
  · exact rights_kept hwf hholds hlegal' hun' hr' hv hcov hmapped

/-- A PML4 right after the start of the direct map, with ten frames after it. -/
def bootTables : Tables where
  mem _ _ := 0
  frames := [hhdm + 0x2000, hhdm + 0x3000, hhdm + 0x4000, hhdm + 0x5000, hhdm + 0x6000,
    hhdm + 0x7000, hhdm + 0x8000, hhdm + 0x9000, hhdm + 0xa000, hhdm + 0xb000]

theorem bootTables_empty : Empty bootTables (hhdm + 0x1000) where
  pml4 _ := rfl
  typed _ _ := show 0 < 2 ^ 64 by decide
  nodup := by decide
  frames f hf := by
    have hall : ∀ f ∈ bootTables.frames, hhdm ≤ f ∧ f < hhdm + 2 ^ 47 ∧ 2 ^ 12 ∣ f := by
      decide
    obtain ⟨hlow, hhigh, hdvd⟩ := hall f hf
    exact ⟨hlow, hhigh, hdvd⟩
  fresh := by decide

/-- A heap page and a user stack of 2 MiB. -/
def bootCalls : List Call :=
  [⟨0xffff900000000000, 0x5000, true, false, false, false, false, false, 0⟩,
    ⟨0x7fffff000000, 0x40000000, true, true, false, false, true, false, 0⟩]

theorem mapAll_finite_map_boot :
    ∃ s', mapAll (hhdm + 0x1000) bootCalls bootTables = .ok s' ∧
      pagingLookup s'.mem (hhdm + 0x1000) 0xffff900000000123 = 0x5123 ∧
      pagingLookup s'.mem (hhdm + 0x1000) 0x7fffff012345 = 0x40012345 ∧
      pagingLookup s'.mem (hhdm + 0x1000) 0xffff900000001000 = minusOne := by
  have hlegal : ∀ c ∈ bootCalls, c.Legal := by
    have hall : ∀ c ∈ bootCalls,
        Canonical c.virt ∧ c.phys < 2 ^ 47 ∧ c.s1G = false := by decide
    exact fun c hc => ⟨(hall c hc).1, (hall c hc).2.1, (hall c hc).2.2⟩
  obtain ⟨s', hs'⟩ := @mapAll_ok bootCalls (hhdm + 0x1000) bootTables (by decide)
  obtain ⟨hlookup, _⟩ := mapAll_finite_map bootTables_empty hlegal (by decide) hs'
  refine ⟨s', hs', ?_, ?_, ?_⟩
  · rw [hlookup _ (by decide)]
    decide
  · rw [hlookup _ (by decide)]
    decide
  · rw [hlookup _ (by decide)]
    decide

end FiniteMap

end NeptunOS.Paging
