import Mathlib.Data.List.Forall2
import NeptunOS.Arch.PageTable
import NeptunOS.Lib.Stepwise

/-!
# What `map_page` does to the tree of tables

`entryAt` reads the tables as a function from paths to entries. On well-formed
tables `mapPage` writes one leaf, touches the entries above it and nothing
else (`mapPage_spec`), whatever tables it has to make on the way.
-/

namespace NeptunOS.Paging

open Radix Stepwise

/-- The entry a path leads to; entries of missing tables read as 0. -/
def entryAt (m : ℕ → ℕ → ℕ) (cr3 : ℕ) (σ : List ℕ) : ℕ := view child m cr3 0 σ

/-- The tables below `cr3` form a tree and the frames left are no part of it. -/
structure WellFormed (s : Tables) (cr3 : ℕ) : Prop where
  tree : Tree child s.mem cr3 3
  typed : ∀ t i, s.mem t i < 2 ^ 64
  fresh : ∀ π f, π.length ≤ 3 → table child s.mem cr3 π = some f → f ∉ s.frames
  nodup : s.frames.Nodup
  frames : ∀ f ∈ s.frames, IsFrame f

theorem child_zero : child 0 = none := rfl

theorem child_of_present {e : ℕ} (hp : present e = true) (hh : huge e = false) :
    child e = some (tableOf e) := by
  rw [child, if_pos ⟨hp, by rw [hh]; decide⟩]

theorem child_of_absent {e : ℕ} (hp : present e = false) : child e = none := by
  rw [child, if_neg fun h => by rw [hp] at h; exact absurd h.1 (by decide)]

theorem child_of_huge {e : ℕ} (hh : huge e = true) : child e = none := by
  rw [child, if_neg fun h => h.2 hh]

theorem child_clearNx {e : ℕ} (h : e < 2 ^ 64) : child (clearNx e) = child e := by
  unfold child
  rw [present_clearNx, huge_clearNx, tableOf_clearNx h]

/-- The flags of an upper entry do not move its table. -/
theorem child_setUser (e : ℕ) : child (setFlags e (e ||| Mflags.user)) = child e := by
  have hp : present Mflags.user = false := by decide
  have hh : huge Mflags.user = false := by decide
  simp [child, hp, hh]

/-! ## Writes on well-formed tables -/

section Writes

variable {s : Tables} {cr3 t i e : ℕ} {π : List ℕ}

theorem put_typed {m : ℕ → ℕ → ℕ} (h : ∀ t i, m t i < 2 ^ 64) (he : e < 2 ^ 64) :
    ∀ t' j, put m t i e t' j < 2 ^ 64 := by
  intro t' j
  rw [put_apply]
  split
  · exact he
  · exact h t' j

section

variable (h : WellFormed s cr3)

include h

theorem WellFormed.edit (he : e < 2 ^ 64) (hchild : child e = child (s.mem t i)) :
    WellFormed { s with mem := put s.mem t i e } cr3 where
  tree := tree_edit h.tree hchild
  typed := put_typed h.typed he
  fresh π f hlen hf := h.fresh π f hlen (by rwa [table_edit hchild] at hf)
  nodup := h.nodup
  frames := h.frames

theorem WellFormed.cut (he : e < 2 ^ 64)
    (hπ : table child s.mem cr3 π = some t) (hlen : π.length ≤ 3)
    (hchild : child e = none ∨ π.length = 3) :
    WellFormed { s with mem := put s.mem t i e } cr3 where
  tree := tree_cut h.tree hπ hlen hchild
  typed := put_typed h.typed he
  fresh ρ f hρ hf := by
    rw [table_cut h.tree hπ hlen hchild hρ] at hf
    split at hf
    · cases hf
    · exact h.fresh ρ f hρ hf
  nodup := h.nodup
  frames := h.frames

/-- The head of `frames` is no table yet. -/
theorem WellFormed.head_fresh {f : ℕ} {fs : List ℕ} (hf : s.frames = f :: fs) :
    ∀ ρ, ρ.length ≤ 3 → table child s.mem cr3 ρ ≠ some f := by
  intro ρ hρ hρf
  exact h.fresh ρ f hρ hρf (by simp [hf])

theorem WellFormed.link {f : ℕ} {fs : List ℕ} (hf : s.frames = f :: fs) (he : e < 2 ^ 64)
    (hπ : table child s.mem cr3 π = some t) (hlen : π.length < 3)
    (hold : child (s.mem t i) = none) (hnew : child e = some f) :
    WellFormed { mem := put (fill s.mem f 0) t i e, frames := fs } cr3 := by
  have hnodup := h.nodup
  rw [hf, List.nodup_cons] at hnodup
  constructor
  case tree => exact tree_link h.tree hπ hlen hold hnew child_zero (h.head_fresh hf)
  case typed =>
    refine put_typed (fun t' j => ?_) he
    rw [fill_apply]
    split
    · decide
    · exact h.typed t' j
  case fresh =>
    intro ρ f' hρ hf'
    rw [table_link h.tree hπ hlen hold hnew child_zero (h.head_fresh hf) hρ] at hf'
    split at hf'
    · obtain rfl := Option.some.inj hf'
      exact hnodup.1
    · intro hin
      exact h.fresh ρ f' hρ hf' (by simp [hf, hin])
  case nodup => exact hnodup.2
  case frames => exact fun f' hf' => h.frames f' (by simp [hf, hf'])

end

end Writes

/-! ## One level -/

/-- An upper entry after `map_page` went through it to table `f`. -/
def entered (flags exemask f e : ℕ) : ℕ :=
  if present e then if user flags then setFlags e (e ||| Mflags.user) else e
  else setFlags (phys f ||| exemask) flags

/-- `map_page` went through the entry at `σ` of table `t` into table `t'`. -/
structure Entered (cr3 flags exemask t : ℕ) (s : Tables) (σ : List ℕ) (t' : ℕ)
    (s' : Tables) : Prop where
  wf : WellFormed s' cr3
  target : table child s'.mem cr3 σ = some t'
  origin : table child s.mem cr3 σ = some t' ∨ (t' ∈ s.frames ∧ t' ∉ s'.frames)
  frames : s'.frames ⊆ s.frames
  mem : ∀ u j, u ≠ t → (u ∈ s.frames → u ∈ s'.frames) → s'.mem u j = s.mem u j
  tables : ∀ ρ, ρ.length ≤ 3 → ρ ≠ σ →
    table child s'.mem cr3 ρ = table child s.mem cr3 ρ
  entry : entryAt s'.mem cr3 σ = entered flags exemask t' (entryAt s.mem cr3 σ)
  others : ∀ τ, τ.length ≤ 4 → τ ≠ σ →
    entryAt s'.mem cr3 τ = entryAt s.mem cr3 τ

section Descend

variable {s s' : Tables} {cr3 t t' i g flags : ℕ} {π : List ℕ}

/-- A present entry is followed; at most its `USER` bit changes. -/
theorem descend_present (h : WellFormed s cr3) (hπ : table child s.mem cr3 π = some t)
    (hlen : π.length < 3) (hp : present (s.mem t i) = true)
    (hh : huge (s.mem t i) = false)
    (hr : descend flags (exeMask g) s t i = .ok (t', s')) :
    Entered cr3 flags (exeMask g) t s (i :: π) t' s' := by
  have hentry : entryAt s.mem cr3 (i :: π) = s.mem t i := view_cons hπ
  have hbelow : table child s.mem cr3 (i :: π) = some (tableOf (s.mem t i)) := by
    rw [table_cons hπ, child_of_present hp hh]
  unfold descend at hr
  rw [if_pos hp] at hr
  cases hu : user flags with
  | false =>
    rw [hu, if_neg (by decide)] at hr
    cases hr
    refine ⟨h, hbelow, .inl hbelow, List.Subset.refl _, fun _ _ _ _ => rfl,
      fun _ _ _ => rfl, ?_, fun _ _ _ => rfl⟩
    rw [hentry, entered, if_pos hp, hu, if_neg (by decide)]
  | true =>
    rw [hu, if_pos rfl] at hr
    cases hr
    have hchild := child_setUser (s.mem t i)
    constructor
    case wf => exact h.edit (setFlags_lt _ (h.typed t i)) hchild
    case target => rw [table_edit hchild, hbelow]
    case origin => exact .inl hbelow
    case frames => exact List.Subset.refl _
    case mem =>
      intro u j hu _
      exact put_apply.trans (if_neg fun h => hu h.1)
    case tables => exact fun ρ _ _ => table_edit hchild ρ
    case entry =>
      rw [hentry, entered, if_pos hp, hu, if_pos rfl]
      exact (view_edit h.tree hπ hlen.le hchild (by simp; omega)).trans (if_pos rfl)
    case others =>
      exact fun τ hτ hne => (view_edit h.tree hπ hlen.le hchild hτ).trans (if_neg hne)

/-- An absent entry gets a fresh, empty table. -/
theorem descend_absent (h : WellFormed s cr3) (hπ : table child s.mem cr3 π = some t)
    (hlen : π.length < 3) (hp : present (s.mem t i) = false)
    (hfp : present flags = true) (hfh : huge flags = false)
    (hr : descend flags (exeMask g) s t i = .ok (t', s')) :
    Entered cr3 flags (exeMask g) t s (i :: π) t' s' := by
  have hentry : entryAt s.mem cr3 (i :: π) = s.mem t i := view_cons hπ
  have hold := child_of_absent hp
  have hnp : ¬ present (s.mem t i) = true := by rw [hp]; decide
  unfold descend at hr
  rw [if_neg hnp] at hr
  obtain ⟨⟨f, s₁⟩, hnew, hr⟩ := bind_eq_ok.mp hr
  unfold newTable at hnew
  split at hnew
  case h_1 => cases hnew
  case h_2 f' fs hfs =>
    cases hnew
    cases hr
    have hframe : IsFrame t' := h.frames t' (by simp [hfs])
    have hchild : child (setFlags (phys t' ||| exeMask g) flags) = some t' := by
      rw [child_of_present (by simpa using hfp) (by simpa using hfh), tableOf_newEntry hframe]
    have hlt : setFlags (phys t' ||| exeMask g) flags < 2 ^ 64 := by
      have hmask := exeMask_le g
      have hhigh := hframe.high
      apply setFlags_lt
      rw [hframe.phys_eq, or_exeMask (by omega)]
      omega
    have hfresh := h.head_fresh hfs
    constructor
    case wf => exact h.link hfs hlt hπ hlen hold hchild
    case target =>
      exact (table_link h.tree hπ hlen hold hchild child_zero hfresh (by simp; omega)).trans
        (if_pos rfl)
    case origin =>
      have hnodup := h.nodup
      rw [hfs, List.nodup_cons] at hnodup
      exact .inr ⟨by simp [hfs], hnodup.1⟩
    case frames =>
      rw [hfs]
      exact List.subset_cons_self _ _
    case mem =>
      intro u j hu hkept
      have hut : u ≠ t' := by
        rintro rfl
        have hnodup := h.nodup
        rw [hfs, List.nodup_cons] at hnodup
        exact hnodup.1 (hkept (by simp [hfs]))
      show put (fill s.mem t' 0) t i _ u j = _
      rw [put_apply, if_neg fun h => hu h.1, fill_apply, if_neg hut]
    case tables =>
      exact fun ρ hρ hne =>
        (table_link h.tree hπ hlen hold hchild child_zero hfresh hρ).trans (if_neg hne)
    case entry =>
      rw [hentry, entered, if_neg hnp]
      exact (view_link h.tree hπ hlen hold hchild child_zero hfresh (by simp; omega)).trans
        (if_pos rfl)
    case others =>
      exact fun τ hτ hne =>
        (view_link h.tree hπ hlen hold hchild child_zero hfresh hτ).trans (if_neg hne)

theorem descend_spec (h : WellFormed s cr3) (hπ : table child s.mem cr3 π = some t)
    (hlen : π.length < 3) (hfp : present flags = true) (hfh : huge flags = false)
    (hnh : present (entryAt s.mem cr3 (i :: π)) = true →
      huge (entryAt s.mem cr3 (i :: π)) = false)
    (hr : descend flags (exeMask g) s t i = .ok (t', s')) :
    Entered cr3 flags (exeMask g) t s (i :: π) t' s' := by
  have hentry : entryAt s.mem cr3 (i :: π) = s.mem t i := view_cons hπ
  rw [hentry] at hnh
  cases hp : present (s.mem t i) with
  | true => exact descend_present h hπ hlen hp (hnh hp) hr
  | false => exact descend_absent h hπ hlen hp hfp hfh hr

end Descend

/-! ## All upper levels -/

/-- The paths of the entries passed from `π` on. -/
def slotsFrom : List ℕ → List ℕ → List (List ℕ)
  | [], _ => []
  | i :: is, π => (i :: π) :: slotsFrom is (i :: π)

theorem mem_slotsFrom {is π σ : List ℕ} :
    σ ∈ slotsFrom is π ↔ π.length < σ.length ∧ σ <:+ is.reverse ++ π := by
  induction is generalizing π with
  | nil =>
    simp only [slotsFrom, List.not_mem_nil, List.reverse_nil, List.nil_append, false_iff]
    rintro ⟨hlt, hs⟩
    exact absurd hs.length_le (by omega)
  | cons i is ih =>
    have happ : (i :: is).reverse ++ π = is.reverse ++ (i :: π) := by simp
    rw [slotsFrom, List.mem_cons, ih, happ, List.length_cons]
    constructor
    · rintro (rfl | ⟨hlt, hs⟩)
      · exact ⟨by simp, List.suffix_append _ _⟩
      · exact ⟨by omega, hs⟩
    · rintro ⟨hlt, hs⟩
      by_cases hlen : σ.length = π.length + 1
      · have hsub : σ <:+ i :: π :=
          List.suffix_of_suffix_length_le hs (List.suffix_append _ _) (by simp [hlen])
        exact .inl (hsub.eq_of_length (by simp [hlen]))
      · exact .inr ⟨by omega, hs⟩

theorem length_slotsFrom (is π : List ℕ) : (slotsFrom is π).length = is.length := by
  induction is generalizing π with
  | nil => rfl
  | cons i is ih => rw [slotsFrom, List.length_cons, List.length_cons, ih]

/-- The last entry passed is the one at the whole path. -/
theorem slotsFrom_eq_concat (i : ℕ) (is π : List ℕ) :
    slotsFrom (is ++ [i]) π = slotsFrom is π ++ [i :: (is.reverse ++ π)] := by
  induction is generalizing π with
  | nil => rfl
  | cons j is ih => simp [slotsFrom, ih]

/-- Entry `x.2` of table `x.1` is the one at `σ`, above depth `n`. -/
def IsSlot (m : ℕ → ℕ → ℕ) (cr3 n : ℕ) (x : ℕ × ℕ) (σ : List ℕ) : Prop :=
  ∃ π, σ = x.2 :: π ∧ π.length < n ∧ table child m cr3 π = some x.1

theorem exists_slot {m : ℕ → ℕ → ℕ} {cr3 n : ℕ} {way : List (ℕ × ℕ)}
    {slots : List (List ℕ)} (hway : List.Forall₂ (IsSlot m cr3 n) way slots)
    {x : ℕ × ℕ} (hx : x ∈ way) : ∃ σ ∈ slots, IsSlot m cr3 n x σ := by
  induction hway with
  | nil => cases hx
  | @cons y σ way slots hy _ ih =>
    cases hx with
    | head => exact ⟨σ, List.mem_cons_self, hy⟩
    | tail _ hx =>
      obtain ⟨τ, hτ, hx⟩ := ih hx
      exact ⟨τ, List.mem_cons_of_mem σ hτ, hx⟩

/-- `map_page` went through the entries at `slots`, which it knows as `way`. -/
structure WentDown (cr3 flags exemask n : ℕ) (s : Tables) (slots : List (List ℕ))
    (way : List (ℕ × ℕ)) (s' : Tables) : Prop where
  wf : WellFormed s' cr3
  frames : s'.frames ⊆ s.frames
  mem : ∀ u j, (∀ x ∈ way, u ≠ x.1) → (u ∈ s.frames → u ∈ s'.frames) → s'.mem u j = s.mem u j
  way : List.Forall₂ (IsSlot s'.mem cr3 n) way slots
  tables : ∀ ρ, ρ.length ≤ 3 → ρ ∉ slots →
    table child s'.mem cr3 ρ = table child s.mem cr3 ρ
  origin : ∀ ρ ∈ slots, ∀ u, table child s'.mem cr3 ρ = some u →
    table child s.mem cr3 ρ = some u ∨ (u ∈ s.frames ∧ u ∉ s'.frames)
  entries : ∀ σ ∈ slots, ∃ f,
    entryAt s'.mem cr3 σ = entered flags exemask f (entryAt s.mem cr3 σ)
  others : ∀ τ, τ.length ≤ 4 → τ ∉ slots →
    entryAt s'.mem cr3 τ = entryAt s.mem cr3 τ

section DescendAll

variable {s s' : Tables} {cr3 t last g flags : ℕ} {is π : List ℕ} {way : List (ℕ × ℕ)}

/-- By induction on the levels: later levels keep the tables of earlier ones. -/
theorem descendAll_spec (h : WellFormed s cr3) (hπ : table child s.mem cr3 π = some t)
    (hlen : π.length + is.length ≤ 3) (hfp : present flags = true)
    (hfh : huge flags = false)
    (hnh : ∀ σ ∈ slotsFrom is π, present (entryAt s.mem cr3 σ) = true →
      huge (entryAt s.mem cr3 σ) = false)
    (hr : descendAll flags (exeMask g) is t s = .ok (way, last, s')) :
    WentDown cr3 flags (exeMask g) (π.length + is.length) s (slotsFrom is π) way s' ∧
      table child s'.mem cr3 (is.reverse ++ π) = some last := by
  induction is generalizing s t π way with
  | nil =>
    cases hr
    exact ⟨⟨h, List.Subset.refl _, fun _ _ _ _ => rfl, List.Forall₂.nil, fun _ _ _ => rfl,
      by simp [slotsFrom], by simp [slotsFrom], fun _ _ _ => rfl⟩, hπ⟩
  | cons i is ih =>
    rw [List.length_cons] at hlen
    obtain ⟨⟨t₁, s₁⟩, h₁, hr⟩ := bind_eq_ok.mp hr
    obtain ⟨⟨way₁, last₁, s₂⟩, h₂, hr⟩ := bind_eq_ok.mp hr
    cases hr
    have hent := descend_spec h hπ (by omega) hfp hfh (hnh _ (by simp [slotsFrom])) h₁
    have hdeeper : ∀ σ ∈ slotsFrom is (i :: π), σ ≠ i :: π := by
      rintro _ hσ rfl
      exact absurd (mem_slotsFrom.mp hσ).1 (Nat.lt_irrefl _)
    have hshort : ∀ σ ∈ slotsFrom is (i :: π), σ.length ≤ 4 := by
      intro σ hσ
      have := (mem_slotsFrom.mp hσ).2.length_le
      simp only [List.length_append, List.length_reverse, List.length_cons] at this
      omega
    have hnh₁ : ∀ σ ∈ slotsFrom is (i :: π), present (entryAt s₁.mem cr3 σ) = true →
        huge (entryAt s₁.mem cr3 σ) = false := by
      intro σ hσ
      rw [hent.others σ (hshort σ hσ) (hdeeper σ hσ)]
      exact hnh σ (by simp [slotsFrom, hσ])
    obtain ⟨hdown, hlast⟩ := ih hent.wf hent.target (by simp; omega) hnh₁ h₂
    have hself : i :: π ∉ slotsFrom is (i :: π) := fun hσ => hdeeper _ hσ rfl
    have hup : π ∉ slotsFrom is (i :: π) := fun hσ => by
      have := (mem_slotsFrom.mp hσ).1
      rw [List.length_cons] at this
      omega
    constructor
    case right => simpa using hlast
    case left =>
      constructor
      case wf => exact hdown.wf
      case way =>
        have hn : (i :: π).length + is.length = π.length + (i :: is).length := by
          simp only [List.length_cons]
          omega
        refine List.Forall₂.cons ⟨π, rfl, by simp, ?_⟩ (hn ▸ hdown.way)
        rw [hdown.tables π (by omega) hup, hent.tables π (by omega) (by simp), hπ]
      case tables =>
        intro ρ hρ hmem
        simp only [slotsFrom, List.mem_cons, not_or] at hmem
        rw [hdown.tables ρ hρ hmem.2, hent.tables ρ hρ hmem.1]
      case origin =>
        intro ρ hρ u hu
        simp only [slotsFrom, List.mem_cons] at hρ
        rcases hρ with rfl | hρ
        · rw [hdown.tables _ (by simp; omega) hself, hent.target] at hu
          obtain rfl := Option.some.inj hu
          exact hent.origin.imp_right fun ho => ⟨ho.1, fun hin => ho.2 (hdown.frames hin)⟩
        · rcases hdown.origin ρ hρ u hu with hold | ⟨hin, hout⟩
          · have hlen' := (mem_slotsFrom.mp hρ).2.length_le
            simp only [List.length_append, List.length_reverse, List.length_cons] at hlen'
            rw [hent.tables ρ (by omega) (hdeeper ρ hρ)] at hold
            exact .inl hold
          · exact .inr ⟨hent.frames hin, hout⟩
      case frames => exact fun u hu => hent.frames (hdown.frames hu)
      case mem =>
        intro u j hu hkept
        obtain ⟨hut, hu⟩ := List.forall_mem_cons.mp hu
        rw [hdown.mem u j hu fun hin => hkept (hent.frames hin),
          hent.mem u j hut fun hin => hdown.frames (hkept hin)]
      case entries =>
        intro σ hσ
        simp only [slotsFrom, List.mem_cons] at hσ
        rcases hσ with rfl | hσ
        · refine ⟨t₁, ?_⟩
          rw [hdown.others _ (by simp; omega) hself, hent.entry]
        · obtain ⟨f, hf⟩ := hdown.entries σ hσ
          refine ⟨f, ?_⟩
          rw [hf, hent.others σ (hshort σ hσ) (hdeeper σ hσ)]
      case others =>
        intro τ hτ hmem
        simp only [slotsFrom, List.mem_cons, not_or] at hmem
        rw [hdown.others τ hτ hmem.2, hent.others τ hτ hmem.1]

end DescendAll

/-! ## The leaf -/

section Leaf

variable {s : Tables} {cr3 : ℕ}

/-- Clearing NX along a way keeps all tables and clears the bit in exactly the
entries of the way. -/
theorem clearWay_spec {n : ℕ} {way : List (ℕ × ℕ)} {slots : List (List ℕ)}
    (h : WellFormed s cr3) (hn : n ≤ 4)
    (hway : List.Forall₂ (IsSlot s.mem cr3 n) way slots) :
    WellFormed { s with mem := clearWay way s.mem } cr3 ∧
      (∀ ρ, table child (clearWay way s.mem) cr3 ρ = table child s.mem cr3 ρ) ∧
      ∀ τ, τ.length ≤ 4 → entryAt (clearWay way s.mem) cr3 τ =
        if τ ∈ slots then clearNx (entryAt s.mem cr3 τ) else entryAt s.mem cr3 τ := by
  induction way generalizing s slots with
  | nil =>
    cases hway
    exact ⟨h, fun _ => rfl, fun τ _ => by simp [clearWay]⟩
  | cons x way ih =>
    obtain ⟨t, i⟩ := x
    cases hway with
    | @cons _ σ _ slots hx hrest =>
      obtain ⟨π, rfl, hlen, hπ⟩ := hx
      have hchild := child_clearNx (h.typed t i)
      have hwf := h.edit (clearNx_lt (s.mem t i)) hchild
      have htab : ∀ ρ, table child (put s.mem t i (clearNx (s.mem t i))) cr3 ρ =
          table child s.mem cr3 ρ := table_edit hchild
      have hent : entryAt s.mem cr3 (i :: π) = s.mem t i := view_cons hπ
      obtain ⟨hwf', htab', hview'⟩ := ih hwf (hrest.imp fun y τ hy => by
        obtain ⟨ρ, hτ, hρ, hy⟩ := hy
        exact ⟨ρ, hτ, hρ, (htab ρ).trans hy⟩)
      refine ⟨hwf', fun ρ => (htab' ρ).trans (htab ρ), fun τ hτ => ?_⟩
      have hedit : entryAt (put s.mem t i (clearNx (s.mem t i))) cr3 τ =
          if τ = i :: π then clearNx (s.mem t i) else entryAt s.mem cr3 τ :=
        view_edit h.tree hπ (by omega) hchild hτ
      refine (hview' τ hτ).trans ?_
      show (if τ ∈ slots then
          clearNx (entryAt (put s.mem t i (clearNx (s.mem t i))) cr3 τ)
        else entryAt (put s.mem t i (clearNx (s.mem t i))) cr3 τ) = _
      rw [hedit]
      by_cases hτi : τ = i :: π
      · subst hτi
        simp [hent]
      · simp [hτi]

/-- A page address with the NX mask is not present. -/
theorem present_address {addr : ℕ} (haddr : 2 ^ 12 ∣ addr) (g : ℕ) :
    present (addr ||| exeMask g) = false := by
  have h0 : addr.testBit 0 = false := by
    rw [Nat.testBit_zero]
    exact decide_eq_false (by omega)
  have hm : (exeMask g).testBit 0 = false := by
    rcases exeMask_cases g with h | h <;> rw [h] <;> decide
  rw [present_or]
  show (addr.testBit 0 || (exeMask g).testBit 0) = false
  rw [h0, hm]
  rfl

variable {π : List ℕ} {t i g flags addr : ℕ} {way : List (ℕ × ℕ)}
  {slots : List (List ℕ)}

theorem writeLeaf_spec (h : WellFormed s cr3) (hπ : table child s.mem cr3 π = some t)
    (hlen : π.length ≤ 3)
    (hway : List.Forall₂ (IsSlot s.mem cr3 π.length) way slots) (haddr : 2 ^ 12 ∣ addr)
    (hlt : addr < 2 ^ 63) (hleaf : huge flags = true ∨ π.length = 3) :
    WellFormed { s with mem := writeLeaf s.mem way t i addr (exeMask g) flags } cr3 ∧
      ∀ τ, τ.length ≤ 4 →
        entryAt (writeLeaf s.mem way t i addr (exeMask g) flags) cr3 τ =
          if τ = i :: π then setFlags (addr ||| exeMask g) flags
          else if (i :: π) <:+ τ then 0
          else if exeMask g = 0 ∧ τ ∈ slots then clearNx (entryAt s.mem cr3 τ)
          else entryAt s.mem cr3 τ := by
  have hmask := exeMask_le g
  have hword : addr ||| exeMask g < 2 ^ 64 := by
    rw [or_exeMask hlt]
    omega
  have hnone := child_of_absent (present_address haddr g)
  -- the address: a cut
  set m₁ := put s.mem t i (addr ||| exeMask g) with hm₁
  have hwf₁ : WellFormed { s with mem := m₁ } cr3 := h.cut hword hπ hlen (.inl hnone)
  have hview₁ : ∀ τ, τ.length ≤ 4 → entryAt m₁ cr3 τ =
      if τ = i :: π then addr ||| exeMask g else if (i :: π) <:+ τ then 0
      else entryAt s.mem cr3 τ :=
    fun τ hτ => view_cut h.tree hπ hlen (.inl hnone) hτ
  have htab₁ : ∀ ρ, ρ.length ≤ π.length →
      table child m₁ cr3 ρ = table child s.mem cr3 ρ := by
    intro ρ hρ
    refine table_put h.tree hπ hlen (by omega) fun hs => ?_
    exact absurd hs.length_le (by simp; omega)
  have hway₁ : List.Forall₂ (IsSlot m₁ cr3 (π.length + 1))
      (way ++ [(t, i)]) (slots ++ [i :: π]) := by
    refine List.rel_append (hway.imp fun x σ hx => ?_)
      (List.Forall₂.cons ⟨π, rfl, by omega, ?_⟩ List.Forall₂.nil)
    · obtain ⟨ρ, hσ, hρ, hx⟩ := hx
      exact ⟨ρ, hσ, by omega, (htab₁ ρ (by omega)).trans hx⟩
    · rw [htab₁ π (Nat.le_refl _), hπ]
  -- the NX bits: edits
  set m₂ := if exeMask g = 0 then clearWay (way ++ [(t, i)]) m₁ else m₁ with hm₂
  have hclear := clearWay_spec hwf₁ (by omega) hway₁
  have hwf₂ : WellFormed { s with mem := m₂ } cr3 := by
    rw [hm₂]
    split
    · exact hclear.1
    · exact hwf₁
  have hπ₂ : table child m₂ cr3 π = some t := by
    rw [hm₂]
    split
    · rw [hclear.2.1, htab₁ π (Nat.le_refl _), hπ]
    · rw [htab₁ π (Nat.le_refl _), hπ]
  have hview₂ : ∀ τ, τ.length ≤ 4 → entryAt m₂ cr3 τ =
      if exeMask g = 0 ∧ τ ∈ slots ++ [i :: π] then clearNx (entryAt m₁ cr3 τ)
      else entryAt m₁ cr3 τ := by
    intro τ hτ
    rw [hm₂]
    by_cases hz : exeMask g = 0
    · rw [if_pos hz, hclear.2.2 τ hτ]
      simp only [hz, true_and]
    · rw [if_neg hz, if_neg fun h => hz h.1]
  -- the flags: a cut again
  have hleafword : m₂ t i = addr ||| exeMask g := by
    have hentry : entryAt m₂ cr3 (i :: π) = m₂ t i := view_cons hπ₂
    rw [← hentry, hview₂ _ (by simp; omega), hview₁ _ (by simp; omega), if_pos rfl]
    split
    case isTrue hz =>
      rw [hz.1, Nat.or_zero, clearNx]
      exact Nat.mod_eq_of_lt hlt
    case isFalse => rfl
  have hchild : child (setFlags (m₂ t i) flags) = none ∨ π.length = 3 :=
    hleaf.imp_left fun hh => child_of_huge (by rw [huge_setFlags, hh])
  constructor
  · exact hwf₂.cut (setFlags_lt _ (hwf₂.typed t i)) hπ₂ hlen hchild
  · intro τ hτ
    refine (view_cut hwf₂.tree hπ₂ hlen hchild hτ).trans ?_
    rw [hleafword]
    by_cases hτi : τ = i :: π
    · rw [if_pos hτi, if_pos hτi]
    · rw [if_neg hτi, if_neg hτi]
      by_cases hs : (i :: π) <:+ τ
      · rw [if_pos hs, if_pos hs]
      · rw [if_neg hs, if_neg hs]
        refine (hview₂ τ hτ).trans ?_
        rw [hview₁ τ hτ, if_neg hτi, if_neg hs]
        simp [hτi]

end Leaf

/-! ## Calls -/

/-- A `flags` argument: `PRESENT` and the flags named. -/
def flagBits (rw user exe s4K s2M s1G : Bool) : ℕ :=
  Mflags.present ||| (bif rw then Mflags.rw else 0) ||| (bif user then Mflags.user else 0) |||
    (bif exe then Mflags.exe else 0) ||| (bif s4K then Mflags.s4K else 0) |||
    (bif s2M then Mflags.s2M else 0) ||| (bif s1G then Mflags.s1G else 0)

theorem pageSize_flagBits : ∀ rw user exe s4K s2M s1G, pageSize (flagBits rw user exe s4K s2M s1G) =
      bif s2M then .s2M else bif s1G then .s1G else .s4K := by
  decide

theorem exeMask_flagBits : ∀ rw user exe s4K s2M s1G,
    exeMask (flagBits rw user exe s4K s2M s1G) = bif exe then 0 else 2 ^ 63 := by
  decide

/-- The low flags are exactly the three that an entry takes over. -/
theorem low_flagBits : ∀ rw user exe s4K s2M s1G,
    let low := flagBits rw user exe s4K s2M s1G % 2 ^ 13
    present low = true ∧ Paging.rw low = rw ∧ Paging.user low = user ∧ huge low = false := by
  decide

/-- The arguments of a `map_page` call. -/
structure Call where
  virt : ℕ
  phys : ℕ
  rw : Bool
  user : Bool
  exe : Bool
  s4K : Bool
  s2M : Bool
  s1G : Bool
  cache : ℕ
deriving DecidableEq, Repr

namespace Call

/-- The `flags` argument. -/
def flags (c : Call) : ℕ := flagBits c.rw c.user c.exe c.s4K c.s2M c.s1G

/-- The flags that go into entries. -/
def low (c : Call) : ℕ := c.flags % 2 ^ 13

def size (c : Call) : PageSize := pageSize c.flags

/-- The page and the frame, rounded down as `map_page` does it. -/
def page (c : Call) : ℕ := alignDown c.virt c.size.bytes

@[inherit_doc page]
def frame (c : Call) : ℕ := alignDown c.phys c.size.bytes

def uppers (c : Call) : List ℕ := upperIndices c.page c.size

def index (c : Call) : ℕ := leafIndex c.page c.size

/-- The path of the entry that the call writes last. -/
def slot (c : Call) : List ℕ := c.index :: c.uppers.reverse

/-- That entry. -/
def leaf (c : Call) : ℕ :=
  setFlags (c.frame ||| exeMask c.flags) (leafFlags c.low c.cache c.size)

/-- The call itself. -/
def run (c : Call) (s : Tables) (cr3 : ℕ) : Except Halt Tables :=
  mapPage s cr3 c.virt c.phys c.flags c.cache

/-- The two halves of a call that returns. -/
theorem run_eq_ok {c : Call} {s s' : Tables} {cr3 : ℕ} (h : c.run s cr3 = .ok s') :
    ∃ way t s₁, descendAll c.low (exeMask c.flags) c.uppers cr3 s = .ok (way, t, s₁) ∧
      s' = { s₁ with
        mem := writeLeaf s₁.mem way t c.index c.frame (exeMask c.flags)
          (leafFlags c.low c.cache c.size) } := by
  obtain ⟨⟨way, t, s₁⟩, hdown, h⟩ := bind_eq_ok.mp h
  exact ⟨way, t, s₁, hdown, (Except.ok.inj h).symm⟩

theorem size_eq (c : Call) : c.size = bif c.s2M then .s2M else bif c.s1G then .s1G else .s4K :=
  pageSize_flagBits _ _ _ _ _ _

theorem exeMask_flags (c : Call) : exeMask c.flags = bif c.exe then 0 else 2 ^ 63 :=
  exeMask_flagBits _ _ _ _ _ _

@[simp] theorem present_low (c : Call) : present c.low = true := (low_flagBits _ _ _ _ _ _).1

@[simp] theorem rw_low (c : Call) : Paging.rw c.low = c.rw := (low_flagBits _ _ _ _ _ _).2.1

@[simp] theorem user_low (c : Call) : Paging.user c.low = c.user := (low_flagBits _ _ _ _ _ _).2.2.1

@[simp] theorem huge_low (c : Call) : huge c.low = false := (low_flagBits _ _ _ _ _ _).2.2.2

end Call

/-- What a call does to an entry above its leaf. -/
structure Upgraded (c : Call) (e e' : ℕ) : Prop where
  present : present e' = true
  huge : huge e' = false
  rw : rw e' = bif Paging.present e then Paging.rw e else c.rw
  user : user e' = bif Paging.present e then Paging.user e || c.user else c.user
  nx : nx e' = (!c.exe && bif Paging.present e then Paging.nx e else true)
  kept : Paging.present e = true → c.user = false → c.exe = false → e' = e

/-- What a call does to the entries of all paths. -/
structure Maps (c : Call) (V V' : List ℕ → ℕ) : Prop where
  leaf : V' c.slot = c.leaf
  below : ∀ σ, σ.length ≤ 4 → c.slot <:+ σ → σ ≠ c.slot → V' σ = 0
  upper : ∀ σ, σ ≠ [] → σ <:+ c.slot.tail → Upgraded c (V σ) (V' σ)
  other : ∀ σ, σ.length ≤ 4 → ¬ σ <:+ c.slot → ¬ c.slot <:+ σ → V' σ = V σ

theorem Call.nx_exeMask (c : Call) : nx (exeMask c.flags) = !c.exe := by
  rw [c.exeMask_flags]
  cases c.exe <;> decide

theorem nx_of_lt {x : ℕ} (h : x < 2 ^ 63) : nx x = false := Nat.testBit_lt_two_pow h

theorem upgraded (c : Call) {e f : ℕ} (hnh : present e = true → huge e = false) : Upgraded c e
      (if exeMask c.flags = 0 then clearNx (entered c.low (exeMask c.flags) f e)
      else entered c.low (exeMask c.flags) f e) := by
  have hphys : nx (phys f) = false := nx_of_lt (by rw [phys_eq_mod]; omega)
  have hexe : (exeMask c.flags = 0) ↔ c.exe = true := by
    rw [c.exeMask_flags]
    cases c.exe <;> decide
  have huser : present Mflags.user = false ∧ Paging.rw Mflags.user = false ∧
      user Mflags.user = true ∧ huge Mflags.user = false := by decide
  cases hp : present e with
  | true =>
    have hh := hnh hp
    have hent : entered c.low (exeMask c.flags) f e =
        if c.user then setFlags e (e ||| Mflags.user) else e := by
      rw [entered, if_pos hp, c.user_low]
    rw [hent]
    cases hu : c.user <;> cases he : c.exe <;>
      constructor <;> simp [hexe, he, hp, hh, hu, huser]
  | false =>
    have hent : entered c.low (exeMask c.flags) f e =
        setFlags (phys f ||| exeMask c.flags) c.low := by
      rw [entered, if_neg (by rw [hp]; decide)]
    rw [hent]
    cases he : c.exe <;> constructor <;> simp [hexe, he, hp, hphys, c.nx_exeMask]

/-- The upper levels and the leaf of a call fit in four levels. -/
theorem Call.uppers_length (c : Call) : c.uppers.length ≤ 3 := by
  unfold Call.uppers
  cases c.size <;> simp [upperIndices]

/-- Only 4 KiB leaves are in the last level, the others are marked. -/
theorem Call.leaf_level (c : Call) :
    huge (leafFlags c.low c.cache c.size) = true ∨ c.uppers.length = 3 := by
  have hhuge : huge Mflags.huge = true := by decide
  unfold Call.uppers
  cases c.size with
  | s4K => exact .inr rfl
  | s2M => exact .inl (by simp [leafFlags, hhuge])
  | s1G => exact .inl (by simp [leafFlags, hhuge])

theorem Call.frame_dvd (c : Call) : 2 ^ 12 ∣ c.frame := by
  have hbytes : 2 ^ 12 ∣ c.size.bytes := by cases c.size <;> decide
  exact hbytes.trans (Nat.dvd_mul_left _ _)

/-- A call on its way: down the upper levels to table `t` in the state `s₁`, then the
leaf. -/
structure Call.Went (c : Call) (cr3 : ℕ) (s : Tables) (way : List (ℕ × ℕ)) (t : ℕ)
    (s₁ s' : Tables) : Prop where
  down : WentDown cr3 c.low (exeMask c.flags) c.uppers.length s (slotsFrom c.uppers []) way s₁
  last : table child s₁.mem cr3 c.slot.tail = some t
  leaf : s' = { s₁ with
    mem := writeLeaf s₁.mem way t c.index c.frame (exeMask c.flags)
      (leafFlags c.low c.cache c.size) }
  wf : WellFormed s' cr3
  view : ∀ τ, τ.length ≤ 4 → entryAt s'.mem cr3 τ =
    if τ = c.slot then c.leaf else if c.slot <:+ τ then 0
    else if exeMask c.flags = 0 ∧ τ ∈ slotsFrom c.uppers [] then clearNx (entryAt s₁.mem cr3 τ)
    else entryAt s₁.mem cr3 τ

theorem Call.slot_length (c : Call) : c.slot.length = c.uppers.length + 1 := by
  simp [Call.slot]

theorem Call.mem_slots (c : Call) {σ : List ℕ} :
    σ ∈ slotsFrom c.uppers [] ↔ σ ≠ [] ∧ σ <:+ c.slot.tail := by
  rw [mem_slotsFrom, List.append_nil, List.length_nil, List.length_pos_iff]
  rfl

section Calls

variable {c : Call} {s s' : Tables} {cr3 : ℕ}
variable {way : List (ℕ × ℕ)} {t u j : ℕ} {m : ℕ → ℕ → ℕ}

theorem mapPage_went (h : WellFormed s cr3) (hphys : c.phys < 2 ^ 63)
    (hnh : ∀ σ, σ ≠ [] → σ <:+ c.slot.tail → present (entryAt s.mem cr3 σ) = true →
      huge (entryAt s.mem cr3 σ) = false)
    (hr : c.run s cr3 = .ok s') : ∃ way t s₁, c.Went cr3 s way t s₁ s' := by
  obtain ⟨way, t, s₁, hdown, rfl⟩ := c.run_eq_ok hr
  have hlen := c.uppers_length
  obtain ⟨hwent, hlast⟩ := descendAll_spec h (π := []) rfl (by simpa using hlen)
    c.present_low c.huge_low
    (fun σ hσ => hnh σ (c.mem_slots.mp hσ).1 (c.mem_slots.mp hσ).2) hdown
  rw [List.append_nil] at hlast
  rw [List.length_nil, Nat.zero_add] at hwent
  have hway := hwent.way
  rw [← List.length_reverse] at hway
  have hframe : c.frame < 2 ^ 63 := (Nat.div_mul_le_self _ _).trans_lt hphys
  have hlevel := c.leaf_level
  rw [← List.length_reverse] at hlevel
  obtain ⟨hwf, hview⟩ := writeLeaf_spec (i := c.index) (g := c.flags) hwent.wf hlast
    (by simpa using hlen) hway c.frame_dvd hframe hlevel
  exact ⟨way, t, s₁, hwent, hlast, rfl, hwf, hview⟩

/-- `map_page`, seen through the paths. -/
theorem mapPage_spec (h : WellFormed s cr3) (hphys : c.phys < 2 ^ 63)
    (hnh : ∀ σ, σ ≠ [] → σ <:+ c.slot.tail → present (entryAt s.mem cr3 σ) = true →
      huge (entryAt s.mem cr3 σ) = false)
    (hr : c.run s cr3 = .ok s') :
    WellFormed s' cr3 ∧ Maps c (entryAt s.mem cr3) (entryAt s'.mem cr3) := by
  obtain ⟨way, t, s₁, hwent⟩ := mapPage_went h hphys hnh hr
  have hview := hwent.view
  have hlen := c.uppers_length
  have hslot := c.slot_length
  refine ⟨hwent.wf, ?_⟩
  constructor
  case leaf => rw [hview _ (by omega), if_pos rfl]
  case below =>
    intro σ hσ hs hne
    rw [hview σ hσ, if_neg hne, if_pos hs]
  case upper =>
    intro σ hne hs
    have hshort := hs.length_le
    rw [List.length_tail] at hshort
    have hne' : σ ≠ c.slot := by rintro rfl; omega
    have hns : ¬ c.slot <:+ σ := fun h => by have := h.length_le; omega
    have hin := c.mem_slots.mpr ⟨hne, hs⟩
    obtain ⟨f, hf⟩ := hwent.down.entries σ hin
    rw [hview σ (by omega), if_neg hne', if_neg hns, hf]
    simp only [hin, and_true]
    exact upgraded c (hnh σ hne hs)
  case other =>
    intro σ hσ hs hs'
    have hne : σ ≠ c.slot := by rintro rfl; exact hs List.suffix_rfl
    have hnot : σ ∉ slotsFrom c.uppers [] := fun hin =>
      hs ((c.mem_slots.mp hin).2.trans (List.tail_suffix _))
    rw [hview σ hσ, if_neg hne, if_neg hs', if_neg fun h => hnot h.2, hwent.down.others σ hσ hnot]

/-! ## What a call writes -/

theorem table_eq_child (m : ℕ → ℕ → ℕ) (cr3 i : ℕ) (π : List ℕ) :
    table child m cr3 (i :: π) = child (entryAt m cr3 (i :: π)) := by
  rw [entryAt, table, view]
  cases table child m cr3 π with
  | none => exact child_zero.symm
  | some t => rfl

theorem WellFormed.entryAt_lt (h : WellFormed s cr3) (σ : List ℕ) :
    entryAt s.mem cr3 σ < 2 ^ 64 := by
  cases σ with
  | nil => exact Nat.two_pow_pos 64
  | cons i π =>
    rw [entryAt, view]
    cases table child s.mem cr3 π with
    | none => exact Nat.two_pow_pos 64
    | some t => exact h.typed t i

/-- The leaf cuts tables off, it adds none. -/
theorem Call.Went.table_eq {s₁ : Tables} (h : c.Went cr3 s way t s₁ s') {ρ : List ℕ}
    (hρ : ρ.length ≤ 3) :
    table child s'.mem cr3 ρ =
      if c.slot <:+ ρ then none else table child s₁.mem cr3 ρ := by
  cases ρ with
  | nil =>
    have hs : ¬ c.slot <:+ [] := fun hs => by
      have := hs.length_le
      rw [c.slot_length] at this
      exact absurd this (by simp)
    rw [if_neg hs]
    rfl
  | cons i ρ =>
    rw [table_eq_child, table_eq_child, h.view _ (by omega)]
    by_cases hslot : i :: ρ = c.slot
    · rw [if_pos hslot, if_pos (hslot ▸ List.suffix_rfl)]
      have hlevel := c.leaf_level.resolve_right fun h3 => by
        have := congrArg List.length hslot
        rw [c.slot_length] at this
        omega
      exact child_of_huge (by rw [Call.leaf, huge_setFlags, hlevel])
    · rw [if_neg hslot]
      by_cases hs : c.slot <:+ i :: ρ
      · rw [if_pos hs, if_pos hs, child_zero]
      · rw [if_neg hs, if_neg hs]
        split
        · exact child_clearNx (h.down.wf.entryAt_lt _)
        · rfl

theorem clearWay_apply (hu : ∀ x ∈ way, u ≠ x.1) : clearWay way m u j = m u j := by
  induction way generalizing m with
  | nil => rfl
  | cons x way ih =>
    obtain ⟨hx, hu⟩ := List.forall_mem_cons.mp hu
    show clearWay way (put m x.1 x.2 (clearNx (m x.1 x.2))) u j = m u j
    rw [ih hu, put_apply, if_neg fun h => hx h.1]

theorem writeLeaf_apply {i addr exemask flags : ℕ} (hu : ∀ x ∈ way, u ≠ x.1) (hut : u ≠ t) :
    writeLeaf m way t i addr exemask flags u j = m u j := by
  have hall : ∀ x ∈ way ++ [(t, i)], u ≠ x.1 := by
    intro x hx
    rcases List.mem_append.mp hx with hx | hx
    · exact hu x hx
    · obtain rfl := List.mem_singleton.mp hx
      exact hut
  unfold writeLeaf
  rw [put_apply, if_neg fun h => hut h.1]
  split
  · rw [clearWay_apply hall, put_apply, if_neg fun h => hut h.1]
  · rw [put_apply, if_neg fun h => hut h.1]

/-- A call writes to the tables on the way to its leaf only; those it makes there are
from `frames`. -/
structure Call.Frame (c : Call) (cr3 : ℕ) (s s' : Tables) : Prop where
  frames : s'.frames ⊆ s.frames
  origin : ∀ ρ u, ρ.length ≤ 3 → table child s'.mem cr3 ρ = some u →
    table child s.mem cr3 ρ = some u ∨ (u ∈ s.frames ∧ u ∉ s'.frames)
  mem : ∀ u j, (∀ ρ, ρ <:+ c.slot.tail → table child s'.mem cr3 ρ ≠ some u) →
    (u ∈ s.frames → u ∈ s'.frames) → s'.mem u j = s.mem u j

theorem mapPage_frame (h : WellFormed s cr3) (hphys : c.phys < 2 ^ 63)
    (hnh : ∀ σ, σ ≠ [] → σ <:+ c.slot.tail → present (entryAt s.mem cr3 σ) = true →
      huge (entryAt s.mem cr3 σ) = false)
    (hr : c.run s cr3 = .ok s') : c.Frame cr3 s s' := by
  obtain ⟨way, t, s₁, hwent⟩ := mapPage_went h hphys hnh hr
  have hframes : s'.frames = s₁.frames := by rw [hwent.leaf]
  constructor
  case frames =>
    rw [hframes]
    exact hwent.down.frames
  case origin =>
    intro ρ u hρ hu
    rw [hwent.table_eq hρ] at hu
    split at hu
    case isTrue => cases hu
    case isFalse =>
      rw [hframes]
      by_cases hslot : ρ ∈ slotsFrom c.uppers []
      · exact hwent.down.origin ρ hslot u hu
      · rw [hwent.down.tables ρ hρ hslot] at hu
        exact .inl hu
  case mem =>
    intro u j hu hkept
    -- the tables of the way are still there
    have hon : ∀ ρ, ρ <:+ c.slot.tail → table child s₁.mem cr3 ρ ≠ some u := by
      intro ρ hρ hin
      have hlen := c.uppers_length
      have hle := hρ.length_le
      rw [List.length_tail, c.slot_length] at hle
      refine hu ρ hρ ?_
      rw [hwent.table_eq (by omega), if_neg fun hs => ?_, hin]
      have := hs.length_le
      rw [c.slot_length] at this
      omega
    have hway : ∀ x ∈ way, u ≠ x.1 := by
      rintro x hx rfl
      obtain ⟨σ, hσ, π, rfl, -, hπ⟩ := exists_slot hwent.down.way hx
      exact hon π ((List.suffix_cons _ _).trans (c.mem_slots.mp hσ).2) hπ
    have hlast : u ≠ t := by
      rintro rfl
      exact hon _ List.suffix_rfl hwent.last
    rw [hwent.leaf]
    exact (writeLeaf_apply hway hlast).trans
      (hwent.down.mem u j hway fun hin => hframes ▸ hkept hin)

end Calls

end NeptunOS.Paging
