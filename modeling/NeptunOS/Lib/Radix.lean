import Mathlib.Data.List.Infix

/-!
# Radix trees in memory

Tables of entries, some of which point to further tables. A path lists the
indices from the innermost table up to the root, so the path of a table
continues the path of its parent by `cons`.

- `table`: the table a path leads to; `view`: the entry it leads to.
- `Tree`: no table down to a depth has two paths.
- What a write to one entry does to `table` and `view`, and that it keeps the
  tree: `edit` keeps the pointer, `cut` ends in a leaf, `link` hangs a fresh
  table of default entries below a leaf.
-/

namespace NeptunOS.Radix

variable {P I E : Type}

section Definitions

variable (child : E → Option P) (m : P → I → E) (root : P)

/-- The table at the end of a path. -/
def table : List I → Option P
  | [] => some root
  | i :: π => (table π).bind fun t => child (m t i)

/-- The entry at the end of a path, `dflt` where there is no table. -/
def view (dflt : E) : List I → E
  | [] => dflt
  | i :: π => ((table child m root π).map fun t => m t i).getD dflt

/-- Down to depth `d`, a table has one path only. -/
def Tree (d : ℕ) : Prop :=
  ∀ ⦃π π' : List I⦄ ⦃t : P⦄, π.length ≤ d → π'.length ≤ d →
    table child m root π = some t → table child m root π' = some t → π = π'

end Definitions

/-- Write one entry. -/
def put [DecidableEq P] [DecidableEq I] (m : P → I → E) (t : P) (i : I) (e : E) :
    P → I → E :=
  Function.update m t (Function.update (m t) i e)

/-- Fill a table with one entry. -/
def fill [DecidableEq P] (m : P → I → E) (t : P) (e : E) : P → I → E :=
  Function.update m t fun _ => e

section Put

variable [DecidableEq P] {m : P → I → E} {t t' : P} {i j : I} {e : E}

theorem put_apply [DecidableEq I] : put m t i e t' j = if t' = t ∧ j = i then e else m t' j := by
  unfold put
  by_cases ht : t' = t
  · subst ht
    rw [Function.update_self, Function.update_apply]
    simp
  · rw [Function.update_of_ne ht, if_neg fun h => ht h.1]

theorem fill_apply : fill m t e t' j = if t' = t then e else m t' j := by
  unfold fill
  by_cases ht : t' = t
  · subst ht
    rw [Function.update_self, if_pos rfl]
  · rw [Function.update_of_ne ht, if_neg ht]

end Put

variable {child : E → Option P} {m : P → I → E} {root t : P} {d : ℕ} {π ρ : List I}
  {i : I} {e dflt : E}

theorem view_cons (h : table child m root π = some t) :
    view child m root dflt (i :: π) = m t i := by
  simp [view, h]

theorem table_cons (h : table child m root π = some t) :
    table child m root (i :: π) = child (m t i) := by
  simp [table, h]

/-- Nothing hangs below a path without a table. -/
theorem table_none_of_suffix (h : table child m root π = none) (hs : π <:+ ρ) :
    table child m root ρ = none := by
  induction ρ with
  | nil => rw [← List.suffix_nil.mp hs]; exact h
  | cons j ρ ih =>
    rcases List.suffix_cons_iff.mp hs with rfl | hs
    · exact h
    · rw [table, ih hs, Option.bind_none]

/-- Where every pointer extends the path that is noted for its table, a table has no other path. -/
theorem path_unique {noted : P → List I} (hroot : noted root = [])
    (hchild : ∀ t i u, child (m t i) = some u → noted u = i :: noted t)
    (h : table child m root π = some t) : π = noted t := by
  induction π generalizing t with
  | nil => rw [← Option.some.inj h, hroot]
  | cons i π ih =>
    obtain ⟨u, hu, hi⟩ := Option.bind_eq_some_iff.mp h
    rw [hchild u i t hi, ← ih hu]

/-- Memories that agree on the tables above a path have the same table there. -/
theorem table_congr {m' : P → I → E}
    (h : ∀ π t, π.length ≤ d → table child m root π = some t → m' t = m t)
    (hρ : ρ.length ≤ d + 1) : table child m' root ρ = table child m root ρ := by
  induction ρ with
  | nil => rfl
  | cons j ρ ih =>
    rw [List.length_cons] at hρ
    rw [table, table, ih (by omega)]
    cases ht : table child m root ρ with
    | none => rfl
    | some t => simp only [Option.bind_some, h ρ t (by omega) ht]

theorem view_congr {m' : P → I → E}
    (h : ∀ π t, π.length ≤ d → table child m root π = some t → m' t = m t)
    (hρ : ρ.length ≤ d + 1) :
    view child m' root dflt ρ = view child m root dflt ρ := by
  cases ρ with
  | nil => rfl
  | cons j ρ =>
    rw [List.length_cons] at hρ
    rw [view, view, table_congr h (by omega)]
    cases ht : table child m root ρ with
    | none => rfl
    | some t => simp only [Option.map_some, h ρ t (by omega) ht]

section Write

variable [DecidableEq P] [DecidableEq I]

/-! ## Tables after a write -/

/-- A write is seen only through the path of the written entry. -/
theorem table_put (htree : Tree child m root d) (hπ : table child m root π = some t)
    (hlen : π.length ≤ d) (hρ : ρ.length ≤ d) (hs : ¬ (i :: π) <:+ ρ) :
    table child (put m t i e) root ρ = table child m root ρ := by
  induction ρ with
  | nil => rfl
  | cons j ρ ih =>
    rw [List.length_cons] at hρ
    have hs' : ¬ (i :: π) <:+ ρ := fun h => hs (h.trans (List.suffix_cons j ρ))
    rw [table, table, ih (by omega) hs']
    cases ht' : table child m root ρ with
    | none => rfl
    | some t' =>
      have hne : ¬ (t' = t ∧ j = i) := by
        rintro ⟨rfl, rfl⟩
        have hρπ : ρ = π := htree (by omega) hlen ht' hπ
        exact hs (hρπ ▸ List.suffix_rfl)
      simp only [Option.bind_some, put_apply, if_neg hne]

/-- The written entry decides what hangs below it. -/
theorem table_put_self (htree : Tree child m root d) (hπ : table child m root π = some t)
    (hlen : π.length ≤ d) : table child (put m t i e) root (i :: π) = child e := by
  have hs : ¬ (i :: π) <:+ π := fun h => Nat.not_succ_le_self _ h.length_le
  have hπ' : table child (put m t i e) root π = some t := by
    rw [table_put htree hπ hlen hlen hs, hπ]
  rw [table_cons hπ', put_apply, if_pos ⟨rfl, rfl⟩]

/-- A new entry with the old pointer changes no table. -/
theorem table_edit (hchild : child e = child (m t i)) (ρ : List I) :
    table child (put m t i e) root ρ = table child m root ρ := by
  induction ρ with
  | nil => rfl
  | cons j ρ ih =>
    rw [table, table, ih]
    cases table child m root ρ with
    | none => rfl
    | some t' =>
      simp only [Option.bind_some, put_apply]
      split
      case isTrue h => rw [hchild, h.1, h.2]
      case isFalse => rfl

/-- Below a written leaf there is nothing. -/
theorem table_cut (htree : Tree child m root d) (hπ : table child m root π = some t)
    (hlen : π.length ≤ d) (hchild : child e = none ∨ π.length = d) (hρ : ρ.length ≤ d) :
    table child (put m t i e) root ρ =
      if (i :: π) <:+ ρ then none else table child m root ρ := by
  split
  case isTrue hs =>
    have hle := hs.length_le
    rw [List.length_cons] at hle
    have hnone : child e = none := hchild.resolve_right (by omega)
    exact table_none_of_suffix ((table_put_self htree hπ hlen).trans hnone) hs
  case isFalse hs => exact table_put htree hπ hlen hρ hs

omit [DecidableEq I] in
/-- Filling a table that is not in the tree changes no table of the tree. -/
theorem table_fill {f : P} (hfresh : ∀ ρ, ρ.length ≤ d → table child m root ρ ≠ some f)
    (hρ : ρ.length ≤ d) :
    table child (fill m f dflt) root ρ = table child m root ρ := by
  induction ρ with
  | nil => rfl
  | cons j ρ ih =>
    rw [List.length_cons] at hρ
    rw [table, table, ih (by omega)]
    cases ht' : table child m root ρ with
    | none => rfl
    | some t' =>
      have hne : t' ≠ f := by
        rintro rfl
        exact hfresh ρ (by omega) ht'
      simp only [Option.bind_some, fill_apply, if_neg hne]

section

variable (htree : Tree child m root d)

include htree

/-- A fresh table of leaves, hung below a leaf, is the only new table. -/
theorem table_link {f : P} (hπ : table child m root π = some t) (hlen : π.length < d)
    (hold : child (m t i) = none) (hnew : child e = some f) (hdflt : child dflt = none)
    (hfresh : ∀ ρ, ρ.length ≤ d → table child m root ρ ≠ some f) (hρ : ρ.length ≤ d) :
    table child (put (fill m f dflt) t i e) root ρ =
      if ρ = i :: π then some f else table child m root ρ := by
  have htree' : Tree child (fill m f dflt) root d := by
    intro ρ ρ' t' hρ hρ' h h'
    rw [table_fill hfresh hρ] at h
    rw [table_fill hfresh hρ'] at h'
    exact htree hρ hρ' h h'
  have hπ' : table child (fill m f dflt) root π = some t := by
    rw [table_fill hfresh hlen.le, hπ]
  have hself : table child (put (fill m f dflt) t i e) root (i :: π) = some f :=
    (table_put_self htree' hπ' hlen.le).trans hnew
  by_cases hs : (i :: π) <:+ ρ
  case neg =>
    have hne : ρ ≠ i :: π := by rintro rfl; exact hs List.suffix_rfl
    rw [if_neg hne, table_put htree' hπ' hlen.le hρ hs, table_fill hfresh hρ]
  case pos =>
    split
    case isTrue h => rw [h, hself]
    case isFalse hne =>
      -- `ρ` goes through an entry of the fresh table, which is a leaf
      have hbelow : table child m root ρ = none :=
        table_none_of_suffix ((table_cons hπ).trans hold) hs
      obtain ⟨σ, rfl⟩ := hs
      rcases List.eq_nil_or_concat σ with rfl | ⟨τ, j, rfl⟩
      · exact absurd rfl hne
      · rw [hbelow]
        have hft : f ≠ t := by rintro rfl; exact hfresh π hlen.le hπ
        have hleaf : table child (put (fill m f dflt) t i e) root (j :: i :: π) = none := by
          rw [table_cons hself, put_apply, if_neg fun h => hft h.1, fill_apply, if_pos rfl, hdflt]
        refine table_none_of_suffix hleaf ⟨τ, ?_⟩
        simp

/-! ## Trees stay trees -/

theorem tree_edit (hchild : child e = child (m t i)) : Tree child (put m t i e) root d := by
  intro ρ ρ' t' hρ hρ' h h'
  rw [table_edit hchild] at h h'
  exact htree hρ hρ' h h'

section

variable (hπ : table child m root π = some t)

include hπ

theorem tree_cut (hlen : π.length ≤ d) (hchild : child e = none ∨ π.length = d) :
    Tree child (put m t i e) root d := by
  intro ρ ρ' t' hρ hρ' h h'
  rw [table_cut htree hπ hlen hchild hρ] at h
  rw [table_cut htree hπ hlen hchild hρ'] at h'
  split at h
  case isTrue => cases h
  case isFalse =>
    split at h'
    case isTrue => cases h'
    case isFalse => exact htree hρ hρ' h h'

theorem tree_link {f : P} (hlen : π.length < d)
    (hold : child (m t i) = none) (hnew : child e = some f) (hdflt : child dflt = none)
    (hfresh : ∀ ρ, ρ.length ≤ d → table child m root ρ ≠ some f) :
    Tree child (put (fill m f dflt) t i e) root d := by
  intro ρ ρ' t' hρ hρ' h h'
  rw [table_link htree hπ hlen hold hnew hdflt hfresh hρ] at h
  rw [table_link htree hπ hlen hold hnew hdflt hfresh hρ'] at h'
  split at h
  case isTrue hρi =>
    obtain rfl := Option.some.inj h
    split at h'
    case isTrue hρi' => rw [hρi, hρi']
    case isFalse => exact absurd h' (hfresh ρ' hρ')
  case isFalse =>
    split at h'
    case isTrue =>
      obtain rfl := Option.some.inj h'
      exact absurd h (hfresh ρ hρ)
    case isFalse => exact htree hρ hρ' h h'

/-! ## Entries after a write -/

/-- Reading one entry through a tree after a write that keeps the table on the
way. -/
theorem view_put {m' : P → I → E} {j : I} (hlen : π.length ≤ d) (hρ : ρ.length ≤ d)
    (htab : table child m' root ρ = table child m root ρ)
    (hm' : ∀ t', table child m root ρ = some t' →
      m' t' j = if t' = t ∧ j = i then e else m t' j) :
    view child m' root dflt (j :: ρ) =
      if j :: ρ = i :: π then e else view child m root dflt (j :: ρ) := by
  rw [view, view, htab]
  cases ht' : table child m root ρ with
  | none =>
    have hne : j :: ρ ≠ i :: π := by
      intro h
      obtain ⟨-, rfl⟩ := List.cons.inj h
      rw [ht'] at hπ
      cases hπ
    rw [if_neg hne]
    rfl
  | some t' =>
    have hiff : (t' = t ∧ j = i) ↔ j :: ρ = i :: π := by
      constructor
      · rintro ⟨rfl, rfl⟩
        rw [htree hρ hlen ht' hπ]
      · intro h
        obtain ⟨rfl, rfl⟩ := List.cons.inj h
        rw [hπ] at ht'
        exact ⟨(Option.some.inj ht').symm, rfl⟩
    simp only [Option.map_some, Option.getD_some, hm' t' ht']
    exact if_congr hiff rfl rfl

theorem view_edit (hlen : π.length ≤ d) (hchild : child e = child (m t i)) {σ : List I}
    (hσ : σ.length ≤ d + 1) :
    view child (put m t i e) root dflt σ =
      if σ = i :: π then e else view child m root dflt σ := by
  cases σ with
  | nil => simp [view]
  | cons j ρ =>
    rw [List.length_cons] at hσ
    exact view_put htree hπ hlen (by omega) (table_edit hchild ρ)
      fun t' _ => put_apply

theorem view_cut (hlen : π.length ≤ d) (hchild : child e = none ∨ π.length = d) {σ : List I}
    (hσ : σ.length ≤ d + 1) :
    view child (put m t i e) root dflt σ =
      if σ = i :: π then e else if (i :: π) <:+ σ then dflt
      else view child m root dflt σ := by
  cases σ with
  | nil => simp [view]
  | cons j ρ =>
    rw [List.length_cons] at hσ
    have hcut := table_cut (i := i) (e := e) htree hπ hlen hchild (ρ := ρ) (by omega)
    by_cases hs : (i :: π) <:+ ρ
    case pos =>
      have hne : j :: ρ ≠ i :: π := by
        intro h
        have hle := hs.length_le
        rw [← h] at hle
        exact Nat.not_succ_le_self _ hle
      rw [if_pos hs] at hcut
      rw [if_neg hne, if_pos (hs.trans (List.suffix_cons j ρ)), view, hcut]
      rfl
    case neg =>
      rw [if_neg hs] at hcut
      rw [view_put htree hπ hlen (by omega) hcut fun t' _ => put_apply]
      split
      case isTrue => rfl
      case isFalse hne =>
        have hs' : ¬ (i :: π) <:+ j :: ρ := fun h =>
          (List.suffix_cons_iff.mp h).elim (fun h => hne h.symm) hs
        rw [if_neg hs']

theorem view_link {f : P} (hlen : π.length < d)
    (hold : child (m t i) = none) (hnew : child e = some f) (hdflt : child dflt = none)
    (hfresh : ∀ ρ, ρ.length ≤ d → table child m root ρ ≠ some f) {σ : List I}
    (hσ : σ.length ≤ d + 1) :
    view child (put (fill m f dflt) t i e) root dflt σ =
      if σ = i :: π then e else view child m root dflt σ := by
  cases σ with
  | nil => simp [view]
  | cons j ρ =>
    rw [List.length_cons] at hσ
    have hρ : ρ.length ≤ d := by omega
    have htab := table_link htree hπ hlen hold hnew hdflt hfresh hρ
    have hft : f ≠ t := by rintro rfl; exact hfresh π hlen.le hπ
    by_cases hρi : ρ = i :: π
    case pos =>
      -- an entry of the fresh table
      have hnone : table child m root ρ = none := by
        rw [hρi, table_cons hπ, hold]
      have hne : j :: ρ ≠ i :: π := by
        intro h
        have := congrArg List.length (hρi.symm.trans (List.cons.inj h).2)
        simp at this
      rw [if_pos hρi] at htab
      rw [if_neg hne, view_cons htab, put_apply, if_neg fun h => hft h.1, fill_apply,
        if_pos rfl, view, hnone]
      rfl
    case neg =>
      rw [if_neg hρi] at htab
      refine view_put htree hπ hlen.le hρ htab fun t' ht' => ?_
      have hne : t' ≠ f := by rintro rfl; exact hfresh ρ hρ ht'
      rw [put_apply, fill_apply, if_neg hne]

end

end

end Write

end NeptunOS.Radix
