import Mathlib.Data.Set.Lattice
import Mathlib.Order.CompletePartialOrder
import NeptunOS.Lib.Stepwise

/-!
# Ledgers

Systems whose steps take resources out of a stock that nothing refills.
`stock s` is what state `s` still has to give, `took x` what an entry of the
history records as given away. When every step takes from the stock, the
entries of a whole run are disjoint (`runs_balanced`).
-/

namespace NeptunOS.Ledger

open Stepwise

variable {σ ε A R α : Type}

/-- From a state that satisfies `inv`, every guarded step takes what it records
out of the stock and keeps `inv`. -/
def Takes (step : σ → A → Except ε (R × σ)) (guard : σ → A → Prop)
    (inv : σ → Prop) (stock : σ → Set α) (took : A × R → Set α) : Prop :=
  ∀ s x y s', inv s → guard s x → step s x = .ok (y, s') →
    inv s' ∧ took (x, y) ⊆ stock s ∧ stock s' ⊆ stock s \ took (x, y)

/-- A history accounts for what left the stock between two states. -/
structure Balanced (stock : σ → Set α) (took : A × R → Set α) (s : σ)
    (h : List (A × R)) (s' : σ) : Prop where
  /-- No two entries share a resource. -/
  apart : h.Pairwise fun x y => Disjoint (took x) (took y)
  taken : ∀ x ∈ h, took x ⊆ stock s
  /-- What was taken is not there to be taken again. -/
  spent : ∀ x ∈ h, Disjoint (took x) (stock s')
  shrinks : stock s' ⊆ stock s

variable {step : σ → A → Except ε (R × σ)} {guard : σ → A → Prop}
  {inv : σ → Prop} {stock : σ → Set α} {took : A × R → Set α}

theorem Balanced.snoc {s s' s'' : σ} {h : List (A × R)} {x : A × R}
    (hb : Balanced stock took s h s') (hx : took x ⊆ stock s')
    (hs : stock s'' ⊆ stock s' \ took x) :
    Balanced stock took s (h ++ [x]) s'' := by
  have hsub : stock s'' ⊆ stock s' := hs.trans Set.sdiff_subset
  constructor
  case apart =>
    refine List.pairwise_append.mpr ⟨hb.apart, List.pairwise_singleton _ _, ?_⟩
    intro y hy z hz
    obtain rfl := List.mem_singleton.mp hz
    exact (hb.spent y hy).mono_right hx
  case taken =>
    intro y hy
    rcases List.mem_append.mp hy with hy | hy
    · exact hb.taken y hy
    · obtain rfl := List.mem_singleton.mp hy
      exact hx.trans hb.shrinks
  case spent =>
    intro y hy
    rcases List.mem_append.mp hy with hy | hy
    · exact (hb.spent y hy).mono_right hsub
    · obtain rfl := List.mem_singleton.mp hy
      exact Set.disjoint_sdiff_right.mono_right hs
  case shrinks => exact hsub.trans hb.shrinks

/-- The books of a whole run balance. -/
theorem runs_balanced (ht : Takes step guard inv stock took) {s s' : σ}
    {h : List (A × R)} (hs : inv s) (hrun : Runs step guard s h s') :
    inv s' ∧ Balanced stock took s h s' := by
  refine hrun.invariant (P := fun h s' => inv s' ∧ Balanced stock took s h s')
    ⟨hs, List.Pairwise.nil, by simp, by simp, subset_rfl⟩ ?_
  rintro h t x y t' ⟨hinv, hb⟩ hg hstep
  obtain ⟨hinv', hx, hrest⟩ := ht t x y t' hinv hg hstep
  exact ⟨hinv', hb.snoc hx hrest⟩

end NeptunOS.Ledger
