import Mathlib.Data.List.Cycle

/-!
# Circular doubly linked lists

Nodes of type `ι` are threaded by a `next` and a `prev` pointer. In a ring every node
of a cycle points to its neighbours. A cycle has no beginning, so that inserting
before the first node and behind the last one are the same edit, and a node is
removed as the head of a suitable rotation.
-/

namespace NeptunOS

variable {ι : Type} {next prev next' prev' : ι → Option ι}

/-- Consecutive nodes of the cycle point to each other. -/
def Ring (next prev : ι → Option ι) (c : Cycle ι) : Prop :=
  c.Chain fun a b => next a = some b ∧ prev b = some a

namespace Ring

variable {a b x : ι} {as us vs : List ι}

/-- The ring as a path and the edge that closes it. -/
theorem iff_closed (hne : as ≠ []) : Ring next prev as ↔
      (next (as.getLast hne) = some (as.head hne) ∧
        prev (as.head hne) = some (as.getLast hne)) ∧
      as.IsChain fun a b => next a = some b ∧ prev b = some a := by
  unfold Ring
  rw [Cycle.chain_ne_nil _ hne]
  obtain ⟨b, bs, rfl⟩ := List.exists_cons_of_ne_nil hne
  rw [List.isChain_cons_cons]
  rfl

/-- Only the nodes of the ring matter. -/
theorem congr (h : Ring next prev as) (hn : ∀ a ∈ as, next' a = next a)
    (hp : ∀ a ∈ as, prev' a = prev a) : Ring next' prev' as := by
  by_cases hne : as = []
  case pos =>
    subst hne
    exact Cycle.Chain.nil _
  case neg =>
    obtain ⟨⟨hnext, hprev⟩, hchain⟩ := (iff_closed hne).mp h
    refine (iff_closed hne).mpr ⟨⟨?_, ?_⟩, ?_⟩
    · rw [hn _ (List.getLast_mem hne), hnext]
    · rw [hp _ (List.head_mem hne), hprev]
    · refine hchain.imp_of_mem_imp fun a b ha hb hab => ?_
      rw [hn a ha, hp b hb]
      exact hab

/-- Where the ring starts does not matter. -/
theorem rotate : Ring next prev (us ++ vs : List ι) ↔ Ring next prev (vs ++ us : List ι) := by
  have heq : ((us ++ vs : List ι) : Cycle ι) = (vs ++ us : List ι) :=
    Cycle.coe_eq_coe.mpr List.isRotated_append
  rw [heq]

/-- Neighbours inside the list. -/
theorem next_eq (h : Ring next prev (us ++ a :: b :: vs : List ι)) :
    next a = some b ∧ prev b = some a := by
  obtain ⟨_, hchain⟩ := (iff_closed (by simp)).mp h
  exact (List.isChain_append_cons_cons.mp hchain).2.1

/-- A new node between the last and the first one. -/
theorem insert (hne : as ≠ []) (h : Ring next prev as) (hnd : as.Nodup)
    (hnew : next' x = some (as.head hne) ∧ prev' x = some (as.getLast hne))
    (hlast : next' (as.getLast hne) = some x) (hhead : prev' (as.head hne) = some x)
    (hn : ∀ a ∈ as, a ≠ as.getLast hne → next' a = next a)
    (hp : ∀ a ∈ as, a ≠ as.head hne → prev' a = prev a) :
    Ring next' prev' (x :: as : List ι) := by
  obtain ⟨⟨hclose, _⟩, hchain⟩ := (iff_closed hne).mp h
  refine (iff_closed (by simp)).mpr ⟨?_, ?_⟩
  · rw [List.getLast_cons hne]
    exact ⟨hlast, hnew.2⟩
  · rw [List.isChain_cons]
    constructor
    · intro y hy
      rw [List.head?_eq_some_head hne] at hy
      obtain rfl := Option.some.inj hy
      exact ⟨hnew.1, hhead⟩
    · refine hchain.imp_of_mem_tail_imp fun a b ha hb hab => ?_
      -- an edge into the tail is not the one that closed the ring
      have hbne : b ≠ as.head hne := by
        rintro rfl
        exact List.Nodup.notMem (by rwa [List.cons_head_tail hne]) hb
      have hane : a ≠ as.getLast hne := by
        rintro rfl
        exact hbne (Option.some.inj (hab.1.symm.trans hclose))
      rw [hn a ha hane, hp b (List.mem_of_mem_tail hb) hbne]
      exact hab

/-- The head is taken out, its neighbours are joined. -/
theorem remove_head (hne : as ≠ []) (h : Ring next prev (x :: as : List ι))
    (hnd : (x :: as).Nodup) (hlast : next' (as.getLast hne) = some (as.head hne))
    (hhead : prev' (as.head hne) = some (as.getLast hne))
    (hn : ∀ a ∈ as, a ≠ as.getLast hne → next' a = next a)
    (hp : ∀ a ∈ as, a ≠ as.head hne → prev' a = prev a) :
    Ring next' prev' as := by
  obtain ⟨⟨hclose, _⟩, hchain⟩ := (iff_closed (by simp)).mp h
  rw [List.getLast_cons hne] at hclose
  obtain ⟨hx, has⟩ := List.nodup_cons.mp hnd
  refine (iff_closed hne).mpr ⟨⟨hlast, hhead⟩, ?_⟩
  refine (List.isChain_cons.mp hchain).2.imp_of_mem_tail_imp fun a b ha hb hab => ?_
  have hbne : b ≠ as.head hne := by
    rintro rfl
    exact List.Nodup.notMem (by rwa [List.cons_head_tail hne]) hb
  have hane : a ≠ as.getLast hne := by
    rintro rfl
    have hbx : x = b := Option.some.inj (hclose.symm.trans hab.1)
    exact hx (hbx ▸ List.mem_of_mem_tail hb)
  rw [hn a ha hane, hp b (List.mem_of_mem_tail hb) hbne]
  exact hab

/-- The neighbours of the head. -/
theorem head_eq (hne : as ≠ []) (h : Ring next prev (x :: as : List ι)) :
    next x = some (as.head hne) ∧ prev x = some (as.getLast hne) := by
  obtain ⟨⟨_, hclose⟩, hchain⟩ := (iff_closed (by simp)).mp h
  rw [List.getLast_cons hne] at hclose
  refine ⟨((List.isChain_cons.mp hchain).1 _ (List.head?_eq_some_head hne)).1, hclose⟩

/-- The neighbour behind a place, which is the head for the last one. -/
theorem neighbour (h : Ring next prev as) {j : ℕ} (hj : j < as.length) :
    ∃ b, as[(j + 1) % as.length]? = some b ∧ next as[j] = some b ∧ prev b = some as[j] := by
  have hne : as ≠ [] := List.ne_nil_of_length_pos (Nat.zero_lt_of_lt hj)
  obtain ⟨⟨hclose, hback⟩, hchain⟩ := (iff_closed hne).mp h
  by_cases hlast : j + 1 < as.length
  · obtain ⟨hnext, hprev⟩ := List.isChain_iff_getElem.mp hchain j hlast
    rw [Nat.mod_eq_of_lt hlast]
    exact ⟨as[j + 1], List.getElem?_eq_getElem hlast, hnext, hprev⟩
  · have hj' : j + 1 = as.length := by omega
    have hend : as[j] = as.getLast hne := by
      rw [List.getLast_eq_getElem]
      congr 1
      omega
    rw [hj', Nat.mod_self, hend]
    exact ⟨as.head hne, by rw [← List.head?_eq_getElem?, List.head?_eq_some_head hne], hclose,
      hback⟩

end Ring

end NeptunOS
