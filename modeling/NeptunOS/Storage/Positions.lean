import NeptunOS.Storage.EndMarker

/-!
# Positions in a `LinkedList`

`operator[]`, `get_link` and `remove(idx)` count their way along the ring. After any
run they agree with the list that the same operations make of a plain list
(`list_positional`). Behind the last element the count goes round, because nothing
stops it at `first` (`Represents.seek`).
-/

namespace NeptunOS.LinkedList

open Function Stepwise

variable {α : Type}

/-! ## Counting along the ring -/

section Walk

variable {l : LinkedList α} {c : Contents α}

/-- The loop of `remove(idx)` is that of `get_link`. -/
theorem walk_of_seek {n left : ℕ} {p q : Option ℕ} (h : l.seek n p = .ok (q, left)) :
    l.walk n p = .ok q := by
  induction n generalizing p with
  | zero => cases p <;> cases h <;> rfl
  | succ n ih =>
    cases p with
    | none =>
      cases h
      rfl
    | some i =>
      obtain ⟨x, hx, h⟩ := bind_eq_ok.mp h
      rw [walk, hx, ok_bind]
      exact ih h

/-- `n` steps from place `j` end `n` places further, round the ring. -/
theorem Represents.seek_from (h : Represents l c) {n j : ℕ} (hj : j < c.addrs.length) :
    l.seek n c.addrs[j]? = .ok (c.addrs[(j + n) % c.addrs.length]?, 0) := by
  induction n generalizing j with
  | zero =>
    rw [Nat.add_zero, Nat.mod_eq_of_lt hj, List.getElem?_eq_getElem hj]
    rfl
  | succ n ih =>
    obtain ⟨b, hb, hnext, _⟩ := h.ring.neighbour hj
    obtain ⟨k, hk, hkn, _⟩ := h.link_of_mem (List.getElem_mem hj)
    have hmod : (j + 1) % c.addrs.length < c.addrs.length := Nat.mod_lt _ (by omega)
    rw [List.getElem?_eq_getElem hj, seek, deref_some hk, ok_bind, hkn, hnext, ← hb, ih hmod,
      Nat.mod_add_mod]
    congr 4
    omega

/-- `get_link` of a list with elements. -/
theorem Represents.getLink (h : Represents l c) (hne : c.addrs ≠ []) (idx : ℕ) :
    l.getLink idx = .ok c.addrs[idx % c.addrs.length]? := by
  have hpos : 0 < c.addrs.length := List.length_pos_iff.mpr hne
  have hseek := @Represents.seek_from _ _ _ h idx 0 hpos
  rw [Nat.zero_add, ← List.head?_eq_getElem?, ← h.first] at hseek
  rw [LinkedList.getLink, hseek, ok_bind]
  rfl

end Walk

/-! ## The list that is meant -/

/-- The operations on a plain list. Elements are named by their links. -/
def listStep (xs : List (ℕ × α)) : Op α × Option ℕ → List (ℕ × α)
  | (.pushBack x, some i) => xs ++ [(i, x)]
  | (.pushFront x, some i) => (i, x) :: xs
  | (.removeLink i, _) => xs.eraseP fun e => e.1 = i
  | (.removeAt idx, _) => xs.eraseIdx idx
  | (_, none) => xs

/-- The list after a history. -/
def listOf (h : List (Op α × Option ℕ)) : List (ℕ × α) := h.foldl listStep []

theorem listOf_snoc (h : List (Op α × Option ℕ)) (x : Op α × Option ℕ) :
    listOf (h ++ [x]) = listStep (listOf h) x := by
  rw [listOf, List.foldl_append]
  rfl

/-- The links are a ring in the order of the list: every member's `next` is a member,
`next` and `prev` are inverse to each other, the live links are the members, and
there are `size` of them. Positions name the elements of the list. -/
structure Positional (l : LinkedList α) (xs : List (ℕ × α)) : Prop where
  size : l.size = xs.length
  distinct : (xs.map Prod.fst).Nodup
  first : l.first = (xs.map Prod.fst).head?
  live : ∀ a, l.links a ≠ none ↔ a ∈ xs.map Prod.fst
  ring : ∀ j, (hj : j < xs.length) → ∃ b, xs[(j + 1) % xs.length]?.map Prod.fst = some b ∧
    l.nextOf xs[j].1 = some b ∧ l.prevOf b = some xs[j].1
  inverse : ∀ a ∈ xs.map Prod.fst, ∀ b ∈ xs.map Prod.fst,
    l.nextOf a = some b ↔ l.prevOf b = some a
  index : ∀ i, (hi : i < xs.length) →
    l.getLink i = .ok (some xs[i].1) ∧ l.elemAt i = .ok xs[i].2

section Positions

variable {l : LinkedList α} {c : Contents α}

theorem filter_fst_ne {i : ℕ} {ws : List (ℕ × α)} (h : i ∉ ws.map Prod.fst) :
    ws.filter (·.1 ≠ i) = ws :=
  List.filter_eq_self.mpr fun _ he =>
    decide_eq_true (ne_of_mem_of_not_mem (List.mem_map_of_mem he) h)

/-- The element of a link is the one at its position. -/
theorem Contents.remove_eq_eraseIdx (hnd : c.addrs.Nodup) {i idx : ℕ}
    (hi : c.addrs[idx]? = some i) : (c.remove i).elems = c.elems.eraseIdx idx := by
  obtain ⟨⟨i', x⟩, hx, heq⟩ := Option.map_eq_some_iff.mp ((List.getElem?_map ..).symm.trans hi)
  obtain rfl : i' = i := heq
  obtain ⟨hlt, hget⟩ := List.getElem?_eq_some_iff.mp hx
  have hsplit : c.elems = c.elems.take idx ++ c.elems[idx] :: c.elems.drop (idx + 1) := by
    rw [← List.drop_eq_getElem_cons hlt, List.take_append_drop]
  rw [hget] at hsplit
  generalize hus : c.elems.take idx = us at hsplit
  generalize hvs : c.elems.drop (idx + 1) = vs at hsplit
  rw [Contents.addrs, hsplit, List.map_append, List.map_cons] at hnd
  obtain ⟨_, hcons, hdisj⟩ := List.nodup_append.mp hnd
  obtain ⟨hnot, _⟩ := List.nodup_cons.mp hcons
  rw [List.eraseIdx_eq_take_drop_succ, hus, hvs, Contents.remove]
  show c.elems.filter _ = us ++ vs
  rw [hsplit, List.filter_append, List.filter_cons_of_neg (by simp), filter_fst_ne hnot,
    filter_fst_ne fun hin => hdisj _ hin _ List.mem_cons_self rfl]

theorem Contents.remove_eq_eraseP (hnd : c.addrs.Nodup) (i : ℕ) :
    (c.remove i).elems = c.elems.eraseP fun e => e.1 = i := by
  show c.elems.filter _ = _
  rw [Contents.addrs] at hnd
  generalize c.elems = es at hnd ⊢
  induction es with
  | nil => rfl
  | cons e es ih =>
    obtain ⟨hnot, hnd⟩ := List.nodup_cons.mp hnd
    by_cases he : e.1 = i
    · rw [List.filter_cons_of_neg (by simp [he]), List.eraseP_cons_of_pos (by simp [he]),
        filter_fst_ne (he ▸ hnot)]
    · rw [List.filter_cons_of_pos (by simp [he]), List.eraseP_cons_of_neg (by simp [he]), ih hnd]

theorem Represents.positional (h : Represents l c) : Positional l c.elems := by
  have hlen : c.addrs.length = c.elems.length := List.length_map ..
  have hget : ∀ j, (hj : j < c.elems.length) → c.addrs[j]? = some c.elems[j].1 := by
    intro j hj
    rw [Contents.addrs, List.getElem?_map, List.getElem?_eq_getElem hj]
    rfl
  have hring : ∀ j, (hj : j < c.elems.length) → ∃ b,
      c.addrs[(j + 1) % c.elems.length]? = some b ∧
        l.nextOf c.elems[j].1 = some b ∧ l.prevOf b = some c.elems[j].1 := by
    intro j hj
    obtain ⟨b, hb, hn, hp⟩ := h.ring.neighbour (j := j) (by omega)
    have hj' : c.addrs[j] = c.elems[j].1 := by simp [Contents.addrs]
    rw [hlen] at hb
    rw [hj'] at hn hp
    exact ⟨b, hb, hn, hp⟩
  -- a member is at one place only
  have hplace : ∀ a ∈ c.addrs, ∃ j, ∃ hj : j < c.elems.length, c.elems[j].1 = a := by
    intro a ha
    obtain ⟨e, he, rfl⟩ := List.mem_map.mp ha
    obtain ⟨j, hj, rfl⟩ := List.mem_iff_getElem.mp he
    exact ⟨j, hj, rfl⟩
  constructor
  case size => exact h.size
  case distinct => exact h.nodup
  case first => exact h.first
  case live =>
    intro a
    constructor
    · intro hlive
      obtain ⟨k, hk⟩ := Option.ne_none_iff_exists'.mp hlive
      exact h.live a k hk
    · intro ha
      obtain ⟨k, hk, _⟩ := h.link_of_mem ha
      simp [hk]
  case ring =>
    intro j hj
    obtain ⟨b, hb, hn, hp⟩ := hring j hj
    exact ⟨b, by rw [← List.getElem?_map]; exact hb, hn, hp⟩
  case inverse =>
    intro a ha b hb
    constructor
    · intro hn
      obtain ⟨j, hj, rfl⟩ := hplace a ha
      obtain ⟨b', _, hn', hp'⟩ := hring j hj
      rw [hn'] at hn
      rwa [← Option.some.inj hn]
    · intro hp
      -- the place before that of `b`
      obtain ⟨j, hj, hjb⟩ := hplace b hb
      set n := c.elems.length with hn
      obtain ⟨b', hb', hn', hp'⟩ := hring ((j + n - 1) % n) (Nat.mod_lt _ (by omega))
      have hback : ((j + n - 1) % n + 1) % n = j := by
        rw [Nat.mod_add_mod, Nat.sub_add_cancel (by omega), Nat.add_mod_right, Nat.mod_eq_of_lt hj]
      rw [hback, hget j hj, hjb] at hb'
      obtain rfl := Option.some.inj hb'
      rw [hp'] at hp
      rw [← Option.some.inj hp, hn']
  case index =>
    intro i hi
    have hne : c.addrs ≠ [] := List.ne_nil_of_length_pos (by omega)
    have hlink : l.getLink i = .ok (some c.elems[i].1) := by
      rw [h.getLink hne, hlen, Nat.mod_eq_of_lt hi, hget i hi]
    obtain ⟨k, hk, hdata, _⟩ := h.link c.elems[i].1 c.elems[i].2 (List.getElem_mem hi)
    refine ⟨hlink, ?_⟩
    rw [elemAt, index, hlink, ok_bind, deref_some hk, ok_bind, hdata]
    rfl

end Positions

/-- **Positions.** After any run that does not halt, the list is the one that the same
operations make of a plain list. -/
theorem list_positional {h : List (Op α × Option ℕ)} {l : LinkedList α}
    (hrun : Runs step Valid empty h l) : Positional l (listOf h) := by
  have hinv : Represents l (contents h) ∧ (contents h).elems = listOf h := by
    refine hrun.invariant
      (P := fun h l => Represents l (contents h) ∧ (contents h).elems = listOf h)
      ⟨empty_represents, rfl⟩ ?_
    intro h l op r l' ⟨hrep, heq⟩ hv hstep
    rw [contents_snoc, listOf_snoc]
    refine ⟨hrep.step hv hstep, ?_⟩
    rw [← heq]
    cases op with
    | pushBack x => cases r <;> rfl
    | pushFront x => cases r <;> rfl
    | removeLink i => exact Contents.remove_eq_eraseP hrep.nodup i
    | removeAt idx =>
      obtain ⟨i, hi, _⟩ := hrep.removeAt hv
      show ((contents h).addrs[idx]?.elim (contents h) (contents h).remove).elems = _
      rw [hi]
      exact Contents.remove_eq_eraseIdx hrep.nodup hi
  rw [← hinv.2]
  exact hinv.1.positional

/-- The list of `test_libk`. -/
theorem list_positional_test :
    ∃ h l, Runs step Valid (empty : LinkedList ℕ) h l ∧ listOf h = [(0, 10), (2, 30)] ∧
      Positional l [(0, 10), (2, 30)] := by
  have hreplay : (replay step Valid [] (empty : LinkedList ℕ)
      [.pushBack 10, .pushBack 50, .pushBack 30, .pushBack 40, .pushFront 88, .removeAt 0,
        .removeAt 3, .removeAt 1]).map (fun r => listOf r.1) = some [(0, 10), (2, 30)] := by
    decide
  obtain ⟨⟨h, l⟩, hr, hlist⟩ := Option.map_eq_some_iff.mp hreplay
  have hrun := (Runs.nil empty).replay hr
  have hpos := list_positional hrun
  rw [show listOf h = [(0, 10), (2, 30)] from hlist] at hpos
  exact ⟨h, l, hrun, hlist, hpos⟩

end NeptunOS.LinkedList
