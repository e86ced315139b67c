import Mathlib.Data.List.Nodup

/-!
# Doubly linked lists as paths

Nodes of type `ι` are threaded by a forward pointer of every pointer value
(`fwd none` is the head pointer) and a backward pointer of every node.
`Path` follows both at once, `Listed` is a path that ends in a null pointer.

A path only constrains consecutive pairs, so an edit is local: `insert` and
`remove` ask for the pointers at the seam and for agreement elsewhere.
-/

namespace NeptunOS.Linked

variable {ι : Type} {fwd fwd' : Option ι → Option ι} {bwd bwd' : ι → Option ι}

/-- From pointer `a` the forward pointers visit `xs` in order, and every
visited node points back to the pointer it was reached from. -/
def Path (fwd : Option ι → Option ι) (bwd : ι → Option ι) :
    Option ι → List ι → Prop
  | _, [] => True
  | a, x :: xs => fwd a = some x ∧ bwd x = a ∧ Path fwd bwd (some x) xs

/-- The pointer at which a path from `a` through `xs` stands. -/
def endOf : Option ι → List ι → Option ι
  | a, [] => a
  | _, x :: xs => endOf (some x) xs

/-- A null-terminated list. -/
def Listed (fwd : Option ι → Option ι) (bwd : ι → Option ι)
    (a : Option ι) (xs : List ι) : Prop :=
  Path fwd bwd a xs ∧ fwd (endOf a xs) = none

@[simp] theorem endOf_nil (a : Option ι) : endOf a [] = a := rfl

@[simp] theorem endOf_cons (a : Option ι) (x : ι) (xs : List ι) :
    endOf a (x :: xs) = endOf (some x) xs := rfl

@[simp] theorem endOf_append : ∀ (a : Option ι) (xs ys : List ι),
    endOf a (xs ++ ys) = endOf (endOf a xs) ys
  | _, [], _ => rfl
  | _, x :: xs, ys => endOf_append (some x) xs ys

/-- A path stands at its start or at one of its nodes. -/
theorem endOf_mem : ∀ (a : Option ι) (xs : List ι), endOf a xs ∈ a :: xs.map some
  | a, [] => by simp
  | a, x :: xs => by
    rw [endOf_cons, List.map_cons]
    exact List.mem_cons_of_mem _ (endOf_mem (some x) xs)

theorem path_append : ∀ {a : Option ι} {xs ys : List ι}, Path fwd bwd a (xs ++ ys) ↔
      Path fwd bwd a xs ∧ Path fwd bwd (endOf a xs) ys
  | _, [], _ => by simp [Path]
  | _, x :: xs, ys => by
    simp only [List.cons_append, Path, endOf_cons, and_assoc]
    rw [path_append]

/-- A path reads the forward pointers of all its pointers but the last one,
and the backward pointers of its nodes. -/
theorem Path.congr : ∀ {a : Option ι} {xs : List ι}, Path fwd bwd a xs → (a :: xs.map some).Nodup →
    (∀ p ∈ a :: xs.map some, p ≠ endOf a xs → fwd' p = fwd p) →
    (∀ x ∈ xs, bwd' x = bwd x) → Path fwd' bwd' a xs
  | _, [], _, _, _, _ => trivial
  | a, x :: xs, ⟨hf, hb, hp⟩, hnd, hfw, hbw => by
    rw [List.map_cons, List.nodup_cons] at hnd
    have hane : a ≠ endOf (some x) xs := by
      rintro rfl
      exact hnd.1 (endOf_mem (some x) xs)
    refine ⟨?_, ?_, ?_⟩
    · rw [hfw a List.mem_cons_self hane]
      exact hf
    · rw [hbw x List.mem_cons_self]
      exact hb
    · exact Path.congr hp hnd.2
        (fun p hm hne => hfw p (List.mem_cons_of_mem _ hm) hne)
        (fun y hy => hbw y (List.mem_cons_of_mem _ hy))

/-! ## Reading a list at a node -/

variable {a : Option ι} {xs ys : List ι} {x : ι}

theorem Listed.fwd_end (h : Listed fwd bwd a (xs ++ ys)) : fwd (endOf a xs) = ys.head? := by
  obtain ⟨hp, he⟩ := h
  rw [path_append] at hp
  cases ys with
  | nil => simpa using he
  | cons y ys => exact hp.2.1

theorem Listed.fwd_node (h : Listed fwd bwd a (xs ++ x :: ys)) : fwd (some x) = ys.head? := by
  have h' : Listed fwd bwd a ((xs ++ [x]) ++ ys) := by simpa using h
  simpa using h'.fwd_end

theorem Listed.bwd_node (h : Listed fwd bwd a (xs ++ x :: ys)) : bwd x = endOf a xs :=
  (path_append.mp h.1).2.2.1

/-! ## Edits -/

section

variable {a b b' : Option ι} {xs ys : List ι} {n : ι}

/-- The nodes on both sides of a node `n` that is linked in or out. Those behind it are
entered from `b'` afterwards. -/
theorem Path.seam (hpre : Path fwd bwd a xs) (hpost : Listed fwd bwd b ys)
    (hnd : (a :: (xs ++ n :: ys).map some).Nodup)
    (hentry : fwd' b' = ys.head?) (hback : ∀ y, ys.head? = some y → bwd' y = b')
    (hfw : ∀ p, p ≠ endOf a xs → p ≠ some n → fwd' p = fwd p)
    (hbw : ∀ x, x ≠ n → ys.head? ≠ some x → bwd' x = bwd x) :
    Path fwd' bwd' a xs ∧ Listed fwd' bwd' b' ys := by
  rw [List.map_append, List.map_cons, ← List.cons_append, List.nodup_append] at hnd
  obtain ⟨hndx, hndy, hdisj⟩ := hnd
  rw [List.nodup_cons] at hndy
  constructor
  · apply hpre.congr hndx
    · intro p hpm hpe
      apply hfw p hpe
      rintro rfl
      exact hdisj _ hpm _ List.mem_cons_self rfl
    · intro x hx
      have hxm : some x ∈ a :: xs.map some := List.mem_cons_of_mem _ (List.mem_map_of_mem hx)
      apply hbw x
      · rintro rfl
        exact hdisj _ hxm _ List.mem_cons_self rfl
      · intro hhd
        have hy : x ∈ ys := List.mem_of_mem_head? hhd
        exact hdisj _ hxm _
          (List.mem_cons_of_mem _ (List.mem_map_of_mem hy)) rfl
  · cases ys with
    | nil => exact ⟨trivial, hentry⟩
    | cons y ys =>
      obtain ⟨⟨_, _, hrest⟩, he⟩ := hpost
      have hfw' : ∀ p ∈ some y :: ys.map some, fwd' p = fwd p := by
        intro p hpm
        apply hfw p
        · rintro rfl
          exact hdisj _ (endOf_mem a xs) _ (List.mem_cons_of_mem _ hpm) rfl
        · rintro rfl
          exact hndy.1 hpm
      refine ⟨⟨hentry, hback y rfl, ?_⟩, ?_⟩
      · apply hrest.congr hndy.2 (fun p hpm _ => hfw' p hpm)
        intro x hx
        apply hbw x
        · rintro rfl
          exact hndy.1 (List.mem_cons_of_mem _ (List.mem_map_of_mem hx))
        · intro hhd
          obtain rfl : y = x := by simpa using hhd
          have hndy' := hndy.2
          rw [List.map_cons, List.nodup_cons] at hndy'
          exact hndy'.1 (List.mem_map_of_mem hx)
      · rw [endOf_cons, hfw' _ (endOf_mem (some y) ys)]
        exact he

/-- Link a fresh node `n` in after the prefix `xs`. -/
theorem Listed.insert (h : Listed fwd bwd a (xs ++ ys)) (hnd : (a :: (xs ++ ys).map some).Nodup)
    (hn : some n ∉ a :: (xs ++ ys).map some)
    (hseam : fwd' (endOf a xs) = some n) (hnext : fwd' (some n) = ys.head?)
    (hprev : bwd' n = endOf a xs)
    (hback : ∀ y, ys.head? = some y → bwd' y = some n)
    (hfw : ∀ p, p ≠ endOf a xs → p ≠ some n → fwd' p = fwd p)
    (hbw : ∀ x, x ≠ n → ys.head? ≠ some x → bwd' x = bwd x) :
    Listed fwd' bwd' a (xs ++ n :: ys) := by
  obtain ⟨hp, he⟩ := h
  obtain ⟨hpx, hpy⟩ := path_append.mp hp
  have hnd' : (a :: (xs ++ n :: ys).map some).Nodup := by
    rw [List.map_append, ← List.cons_append] at hnd hn ⊢
    exact List.nodup_middle.mpr (List.nodup_cons.mpr ⟨hn, hnd⟩)
  obtain ⟨hpre, hpost⟩ := hpx.seam ⟨hpy, by simpa using he⟩ hnd' hnext hback hfw hbw
  refine ⟨path_append.mpr ⟨hpre, hseam, hprev, hpost.1⟩, ?_⟩
  simpa using hpost.2

/-- Unlink the node `n` that follows the prefix `xs`. Its own pointers may
be anything afterwards. -/
theorem Listed.remove (h : Listed fwd bwd a (xs ++ n :: ys))
    (hnd : (a :: (xs ++ n :: ys).map some).Nodup)
    (hseam : fwd' (endOf a xs) = ys.head?)
    (hback : ∀ y, ys.head? = some y → bwd' y = endOf a xs)
    (hfw : ∀ p, p ≠ endOf a xs → p ≠ some n → fwd' p = fwd p)
    (hbw : ∀ x, x ≠ n → ys.head? ≠ some x → bwd' x = bwd x) :
    Listed fwd' bwd' a (xs ++ ys) := by
  obtain ⟨hp, he⟩ := h
  obtain ⟨hpx, _, _, hpy⟩ := path_append.mp hp
  obtain ⟨hpre, hpost⟩ := hpx.seam ⟨hpy, by simpa using he⟩ hnd hseam hback hfw hbw
  refine ⟨path_append.mpr ⟨hpre, hpost.1⟩, ?_⟩
  simpa using hpost.2

end

end NeptunOS.Linked
