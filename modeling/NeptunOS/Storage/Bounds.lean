import NeptunOS.Storage.Positions
import NeptunOS.Storage.Vector

/-!
# Element access and its bounds

`operator[]`, `last`, `pop` and `swap_remove` of `Vector`, `operator[]` of `Array` and
the accesses of `LinkedList` by index, in the `DBG` build. An access gives the indices
of the elements that it reads, returns or removes. Each container has its own check:
some let the index `size` through, some make none, and the list counts on along its
ring. `out_of_range_stopped_iff` says where an access is stopped as it should be.
-/

namespace NeptunOS

open Function Stepwise

variable {T : Type}

/-- The access halts with `fatal`, or it touches elements below `size` only. -/
def Stopped {σ : Type} (size : ℕ) (r : Except Halt (List ℕ × σ)) : Prop :=
  (∃ msg, r = .error (.fatal msg)) ∨ ∃ is s', r = .ok (is, s') ∧ ∀ i ∈ is, i < size

theorem stopped_ok_iff {σ : Type} {size : ℕ} {is : List ℕ} {s' : σ} :
    Stopped size (.ok (is, s')) ↔ ∀ i ∈ is, i < size := by
  constructor
  · rintro (⟨msg, h⟩ | ⟨is', s'', h, hall⟩)
    · cases h
    · cases h
      exact hall
  · exact fun hall => .inr ⟨is, s', rfl, hall⟩

theorem stopped_fatal {σ : Type} (size : ℕ) (msg : String) :
    Stopped (σ := σ) size (.error (.fatal msg)) := .inl ⟨msg, rfl⟩

/-! ## `Vector` -/

namespace Vec

/-- `operator[](idx)`: the element that the reference names. -/
def index (v : Vec T) (idx : ℕ) : Except Halt ℕ :=
  if idx > v.size then
    .error (.fatal "vector access out of bounds! idx %lld size %lld")
  else if v.data.isNone then .error (.fatal "vector data null (uninitialized)!")
  else .ok idx

/-- `last()`. -/
def last (v : Vec T) : ℕ := wsub v.size 1

/-- `pop()`. -/
def pop (v : Vec T) : Except Halt (ℕ × Vec T) :=
  if v.size = 0 then .error (.fatal "Tried to pop an empty stack!")
  else .ok (v.size - 1, ⟨v.data, v.size - 1, v.capacity, fun h => by rw [v.sized h]⟩)

/-- `swap_remove(idx)`: `data[idx] = data[size--]`, with the index that is read. -/
def swapRemove (v : Vec T) (idx : ℕ) : Except Halt (ℕ × Vec T) :=
  if idx ≥ v.size then .error (.fatal "swap_remove: idx out of bounds!")
  else .ok (v.size, ⟨v.data.map fun d => update d idx (d v.size), v.size - 1, v.capacity,
    fun h => by rw [v.sized (Option.map_eq_none_iff.mp h)]⟩)

/-- The accesses of a vector. -/
inductive Access where
  | index (idx : ℕ)
  | last
  | pop
  | swapRemove (idx : ℕ)
deriving DecidableEq, Repr

/-- The elements that an access touches, and the vector after it. -/
def access (v : Vec T) : Access → Except Halt (List ℕ × Vec T)
  | .index idx => do
    let i ← v.index idx
    return ([i], v)
  | .last => .ok ([v.last], v)
  | .pop => do
    let (i, v') ← v.pop
    return ([i], v')
  | .swapRemove idx => do
    let (i, v') ← v.swapRemove idx
    return ([i, idx], v')

/-- `swap_remove` puts the last element in the place of the removed one. -/
def Swapped (v : Vec T) (a : Access) : Prop :=
  ∀ idx xs x, a = .swapRemove idx → idx < v.size → v.Filled xs → xs.getLast? = some x →
    ∃ is v', v.access a = .ok (is, v') ∧ v'.Filled (xs.set idx x).dropLast

/-- Where the checks of a vector are right. -/
def Guarded (v : Vec T) : Access → Prop
  | .index idx => idx = v.size → v.data = none
  | .last => 0 < v.size
  | .pop => True
  | .swapRemove idx => v.size ≤ idx

theorem stopped_index_iff (v : Vec T) (idx : ℕ) :
    Stopped v.size (v.access (.index idx)) ↔ (idx = v.size → v.data = none) := by
  rw [access, index]
  split
  case isTrue hgt => exact iff_of_true (stopped_fatal _ _) fun heq => by omega
  case isFalse hle =>
    split
    case isTrue hnone =>
      exact iff_of_true (stopped_fatal _ _) fun _ => Option.isNone_iff_eq_none.mp hnone
    case isFalse hsome =>
      refine stopped_ok_iff.trans ?_
      rw [List.forall_mem_singleton]
      constructor
      · intro hlt heq
        omega
      · intro hnull
        have hne : idx ≠ v.size := fun heq => hsome (by rw [hnull heq]; rfl)
        omega

theorem stopped_last_iff (v : Vec T) : Stopped v.size (v.access .last) ↔ 0 < v.size := by
  refine stopped_ok_iff.trans ?_
  rw [List.forall_mem_singleton, last, wsub]
  omega

theorem stopped_pop (v : Vec T) : Stopped v.size (v.access .pop) := by
  rw [access, pop]
  split
  case isTrue => exact stopped_fatal _ _
  case isFalse hne =>
    refine stopped_ok_iff.mpr ?_
    rw [List.forall_mem_singleton]
    omega

theorem stopped_swapRemove_iff (v : Vec T) (idx : ℕ) :
    Stopped v.size (v.access (.swapRemove idx)) ↔ v.size ≤ idx := by
  rw [access, swapRemove]
  split
  case isTrue hge => exact iff_of_true (stopped_fatal _ _) hge
  case isFalse hlt =>
    refine stopped_ok_iff.trans (iff_of_false (fun hall => ?_) hlt)
    exact Nat.lt_irrefl _ (hall v.size List.mem_cons_self)

theorem stopped_iff (v : Vec T) (a : Access) :
    Stopped v.size (v.access a) ∧ v.Swapped a ↔ v.Guarded a := by
  cases a with
  | index idx =>
    rw [Guarded, ← stopped_index_iff]
    exact and_iff_left fun _ _ _ h => by cases h
  | last =>
    rw [Guarded, ← stopped_last_iff]
    exact and_iff_left fun _ _ _ h => by cases h
  | pop => exact iff_of_true ⟨v.stopped_pop, fun _ _ _ h => by cases h⟩ trivial
  | swapRemove idx =>
    rw [Guarded, ← stopped_swapRemove_iff]
    refine and_iff_left_of_imp fun hstop idx' xs x heq hlt => ?_
    -- only accesses behind the end are stopped
    cases heq
    exact absurd (v.stopped_swapRemove_iff idx |>.mp hstop) (by omega)

end Vec

/-! ## `Array` -/

/-- `Array<T, S>`: `S` elements, and what lies behind them. -/
structure Arr (T : Type) (S : ℕ) where
  data : ℕ → T

namespace Arr

variable {S : ℕ}

/-- `operator[](idx)`. -/
def index (_ : Arr T S) (idx : ℕ) : Except Halt ℕ :=
  if idx > S then .error (.fatal "array<> access out of bounds! idx %lld size %lld")
  else .ok idx

/-- The element that `operator[](idx)` touches. -/
def access (a : Arr T S) (idx : ℕ) : Except Halt (List ℕ × Arr T S) := do
  let i ← a.index idx
  return ([i], a)

theorem stopped_iff (a : Arr T S) (idx : ℕ) : Stopped S (a.access idx) ↔ idx ≠ S := by
  rw [access, index]
  split
  case isTrue hgt => exact iff_of_true (stopped_fatal _ _) (by omega)
  case isFalse hle =>
    refine stopped_ok_iff.trans ?_
    rw [List.forall_mem_singleton]
    omega

end Arr

/-! ## `LinkedList` -/

namespace LinkedList

/-- The accesses of a list by index. -/
inductive Access where
  | index (idx : ℕ)
  | getLink (idx : ℕ)
  | remove (idx : ℕ)
deriving DecidableEq, Repr

/-- The index that an access is about, when it returns, and the list after it. -/
def access (l : LinkedList T) : Access → Except Halt (List ℕ × LinkedList T)
  | .index idx => do
    let _ ← l.index idx
    return ([idx], l)
  | .getLink idx => do
    let _ ← l.getLink idx
    return ([idx], l)
  | .remove idx => do
    let l' ← l.removeAt idx
    return ([idx], l')

/-- Where the checks of a list are right. -/
def Guarded (l : LinkedList T) : Access → Prop
  | .index idx => idx < l.size ∨ l.size = 0 ∧ 0 < idx
  | .getLink idx => idx < l.size ∨ l.size = 0 ∧ 0 < idx
  | .remove idx => idx = l.size → l.size = 0

variable {l : LinkedList T} {c : Contents T}

section

variable (h : Represents l c)

include h

/-- In an empty list the count stops at once. -/
theorem Represents.getLink_empty (hempty : c.elems = []) (idx : ℕ) : l.getLink idx =
      if idx ≠ 0 then .error (.fatal "dlinkedlist: index out of bounds! %lld")
      else .ok none := by
  rw [LinkedList.getLink, h.first_none hempty]
  cases idx <;> rfl

theorem Represents.stopped_getLink_iff (idx : ℕ) :
    Stopped l.size (l.access (.getLink idx)) ↔ idx < l.size ∨ l.size = 0 ∧ 0 < idx := by
  have hsize := h.size
  by_cases hempty : c.elems = []
  · have hzero : l.size = 0 := by rw [hsize, hempty]; rfl
    rw [access, h.getLink_empty hempty]
    split
    case isTrue hne => exact iff_of_true (stopped_fatal _ _) (.inr ⟨hzero, by omega⟩)
    case isFalse heq =>
      refine stopped_ok_iff.trans ?_
      rw [List.forall_mem_singleton]
      omega
  · have hpos : 0 < c.elems.length := List.length_pos_iff.mpr hempty
    rw [access, h.getLink (addrs_ne_nil hempty)]
    refine stopped_ok_iff.trans ?_
    rw [List.forall_mem_singleton]
    omega

/-- `remove(size)` counts round the ring and takes the first link. -/
theorem Represents.removeAt_size (hempty : c.elems ≠ []) :
    ∃ i, i ∈ c.addrs ∧ l.removeAt l.size = l.removeLink i := by
  have hne := addrs_ne_nil hempty
  have hpos : 0 < c.addrs.length := List.length_pos_iff.mpr hne
  have hlen : l.size = c.addrs.length := h.size.trans (List.length_map ..).symm
  have hseek := @Represents.seek_from _ _ _ h l.size 0 hpos
  rw [Nat.zero_add, hlen, Nat.mod_self, ← List.head?_eq_getElem?, ← h.first] at hseek
  obtain ⟨hfirst, _⟩ := h.ends hne
  refine ⟨_, List.head_mem hne, ?_⟩
  rw [LinkedList.removeAt, if_neg (Nat.lt_irrefl _), hlen, walk_of_seek hseek, ok_bind, hfirst]

theorem Represents.stopped_remove_iff (idx : ℕ) :
    Stopped l.size (l.access (.remove idx)) ↔ (idx = l.size → l.size = 0) := by
  rcases Nat.lt_trichotomy idx l.size with hlt | rfl | hgt
  · obtain ⟨i, hi, heq⟩ := h.removeAt hlt
    obtain ⟨l', hl', _⟩ := h.removeLink (List.mem_of_getElem? hi)
    refine iff_of_true ?_ fun heq => by omega
    rw [access, heq, hl']
    exact stopped_ok_iff.mpr (List.forall_mem_singleton.mpr hlt)
  · by_cases hempty : c.elems = []
    · have hzero : l.size = 0 := by rw [h.size, hempty]; rfl
      refine iff_of_true ?_ fun _ => hzero
      rw [access, LinkedList.removeAt, if_neg (Nat.lt_irrefl _), hzero, h.first_none hempty]
      exact stopped_fatal _ _
    · have hpos : 0 < c.elems.length := List.length_pos_iff.mpr hempty
      have hsize := h.size
      obtain ⟨i, hi, heq⟩ := h.removeAt_size hempty
      obtain ⟨l', hl', _⟩ := h.removeLink hi
      refine iff_of_false ?_ fun himp => by have := himp rfl; omega
      rw [access, heq, hl']
      intro hstop
      have hall := stopped_ok_iff.mp hstop
      exact Nat.lt_irrefl _ (hall _ List.mem_cons_self)
  · refine iff_of_true ?_ fun heq => by omega
    rw [access, LinkedList.removeAt, if_pos hgt]
    exact stopped_fatal _ _

theorem Represents.stopped_iff (a : Access) : Stopped l.size (l.access a) ↔ l.Guarded a := by
  cases a with
  | index idx => exact h.stopped_getLink_iff idx
  | getLink idx => exact h.stopped_getLink_iff idx
  | remove idx => exact h.stopped_remove_iff idx

end

end LinkedList

/-- **Out-of-range access.** For every vector, array and list and every index: an access
halts with `fatal` or touches elements below the size only, and `swap_remove` puts
the last element in place of the removed one, if and only if the access is guarded. -/
theorem out_of_range_stopped_iff :
    (∀ (v : Vec T) (a : Vec.Access), Stopped v.size (v.access a) ∧ v.Swapped a ↔ v.Guarded a) ∧
    (∀ (S : ℕ) (a : Arr T S) (idx : ℕ), Stopped S (a.access idx) ↔ idx ≠ S) ∧
    ∀ (l : LinkedList T) (c : LinkedList.Contents T), LinkedList.Represents l c →
      ∀ a, Stopped l.size (l.access a) ↔ l.Guarded a :=
  ⟨Vec.stopped_iff, fun _ => Arr.stopped_iff, fun _ _ h => h.stopped_iff⟩

/-- An empty list stops `remove(0)`. -/
theorem out_of_range_stopped_empty :
    Stopped 0 ((LinkedList.empty : LinkedList ℕ).access (.remove 0)) :=
  (out_of_range_stopped_iff.2.2 _ _ LinkedList.empty_represents (.remove 0)).mpr fun _ => rfl

/-- Two elements in a block of eight. -/
def twoElements : Vec ℕ :=
  ⟨some fun i => if i = 0 then 10 else if i = 1 then 20 else 99, 2, 8, fun h => by cases h⟩

/-- The element behind the last one is handed out, and `swap_remove` takes it for the
last. -/
theorem element_behind_last :
    twoElements.Filled [10, 20] ∧ ¬ Stopped twoElements.size (twoElements.access (.index 2)) ∧
      ∃ is v', twoElements.access (.swapRemove 0) = .ok (is, v') ∧ v'.size = 1 ∧
        v'.get 0 = some 99 := by
  refine ⟨⟨rfl, by decide⟩, fun h => ?_, [2, 0], _, rfl, rfl, rfl⟩
  have hlt := stopped_ok_iff.mp h 2 List.mem_cons_self
  exact absurd hlt (by decide)

end NeptunOS
