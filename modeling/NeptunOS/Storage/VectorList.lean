import NeptunOS.Heap.MemoryMgr
import NeptunOS.Storage.Vector

/-!
# Vectors as lists

`Vec` says what is in a vector's block. Here the block also has a length: `_galloc` is
asked for `cap * sizeof(T)` bytes, a `u64`, and the heap rounds the request up in `u64`
arithmetic again, so a block may be shorter than the capacity recorded for it. Over any
number of vectors of one trivially copyable `T`, `vector_refines_iff` says exactly when
they behave as lists: as long as no request exceeds `maxRoom` bytes and no block of
`2^32` or more elements has to move. `toVec_reserve` ties both models of `reserve`
together.
-/

namespace NeptunOS.Storage

open Stepwise

/-! ## Blocks -/

/-- Bytes between the redzones of the block that serves a request of `n` bytes. -/
def room (n : ℕ) : ℕ := Heap.blockSize n - 2 * Heap.redzoneSize

/-- The largest block the heap can hand out. -/
def maxRoom : ℕ := 2 ^ 64 - 144

theorem room_le (n : ℕ) : room n ≤ maxRoom := by
  unfold room maxRoom Heap.blockSize Heap.redzoneSize Heap.minAlloc align wadd
  omega

theorem le_room {n : ℕ} (h : n ≤ maxRoom) : n ≤ room n := by
  unfold maxRoom at h
  unfold room Heap.blockSize Heap.redzoneSize Heap.minAlloc align wadd
  omega

/-- A block of the heap that holds `T`s. Stores behind its end are not tracked: they do
not change what the cells hold. -/
structure Block (T : Type) where
  cells : ℕ → T
  bytes : ℕ
  bytes_le : bytes ≤ maxRoom

variable {T : Type}

/-- `_galloc(n)`, where there is room; `cells` is what is in the block. -/
def galloc (n : ℕ) (cells : ℕ → T) : Option (Block T) :=
  if n = 0 then none else some ⟨cells, room n, room_le n⟩

/-- A successful `_gtryrealloc(.., n)`; it never shortens the block. -/
def Block.extend (b : Block T) (n : ℕ) : Block T :=
  ⟨b.cells, max b.bytes (room n), max_le b.bytes_le (room_le n)⟩

/-- Write the cells `f` selects. -/
def Block.fill (b : Block T) (f : (ℕ → T) → ℕ → T) : Block T :=
  { b with cells := f b.cells }

/-! ## `Vector<T>` -/

/-- `Vector<T>` with its block. -/
structure Vector (T : Type) where
  data : Option (Block T)
  size : ℕ
  capacity : ℕ
  sized : data = none → size = 0

namespace Vector

/-- What is in the block. -/
def toVec (v : Vector T) : Vec T where
  data := v.data.map Block.cells
  size := v.size
  capacity := v.capacity
  sized h := v.sized (Option.map_eq_none_iff.mp h)

/-- Bytes of the block; none without one. -/
def bytes (v : Vector T) : ℕ := v.data.elim 0 Block.bytes

/-- A vector of no elements without a block: `Vector()`, with `VEC_DEFAULT_SIZE` 0, and
what a move leaves behind. -/
def empty : Vector T := ⟨none, 0, 0, fun _ => rfl⟩

section Code

variable (sizeof : ℕ)

/-- `Vector(cap)`. -/
def init (cap : ℕ) (block : ℕ → T) : Vector T where
  data := if cap = 0 then none else galloc (cap * sizeof % 2 ^ 64) block
  size := 0
  capacity := cap
  sized _ := rfl

/-- `reserve(cap)`. The elements are moved by a loop that counts in a `u32`. -/
def reserve (v : Vector T) (g : Grow T) (cap : ℕ) : Except Halt (Vector T) :=
  let cap := if cap < v.size then v.size else cap
  let request := cap * sizeof % 2 ^ 64
  match h : v.data with
  | none =>
    -- with nothing to reserve, `try_realloc` and `alloc` both allocate nothing
    if cap = 0 then .ok { v with capacity := cap }
    else .ok ⟨galloc request g.block, v.size, cap, fun _ => v.sized h⟩
  | some b =>
    if g.inPlace then .ok ⟨some (b.extend request), v.size, cap, fun h => by cases h⟩
    else
      match galloc request g.block with
      | none =>
        if v.size = 0 then .ok ⟨none, 0, cap, fun _ => rfl⟩
        else .error (.exception "page fault: newdata is null")
      | some b' =>
        if 2 ^ 32 ≤ v.size then .error .endless
        else .ok ⟨some (b'.fill fun c i => if i < v.size then b.cells i else c i), v.size,
          cap, fun h => by cases h⟩

/-- `new (&data[size++]) T(x)`. -/
def put (v : Vector T) (x : T) : Except Halt (Vector T) :=
  match v.data with
  | none => .error (.exception "page fault: data is null")
  | some b =>
    .ok ⟨some (b.fill fun c i => if i = v.size then x else c i), v.size + 1, v.capacity,
      fun h => by cases h⟩

/-- `push_back(x)`. -/
def pushBack (v : Vector T) (g : Grow T) (x : T) : Except Halt (Vector T) := do
  let v ← if v.capacity ≤ v.size then v.reserve sizeof g (growfun v.capacity) else .ok v
  v.put x

/-- `emplace_back(x)`. -/
def emplaceBack (v : Vector T) (g : Grow T) (x : T) : Except Halt (Vector T) := do
  let v ← if v.capacity ≤ v.size then v.reserve sizeof g (growfun v.capacity) else .ok v
  if (v.size ≠ 0 ∨ v.capacity ≠ 0) ∧ v.data.isNone then
    .error (.fatal "Invalid vector state: data is null but size is %lld (cap %lld)")
  else v.put x

/-- `operator+=(x)`. -/
def append (v : Vector T) (g : Grow T) (x : T) : Except Halt (Vector T) := do
  let v ← v.reserve sizeof g (wadd v.size 1)
  v.put x

/-- `resize(newSize)`; new elements are `T()`. -/
def resize [Inhabited T] (v : Vector T) (g : Grow T) (newSize : ℕ) :
    Except Halt (Vector T) := do
  let v ← v.reserve sizeof g newSize
  match v.data with
  | none => if newSize = 0 then .ok v else .error (.exception "page fault: data is null")
  | some b =>
    return ⟨some (b.fill fun c i => if v.size ≤ i ∧ i < newSize then default else c i),
      newSize, v.capacity, fun h => by cases h⟩

/-- `pop()`. -/
def pop (v : Vector T) : Except Halt (T × Vector T) :=
  match v.data with
  | none => .error (.fatal "Tried to pop an empty stack!")
  | some b =>
    if v.size = 0 then .error (.fatal "Tried to pop an empty stack!")
    else .ok (b.cells (v.size - 1), ⟨some b, v.size - 1, v.capacity, fun h => by cases h⟩)

/-- `size = o.size` and the loop that copies the elements. -/
def copyFrom (v o : Vector T) : Except Halt (Vector T) :=
  match v.data, o.data with
  | some b, some b' =>
    .ok ⟨some (b.fill fun c i => if i < o.size then b'.cells i else c i), o.size, v.capacity,
      fun h => by cases h⟩
  | data, none => .ok ⟨data, 0, v.capacity, fun _ => rfl⟩
  | none, some _ =>
    if o.size = 0 then .ok ⟨none, 0, v.capacity, fun _ => rfl⟩
    else .error (.exception "page fault: data is null")

/-- `operator=(const Vector& o)`; destroying a `T` does nothing. -/
def assign (v : Vector T) (g : Grow T) (o : Vector T) : Except Halt (Vector T) := do
  let v ← v.reserve sizeof g o.capacity
  v.copyFrom o

/-- `Vector(const Vector& o)`. -/
def copy (g : Grow T) (o : Vector T) : Except Halt (Vector T) := do
  let v ← (empty : Vector T).reserve sizeof g o.capacity
  v.copyFrom o

/-- `Vector{items}`. -/
def ofItems (items : List T) (g : Grow T) : Except Halt (Vector T) :=
  let capacity := align items.length 8
  if capacity = 0 then .ok empty
  else items.foldlM (fun v x => v.emplaceBack sizeof g x) (init sizeof capacity g.block)

end Code

/-- `operator==(o)`. -/
def equal [DecidableEq T] (v o : Vector T) : Bool :=
  if o.size ≠ v.size then false
  else (List.range v.size).all fun i => v.toVec.get i = o.toVec.get i

end Vector

/-! ## Many vectors -/

/-- An operation on the vectors constructed so far, which are named by position. What
the allocator does is part of it. -/
inductive Action (T : Type) where
  | construct (cap : ℕ) (block : ℕ → T)
  | items (xs : List T) (g : Grow T)
  | copy (j : ℕ) (g : Grow T)
  | move (j : ℕ)
  | assign (k j : ℕ) (g : Grow T)
  | pushBack (k : ℕ) (x : T) (g : Grow T)
  | emplaceBack (k : ℕ) (x : T) (g : Grow T)
  | append (k : ℕ) (x : T) (g : Grow T)
  | pop (k : ℕ)
  | resize (k newSize : ℕ) (g : Grow T)
  | reserve (k cap : ℕ) (g : Grow T)
  | equal (k j : ℕ)

/-- What an operation answers. -/
inductive Reply (T : Type) where
  | done
  | value (x : T)
  | answer (b : Bool)
deriving DecidableEq, Repr

/-- The vector named `k`. A program cannot name one that was never constructed. -/
def named {α : Type} (s : List α) (k : ℕ) : Except Halt α :=
  match s[k]? with
  | some v => .ok v
  | none => .error (.fatal "no such object")

/-- Run `f` on the vector named `k`. -/
def alter {α : Type} (s : List α) (k : ℕ) (f : α → Except Halt α) :
    Except Halt (Reply T × List α) := do
  let v ← named s k
  let v' ← f v
  return (.done, s.set k v')

/-- One operation on the vectors. -/
def step [DecidableEq T] [Inhabited T] (sizeof : ℕ) (s : List (Vector T)) :
    Action T → Except Halt (Reply T × List (Vector T))
  | .construct cap block => .ok (.done, s ++ [Vector.init sizeof cap block])
  | .items xs g => do
    let v ← Vector.ofItems sizeof xs g
    return (.done, s ++ [v])
  | .copy j g => do
    let o ← named s j
    let v ← Vector.copy sizeof g o
    return (.done, s ++ [v])
  | .move j => do
    let o ← named s j
    return (.done, s.set j Vector.empty ++ [o])
  | .assign k j g => do
    let o ← named s j
    alter s k fun v => v.assign sizeof g o
  | .pushBack k x g => alter s k fun v => v.pushBack sizeof g x
  | .emplaceBack k x g => alter s k fun v => v.emplaceBack sizeof g x
  | .append k x g => alter s k fun v => v.append sizeof g x
  | .pop k => do
    let v ← named s k
    let (x, v') ← v.pop
    return (.value x, s.set k v')
  | .resize k newSize g => alter s k fun v => v.resize sizeof g newSize
  | .reserve k cap g => alter s k fun v => v.reserve sizeof g cap
  | .equal k j => do
    let v ← named s k
    let o ← named s j
    return (.answer (v.equal o), s)

/-- The same operation on lists. It is undefined for names that do not exist, for the
assignment of a vector to itself and for `pop` on an empty list. -/
def listStep [DecidableEq T] [Inhabited T] (ls : List (List T)) :
    Action T → Except Halt (Reply T × List (List T))
  | .construct _ _ => .ok (.done, ls ++ [[]])
  | .items xs _ => .ok (.done, ls ++ [xs])
  | .copy j _ => do
    let l ← named ls j
    return (.done, ls ++ [l])
  | .move j => do
    let l ← named ls j
    return (.done, ls.set j [] ++ [l])
  | .assign k j _ => do
    let l ← named ls j
    if k = j then .error (.fatal "self-assignment") else alter ls k fun _ => .ok l
  | .pushBack k x _ => alter ls k fun l => .ok (l ++ [x])
  | .emplaceBack k x _ => alter ls k fun l => .ok (l ++ [x])
  | .append k x _ => alter ls k fun l => .ok (l ++ [x])
  | .pop k => do
    let l ← named ls k
    match l.getLast? with
    | none => .error (.fatal "pop on an empty list")
    | some x => return (.value x, ls.set k l.dropLast)
  | .resize k newSize _ => alter ls k fun l =>
    .ok (l.take newSize ++ List.replicate (newSize - l.length) default)
  | .reserve k _ _ => alter ls k fun l => .ok l
  | .equal k j => do
    let l ← named ls k
    let l' ← named ls j
    return (.answer (decide (l = l')), ls)

/-- The vector holds the elements `l`, in a block that is long enough for its capacity. -/
structure Holds (sizeof : ℕ) (v : Vector T) (l : List T) : Prop where
  filled : v.toVec.Filled l
  fits : v.size ≤ v.capacity
  backed : v.capacity * sizeof ≤ v.bytes

/-- The block can be extended in place, or the loop that moves the elements ends. -/
def Vector.Movable (v : Vector T) (g : Grow T) : Prop :=
  v.data = none ∨ g.inPlace = true ∨ v.size < 2 ^ 32

/-- `growfun` without wrap-around. -/
def grown (cap : ℕ) : ℕ := if cap = 0 then 8 else 2 * cap

/-- Every request stays within `maxRoom` bytes, and no vector of `2^32` elements has to
move. -/
def Action.Fits (sizeof : ℕ) (s : List (Vector T)) : Action T → Prop
  | .construct cap _ => cap * sizeof ≤ maxRoom
  | .items xs _ => (xs.length + 7) / 8 * 8 * sizeof ≤ maxRoom
  | .assign k _ g => ∀ v ∈ s[k]?, v.Movable g
  | .pushBack k _ g | .emplaceBack k _ g => ∀ v ∈ s[k]?,
      v.size < v.capacity ∨ (grown v.capacity * sizeof ≤ maxRoom ∧ v.Movable g)
  | .append k _ g => ∀ v ∈ s[k]?, (v.size + 1) * sizeof ≤ maxRoom ∧ v.Movable g
  | .resize k n g | .reserve k n g => ∀ v ∈ s[k]?,
      max n v.size * sizeof ≤ maxRoom ∧ v.Movable g
  | .copy _ _ | .move _ | .pop _ | .equal _ _ => True

/-! ## One vector -/

section Single

variable {sizeof cap newSize : ℕ} {v v' o : Vector T} {g : Grow T} {l l' : List T} {x : T}

theorem Vector.bytes_le (v : Vector T) : v.bytes ≤ maxRoom := by
  unfold Vector.bytes
  cases v.data with
  | none => exact Nat.zero_le _
  | some b => exact b.bytes_le

section

variable (h : Holds sizeof v l)

include h

theorem Holds.request_le : v.capacity * sizeof ≤ maxRoom := h.backed.trans v.bytes_le

theorem Holds.size_eq : v.size = l.length := h.filled.1

theorem Holds.size_request_le : v.size * sizeof ≤ maxRoom :=
  (Nat.mul_le_mul_right _ h.fits).trans h.request_le

/-- A vector with room for an element has a block. -/
theorem Holds.data_ne_none (hpos : 0 < sizeof) (hcap : 0 < v.capacity) : v.data ≠ none := by
  intro hnone
  have hb := h.backed
  rw [Vector.bytes, hnone] at hb
  exact absurd (Nat.mul_pos hcap hpos) (Nat.not_lt.mpr hb)

end

theorem request_eq (h : cap * sizeof ≤ maxRoom) : cap * sizeof % 2 ^ 64 = cap * sizeof := by
  apply Nat.mod_eq_of_lt
  unfold maxRoom at h
  omega

theorem effective_eq (cap size : ℕ) : (if cap < size then size else cap) = max cap size := by
  split <;> omega

/-- Within `maxRoom`, the length of the block makes no difference to what `reserve` does. -/
theorem toVec_reserve (hpos : 0 < sizeof) (hfit : max cap v.size * sizeof ≤ maxRoom) :
    (v.reserve sizeof g cap).map Vector.toVec = v.toVec.reserve g cap := by
  obtain ⟨data, size, capacity, sized⟩ := v
  have hzero : max cap size * sizeof = 0 ↔ max cap size = 0 := by
    rw [Nat.mul_eq_zero, or_iff_left hpos.ne']
  unfold Vec.reserve
  rw [effective_eq]
  cases data with
  | none =>
    simp only [Vector.reserve, Vector.toVec, effective_eq, request_eq hfit, Option.map_none]
    by_cases hmax : max cap size = 0 <;>
      simp [Except.map, galloc, hzero, hmax, Vector.toVec]
  | some b =>
    simp only [Vector.reserve, Vector.toVec, effective_eq, request_eq hfit, Option.map_some,
      galloc, hzero]
    by_cases hg : g.inPlace = true
    · simp [Except.map, hg, Vector.toVec, Block.extend]
    by_cases hmax : max cap size = 0
    · obtain ⟨rfl, rfl⟩ : cap = 0 ∧ size = 0 := by omega
      simp [Except.map, hg, Vector.toVec]
    by_cases hbig : 4294967296 ≤ size
    · simp [Except.map, hg, hmax, hbig]
    · simp [Except.map, hg, hmax, hbig, Vector.toVec, Block.fill]
      rfl

/-- What a `reserve` that returns has recorded. -/
theorem Vector.reserve_inv (h : v.reserve sizeof g cap = .ok v') :
    v'.size = v.size ∧ v'.capacity = max cap v.size ∧ v.Movable g := by
  obtain ⟨data, size, capacity, sized⟩ := v
  cases data with
  | none =>
    simp only [Vector.reserve, effective_eq] at h
    split at h <;> cases h <;> exact ⟨rfl, rfl, .inl rfl⟩
  | some b =>
    simp only [Vector.reserve, effective_eq] at h
    split at h
    case isTrue hg =>
      cases h
      exact ⟨rfl, rfl, .inr (.inl hg)⟩
    case isFalse =>
      split at h
      · split at h
        case isTrue hsize =>
          cases h
          exact ⟨hsize.symm, rfl, .inr (.inr (by dsimp only; omega))⟩
        case isFalse => cases h
      · split at h
        case isTrue => cases h
        case isFalse hsize =>
          cases h
          exact ⟨rfl, rfl, .inr (.inr (Nat.not_le.mp hsize))⟩

/-- Within `maxRoom`, the block is as long as recorded. -/
theorem Vector.reserve_backed (hfit : max cap v.size * sizeof ≤ maxRoom)
    (h : v.reserve sizeof g cap = .ok v') : v'.capacity * sizeof ≤ v'.bytes := by
  obtain ⟨data, size, capacity, sized⟩ := v
  have hroom := le_room hfit
  cases data with
  | none =>
    simp only [Vector.reserve, effective_eq, request_eq hfit, galloc] at h
    split at h
    case isTrue hz =>
      cases h
      simp [hz]
    case isFalse =>
      cases h
      by_cases hz : max cap size * sizeof = 0 <;> simp [Vector.bytes, hz, hroom]
  | some b =>
    simp only [Vector.reserve, effective_eq, request_eq hfit, galloc] at h
    split at h
    case isTrue hg =>
      cases h
      exact hroom.trans (Nat.le_max_right _ _)
    case isFalse =>
      by_cases hz : max cap size * sizeof = 0
      · rw [if_pos hz] at h
        dsimp only at h
        split at h
        · cases h
          simp [hz]
        · cases h
      · rw [if_neg hz] at h
        dsimp only at h
        split at h
        · cases h
        · cases h
          exact hroom

theorem Holds.reserve (h : Holds sizeof v l) (hpos : 0 < sizeof) (cap : ℕ)
    (hfit : max cap v.size * sizeof ≤ maxRoom) (hmove : v.Movable g) :
    ∃ v', v.reserve sizeof g cap = .ok v' ∧ Holds sizeof v' l ∧ v'.capacity = max cap v.size := by
  have hvec := @toVec_reserve T sizeof cap v g hpos hfit
  have hok : ∃ w, v.toVec.reserve g cap = .ok w := by
    rcases hmove with hnone | hg | hsize
    · exact Vec.reserve_eq_ok (.inl (by rw [show v.toVec.size = 0 from v.sized hnone]; decide))
    · exact Vec.reserve_eq_ok (.inr hg)
    · exact Vec.reserve_eq_ok (.inl hsize)
  obtain ⟨w, hw⟩ := hok
  rw [hw] at hvec
  obtain ⟨v', hv', rfl⟩ := map_eq_ok.mp hvec
  obtain ⟨hsize, hcap, -, hget⟩ := Vec.reserve_spec hw
  refine ⟨v', hv', ⟨⟨hsize.trans h.filled.1, fun i hi => ?_⟩, ?_, ?_⟩, hcap⟩
  · rw [hget i (h.filled.1 ▸ hi), h.filled.2 i hi]
  · show v'.toVec.size ≤ v'.toVec.capacity
    rw [hsize, hcap]
    exact Nat.le_max_right _ _
  · exact Vector.reserve_backed hfit hv'

theorem reserve_iff (h : Holds sizeof v l) (hpos : 0 < sizeof) :
    (∃ v', v.reserve sizeof g cap = .ok v' ∧ Holds sizeof v' l) ↔
      max cap v.size * sizeof ≤ maxRoom ∧ v.Movable g := by
  constructor
  · rintro ⟨v', hv', hh⟩
    obtain ⟨-, hcap, hmove⟩ := Vector.reserve_inv hv'
    exact ⟨hcap ▸ hh.request_le, hmove⟩
  · rintro ⟨hfit, hmove⟩
    obtain ⟨v', hv', hh, -⟩ := h.reserve hpos cap hfit hmove
    exact ⟨v', hv', hh⟩

theorem Vector.put_inv (h : v.put x = .ok v') :
    v'.size = v.size + 1 ∧ v'.capacity = v.capacity := by
  unfold Vector.put at h
  split at h
  · cases h
  · cases h
    exact ⟨rfl, rfl⟩

theorem Holds.put (h : Holds sizeof v l) (hpos : 0 < sizeof) (hroom : v.size < v.capacity) :
    ∃ v', v.put x = .ok v' ∧ Holds sizeof v' (l ++ [x]) := by
  obtain ⟨b, hb⟩ := Option.ne_none_iff_exists'.mp (h.data_ne_none hpos (by omega))
  refine ⟨⟨some (b.fill fun c i => if i = v.size then x else c i), v.size + 1, v.capacity,
    fun h => by cases h⟩, ?_, ⟨?_, fun i hi => ?_⟩, hroom, ?_⟩
  · rw [Vector.put, hb]
  · simp [Vector.toVec, h.size_eq]
  · rw [List.length_append, List.length_singleton] at hi
    by_cases heq : i = v.size
    · simp [Vec.get, Vector.toVec, Block.fill, heq, h.size_eq]
    · have hlt : i < l.length := by
        have := h.size_eq
        omega
      rw [List.getElem?_append_left hlt, ← h.filled.2 i hlt]
      simp [Vec.get, Vector.toVec, Block.fill, heq, hb]
  · have := h.backed
    rw [Vector.bytes, hb] at this
    exact this

/-- Reserve, then write behind the last element. -/
theorem reserve_put_iff (h : Holds sizeof v l) (hpos : 0 < sizeof) :
    (∃ v', (v.reserve sizeof g cap >>= fun w => w.put x) = .ok v' ∧ Holds sizeof v' (l ++ [x])) ↔
      (v.size < cap ∧ cap * sizeof ≤ maxRoom) ∧ v.Movable g := by
  constructor
  · rintro ⟨v', hv', hh⟩
    obtain ⟨w, hw, hput⟩ := bind_eq_ok.mp hv'
    obtain ⟨hsize, hcap, hmove⟩ := Vector.reserve_inv hw
    obtain ⟨hsize', hcap'⟩ := Vector.put_inv hput
    have hfits := hh.fits
    have hreq := hh.request_le
    rw [hcap', hcap] at hreq
    have hlt : v.size < cap := by omega
    rw [Nat.max_eq_left hlt.le] at hreq
    exact ⟨⟨hlt, hreq⟩, hmove⟩
  · rintro ⟨⟨hlt, hreq⟩, hmove⟩
    have hmax : max cap v.size = cap := Nat.max_eq_left hlt.le
    obtain ⟨w, hw, hh, hcap⟩ := h.reserve hpos cap (by rwa [hmax]) hmove
    obtain ⟨hsize, -, -⟩ := Vector.reserve_inv hw
    obtain ⟨v', hput, hh'⟩ := hh.put (x := x) hpos (by omega)
    exact ⟨v', bind_eq_ok.mpr ⟨w, hw, hput⟩, hh'⟩

/-- Doubling has made room for an element exactly when it did not wrap around. -/
theorem growfun_iff (hpos : 0 < sizeof) (hcap : cap * sizeof ≤ maxRoom) :
    (cap < growfun cap ∧ growfun cap * sizeof ≤ maxRoom) ↔ grown cap * sizeof ≤ maxRoom := by
  have hle : cap ≤ maxRoom := (Nat.le_mul_of_pos_right _ hpos).trans hcap
  have hlt' : 2 * cap ≤ 2 * cap * sizeof := Nat.le_mul_of_pos_right _ hpos
  unfold growfun grown
  unfold maxRoom at hle ⊢
  split
  case isTrue hz => simp [hz]
  case isFalse hz =>
    by_cases hwrap : 2 * cap < 2 ^ 64
    · rw [Nat.mul_comm cap 2, Nat.mod_eq_of_lt hwrap]
      exact and_iff_right (by omega)
    · refine iff_of_false (fun hh => ?_) (by omega)
      omega

theorem pushBack_iff (h : Holds sizeof v l) (hpos : 0 < sizeof) :
    (∃ v', v.pushBack sizeof g x = .ok v' ∧ Holds sizeof v' (l ++ [x])) ↔
      v.size < v.capacity ∨ (grown v.capacity * sizeof ≤ maxRoom ∧ v.Movable g) := by
  have hfits := h.fits
  unfold Vector.pushBack
  by_cases hroom : v.size < v.capacity
  · rw [if_neg (Nat.not_le.mpr hroom), ok_bind]
    exact iff_of_true (h.put hpos hroom) (.inl hroom)
  · have hfull : v.size = v.capacity := by omega
    rw [if_pos (Nat.not_lt.mp hroom), reserve_put_iff h hpos, hfull,
      growfun_iff hpos h.request_le, or_iff_right (Nat.lt_irrefl _)]

/-- `emplace_back` differs from `push_back` in the report on a null block only. -/
theorem emplaceBack_eq_ok : v.emplaceBack sizeof g x = .ok v' ↔ v.pushBack sizeof g x = .ok v' := by
  have hsame : ∀ w : Vector T, (if (w.size ≠ 0 ∨ w.capacity ≠ 0) ∧ w.data.isNone then
        .error (.fatal "Invalid vector state: data is null but size is %lld (cap %lld)")
      else w.put x) = .ok v' ↔ w.put x = .ok v' := by
    intro w
    split
    case isFalse => rfl
    case isTrue hnull =>
      have hnone := Option.isNone_iff_eq_none.mp hnull.2
      simp [Vector.put, hnone]
  unfold Vector.emplaceBack Vector.pushBack
  split
  · rw [bind_eq_ok, bind_eq_ok]
    exact exists_congr fun w => and_congr_right fun _ => hsame w
  · exact hsame v

section

variable (h : Holds sizeof v l)

include h

theorem append_iff (hpos : 0 < sizeof) :
    (∃ v', v.append sizeof g x = .ok v' ∧ Holds sizeof v' (l ++ [x])) ↔
      (v.size + 1) * sizeof ≤ maxRoom ∧ v.Movable g := by
  have hsize : v.size * 1 ≤ v.size * sizeof := Nat.mul_le_mul_left _ hpos
  have hreq := h.size_request_le
  have hnext : wadd v.size 1 = v.size + 1 := by
    unfold maxRoom at hreq
    exact wadd_of_lt (by omega)
  unfold Vector.append
  rw [hnext, reserve_put_iff h hpos, and_iff_right (Nat.lt_succ_self _)]

theorem resize_iff [Inhabited T] (hpos : 0 < sizeof) : (∃ v', v.resize sizeof g newSize = .ok v' ∧
        Holds sizeof v' (l.take newSize ++ List.replicate (newSize - l.length) default)) ↔
      max newSize v.size * sizeof ≤ maxRoom ∧ v.Movable g := by
  constructor
  · rintro ⟨v', hv', hh⟩
    obtain ⟨w, hw, hv'⟩ := bind_eq_ok.mp hv'
    obtain ⟨-, hcap, hmove⟩ := Vector.reserve_inv hw
    have hsame : v'.capacity = w.capacity := by
      split at hv'
      · split at hv' <;> cases hv'
        rfl
      · cases hv'
        rfl
    exact ⟨hcap ▸ hsame ▸ hh.request_le, hmove⟩
  · rintro ⟨hfit, hmove⟩
    obtain ⟨w, hw, hh, hcap⟩ := h.reserve hpos newSize hfit hmove
    have hsize := hh.size_eq
    have hlen : (l.take newSize ++ List.replicate (newSize - l.length) default).length =
        newSize := by
      rw [List.length_append, List.length_take, List.length_replicate]
      omega
    unfold Vector.resize
    rw [hw, ok_bind]
    cases hd : w.data with
    | none =>
      have hzero : newSize = 0 := by
        by_contra hne
        exact hh.data_ne_none hpos (by omega) hd
      have hnil : l = [] := List.length_eq_zero_iff.mp (by rw [← hsize]; exact w.sized hd)
      subst hzero hnil
      exact ⟨w, rfl, by simpa using hh⟩
    | some b =>
      refine ⟨_, rfl, ⟨hlen.symm, fun i hi => ?_⟩, ?_, ?_⟩
      · rw [hlen] at hi
        by_cases hlt : i < l.length
        · have hnot : ¬ w.size ≤ i := by omega
          have hget := hh.filled.2 i hlt
          rw [List.getElem?_append_left (by rw [List.length_take]; omega),
            List.getElem?_take_of_lt hi, ← hget]
          simp [Vec.get, Vector.toVec, Block.fill, hnot, hd]
        · have hge : w.size ≤ i := by omega
          rw [List.getElem?_append_right (by rw [List.length_take]; omega),
            List.getElem?_replicate, if_pos (by rw [List.length_take]; omega)]
          simp [Vec.get, Vector.toVec, Block.fill, hge, hi]
      · show newSize ≤ w.capacity
        omega
      · have hb := hh.backed
        rw [Vector.bytes, hd] at hb
        exact hb

theorem Holds.pop (hx : l.getLast? = some x) :
    ∃ v', v.pop = .ok (x, v') ∧ Holds sizeof v' l.dropLast := by
  obtain ⟨hne, hlast⟩ : l ≠ [] ∧ l[l.length - 1]? = some x := by
    rw [List.getLast?_eq_getElem?] at hx
    exact ⟨by rintro rfl; simp at hx, hx⟩
  have hlen : 0 < l.length := List.length_pos_iff.mpr hne
  have hsize := h.size_eq
  have hget := h.filled.2 (l.length - 1) (by omega)
  cases hd : v.data with
  | none =>
    have := v.sized hd
    omega
  | some b =>
    rw [hlast, ← hsize] at hget
    have hcell : b.cells (v.size - 1) = x := by
      simpa [Vec.get, Vector.toVec, hd] using hget
    refine ⟨⟨some b, v.size - 1, v.capacity, fun h => by cases h⟩, ?_, ⟨?_, fun i hi => ?_⟩,
      (Nat.sub_le _ _).trans h.fits, ?_⟩
    · rw [Vector.pop, hd]
      dsimp only
      rw [if_neg (by omega), hcell]
    · rw [List.length_dropLast, ← hsize]
      rfl
    · rw [List.length_dropLast] at hi
      rw [List.getElem?_dropLast, if_pos hi, ← h.filled.2 i (by omega)]
      simp [Vec.get, Vector.toVec, hd]
    · have hb := h.backed
      rw [Vector.bytes, hd] at hb
      exact hb

theorem Holds.copyFrom (ho : Holds sizeof o l') (hpos : 0 < sizeof) (hcap : o.size ≤ v.capacity) :
    ∃ v', v.copyFrom o = .ok v' ∧ Holds sizeof v' l' ∧ v'.capacity = v.capacity := by
  have hb := h.backed
  have hlen := ho.size_eq
  cases hod : o.data with
  | none =>
    have hnil : l' = [] := List.length_eq_zero_iff.mp (by rw [← hlen]; exact o.sized hod)
    subst hnil
    refine ⟨⟨v.data, 0, v.capacity, fun _ => rfl⟩, ?_,
      ⟨⟨rfl, fun i hi => absurd hi (Nat.not_lt_zero i)⟩, Nat.zero_le _, hb⟩, rfl⟩
    rw [Vector.copyFrom, hod]
    cases v.data <;> rfl
  | some b' =>
    cases hd : v.data with
    | none =>
      have hsize : o.size = 0 := by
        by_contra hne
        exact h.data_ne_none hpos (by omega) hd
      have hnil : l' = [] := List.length_eq_zero_iff.mp (by rw [← hlen]; exact hsize)
      subst hnil
      refine ⟨⟨none, 0, v.capacity, fun _ => rfl⟩, ?_,
        ⟨⟨rfl, fun i hi => absurd hi (Nat.not_lt_zero i)⟩, Nat.zero_le _, ?_⟩, rfl⟩
      · rw [Vector.copyFrom, hod, hd]
        exact if_pos hsize
      · rw [Vector.bytes, hd] at hb
        exact hb
    | some b =>
      refine ⟨⟨some (b.fill fun c i => if i < o.size then b'.cells i else c i), o.size,
        v.capacity, fun h => by cases h⟩, ?_, ⟨⟨hlen, fun i hi => ?_⟩, hcap, ?_⟩, rfl⟩
      · rw [Vector.copyFrom, hod, hd]
      · rw [← ho.filled.2 i hi]
        simp [Vec.get, Vector.toVec, Block.fill, hod, hlen, hi]
      · rw [Vector.bytes, hd] at hb
        exact hb

theorem assign_iff (ho : Holds sizeof o l') (hpos : 0 < sizeof) :
    (∃ v', v.assign sizeof g o = .ok v' ∧ Holds sizeof v' l') ↔ v.Movable g := by
  constructor
  · rintro ⟨v', hv', -⟩
    obtain ⟨w, hw, -⟩ := bind_eq_ok.mp hv'
    exact (Vector.reserve_inv hw).2.2
  · intro hmove
    have hfit : max o.capacity v.size * sizeof ≤ maxRoom := by
      rcases Nat.le_total o.capacity v.size with hle | hle
      · rw [Nat.max_eq_right hle]
        exact h.size_request_le
      · rw [Nat.max_eq_left hle]
        exact ho.request_le
    obtain ⟨w, hw, hh, hcap⟩ := h.reserve hpos o.capacity hfit hmove
    have hfits := ho.fits
    obtain ⟨v', hv', hh', -⟩ := hh.copyFrom ho hpos (by omega)
    exact ⟨v', bind_eq_ok.mpr ⟨w, hw, hv'⟩, hh'⟩

end

theorem holds_empty (sizeof : ℕ) : Holds sizeof (Vector.empty : Vector T) [] :=
  ⟨⟨rfl, fun i hi => absurd hi (Nat.not_lt_zero i)⟩, Nat.le_refl 0, by simp [Vector.empty]⟩

/-- Copy construction is assignment to an empty vector. -/
theorem Holds.copy (ho : Holds sizeof o l) (hpos : 0 < sizeof) :
    ∃ v', Vector.copy sizeof g o = .ok v' ∧ Holds sizeof v' l :=
  (assign_iff (holds_empty sizeof) ho hpos).mpr (.inl rfl)

theorem holds_init_iff (block : ℕ → T) :
    Holds sizeof (Vector.init sizeof cap block) [] ↔ cap * sizeof ≤ maxRoom := by
  constructor
  · exact Holds.request_le
  · intro hfit
    refine ⟨⟨rfl, fun i hi => absurd hi (Nat.not_lt_zero i)⟩, Nat.zero_le _, ?_⟩
    have hroom := le_room hfit
    show cap * sizeof ≤ (if cap = 0 then none else
      galloc (cap * sizeof % 2 ^ 64) block).elim 0 Block.bytes
    rw [request_eq hfit, galloc]
    by_cases hcap : cap = 0
    · simp [hcap]
    · by_cases hz : cap * sizeof = 0
      · simp [hcap, hz]
      · simpa [hcap, hz] using hroom

theorem emplaceBack_room (hroom : v.size < v.capacity)
    (h : v.emplaceBack sizeof g x = .ok v') : v.put x = .ok v' := by
  have hput := emplaceBack_eq_ok.mp h
  rwa [Vector.pushBack, if_neg (Nat.not_le.mpr hroom), ok_bind] at hput

/-- Appending within the capacity leaves it alone. -/
theorem foldlM_capacity : ∀ {xs : List T} {v v' : Vector T}, v.size + xs.length ≤ v.capacity →
    xs.foldlM (fun v x => v.emplaceBack sizeof g x) v = .ok v' → v'.capacity = v.capacity
  | [], v, v', _, h => by
    obtain rfl := Except.ok.inj h
    rfl
  | x :: xs, v, v', hroom, h => by
    rw [List.length_cons] at hroom
    obtain ⟨w, hw, h⟩ := bind_eq_ok.mp (List.foldlM_cons.symm.trans h)
    obtain ⟨hsize, hcap⟩ := Vector.put_inv (emplaceBack_room (by omega) hw)
    rw [foldlM_capacity (by omega) h, hcap]

theorem Holds.foldlM (hpos : 0 < sizeof) : ∀ (xs : List T) {v : Vector T} {l : List T},
    Holds sizeof v l → v.size + xs.length ≤ v.capacity →
    ∃ v', xs.foldlM (fun v x => v.emplaceBack sizeof g x) v = .ok v' ∧ Holds sizeof v' (l ++ xs)
  | [], v, l, h, _ => ⟨v, rfl, by simpa using h⟩
  | x :: xs, v, l, h, hroom => by
    rw [List.length_cons] at hroom
    obtain ⟨w, hw, hh⟩ := (pushBack_iff (g := g) (x := x) h hpos).mpr (.inl (by omega))
    have hw' := emplaceBack_eq_ok.mpr hw
    obtain ⟨hsize, hcap⟩ := Vector.put_inv (emplaceBack_room (by omega) hw')
    obtain ⟨v', hv', hh'⟩ := Holds.foldlM hpos xs hh (by omega)
    refine ⟨v', ?_, by simpa using hh'⟩
    rw [List.foldlM_cons, hw']
    exact hv'

theorem ofItems_iff (hpos : 0 < sizeof) {xs : List T} :
    (∃ v, Vector.ofItems sizeof xs g = .ok v ∧ Holds sizeof v xs) ↔
      (xs.length + 7) / 8 * 8 * sizeof ≤ maxRoom := by
  -- a list that a vector holds, or that is short enough, is not rounded up past `2^64`
  have halign : xs.length ≤ maxRoom → align xs.length 8 = (xs.length + 7) / 8 * 8 := by
    intro hlen
    unfold maxRoom at hlen
    exact align_of_lt (by omega)
  unfold Vector.ofItems
  constructor
  · rintro ⟨v, hv, hh⟩
    have hlen : xs.length ≤ maxRoom := by
      have := hh.size_request_le
      rw [hh.size_eq] at this
      exact (Nat.le_mul_of_pos_right _ hpos).trans this
    rw [halign hlen] at hv
    dsimp only at hv
    split at hv
    case isTrue hz => simp [hz]
    case isFalse =>
      have hcap : v.capacity = (xs.length + 7) / 8 * 8 := foldlM_capacity (by
        show 0 + xs.length ≤ (xs.length + 7) / 8 * 8
        omega) hv
      exact hcap ▸ hh.request_le
  · intro hfit
    have hlen : xs.length ≤ maxRoom :=
      calc xs.length ≤ (xs.length + 7) / 8 * 8 := by omega
        _ ≤ (xs.length + 7) / 8 * 8 * sizeof := Nat.le_mul_of_pos_right _ hpos
        _ ≤ maxRoom := hfit
    rw [halign hlen]
    dsimp only
    split
    case isTrue hz =>
      have hnil : xs = [] := List.length_eq_zero_iff.mp (by omega)
      subst hnil
      exact ⟨_, rfl, holds_empty sizeof⟩
    case isFalse =>
      have hinit := (holds_init_iff (T := T) g.block).mpr hfit
      simpa using Holds.foldlM (g := g) hpos xs hinit (by
        show 0 + xs.length ≤ (xs.length + 7) / 8 * 8
        omega)

theorem equal_eq [DecidableEq T] (h : Holds sizeof v l) (ho : Holds sizeof o l') :
    v.equal o = decide (l = l') := by
  rw [Bool.eq_iff_iff, decide_eq_true_eq]
  unfold Vector.equal
  have hsize := h.size_eq
  have hsize' := ho.size_eq
  split
  case isTrue hne =>
    refine iff_of_false Bool.false_ne_true ?_
    rintro rfl
    omega
  case isFalse heq =>
    rw [List.all_eq_true]
    constructor
    · intro hall
      refine List.ext_getElem? fun i => ?_
      by_cases hi : i < l.length
      · have := hall i (List.mem_range.mpr (by omega))
        rw [← h.filled.2 i hi, ← ho.filled.2 i (by omega)]
        exact of_decide_eq_true this
      · rw [List.getElem?_eq_none (by omega), List.getElem?_eq_none (by omega)]
    · rintro rfl i hi
      have hlt : i < l.length := by
        have := List.mem_range.mp hi
        omega
      exact decide_eq_true ((h.filled.2 i hlt).trans (ho.filled.2 i hlt).symm)

end Single

/-! ## All vectors -/

section Many

variable {sizeof : ℕ} {s : List (Vector T)} {ls : List (List T)}

/-- Each vector holds the list of the same name. -/
def Refines (sizeof : ℕ) (s : List (Vector T)) (ls : List (List T)) : Prop :=
  List.Forall₂ (Holds sizeof) s ls

theorem named_eq_ok {α : Type} {s : List α} {k : ℕ} {v : α} :
    named s k = .ok v ↔ s[k]? = some v := by
  unfold named
  split
  case h_1 w hw => simp [hw]
  case h_2 hnone => simp [hnone]

section

variable (h : Refines sizeof s ls)

include h

theorem Refines.get {k : ℕ} {l : List T} (hl : ls[k]? = some l) :
    ∃ v, s[k]? = some v ∧ Holds sizeof v l := by
  induction h generalizing k with
  | nil => simp at hl
  | cons hv _ ih =>
    cases k with
    | zero =>
      obtain rfl := Option.some.inj hl
      exact ⟨_, rfl, hv⟩
    | succ k => exact ih hl

theorem Refines.set {v : Vector T} {l : List T} (k : ℕ)
    (hv : Holds sizeof v l) : Refines sizeof (s.set k v) (ls.set k l) := by
  induction h generalizing k with
  | nil => exact .nil
  | cons hw hrest ih =>
    cases k with
    | zero => exact .cons hv hrest
    | succ k => exact .cons hw (ih k)

theorem refines_append {v : Vector T} {l : List T} :
    Refines sizeof (s ++ [v]) (ls ++ [l]) ↔ Holds sizeof v l := by
  constructor
  · intro happ
    obtain ⟨w, hw, hh⟩ := happ.get (k := ls.length) (List.getElem?_concat_length ..)
    have hlen : ls.length = s.length := (List.Forall₂.length_eq h).symm
    rw [hlen, List.getElem?_concat_length] at hw
    obtain rfl := Option.some.inj hw
    exact hh
  · intro hv
    exact List.rel_append h (.cons hv .nil)

/-- A step on one vector matches the step on its list under the condition of the
operation. -/
theorem alter_iff {k : ℕ} {y : Reply T} {ls' : List (List T)} {F : List T → List T}
    {f : Vector T → Except Halt (Vector T)} {P : Vector T → Prop}
    (hspec : alter ls k (fun l => .ok (F l)) = .ok (y, ls'))
    (hop : ∀ v l, Holds sizeof v l → ((∃ v', f v = .ok v' ∧ Holds sizeof v' (F l)) ↔ P v)) :
    (∃ s', alter s k f = .ok (y, s') ∧ Refines sizeof s' ls') ↔ ∀ v ∈ s[k]?, P v := by
  obtain ⟨l, hl, hspec⟩ := bind_eq_ok.mp hspec
  cases hspec
  rw [named_eq_ok] at hl
  obtain ⟨v, hs, hv⟩ := h.get hl
  have hlt : k < ls.length := (List.getElem?_eq_some_iff.mp hl).1
  have hlt' : k < s.length := (List.getElem?_eq_some_iff.mp hs).1
  have hP : (∀ w ∈ s[k]?, P w) ↔ P v := by simp [hs]
  rw [hP, ← hop v l hv]
  constructor
  · rintro ⟨s', hs', hrel⟩
    obtain ⟨w, hw, hs'⟩ := bind_eq_ok.mp hs'
    obtain rfl : v = w := Option.some.inj (hs.symm.trans (named_eq_ok.mp hw))
    obtain ⟨v', hv', hs'⟩ := bind_eq_ok.mp hs'
    cases hs'
    obtain ⟨u, hu, hh⟩ := hrel.get (List.getElem?_set_self hlt)
    rw [List.getElem?_set_self hlt'] at hu
    obtain rfl := Option.some.inj hu
    exact ⟨_, hv', hh⟩
  · rintro ⟨v', hv', hh⟩
    exact ⟨s.set k v', bind_eq_ok.mpr ⟨v, named_eq_ok.mpr hs, bind_eq_ok.mpr ⟨v', hv', rfl⟩⟩,
      h.set k hh⟩

end

variable [DecidableEq T] [Inhabited T]

/-- One operation matches the operation on lists exactly when it fits. -/
theorem step_iff (hpos : 0 < sizeof) {a : Action T} {y : Reply T} {ls' : List (List T)}
    (h : Refines sizeof s ls) (hspec : listStep ls a = .ok (y, ls')) :
    (∃ s', step sizeof s a = .ok (y, s') ∧ Refines sizeof s' ls') ↔ a.Fits sizeof s := by
  cases a with
  | construct cap block =>
    cases hspec
    constructor
    · rintro ⟨_, ⟨⟩, hrel⟩
      exact (holds_init_iff block).mp ((refines_append h).mp hrel)
    · intro hfit
      exact ⟨_, rfl, (refines_append h).mpr ((holds_init_iff block).mpr hfit)⟩
  | items xs g =>
    cases hspec
    refine Iff.trans ?_ (ofItems_iff (g := g) hpos)
    constructor
    · rintro ⟨s', hs', hrel⟩
      obtain ⟨v, hv, ⟨⟩⟩ := bind_eq_ok.mp hs'
      exact ⟨v, hv, (refines_append h).mp hrel⟩
    · rintro ⟨v, hv, hh⟩
      exact ⟨_, bind_eq_ok.mpr ⟨v, hv, rfl⟩, (refines_append h).mpr hh⟩
  | copy j g =>
    obtain ⟨l, hl, ⟨⟩⟩ := bind_eq_ok.mp hspec
    obtain ⟨o, ho, hho⟩ := h.get (named_eq_ok.mp hl)
    obtain ⟨v, hv, hh⟩ := hho.copy (g := g) hpos
    refine iff_of_true ⟨_, ?_, (refines_append h).mpr hh⟩ trivial
    exact bind_eq_ok.mpr ⟨o, named_eq_ok.mpr ho, bind_eq_ok.mpr ⟨v, hv, rfl⟩⟩
  | move j =>
    obtain ⟨l, hl, ⟨⟩⟩ := bind_eq_ok.mp hspec
    obtain ⟨o, ho, hho⟩ := h.get (named_eq_ok.mp hl)
    refine iff_of_true ⟨_, bind_eq_ok.mpr ⟨o, named_eq_ok.mpr ho, rfl⟩, ?_⟩ trivial
    exact (refines_append (h.set j (holds_empty sizeof))).mpr hho
  | assign k j g =>
    obtain ⟨l, hl, hspec⟩ := bind_eq_ok.mp hspec
    obtain ⟨o, ho, hho⟩ := h.get (named_eq_ok.mp hl)
    split at hspec
    case isTrue => cases hspec
    case isFalse =>
      have hstep : step sizeof s (.assign k j g) = alter s k fun v => v.assign sizeof g o := by
        rw [step, named_eq_ok.mpr ho]
        rfl
      rw [hstep]
      exact alter_iff h hspec fun v _ hv => assign_iff hv hho hpos
  | pushBack k x g => exact alter_iff h hspec fun v _ hv => pushBack_iff hv hpos
  | emplaceBack k x g =>
    refine alter_iff h hspec fun v _ hv => ?_
    simp only [emplaceBack_eq_ok]
    exact pushBack_iff hv hpos
  | append k x g => exact alter_iff h hspec fun v _ hv => append_iff hv hpos
  | pop k =>
    obtain ⟨l, hl, hspec⟩ := bind_eq_ok.mp hspec
    obtain ⟨v, hs, hv⟩ := h.get (named_eq_ok.mp hl)
    split at hspec
    case h_1 => cases hspec
    case h_2 x hx =>
      cases hspec
      obtain ⟨v', hv', hh⟩ := hv.pop hx
      refine iff_of_true ⟨_, ?_, h.set k hh⟩ trivial
      exact bind_eq_ok.mpr ⟨v, named_eq_ok.mpr hs, bind_eq_ok.mpr ⟨(x, v'), hv', rfl⟩⟩
  | resize k newSize g => exact alter_iff h hspec fun v _ hv => resize_iff hv hpos
  | reserve k cap g => exact alter_iff h hspec fun v _ hv => reserve_iff hv hpos
  | equal k j =>
    obtain ⟨l, hl, hspec⟩ := bind_eq_ok.mp hspec
    obtain ⟨l', hl', ⟨⟩⟩ := bind_eq_ok.mp hspec
    obtain ⟨v, hs, hv⟩ := h.get (named_eq_ok.mp hl)
    obtain ⟨o, ho, hho⟩ := h.get (named_eq_ok.mp hl')
    refine iff_of_true ⟨s, ?_, h⟩ trivial
    rw [← equal_eq hv hho]
    exact bind_eq_ok.mpr ⟨v, named_eq_ok.mpr hs, bind_eq_ok.mpr ⟨o, named_eq_ok.mpr ho, rfl⟩⟩

/-- **Vectors refine lists.** Take any sequence of operations on lists, with any answers
of the allocator. The vectors go through it with the same answers, each of them holding
its list in a block that is long enough, exactly when every operation fits: no request
exceeds `maxRoom` bytes and no block of `2^32` elements or more has to move. -/
theorem vector_refines_iff (hpos : 0 < sizeof) {hist : List (Action T × Reply T)}
    {ls : List (List T)} (hrun : Runs listStep (fun _ _ => True) [] hist ls) :
    (∀ h, h <+: hist → ∃ s ls, Runs (step sizeof) (fun _ _ => True) [] h s ∧
        Runs listStep (fun _ _ => True) [] h ls ∧ Refines sizeof s ls) ↔
      ∃ s, Runs (step sizeof) (Action.Fits sizeof) [] hist s :=
  Runs.agree_iff List.Forall₂.nil (fun _ _ _ _ _ h hspec => step_iff hpos h hspec) hrun

end Many

/-- An initialiser list of three, `+= 50` into a block that has to move, and `pop`. -/
theorem vector_refines_items : ∃ (hist : List (Action UInt32 × Reply UInt32))
    (ls : List (List UInt32)), Runs listStep (fun _ _ => True) [] hist ls ∧
      hist.map Prod.snd = [.done, .done, .value 50] ∧ ls = [[20, 30, 40]] ∧
      ∀ h, h <+: hist → ∃ s ls, Runs (step 4) (fun _ _ => True) [] h s ∧
        Runs listStep (fun _ _ => True) [] h ls ∧ Refines 4 s ls := by
  have hpos : 0 < 4 := by decide
  let g : Grow UInt32 := ⟨false, fun _ => 7⟩
  have hspec : Runs listStep (fun _ _ => True) []
      ([] ++ [(.items [20, 30, 40] g, .done)] ++ [(.append 0 50 g, .done)] ++
        [(.pop 0, .value 50)]) [[20, 30, 40]] :=
    (((Runs.nil []).snoc trivial rfl).snoc trivial rfl).snoc trivial rfl
  obtain ⟨s₁, hs₁, hrel₁⟩ := (step_iff (a := Action.items [20, 30, 40] g) hpos
    List.Forall₂.nil rfl).mpr (show (3 + 7) / 8 * 8 * 4 ≤ maxRoom by decide)
  have hfit : (Action.append 0 50 g).Fits 4 s₁ := by
    obtain ⟨v, hv, hh⟩ := hrel₁.get (k := 0) rfl
    have hsize : v.size = 3 := hh.size_eq
    intro w hw
    obtain rfl : v = w := Option.some.inj (hv.symm.trans hw)
    rw [hsize]
    exact ⟨by decide, Or.inr (Or.inr (by rw [hsize]; decide))⟩
  obtain ⟨s₂, hs₂, hrel₂⟩ := (step_iff hpos hrel₁ rfl).mpr hfit
  obtain ⟨s₃, hs₃, -⟩ := (step_iff (a := Action.pop 0) hpos hrel₂ rfl).mpr trivial
  refine ⟨_, _, hspec, rfl, rfl, (vector_refines_iff hpos hspec).mpr ⟨s₃, ?_⟩⟩
  exact (((Runs.nil []).snoc (show (3 + 7) / 8 * 8 * 4 ≤ maxRoom by decide) hs₁).snoc hfit
    hs₂).snoc trivial hs₃

/-- `Vector<u32> v(2^62 + 1)` asks for `2^64 + 4` bytes and gets a block for 16. -/
theorem vector_capacity_wraps : ∃ v : Vector UInt32,
    Runs (step 4) (fun _ _ => True) [] [(.construct (2 ^ 62 + 1) fun _ => 0, .done)] [v] ∧
      v.capacity = 2 ^ 62 + 1 ∧ v.bytes = 16 :=
  ⟨_, (Runs.nil []).snoc trivial rfl, rfl, by decide⟩

end NeptunOS.Storage
