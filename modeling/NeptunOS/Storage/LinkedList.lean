import NeptunOS.Util.Word

/-!
# `LinkedList` of `util/storage.hh`

A ring of links with a `last` mark on the link before `first`. Links are known
by their address; reading a null pointer or a deleted link halts. The mutex is
left out: every operation takes and releases it within one call.
-/

namespace NeptunOS

open Function

/-- `LinkedList<T>::Link`. -/
structure Link (α : Type) where
  prev : Option ℕ
  next : Option ℕ
  data : α
  last : Bool
deriving DecidableEq, Repr

/-- `LinkedList<T>`, with its live links and the address of the next new one. -/
structure LinkedList (α : Type) where
  first : Option ℕ
  size : ℕ
  links : ℕ → Option (Link α)
  fresh : ℕ

namespace LinkedList

variable {α : Type}

/-- The list as default-constructed. -/
def empty : LinkedList α where
  first := none
  size := 0
  links _ := none
  fresh := 0

/-- `*p`. -/
def deref (l : LinkedList α) : Option ℕ → Except Halt (Link α)
  | none => .error (.exception "page fault: null link")
  | some i =>
    match l.links i with
    | some x => .ok x
    | none => .error (.exception "use of a deleted link")

/-- `p->next = v`. -/
def setNext (l : LinkedList α) (p v : Option ℕ) : Except Halt (LinkedList α) :=
  match p with
  | none => .error (.exception "page fault: null link")
  | some i =>
    .ok { l with
      links := update l.links i ((l.links i).map fun x => { x with next := v }) }

/-- `p->prev = v`. -/
def setPrev (l : LinkedList α) (p v : Option ℕ) : Except Halt (LinkedList α) :=
  match p with
  | none => .error (.exception "page fault: null link")
  | some i =>
    .ok { l with
      links := update l.links i ((l.links i).map fun x => { x with prev := v }) }

/-- `new Link(prev, next, elem)`. -/
def newLink (l : LinkedList α) (x : Link α) : LinkedList α :=
  { l with links := update l.links l.fresh (some x), fresh := l.fresh + 1 }

/-- `push_front(elem)`; the result is the new link. -/
def pushFront (l : LinkedList α) (elem : α) : Except Halt (ℕ × LinkedList α) :=
  let i := l.fresh
  match l.first with
  | some f => do
    let x ← l.deref (some f)
    let l := l.newLink ⟨x.prev, some f, elem, false⟩
    let l ← l.setNext x.prev (some i)
    let l ← l.setPrev (some f) (some i)
    return (i, { l with first := some i, size := wadd l.size 1 })
  | none =>
    let l := l.newLink ⟨some i, some i, elem, true⟩
    .ok (i, { l with first := some i, size := wadd l.size 1 })

/-- `p->last = v`. -/
def setLast (l : LinkedList α) (p : Option ℕ) (v : Bool) : Except Halt (LinkedList α) :=
  match p with
  | none => .error (.exception "page fault: null link")
  | some i =>
    .ok { l with
      links := update l.links i ((l.links i).map fun x => { x with last := v }) }

/-- `push_back(elem)`; the result is the new link. -/
def pushBack (l : LinkedList α) (elem : α) : Except Halt (ℕ × LinkedList α) :=
  let i := l.fresh
  match l.first with
  | some f => do
    let x ← l.deref (some f)
    let l := l.newLink ⟨x.prev, some f, elem, false⟩
    let l ← l.setNext x.prev (some i)
    let y ← l.deref x.prev
    if ¬ y.last then .error (.assertion "first->prev->last")
    else do
      let l ← l.setLast x.prev false
      let l ← l.setPrev (some f) (some i)
      let l ← l.setLast (some i) true
      return (i, { l with size := wadd l.size 1 })
  | none =>
    let l := l.newLink ⟨some i, some i, elem, true⟩
    .ok (i, { l with first := some i, size := wadd l.size 1 })

/-- `for (auto& e : list) ..`: the elements from link `i` on, at most `fuel` many. -/
def iterateFrom (l : LinkedList α) : ℕ → Option ℕ → Except Halt (List α)
  | _, none => .ok []
  | 0, some _ => .error .endless
  | fuel + 1, some i => do
    let x ← l.deref (some i)
    let rest ← iterateFrom l fuel (if x.last then none else x.next)
    return x.data :: rest

/-- From `begin()` to `end()`. -/
def iterate (l : LinkedList α) (fuel : ℕ) : Except Halt (List α) := l.iterateFrom fuel l.first

/-- `for (auto& e : list) if (p(e)) ..`: the first link from `i` on whose data
satisfies `p`. More steps than there are links is a loop over a ring without
its mark. -/
def findFrom (l : LinkedList α) (p : α → Bool) :
    ℕ → Option ℕ → Except Halt (Option ℕ)
  | _, none => .ok none
  | 0, some _ => .error .endless
  | fuel + 1, some i => do
    let x ← l.deref (some i)
    if p x.data then return some i
    else findFrom l p fuel (if x.last then none else x.next)

def find (l : LinkedList α) (p : α → Bool) : Except Halt (Option ℕ) :=
  l.findFrom p l.fresh l.first

/-- `remove(Link& l)`; `l` must be live, since it is deleted in the end. -/
def removeLink (l : LinkedList α) (i : ℕ) : Except Halt (LinkedList α) :=
  if l.size = 0 then
    .error (.fatal "Tried to delete elem from empty list (size 0)")
  else
    match l.first with
    | none => .error (.fatal "Tried to delete elem from empty list (first null)")
    | some f => do
      let size := l.size - 1
      let x ← l.deref (some i)
      let l ←
        if size = 0 then pure { l with first := none }
        else do
          let l ← l.setNext x.prev x.next
          let l ← l.setPrev x.next x.prev
          pure (if i = f then { l with first := x.next } else l)
      return { l with size := size, links := update l.links i none }

/-- `while (l && idx2) { l = l->next; idx2--; }`. -/
def walk (l : LinkedList α) : ℕ → Option ℕ → Except Halt (Option ℕ)
  | _, none => .ok none
  | 0, some i => .ok (some i)
  | idx + 1, some i => do
    let x ← l.deref (some i)
    walk l idx x.next

/-- `remove(u64 idx)`. A null link is noticed by the checks of `remove(Link&)`. -/
def removeAt (l : LinkedList α) (idx : ℕ) : Except Halt (LinkedList α) :=
  if idx > l.size then
    .error (.fatal "dlinkedlist: index out of bounds! %lld > %lld")
  else do
    match ← l.walk idx l.first with
    | none =>
      if l.size = 0 then .error (.fatal "Tried to delete elem from empty list (size 0)")
      else if l.first = none then
        .error (.fatal "Tried to delete elem from empty list (first null)")
      else .error (.exception "page fault: null link")
    | some i => l.removeLink i

/-- The same loop, with the count that is left in the end. -/
def seek (l : LinkedList α) : ℕ → Option ℕ → Except Halt (Option ℕ × ℕ)
  | idx, none => .ok (none, idx)
  | 0, some i => .ok (some i, 0)
  | idx + 1, some i => do
    let x ← l.deref (some i)
    seek l idx x.next

/-- `get_link(idx)`: the address of the link, which is null in an empty list. -/
def getLink (l : LinkedList α) (idx : ℕ) : Except Halt (Option ℕ) := do
  let (p, left) ← l.seek idx l.first
  if left ≠ 0 then .error (.fatal "dlinkedlist: index out of bounds! %lld")
  else return p

/-- `operator[](idx)`: the link whose `data` the reference names. The body is that of
`get_link`. -/
def index (l : LinkedList α) (idx : ℕ) : Except Halt (Option ℕ) := l.getLink idx

/-- The value of `list[idx]`. -/
def elemAt (l : LinkedList α) (idx : ℕ) : Except Halt α := do
  let p ← l.index idx
  let x ← l.deref p
  return x.data

/-! ## Lists of at most one element -/

/-- The list holds the given element, or nothing. -/
def Holds (l : LinkedList α) : Option α → Prop
  | none => l.first = none ∧ l.size = 0
  | some x => ∃ i, l.first = some i ∧ l.size = 1 ∧ i < l.fresh ∧
      l.links i = some ⟨some i, some i, x, true⟩

section

variable {l : LinkedList α} {x : α}

theorem deref_some {i : ℕ} {x : Link α} (h : l.links i = some x) : l.deref (some i) = .ok x := by
  simp only [deref, h]

theorem empty_holds : Holds (empty : LinkedList α) none := ⟨rfl, rfl⟩

theorem Holds.size_eq {c : Option α} (h : Holds l c) : l.size = 0 ↔ c = none := by
  cases c with
  | none => exact iff_of_true h.2 rfl
  | some x =>
    obtain ⟨i, _, hs, _⟩ := h
    rw [hs]
    simp

theorem Holds.find_none (h : Holds l none) (p : α → Bool) : l.find p = .ok none := by
  unfold find
  rw [h.1]
  cases l.fresh <;> rfl

theorem Holds.find_some (h : Holds l (some x)) (p : α → Bool) :
    l.find p = .ok (if p x then l.first else none) := by
  obtain ⟨i, hf, _, hlt, hi⟩ := h
  obtain ⟨n, hn⟩ := Nat.exists_eq_succ_of_ne_zero (Nat.ne_of_gt (Nat.zero_lt_of_lt hlt))
  unfold find
  rw [hf, hn, findFrom, deref_some hi]
  cases hp : p x with
  | true =>
    show (if p x = true then _ else _) = _
    rw [if_pos hp]
    rfl
  | false =>
    show (if p x = true then _ else _) = _
    rw [if_neg (by simp [hp])]
    cases n <;> rfl

/-- `push_front` on an empty list. -/
theorem Holds.pushFront (h : Holds l none) (x : α) :
    ∃ l', l.pushFront x = .ok (l.fresh, l') ∧ Holds l' (some x) ∧
      l'.first = some l.fresh := by
  refine ⟨_, by rw [LinkedList.pushFront, h.1], ⟨l.fresh, rfl, ?_, ?_, ?_⟩, rfl⟩
  · show wadd l.size 1 = 1
    rw [h.2]
    rfl
  · exact Nat.lt_succ_self _
  · exact update_self ..

/-- `remove` of the only link. -/
theorem Holds.removeLink {i : ℕ} (h : Holds l (some x)) (hi : l.first = some i) :
    ∃ l', l.removeLink i = .ok l' ∧ Holds l' none := by
  obtain ⟨j, hf, hs, _, hj⟩ := h
  rw [hi] at hf
  obtain rfl := Option.some.inj hf
  refine ⟨{ l with first := none, size := 0, links := update l.links i none }, ?_, rfl, rfl⟩
  unfold LinkedList.removeLink
  rw [hs, hi, if_neg (by decide)]
  rw [deref_some hj]
  rfl

end

end LinkedList

end NeptunOS
