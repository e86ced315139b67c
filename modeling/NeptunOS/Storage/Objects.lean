import NeptunOS.Lib.Accounts
import NeptunOS.Storage.Vector

/-!
# Objects that own blocks: `Vector<T>`, `String`, `variant` and structs of them

What the special members and the mutators of `storage.hh` and `variant.hh` do to the
blocks of the heap. An object is what is stored in its bytes: for a vector or a string the
number of its block, for a vector also what is in the cells of that block. The cells from
`size` on still hold what was left there, and a new block holds `junk`.

Every function follows the member of the source, also where that does not do what it
should: moving a `String` copies it, a `variant` has a destructor and therefore only the
copies that the compiler writes, which are of bytes, and so on. Two objects with the same
block are not kept in step: a change through one of them is not seen in the other. Nor is
an assignment followed between an object and a part of it.
-/

namespace NeptunOS.Objects

open Accounts

/-- The types, with the sizes of those whose layout is not fixed here. -/
inductive Ty where
  | pod (size : ℕ)
  | string
  | vector (t : Ty)
  | variant (size : ℕ)
  | pair (size : ℕ) (a b : Ty)
deriving DecidableEq, Repr

/-- `sizeof(T)`. -/
def Ty.sizeof : Ty → ℕ
  | .pod n => n
  | .string => 24
  | .vector _ => 24
  | .variant n => n
  | .pair n _ _ => n

/-- The contents of an object. A `variant` is `inactive` or has an `active` alternative;
a struct is made of pairs. -/
inductive Obj where
  | pod
  | string (data : Option ℕ) (size capacity : ℕ)
  | vector (t : Ty) (data : Option ℕ) (size : ℕ) (cells : ℕ → Obj) (capacity : ℕ)
  | inactive
  | active (i : ℕ) (o : Obj)
  | pair (a b : Obj)

/-- Why a statement did not end: the kernel stopped, it used an object as what it is not,
or it read an element in a block that was gone. -/
inductive Fault where
  | halt (h : Halt)
  | mistyped
  | stale

abbrev Own (α : Type) : Type := Acct Fault α

/-- What the heap decides: whether `_gtryrealloc` of a block succeeds for a request, and
what is in a new block. -/
structure World where
  inPlace : ℕ → ℕ → Bool
  junk : ℕ → ℕ → Obj

/-- The cells behind a pointer that `_galloc` returned. -/
def World.cells (w : World) : Option ℕ → ℕ → Obj
  | none => fun _ => .pod
  | some b => w.junk b

/-- A page fault that nobody handles. -/
def crash {α : Type} : Own α := fail (.halt (.exception "Halting..."))

def fatal {α : Type} (msg : String) : Own α := fail (.halt (.fatal msg))

/-- `_galloc(n)`. -/
def galloc (n : ℕ) : Own (Option ℕ) :=
  if n = 0 then pure none
  else do
    let b ← take
    pure (some b)

/-- `_gfree(p)`. -/
def gfree : Option ℕ → Own Unit
  | none => pure ()
  | some b => release b

/-! ## Special members -/

/-- `T()`. -/
def Ty.init : Ty → Obj
  | .pod _ => .pod
  | .string => .string none 0 0
  | .vector t => .vector t none 0 (fun _ => .pod) 0
  | .variant _ => .inactive
  | .pair _ a b => .pair a.init b.init

/-- `~T()`, with what it leaves in the bytes. -/
def destroy : Obj → Own Obj
  | .pod => pure .pod
  | .string d n c => do
    gfree d
    pure (.string none n c)
  | .vector t d n cells c => do
    let cells ← fill (fun i => destroy (cells i)) n cells
    gfree d
    pure (.vector t none n cells c)
  | .inactive => pure .inactive
  | .active _ o => do
    let _ ← destroy o
    pure .inactive
  | .pair a b => do
    let b ← destroy b
    let a ← destroy a
    pure (.pair a b)

/-- `for (i = 0; i < o.size; i++) new (&data[i]) T(o[i]);`, where the elements of `o` are
behind `src` and `cp` copies one. -/
def copyCells (cp : ℕ → Own Obj) (src : Option ℕ) (n : ℕ) (data : Option ℕ)
    (cells : ℕ → Obj) : Own (ℕ → Obj) :=
  if n = 0 then pure cells
  else if src = none then fatal "vector data null (uninitialized)!"
  else if data = none then crash
  else fill cp n cells

/-- `T(const T&)`. -/
def copy (w : World) : Obj → Own Obj
  | .pod => pure .pod
  | .string d n _ =>
    if n = 0 then pure (.string none 0 0)
    else do
      let r ← galloc n
      if d = none then crash
      else pure (.string r n n)
  | .vector t d n cells c => do
    let r ← galloc (c * t.sizeof % 2 ^ 64)
    let cells ← copyCells (fun i => copy w (cells i)) d n r (w.cells r)
    pure (.vector t r n cells c)
  | .inactive => pure .inactive
  | .active i o => pure (.active i o)
  | .pair a b => do
    let a ← copy w a
    let b ← copy w b
    pure (.pair a b)

/-- `T(T&&)`, with what becomes of the argument. `String(String&&)` hands its argument on
as an lvalue, so that `Vector(const Vector&)` is called. -/
def moveFrom : Obj → Own (Obj × Obj)
  | .pod => pure (.pod, .pod)
  | .string d n c => do
    let r ← galloc c
    let _ ← copyCells (fun _ => pure .pod) d n r fun _ => .pod
    pure (.string r n c, .string d n c)
  | .vector t d n cells c => pure (.vector t d n cells c, .vector t none 0 cells 0)
  | .inactive => pure (.inactive, .inactive)
  | .active i o => pure (.active i o, .active i o)
  | .pair a b => do
    let (a, a') ← moveFrom a
    let (b, b') ← moveFrom b
    pure (.pair a b, .pair a' b')

/-! ## `Vector<T>` -/

section Vector

variable (w : World)

/-- The loops of `reserve`: the elements are moved to the new block, then destroyed. They
count in a `u32`. -/
def relocate (n : ℕ) (cells : ℕ → Obj) (r : Option ℕ) : Own (ℕ → Obj) :=
  if n = 0 then pure (w.cells r)
  else if r = none then crash
  else if 2 ^ 32 ≤ n then fail (.halt .endless)
  else do
    let x ← fill (fun i => moveFrom (cells i)) n fun i => (w.cells r i, cells i)
    let _ ← fill (fun i => destroy (x i).2) n fun i => (x i).2
    pure fun i => (x i).1

/-- `reserve(cap)`: the new `data`, its cells and the new capacity. -/
def reserve (t : Ty) (d : Option ℕ) (n : ℕ) (cells : ℕ → Obj) (cap : ℕ) :
    Own (Option ℕ × (ℕ → Obj) × ℕ) :=
  let cap := if cap < n then n else cap
  let request := cap * t.sizeof % 2 ^ 64
  match d with
  | none =>
    -- with nothing to reserve, `_gtryrealloc` and `_galloc` allocate nothing
    if cap = 0 then pure (none, cells, 0)
    else do
      let r ← galloc request
      pure (r, w.cells r, cap)
  | some b =>
    if w.inPlace b request then pure (some b, cells, cap)
    else do
      let r ← galloc request
      let cells ← relocate w n cells r
      gfree (some b)
      pure (r, cells, cap)

/-- `operator=(const T&)`. -/
def assign : Obj → Obj → Own Obj
  | .pod, .pod => pure .pod
  | .string d _ _, .string d' n _ => do
    gfree d
    let r ← galloc n
    if r ≠ none ∧ d' = none then crash
    else pure (.string r n n)
  | .vector t d n cells _, .vector _ d' n' cells' c' => do
    let cells ← fill (fun i => destroy (cells i)) n cells
    let (d, cells, c) ← reserve w t d n cells c'
    let cells ← copyCells (fun i => copy w (cells' i)) d' n' d cells
    pure (.vector t d n' cells c)
  | .inactive, .inactive => pure .inactive
  | .inactive, .active i o => pure (.active i o)
  | .active _ _, .inactive => pure .inactive
  | .active _ _, .active i o => pure (.active i o)
  | .pair a b, .pair a' b' => do
    let a ← assign a a'
    let b ← assign b b'
    pure (.pair a b)
  | _, _ => fail .mistyped

/-- What the argument of a move assignment becomes. -/
def emptied : Obj → Obj
  | .pod => .pod
  | .string _ _ _ => .string none 0 0
  | .vector t _ _ cells _ => .vector t none 0 cells 0
  | .inactive => .inactive
  | .active i o => .active i o
  | .pair a b => .pair (emptied a) (emptied b)

/-- `operator=(T&&)`. -/
def moveAssign : Obj → Obj → Own Obj
  | .pod, .pod => pure .pod
  | .string d _ _, .string d' n' c' => do
    gfree d
    pure (.string d' n' c')
  | .vector _ _ n cells _, .vector t d' n' cells' c' => do
    let _ ← fill (fun i => destroy (cells i)) n cells
    pure (.vector t d' n' cells' c')
  | .inactive, .inactive => pure .inactive
  | .inactive, .active i o => pure (.active i o)
  | .active _ _, .inactive => pure .inactive
  | .active _ _, .active i o => pure (.active i o)
  | .pair a b, .pair a' b' => do
    let a ← moveAssign a a'
    let b ← moveAssign b b'
    pure (.pair a b)
  | _, _ => fail .mistyped

/-- `new (&x) T(x)`: the members of a vector are reset before they are read. -/
def recopied : Obj → Obj
  | .pod => .pod
  | .string _ _ _ => .string none 0 0
  | .vector t _ _ cells _ => .vector t none 0 cells 0
  | .inactive => .inactive
  | .active i o => .active i o
  | .pair a b => .pair (recopied a) (recopied b)

/-- `x = x`. -/
def selfAssign : Obj → Own Obj
  | .pod => pure .pod
  | .string d n _ => do
    gfree d
    let r ← galloc n
    pure (.string r n n)
  | .vector t d n cells c => do
    let cells ← fill (fun i => destroy (cells i)) n cells
    let (d, cells, c) ← reserve w t d n cells c
    pure (.vector t d n (fun i => if i < n then recopied (cells i) else cells i) c)
  | .inactive => pure .inactive
  | .active i o => pure (.active i o)
  | .pair a b => do
    let a ← selfAssign a
    let b ← selfAssign b
    pure (.pair a b)

/-- `x = move(x)`. -/
def selfMoveAssign : Obj → Own Obj
  | .pod => pure .pod
  | .string d _ _ => do
    gfree d
    pure (.string none 0 0)
  | .vector t _ n cells _ => do
    let cells ← fill (fun i => destroy (cells i)) n cells
    pure (.vector t none 0 cells 0)
  | .inactive => pure .inactive
  | .active i o => pure (.active i o)
  | .pair a b => do
    let a ← selfMoveAssign a
    let b ← selfMoveAssign b
    pure (.pair a b)

/-- `new (&data[size++]) T(..)`, where `o` has been constructed. -/
def push : Obj → Obj → Own Obj
  | .vector t d n cells c, o =>
    if d = none then crash
    else pure (.vector t d (n + 1) (Function.update cells n o) c)
  | _, _ => fail .mistyped

/-- `if (size >= capacity) reserve(growfun(capacity));`. -/
def grow : Obj → Own Obj
  | .vector t d n cells c =>
    if c ≤ n then do
      let (d, cells, c) ← reserve w t d n cells (growfun c)
      pure (.vector t d n cells c)
    else pure (.vector t d n cells c)
  | _ => fail .mistyped

/-- The check of `emplace_back`. -/
def checkData : Obj → Own Unit
  | .vector _ d n _ c =>
    if (n ≠ 0 ∨ c ≠ 0) ∧ d = none then
      fatal "Invalid vector state: data is null but size is %lld (cap %lld)"
    else pure ()
  | _ => fail .mistyped

/-- The bytes of a cell, taken for a `T`. -/
def seen : Ty → Obj → Obj
  | .pod _, _ => .pod
  | _, o => o

/-- `operator+=(T c)`: the parameter is a copy, and it is assigned to a cell in which
nothing was constructed. -/
def append : Obj → Obj → Own Obj
  | .vector t d n cells _, x => do
    let y ← copy w x
    let (d, cells, c) ← reserve w t d n cells (wadd n 1)
    if d = none then crash
    else do
      let o ← assign w (seen t (cells n)) y
      let _ ← destroy y
      pure (.vector t d (n + 1) (Function.update cells n o) c)
  | _, _ => fail .mistyped

/-- `reserve(cap)` as a statement. -/
def reserveTo (cap : ℕ) : Obj → Own Obj
  | .vector t d n cells _ => do
    let (d, cells, c) ← reserve w t d n cells cap
    pure (.vector t d n cells c)
  | .string d n _ => do
    let (d, _, c) ← reserve w (.pod 1) d n (fun _ => .pod) cap
    pure (.string d n c)
  | _ => fail .mistyped

/-- `resize(to)`, of a `Vector<T>` and of a `String`. -/
def resize (size : ℕ) : Obj → Own Obj
  | .vector t d n cells _ => do
    let (d, cells, c) ← reserve w t d n cells size
    if size < n then do
      let cells ← drain (fun i => destroy (cells i)) size (n - size) cells
      pure (.vector t d size cells c)
    else if n < size ∧ d = none then crash
    else pure (.vector t d size (fun i => if n ≤ i ∧ i < size then t.init else cells i) c)
  | .string d n _ => do
    let (d, _, _) ← reserve w (.pod 1) d n (fun _ => .pod) size
    if n < size ∧ d = none then crash
    else do
      let (d, _, c) ← reserve w (.pod 1) d size (fun _ => .pod) (wadd size 1)
      if d = none then crash
      else pure (.string d size c)
  | _ => fail .mistyped

/-- `pop()`; the element stays where it is. -/
def pop : Obj → Own Obj
  | .vector t d n cells c =>
    if n = 0 then fatal "Tried to pop an empty stack!"
    else pure (.vector t d (n - 1) cells c)
  | _ => fail .mistyped

/-- `swap_remove(idx)`: `data[idx] = data[size--]`, which is the cell behind the last. -/
def swapRemove (idx : ℕ) : Obj → Own Obj
  | .vector t d n cells c =>
    if n ≤ idx then fatal "swap_remove: idx out of bounds!"
    else do
      let o ← assign w (seen t (cells idx)) (seen t (cells n))
      pure (.vector t d (n - 1) (Function.update cells idx o) c)
  | _ => fail .mistyped

/-- `String::operator+=` with a text of `len` bytes. -/
def appendText (len : ℕ) : Obj → Own Obj
  | .string d n _ => do
    let (d, _, c) ← reserve w (.pod 1) d n (fun _ => .pod) (wadd (wadd n len) 1)
    if d = none then crash
    else pure (.string d (wadd n len) c)
  | _ => fail .mistyped

/-- `String::operator+=` with a character. -/
def appendChar : Obj → Own Obj
  | .string d n _ => do
    let (d, _, c) ← reserve w (.pod 1) d n (fun _ => .pod) (wadd n 1)
    if d = none then crash
    else pure (.string d (wadd n 1) c)
  | _ => fail .mistyped

end Vector

/-! ## `variant` -/

/-- The check of `emplace_back`. -/
def checkInactive : Obj → Own Unit
  | .inactive => pure ()
  | .active _ _ => fatal "variant already has an active element!"
  | _ => fail .mistyped

/-- `active = i; new (&storage) T(..)`, where `o` has been constructed. -/
def activate (i : ℕ) (o : Obj) : Obj → Own Obj
  | .inactive => pure (.active i o)
  | _ => fail .mistyped

/-- `variant::destroy()`. -/
def clear : Obj → Own Obj
  | .inactive => pure .inactive
  | .active i o => destroy (.active i o)
  | _ => fail .mistyped

/-! ## Variables and the ways into them -/

/-- `v[i]`, `x.get<T>()` with the index of `T`, and the members of a struct. -/
inductive Proj where
  | elem (i : ℕ)
  | alt (i : ℕ)
  | fst
  | snd
deriving DecidableEq, Repr

/-- An object: a variable, or something in it. -/
structure Loc where
  var : ℕ
  path : List Proj
deriving DecidableEq, Repr

/-- The live variables. -/
structure Env where
  vars : ℕ → Option Obj
  count : ℕ

/-- The object at a path. `operator[]` lets the index be `size`. -/
def Obj.get : List Proj → Obj → Except Fault Obj
  | [], o => .ok o
  | .elem i :: p, .vector _ d n cells _ =>
    if n < i then .error (.halt (.fatal "vector access out of bounds! idx %lld size %lld"))
    else if d = none then .error (.halt (.fatal "vector data null (uninitialized)!"))
    else (cells i).get p
  | .alt _ :: _, .inactive => .error (.halt (.fatal "variant has no active element!"))
  | .alt i :: p, .active j o =>
    if i ≠ j then
      .error (.halt (.fatal "Type mismatch! active: %d; requested: %lld"))
    else o.get p
  | .fst :: p, .pair a _ => a.get p
  | .snd :: p, .pair _ b => b.get p
  | _, _ => .error .mistyped

/-- Replace the object at a path. -/
def Obj.put (x : Obj) : List Proj → Obj → Obj
  | [], _ => x
  | .elem i :: p, .vector t d n cells c =>
    .vector t d n (Function.update cells i (put x p (cells i))) c
  | .alt _ :: p, .active j o => .active j (put x p o)
  | .fst :: p, .pair a b => .pair (put x p a) b
  | .snd :: p, .pair a b => .pair a (put x p b)
  | _, o => o

namespace Env

def get (e : Env) (l : Loc) : Except Fault Obj :=
  match e.vars l.var with
  | none => .error .mistyped
  | some o => o.get l.path

def put (e : Env) (l : Loc) (x : Obj) : Env :=
  { e with vars := Function.update e.vars l.var ((e.vars l.var).map (Obj.put x l.path)) }

/-- One variable more. -/
def declare (e : Env) (o : Obj) : Env :=
  { vars := Function.update e.vars e.count (some o), count := e.count + 1 }

/-- One variable less. -/
def drop (e : Env) (x : ℕ) : Env := { e with vars := Function.update e.vars x none }

end Env

/-! ## Statements -/

/-- Constructors. `String(const char*)` is `text` as well. -/
inductive Init where
  | default (t : Ty)
  | capacity (t : Ty) (cap : ℕ)
  | items (t : Ty) (ls : List Loc)
  | text (len : ℕ)
  | chars (n : ℕ)
  | copy (l : Loc)
  | move (l : Loc)
  | variantCopy (i : ℕ) (l : Loc)
  | variantMove (i : ℕ) (l : Loc)

/-- Statements. `group` makes a struct of two variables: its members were constructed in
place. -/
inductive Op where
  | declare (i : Init)
  | group (x y : ℕ)
  | destroy (x : ℕ)
  | assign (l l' : Loc)
  | moveAssign (l l' : Loc)
  | reserve (l : Loc) (cap : ℕ)
  | pushBack (l l' : Loc)
  | pushBackMove (l l' : Loc)
  | emplaceBack (l l' : Loc)
  | emplaceBackMove (l l' : Loc)
  | append (l l' : Loc)
  | resize (l : Loc) (size : ℕ)
  | pop (l : Loc)
  | swapRemove (l : Loc) (idx : ℕ)
  | appendText (l : Loc) (len : ℕ)
  | appendChar (l : Loc)
  | emplace (l : Loc) (i : ℕ) (c : Init)
  | clear (l : Loc)

section Exec

variable (w : World)

/-- The temporaries of an initializer list. -/
def copyItems (e : Env) : List Loc → Own (List Obj)
  | [] => pure []
  | l :: ls => do
    let x ← lift (e.get l)
    let o ← copy w x
    let os ← copyItems e ls
    pure (o :: os)

/-- `for (const auto& e : items) emplace_back(e);`. -/
def emplaceAll : List Obj → Obj → Own Obj
  | [], v => pure v
  | x :: xs, v => do
    let v ← grow w v
    checkData v
    let o ← copy w x
    let v ← push v o
    emplaceAll xs v

/-- `Vector(std::initializer_list<T>)`. -/
def ofItems (t : Ty) (os : List Obj) : Own Obj :=
  let cap := align os.length 8
  if cap = 0 then pure (.vector t none 0 (fun _ => .pod) 0)
  else do
    let r ← galloc (cap * t.sizeof % 2 ^ 64)
    emplaceAll w os (.vector t r 0 (w.cells r) cap)

def destroyAll : List Obj → Own Unit
  | [] => pure ()
  | o :: os => do
    let _ ← destroy o
    destroyAll os

/-- A constructor: the new object, and the variables it may have moved from. -/
def construct (e : Env) : Init → Own (Obj × Env)
  | .default t => pure (t.init, e)
  | .capacity t cap => do
    let r ← galloc (cap * t.sizeof % 2 ^ 64)
    pure (.vector t r 0 (w.cells r) cap, e)
  | .items t ls => do
    let os ← copyItems w e ls
    let v ← ofItems w t os
    destroyAll os.reverse
    pure (v, e)
  | .text len =>
    if wadd len 1 = 0 then crash
    else do
      let r ← galloc (wadd len 1)
      pure (.string r len (wadd len 1), e)
  | .chars n =>
    if align n 8 = 0 then crash
    else do
      let r ← galloc (align n 8)
      pure (.string r n (align n 8), e)
  | .copy l => do
    let x ← lift (e.get l)
    let o ← copy w x
    pure (o, e)
  | .move l => do
    let x ← lift (e.get l)
    let (o, x) ← moveFrom x
    pure (o, e.put l x)
  | .variantCopy i l => do
    let x ← lift (e.get l)
    let o ← copy w x
    pure (.active i o, e)
  | .variantMove i l => do
    let x ← lift (e.get l)
    let (o, x) ← moveFrom x
    pure (.active i o, e.put l x)

/-- Replace an object by what a mutator makes of it. -/
def mutate (e : Env) (l : Loc) (f : Obj → Own Obj) : Own Env := do
  let o ← lift (e.get l)
  let o ← f o
  pure (e.put l o)

/-- The block of a vector. -/
def Obj.data : Obj → Option ℕ
  | .vector _ d _ _ _ => d
  | _ => none

/-- `push_back` and `emplace_back` up to the construction. The argument is a reference:
where it leads into a block that has been moved, it is stale. -/
def makeRoom (e : Env) (l l' : Loc) : Own Env := do
  let v ← lift (e.get l)
  let v' ← grow w v
  if v'.data ≠ v.data ∧ l.var = l'.var ∧ l.path <+: l'.path then fail .stale
  else pure (e.put l v')

/-- A statement. -/
def exec (e : Env) : Op → Own Env
  | .declare i => do
    let (o, e) ← construct w e i
    pure (e.declare o)
  | .group x y =>
    match e.vars x, e.vars y with
    | some a, some b =>
      if x = y then fail .mistyped else pure (((e.drop x).drop y).declare (.pair a b))
    | _, _ => fail .mistyped
  | .destroy x =>
    match e.vars x with
    | none => fail .mistyped
    | some o => do
      let _ ← Objects.destroy o
      pure (e.drop x)
  | .assign l l' => do
    let x ← lift (e.get l')
    if l = l' then mutate e l (selfAssign w)
    else mutate e l fun y => Objects.assign w y x
  | .moveAssign l l' => do
    let x ← lift (e.get l')
    if l = l' then mutate e l selfMoveAssign
    else mutate (e.put l' (emptied x)) l fun y => Objects.moveAssign y x
  | .reserve l cap => mutate e l (reserveTo w cap)
  | .pushBack l l' => do
    let e ← makeRoom w e l l'
    let x ← lift (e.get l')
    let o ← copy w x
    mutate e l (push · o)
  | .pushBackMove l l' => do
    let e ← makeRoom w e l l'
    let x ← lift (e.get l')
    let (o, x) ← moveFrom x
    mutate (e.put l' x) l (push · o)
  | .emplaceBack l l' => do
    let e ← makeRoom w e l l'
    let v ← lift (e.get l)
    checkData v
    let x ← lift (e.get l')
    let o ← copy w x
    mutate e l (push · o)
  | .emplaceBackMove l l' => do
    let e ← makeRoom w e l l'
    let v ← lift (e.get l)
    checkData v
    let x ← lift (e.get l')
    let (o, x) ← moveFrom x
    mutate (e.put l' x) l (push · o)
  | .append l l' => do
    let x ← lift (e.get l')
    mutate e l fun v => Objects.append w v x
  | .resize l size => mutate e l (Objects.resize w size)
  | .pop l => mutate e l Objects.pop
  | .swapRemove l idx => mutate e l (Objects.swapRemove w idx)
  | .appendText l len => mutate e l (Objects.appendText w len)
  | .appendChar l => mutate e l (Objects.appendChar w)
  | .emplace l i c => do
    checkInactive (← lift (e.get l))
    let (o, e) ← construct w e c
    mutate e l (activate i o)
  | .clear l => mutate e l clear

end Exec

/-! ## Runs -/

/-- A statement, with what the heap decides while it runs. -/
structure Stmt where
  world : World
  op : Op

/-- One statement, in a state of the variables and the heap. -/
def step : Env × Pool → Stmt → Except (Stop Fault) (Unit × Env × Pool) := fun s x =>
  (exec x.world s.1 x.op s.2).map fun s' => ((), s')

/-- No variables yet. -/
def start (heap : Pool) : Env × Pool := (⟨fun _ => none, 0⟩, heap)

end NeptunOS.Objects
