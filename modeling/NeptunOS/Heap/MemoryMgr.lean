import NeptunOS.Lib.Stepwise
import NeptunOS.Util.Bitmap
import NeptunOS.Util.Mem

/-!
# `util/mm.cc`: the kernel heap

`MemoryMgr` keeps the heap as an address-ordered doubly linked list of blocks.
Links live in a pool of their own (one page, slots found through `bm`), block
addresses are not stored but summed up from `heap_base` by every walk. With
`VMM_DEBUG` each block carries a 64-byte redzone on both sides.

Pointers into the pool are slot numbers, `none` is `nullptr`. Heap pointers are
`u64` values, `0` is null. `file` and `line` of `link_t` only feed console
messages and are left out. Every assignment to the state is a statement tagged
with its line in `mm.cc` (inside `create_link` and `delete_link`, the line of
the call); locals are bound in between.
-/

namespace NeptunOS

/-- `MemoryMgr`, with one function per field of the pool's `link_t`s and the
bytes of the heap itself. -/
structure MemoryMgr where
  heapBase : ℕ
  first : Option ℕ
  next : ℕ → Option ℕ
  prev : ℕ → Option ℕ
  length : ℕ → ℕ
  free : ℕ → Bool
  bm : Bitmap
  usedmem : ℕ
  freemem : ℕ
  mem : Mem
  locked : Bool

namespace Heap

open Stepwise Function

/-- `PMM_PAGESIZE / sizeof(link_t)`. -/
def capacity : ℕ := 4096 / 48

/-- `VMM_MIN_ALLOC`. -/
def minAlloc : ℕ := 16

/-- `VMM_REDZONE_SIZE`. -/
def redzoneSize : ℕ := 64

/-- `VMM_REDZONE_MAGIC`. -/
def redzoneMagic : UInt8 := 0xbc

/-- `MemoryMgr(heap, size)`; `buffer` and `mem` are what the bitmap's page and
the heap hold before. -/
def init (heap size : ℕ) (buffer : ℕ → BitVec 64) (mem : Mem) : MemoryMgr where
  heapBase := heap
  first := some 0
  next _ := none
  prev _ := none
  length l := if l = 0 then size else 0
  free l := decide (l = 0)
  bm := (Bitmap.init buffer capacity false).put 0 true
  usedmem := 0
  freemem := size
  mem := mem
  locked := false

/-- A heap operation. -/
abbrev Op (α : Type) := Prog MemoryMgr Halt α

/-- `assert(c)`. -/
def assert (c : Prop) [Decidable c] (text : String) : Op Unit :=
  Prog.when (¬ c) (Prog.fail (.assertion text))

/-- The scope of a `LockguardSimple`. -/
def locking {α : Type} (line : ℕ) (body : Op α) : Op α := do
  let m ← Prog.read
  Prog.when (m.locked = true) (Prog.fail .spinning)
  Prog.stmt line fun m => { m with locked := true }
  let r ← body
  Prog.stmt line fun m => { m with locked := false }
  return r

/-! ## Walks -/

/-- Where a walk stopped: the link, the link before it and the address. -/
structure Cursor where
  i : Option ℕ
  j : Option ℕ
  addr : ℕ
deriving DecidableEq, Repr

/-- `while (i) { if (stop) break; j = i; addr += i->length; i = i->next; }`.
A walk over more links than the pool has is a walk over a cycle. -/
def walk (m : MemoryMgr) (stop : ℕ → ℕ → Except Halt Bool) :
    ℕ → Option ℕ → Option ℕ → ℕ → Except Halt Cursor
  | _, none, j, addr => .ok ⟨none, j, addr⟩
  | 0, some _, _, _ => .error .endless
  | fuel + 1, some i, j, addr => do
    if ← stop i addr then return ⟨some i, j, addr⟩
    walk m stop fuel (m.next i) (some i) (wadd addr (m.length i))

/-- A walk from `first` and `heap_base`. -/
def scan (m : MemoryMgr) (stop : ℕ → ℕ → Except Halt Bool) :
    Except Halt Cursor :=
  walk m stop capacity m.first m.first m.heapBase

/-- The walk to the link that starts at `p`. -/
def lookup (m : MemoryMgr) (p : ℕ) : Except Halt Cursor :=
  scan m fun _ addr => .ok (decide (addr = p))

/-- `count_allocs()`; the `u32` counter holds any length the pool allows. -/
def countAllocs (m : MemoryMgr) : ℕ → Option ℕ → Except Halt ℕ
  | _, none => .ok 0
  | 0, some _ => .error .endless
  | fuel + 1, some l => do
    let n ← countAllocs m fuel (m.next l)
    return n + 1

/-- `dump()` without its console output. -/
def dump (m : MemoryMgr) : Except Halt ℕ :=
  if m.locked then .error .spinning
  else do
    let c ← scan m fun _ _ => .ok false
    return wsub c.addr m.heapBase

/-- `get_size(p)`. -/
def getSize (m : MemoryMgr) (p : ℕ) : Except Halt ℕ := do
  let c ← lookup m (wsub p redzoneSize)
  match c.i with
  | some i => .ok (wsub (m.length i) (redzoneSize * 2))
  | none => .error (.fatal "Unreachable code in get_size!")

/-- The report of `check` on a damaged redzone before the block at `p`: it
inspects the neighbour `j` and pauses. `nested` is the recursive `check`. -/
def reportBefore (m : MemoryMgr) (p j : ℕ) (nested : ℕ → Except Halt Unit) :
    Except Halt Unit := do
  let p2 := wsub p (m.length j)
  let sz ← getSize m (wadd p2 redzoneSize)
  if m.length j ≠ wadd sz (redzoneSize * 2) then
    .error (.assertion
      "j->length == get_size((void*)((u64)p2 + 64)) + VMM_REDZONE_SIZE * 2")
  else do
    nested (wadd p2 redzoneSize)
    .error (.paused
      "Redzone corruption before allocation (%p)!\nAllocated @ %s:%d")

/-- The report on a damaged redzone at `p`, behind the block of link `i`. -/
def reportAfter (m : MemoryMgr) (p i : ℕ) (nested : ℕ → Except Halt Unit) :
    Except Halt Unit :=
  match m.next i with
  | none => .error (.exception "page fault: j->free")
  | some _ => do
    nested (wadd (wadd p (m.length i)) redzoneSize)
    .error (.paused
      "Redzone corruption after allocation (%p)!\nAllocated @ %s:%d")

/-- `check(p, checkbefore, checkafter)`. The first argument bounds the nesting
of reports. -/
def check (m : MemoryMgr) : ℕ → ℕ → Bool → Bool → Except Halt Unit
  | 0, _, _, _ => .error .endless
  | fuel + 1, ptr, checkbefore, checkafter => do
    let p := wsub ptr redzoneSize
    let c ← lookup m p
    match c.i, c.j with
    | some i, some j =>
      let linksize := m.length i
      let p' := wsub (wadd p linksize) redzoneSize
      if linksize = 2 ^ 64 - 1 then .error (.fatal "No such alloc: %p")
      else if m.free i then
        .error (.fatal "Tried to check a free sector?? %p")
      else if m.length i < minAlloc + redzoneSize * 2 then do
        let _ ← dump m
        .error (.fatal "%p is only 0x%llx bytes?? [%s:%d]")
      else if memchk m.mem p redzoneMagic redzoneSize then
        reportBefore m p j fun q =>
          if checkbefore then check m fuel q true false else .ok ()
      else if memchk m.mem p' redzoneMagic redzoneSize then
        reportAfter m p' i fun q =>
          if checkafter then check m fuel q false true else .ok ()
      else .ok ()
    | _, _ => .error (.fatal "No such alloc: %p")

/-- `check(p)` with its default arguments. -/
def checkPtr (m : MemoryMgr) (p : ℕ) : Except Halt Unit :=
  check m (capacity + 1) p true true

/-- The loop of `check_all`. -/
def checkFrom (m : MemoryMgr) : ℕ → Option ℕ → ℕ → Except Halt Unit
  | _, none, _ => .ok ()
  | 0, some _, _ => .error .endless
  | fuel + 1, some l, a => do
    let _ ← if m.free l then .ok () else checkPtr m (wadd a redzoneSize)
    checkFrom m fuel (m.next l) (wadd a (m.length l))

/-- `check_all()`. -/
def checkAll (m : MemoryMgr) : Except Halt Unit :=
  checkFrom m capacity m.first m.heapBase

/-! ## Links -/

/-- `delete_link(l)`, called at `line`. -/
def deleteLink (line l : ℕ) : Op Unit := do
  let m ← Prog.read
  Prog.when (m.prev l = none)
    (Prog.stmt line fun m => { m with first := m.next l })
  let bm ← Prog.lift (m.bm.set l false)
  Prog.stmt line fun m => { m with bm := bm }
  Prog.stmt line fun m => { m with next := update m.next l none }
  Prog.stmt line fun m => { m with prev := update m.prev l none }

/-- `create_link()`, called at `line`. -/
def createLink (line : ℕ) : Op ℕ := do
  let m ← Prog.read
  let (idx, bm) ← Prog.lift m.bm.findAndSet
  match idx with
  | none =>
    Prog.fail (.fatal ("Kifogyott a vmm bitmap! Hasznalt: %llu KiB (%llu " ++
      "MiB) Szabad: %llu KiB (%llu MiB) bm @ %p"))
  | some idx =>
    Prog.stmt line fun m => { m with bm := bm }
    return idx

/-- `if (p) p->prev = v`. -/
def setPrevOf (line : ℕ) (p : Option ℕ) (v : Option ℕ) : Op Unit :=
  match p with
  | some s => Prog.stmt line fun m => { m with prev := update m.prev s v }
  | none => pure ()

/-- `if (p) p->next = v`. -/
def setNextOf (line : ℕ) (p : Option ℕ) (v : Option ℕ) : Op Unit :=
  match p with
  | some s => Prog.stmt line fun m => { m with next := update m.next s v }
  | none => pure ()

/-- The body of both branches of `merge`, from `line` on: `c` takes over the
bytes of `n` behind it and `n` is deleted. -/
def fuse (line c n : ℕ) : Op Unit := do
  Prog.stmt line fun m =>
    { m with length := update m.length c (wadd (m.length c) (m.length n)) }
  let m ← Prog.read
  setPrevOf (line + 2) (m.next n) (some c)
  Prog.stmt (line + 3) fun m => { m with next := update m.next c (m.next n) }
  deleteLink (line + 5) n

/-- First half of `merge(l)`: merge with the block behind. -/
def mergeNext (l : ℕ) : Op Unit := do
  let m ← Prog.read
  match m.next l with
  | none => pure ()
  | some old =>
    Prog.when (m.free l = true ∧ m.free old = true) (fuse 88 l old)

/-- Second half of `merge(l)`: merge with the block before. -/
def mergePrev (l : ℕ) : Op Unit := do
  let m ← Prog.read
  match m.prev l with
  | none => pure ()
  | some q =>
    Prog.when (m.free l = true ∧ m.free q = true) (fuse 101 q l)

/-- `merge(l)`. -/
def merge (l : ℕ) : Op Unit := do
  mergeNext l
  mergePrev l

/-- The part of `allocate_into_free` that links the remainder in. -/
def splitOff (current size rem : ℕ) : Op Unit := do
  let newlink ← createLink 124
  Prog.stmt 127 fun m => { m with length := update m.length current size }
  Prog.stmt 129 fun m =>
    { m with next := update m.next newlink (m.next current) }
  Prog.stmt 130 fun m => { m with prev := update m.prev newlink (some current) }
  Prog.stmt 131 fun m => { m with length := update m.length newlink rem }
  Prog.stmt 132 fun m => { m with free := update m.free newlink true }
  let m ← Prog.read
  setPrevOf 135 (m.next current) (some newlink)
  Prog.stmt 137 fun m => { m with next := update m.next current (some newlink) }

/-- `allocate_into_free(current, size, additional)`; no caller uses the link
it returns. -/
def allocateIntoFree (current : Option ℕ) (size additional : ℕ) : Op Unit := do
  match current with
  | none => Prog.fail (.exception "page fault: current->free")
  | some current =>
    let m ← Prog.read
    assert (m.free current = true) "current->free"
    Prog.stmt 114 fun m => { m with free := update m.free current false }
    assert (size ≤ m.length current) "current->length >= size"
    assert (additional ≤ wsub (m.length current) size)
      "current->length - size >= additional"
    let rem := wsub (wsub (m.length current) size) additional
    Prog.when (rem ≠ 0) (splitOff current size rem)

/-! ## Operations -/

/-- The accounting and the redzones of a new block of `size` bytes at
`address`, at the end of both allocation functions. -/
def finishAlloc (acct rz size address : ℕ) : Op ℕ := do
  Prog.stmt acct fun m => { m with usedmem := wadd m.usedmem size }
  Prog.stmt (acct + 1) fun m => { m with freemem := wsub m.freemem size }
  Prog.stmt rz fun m =>
    { m with mem := memset m.mem address redzoneMagic redzoneSize }
  Prog.stmt (rz + 1) fun m =>
    { m with
      mem := memset m.mem (wsub (wadd address size) redzoneSize)
        redzoneMagic redzoneSize }
  return wadd address redzoneSize

/-- Length of the block that serves a request of `n` bytes. -/
def blockSize (n : ℕ) : ℕ := wadd (align n minAlloc) (redzoneSize * 2)

/-- `alloc_nomutex(n)`. -/
def allocNomutex (n : ℕ) : Op ℕ := do
  if n = 0 then return 0
  let size := blockSize n
  let m ← Prog.read
  let c ← Prog.lift (scan m fun l _ =>
    .ok (m.free l && decide (size ≤ m.length l)))
  allocateIntoFree c.i size 0
  finishAlloc 170 175 size c.addr

/-- `alloc(n)`. -/
def alloc (n : ℕ) : Op ℕ := locking 184 (allocNomutex n)

/-- `align(address + rzcorr, align) - (address + rzcorr)`. -/
def alignFix (address a : ℕ) : ℕ :=
  wsub (align (wadd address redzoneSize) a) (wadd address redzoneSize)

/-- `align = align(align, VMM_MIN_ALLOC)` on the `u32` parameter. -/
def roundAlign (a : ℕ) : ℕ := align a minAlloc % 2 ^ 32

/-- The tests of `alloc_aligned`'s loop on the link `l` at `address`. -/
def alignedFit (m : MemoryMgr) (size a l address : ℕ) : Except Halt Bool :=
  if m.free l = false then .ok false
  else if m.length l < size then .ok false
  else if a = 0 then .error (.exception "divide error")
  else if isAligned (wadd address redzoneSize) a then .ok true
  else if size < m.length l then
    if alignFix address a = 0 then .error (.assertion "alignfix")
    else .ok (decide (wadd size (alignFix address a) ≤ m.length l))
  else .ok false

/-- Lines 225 to 243: cut `alignfix` bytes off the front of `l`. -/
def cutFront (l alignfix : ℕ) : Op Unit := do
  let alignfixl ← createLink 225
  Prog.stmt 226 fun m => { m with free := update m.free alignfixl true }
  Prog.stmt 227 fun m => { m with length := update m.length alignfixl alignfix }
  Prog.stmt 228 fun m =>
    { m with length := update m.length l (wsub (m.length l) alignfix) }
  assert (isAligned alignfix minAlloc = true)
    "isaligned(alignfixl->length, VMM_MIN_ALLOC)"
  let m ← Prog.read
  setNextOf 237 (m.prev l) (some alignfixl)
  Prog.stmt 238 fun m => { m with prev := update m.prev alignfixl (m.prev l) }
  Prog.stmt 239 fun m => { m with next := update m.next alignfixl (some l) }
  Prog.stmt 240 fun m => { m with prev := update m.prev l (some alignfixl) }
  Prog.when (m.first = some l)
    (Prog.stmt 243 fun m => { m with first := some alignfixl })

/-- Lines 257 to 270: link a free block of `remaining` bytes in behind `l`. -/
def linkRemaining (l remaining : ℕ) : Op Unit := do
  let remainingl ← createLink 257
  Prog.stmt 262 fun m => { m with free := update m.free remainingl true }
  Prog.stmt 263 fun m =>
    { m with length := update m.length remainingl remaining }
  assert (isAligned remaining 16 = true) "isaligned(remainingl->length, 16)"
  let m ← Prog.read
  setPrevOf 267 (m.next l) (some remainingl)
  Prog.stmt 268 fun m => { m with next := update m.next remainingl (m.next l) }
  Prog.stmt 269 fun m => { m with next := update m.next l (some remainingl) }
  Prog.stmt 270 fun m => { m with prev := update m.prev remainingl (some l) }

/-- Lines 225 to 271: `l` becomes `alignfixl`, `l` and `remainingl`. -/
def carve (l size alignfix : ℕ) : Op Unit := do
  cutFront l alignfix
  let m ← Prog.read
  let remaining := wsub (m.length l) size
  assert (remaining < 2 ^ 63) "remaining >= 0ll"
  Prog.stmt 249 fun m =>
    { m with length := update m.length l (wsub (m.length l) remaining) }
  Prog.stmt 250 fun m => { m with free := update m.free l false }
  Prog.when (remaining ≠ 0) (linkRemaining l remaining)

/-- Lines 208 to 275: use the block the loop stopped at; the result is the
address of the new block. -/
def placeAligned (c : Cursor) (size a : ℕ) : Op ℕ :=
  match c.i with
  | none => pure c.addr
  | some l =>
    if isAligned (wadd c.addr redzoneSize) a then do
      allocateIntoFree (some l) size 0
      return c.addr
    else do
      carve l size (alignFix c.addr a)
      return wadd c.addr (alignFix c.addr a)

/-- `alloc_aligned(n, a)`. -/
def allocAligned (n a : ℕ) : Op ℕ := locking 191 do
  let size := blockSize n
  let a := roundAlign a
  let m ← Prog.read
  let c ← Prog.lift (scan m (alignedFit m size a))
  let address ← placeAligned c size a
  finishAlloc 282 286 size address

/-- Lines 324 to 336: `i` takes all of the free block `old` behind it. -/
def swallow (i old newsize oldsize : ℕ) : Op Unit := do
  Prog.stmt 324 fun m =>
    { m with
      length := update m.length old
        (wsub (m.length old) (wsub newsize (m.length i))) }
  Prog.stmt 325 fun m =>
    { m with
      length := update m.length i
        (wadd (m.length i) (wsub newsize (m.length i))) }
  Prog.stmt 326 fun m => { m with usedmem := wadd m.usedmem (wsub newsize oldsize) }
  Prog.stmt 327 fun m => { m with freemem := wsub m.freemem (wsub newsize oldsize) }
  Prog.stmt 331 fun m => { m with next := update m.next i (m.next old) }
  let m ← Prog.read
  setPrevOf 333 (m.next old) (some i)
  deleteLink 334 old

/-- Lines 338 to 343: `i` takes the front of the free block `n` behind it. -/
def nibble (i n newsize oldsize : ℕ) : Op Unit := do
  Prog.stmt 338 fun m =>
    { m with
      length := update m.length n
        (wsub (m.length n) (wsub newsize (m.length i))) }
  Prog.stmt 339 fun m =>
    { m with
      length := update m.length i
        (wadd (m.length i) (wsub newsize (m.length i))) }
  Prog.stmt 340 fun m => { m with usedmem := wadd m.usedmem (wsub newsize oldsize) }
  Prog.stmt 341 fun m => { m with freemem := wsub m.freemem (wsub newsize oldsize) }

/-- Lines 315 to 349: make the block of `i` at least `newsize` long in place,
if possible. -/
def growInPlace (i newsize : ℕ) : Op Bool := do
  let m ← Prog.read
  let oldsize := m.length i
  if newsize ≤ oldsize then return true
  match m.next i with
  | none => return false
  | some n =>
    if m.free n then
      if m.length n = wsub newsize oldsize then
        swallow i n newsize oldsize
        return true
      else if wsub newsize oldsize < m.length n then
        nibble i n newsize oldsize
        return true
      else return false
    else return false

/-- `try_realloc(ptr, n)`. -/
def tryRealloc (ptr n : ℕ) : Op Bool := locking 297 do
  if ptr = 0 then
    let p ← allocNomutex n
    return decide (p ≠ 0)
  assert (ptr % 16 = 0) "((u64)ptr & 15) == 0"
  let newsize := blockSize n
  let ptr := wsub ptr redzoneSize
  let m ← Prog.read
  let c ← Prog.lift (lookup m ptr)
  match c.i with
  | none => Prog.fail (.fatal "Elerhetetlen kod! ptr invalid? %p")
  | some i =>
    let allocd ← growInPlace i newsize
    Prog.when (allocd = true)
      (Prog.stmt 363 fun m =>
        { m with
          mem := memset m.mem (wsub (wadd ptr (m.length i)) redzoneSize)
            redzoneMagic redzoneSize })
    return allocd

/-- `free_nomutex(p)`. -/
def freeNomutex (p : ℕ) : Op Unit := do
  if p ≠ 0 then
    let m ← Prog.read
    Prog.lift (checkPtr m p)
    let c ← Prog.lift (lookup m (wsub p redzoneSize))
    match c.i with
    | none => Prog.fail (.fatal "turi ipő ip")
    | some i =>
      let linksize := m.length i
      Prog.when (linksize = 2 ^ 64 - 1) (Prog.fail (.fatal "turi ipő ip"))
      Prog.stmt 478 fun m => { m with usedmem := wsub m.usedmem linksize }
      Prog.stmt 479 fun m => { m with freemem := wadd m.freemem linksize }
      Prog.stmt 481 fun m => { m with free := update m.free i true }
      merge i

/-- `free(p)`. -/
def free (p : ℕ) : Op Unit := locking 487 (freeNomutex p)

/-- `realloc(ptr, n)`. -/
def realloc (ptr n : ℕ) : Op ℕ := do
  if ← tryRealloc ptr n then return ptr
  let newmem ← alloc n
  let m ← Prog.read
  let oldsize ← Prog.lift (getSize m ptr)
  Prog.stmt 397 fun m => { m with mem := memcpy m.mem newmem ptr oldsize }
  free ptr
  return newmem

end Heap

end NeptunOS
