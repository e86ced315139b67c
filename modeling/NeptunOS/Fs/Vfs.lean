import NeptunOS.Fs.Path
import NeptunOS.Storage.HashMap
import NeptunOS.Storage.Vector

/-!
# The memory file system (`fs/vfs.cc`)

Entries hold their contents as values. A pointer to an entry is the list of references
to hash map values that leads to it from the root. The directories that `vfs_create` makes
are in freed memory; `reuse` says what can become of them.
-/

namespace NeptunOS

namespace Vfs

open Fs Stepwise

mutual

/-- `vfs_entry`. -/
inductive Entry where
  | mk (name : Path) (content : Content)

/-- `vfs_entry_union`. -/
inductive Content where
  | inactive
  | dir (m : HashMap Path Entry)
  | file (v : Vec UInt8)

end

def Entry.name : Entry → Path
  | mk name _ => name

def Entry.content : Entry → Content
  | mk _ content => content

/-- `vfs_entry()`. -/
instance : Inhabited Entry := ⟨⟨[], .inactive⟩⟩

/-- `content.get<vfs_dir>()`. -/
def Content.getDir : Content → Except Halt (HashMap Path Entry)
  | inactive => .error (.fatal "variant has no active element!")
  | dir m => .ok m
  | file _ => .error (.fatal "Type mismatch! active: %d; requested: %lld")

/-- `vfs_dir()`. -/
def emptyDir : Content := .dir (HashMap.init 1024)

/-- `Vector<u8>()`. -/
def emptyFile : Content := .file ⟨none, 0, 0, fun _ => rfl⟩

/-- A pointer to an entry below some other one. -/
abbrev Ptr := List HashMap.Ref

/-- `if (*path == '/') path++`. -/
def skipSlash (path : Path) : Path := if path.head? = some slash then path.tail else path

/-- `path[0 .. namelen)`. -/
def segment (path : Path) : Path := path.takeWhile (· ≠ slash)

/-- The loop of `vfs_lookup` from entry `e` on; each round takes at least one character. -/
def lookupLoop : ℕ → Entry → Path → Except Halt (Option Ptr)
  | 0, _, _ => .error .endless
  | fuel + 1, e, path =>
    let path := skipSlash path
    if path = [] then .ok (some [])
    else do
      let name := segment path
      let hashmap ← e.content.getDir
      if ← hashmap.has name then
        let (r, hashmap) ← hashmap.index name
        let e ← hashmap.load r
        let p ← lookupLoop fuel e (path.drop name.length)
        return p.map (r :: ·)
      else return none

/-- `vfs_lookup(p, path)` from the root of `p`. -/
def lookup (root : Entry) (path : Path) : Except Halt (Option Ptr) :=
  lookupLoop (path.length + 1) root path

/-- `*p`. -/
def deref : Entry → Ptr → Except Halt Entry
  | e, [] => .ok e
  | e, r :: p => do
    let m ← e.content.getDir
    let e ← m.load r
    deref e p

/-- `*p = x`. -/
def assign : Entry → Ptr → Entry → Except Halt Entry
  | _, [], x => .ok x
  | e, r :: p, x => do
    let m ← e.content.getDir
    let sub ← m.load r
    let sub ← assign sub p x
    return ⟨e.name, .dir (m.store r sub)⟩

/-- `*p` for a pointer that may be null. -/
def derefOpt (root : Entry) : Option Ptr → Except Halt (Ptr × Entry)
  | none => .error (.exception "page fault: null entry")
  | some p => do
    let e ← deref root p
    return (p, e)

/-- The part of `vfs_read` that reads the contents into a buffer: the result, and what is
copied. -/
def readContent (content : Vec UInt8) (offset bytes : ℕ) : ℕ × List UInt8 :=
  match content.data with
  | none => (0, [])
  | some d =>
    if bytes = 0 then (0, [])
    else if content.size < offset then (2 ^ 64 - 1, [])
    else if content.size < wadd offset bytes then (2 ^ 64 - 1, [])
    else
      let toread := min bytes content.size
      (toread, (List.range toread).map fun i => d (offset + i))

/-- `vfs_read(p, path, offset, bytes, buf)`; `buf` may be null. -/
def read (root : Entry) (path : Path) (offset bytes : ℕ) (buf : Bool) :
    Except Halt (ℕ × List UInt8) := do
  let p ← lookup root path
  let (_, file) ← derefOpt root p
  match file.content with
  | .dir _ => return (2 ^ 64 - 1, [])
  | .inactive => .error (.fatal "variant has no active element!")
  | .file content =>
    if buf = false then return (wsub content.size offset, [])
    else return readContent content offset bytes

/-- `if (content.size < newSize) content.resize(newSize)`. -/
def growContent (content : Vec UInt8) (g : Grow UInt8) (newSize : ℕ) : Except Halt (Vec UInt8) :=
  if content.size < newSize then content.resize 0 g newSize else .ok content

/-- The part of `vfs_write` that changes the contents: they grow if they have to, then
`bytes` bytes of `buf` are copied. -/
def writeContent (content : Vec UInt8) (g : Grow UInt8) (offset bytes : ℕ) (buf : ℕ → UInt8) :
    Except Halt (Vec UInt8) := do
  let content ← growContent content g (wadd offset bytes)
  match content.data with
  | none => .error (.exception "page fault: data is null")
  | some d =>
    return content.write fun i =>
      if offset ≤ i ∧ i < offset + bytes then buf (i - offset) else d i

/-- `vfs_write(p, path, offset, bytes, buf)`. -/
def write (root : Entry) (path : Path) (offset bytes : ℕ) (buf : Option (ℕ → UInt8))
    (g : Grow UInt8) : Except Halt (ℕ × Entry) := do
  let p ← lookup root path
  let (p, file) ← derefOpt root p
  match file.content with
  | .dir _ => return (2 ^ 64 - 1, root)
  | .inactive => .error (.fatal "variant has no active element!")
  | .file content =>
    match buf with
    | none => return (0, root)
    | some buf =>
      if bytes = 0 then return (0, root)
      else
        let content ← writeContent content g offset bytes buf
        let root ← assign root p ⟨file.name, .file content⟩
        return (bytes, root)

/-- What `vfs_remove` and `vfs_create` start with: the name, and the directory it is in. -/
def openParent (root : Entry) (path : Path) :
    Except Halt (Path × Ptr × Entry × HashMap Path Entry) := do
  let (path, b) ← pathBasename path
  let p ← lookup root (path.take b)
  let (p, mappa) ← derefOpt root p
  let m ← mappa.content.getDir
  return (path.drop b, p, mappa, m)

/-- `vfs_remove(p, path)`. A name that does not exist is reported. -/
def remove (root : Entry) (path : Path) : Except Halt Entry := do
  let (basename, p, mappa, m) ← openParent root path
  if ← m.has basename then
    let m ← m.remove basename
    assign root p ⟨mappa.name, .dir m⟩
  else return root

/-- `vfs_create(p, path, mkdir)`. -/
def create (root : Entry) (path : Path) (mkdir : Bool) : Except Halt Entry := do
  let (basename, p, mappa, m) ← openParent root path
  let (r, m) ← m.index basename
  let m := m.store r ⟨basename, if mkdir then emptyDir else emptyFile⟩
  assign root p ⟨mappa.name, .dir m⟩

/-- `vfs_create` copies the variant that holds a new directory byte by byte and destroys the
original, which frees the array of buckets. Whoever gets the array next replaces the lists. -/
def Entry.reuse (lists : ℕ → LinkedList (Path × Entry)) : Entry → Entry
  | ⟨name, .dir m⟩ => ⟨name, .dir { m with entries := lists }⟩
  | e => e

/-- Other users of the heap get the arrays of the directories in `root`. The array of the root
itself, which `vfs_mount` makes in place, is not free. -/
def reuse (root : Entry) (lists : Path → ℕ → LinkedList (Path × Entry)) : Entry :=
  match root with
  | ⟨name, .dir m⟩ => ⟨name, .dir (m.mapValues fun k e => e.reuse (lists k))⟩
  | e => e

/-- `vfs_mount(f)`. -/
def mount : Entry := ⟨[], emptyDir⟩

end Vfs

end NeptunOS
