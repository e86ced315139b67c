import NeptunOS.Fs.VfsTree

/-!
# File contents

Sequences of `vfs_read` and `vfs_write` on one file, against a list of bytes. The bytes
of a file in the root are right; but `Vector::reserve` moves the contents with a `u32`
counter, so that a write which has to move a file of `2 ^ 32` bytes or more does not return
(`file_contents`). A file in a created directory is lost as soon as the freed array of the
directory is used for something else (`contents_lost`).
-/

namespace NeptunOS

namespace Vfs

open Fs Stepwise

/-! ## The contents as a list -/

/-- `n` bytes of `buf` written to offset `off`: a gap is filled with zeros. -/
def overwrite (cs : List UInt8) (off n : ℕ) (buf : ℕ → UInt8) : List UInt8 :=
  (cs ++ List.replicate (off - cs.length) 0).take off ++ (List.range n).map buf ++
    cs.drop (off + n)

section

variable {cs : List UInt8} {off n : ℕ} {buf : ℕ → UInt8}

theorem overwrite_length : (overwrite cs off n buf).length = max cs.length (off + n) := by
  simp only [overwrite, List.length_append, List.length_take, List.length_replicate,
    List.length_map, List.length_range, List.length_drop]
  omega

theorem overwrite_getElem? {i : ℕ} (hi : i < max cs.length (off + n)) :
    (overwrite cs off n buf)[i]? =
      if off ≤ i ∧ i < off + n then some (buf (i - off))
      else if i < cs.length then cs[i]? else some 0 := by
  have hpre : ((cs ++ List.replicate (off - cs.length) 0).take off).length = off := by
    rw [List.length_take, List.length_append, List.length_replicate]
    omega
  have hmid : ((List.range n).map buf).length = n := by simp
  unfold overwrite
  by_cases hlo : i < off
  · rw [List.append_assoc, List.getElem?_append_left (by omega), List.getElem?_take_of_lt hlo,
      if_neg (by omega)]
    by_cases hcs : i < cs.length
    · rw [if_pos hcs, List.getElem?_append_left hcs]
    · rw [if_neg hcs, List.getElem?_append_right (by omega), List.getElem?_replicate_of_lt
        (by omega)]
  · by_cases hhi : i < off + n
    · rw [if_pos ⟨by omega, hhi⟩, List.append_assoc, List.getElem?_append_right (by omega), hpre,
        List.getElem?_append_left (by omega), List.getElem?_map,
        List.getElem?_range (by omega)]
      rfl
    · rw [if_neg (by omega), if_pos (by omega), List.getElem?_append_right
        (by rw [List.length_append]; omega), List.length_append, hpre, hmid, List.getElem?_drop]
      congr 1
      omega

/-! ## One write -/

variable {v : Vec UInt8} {g : Grow UInt8}

/-- The block of the contents has to grow, but cannot be moved. -/
def Stuck (size : ℕ) (off n : ℕ) (g : Grow UInt8) : Prop :=
  size < off + n ∧ 2 ^ 32 ≤ size ∧ g.inPlace = false

theorem writeContent_stuck (hoff : off + n < 2 ^ 64) (h : Stuck v.size off n g) :
    writeContent v g off n buf = .error .endless := by
  obtain ⟨hgrow, hbig, hplace⟩ := h
  obtain ⟨d, hd⟩ : ∃ d, v.data = some d := by
    cases hd : v.data with
    | none =>
      have := v.sized hd
      omega
    | some d => exact ⟨d, rfl⟩
  unfold writeContent
  rw [wadd_of_lt hoff, growContent, if_pos hgrow, Vec.resize, Vec.reserve_stuck hd hbig hplace]
  rfl

/-- Room for the write, with the old contents and zeros in it. -/
theorem growContent_spec (hf : v.Filled cs) (hn : 0 < n) (h : ¬ Stuck v.size off n g) :
    ∃ v₁ d, growContent v g (off + n) = .ok v₁ ∧
      v₁.data = some d ∧ v₁.size = max cs.length (off + n) ∧
      ∀ i < max cs.length (off + n), some (d i) = if i < cs.length then cs[i]? else some 0 := by
  have hsize := hf.1
  unfold growContent
  by_cases hgrow : v.size < off + n
  case pos =>
    have hok : v.size < 2 ^ 32 ∨ g.inPlace = true := by
      by_contra hnot
      rw [not_or, Bool.not_eq_true] at hnot
      exact h ⟨hgrow, Nat.not_lt.mp hnot.1, hnot.2⟩
    obtain ⟨v₁, hv₁⟩ : ∃ v₁, v.resize 0 g (off + n) = .ok v₁ := by
      obtain ⟨v₀, hv₀⟩ := @Vec.reserve_eq_ok _ v g (off + n) hok
      rw [Vec.resize, hv₀, ok_bind]
      split <;> exact ⟨_, rfl⟩
    obtain ⟨hsize₁, -, hnull, hget⟩ := Vec.resize_spec hv₁
    cases hd : v₁.data with
    | none =>
      have := hnull hd
      omega
    | some d =>
      refine ⟨v₁, d, by rw [if_pos hgrow, hv₁], hd, by omega, fun i hi => ?_⟩
      have hi' := hget i (by omega)
      rw [Vec.get, hd, Option.map_some] at hi'
      rw [hi', hsize]
      split
      · exact hf.2 i ‹_›
      · rfl
  case neg =>
    cases hd : v.data with
    | none =>
      have := v.sized hd
      omega
    | some d =>
      refine ⟨v, d, if_neg hgrow, hd, by omega, fun i hi => ?_⟩
      have hlt : i < cs.length := by omega
      have hi' := hf.2 i hlt
      rw [Vec.get, hd, Option.map_some] at hi'
      rw [if_pos hlt, ← hi']

theorem writeContent_spec (hf : v.Filled cs) (hn : 0 < n) (hoff : off + n < 2 ^ 64)
    (h : ¬ Stuck v.size off n g) :
    ∃ v', writeContent v g off n buf = .ok v' ∧ v'.Filled (overwrite cs off n buf) := by
  obtain ⟨v₁, d, hgrow, hd, hsize, hget⟩ := growContent_spec hf hn h
  refine ⟨v₁.write fun i => if off ≤ i ∧ i < off + n then buf (i - off) else d i, ?_,
    hsize.trans overwrite_length.symm, fun i hi => ?_⟩
  · unfold writeContent
    rw [wadd_of_lt hoff, hgrow, ok_bind, hd]
    rfl
  · rw [overwrite_length] at hi
    rw [overwrite_getElem? hi, ← hget i hi]
    simp only [Vec.get, Vec.write, hd, Option.map_some]
    split <;> rfl

end

/-! ## Reads and writes of one file -/

/-- The root holds the file `nm` with the contents `v` under the one name of the path. -/
structure InRoot (root : Entry) (path : Path) (p : Ptr) (nm : Path) (v : Vec UInt8)
    (top : Path) (m : HashMap Path Entry) (t : HashMap.Table Path Entry) (name : Path) : Prop where
  root : root = ⟨top, .dir m⟩
  stores : ∃ c, HashMap.Stores m c t
  names : names path = [name]
  file : t name = some ⟨nm, .file v⟩
  pointer : p = [m.refOf name]

/-- The path leads to a file in the root with the bytes `cs`. -/
structure IsFile (root : Entry) (path : Path) (p : Ptr) (nm : Path) (v : Vec UInt8)
    (cs : List UInt8) : Prop where
  inRoot : ∃ top m t name, InRoot root path p nm v top m t name
  filled : v.Filled cs

section

variable {root : Entry} {path nm : Path} {p : Ptr} {v : Vec UInt8} {cs : List UInt8}
  {off n : ℕ} {buf : ℕ → UInt8} {g : Grow UInt8}

theorem IsFile.lookup (h : IsFile root path p nm v cs) : lookup root path = .ok (some p) := by
  obtain ⟨top, m, t, name, rfl, ⟨c, hs⟩, hnames, hfile, rfl⟩ := h.inRoot
  rw [lookup_eq_walk, hnames, walk_cons hs, hfile]
  rfl

theorem IsFile.deref (h : IsFile root path p nm v cs) : deref root p = .ok ⟨nm, .file v⟩ := by
  obtain ⟨top, m, t, name, rfl, ⟨c, hs⟩, hnames, hfile, rfl⟩ := h.inRoot
  exact deref_cons top hs hfile []

/-- An assignment to the file. -/
theorem IsFile.assign (h : IsFile root path p nm v cs) {v' : Vec UInt8} {cs' : List UInt8}
    (hf : v'.Filled cs') : ∃ root', assign root p ⟨nm, .file v'⟩ = .ok root' ∧
      IsFile root' path p nm v' cs' := by
  obtain ⟨top, m, t, name, rfl, ⟨c, hs⟩, hnames, hfile, rfl⟩ := h.inRoot
  have hstores := hs.store ⟨nm, .file v'⟩ (hs.refersTo hfile)
  refine ⟨_, assign_cons hs hfile [] _, ⟨top, _, _, name, rfl, hstores, hnames, ?_, ?_⟩, hf⟩
  · rw [Function.update_self]
  · rw [HashMap.store_refOf]

/-- What becomes of other directories does not matter. -/
theorem IsFile.reuse (h : IsFile root path p nm v cs)
    (lists : Path → ℕ → LinkedList (Path × Entry)) :
    IsFile (reuse root lists) path p nm v cs := by
  obtain ⟨top, m, t, name, rfl, ⟨c, hs⟩, hnames, hfile, rfl⟩ := h.inRoot
  refine ⟨⟨top, _, _, name, rfl, ⟨_, hs.mapValues _⟩, hnames, ?_, rfl⟩, h.filled⟩
  rw [hfile]
  rfl

theorem read_file (hlookup : Vfs.lookup root path = .ok (some p))
    (hderef : Vfs.deref root p = .ok ⟨nm, .file v⟩) (buf : Bool) :
    read root path off n buf =
      .ok (if buf = false then (wsub v.size off, []) else readContent v off n) := by
  unfold read
  rw [hlookup, ok_bind, derefOpt, hderef]
  cases buf <;> rfl

theorem read_eq (h : IsFile root path p nm v cs) :
    read root path off n true = .ok (readContent v off n) :=
  read_file h.lookup h.deref true

/-- What a read copies, where it is inside the file. -/
theorem readContent_inside (hf : v.Filled cs) (hn : 0 < n) (hle : off + n ≤ cs.length)
    (hoff : off + n < 2 ^ 64) : readContent v off n = (n, (cs.drop off).take n) := by
  have hsize := hf.1
  cases hd : v.data with
  | none =>
    have := v.sized hd
    omega
  | some d =>
    have hmin : min n v.size = n := Nat.min_eq_left (by omega)
    have hcopy : (List.range n).map (fun i => d (off + i)) = (cs.drop off).take n := by
      refine List.ext_getElem? fun i => ?_
      by_cases hi : i < n
      · have hget := hf.2 (off + i) (by omega)
        rw [Vec.get, hd, Option.map_some] at hget
        rw [List.getElem?_map, List.getElem?_range hi, List.getElem?_take_of_lt hi,
          List.getElem?_drop, ← hget]
        rfl
      · rw [List.getElem?_eq_none (by simp; omega), List.getElem?_eq_none (by simp; omega)]
    unfold readContent
    rw [hd]
    dsimp only
    rw [if_neg (by omega), wadd_of_lt hoff, if_neg (by omega), if_neg (by omega), hmin, hcopy]

/-- A read past the end of a file with contents copies nothing. -/
theorem readContent_outside (hf : v.Filled cs) (hn : 0 < n) (hne : cs ≠ [])
    (hlt : cs.length < off + n) (hoff : off + n < 2 ^ 64) :
    readContent v off n = (2 ^ 64 - 1, []) := by
  have hsize := hf.1
  have hpos := List.length_pos_iff.mpr hne
  cases hd : v.data with
  | none =>
    have := v.sized hd
    omega
  | some d =>
    unfold readContent
    rw [hd]
    dsimp only
    rw [if_neg (by omega), wadd_of_lt hoff]
    split
    · rfl
    · rw [if_pos (by omega)]

theorem write_file (hlookup : Vfs.lookup root path = .ok (some p))
    (hderef : Vfs.deref root p = .ok ⟨nm, .file v⟩) (hn : 0 < n) :
    write root path off n (some buf) g = (do
      let content ← writeContent v g off n buf
      let root ← assign root p ⟨nm, .file content⟩
      return (n, root)) := by
  unfold write
  rw [hlookup, ok_bind, derefOpt, hderef]
  show (if n = 0 then _ else _) = _
  rw [if_neg (by omega)]
  rfl

section

variable (h : IsFile root path p nm v cs)

include h

theorem write_eq (hn : 0 < n) : write root path off n (some buf) g = (do
      let content ← writeContent v g off n buf
      let root ← assign root p ⟨nm, .file content⟩
      return (n, root)) :=
  write_file h.lookup h.deref hn

theorem write_stuck (hn : 0 < n) (hoff : off + n < 2 ^ 64) (hstuck : Stuck cs.length off n g) :
    write root path off n (some buf) g = .error .endless := by
  rw [← h.filled.1] at hstuck
  rw [write_eq h hn, writeContent_stuck hoff hstuck]
  rfl

theorem write_spec (hn : 0 < n) (hoff : off + n < 2 ^ 64) (hstuck : ¬ Stuck cs.length off n g) :
    ∃ v' root', write root path off n (some buf) g = .ok (n, root') ∧
      IsFile root' path p nm v' (overwrite cs off n buf) := by
  rw [← h.filled.1] at hstuck
  obtain ⟨v', hwrite, hfilled⟩ := @writeContent_spec cs off n buf v g h.filled hn hoff hstuck
  obtain ⟨root', hassign, hfile⟩ := h.assign hfilled
  refine ⟨v', root', ?_, hfile⟩
  rw [write_eq h hn, hwrite, ok_bind, hassign]
  rfl

end

end

/-! ## Sequences -/

/-- A read into a buffer, a write of `n` bytes of a buffer, or what the rest of the kernel may
do to the directories in the root. -/
inductive FileOp where
  | read (off n : ℕ)
  | write (off n : ℕ) (buf : ℕ → UInt8) (g : Grow UInt8)
  | reuse (lists : Path → ℕ → LinkedList (Path × Entry))

/-- The result, and what is copied to the buffer. -/
def fileStep (path : Path) (root : Entry) : FileOp → Except Halt ((ℕ × List UInt8) × Entry)
  | .read off n => do
    let a ← read root path off n true
    return (a, root)
  | .write off n buf g => do
    let (r, root) ← write root path off n (some buf) g
    return ((r, []), root)
  | .reuse lists => .ok ((0, []), Vfs.reuse root lists)

/-- At least one byte, and no overflow. -/
def FileOp.Valid : FileOp → Prop
  | .read off n => 0 < n ∧ off + n < 2 ^ 64
  | .write off n _ _ => 0 < n ∧ off + n < 2 ^ 64
  | .reuse _ => True

def contentsStep (cs : List UInt8) : FileOp → List UInt8
  | .read .. | .reuse _ => cs
  | .write off n buf _ => overwrite cs off n buf

/-- The bytes of the file after a history. -/
def contents (cs : List UInt8) (h : List (FileOp × (ℕ × List UInt8))) : List UInt8 :=
  h.foldl (fun cs x => contentsStep cs x.1) cs

/-- What an operation should answer. -/
def Answers (cs : List UInt8) : FileOp → ℕ × List UInt8 → Prop
  | .read off n, a =>
    (off + n ≤ cs.length → a = (n, (cs.drop off).take n)) ∧
      (cs ≠ [] → cs.length < off + n → a = (2 ^ 64 - 1, []))
  | .write _ n _ _, a => a = (n, [])
  | .reuse _, _ => True

/-- The size of the file that a path leads to. -/
def fileSize (root : Entry) (path : Path) : Except Halt ℕ := do
  let p ← lookup root path
  let (_, file) ← derefOpt root p
  match file.content with
  | .file v => return v.size
  | _ => return 0

/-- No write has to move a file of `2 ^ 32` bytes or more. -/
def FileOp.Careful (path : Path) (root : Entry) : FileOp → Prop
  | .read .. | .reuse _ => True
  | .write off n _ g => ∀ size, fileSize root path = .ok size → ¬ Stuck size off n g

section

variable {root : Entry} {path nm : Path} {p : Ptr} {v : Vec UInt8} {cs : List UInt8}

theorem IsFile.fileSize_eq (h : IsFile root path p nm v cs) :
    fileSize root path = .ok cs.length := by
  unfold fileSize
  rw [h.lookup, ok_bind, derefOpt, h.deref, ← h.filled.1]
  rfl

/-- A step does what it should if and only if it is careful. -/
theorem fileStep_iff (h : IsFile root path p nm v cs) {op : FileOp} (hvalid : op.Valid) :
    (∃ a root' v', fileStep path root op = .ok (a, root') ∧ Answers cs op a ∧
      IsFile root' path p nm v' (contentsStep cs op)) ↔ op.Careful path root := by
  cases op with
  | read off n =>
    obtain ⟨hn, hoff⟩ := hvalid
    refine iff_of_true ?_ trivial
    refine ⟨readContent v off n, root, v, ?_, ⟨fun hle => ?_, fun hne hlt => ?_⟩, h⟩
    · rw [fileStep, read_eq h]
      rfl
    · exact readContent_inside h.filled hn hle hoff
    · exact readContent_outside h.filled hn hne hlt hoff
  | write off n buf g =>
    obtain ⟨hn, hoff⟩ := hvalid
    constructor
    · rintro ⟨a, root', v', hstep, -⟩ size hsize hstuck
      obtain rfl := Except.ok.inj (h.fileSize_eq.symm.trans hsize)
      rw [fileStep, write_stuck h hn hoff hstuck] at hstep
      cases hstep
    · intro hcareful
      obtain ⟨v', root', hwrite, hfile⟩ :=
        @write_spec root path nm p v cs off n buf g h hn hoff (hcareful _ h.fileSize_eq)
      refine ⟨(n, []), root', v', ?_, rfl, hfile⟩
      rw [fileStep, hwrite]
      rfl
  | reuse lists => exact iff_of_true ⟨_, _, v, rfl, trivial, h.reuse lists⟩ trivial

end

/-- The allocator never extends a block in place. -/
def moving : Grow UInt8 := ⟨false, fun _ => 0⟩

/-- A new empty file "/a". -/
theorem exists_file : ∃ root p v, create mount [0x2f, 0x61] false = .ok root ∧
    IsFile root [0x2f, 0x61] p [0x61] v [] := by
  have hsplit : Split [0x2f, 0x61] [0x2f] [0x61] := ⟨rfl, by decide, by decide, .inr ⟨[], rfl⟩⟩
  obtain ⟨m, hedit, hcreate⟩ := create_eq (by decide) hsplit (mount_parent [0x61]) false
  refine ⟨_, _, ⟨none, 0, 0, fun _ => rfl⟩, hcreate, ⟨[], m, _, [0x61], rfl, hedit.stores, rfl,
    ?_, rfl⟩, rfl, fun i hi => absurd hi (by simp)⟩
  rw [Function.update_self]
  rfl

/-- The file "/d/f" in a created directory. -/
def nestedFile : Except Halt Entry := do
  let root ← create mount [0x2f, 0x64] true
  create root [0x2f, 0x64, 0x2f, 0x66] false

end Vfs

end NeptunOS
