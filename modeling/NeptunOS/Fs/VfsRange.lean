import NeptunOS.Fs.VfsFile

/-!
# Ranges of file reads and writes

The indices of the contents that `vfs_read` and `vfs_write` copy from and to. Both compare
the wrapped sum `offset + bytes` with the size, and the size query does not compare at all:
ranges stay in the file if and only if the sum does not wrap and the offset is not behind
the end (`ranges_inside`).
-/

namespace NeptunOS

namespace Vfs

open Fs Stepwise

/-! ## Indices -/

/-- The indices that `vfs_read` copies from. -/
def copiedFrom (content : Vec UInt8) (offset bytes : ℕ) : List ℕ :=
  List.range' offset (readContent content offset bytes).2.length

/-- The indices that `vfs_write` copies to; none if it does not come to the copy. -/
def copiedTo (content : Vec UInt8) (g : Grow UInt8) (offset bytes : ℕ) (buf : ℕ → UInt8) :
    List ℕ :=
  match writeContent content g offset bytes buf with
  | .ok _ => List.range' offset bytes
  | .error _ => []

section

variable {v : Vec UInt8} {off n i : ℕ} {buf : ℕ → UInt8} {g : Grow UInt8}

theorem mem_copiedFrom : i ∈ copiedFrom v off n ↔
    off ≤ i ∧ i < off + (readContent v off n).2.length :=
  List.mem_range'_1

theorem mem_copiedTo {v' : Vec UInt8} (h : writeContent v g off n buf = .ok v') :
    i ∈ copiedTo v g off n buf ↔ off ≤ i ∧ i < off + n := by
  rw [copiedTo, h]
  exact List.mem_range'_1

/-- What `vfs_read` copies is at these indices. -/
theorem readContent_copied {d : ℕ → UInt8} (hd : v.data = some d) :
    (readContent v off n).2 = (copiedFrom v off n).map d := by
  unfold copiedFrom readContent
  rw [hd]
  dsimp only
  split
  · rfl
  · split
    · rfl
    · split
      · rfl
      · rw [List.length_map, List.length_range, List.range'_eq_map_range, List.map_map]
        rfl

/-- `vfs_write` changes the contents, after they have grown, at these indices. -/
theorem writeContent_copied {v' : Vec UInt8} (h : writeContent v g off n buf = .ok v') :
    ∃ v₁, growContent v g (wadd off n) = .ok v₁ ∧ v'.size = v₁.size ∧
      ∀ i, v'.get i = if i ∈ copiedTo v g off n buf then some (buf (i - off)) else v₁.get i := by
  have hmem := fun i => mem_copiedTo (i := i) h
  obtain ⟨v₁, hgrow, h⟩ := bind_eq_ok.mp h
  refine ⟨v₁, hgrow, ?_⟩
  cases hd : v₁.data with
  | none =>
    rw [hd] at h
    cases h
  | some d =>
    rw [hd] at h
    obtain rfl := Except.ok.inj h
    refine ⟨rfl, fun i => ?_⟩
    simp only [hmem, Vec.get, Vec.write, hd, Option.map_some]
    split <;> rfl

/-! ## Reads -/

theorem readContent_length : (readContent v off n).2.length =
    if v.size < off ∨ v.size < wadd off n then 0 else min n v.size := by
  unfold readContent
  cases hd : v.data with
  | none =>
    have hsize := v.sized hd
    dsimp only [List.length_nil]
    split <;> omega
  | some d =>
    dsimp only
    by_cases hn : n = 0
    · rw [if_pos hn, List.length_nil, hn, Nat.zero_min, ite_self]
    · rw [if_neg hn]
      by_cases hbehind : v.size < off
      · rw [if_pos hbehind, if_pos (.inl hbehind), List.length_nil]
      · by_cases hlong : v.size < wadd off n
        · rw [if_neg hbehind, if_pos hlong, if_pos (.inr hlong), List.length_nil]
        · rw [if_neg hbehind, if_neg hlong, if_neg (not_or.mpr ⟨hbehind, hlong⟩),
            List.length_map, List.length_range]

/-- A wrapped sum passes the check, and the copy then ends behind the contents. -/
theorem copiedFrom_inside_iff (hoff : off < 2 ^ 64) (hn : n < 2 ^ 64) (hsize : v.size < 2 ^ 64) :
    (∀ i ∈ copiedFrom v off n, i < v.size) ↔ off + n < 2 ^ 64 ∨ v.size < off := by
  simp only [mem_copiedFrom, readContent_length]
  by_cases hbehind : v.size < off
  · rw [if_pos (.inl hbehind)]
    exact iff_of_true (fun i hi => by omega) (.inr hbehind)
  · by_cases hwrap : off + n < 2 ^ 64
    · rw [wadd_of_lt hwrap]
      refine iff_of_true (fun i hi => ?_) (.inl hwrap)
      split at hi <;> omega
    · have hsum : wadd off n = off + n - 2 ^ 64 := by
        unfold wadd
        omega
      rw [hsum, if_neg (by omega)]
      refine iff_of_false (fun h => ?_) (by omega)
      have := h v.size
      omega

/-! ## Writes -/

/-- Contents that could grow have room for the range, as it is after wrapping. -/
theorem growContent_size {v₁ : Vec UInt8} {newSize : ℕ} (h : growContent v g newSize = .ok v₁) :
    newSize ≤ v₁.size := by
  unfold growContent at h
  split at h
  · rw [(Vec.resize_spec h).1]
  · obtain rfl := Except.ok.inj h
    omega

theorem copiedTo_ne_nil {v' : Vec UInt8} (h : writeContent v g off n buf = .ok v') (hn : 0 < n) :
    copiedTo v g off n buf ≠ [] :=
  List.ne_nil_of_mem ((mem_copiedTo h).mpr ⟨Nat.le_refl off, by omega⟩)

end

/-! ## Ranges -/

/-- What a read and a write of `bytes` bytes at `offset` of the file at `path`, and a size
query at `offset`, have to keep to. -/
structure InRange (root : Entry) (path : Path) (content : Vec UInt8) (offset bytes : ℕ)
    (buf : ℕ → UInt8) (g : Grow UInt8) : Prop where
  reads : ∀ i ∈ copiedFrom content offset bytes, i < content.size
  writes : ∀ v₁, growContent content g (wadd offset bytes) = .ok v₁ →
    ∀ i ∈ copiedTo content g offset bytes buf, i < v₁.size
  readRejected : 2 ^ 64 ≤ offset + bytes → copiedFrom content offset bytes = [] ∧
    read root path offset bytes true = .ok (2 ^ 64 - 1, [])
  writeRejected : 2 ^ 64 ≤ offset + bytes → copiedTo content g offset bytes buf = [] ∧
    write root path offset bytes (some buf) g = .ok (2 ^ 64 - 1, root)
  query : content.size < offset → ∃ left, read root path offset bytes false = .ok (left, []) ∧
    left ≤ content.size

section

variable {root : Entry} {path nm : Path} {p : Ptr} {v : Vec UInt8} {off n : ℕ}
  {buf : ℕ → UInt8} {g : Grow UInt8}

/-- A write whose range wraps comes to its copy or does not return. -/
theorem write_not_rejected (hlookup : lookup root path = .ok (some p))
    (hderef : deref root p = .ok ⟨nm, .file v⟩) (hn : 0 < n) :
    ¬ (copiedTo v g off n buf = [] ∧
      write root path off n (some buf) g = .ok (2 ^ 64 - 1, root)) := by
  rintro ⟨hnil, hwrite⟩
  rw [write_file hlookup hderef hn] at hwrite
  obtain ⟨v', hv', -⟩ := bind_eq_ok.mp hwrite
  exact copiedTo_ne_nil hv' hn hnil

/-- **Ranges stay in the file** if and only if `offset + bytes` does not wrap and `offset` is
not behind the end. -/
theorem ranges_inside (hlookup : lookup root path = .ok (some p))
    (hderef : deref root p = .ok ⟨nm, .file v⟩) (hoff : off < 2 ^ 64) (hn : n < 2 ^ 64)
    (hsize : v.size < 2 ^ 64) :
    InRange root path v off n buf g ↔ off + n < 2 ^ 64 ∧ off ≤ v.size := by
  constructor
  · intro h
    constructor
    · by_contra hwrap
      exact write_not_rejected hlookup hderef (by omega) (h.writeRejected (by omega))
    · by_contra hbehind
      obtain ⟨left, hleft, hle⟩ := h.query (by omega)
      rw [read_file hlookup hderef, if_pos rfl] at hleft
      have heq : wsub v.size off = left := (Prod.mk.inj (Except.ok.inj hleft)).1
      unfold wsub at heq
      omega
  · rintro ⟨hwrap, hinside⟩
    refine ⟨(copiedFrom_inside_iff hoff hn hsize).mpr (Or.inl hwrap), fun v₁ hgrow i hi => ?_,
      fun h => absurd hwrap (by omega), fun h => absurd hwrap (by omega),
      fun h => absurd hinside (by omega)⟩
    cases hv' : writeContent v g off n buf with
    | error err =>
      rw [copiedTo, hv'] at hi
      exact absurd hi List.not_mem_nil
    | ok v' =>
      have hroom := growContent_size hgrow
      rw [wadd_of_lt hwrap] at hroom
      have := ((mem_copiedTo hv').mp hi).2
      omega

end

/-- The file "/a" with four bytes. -/
theorem exists_four_bytes : ∃ root root' p v cs, create mount [0x2f, 0x61] false = .ok root ∧
    write root [0x2f, 0x61] 0 4 (some fun _ => 7) moving = .ok (4, root') ∧
    IsFile root' [0x2f, 0x61] p [0x61] v cs ∧ v.size = 4 := by
  obtain ⟨root, p, v, hcreate, hfile⟩ := exists_file
  obtain ⟨v', root', hwrite, hfile'⟩ := @write_spec root [0x2f, 0x61] [0x61] p v [] 0 4
    (fun _ => 7) moving hfile (by decide) (by decide) fun h => absurd h.2.1 (by decide)
  exact ⟨root, root', p, v', _, hcreate, hwrite, hfile',
    hfile'.filled.1.trans (by rw [overwrite_length]; decide)⟩

/-- Three bytes at offset 2 of it, which a write makes room for. -/
theorem ranges_inside_end : ∃ root p v, lookup root [0x2f, 0x61] = .ok (some p) ∧
    deref root p = .ok ⟨[0x61], .file v⟩ ∧ v.size = 4 ∧
    InRange root [0x2f, 0x61] v 2 3 (fun _ => 9) moving := by
  obtain ⟨-, root, p, v, cs, -, -, hfile, hsize⟩ := exists_four_bytes
  exact ⟨root, p, v, hfile.lookup, hfile.deref, hsize, (ranges_inside hfile.lookup hfile.deref
    (by decide) (by decide) (by omega)).mpr ⟨by decide, by omega⟩⟩

/-- A read of `2 ^ 64 - 1` bytes at offset 2 of a file with four bytes passes the checks and
copies four bytes, of which two are behind the contents. -/
theorem read_behind_contents : ∃ root root' p v,
    create mount [0x2f, 0x61] false = .ok root ∧
    write root [0x2f, 0x61] 0 4 (some fun _ => 7) moving = .ok (4, root') ∧
    lookup root' [0x2f, 0x61] = .ok (some p) ∧ deref root' p = .ok ⟨[0x61], .file v⟩ ∧
    v.size = 4 ∧ copiedFrom v 2 (2 ^ 64 - 1) = [2, 3, 4, 5] ∧
    ∃ bytes, read root' [0x2f, 0x61] 2 (2 ^ 64 - 1) true = .ok (4, bytes) := by
  obtain ⟨root, root', p, v', cs, hcreate, hwrite, hfile', hsize⟩ := exists_four_bytes
  have hlen : (readContent v' 2 (2 ^ 64 - 1)).2.length = 4 := by
    rw [readContent_length, hsize]
    decide
  refine ⟨root, root', p, v', hcreate, hwrite, hfile'.lookup, hfile'.deref, hsize, ?_, ?_⟩
  · rw [copiedFrom, hlen]
    rfl
  · rw [read_eq hfile']
    cases hd : v'.data with
    | none => exact absurd (v'.sized hd) (by omega)
    | some d =>
      refine ⟨(List.range 4).map fun i => d (2 + i), ?_⟩
      unfold readContent
      rw [hd, hsize]
      rfl

end Vfs

end NeptunOS
