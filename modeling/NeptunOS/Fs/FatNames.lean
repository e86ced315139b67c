import NeptunOS.Fs.FatRobust
import Mathlib.Data.Fintype.Pi

/-!
# Names on a FAT32 volume

A short name is a field of 8 + 3 bytes that is filled up with blanks. `fat32_getname` takes it up
to the first blank. A long name is cut into pieces of 13 characters that stand in front of the
short entry, the last piece first; every piece is stored with a terminator behind it, so that the
first piece, which is stored last, ends the name.

- `getname_short_iff`: the short names that `fat32_getname` returns as they are.
- `longname_iff`: the long names that `fat32_readdir` lists, and that `fat32_lookup` compares
  with, as they are.
-/

namespace NeptunOS.Fat

open Function Fs Stepwise

/-! ## Short names -/

/-- A name of at most 8 characters and an extension of at most 3. -/
structure ShortName where
  base : List UInt8
  ext : List UInt8
  base_ne : base ≠ []
  base_le : base.length ≤ 8
  ext_le : ext.length ≤ 3
  ascii : ∀ b ∈ base ++ ext, b < 0x80 ∧ b ≠ 0x20
  proper : ¬ (ext = [] ∧ (base = [0x2e] ∨ base = [0x2e, 0x2e]))

namespace ShortName

/-- The 11 bytes of `simplename`. -/
def field (n : ShortName) : List UInt8 :=
  n.base ++ List.replicate (8 - n.base.length) 0x20 ++
    (n.ext ++ List.replicate (3 - n.ext.length) 0x20)

/-- The name as it is written. -/
def text (n : ShortName) : List UInt8 :=
  n.base ++ if n.ext = [] then [] else 0x2e :: n.ext

theorem not_blank_base (n : ShortName) : ∀ b ∈ n.base, (decide (b ≠ 0x20)) = true :=
  fun b hb => decide_eq_true (n.ascii b (List.mem_append_left _ hb)).2

/-- Where blanks follow, the scan stops at the first. -/
theorem takeWhile_blanks {l rest : List UInt8} {k : ℕ} (hl : ∀ b ∈ l, (decide (b ≠ 0x20)) = true)
    (hk : 0 < k) : (l ++ (List.replicate k 0x20 ++ rest)).takeWhile (· ≠ 0x20) = l := by
  obtain ⟨k, rfl⟩ := Nat.exists_eq_succ_of_ne_zero (Nat.ne_of_gt hk)
  rw [List.takeWhile_append_of_pos hl, List.replicate_succ, List.cons_append,
    List.takeWhile_cons_of_neg (by decide), List.append_nil]

/-- A name that begins with a letter comes to the scan for the blank. -/
theorem getname_field (n : ShortName) (hdot : n.base.head? ≠ some 0x2e) (rest : List UInt8) :
    getname [] (n.field ++ rest) =
      if 0x20 ∉ n.field ++ rest then .error (.exception "read behind the buffer")
      else .ok (some ((n.field ++ rest).takeWhile (· ≠ 0x20))) := by
  obtain ⟨b, base, hbase⟩ := List.exists_cons_of_ne_nil n.base_ne
  obtain ⟨mem, hmem⟩ : ∃ mem, n.field ++ rest = b :: mem := by
    rw [field, hbase]
    exact ⟨_, rfl⟩
  obtain ⟨hascii, hblank⟩ := n.ascii b (by rw [hbase]; exact List.mem_cons_self)
  have hb : ¬ (b :: mem).headD 0 = 0x2e := fun h => hdot (by rw [hbase, ← h]; rfl)
  rw [hmem]
  have hne : (b :: mem).takeWhile (· ≠ 0x20) ≠ [] := by
    rw [List.takeWhile_cons_of_pos (by simpa using hblank)]
    exact List.cons_ne_nil _ _
  have hhigh : ¬ 128 < (b :: mem).headD 0 := by
    exact UInt8.not_lt.mpr (UInt8.le_of_lt hascii)
  rw [getname, if_neg (not_not_intro rfl), if_neg fun h => hb (strncmp_head h),
    if_neg fun h => hb (strncmp_head h), if_neg (show ¬ (b :: mem).headD 0 = 0x20 from hblank),
    if_neg hhigh]
  simp only [if_neg hne]

/-- An extension is lost: blanks in front of it end the name, and after 8 characters the dot is
missing. -/
theorem getname_ext {n : ShortName} (hdot : n.base.head? ≠ some 0x2e) (hext : n.ext ≠ []) :
    getname [] n.field ≠ .ok (some n.text) := by
  intro hname
  have hfield := getname_field n hdot []
  rw [List.append_nil, hname] at hfield
  split at hfield
  case isTrue => cases hfield
  case isFalse hmem =>
    have hlen := congrArg List.length (Option.some.inj (Except.ok.inj hfield))
    rw [text, if_neg hext, List.length_append, List.length_cons] at hlen
    by_cases hfull : n.base.length = 8
    · -- base and extension are not told apart
      have hboth : n.field = (n.base ++ n.ext) ++
          (List.replicate (3 - n.ext.length) 0x20 ++ []) := by
        rw [field, hfull, Nat.sub_self, List.replicate_zero, List.append_nil, List.append_nil,
          List.append_assoc]
      by_cases hfull' : n.ext.length = 3
      · refine hmem ?_
        rw [hboth, hfull', Nat.sub_self, List.replicate_zero, List.append_nil, List.append_nil]
        intro hin
        exact (n.ascii 0x20 hin).2 rfl
      · have := n.ext_le
        rw [hboth, takeWhile_blanks (fun b hb => decide_eq_true (n.ascii b hb).2) (by omega),
          List.length_append] at hlen
        omega
    · have := n.base_le
      rw [field, List.append_assoc, takeWhile_blanks n.not_blank_base (by omega)] at hlen
      omega

/-- **Short names.** `fat32_getname` returns the name, and looks at nothing but its 11 bytes, if
and only if the name has no extension and does not begin with a dot. -/
theorem getname_short_iff (n : ShortName) :
    (∀ rest, getname [] (n.field ++ rest) = .ok (some n.text)) ↔
      n.ext = [] ∧ n.base.head? ≠ some 0x2e := by
  constructor
  · intro h
    have hdot : n.base.head? ≠ some 0x2e := by
      intro hdot
      obtain ⟨base, hbase⟩ := List.head?_eq_some_iff.mp hdot
      have hnone := @getname_dot (n.field ++ []) (by rw [field, hbase]; rfl)
      rw [h []] at hnone
      cases hnone
    refine ⟨?_, hdot⟩
    by_contra hext
    refine getname_ext hdot hext ?_
    rw [← List.append_nil n.field, h []]
  · rintro ⟨hext, hdot⟩ rest
    have hfield : n.field ++ rest =
        n.base ++ (List.replicate (8 - n.base.length + 3) 0x20 ++ rest) := by
      rw [field, hext, List.nil_append, List.length_nil, List.replicate_add]
      simp only [List.append_assoc]
    have hmem : 0x20 ∈ n.field ++ rest := by
      rw [hfield]
      refine List.mem_append_right _ (List.mem_append_left _ ?_)
      exact List.mem_replicate.mpr ⟨by omega, rfl⟩
    rw [getname_field n hdot, if_neg (not_not_intro hmem), hfield,
      takeWhile_blanks n.not_blank_base (by omega), text, if_pos hext, List.append_nil]

/-- `FOO.TXT`. -/
def fooTxt : ShortName :=
  ⟨[0x46, 0x4f, 0x4f], [0x54, 0x58, 0x54], by decide, by decide, by decide, by simp, by decide⟩

/-- `FILENAME.TXT`. -/
def filenameTxt : ShortName :=
  ⟨[0x46, 0x49, 0x4c, 0x45, 0x4e, 0x41, 0x4d, 0x45], [0x54, 0x58, 0x54], by decide, by decide,
    by decide, by simp, by decide⟩

/-- `FOO.TXT` is returned as `FOO`, and for `FILENAME.TXT` the scan leaves the field. -/
theorem extension_dropped :
    (getname [] fooTxt.field).toOption = some (some fooTxt.base) ∧
    (getname [] filenameTxt.field).toOption = none ∧
    (¬ ∀ rest, getname [] (fooTxt.field ++ rest) = .ok (some fooTxt.text)) ∧
    ¬ ∀ rest, getname [] (filenameTxt.field ++ rest) = .ok (some filenameTxt.text) := by
  refine ⟨by decide, by decide, fun h => ?_, fun h => ?_⟩
  · exact absurd (congrArg Except.toOption (h [])) (by decide)
  · exact absurd (congrArg Except.toOption (h [])) (by decide)

end ShortName

/-! ## Long names -/

/-- A name of 1 to 255 characters. -/
structure LongName where
  chars : List UInt8
  ne : chars ≠ []
  le : chars.length ≤ 255
  ascii : ∀ c ∈ chars, c ≠ 0 ∧ c < 0x80

namespace LongName

/-- The characters with the terminator and the padding. -/
def unit (n : LongName) (k : ℕ) : ℕ :=
  if k < n.chars.length then (n.chars.getD k 0).toNat
  else if k = n.chars.length then 0
  else 0xffff

/-- The number of pieces. -/
def count (n : LongName) : ℕ := (n.chars.length + 12) / 13

/-- The bytes of piece `i`, counted from 0; `sum` is the checksum of the short name. -/
def slotBytes (n : LongName) (sum : UInt8) (i : ℕ) : List UInt8 :=
  let order := if i + 1 = n.count then i + 1 + 0x40 else i + 1
  let lo j := UInt8.ofNat (n.unit (13 * i + j))
  let hi j := UInt8.ofNat (n.unit (13 * i + j) / 256)
  [.ofNat order,
    lo 0, hi 0, lo 1, hi 1, lo 2, hi 2, lo 3, hi 3, lo 4, hi 4,
    0x0f, 0, sum,
    lo 5, hi 5, lo 6, hi 6, lo 7, hi 7, lo 8, hi 8, lo 9, hi 9, lo 10, hi 10,
    0, 0,
    lo 11, hi 11, lo 12, hi 12]

def piece (n : LongName) (sum : UInt8) (i : ℕ) : Slot := fun k => (n.slotBytes sum i).getD k 0

/-- The pieces as they stand in the directory. -/
def encode (n : LongName) (sum : UInt8) : List Slot :=
  (List.range n.count).reverse.map (n.piece sum)

section Pieces

variable {n : LongName} {sum : UInt8} {i : ℕ}

theorem unit_lt (n : LongName) (k : ℕ) : n.unit k < 2 ^ 16 := by
  unfold unit
  have := (n.chars.getD k 0).toNat_lt
  split
  · omega
  · split <;> omega

theorem wchar_unit {u : ℕ} (hu : u < 2 ^ 16) :
    (UInt8.ofNat u).toNat + 256 * (UInt8.ofNat (u / 256)).toNat = u := by
  rw [UInt8.toNat_ofNat', UInt8.toNat_ofNat']
  omega

theorem piece_chars (n : LongName) (sum : UInt8) (i : ℕ) :
    (n.piece sum i).chars = (List.range 13).map fun j => n.unit (13 * i + j) := by
  have hw : ∀ j, (UInt8.ofNat (n.unit (13 * i + j))).toNat +
      256 * (UInt8.ofNat (n.unit (13 * i + j) / 256)).toNat = n.unit (13 * i + j) :=
    fun j => wchar_unit (n.unit_lt _)
  refine Eq.trans ?_ (List.map_congr_left fun j _ => hw j)
  rfl

theorem piece_isLfn (n : LongName) (sum : UInt8) (i : ℕ) : (n.piece sum i).isLfn = true := rfl

theorem count_bounds (n : LongName) : 1 ≤ n.count ∧ n.count ≤ 20 := by
  have hpos := List.length_pos_iff.mpr n.ne
  have hle := n.le
  unfold count
  omega

theorem piece_order (hi : i < n.count) : (n.piece sum i).order = i + 1 := by
  have hcount := n.count_bounds
  show (UInt8.ofNat (if i + 1 = n.count then i + 1 + 0x40 else i + 1)).toNat % 32 = i + 1
  rw [UInt8.toNat_ofNat']
  split <;> omega

theorem take_eq_iff (n : LongName) (k : ℕ) : n.chars.take k = n.chars ↔ n.chars.length ≤ k := by
  refine ⟨fun htake => ?_, List.take_of_length_le⟩
  rw [← htake]
  exact List.length_take_le k n.chars

/-- What the first piece leaves in `longname`. -/
theorem first_piece_eq (n : LongName) (sum : UInt8) :
    pieceBytes (n.piece sum 0) = n.chars.take 13 := by
  have hunits : (n.piece sum 0).chars.map UInt8.ofNat =
      (n.chars ++ 0 :: List.replicate 12 0xff).take 13 := by
    rw [piece_chars, List.map_map]
    refine List.ext_getElem ?_ fun k hk hk' => ?_
    · rw [List.length_map, List.length_range, List.length_take, List.length_append,
        List.length_cons, List.length_replicate]
      omega
    · rw [List.getElem_map, List.getElem_range, List.getElem_take, comp_apply, Nat.mul_zero,
        Nat.zero_add, unit]
      split
      case isTrue hlt =>
        rw [UInt8.ofNat_toNat, List.getElem_append_left hlt, List.getD_eq_getElem _ _ hlt]
      case isFalse hge =>
        rw [List.getElem_append_right (Nat.not_lt.mp hge)]
        split
        case isTrue heq =>
          simp only [heq, Nat.sub_self, List.getElem_cons_zero]
          rfl
        case isFalse hne =>
          obtain ⟨j, hj⟩ : ∃ j, k - n.chars.length = j + 1 := ⟨k - n.chars.length - 1, by omega⟩
          simp only [hj, List.getElem_cons_succ, List.getElem_replicate]
          rfl
  have hself : n.chars.takeWhile (· ≠ 0) = n.chars := by
    refine List.takeWhile_eq_self_iff.mpr fun c hc => ?_
    exact decide_eq_true (n.ascii c hc).1
  rw [pieceBytes, hunits, ← take_takeWhile, takeWhile_append_cons (by decide), hself]

theorem chars_patch (s : Slot) : s.patch.chars = s.chars.set 8 0 := rfl

/-- In the first slot of the root directory, the ninth character is lost. -/
theorem first_piece_patch (n : LongName) (sum : UInt8) :
    pieceBytes (n.piece sum 0).patch = n.chars.take 8 := by
  have h8 : 8 < (n.piece sum 0).chars.length := by rw [chars_length]; decide
  have hfirst := n.first_piece_eq sum
  rw [pieceBytes] at hfirst
  rw [pieceBytes, chars_patch, List.set_eq_take_append_cons_drop, if_pos h8, List.map_append,
    List.map_cons, takeWhile_append_cons (by decide), List.map_take, ← take_takeWhile, hfirst,
    List.take_take]
  rfl

end Pieces

end LongName

/-! ## Storing pieces -/

/-- Pieces are stored one after the other. -/
def storeAll (ps : List Slot) (L : ℕ → UInt8) : Except Halt (ℕ → UInt8) :=
  ps.foldlM (fun L e => storeLfn e L) L

section Store

variable {ps rest : List Slot} {e : Slot} {L : ℕ → UInt8}

theorem attrs_ne_of_isLfn (hlfn : e.isLfn = true) : e.attrs ≠ 0 := by
  intro hzero
  rw [Slot.isLfn, hzero] at hlfn
  exact absurd hlfn (by decide)

theorem storeAll_ok (h : ∀ e ∈ ps, 1 ≤ e.order ∧ e.order ≤ 19) (L : ℕ → UInt8) :
    ∃ L', storeAll ps L = .ok L' := by
  induction ps generalizing L with
  | nil => exact ⟨L, rfl⟩
  | cons e ps ih =>
    obtain ⟨he, hps⟩ := List.forall_mem_cons.mp h
    rw [storeAll, List.foldlM_cons, storeLfn_eq he.1 he.2, ok_bind]
    exact ih hps _

/-- The first piece, stored last, is all that is left. -/
theorem storeAll_concat (h : ∀ e ∈ ps, 1 ≤ e.order ∧ e.order ≤ 19) (he : e.order = 1)
    (L : ℕ → UInt8) : ∃ L', storeAll (ps ++ [e]) L = .ok L' ∧ cstr L' = pieceBytes e := by
  obtain ⟨L₁, hL₁⟩ := storeAll_ok h L
  refine ⟨ucs2ToAsciin e.chars L₁ 0, ?_, first_piece L₁⟩
  rw [storeAll, List.foldlM_append]
  refine bind_eq_ok.mpr ⟨L₁, hL₁, ?_⟩
  rw [List.foldlM_cons, storeLfn_eq (Nat.le_of_eq he.symm) (by omega), ok_bind, he]
  rfl

theorem listLoop_pieces (hlfn : ∀ e ∈ ps, e.isLfn = true) (L : ℕ → UInt8) :
    listLoop (ps ++ rest) L = storeAll ps L >>= listLoop rest := by
  induction ps generalizing L with
  | nil => rfl
  | cons e ps ih =>
    obtain ⟨he, hps⟩ := List.forall_mem_cons.mp hlfn
    rw [List.cons_append, listLoop, if_neg (attrs_ne_of_isLfn he), if_pos he, storeAll,
      List.foldlM_cons]
    cases hstore : storeLfn e L with
    | error msg => rfl
    | ok L' => exact ih hps L'

/-- The pieces in a buffer of `fat32_lookup`, from entry `i` on. -/
def piecesAt (ent : ℕ → Slot) (i k : ℕ) : List Slot := (List.range k).map fun j => ent (i + j)

theorem piecesAt_succ (ent : ℕ → Slot) (i k : ℕ) :
    piecesAt ent i (k + 1) = ent i :: piecesAt ent (i + 1) k := by
  rw [piecesAt, List.range_succ_eq_map, List.map_cons, List.map_map, Nat.add_zero]
  refine congrArg (ent i :: ·) (List.map_congr_left fun j _ => ?_)
  rw [comp_apply, Nat.succ_eq_add_one, Nat.add_comm j 1, ← Nat.add_assoc]

theorem piecesAt_concat (ent : ℕ → Slot) (i k : ℕ) :
    piecesAt ent i (k + 1) = piecesAt ent i k ++ [ent (i + k)] := by
  rw [piecesAt, List.range_succ, List.map_append]
  rfl

theorem scanLoop_pieces {d : Disk} {h : Handle} {basename : Path} {fuel i k : ℕ} {c : Cursor}
    {found : Bool} (hlfn : ∀ e ∈ piecesAt c.ent i k, e.isLfn = true) :
    scanLoop d h basename (fuel + k) i c found = storeAll (piecesAt c.ent i k) c.longname >>=
      fun L => scanLoop d h basename fuel (i + k) { c with longname := L } found := by
  induction k generalizing i c with
  | zero => rfl
  | succ k ih =>
    rw [piecesAt_succ] at hlfn ⊢
    obtain ⟨he, hps⟩ := List.forall_mem_cons.mp hlfn
    rw [← Nat.add_assoc, scanLoop, if_neg (attrs_ne_of_isLfn he), if_pos he, storeAll,
      List.foldlM_cons]
    cases hstore : storeLfn (c.ent i) c.longname with
    | error msg => rfl
    | ok L =>
      rw [ok_bind, ok_bind, Nat.add_comm k 1, ← Nat.add_assoc]
      exact @ih (i + 1) { c with longname := L } hps

end Store

/-! ## Encoded names -/

section Encoded

variable {n : LongName} {sum : UInt8} {L : ℕ → UInt8}

theorem encode_isLfn : ∀ e ∈ n.encode sum, e.isLfn = true := by
  intro e he
  obtain ⟨i, -, rfl⟩ := List.mem_map.mp he
  exact n.piece_isLfn sum i

theorem encode_length : (n.encode sum).length = n.count := by
  rw [LongName.encode, List.length_map, List.length_reverse, List.length_range]

/-- The first piece is the last one in the directory. -/
theorem encode_concat : ∃ ps, n.encode sum = ps ++ [n.piece sum 0] ∧
    (n.count ≤ 19 → ∀ e ∈ ps, 1 ≤ e.order ∧ e.order ≤ 19) := by
  obtain ⟨m, hm⟩ := Nat.exists_eq_succ_of_ne_zero (Nat.ne_of_gt n.count_bounds.1)
  refine ⟨((List.range m).map Nat.succ).reverse.map (n.piece sum), ?_, fun hcount e he => ?_⟩
  · rw [LongName.encode, hm, Nat.succ_eq_add_one, List.range_succ_eq_map, List.reverse_cons,
      List.map_append]
    rfl
  · obtain ⟨i, hi, rfl⟩ := List.mem_map.mp he
    obtain ⟨j, hj, rfl⟩ := List.mem_map.mp (List.mem_reverse.mp hi)
    have hlt := List.mem_range.mp hj
    rw [LongName.piece_order (by omega)]
    omega

/-- Up to 19 pieces fit into the buffer; the first 13 characters are left. -/
theorem storeAll_encode (hcount : n.count ≤ 19) (L : ℕ → UInt8) :
    ∃ L', storeAll (n.encode sum) L = .ok L' ∧ cstr L' = n.chars.take 13 := by
  obtain ⟨ps, hps, horder⟩ := @encode_concat n sum
  have hone : (n.piece sum 0).order = 1 := LongName.piece_order n.count_bounds.1
  rw [hps, ← n.first_piece_eq sum]
  exact storeAll_concat (horder hcount) hone L

/-- The twentieth does not. -/
theorem storeAll_encode_halts (hcount : n.count = 20) (L : ℕ → UInt8) :
    ∃ msg, storeAll (n.encode sum) L = .error msg := by
  have hencode : n.encode sum = n.piece sum 19 :: (List.range 19).reverse.map (n.piece sum) := by
    rw [LongName.encode, hcount]
    rfl
  have horder : (n.piece sum 19).order = 20 := LongName.piece_order (by omega)
  obtain ⟨msg, hmsg⟩ := @storeLfn_halts L (n.piece sum 19) (by rw [horder]; decide)
  refine ⟨.exception msg, ?_⟩
  rw [hencode, storeAll, List.foldlM_cons, hmsg]
  rfl

end Encoded

/-! ## In a directory -/

/-- The loop of `fat32_readdir` over the slots in front of `behind`. -/
def listBefore (behind : List Slot) :
    List Slot → (ℕ → UInt8) → Except Halt (List FsEntry × (ℕ → UInt8))
  | [], longname => .ok ([], longname)
  | e :: rest, longname =>
    if e.isLfn then do
      let longname ← storeLfn e longname
      listBefore behind rest longname
    else if e.isVolume then listBefore behind rest longname
    else do
      let name ← listedName (cstr longname) ((e :: (rest ++ behind)).flatMap Slot.bytes)
      let (entries, longname) ← listBefore behind rest (update longname 0 0)
      return ((name.map fun n => ⟨n, e.isDirectory⟩).toList ++ entries, longname)

/-- A slot whose name is taken. -/
theorem listLoop_entry {post : List Slot} {L : ℕ → UInt8} {es : List FsEntry} {e : Slot}
    {name : Option (List UInt8)} (hattrs : e.attrs ≠ 0)
    (hlfn : e.isLfn = false) (hvolume : e.isVolume = false)
    (hget : listedName (cstr L) ((e :: post).flatMap Slot.bytes) = .ok name)
    (htail : listLoop post (update L 0 0) = .ok es) :
    listLoop (e :: post) L =
      .ok ((name.map fun n => (⟨n, e.isDirectory⟩ : FsEntry)).toList ++ es) := by
  simp only [listLoop, if_neg hattrs, hlfn, hvolume, Bool.false_eq_true, if_false, hget, ok_bind,
    htail]
  rfl

theorem listLoop_before {pre behind : List Slot} {es : List FsEntry} {L L' : ℕ → UInt8}
    (hlive : ∀ e ∈ pre, e.attrs ≠ 0) (hpre : listBefore behind pre L = .ok (es, L')) :
    listLoop (pre ++ behind) L = (listLoop behind L').map (es ++ ·) := by
  induction pre generalizing L es with
  | nil =>
    obtain ⟨rfl, rfl⟩ := Prod.mk.inj (Except.ok.inj hpre)
    show listLoop behind L = _
    cases listLoop behind L <;> rfl
  | cons e pre ih =>
    obtain ⟨he, hlive⟩ := List.forall_mem_cons.mp hlive
    rw [listBefore] at hpre
    rw [List.cons_append, listLoop, if_neg he]
    by_cases hlfn : e.isLfn = true
    · rw [if_pos hlfn] at hpre ⊢
      obtain ⟨L₁, hstore, hpre⟩ := bind_eq_ok.mp hpre
      rw [hstore, ok_bind]
      exact ih hlive hpre
    · rw [if_neg hlfn] at hpre ⊢
      by_cases hvolume : e.isVolume = true
      · rw [if_pos hvolume] at hpre ⊢
        exact ih hlive hpre
      · rw [if_neg hvolume] at hpre ⊢
        obtain ⟨name, hname, hpre⟩ := bind_eq_ok.mp hpre
        obtain ⟨⟨es₁, L₁⟩, hrest, hpre⟩ := bind_eq_ok.mp hpre
        cases hpre
        rw [hname, ok_bind, ih hlive hrest]
        cases listLoop behind L' with
        | error msg => rfl
        | ok es₂ => exact congrArg Except.ok (List.append_assoc ..).symm

/-- From entry `i` on, `fat32_lookup` goes over `k` pieces and compares the next entry with
`name`. -/
structure Compares (d : Disk) (h : Handle) (c : Cursor) (i k : ℕ) (name : List UInt8) :
    Prop where
  reached : i + k < 16
  scan : ∀ basename found, scanLoop d h basename (16 - i) i c found =
    storeAll (piecesAt c.ent i k) c.longname >>= fun L =>
      scanLoop d h basename (16 - (i + k)) (i + k) { c with longname := L } found
  named : ∃ L, storeAll (piecesAt c.ent i k) c.longname = .ok L ∧
    getname (cstr L) (bytesFrom c.ent (i + k)) = .ok (some name)

section Directory

variable {d : Disk} {h : Handle} {offset fuel : ℕ} {area L : ℕ → UInt8} {path : Path}
  {e short : Slot} {cs : List ℕ} {pre post : List Slot} {es : List FsEntry} {n : LongName}
  {sum : UInt8} {c : Cursor} {w : ℕ → Slot} {isRoot : Bool} {i : ℕ}

/-- The listing of a directory with a long name in it. -/
theorem listLoop_encode (hshort : short.attrs ≠ 0 ∧ short.isLfn = false ∧ short.isVolume = false)
    (hpost : walkable none post = true) (L : ℕ → UInt8) :
    (∃ es, listLoop (n.encode sum ++ short :: post) L = .ok (⟨n.chars, short.isDirectory⟩ :: es))
      ↔ n.chars.length ≤ 13 := by
  obtain ⟨hattrs, hlfn, hvolume⟩ := hshort
  rw [listLoop_pieces encode_isLfn]
  by_cases hcount : n.count ≤ 19
  · obtain ⟨L', hstore, hname⟩ := @storeAll_encode n sum hcount L
    have hne : cstr L' ≠ [] := by
      rw [hname]
      exact fun hnil => n.ne (by simpa using hnil)
    have hget : listedName (cstr L') ((short :: post).flatMap Slot.bytes) =
        .ok (some (n.chars.take 13)) := by
      rw [listedName, getname, if_pos hne, ok_bind, if_neg hne, hname]
      rfl
    have hreset : Holds (update L' 0 0) none := update_self 0 0 L'
    rcases listLoop_cases hreset with ⟨-, es', hes'⟩ | ⟨hnot, -⟩
    · rw [hstore, ok_bind, listLoop_entry hattrs hlfn hvolume hget hes', ← n.take_eq_iff 13]
      constructor
      · rintro ⟨es, heq⟩
        exact (FsEntry.mk.inj (List.cons.inj (Except.ok.inj heq)).1).1
      · intro htake
        refine ⟨es', ?_⟩
        rw [htake]
        rfl
    · exact absurd hpost (ne_true_of_eq_false hnot)
  · obtain ⟨msg, hmsg⟩ := @storeAll_encode_halts n sum
      (Nat.le_antisymm n.count_bounds.2 (Nat.not_le.mp hcount)) L
    rw [hmsg]
    refine iff_of_false ?_ fun hle => hcount ?_
    · rintro ⟨es, heq⟩
      cases heq
    · unfold LongName.count
      omega

/-- A piece in the buffer of `fat32_lookup`. Slot 0 of the root directory is patched. -/
theorem piece_in_buffer (hent : c.ent = if isRoot then update w 0 (w 0).patch else w) {j : ℕ}
    {s : Slot} (hs : w j = s) : c.ent j = if isRoot = true ∧ j = 0 then s.patch else s := by
  rw [hent]
  by_cases hroot : isRoot = true
  · rw [if_pos hroot]
    by_cases hj : j = 0
    · rw [if_pos ⟨hroot, hj⟩, ← hs, hj, update_self]
    · rw [if_neg fun hand => hj hand.2, update_of_ne hj, hs]
  · rw [if_neg hroot, if_neg fun hand => hroot hand.1, hs]

theorem encode_getElem? {j : ℕ} (hj : j < n.count) :
    (n.encode sum)[j]? = some (n.piece sum (n.count - 1 - j)) := by
  rw [LongName.encode, List.getElem?_map, List.getElem?_reverse (by rwa [List.length_range]),
    List.length_range, List.getElem?_range (by omega)]
  rfl

section

variable (hw : ∀ j < n.count, i + j < 16 → (n.encode sum)[j]? = some (w (i + j)))

include hw

section

variable (hent : c.ent = if isRoot then update w 0 (w 0).patch else w)

include hent

/-- The pieces of a name in the buffer. -/
theorem pieces_in_buffer (hreach : i + n.count < 16) {j : ℕ} (hj : j < n.count) :
    c.ent (i + j) = if isRoot = true ∧ i + j = 0 then (n.piece sum (n.count - 1 - j)).patch
      else n.piece sum (n.count - 1 - j) := by
  have hget := hw j hj (by omega)
  rw [encode_getElem? hj] at hget
  exact piece_in_buffer hent (Option.some.inj hget).symm

theorem pieces_isLfn (hreach : i + n.count < 16) :
    ∀ e ∈ piecesAt c.ent i n.count, e.isLfn = true := by
  intro e he
  obtain ⟨j, hj, rfl⟩ := List.mem_map.mp he
  rw [pieces_in_buffer hw hent hreach (List.mem_range.mp hj)]
  split <;> rfl

/-- What `fat32_lookup` keeps of a name. -/
theorem storeAll_buffer (hreach : i + n.count < 16) :
    ∃ L, storeAll (piecesAt c.ent i n.count) c.longname = .ok L ∧
      cstr L = n.chars.take (if isRoot = true ∧ i + n.count = 1 then 8 else 13) := by
  obtain ⟨m, hm⟩ := Nat.exists_eq_succ_of_ne_zero (Nat.ne_of_gt n.count_bounds.1)
  have hpiece := fun j hj => @pieces_in_buffer n sum c w isRoot i hw hent hreach j hj
  have horder : ∀ j < n.count, (c.ent (i + j)).order = n.count - j := by
    intro j hj
    have hlast : (n.piece sum (n.count - 1 - j)).order = n.count - 1 - j + 1 :=
      LongName.piece_order (by omega)
    rw [hpiece j hj]
    split
    · exact hlast.trans (by omega)
    · exact hlast.trans (by omega)
  have hfront : ∀ e ∈ piecesAt c.ent i m, 1 ≤ e.order ∧ e.order ≤ 19 := by
    intro e he
    obtain ⟨j, hj, rfl⟩ := List.mem_map.mp he
    have hlt := List.mem_range.mp hj
    rw [horder j (by omega)]
    omega
  obtain ⟨L, hstore, hname⟩ := storeAll_concat hfront
    (show (c.ent (i + m)).order = 1 by rw [horder m (by omega)]; omega) c.longname
  refine ⟨L, ?_, hname.trans ?_⟩
  · rw [hm, Nat.succ_eq_add_one, piecesAt_concat]
    exact hstore
  · have hfirst : isRoot = true ∧ i + n.count = 1 ↔ isRoot = true ∧ i + m = 0 :=
      and_congr_right fun _ => by omega
    rw [hpiece m (by omega), show n.count - 1 - m = 0 by omega, if_congr hfirst rfl rfl]
    split
    · exact n.first_piece_patch sum
    · exact n.first_piece_eq sum

/-- Comparing with a long name that is in the buffer of `fat32_lookup`. -/
theorem compares_iff : Compares d h c i n.count n.chars ↔ n.chars.length ≤ 13 ∧ i + 1 < 16 ∧
      (isRoot = true → i = 0 → n.chars.length ≤ 8) := by
  have hpos := List.length_pos_iff.mpr n.ne
  have hone : n.chars.length ≤ 13 → n.count = 1 := by
    intro hle
    unfold LongName.count
    omega
  have hget : ∀ (L : ℕ → UInt8) (k : ℕ), 0 < k → cstr L = n.chars.take k → ∀ mem,
      getname (cstr L) mem = .ok (some (n.chars.take k)) := by
    intro L k hk hname mem
    rw [hname, getname, if_pos]
    exact fun hnil => n.ne (by simpa [Nat.ne_of_gt hk] using hnil)
  constructor
  · rintro ⟨hreach, -, L, hstore, hname⟩
    obtain ⟨L', hstore', hcstr⟩ := storeAll_buffer hw hent hreach
    obtain rfl := Except.ok.inj (hstore.symm.trans hstore')
    rw [hget L _ (by split <;> decide) hcstr] at hname
    have htake := (n.take_eq_iff _).mp (Option.some.inj (Except.ok.inj hname))
    have hle : n.chars.length ≤ 13 := htake.trans (by split <;> decide)
    refine ⟨hle, by rw [← hone hle]; exact hreach, fun hroot hi => ?_⟩
    rwa [if_pos ⟨hroot, by rw [hi, hone hle]⟩] at htake
  · rintro ⟨hle, hnear, hroot⟩
    have hreach : i + n.count < 16 := by rw [hone hle]; exact hnear
    obtain ⟨L, hstore, hcstr⟩ := storeAll_buffer hw hent hreach
    refine ⟨hreach, fun basename found => ?_, L, hstore, ?_⟩
    · rw [show 16 - i = 16 - (i + n.count) + n.count by omega]
      exact scanLoop_pieces (pieces_isLfn hw hent hreach)
    · rw [hget L _ (by split <;> decide) hcstr, (n.take_eq_iff _).mpr]
      split
      case isTrue hfirst => exact hroot hfirst.1 (by have := hone hle; omega)
      case isFalse => exact hle

end

end

/-- **Long names.** In a directory that holds the pieces of a long name, in front of its short
entry, `fat32_readdir` lists the name exactly if it has at most 13 characters. `fat32_lookup`
compares with the name exactly if it has at most 13 characters, is among the first 16 slots, and,
in the first slots of the root directory, has at most 8 characters. -/
theorem longname_iff (hmod : modMain d offset = .ok (some h)) (hlook : lookup d h path = .ok e)
    (hlinked : Linked h e.cluster cs) (hfuel : cs.length ≤ fuel) (hcs : ∀ x ∈ cs, 2 ≤ x)
    (hslots : listedSlots d h cs = pre ++ (n.encode sum ++ short :: post))
    (hshort : short.attrs ≠ 0 ∧ short.isLfn = false ∧ short.isVolume = false)
    (hlive : ∀ s ∈ pre, s.attrs ≠ 0)
    (hpre : listBefore (n.encode sum ++ short :: post) pre (update area 0 0) = .ok (es, L))
    (hpost : walkable none post = true)
    (hw : ∀ i < 16, (pre ++ (n.encode sum ++ short :: post))[i]? = some (w i))
    (hent : c.ent = if isRoot then update w 0 (w 0).patch else w) :
    ((∃ es', readdir d h fuel area path = .ok (es ++ ⟨n.chars, short.isDirectory⟩ :: es')) ↔
      n.chars.length ≤ 13) ∧
    (Compares d h c pre.length n.count n.chars ↔ n.chars.length ≤ 13 ∧ pre.length + 1 < 16 ∧
      (isRoot = true → pre.length = 0 → n.chars.length ≤ 8)) := by
  obtain ⟨hlow, hhigh⟩ := (modMain_eq_some hmod).1.clusterBytes_bounds
  have hpos : 0 < clusterBytes h.bpb := Nat.lt_of_lt_of_le (by decide) hlow
  have hbuffer : ∀ j < n.count, pre.length + j < 16 →
      (n.encode sum)[j]? = some (w (pre.length + j)) := by
    intro j hj hreach
    have hslot := hw (pre.length + j) hreach
    rwa [List.getElem?_append_right (Nat.le_add_right _ _), Nat.add_sub_cancel_left,
      List.getElem?_append_left (by rwa [encode_length])] at hslot
  refine ⟨?_, compares_iff hbuffer hent⟩
  have hread : readdir d h fuel area path =
      (listLoop (n.encode sum ++ short :: post) L).map (es ++ ·) := by
    rcases hlinked.readdir_cases hpos hhigh hlook hfuel with ⟨-, hlist⟩ | ⟨⟨x, hx, hlt⟩, -⟩
    · rw [hlist, hslots, listLoop_before hlive hpre]
    · exact absurd (hcs x hx) (Nat.not_le.mpr hlt)
  rw [hread, ← listLoop_encode hshort hpost L]
  constructor
  · rintro ⟨es', heq⟩
    obtain ⟨es₁, hes₁, heq⟩ := map_eq_ok.mp heq
    exact ⟨es', by rw [hes₁, List.append_cancel_left heq]⟩
  · rintro ⟨es', heq⟩
    exact ⟨es', map_eq_ok.mpr ⟨_, heq, rfl⟩⟩

end Directory

/-! ## Volumes with a long name -/

/-- The short entry of the file `A`. -/
def shortA : Slot := fun k => if k.val = 0 then 0x41 else if k.val ≤ 11 then 0x20 else 0

/-- A root directory with a long name for the file `A`. -/
def longRoot (n : LongName) : List (ℕ × UInt8) :=
  ((n.encode 0 ++ [shortA]).flatMap Slot.bytes).zipIdx.map Prod.swap

/-- The slots of such a directory. -/
def longSlots (n : LongName) : List Slot :=
  listedSlots (small (longRoot n)) (smallHandle (longRoot n)) [2]

/-- The name `read me`. -/
def readMe : LongName :=
  ⟨[0x72, 0x65, 0x61, 0x64, 0x20, 0x6d, 0x65], by decide, by decide, by simp⟩

/-- The name `abcdefghijklmn`. -/
def nameAToN : LongName :=
  ⟨[0x61, 0x62, 0x63, 0x64, 0x65, 0x66, 0x67, 0x68, 0x69, 0x6a, 0x6b, 0x6c, 0x6d, 0x6e],
    by decide, by decide, by simp⟩

theorem eq_of_take {α : Type} {l front : List α} {x : α} {k : ℕ} (h : l.take k = front ++ [x]) :
    l = [] ++ (front ++ x :: l.drop k) := by
  calc l = l.take k ++ l.drop k := (List.take_append_drop k l).symm
    _ = front ++ [x] ++ l.drop k := by rw [h]
    _ = front ++ x :: l.drop k := List.append_assoc ..

/-- The variables of `fat32_lookup` at the root directory. -/
def rootCursor (slots : List Slot) : Cursor where
  ent := update (fun i => slots.getD i shortA) 0 (slots.getD 0 shortA).patch
  longname _ := 0
  path := []

/-- The name `read me` is listed and compared with. -/
theorem longname_iff_readMe :
    (∃ es, readdir (small (longRoot readMe)) (smallHandle (longRoot readMe)) 1 (fun _ => 0)
      [slash] = .ok (⟨readMe.chars, false⟩ :: es)) ∧
    Compares (small (longRoot readMe)) (smallHandle (longRoot readMe))
      (rootCursor (longSlots readMe)) 0 readMe.count readMe.chars := by
  have hlen : (longSlots readMe).length = 16 := by
    simp [longSlots, listedSlots, slotsOf, clusterRead, clusterBytes, smallHandle, smallBpb]
  have hfront : (longSlots readMe).take 2 = readMe.encode 0 ++ [shortA] := by decide +kernel
  have hpost : walkable none ((longSlots readMe).drop 2) = true := by decide +kernel
  have hmod := @small_mounts (longRoot readMe) (by decide)
  have hlinked : Linked (smallHandle (longRoot readMe)) 2 [2] :=
    .last (by decide) (by decide)
  have hslots := eq_of_take hfront
  have hw : ∀ i < 16, ([] ++ (readMe.encode 0 ++ shortA :: (longSlots readMe).drop 2))[i]? =
      some ((longSlots readMe).getD i shortA) := by
    intro i hi
    rw [← hlen] at hi
    rw [← hslots, List.getElem?_eq_getElem hi, List.getD_eq_getElem _ _ hi]
  rw [← patch_cluster (readSlots (small (longRoot readMe)) 1536 0)] at hlinked
  obtain ⟨hlisted, hcompared⟩ := @longname_iff _ _ 512 1 (fun _ => 0) _ _ _ shortA [2] [] _ []
    readMe 0 (rootCursor (longSlots readMe)) _ true hmod (lookup_slash _ _) hlinked (Nat.le_refl 1)
    (by decide) hslots (by decide) (fun s hs => absurd hs List.not_mem_nil) rfl hpost hw rfl
  exact ⟨hlisted.mpr (by decide), hcompared.mpr ⟨by decide, by decide, fun _ _ => by decide⟩⟩

/-- Of 14 characters, the first 13 are listed. -/
theorem longname_cut :
    modMain (small (longRoot nameAToN)) 512 = .ok (some (smallHandle (longRoot nameAToN))) ∧
    (readdir (small (longRoot nameAToN)) (smallHandle (longRoot nameAToN)) 1 (fun _ => 0)
      [slash]).toOption = some [⟨nameAToN.chars.take 13, false⟩] ∧
    nameAToN.chars.take 13 ≠ nameAToN.chars :=
  ⟨small_mounts (by decide), by decide +kernel, by decide⟩

end NeptunOS.Fat
