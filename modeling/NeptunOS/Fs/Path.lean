import Mathlib.Data.List.TakeWhile
import NeptunOS.Util.Word

/-!
# Paths (`fs/fs.cc`)

`path_sanitize` and `path_basename`, and the components of a path.
-/

namespace NeptunOS

namespace Fs

/-- A path without its terminator. -/
abbrev Path := List UInt8

/-- `fs_entry`. -/
structure FsEntry where
  name : Path
  dir : Bool
deriving DecidableEq, Repr

/-- `'/'`. -/
def slash : UInt8 := 0x2f

/-- The loop of `path_sanitize`; `skip` after a slash. -/
def sanitizeLoop : Bool → Path → Path
  | _, [] => []
  | skip, c :: p =>
    if c = slash then
      if skip then sanitizeLoop true p else c :: sanitizeLoop true p
    else c :: sanitizeLoop false p

/-- The text that `path_sanitize(p)` returns. -/
def pathSanitize (p : Path) : Path := sanitizeLoop false p

/-- `while (*basename != '/' && basename > path) basename--`. -/
def scanBack (path : Path) : ℕ → ℕ
  | 0 => 0
  | b + 1 => if path.getD (b + 1) 0 = slash then b + 1 else scanBack path b

/-- `path_basename(path)`: the path as the function leaves it, and where the basename
starts in it. `strlen` counts in a `u8`, and the last loop in a `u32`. -/
def pathBasename (path : Path) : Except Halt (Path × ℕ) :=
  match path.length % 2 ^ 8 with
  | 0 => .error (.exception "read in front of the path")
  | len + 1 => do
    let (path, b) ←
      if path.getD len 0 = slash then
        if len = 0 then .error (.exception "read in front of the path")
        else .ok (path.take len, len - 1)
      else .ok (path, len)
    let b := scanBack path b
    let b := if path.getD b 0 = slash then b + 1 else b
    let name := (path.drop b).takeWhile (· ≠ slash)
    if 2 ^ 32 ≤ name.length then .error .endless
    else return (path.take (b + name.length), b)

/-- The components of a path. -/
def components (p : Path) : List Path := (p.splitOn slash).filter (· ≠ [])

/-! ## Components -/

theorem components_ne (path : Path) : ∀ name ∈ components path, name ≠ [] := by
  intro name hname
  simpa using (List.mem_filter.mp hname).2

theorem components_slash (path : Path) : components (slash :: path) = components path := by
  have h := List.splitOn_append_cons_self (a := slash) ([] : Path) path
  rw [List.nil_append] at h
  unfold components
  rw [h, List.filter_append]
  simp

/-- A path is what is in front of its first slash, and the rest. -/
theorem components_append {n rest : Path} (hn : slash ∉ n)
    (hrest : rest = [] ∨ ∃ r, rest = slash :: r) :
    components (n ++ rest) = [n].filter (· ≠ []) ++ components rest := by
  rcases hrest with rfl | ⟨r, rfl⟩
  · have hempty : components [] = [] := rfl
    rw [hempty, List.append_nil, List.append_nil]
    unfold components
    rw [List.splitOn_eq_singleton hn]
  · rw [components_slash]
    unfold components
    rw [List.splitOn_append_cons_self, List.splitOn_eq_singleton hn, List.filter_append]

/-! ## Sanitized paths -/

theorem sanitizeLoop_sublist (p : Path) : ∀ skip, (sanitizeLoop skip p).Sublist p := by
  induction p with
  | nil => exact fun _ => List.Sublist.refl _
  | cons c p ih =>
    intro skip
    unfold sanitizeLoop
    split
    · split
      · exact (ih true).cons c
      · exact (ih true).cons_cons c
    · exact (ih false).cons_cons c

theorem pathSanitize_sublist (p : Path) : (pathSanitize p).Sublist p := sanitizeLoop_sublist p false

/-- A path that starts with a slash is not what is left after one. -/
theorem sanitizeLoop_true_slash (p : Path) : sanitizeLoop true (slash :: p) ≠ slash :: p := by
  intro h
  have hlen := (sanitizeLoop_sublist p true).length_le
  rw [sanitizeLoop, if_pos rfl, if_pos rfl] at h
  rw [h, List.length_cons] at hlen
  omega

/-- What follows a character of a sanitized path. -/
theorem sanitizeLoop_cons {skip : Bool} {c : UInt8} {p : Path}
    (h : sanitizeLoop skip (c :: p) = c :: p) :
    sanitizeLoop (decide (c = slash)) p = p ∧ (skip = true → c ≠ slash) := by
  have hskip : skip = true → c ≠ slash := by
    rintro rfl rfl
    exact sanitizeLoop_true_slash p h
  refine ⟨?_, hskip⟩
  unfold sanitizeLoop at h
  by_cases hc : c = slash
  · have hfalse : skip = false := Bool.eq_false_iff.mpr fun ht => hskip ht hc
    rw [if_pos hc, hfalse, if_neg Bool.false_ne_true] at h
    rw [decide_eq_true hc]
    exact (List.cons.inj h).2
  · rw [if_neg hc] at h
    rw [decide_eq_false hc]
    exact (List.cons.inj h).2

theorem sanitizeLoop_append {a b : Path} : ∀ {skip : Bool},
    sanitizeLoop skip (a ++ b) = a ++ b → sanitizeLoop skip a = a := by
  induction a with
  | nil => exact fun _ => rfl
  | cons c a ih =>
    intro skip h
    obtain ⟨htail, hskip⟩ := sanitizeLoop_cons h
    have ih' := ih htail
    unfold sanitizeLoop
    by_cases hc : c = slash
    · have hfalse : skip = false := Bool.eq_false_iff.mpr fun ht => hskip ht hc
      rw [decide_eq_true hc] at ih'
      rw [if_pos hc, hfalse, if_neg Bool.false_ne_true, ih']
    · rw [decide_eq_false hc] at ih'
      rw [if_neg hc, ih']

/-! ## Basenames -/

section

variable {path dir name : Path}

theorem scanBack_eq {lo b : ℕ} (hle : lo ≤ b) (hlo : lo = 0 ∨ path.getD lo 0 = slash)
    (habove : ∀ i, lo < i → i ≤ b → path.getD i 0 ≠ slash) : scanBack path b = lo := by
  induction b with
  | zero => exact (Nat.le_zero.mp hle).symm
  | succ b ih =>
    rw [scanBack]
    by_cases heq : lo = b + 1
    · rw [if_pos, heq]
      rcases hlo with hzero | hslash
      · omega
      · rwa [← heq]
    · rw [if_neg (habove (b + 1) (by omega) (Nat.le_refl _))]
      exact ih (by omega) fun i hi hib => habove i hi (by omega)

/-- A directory part and a name: `dir` is empty or ends in a slash. -/
structure Split (path dir name : Path) : Prop where
  eq : path = dir ++ name
  ne : name ≠ []
  notMem : slash ∉ name
  dir : dir = [] ∨ ∃ d, dir = d ++ [slash]

theorem exists_split (hne : path ≠ []) (hlast : path.getLast? ≠ some slash) :
    ∃ dir name, Split path dir name := by
  induction path with
  | nil => exact absurd rfl hne
  | cons c path ih =>
    cases path with
    | nil =>
      refine ⟨[], [c], rfl, by simp, ?_, .inl rfl⟩
      simpa [eq_comm] using hlast
    | cons d path =>
      obtain ⟨dir, name, hs⟩ := ih (by simp) (by simpa using hlast)
      by_cases hc : c = slash ∨ dir ≠ []
      · refine ⟨c :: dir, name, by rw [hs.eq]; rfl, hs.ne, hs.notMem, .inr ?_⟩
        rcases hs.dir with hnil | ⟨d', hd'⟩
        · have hcs : c = slash := hc.resolve_right (not_not_intro hnil)
          exact ⟨[], by rw [hnil, hcs]; rfl⟩
        · exact ⟨c :: d', by rw [hd']; rfl⟩
      · rw [not_or, not_not] at hc
        refine ⟨[], c :: name, by rw [hs.eq, hc.2]; rfl, by simp, ?_, .inl rfl⟩
        rw [List.mem_cons, not_or]
        exact ⟨fun h => hc.1 h.symm, hs.notMem⟩

section

variable (h : Split path dir name)

include h

theorem Split.getD_name {i : ℕ} (hi : dir.length ≤ i)
    (hlt : i < path.length) : path.getD i 0 ≠ slash := by
  have hlen : path.length = dir.length + name.length := by rw [h.eq, List.length_append]
  rw [h.eq, List.getD_append_right _ _ _ _ hi]
  rw [List.getD_eq_getElem _ _ (by omega)]
  intro heq
  exact h.notMem (heq ▸ List.getElem_mem _)

theorem pathBasename_eq (hlen : path.length < 2 ^ 8) :
    pathBasename path = .ok (path, dir.length) := by
  have hsum : path.length = dir.length + name.length := by rw [h.eq, List.length_append]
  have hpos : 0 < name.length := List.length_pos_iff.mpr h.ne
  have hmod : path.length % 2 ^ 8 = path.length - 1 + 1 := by
    rw [Nat.mod_eq_of_lt hlen]
    omega
  have hname : (path.drop dir.length).takeWhile (· ≠ slash) = name := by
    rw [h.eq, List.drop_left, List.takeWhile_eq_self_iff]
    intro c hc
    rw [decide_eq_true_eq]
    rintro rfl
    exact h.notMem hc
  -- The loop stops on the slash that ends `dir`, or at the start of the path.
  have hstart : (if path.getD (scanBack path (path.length - 1)) 0 = slash then
      scanBack path (path.length - 1) + 1 else scanBack path (path.length - 1)) =
      dir.length := by
    rcases h.dir with hnil | ⟨d, hd⟩
    · have hzero : dir.length = 0 := by rw [hnil]; rfl
      have hscan := @scanBack_eq path 0 (path.length - 1) (Nat.zero_le _) (.inl rfl)
        fun i _ hi => h.getD_name (by omega) (by omega)
      rw [hscan, if_neg (h.getD_name (by omega) (by omega)), hzero]
    · have hdlen : dir.length = d.length + 1 := by rw [hd, List.length_append]; rfl
      have hslash : path.getD d.length 0 = slash := by
        rw [h.eq, hd, List.append_assoc, List.getD_append_right _ _ _ _ (Nat.le_refl _),
          Nat.sub_self]
        rfl
      have hscan := @scanBack_eq path d.length (path.length - 1) (by omega) (.inr hslash)
        fun i hi hib => h.getD_name (by omega) (by omega)
      rw [hscan, if_pos hslash, hdlen]
  unfold pathBasename
  rw [hmod]
  dsimp only
  rw [if_neg (h.getD_name (by omega) (by omega))]
  show (if _ then _ else _) = _
  simp only [hstart, hname, ← hsum, List.take_length]
  exact if_neg (by omega)

/-- There is one split. -/
theorem Split.unique {dir' name' : Path}
    (h' : Split path dir' name') (hlen : path.length < 2 ^ 8) : dir' = dir ∧ name' = name := by
  have heq := (pathBasename_eq h' hlen).symm.trans (pathBasename_eq h hlen)
  have hdir : dir'.length = dir.length := (Prod.mk.inj (Except.ok.inj heq)).2
  exact List.append_inj (h'.eq.symm.trans h.eq) hdir

theorem components_split : components path = components dir ++ [name] := by
  have hsingle : (name.splitOn slash).filter (· ≠ []) = [name] := by
    rw [List.splitOn_eq_singleton h.notMem]
    simp [h.ne]
  unfold components
  rw [h.eq]
  rcases h.dir with rfl | ⟨d, rfl⟩
  · rw [List.nil_append, hsingle]
    rfl
  · rw [List.append_assoc, List.singleton_append, List.splitOn_append_cons_self,
      List.splitOn_append_cons_self, List.filter_append, List.filter_append, hsingle]
    simp

end

end

end Fs

end NeptunOS
