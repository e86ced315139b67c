import NeptunOS.Fs.Vfs

/-!
# Updates of the tree

`vfs_create` and `vfs_remove` on trees whose directories hold one name in a bucket.

- `names`: the names that `vfs_lookup` looks up for a path; `walk`: the lookup of names.
- `Replaced`: what an assignment to an entry changes for the lookups, and what not.
- `vfs_tree_updates`: an update concerns one name, at any depth.
-/

namespace NeptunOS

namespace Vfs

open Fs Stepwise

/-! ## Names -/

/-- The names of a path, in the rounds of `lookupLoop`. -/
def namesLoop : ℕ → Path → List Path
  | 0, _ => []
  | fuel + 1, path =>
    let path := skipSlash path
    if path = [] then []
    else segment path :: namesLoop fuel (path.drop (segment path).length)

def names (path : Path) : List Path := namesLoop (path.length + 1) path

/-- The lookup of a list of names. -/
def walk : Entry → List Path → Except Halt (Option Ptr)
  | _, [] => .ok (some [])
  | e, name :: ns => do
    let hashmap ← e.content.getDir
    if ← hashmap.has name then
      let (r, hashmap) ← hashmap.index name
      let e ← hashmap.load r
      let p ← walk e ns
      return p.map (r :: ·)
    else return none

variable {path : Path} {p : Ptr} {e d' : Entry} {ps : List Path}

/-- A round makes the path shorter: it takes a slash or a name. -/
theorem round_length (hne : skipSlash path ≠ []) :
    ((skipSlash path).drop (segment (skipSlash path)).length).length < path.length := by
  unfold skipSlash at *
  split at hne
  case isTrue hslash =>
    rw [if_pos hslash, List.length_drop, List.length_tail]
    have : path ≠ [] := by
      rintro rfl
      cases hslash
    have := List.length_pos_iff.mpr this
    omega
  case isFalse hslash =>
    rw [if_neg hslash, List.length_drop]
    cases path with
    | nil => exact absurd rfl hne
    | cons c path =>
      have hc : c ≠ slash := fun hc => hslash (by rw [hc]; rfl)
      have hseg : segment (c :: path) = c :: segment path :=
        List.takeWhile_cons_of_pos (by simpa using hc)
      rw [hseg, List.length_cons, List.length_cons]
      omega

theorem lookupLoop_eq_walk (fuel : ℕ) : ∀ {path : Path}, path.length < fuel →
    ∀ e, lookupLoop fuel e path = walk e (namesLoop fuel path) := by
  induction fuel with
  | zero => exact fun h => absurd h (Nat.not_lt_zero _)
  | succ fuel ih =>
    intro path hlen e
    unfold lookupLoop namesLoop
    by_cases hnil : skipSlash path = []
    · rw [if_pos hnil, if_pos hnil]
      rfl
    · have hshort := round_length hnil
      rw [if_neg hnil, if_neg hnil, walk]
      simp only [ih (Nat.lt_of_lt_of_le hshort (Nat.le_of_lt_succ hlen))]

theorem lookup_eq_walk (root : Entry) (path : Path) : lookup root path = walk root (names path) :=
  lookupLoop_eq_walk _ (Nat.lt_succ_self _) root

/-! ### Names and components -/

/-- A path is its first segment and the rest, which is empty or starts with a slash. -/
theorem segment_split (path : Path) :
    slash ∉ segment path ∧ path = segment path ++ path.drop (segment path).length ∧
      (path.drop (segment path).length = [] ∨
        ∃ rest, path.drop (segment path).length = slash :: rest) := by
  induction path with
  | nil => exact ⟨List.not_mem_nil, rfl, .inl rfl⟩
  | cons c path ih =>
    by_cases hc : c = slash
    · have hseg : segment (c :: path) = [] := by simp [segment, hc]
      rw [hseg, hc]
      exact ⟨List.not_mem_nil, rfl, .inr ⟨path, rfl⟩⟩
    · have hseg : segment (c :: path) = c :: segment path := by simp [segment, hc]
      obtain ⟨hmem, heq, hrest⟩ := ih
      rw [hseg, List.length_cons, List.drop_succ_cons, List.cons_append, ← heq]
      refine ⟨?_, rfl, hrest⟩
      rw [List.mem_cons, not_or]
      exact ⟨fun h => hc h.symm, hmem⟩

theorem components_segment (path : Path) : components path = [segment path].filter (· ≠ []) ++
      components (path.drop (segment path).length) := by
  obtain ⟨hmem, hpath, hrest⟩ := segment_split path
  conv_lhs => rw [hpath]
  exact components_append hmem hrest

theorem namesLoop_filter (fuel : ℕ) : ∀ {path : Path}, path.length < fuel →
    (namesLoop fuel path).filter (· ≠ []) = components path := by
  induction fuel with
  | zero => exact fun h => absurd h (Nat.not_lt_zero _)
  | succ fuel ih =>
    intro path hlen
    have hskip : components (skipSlash path) = components path := by
      unfold skipSlash
      split
      case isTrue hslash =>
        obtain ⟨rest, rfl⟩ := List.head?_eq_some_iff.mp hslash
        exact (components_slash rest).symm
      case isFalse => rfl
    rw [← hskip, namesLoop]
    by_cases hnil : skipSlash path = []
    · rw [if_pos hnil, hnil]
      rfl
    · have hshort := round_length hnil
      rw [if_neg hnil, components_segment, ← ih (by omega), ← List.singleton_append,
        List.filter_append]

/-- Besides the components, only empty names are looked up. -/
theorem names_filter (path : Path) : (names path).filter (· ≠ []) = components path :=
  namesLoop_filter _ (Nat.lt_succ_self _)

/-- A path without doubled slashes, or what is left of one. -/
def Clean (path : Path) : Prop := ∃ skip, sanitizeLoop skip path = path

theorem Clean.drop (h : Clean path) (n : ℕ) : Clean (path.drop n) := by
  induction n generalizing path with
  | zero => exact h
  | succ n ih =>
    cases path with
    | nil => exact h
    | cons c path =>
      obtain ⟨skip, h⟩ := h
      exact ih ⟨_, (sanitizeLoop_cons h).1⟩

theorem Clean.skipSlash (h : Clean path) :
    Clean (skipSlash path) ∧ (Vfs.skipSlash path).head? ≠ some slash := by
  unfold Vfs.skipSlash
  split
  case isTrue hslash =>
    obtain ⟨rest, rfl⟩ := List.head?_eq_some_iff.mp hslash
    refine ⟨h.drop 1, fun hhead => ?_⟩
    obtain ⟨skip, h⟩ := h
    obtain ⟨rest', rfl⟩ := List.head?_eq_some_iff.mp hhead
    have := (sanitizeLoop_cons h).1
    rw [decide_eq_true rfl] at this
    exact sanitizeLoop_true_slash _ this
  case isFalse hslash => exact ⟨h, hslash⟩

theorem Clean.namesLoop_ne (h : Clean path) (fuel : ℕ) :
    ∀ name ∈ namesLoop fuel path, name ≠ [] := by
  induction fuel generalizing path with
  | zero => exact fun _ hn => absurd hn List.not_mem_nil
  | succ fuel ih =>
    obtain ⟨hclean, hhead⟩ := h.skipSlash
    rw [namesLoop]
    by_cases hnil : Vfs.skipSlash path = []
    · rw [if_pos hnil]
      exact fun _ hn => absurd hn List.not_mem_nil
    · rw [if_neg hnil, List.forall_mem_cons]
      refine ⟨fun hseg => ?_, ih (hclean.drop _)⟩
      obtain ⟨-, heq, hrest⟩ := segment_split (Vfs.skipSlash path)
      rw [hseg, List.length_nil, List.drop_zero] at hrest
      rcases hrest with hrest | ⟨rest, hrest⟩
      · exact hnil hrest
      · exact hhead (by rw [hrest]; rfl)

theorem Clean.names_eq (h : Clean path) : names path = components path := by
  rw [← names_filter, List.filter_eq_self.mpr]
  intro name hname
  rw [decide_eq_true_eq]
  exact h.namesLoop_ne _ name hname

/-! ## Trees -/

/-- All directories store tables of trees. -/
inductive IsTree : Entry → Prop where
  | file {name : Path} {v : Vec UInt8} : IsTree ⟨name, .file v⟩
  | dir {name : Path} {m : HashMap Path Entry} {c : ℕ → Option (Path × Entry)}
      {t : HashMap.Table Path Entry} : HashMap.Stores m c t →
      (∀ k e, t k = some e → IsTree e) → IsTree ⟨name, .dir m⟩

/-- A pointer below another one. -/
def under (p : Ptr) (x : Except Halt (Option Ptr)) : Except Halt (Option Ptr) :=
  x.map (Option.map (p ++ ·))

@[simp] theorem under_ok (p : Ptr) (x : Option Ptr) : under p (.ok x) = .ok (x.map (p ++ ·)) := rfl

theorem under_nil (x : Except Halt (Option Ptr)) : under [] x = x := by
  rcases x with _ | _ | _ <;> rfl

theorem under_under (p q : Ptr) (x : Except Halt (Option Ptr)) :
    under p (under q x) = under (p ++ q) x := by
  rcases x with _ | _ | r
  · rfl
  · rfl
  · simp

theorem under_eq_some {q : Ptr} {x : Except Halt (Option Ptr)} (h : under p x = .ok (some q)) :
    ∃ r, x = .ok (some r) ∧ q = p ++ r := by
  rcases x with _ | _ | r
  · cases h
  · cases h
  · exact ⟨r, rfl, (Option.some.inj (Except.ok.inj h)).symm⟩

section

variable {m : HashMap Path Entry} {c : ℕ → Option (Path × Entry)}
  {t : HashMap.Table Path Entry} {nm : Path}

/-- One step of a lookup, in the table. -/
theorem walk_cons (hs : HashMap.Stores m c t) (name : Path) (ns : List Path) :
    walk ⟨nm, .dir m⟩ (name :: ns) =
      match t name with
      | none => .ok none
      | some e => under [m.refOf name] (walk e ns) := by
  show (do if ← m.has name then _ else _) = _
  rw [hs.has_eq, ok_bind]
  cases hname : t name with
  | none => rfl
  | some e =>
    show (m.index name >>= _) = _
    rw [hs.index_present hname, ok_bind]
    dsimp only
    rw [(hs.refersTo hname).load, ok_bind]
    rcases walk e ns with _ | _ | _ <;> rfl

theorem walk_file (v : Vec UInt8) (name : Path) (ns : List Path) : walk ⟨nm, .file v⟩ (name :: ns) =
      .error (.fatal "Type mismatch! active: %d; requested: %lld") := rfl

theorem deref_cons (nm : Path) (hs : HashMap.Stores m c t) {name : Path} {e : Entry}
    (hname : t name = some e) (p : Ptr) :
    deref ⟨nm, .dir m⟩ (m.refOf name :: p) = deref e p := by
  show (m.load _ >>= _) = _
  rw [(hs.refersTo hname).load, ok_bind]

theorem assign_cons (hs : HashMap.Stores m c t) {name : Path} {e : Entry}
    (hname : t name = some e) (p : Ptr) (x : Entry) :
    assign ⟨nm, .dir m⟩ (m.refOf name :: p) x =
      (assign e p x).map fun e' => ⟨nm, .dir (m.store (m.refOf name) e')⟩ := by
  show (m.load _ >>= _) = _
  rw [(hs.refersTo hname).load, ok_bind]
  cases assign e p x <;> rfl

end

/-- What a lookup of names that succeeds has passed. -/
theorem IsTree.walk_some (he : IsTree e) {name : Path} {ns : List Path}
    (h : walk e (name :: ns) = .ok (some p)) :
    ∃ nm m c t e' q, e = ⟨nm, .dir m⟩ ∧ HashMap.Stores m c t ∧
      (∀ k x, t k = some x → IsTree x) ∧ t name = some e' ∧
      walk e' ns = .ok (some q) ∧ p = m.refOf name :: q := by
  cases he with
  | file => rw [walk_file] at h; cases h
  | dir hs hsub =>
    rw [walk_cons hs] at h
    split at h
    case h_1 => cases h
    case h_2 e' hname =>
      obtain ⟨q, hq, rfl⟩ := under_eq_some h
      exact ⟨_, _, _, _, e', q, rfl, hs, hsub, hname, hq, rfl⟩

/-- Lookups go on from what a lookup has found. -/
theorem IsTree.walk_append (he : IsTree e) (h : walk e ps = .ok (some p)) :
    ∃ d, deref e p = .ok d ∧ IsTree d ∧
      (∀ q, walk e (ps ++ q) = under p (walk d q)) ∧ ∀ r, deref e (p ++ r) = deref d r := by
  induction ps generalizing e p with
  | nil =>
    cases h
    exact ⟨e, rfl, he, fun q => (under_nil _).symm, fun r => rfl⟩
  | cons name ps ih =>
    obtain ⟨nm, m, c, t, e', q, rfl, hs, hsub, hname, hq, rfl⟩ := he.walk_some h
    obtain ⟨d, hd, htree, hwalk, hderef⟩ := ih (hsub name e' hname) hq
    refine ⟨d, (deref_cons nm hs hname q).trans hd, htree, fun ns => ?_, fun r => ?_⟩
    · rw [List.cons_append, walk_cons hs, hname]
      dsimp only
      rw [hwalk, under_under]
      rfl
    · exact (deref_cons nm hs hname _).trans (hderef r)

/-! ## Assignments -/

/-- After `d'` is assigned to the entry `p` that `ps` leads to: the lookups below `ps` are
those in `d'`, all others are as before, and so is what they find, except for the
directories on the way. -/
structure Replaced (e e' : Entry) (ps : List Path) (p : Ptr) (d' : Entry) : Prop where
  below : ∀ q, walk e' (ps ++ q) = under p (walk d' q)
  derefBelow : ∀ r, deref e' (p ++ r) = deref d' r
  other : ∀ q, ¬ ps <+: q → walk e' q = walk e q
  derefOther : ∀ q r, ¬ ps <+: q → ¬ q <+: ps → walk e q = .ok (some r) →
    deref e' r = deref e r

theorem IsTree.assign (he : IsTree e) (h : walk e ps = .ok (some p)) (hd' : IsTree d') :
    ∃ e', Vfs.assign e p d' = .ok e' ∧ IsTree e' ∧ Replaced e e' ps p d' := by
  induction ps generalizing e p with
  | nil =>
    cases h
    refine ⟨d', rfl, hd', fun q => (under_nil _).symm, fun r => rfl, ?_, ?_⟩
    · exact fun q hq => absurd (List.nil_prefix) hq
    · exact fun q r hq => absurd (List.nil_prefix) hq
  | cons name ps ih =>
    obtain ⟨nm, m, c, t, sub, p, rfl, hs, hsub, hname, hp, rfl⟩ := he.walk_some h
    obtain ⟨sub', hassign, htree, hrep⟩ := ih (hsub name sub hname) hp
    obtain ⟨c', hs'⟩ := hs.store sub' (hs.refersTo hname)
    have hself : Function.update t name (some sub') name = some sub' := Function.update_self _ _ _
    have hother : ∀ {k}, k ≠ name → Function.update t name (some sub') k = t k :=
      fun hk => Function.update_of_ne hk _ _
    refine ⟨⟨nm, .dir (m.store (m.refOf name) sub')⟩, ?_, .dir hs' ?_, ?_, ?_, ?_, ?_⟩
    · rw [assign_cons hs hname, hassign]
      rfl
    · intro k x hk
      by_cases hkn : k = name
      · rw [hkn, hself] at hk
        exact Option.some.inj hk ▸ htree
      · rw [hother hkn] at hk
        exact hsub k x hk
    · intro q
      rw [List.cons_append, walk_cons hs', hself]
      dsimp only
      rw [hrep.below, under_under, HashMap.store_refOf]
      rfl
    · intro r
      have := deref_cons nm hs' hself (p ++ r)
      rw [HashMap.store_refOf] at this
      exact this.trans (hrep.derefBelow r)
    · intro q hq
      cases q with
      | nil => rfl
      | cons k q =>
        rw [walk_cons hs', walk_cons hs, HashMap.store_refOf]
        by_cases hk : k = name
        · subst hk
          rw [hself, hname]
          dsimp only
          rw [hrep.other q fun hpre => hq ((List.cons_prefix_cons).mpr ⟨rfl, hpre⟩)]
        · rw [hother hk]
    · intro q r hq hq' hwalk
      cases q with
      | nil => exact absurd List.nil_prefix hq'
      | cons k q =>
        rw [walk_cons hs] at hwalk
        split at hwalk
        case h_1 => cases hwalk
        case h_2 x hx =>
          obtain ⟨r, hr, rfl⟩ := under_eq_some hwalk
          rw [List.singleton_append, deref_cons nm hs hx]
          by_cases hk : k = name
          · subst hk
            obtain rfl := Option.some.inj (hx.symm.trans hname)
            have := deref_cons nm hs' hself r
            rw [HashMap.store_refOf] at this
            rw [this]
            exact hrep.derefOther q r
              (fun hpre => hq (List.cons_prefix_cons.mpr ⟨rfl, hpre⟩))
              (fun hpre => hq' (List.cons_prefix_cons.mpr ⟨rfl, hpre⟩)) hr
          · have := deref_cons nm hs' ((hother hk).trans hx) r
            rw [HashMap.store_refOf] at this
            exact this

/-! ## One directory -/

section

variable {m m' : HashMap Path Entry} {c : ℕ → Option (Path × Entry)}
  {t : HashMap.Table Path Entry} {name nm : Path} {x : Option Entry}

/-- The directory `m'` has `x` under `name` and is like `m` otherwise. -/
structure Edit (m m' : HashMap Path Entry) (t : HashMap.Table Path Entry) (name : Path)
    (x : Option Entry) : Prop where
  stores : ∃ c', HashMap.Stores m' c' (Function.update t name x)
  refOf : ∀ k v, k ≠ name → t k = some v → m'.refOf k = m.refOf k

section

variable (hs : HashMap.Stores m c t)

include hs

theorem index_store_edit (hfree : HashMap.Free m.size t name)
    (e : Entry) : ∃ r m₁, m.index name = .ok (r, m₁) ∧ Edit m (m₁.store r e) t name (some e) := by
  obtain ⟨r, m₁, c₁, hindex, hsize, hs₁, hr, -⟩ :=
    hs.index_ok hfree (.rvalue 0) fun _ => rfl
  obtain ⟨c₂, hs₂⟩ := hs₁.store e hr
  rw [Function.update_idem] at hs₂
  refine ⟨r, m₁, hindex, ⟨c₂, hs₂⟩, fun k v hk hv => ?_⟩
  have hbucket : r.bucket = Hash.sum name % m.size := by rw [hr.bucket, hsize]
  have hframe := HashMap.store_onlyBucket m₁ r e
  rw [hbucket] at hframe
  exact ((HashMap.index_onlyBucket hindex).trans hframe).refOf_eq (hs.bucket_ne hfree hv hk)

theorem remove_edit (hp : (t name).isSome = true) :
    ∃ m', m.remove name = .ok m' ∧ Edit m m' t name none := by
  obtain ⟨m', c', hremove, -, hs'⟩ := hs.remove_ok hp rfl
  refine ⟨m', hremove, ⟨c', hs'⟩, fun k v hk hv => ?_⟩
  exact (HashMap.remove_onlyBucket hremove).refOf_eq (hs.bucket_ne (.inl hp) hv hk)

/-- Lookups of other names do not see the edit. -/
theorem Edit.walk_eq (h : Edit m m' t name x) {q : List Path}
    (hq : q.head? ≠ some name) : walk ⟨nm, .dir m'⟩ q = walk ⟨nm, .dir m⟩ q := by
  obtain ⟨c', hs'⟩ := h.stores
  cases q with
  | nil => rfl
  | cons k q =>
    have hk : k ≠ name := fun hk => hq (by rw [hk]; rfl)
    rw [walk_cons hs', walk_cons hs, Function.update_of_ne hk]
    cases hv : t k with
    | none => rfl
    | some v => rw [h.refOf k v hk hv]

theorem Edit.deref_eq (h : Edit m m' t name x) {q : List Path}
    (hq : q.head? ≠ some name) (hne : q ≠ []) {r : Ptr}
    (hwalk : walk ⟨nm, .dir m⟩ q = .ok (some r)) :
    deref ⟨nm, .dir m'⟩ r = deref ⟨nm, .dir m⟩ r := by
  obtain ⟨c', hs'⟩ := h.stores
  cases q with
  | nil => exact absurd rfl hne
  | cons k q =>
    have hk : k ≠ name := fun hk => hq (by rw [hk]; rfl)
    rw [walk_cons hs] at hwalk
    split at hwalk
    case h_1 => cases hwalk
    case h_2 v hv =>
      obtain ⟨r, -, rfl⟩ := under_eq_some hwalk
      have hv' : Function.update t name x k = some v := by rw [Function.update_of_ne hk, hv]
      rw [List.singleton_append, deref_cons nm hs hv, ← h.refOf k v hk hv, deref_cons nm hs' hv']

end

theorem Edit.isTree (h : Edit m m' t name x) (hsub : ∀ k e, t k = some e → IsTree e)
    (hx : ∀ e, x = some e → IsTree e) : IsTree ⟨nm, .dir m'⟩ := by
  obtain ⟨c', hs'⟩ := h.stores
  refine .dir hs' fun k e hk => ?_
  by_cases hkn : k = name
  · rw [hkn, Function.update_self] at hk
    exact hx e hk
  · rw [Function.update_of_ne hkn] at hk
    exact hsub k e hk

end

/-! ## Updates -/

/-- `name` is a free name, or a present one, in the directory `m` at `p`, to which `ps`
leads. -/
structure Target (root : Entry) (ps : List Path) (name : Path) (p : Ptr) (nm : Path)
    (m : HashMap Path Entry) (t : HashMap.Table Path Entry) : Prop where
  walk : walk root ps = .ok (some p)
  deref : deref root p = .ok ⟨nm, .dir m⟩
  stores : ∃ c, HashMap.Stores m c t
  subtrees : ∀ k e, t k = some e → IsTree e
  free : HashMap.Free m.size t name

/-- No lookup but those of `ps` and below is changed. -/
def UnchangedNames (e e' : Entry) (ps : List Path) : Prop :=
  ∀ q, ¬ ps <+: q → walk e' q = walk e q ∧
    ∀ r, walk e q = .ok (some r) → ¬ q <+: ps → deref e' r = deref e r

section

variable {root : Entry} {ps : List Path} {name nm : Path} {p : Ptr}
  {m m' : HashMap Path Entry} {t : HashMap.Table Path Entry} {x : Option Entry}

/-- An edit of the directory is an update of the tree at one name. -/
theorem Target.edit (hroot : IsTree root) (h : Target root ps name p nm m t)
    (hedit : Edit m m' t name x) (hx : ∀ e, x = some e → IsTree e) :
    ∃ root', assign root p ⟨nm, .dir m'⟩ = .ok root' ∧ IsTree root' ∧
      Replaced root root' ps p ⟨nm, .dir m'⟩ ∧ UnchangedNames root root' (ps ++ [name]) := by
  obtain ⟨c, hs⟩ := h.stores
  obtain ⟨root', hassign, htree, hrep⟩ := hroot.assign h.walk (hedit.isTree h.subtrees hx)
  obtain ⟨d, hd, -, hbelow, hderef⟩ := hroot.walk_append h.walk
  obtain rfl := Except.ok.inj (hd.symm.trans h.deref)
  refine ⟨root', hassign, htree, hrep, fun q hq => ?_⟩
  by_cases hps : ps <+: q
  case neg =>
    refine ⟨hrep.other q hps, fun r hr hpre => hrep.derefOther q r hps ?_ hr⟩
    exact fun h' => hpre (h'.trans (List.prefix_append ps [name]))
  case pos =>
    obtain ⟨q, rfl⟩ := hps
    have hhead : q.head? ≠ some name := by
      intro hhead
      obtain ⟨q', rfl⟩ := List.head?_eq_some_iff.mp hhead
      exact hq ⟨q', by simp⟩
    refine ⟨?_, fun r hr hpre => ?_⟩
    · rw [hrep.below, hbelow, hedit.walk_eq hs hhead]
    · have hne : q ≠ [] := by
        rintro rfl
        exact hpre (by simp)
      rw [hbelow] at hr
      obtain ⟨r', hr', rfl⟩ := under_eq_some hr
      rw [hrep.derefBelow, hderef, hedit.deref_eq hs hhead hne hr']

/-- The name itself, after the edit. -/
theorem Replaced.walk_name {root' : Entry} (hrep : Replaced root root' ps p ⟨nm, .dir m'⟩)
    (hedit : Edit m m' t name x) :
    walk root' (ps ++ [name]) = .ok (x.map fun _ => p ++ [m'.refOf name]) ∧
      ∀ e, x = some e → deref root' (p ++ [m'.refOf name]) = .ok e := by
  obtain ⟨c', hs'⟩ := hedit.stores
  have hself : Function.update t name x name = x := Function.update_self _ _ _
  constructor
  · rw [hrep.below, walk_cons hs', hself]
    cases x <;> rfl
  · rintro e rfl
    rw [hrep.derefBelow, deref_cons nm hs' hself]
    rfl

end

/-! ## Equal trees -/

/-- Equal but for where the entries are in memory. -/
inductive Same : Entry → Entry → Prop where
  | file {name : Path} {v : Vec UInt8} : Same ⟨name, .file v⟩ ⟨name, .file v⟩
  | dir {name : Path} {m m' : HashMap Path Entry} {c c' : ℕ → Option (Path × Entry)}
      {t t' : HashMap.Table Path Entry} : HashMap.Stores m c t → HashMap.Stores m' c' t' →
      (∀ k, (t k).isSome = (t' k).isSome) →
      (∀ k e e', t k = some e → t' k = some e' → Same e e') →
      Same ⟨name, .dir m⟩ ⟨name, .dir m'⟩

theorem IsTree.same (he : IsTree e) : Same e e := by
  induction he with
  | file => exact .file
  | dir hs _ ih =>
    refine .dir hs hs (fun _ => rfl) fun k e e' he he' => ?_
    obtain rfl := Option.some.inj (he.symm.trans he')
    exact ih k e he

theorem Same.assign {e' d : Entry} (he : IsTree e) (hwalk : walk e ps = .ok (some p))
    (hderef : deref e p = .ok d) (hsame : Same d d') (hassign : Vfs.assign e p d' = .ok e') :
    Same e e' := by
  induction ps generalizing e e' p with
  | nil =>
    cases hwalk
    cases hderef
    cases hassign
    exact hsame
  | cons name ps ih =>
    obtain ⟨nm, m, c, t, sub, p, rfl, hs, hsub, hname, hp, rfl⟩ := he.walk_some hwalk
    rw [deref_cons nm hs hname] at hderef
    rw [assign_cons hs hname] at hassign
    cases hsub' : Vfs.assign sub p d' with
    | error err =>
      rw [hsub'] at hassign
      cases hassign
    | ok sub' =>
      rw [hsub'] at hassign
      obtain rfl := Except.ok.inj hassign
      obtain ⟨c', hs'⟩ := hs.store sub' (hs.refersTo hname)
      refine .dir hs hs' (fun k => ?_) fun k x x' hx hx' => ?_
      · by_cases hk : k = name
        · rw [hk, Function.update_self, hname]
          rfl
        · rw [Function.update_of_ne hk]
      · by_cases hk : k = name
        · subst hk
          rw [Function.update_self] at hx'
          obtain rfl := Option.some.inj hx'
          obtain rfl := Option.some.inj (hname.symm.trans hx)
          exact ih (hsub k sub hname) hp hderef hsub'
        · rw [Function.update_of_ne hk, hx] at hx'
          obtain rfl := Option.some.inj hx'
          exact (hsub k x hx).same

/-- The second of two assignments to one entry counts. -/
theorem assign_assign {e₁ d₁ : Entry} (h : assign e p d₁ = .ok e₁) (d₂ : Entry) :
    assign e₁ p d₂ = assign e p d₂ := by
  induction p generalizing e e₁ with
  | nil => rfl
  | cons r p ih =>
    obtain ⟨m, hm, h⟩ := bind_eq_ok.mp h
    obtain ⟨sub, hload, h⟩ := bind_eq_ok.mp h
    obtain ⟨sub₁, hsub, h⟩ := bind_eq_ok.mp h
    cases h
    rw [assign, assign, hm, ok_bind, hload, ok_bind, ← ih hsub]
    show ((m.store r sub₁).load r >>= _) = _
    rw [HashMap.load_store hload, ok_bind]
    simp only [HashMap.store_store]
    rfl

/-! ## `vfs_create` and `vfs_remove` -/

/-- What an update at `path` leaves as it is: every lookup of a path that does not have
`path` as a componentwise prefix, and all that it finds except for the directories on the
way to `path`. -/
def Unchanged (root root' : Entry) (path : Path) : Prop :=
  ∀ q, ¬ components path <+: components q → lookup root' q = lookup root q ∧
    ∀ r, lookup root q = .ok (some r) → ¬ components q <+: components path →
      deref root' r = deref root r

section

variable {root : Entry} {path dir name nm : Path} {p : Ptr} {m : HashMap Path Entry}
  {c : ℕ → Option (Path × Entry)} {t : HashMap.Table Path Entry}

theorem UnchangedNames.unchanged {root' : Entry}
    (h : UnchangedNames root root' (components path)) : Unchanged root root' path := by
  have hself : (components path).filter (· ≠ []) = components path :=
    List.filter_eq_self.mpr fun name hname => decide_eq_true (components_ne path name hname)
  intro q hq
  rw [lookup_eq_walk, lookup_eq_walk]
  have hnames : ¬ components path <+: names q := by
    intro hpre
    have := hpre.filter (· ≠ [])
    rw [hself, names_filter] at this
    exact hq this
  refine ⟨(h _ hnames).1, fun r hr hpre => (h _ hnames).2 r hr fun hpre' => hpre ?_⟩
  have := hpre'.filter (· ≠ [])
  rwa [hself, names_filter] at this

theorem openParent_eq (hsplit : Split path dir name) (hlen : path.length < 2 ^ 8)
    (hlookup : lookup root dir = .ok (some p)) (hderef : deref root p = .ok ⟨nm, .dir m⟩) :
    openParent root path = .ok (name, p, ⟨nm, .dir m⟩, m) := by
  have hdir : path.take dir.length = dir := by rw [hsplit.eq, List.take_left]
  have hname : path.drop dir.length = name := by rw [hsplit.eq, List.drop_left]
  unfold openParent
  rw [pathBasename_eq hsplit hlen, ok_bind]
  dsimp only
  rw [hdir, hlookup, ok_bind, derefOpt, hderef, ok_bind, hname]
  rfl

/-- The parent of `path` is an existing directory `m` at `p`, in which `name` does not
share a bucket with another name. -/
structure Parent (root : Entry) (dir name : Path) (p : Ptr) (nm : Path)
    (m : HashMap Path Entry) (t : HashMap.Table Path Entry) : Prop where
  lookup : lookup root dir = .ok (some p)
  deref : deref root p = .ok ⟨nm, .dir m⟩
  stores : ∃ c, HashMap.Stores m c t
  free : HashMap.Free m.size t name

theorem Parent.target (hroot : IsTree root) (hclean : pathSanitize path = path)
    (hsplit : Split path dir name) (h : Parent root dir name p nm m t) :
    Target root (components dir) name p nm m t := by
  have hdir : Clean dir := ⟨false, sanitizeLoop_append (by
    rw [← hsplit.eq]
    exact hclean)⟩
  have hwalk := h.lookup
  rw [lookup_eq_walk, hdir.names_eq] at hwalk
  obtain ⟨d, hd, htree, -⟩ := hroot.walk_append hwalk
  obtain rfl := Except.ok.inj (hd.symm.trans h.deref)
  obtain ⟨c, hs⟩ := h.stores
  refine ⟨hwalk, hd, h.stores, ?_, h.free⟩
  cases htree with
  | dir hs' hsub =>
    rw [hs'.table_unique hs]
    exact hsub

theorem lookup_split (hclean : pathSanitize path = path) (hsplit : Split path dir name)
    (e : Entry) : lookup e path = walk e (components dir ++ [name]) := by
  have hpath : Clean path := ⟨false, hclean⟩
  rw [lookup_eq_walk, hpath.names_eq, components_split hsplit]

theorem create_eq (hlen : path.length < 2 ^ 8) (hsplit : Split path dir name)
    (h : Parent root dir name p nm m t) (mkdir : Bool) :
    ∃ m', Edit m m' t name (some ⟨name, if mkdir then emptyDir else emptyFile⟩) ∧
      create root path mkdir = assign root p ⟨nm, .dir m'⟩ := by
  obtain ⟨c, hs⟩ := h.stores
  obtain ⟨r, m₁, hindex, hedit⟩ :=
    index_store_edit hs h.free ⟨name, if mkdir then emptyDir else emptyFile⟩
  refine ⟨_, hedit, ?_⟩
  unfold create
  rw [openParent_eq hsplit hlen h.lookup h.deref, ok_bind]
  dsimp only
  rw [hindex, ok_bind]
  rfl

/-- `vfs_create` puts a new entry under the name. -/
theorem create_spec (hroot : IsTree root) (hclean : pathSanitize path = path)
    (hlen : path.length < 2 ^ 8) (hsplit : Split path dir name)
    (h : Parent root dir name p nm m t) (mkdir : Bool) :
    ∃ m' root', Edit m m' t name (some ⟨name, if mkdir then emptyDir else emptyFile⟩) ∧
      create root path mkdir = .ok root' ∧ assign root p ⟨nm, .dir m'⟩ = .ok root' ∧
      IsTree root' ∧ Replaced root root' (components dir) p ⟨nm, .dir m'⟩ ∧
      Unchanged root root' path := by
  have htarget := h.target hroot hclean hsplit
  have hnew : IsTree ⟨name, if mkdir then emptyDir else emptyFile⟩ := by
    cases mkdir with
    | false => exact .file
    | true => exact .dir (HashMap.init_stores (by decide)) fun k e hk => by cases hk
  obtain ⟨m', hedit, hcreate⟩ := create_eq hlen hsplit h mkdir
  obtain ⟨root', hassign, htree, hrep, hsame⟩ := htarget.edit hroot hedit fun e he => by
    obtain rfl := Option.some.inj he
    exact hnew
  rw [← components_split hsplit] at hsame
  exact ⟨m', root', hedit, hcreate.trans hassign, hassign, htree, hrep, hsame.unchanged⟩

/-- `vfs_remove` of a name that exists. -/
theorem remove_present (hroot : IsTree root) (hclean : pathSanitize path = path)
    (hlen : path.length < 2 ^ 8) (hsplit : Split path dir name)
    (h : Parent root dir name p nm m t) (hp : (t name).isSome = true) :
    ∃ m' root', Edit m m' t name none ∧ remove root path = .ok root' ∧
      assign root p ⟨nm, .dir m'⟩ = .ok root' ∧ IsTree root' ∧
      Replaced root root' (components dir) p ⟨nm, .dir m'⟩ ∧ Unchanged root root' path := by
  have htarget := h.target hroot hclean hsplit
  obtain ⟨c, hs⟩ := h.stores
  obtain ⟨m', hremove, hedit⟩ := remove_edit hs hp
  obtain ⟨root', hassign, htree, hrep, hsame⟩ := htarget.edit hroot hedit fun e he => by cases he
  rw [← components_split hsplit] at hsame
  refine ⟨m', root', hedit, ?_, hassign, htree, hrep, hsame.unchanged⟩
  unfold remove
  rw [openParent_eq hsplit hlen h.lookup h.deref, ok_bind]
  dsimp only
  rw [hs.has_eq, ok_bind, hp]
  show (m.remove name >>= _) = _
  rw [hremove, ok_bind]
  exact hassign

theorem remove_absent (hlen : path.length < 2 ^ 8) (hsplit : Split path dir name)
    (h : Parent root dir name p nm m t) (hp : t name = none) : remove root path = .ok root := by
  obtain ⟨c, hs⟩ := h.stores
  unfold remove
  rw [openParent_eq hsplit hlen h.lookup h.deref, ok_bind]
  dsimp only
  rw [hs.has_eq, ok_bind, hp]
  rfl

/-- A lookup of the path is a lookup of the name in the table of the parent. -/
theorem lookup_none_iff (hroot : IsTree root) (hclean : pathSanitize path = path)
    (hsplit : Split path dir name) (h : Parent root dir name p nm m t) :
    lookup root path = .ok none ↔ t name = none := by
  have htarget := h.target hroot hclean hsplit
  obtain ⟨c, hs⟩ := h.stores
  obtain ⟨d, hd, -, hbelow, -⟩ := hroot.walk_append htarget.walk
  obtain rfl := Except.ok.inj (hd.symm.trans h.deref)
  rw [lookup_split hclean hsplit, hbelow, walk_cons hs]
  cases t name with
  | none => exact iff_of_true rfl rfl
  | some e => exact iff_of_false (fun hnone => by cases hnone) fun hnone => by cases hnone

/-- **Tree updates.** Creation and removal change one name, and a fresh name that is
created and removed again leaves the tree as it was. -/
theorem vfs_tree_updates (hroot : IsTree root) (hne : path ≠ [])
    (hclean : pathSanitize path = path) (hlast : path.getLast? ≠ some slash)
    (hlen : path.length < 2 ^ 8) (mkdir : Bool) :
    ∃ dir name, Split path dir name ∧ ∀ p nm m t, Parent root dir name p nm m t →
      (∃ root' r, create root path mkdir = .ok root' ∧ IsTree root' ∧
        lookup root' path = .ok (some r) ∧
        deref root' r = .ok ⟨name, if mkdir then emptyDir else emptyFile⟩ ∧
        Unchanged root root' path) ∧
      (∃ root', remove root path = .ok root' ∧ IsTree root' ∧
        lookup root' path = .ok none ∧ Unchanged root root' path) ∧
      (lookup root path = .ok none → ∃ root₁ root₂, create root path mkdir = .ok root₁ ∧
        remove root₁ path = .ok root₂ ∧ Same root root₂) := by
  obtain ⟨dir, name, hsplit⟩ := exists_split hne hlast
  refine ⟨dir, name, hsplit, fun p nm m t h => ?_⟩
  obtain ⟨m₁, root₁, hedit₁, hcreate, hassign₁, htree₁, hrep₁, hsame₁⟩ :=
    create_spec hroot hclean hlen hsplit h mkdir
  obtain ⟨hwalk₁, hderef₁⟩ := hrep₁.walk_name hedit₁
  refine ⟨⟨root₁, _, hcreate, htree₁, ?_, hderef₁ _ rfl, hsame₁⟩, ?_, fun hfresh => ?_⟩
  · rw [lookup_split hclean hsplit]
    exact hwalk₁
  · by_cases hp : (t name).isSome = true
    · obtain ⟨m', root', hedit, hremove, -, htree, hrep, hsame⟩ :=
        remove_present hroot hclean hlen hsplit h hp
      refine ⟨root', hremove, htree, ?_, hsame⟩
      rw [lookup_split hclean hsplit]
      exact (hrep.walk_name hedit).1
    · have hnone : t name = none := by simpa using hp
      exact ⟨root, remove_absent hlen hsplit h hnone, hroot,
        (lookup_none_iff hroot hclean hsplit h).mpr hnone, fun _ _ => ⟨rfl, fun _ _ _ => rfl⟩⟩
  · have hnone := (lookup_none_iff hroot hclean hsplit h).mp hfresh
    have hdir : Clean dir := ⟨false, sanitizeLoop_append (by
      rw [← hsplit.eq]
      exact hclean)⟩
    have hparent₁ : Parent root₁ dir name p nm m₁
        (Function.update t name (some ⟨name, if mkdir then emptyDir else emptyFile⟩)) := by
      refine ⟨?_, ?_, hedit₁.stores, Or.inl (by rw [Function.update_self]; rfl)⟩
      · have := hrep₁.below []
        rw [List.append_nil] at this
        rw [lookup_eq_walk, hdir.names_eq, this]
        simp [walk]
      · have := hrep₁.derefBelow []
        rwa [List.append_nil] at this
    obtain ⟨m₂, root₂, hedit₂, hremove, hassign₂, -⟩ := remove_present htree₁ hclean hlen hsplit
      hparent₁ (by rw [Function.update_self]; rfl)
    refine ⟨root₁, root₂, hcreate, hremove, ?_⟩
    rw [assign_assign hassign₁] at hassign₂
    refine Same.assign hroot (h.target hroot hclean hsplit).walk h.deref ?_ hassign₂
    obtain ⟨c, hs⟩ := h.stores
    obtain ⟨c₂, hs₂⟩ := hedit₂.stores
    rw [Function.update_idem, ← hnone, Function.update_eq_self] at hs₂
    refine .dir hs hs₂ (fun _ => rfl) fun k e e' he he' => ?_
    obtain rfl := Option.some.inj (he.symm.trans he')
    exact ((h.target hroot hclean hsplit).subtrees k e he).same

end

/-- A new file system without names. -/
theorem mount_stores : HashMap.Stores (HashMap.init 1024 : HashMap Path Entry) (fun _ => none)
    fun _ => none := HashMap.init_stores (by decide)

/-- Any name can be created in a new file system. -/
theorem mount_parent (name : Path) : Parent mount [0x2f] name [] [] (HashMap.init 1024)
    fun _ => none :=
  ⟨rfl, rfl, ⟨_, mount_stores⟩, .inr fun k hk => by cases hk⟩

theorem mount_isTree : IsTree mount := .dir mount_stores fun k e hk => by cases hk

/-- "/d/a" is created in a new directory "/d", and removed again. -/
theorem vfs_tree_updates_nested : ∃ root root₁ root₂ r, create mount [0x2f, 0x64] true = .ok root ∧
    create root [0x2f, 0x64, 0x2f, 0x61] false = .ok root₁ ∧
    lookup root₁ [0x2f, 0x64, 0x2f, 0x61] = .ok (some r) ∧
    deref root₁ r = .ok ⟨[0x61], emptyFile⟩ ∧ Unchanged root root₁ [0x2f, 0x64, 0x2f, 0x61] ∧
    remove root₁ [0x2f, 0x64, 0x2f, 0x61] = .ok root₂ ∧ Same root root₂ := by
  have hsplit : Split [0x2f, 0x64] [0x2f] [0x64] := ⟨rfl, by decide, by decide, .inr ⟨[], rfl⟩⟩
  obtain ⟨m, root, hedit, hcreate, -, hroot, hrep, -⟩ := create_spec mount_isTree (by decide)
    (by decide) hsplit (mount_parent [0x64]) true
  obtain ⟨hwalk, hderef⟩ := hrep.walk_name hedit
  obtain ⟨dir, name, hsplit', h⟩ := @vfs_tree_updates root [0x2f, 0x64, 0x2f, 0x61] hroot
    (by decide) (by decide) (by decide) (by decide) false
  have hexpected : Split [0x2f, 0x64, 0x2f, 0x61] [0x2f, 0x64, 0x2f] [0x61] :=
    ⟨rfl, by decide, by decide, .inr ⟨[0x2f, 0x64], rfl⟩⟩
  obtain ⟨rfl, rfl⟩ := hexpected.unique hsplit' (by decide)
  have hparent : Parent root [0x2f, 0x64, 0x2f] [0x61] _ [0x64] (HashMap.init 1024)
      fun _ => none :=
    ⟨hwalk, hderef _ rfl, ⟨_, mount_stores⟩, .inr fun k hk => by cases hk⟩
  obtain ⟨⟨root₁, r, hcreate₁, -, hlookup, hderef₁, hsame⟩, -, hagain⟩ := h _ _ _ _ hparent
  obtain ⟨root₁', root₂, hcreate₁', hremove, hsame₂⟩ := hagain
    ((lookup_none_iff hroot (by decide) hexpected hparent).mpr rfl)
  obtain rfl := Except.ok.inj (hcreate₁.symm.trans hcreate₁')
  exact ⟨root, root₁, root₂, r, hcreate, hcreate₁, hlookup, hderef₁, hsame, hremove, hsame₂⟩

end Vfs

end NeptunOS
