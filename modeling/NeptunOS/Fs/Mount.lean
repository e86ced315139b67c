import NeptunOS.Fs.Sanitize
import NeptunOS.Util.Str

/-!
# Mount points (`fs/fs.cc`)

The calls of the file system layer go to one mount point, with the rest of the path.
`fs_find_mnt` compares the path with its own sanitized form, not with the path of the
mount point, and the callers cut the path as it was given. `fs_dispatch_iff` says when
the mount point is the right one all the same. The sanitized path is a `String` that grows
by one character at a time, and its last terminator may be behind its block.
-/

namespace NeptunOS

namespace Fs

open Stepwise

/-- `fs_calltable`, over the state `σ` of the machine; buffers are addresses. -/
structure CallTable (σ : Type) where
  read : Path → ℕ → ℕ → ℕ → σ → Except Halt (ℕ × σ)
  write : Path → ℕ → ℕ → ℕ → σ → Except Halt (ℕ × σ)
  create : Path → Bool → σ → Except Halt σ
  readdir : Path → σ → Except Halt (List FsEntry × σ)
  readmeta : Path → σ → Except Halt (Option FsEntry × σ)

/-- `mountpoint`. The path was moved and has no terminator: `stray` is what follows it up to
the next zero byte. -/
structure Mount (σ : Type) where
  calls : CallTable σ
  path : Path
  stray : List UInt8

section

variable {σ : Type}
variable {p : Path} {grow : ℕ → Grow UInt8} {mounts : List (Mount σ)} {m : Mount σ}

/-- The length that `fs_find_mnt` counts in a `u32`. -/
def Mount.len (m : Mount σ) : ℕ := (m.path.length + m.stray.length) % 2 ^ 32

/-- One round of the loop of `fs_find_mnt`. -/
def consider (p san : Path) (closest m : Mount σ) : Mount σ :=
  if san.length < m.path.length then closest
  else if strncmp p san m.len = 0 then
    if closest.path.length < m.path.length then m else closest
  else closest

/-- The string at `p + n`, where `behind` is what follows `p` in memory. -/
def tail (p behind : Path) (n : ℕ) : Path := ((p ++ 0 :: behind).drop n).takeWhile (· ≠ 0)

section

variable (grow : ℕ → Grow UInt8) (mounts : List (Mount σ)) (p behind : Path)

/-- `fs_find_mnt(p)`; `san` is destroyed in the end. -/
def findMnt : Except Halt (Mount σ) := do
  let san ← sanitizeString grow p
  match mounts with
  | [] => .error (.assertion "mountpts.size")
  | m :: _ => do
    san.free
    return mounts.foldl (consider p san.text) m

/-- What the calls of the layer have in common: the mount point and the path for it. -/
def resolve : Except Halt (Mount σ × Path) := do
  let m ← findMnt grow mounts p
  let path2 := tail p behind m.path.length
  return (m, if path2 = [] then [slash] else path2)

/-- `fs_create(path, mkdir)`. -/
def fsCreate (mkdir : Bool) (s : σ) : Except Halt σ := do
  let (m, path2) ← resolve grow mounts p behind
  let (present, s) ← m.calls.readmeta path2 s
  if present.isSome then .error (.fatal "File already exists!")
  else m.calls.create path2 mkdir s

/-- `fs_readmeta(p)`. -/
def fsReadmeta (s : σ) : Except Halt (Option FsEntry × σ) := do
  let (m, path2) ← resolve grow mounts p behind
  m.calls.readmeta path2 s

/-- `fs_readdir(p)`. -/
def fsReaddir (s : σ) : Except Halt (List FsEntry × σ) := do
  let (m, path2) ← resolve grow mounts p behind
  m.calls.readdir path2 s

/-- `fs_write(p, offset, bytes, buf)`. -/
def fsWrite (offset bytes buf : ℕ) (s : σ) : Except Halt (ℕ × σ) := do
  let (m, path2) ← resolve grow mounts p behind
  m.calls.write path2 offset bytes buf s

/-- `fs_read(p, offset, bytes, buf)`. -/
def fsRead (offset bytes buf : ℕ) (s : σ) : Except Halt (ℕ × σ) := do
  let (m, path2) ← resolve grow mounts p behind
  m.calls.read path2 offset bytes buf s

/-- The five calls go to `m`, with `path2`. -/
structure Dispatched (m : Mount σ) (path2 : Path) : Prop where
  read : ∀ offset bytes buf s,
    fsRead grow mounts p behind offset bytes buf s = m.calls.read path2 offset bytes buf s
  write : ∀ offset bytes buf s,
    fsWrite grow mounts p behind offset bytes buf s = m.calls.write path2 offset bytes buf s
  readdir : ∀ s, fsReaddir grow mounts p behind s = m.calls.readdir path2 s
  create : ∀ mkdir s s', m.calls.readmeta path2 s = .ok (none, s') →
    fsCreate grow mounts p behind mkdir s = m.calls.create path2 mkdir s'
  readmeta : ∀ s, fsReadmeta grow mounts p behind s = m.calls.readmeta path2 s

end

/-! ## The mount point of a path -/

/-- `pre` is a prefix of `san` that ends with a component. -/
def IsComponentwise (pre san : Path) : Prop :=
  ∃ rest, san = pre ++ rest ∧
    (pre.getLast? = some slash ∨ rest = [] ∨ rest.head? = some slash)

/-- The mount point with the longest componentwise prefix, and what is left of the path. -/
structure Target (mounts : List (Mount σ)) (san : Path) (m : Mount σ) (rem : Path) : Prop where
  mem : m ∈ mounts
  componentwise : IsComponentwise m.path san
  longest : ∀ m' ∈ mounts, IsComponentwise m'.path san → m'.path.length ≤ m.path.length
  rest : rem = if san.drop m.path.length = [] then [slash] else san.drop m.path.length

/-- The path agrees with its sanitized form on the length of `m`, and that is all
`fs_find_mnt` asks of a mount point. -/
def Agrees (p : Path) (m : Mount σ) : Prop :=
  m.path.length ≤ (pathSanitize p).length ∧ m.len ≠ 0 ∧ (pathSanitize p).take m.len <+: p

instance (p : Path) (m : Mount σ) : Decidable (Agrees p m) :=
  inferInstanceAs (Decidable (_ ∧ _ ≠ _ ∧ _))

/-- The mount points to choose from: the first one and those that agree. -/
def candidates (mounts : List (Mount σ)) (p : Path) : List (Mount σ) :=
  mounts.take 1 ++ mounts.filter (Agrees p ·)

/-- `r` is the longest path of a mount point that is a componentwise prefix. -/
structure IsLongest (mounts : List (Mount σ)) (san r : Path) : Prop where
  mem : ∃ m ∈ mounts, m.path = r
  componentwise : IsComponentwise r san
  longest : ∀ m ∈ mounts, IsComponentwise m.path san → m.path.length ≤ r.length

/-! ## What the loop chooses -/

/-- The longer one; the first of two of one length. -/
def longer (closest m : Mount σ) : Mount σ :=
  if closest.path.length < m.path.length then m else closest

theorem foldl_longer (ms : List (Mount σ)) : ∀ m : Mount σ,
    (∀ x ∈ m :: ms, x.path.length ≤ (ms.foldl longer m).path.length) ∧
      (m :: ms).find? (fun x => x.path.length = (ms.foldl longer m).path.length) =
        some (ms.foldl longer m) := by
  induction ms with
  | nil => simp
  | cons n ms ih =>
    intro m
    obtain ⟨hmax, hfind⟩ := ih (longer m n)
    rw [List.foldl_cons]
    generalize ms.foldl longer (longer m n) = y at hmax hfind ⊢
    have hrest : ∀ x ∈ ms, x.path.length ≤ y.path.length := fun x hx =>
      hmax x (List.mem_cons_of_mem _ hx)
    have hhead := hmax _ List.mem_cons_self
    unfold longer at hhead hfind
    by_cases hlt : m.path.length < n.path.length
    case pos =>
      rw [if_pos hlt] at hhead hfind
      refine ⟨?_, ?_⟩
      · simp only [List.forall_mem_cons]
        exact ⟨by omega, hhead, hrest⟩
      · rw [List.find?_cons_of_neg (by simp only [decide_eq_true_eq]; omega)]
        exact hfind
    case neg =>
      rw [if_neg hlt] at hhead hfind
      refine ⟨?_, ?_⟩
      · simp only [List.forall_mem_cons]
        exact ⟨hhead, by omega, hrest⟩
      · by_cases heq : m.path.length = y.path.length
        · rw [List.find?_cons_of_pos (by simpa using heq)] at hfind ⊢
          exact hfind
        · rw [List.find?_cons_of_neg (by simpa using heq)] at hfind ⊢
          rw [List.find?_cons_of_neg (by simp only [decide_eq_true_eq]; omega)]
          exact hfind

/-- `strncmp` with a part of the same path ends where the part ends. -/
theorem strncmp_sanitize (hp : 0 ∉ p) (n : ℕ) :
    strncmp p (pathSanitize p) n = 0 ↔ n ≠ 0 ∧ (pathSanitize p).take n <+: p := by
  have hsub := pathSanitize_sublist p
  have hle := hsub.length_le
  have hne : pathSanitize p = [] → p = [] := by
    cases p with
    | nil => exact fun _ => rfl
    | cons c p =>
      intro h
      unfold pathSanitize sanitizeLoop at h
      split at h <;> cases h
  by_cases hn : n ≤ (pathSanitize p).length
  · rw [strncmp_eq_zero hp (fun h => hp (hsub.subset h)) (by omega) hn]
    refine and_congr_right fun _ => ⟨fun h => h ▸ List.take_prefix n p, fun h => ?_⟩
    rw [List.prefix_iff_eq_take.mp h, List.length_take, Nat.min_eq_left hn]
  · have htake : (pathSanitize p).take n = pathSanitize p := List.take_of_length_le (by omega)
    have hiff : ∀ c : Prop, [Decidable c] → ((if c then 0 else 1) = 0 ↔ c) := by simp
    rw [strncmp_eq hp fun h => hp (hsub.subset h), hiff, htake]
    refine and_congr_right fun _ => ⟨?_, fun hpre => ?_⟩
    · rintro (hsame | hends | hends)
      · have hlong : (pathSanitize p ++ [0]).take n = pathSanitize p ++ [0] :=
          List.take_of_length_le (by rw [List.length_append, List.length_singleton]; omega)
        have hpre := (List.prefix_append (pathSanitize p) [0]).trans
          (hlong ▸ hsame ▸ List.take_prefix n (p ++ [0]))
        exact List.prefix_of_prefix_length_le hpre (List.prefix_append p [0]) hle
      · have := hends.2.2
        omega
      · exact hends.2.1
    · by_cases heq : pathSanitize p = p
      · exact .inl (by rw [heq])
      · have hlt : (pathSanitize p).length < p.length :=
          Nat.lt_of_le_of_ne hle fun hlen => heq (hsub.eq_of_length hlen)
        exact .inr (.inr ⟨fun hnil => heq (hnil.trans (hne hnil).symm), hpre, by omega⟩)

theorem consider_eq (hp : 0 ∉ p) (closest m : Mount σ) :
    consider p (pathSanitize p) closest m =
      if Agrees p m then longer closest m else closest := by
  unfold consider
  by_cases hlong : (pathSanitize p).length < m.path.length
  · rw [if_pos hlong, if_neg fun h => absurd h.1 (Nat.not_le.mpr hlong)]
  · have hagrees : Agrees p m ↔ strncmp p (pathSanitize p) m.len = 0 := by
      rw [strncmp_sanitize hp]
      exact and_iff_right (Nat.not_lt.mp hlong)
    rw [if_neg hlong]
    simp only [hagrees]
    rfl

/-- A mount point is chosen if the sanitized path survives. -/
theorem findMnt_iff (hlen : p.length + 17 < 2 ^ 64) : findMnt grow mounts p = .ok m ↔
      Survives grow p ∧ ∃ m₀, mounts.head? = some m₀ ∧
        mounts.foldl (consider p (pathSanitize p)) m₀ = m := by
  obtain ⟨hok, herror⟩ := sanitizeString_iff grow hlen
  constructor
  · intro h
    obtain ⟨san, hsan, h⟩ := bind_eq_ok.mp h
    cases mounts with
    | nil => cases h
    | cons m₀ ms =>
      obtain ⟨⟨⟩, hfree, h⟩ := bind_eq_ok.mp h
      have hsurvives : Survives grow p := by
        by_contra hnot
        exact herror hnot san hsan hfree
      obtain ⟨san', hsan', -, htext⟩ := hok hsurvives
      obtain rfl := Except.ok.inj (hsan.symm.trans hsan')
      rw [htext] at h
      exact ⟨hsurvives, m₀, rfl, Except.ok.inj h⟩
  · rintro ⟨hsurvives, m₀, hhead, hfold⟩
    obtain ⟨san, hsan, hfree, htext⟩ := hok hsurvives
    cases mounts with
    | nil => cases hhead
    | cons m₁ ms =>
      obtain rfl := Option.some.inj hhead
      unfold findMnt
      rw [hsan, ok_bind, ← hfold, ← htext]
      show (san.free >>= _) = _
      rw [hfree]
      rfl

/-- The choice is the first candidate of the greatest length. -/
theorem findMnt_eq_ok (hp : 0 ∉ p) (hlen : p.length + 17 < 2 ^ 64)
    (h : findMnt grow mounts p = .ok m) :
    m ∈ mounts ∧ (∀ x ∈ candidates mounts p, x.path.length ≤ m.path.length) ∧
      (candidates mounts p).find? (fun x => x.path.length = m.path.length) = some m := by
  obtain ⟨-, m₁, hhead, h⟩ := (findMnt_iff hlen).mp h
  cases mounts with
  | nil => cases hhead
  | cons m₀ ms =>
    obtain rfl := Option.some.inj hhead
    have hfold : ∀ (ns : List (Mount σ)) (c : Mount σ),
        ns.foldl (consider p (pathSanitize p)) c = (ns.filter (Agrees p ·)).foldl longer c := by
      intro ns c
      rw [List.foldl_filter]
      congr 1
      funext c m
      rw [consider_eq hp]
      simp only [decide_eq_true_eq]
    rw [hfold] at h
    obtain rfl := h
    obtain ⟨hmax, hfind⟩ := foldl_longer (((m₀ :: ms).filter (Agrees p ·))) m₀
    refine ⟨?_, hmax, hfind⟩
    rcases List.mem_cons.mp (List.mem_of_find?_eq_some hfind) with heq | hmem
    · rw [heq]
      exact List.mem_cons_self
    · exact (List.mem_filter.mp hmem).1

/-! ## Dispatch -/

section Dispatch

variable {grow : ℕ → Grow UInt8} {mounts : List (Mount σ)} {p behind san r : Path} {m : Mount σ}
  {path2 : Path}

theorem resolve_dispatched (h : resolve grow mounts p behind = .ok (m, path2)) :
    Dispatched grow mounts p behind m path2 := by
  constructor
  case create =>
    intro mkdir s s' hmeta
    rw [fsCreate, h, ok_bind]
    simp only [hmeta, ok_bind]
    rfl
  case read => intro offset bytes buf s; rw [fsRead, h, ok_bind]
  case write => intro offset bytes buf s; rw [fsWrite, h, ok_bind]
  case readdir => intro s; rw [fsReaddir, h, ok_bind]
  case readmeta => intro s; rw [fsReadmeta, h, ok_bind]

theorem IsComponentwise.isPrefix (h : IsComponentwise r san) : r <+: san := by
  obtain ⟨rest, rfl, -⟩ := h
  exact List.prefix_append r rest

theorem tail_eq_drop (hp : 0 ∉ p) {n : ℕ} (hn : n ≤ p.length) : tail p behind n = p.drop n := by
  have hdrop : ∀ x ∈ p.drop n, decide (x ≠ 0) = true := by
    intro x hx
    rw [decide_eq_true_eq]
    rintro rfl
    exact hp (List.mem_of_mem_drop hx)
  unfold tail
  rw [List.drop_append_of_le_length hn, List.takeWhile_append_of_pos hdrop,
    List.takeWhile_cons_of_neg (by decide), List.append_nil]

/-- The rest of the path as given is the rest of the sanitized one only if nothing was
sanitized, or just one slash behind the mount point. -/
theorem rest_iff (hr : r <+: pathSanitize p) :
    ((if p.drop r.length = [] then [slash] else p.drop r.length) =
      if (pathSanitize p).drop r.length = [] then [slash] else (pathSanitize p).drop r.length) ↔
    pathSanitize p = p ∨ pathSanitize p = r ∧ p.drop r.length = [slash] := by
  have hsub := pathSanitize_sublist p
  have hle := hsub.length_le
  have hrle := hr.length_le
  by_cases hsan : pathSanitize p = p
  · rw [hsan]
    exact iff_of_true rfl (.inl rfl)
  · have hlt : (pathSanitize p).length < p.length :=
      Nat.lt_of_le_of_ne hle fun heq => hsan (hsub.eq_of_length heq)
    have hne : p.drop r.length ≠ [] := fun hnil => by
      rw [List.drop_eq_nil_iff] at hnil
      omega
    rw [if_neg hne, or_iff_right hsan]
    by_cases heq : pathSanitize p = r
    · rw [if_pos (by rw [heq, List.drop_length]), and_iff_right heq]
    · rw [if_neg fun hnil => heq ?_]
      · refine iff_of_false (fun hdrop => ?_) fun h => heq h.1
        have := congrArg List.length hdrop
        rw [List.length_drop, List.length_drop] at this
        omega
      · rw [List.drop_eq_nil_iff] at hnil
        exact (hr.eq_of_length (by omega)).symm

/-- **Mount resolution.** The calls go to the mount point with the longest componentwise
prefix, with the rest of the sanitized path, exactly when no candidate is longer than
that prefix, it is the first candidate of its length, the path has no doubled slash
(but for one behind the mount point), and the sanitized path survives. -/
theorem fs_dispatch_iff (hp : 0 ∉ p) (hlen : p.length + 17 < 2 ^ 64) :
    (∃ m path2, resolve grow mounts p behind = .ok (m, path2) ∧
      Target mounts (pathSanitize p) m path2 ∧ Dispatched grow mounts p behind m path2) ↔
    ∃ r, IsLongest mounts (pathSanitize p) r ∧
      (∀ m ∈ candidates mounts p, m.path.length ≤ r.length) ∧
      ((candidates mounts p).find? fun m => m.path.length = r.length).map Mount.path = some r ∧
      (pathSanitize p = p ∨ pathSanitize p = r ∧ p.drop r.length = [slash]) ∧
      Survives grow p := by
  have htail : ∀ {r : Path}, r <+: pathSanitize p → tail p behind r.length = p.drop r.length :=
    fun hr => tail_eq_drop hp (hr.length_le.trans (pathSanitize_sublist p).length_le)
  constructor
  · rintro ⟨m, path2, hres, htarget, -⟩
    obtain ⟨m', hfind, hpair⟩ := bind_eq_ok.mp hres
    obtain ⟨rfl, rfl⟩ := Prod.mk.inj (Except.ok.inj hpair)
    obtain ⟨hmem, hmax, hfirst⟩ := findMnt_eq_ok hp hlen hfind
    have hpre := htarget.componentwise.isPrefix
    refine ⟨m'.path, ⟨⟨m', hmem, rfl⟩, htarget.componentwise, htarget.longest⟩, hmax, ?_, ?_,
      ((findMnt_iff hlen).mp hfind).1⟩
    · rw [hfirst]
      rfl
    · have hrest := htarget.rest
      rw [htail hpre] at hrest
      exact (rest_iff hpre).mp hrest
  · rintro ⟨r, hr, hmax, hfirst, hslash, hsurvives⟩
    obtain ⟨z, hz, rfl⟩ := Option.map_eq_some_iff.mp hfirst
    obtain ⟨m, hfind⟩ : ∃ m, findMnt grow mounts p = .ok m := by
      cases mounts with
      | nil => cases hz
      | cons m₀ ms => exact ⟨_, (findMnt_iff hlen).mpr ⟨hsurvives, m₀, rfl, rfl⟩⟩
    obtain ⟨hmem, hmax', hfirst'⟩ := findMnt_eq_ok hp hlen hfind
    have hsame : m.path.length = z.path.length := Nat.le_antisymm
      (hmax m (List.mem_of_find?_eq_some hfirst')) (hmax' z (List.mem_of_find?_eq_some hz))
    rw [hsame, hz] at hfirst'
    obtain rfl := Option.some.inj hfirst'
    have hpre := hr.componentwise.isPrefix
    have hres : resolve grow mounts p behind = .ok (z, _) := bind_eq_ok.mpr ⟨z, hfind, rfl⟩
    refine ⟨z, _, hres, ⟨hmem, hr.componentwise, hr.longest, ?_⟩, resolve_dispatched hres⟩
    rw [htail hpre]
    exact (rest_iff hpre).mpr hslash

end Dispatch

end

/-- A file system that does nothing. -/
def idle : CallTable Unit where
  read _ _ _ _ s := .ok (0, s)
  write _ _ _ _ s := .ok (0, s)
  create _ _ s := .ok s
  readdir _ s := .ok ([], s)
  readmeta _ s := .ok (none, s)

/-- Mounted at "/". -/
def rootMount : Mount Unit := ⟨idle, [0x2f], []⟩

/-- Mounted at "/mnt", with two bytes behind the path. -/
def mntMount : Mount Unit := ⟨idle, [0x2f, 0x6d, 0x6e, 0x74], [0xbc, 0xbc]⟩

/-- The allocator never extends a block in place. -/
def elsewhere (_ : ℕ) : Grow UInt8 := ⟨false, fun _ => 0⟩

/-- "/mnt/a" goes to "/mnt". -/
theorem fs_dispatch_iff_mnt :
    ∃ m path2, resolve elsewhere [rootMount, mntMount] [0x2f, 0x6d, 0x6e, 0x74, 0x2f, 0x61] [] =
        .ok (m, path2) ∧
      Target [rootMount, mntMount] [0x2f, 0x6d, 0x6e, 0x74, 0x2f, 0x61] m path2 ∧
      Dispatched elsewhere [rootMount, mntMount] [0x2f, 0x6d, 0x6e, 0x74, 0x2f, 0x61] [] m
        path2 := by
  refine (fs_dispatch_iff (by decide) (by decide)).mpr ⟨mntMount.path, ⟨?_, ?_, ?_⟩, ?_, ?_, ?_,
    by decide⟩
  · exact ⟨mntMount, by simp, rfl⟩
  · exact ⟨[0x2f, 0x61], rfl, Or.inr (Or.inr rfl)⟩
  · intro m hm _
    rcases List.mem_pair.mp hm with rfl | rfl <;> decide
  · decide
  · decide
  · exact Or.inl rfl

/-- "/etc/p" goes to "/mnt" too, as "/p"; of "//a" the root gets "/a", not "a"; and a path of
16 characters goes nowhere. -/
theorem other_mount :
    resolve elsewhere [rootMount, mntMount] [0x2f, 0x65, 0x74, 0x63, 0x2f, 0x70] [] =
        .ok (mntMount, [0x2f, 0x70]) ∧
      Target [rootMount, mntMount] (pathSanitize [0x2f, 0x65, 0x74, 0x63, 0x2f, 0x70]) rootMount
        [0x65, 0x74, 0x63, 0x2f, 0x70] ∧
      ¬ IsComponentwise mntMount.path (pathSanitize [0x2f, 0x65, 0x74, 0x63, 0x2f, 0x70]) ∧
    resolve elsewhere [rootMount] [0x2f, 0x2f, 0x61] [] = .ok (rootMount, [0x2f, 0x61]) ∧
      Target [rootMount] (pathSanitize [0x2f, 0x2f, 0x61]) rootMount [0x61] ∧
    resolve elsewhere [rootMount] (0x2f :: List.replicate 15 0x61) [] = .error Str.corrupted := by
  have hmnt : ¬ IsComponentwise mntMount.path
      (pathSanitize [0x2f, 0x65, 0x74, 0x63, 0x2f, 0x70]) := fun h =>
    absurd h.isPrefix (by decide)
  refine ⟨rfl, ⟨by simp, ⟨_, rfl, Or.inl rfl⟩, ?_, rfl⟩, hmnt, rfl,
    ⟨by simp, ⟨_, rfl, Or.inl rfl⟩, ?_, rfl⟩, rfl⟩
  · intro m hm hpre
    rcases List.mem_pair.mp hm with rfl | rfl
    · exact Nat.le_refl _
    · exact absurd hpre hmnt
  · intro m hm _
    rw [List.mem_singleton.mp hm]

end Fs

end NeptunOS
