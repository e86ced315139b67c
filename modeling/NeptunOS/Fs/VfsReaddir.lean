import NeptunOS.Fs.VfsTree
import NeptunOS.Storage.HashMapIter

/-!
# Listing a directory of the memory file system

`vfs_readdir` iterates over the hash map of a directory and lists one `fs_entry` for each
pair it sees. The entry is a temporary with a copy of the name, and a name of 16 characters
does not survive its destruction (`iteration_exhaustive`).
-/

namespace NeptunOS

namespace Vfs

open Fs Stepwise

/-- `content.active`; `inv` without an active element. -/
def Content.active : Content → ℕ
  | inactive => 255
  | dir _ => 0
  | file _ => 1

/-- `fs_entry { e.name, (bool)e.content.active }`. -/
def fsEntry (e : Entry) : FsEntry := ⟨e.name, decide (e.content.active ≠ 0)⟩

/-- `ret.push_back(fs_entry { .. })` for each pair; the temporary is destroyed. -/
def listFiles : List (Path × Entry) → Except Halt (List FsEntry)
  | [] => .ok []
  | file :: files => do
    Str.destroyCopy file.2.name.length
    let ret ← listFiles files
    return fsEntry file.2 :: ret

/-- `vfs_readdir(f, path)` in at most `fuel` rounds; `behind` lies behind the buckets. -/
def readdir (root : Entry) (path : Path) (behind : Option ℕ) (fuel : ℕ) :
    Except Halt (List FsEntry) := do
  let p ← lookup root path
  let (_, e) ← derefOpt root p
  let dir ← e.content.getDir
  let files ← dir.visit behind fuel
  listFiles files

theorem listFiles_eq {files : List (Path × Entry)} :
    listFiles files = if ∃ file ∈ files, Str.Spills file.2.name.length
      then .error Str.corrupted else .ok (files.map fun file => fsEntry file.2) := by
  induction files with
  | nil => rfl
  | cons file files ih =>
    rw [listFiles, ih, Str.destroyCopy]
    simp only [List.exists_mem_cons_iff]
    by_cases hfile : Str.Spills file.2.name.length
    · rw [if_pos hfile]
      exact (if_pos (.inl hfile)).symm
    · rw [if_neg hfile, ok_bind]
      by_cases hrest : ∃ file ∈ files, Str.Spills file.2.name.length
      · rw [if_pos hrest, if_pos (.inr hrest)]
        rfl
      · rw [if_neg hrest, if_neg (not_or.mpr ⟨hfile, hrest⟩)]
        rfl

section

variable {path nm : Path} {m : HashMap Path Entry}

theorem readdir_eq {behind : Option ℕ} {fuel : ℕ} {files : List (Path × Entry)}
    (hlookup : lookup ⟨nm, .dir m⟩ path = .ok (some []))
    (hvisit : m.visit behind fuel = .ok files) :
    readdir ⟨nm, .dir m⟩ path behind fuel = listFiles files := by
  unfold readdir
  rw [hlookup, ok_bind]
  show (m.visit behind fuel >>= _) = _
  rw [hvisit]
  rfl

/-- **Iteration is exhaustive.** In every map that uses lead to, the iteration ends after at
most as many rounds as there are buckets and has seen every stored pair once, whatever lies
behind the buckets. The root of a file system is listed in this way if and only if no name in
it has 16 characters, or another positive multiple of 16. -/
theorem iteration_exhaustive {K V : Type} [Hash K] [DecidableEq K] [Inhabited V] :
    (∀ (s : ℕ) (ops : List (HashMap.Op K V)) (as : List (HashMap.Answer V)) (m : HashMap K V),
      s % 2 ^ 32 ≠ 0 → (HashMap.init s).run ops = .ok (as, m) →
      ∃ pairs, HashMap.Lists (HashMap.Table.after (fun _ => none) ops) pairs ∧
        ∀ behind fuel, m.size ≤ fuel → m.visit behind fuel = .ok pairs) ∧
    ∀ (path nm : Path) (m : HashMap Path Entry) (c : ℕ → Option (Path × Entry))
      (t : HashMap.Table Path Entry), HashMap.Stores m c t →
      lookup ⟨nm, .dir m⟩ path = .ok (some []) →
      ((∃ files, HashMap.Lists t files ∧ ∀ behind fuel, m.size ≤ fuel →
          readdir ⟨nm, .dir m⟩ path behind fuel = .ok (files.map fun file => fsEntry file.2)) ↔
        ∀ k e, t k = some e → ¬ Str.Spills e.name.length) := by
  constructor
  · intro s ops as m hs hrun
    obtain ⟨c, hstores⟩ := HashMap.run_stores hs hrun
    exact ⟨_, hstores.lists, fun behind fuel hfuel => hstores.visit behind hfuel⟩
  · intro path nm m c t hstores hlookup
    have hlists := hstores.lists
    have hread : ∀ behind fuel, m.size ≤ fuel → readdir ⟨nm, .dir m⟩ path behind fuel =
        listFiles ((List.range m.size).filterMap c) := fun behind fuel hfuel =>
      readdir_eq hlookup (hstores.visit behind hfuel)
    constructor
    · rintro ⟨files, -, hlisted⟩ k e hk hspills
      have heq := hlisted none m.size (Nat.le_refl _)
      rw [hread _ _ (Nat.le_refl _), listFiles_eq,
        if_pos ⟨(k, e), (hlists.all k e).mpr hk, hspills⟩] at heq
      cases heq
    · intro hnames
      refine ⟨_, hlists, fun behind fuel hfuel => ?_⟩
      rw [hread behind fuel hfuel, listFiles_eq, if_neg]
      rintro ⟨⟨k, e⟩, hmem, hspills⟩
      exact hnames k e ((hlists.all k e).mp hmem) hspills

end

/-- Two of three keys are left, and the root of a file system with one file is listed. -/
theorem iteration_exhaustive_three_keys :
    (∃ m : HashMap UInt64 ℕ, (HashMap.init 4).run [.set 5 (.lvalue 0) 50, .set 2 (.lvalue 0) 20,
        .set 7 (.lvalue 0) 70, .remove 2] = .ok ([.done, .done, .done, .done], m) ∧
      ∃ pairs, HashMap.Lists (HashMap.Table.after (fun _ => none) [.set 5 (.lvalue 0) 50,
          .set 2 (.lvalue 0) 20, .set 7 (.lvalue 0) 70, .remove 2]) pairs ∧
        ∀ behind, m.visit behind 4 = .ok pairs) ∧
    ∃ m files, create mount [0x2f, 0x61] false = .ok ⟨[], .dir m⟩ ∧
      ∀ behind, readdir ⟨[], .dir m⟩ [0x2f] behind m.size = .ok files := by
  have hexhaustive := @iteration_exhaustive UInt64 ℕ _ _ _
  constructor
  · obtain ⟨m, hrun, hsize⟩ : ∃ m : HashMap UInt64 ℕ, (HashMap.init 4).run
        [.set 5 (.lvalue 0) 50, .set 2 (.lvalue 0) 20, .set 7 (.lvalue 0) 70, .remove 2] =
          .ok ([.done, .done, .done, .done], m) ∧ m.size = 4 := ⟨_, rfl, rfl⟩
    obtain ⟨pairs, hlists, hvisit⟩ := hexhaustive.1 4 _ _ m (by decide) hrun
    exact ⟨m, hrun, pairs, hlists, fun behind => hvisit behind 4 (Nat.le_of_eq hsize)⟩
  · have hsplit : Split [0x2f, 0x61] [0x2f] [0x61] := ⟨rfl, by decide, by decide, .inr ⟨[], rfl⟩⟩
    obtain ⟨m, hedit, hcreate⟩ := create_eq (by decide) hsplit (mount_parent [0x61]) false
    obtain ⟨c, hs⟩ := hedit.stores
    obtain ⟨files, -, hread⟩ := (hexhaustive.2 [0x2f] [] m c _ hs rfl).mpr fun k e hk => by
      by_cases hname : k = [0x61]
      · rw [hname, Function.update_self] at hk
        obtain rfl := Option.some.inj hk
        decide
      · rw [Function.update_of_ne hname] at hk
        cases hk
    exact ⟨m, _, hcreate, fun behind => hread behind m.size (Nat.le_refl _)⟩

/-- The root cannot be listed with a file of 16 letters in it. And "/d" is listed without its
file "f" once other users of the heap have got its array. -/
theorem listing_incomplete :
    (create mount (0x2f :: List.replicate 16 0x61) false).toOption.isSome = true ∧
    (do
      let root ← create mount (0x2f :: List.replicate 16 0x61) false
      readdir root [0x2f] none 1024) = .error Str.corrupted ∧
    (do
      let root ← create mount [0x2f, 0x64] true
      let root ← create root [0x2f, 0x64, 0x2f, 0x66] false
      readdir (reuse root fun _ _ => .empty) [0x2f, 0x64] none 1024) = .ok [] := by
  decide +kernel

end Vfs

end NeptunOS
