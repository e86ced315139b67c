import NeptunOS.Fs.FatVolume

/-!
# `fat32_readdir` on arbitrary volumes

Everything that bounds the loops of `fat32_readdir` comes from the disk. `Linked` and
`walkable` say what the FAT and the directory have to be like, and `readdir_robust_iff`
that there is no other way to get through. The calls of `fat32_lookup` in front have to stay
inside their own buffers as well.
-/

namespace NeptunOS.Fat

open Function Fs Stepwise

/-! ## What the disk has to be like -/

/-- `h->fat[cluster] & 0x0fffffff`, wherever that is. -/
def fatNext (h : Handle) (c : ℕ) : ℕ := leBytes h.fat (4 * c) 4 % 2 ^ 28

/-- The chain from `c` stays inside the FAT and comes to an end. -/
inductive Linked (h : Handle) : ℕ → List ℕ → Prop
  | last {c : ℕ} (hin : 4 * c + 4 ≤ h.fatsize) (hend : 0x0ffffff8 ≤ fatNext h c) : Linked h c [c]
  | cons {c : ℕ} {cs : List ℕ} (hin : 4 * c + 4 ≤ h.fatsize) (hmore : fatNext h c < 0x0ffffff8)
      (htail : Linked h (fatNext h c) cs) : Linked h c (c :: cs)

/-- The short name that begins `mem` is refused at its first character, or a blank ends
it and it can be copied. -/
def endsName (mem : List UInt8) : Bool :=
  mem.headD 0 = 0x2e ∨ mem.headD 0 = 0x20 ∨ 128 < mem.headD 0 ∨
    0x20 ∈ mem ∧ ¬ Str.Spills (mem.takeWhile (· ≠ 0x20)).length

/-- The directory has an end, and in front of it the pieces of long names fit into the
buffer and the short names have an end. `σ` is the long name in memory. -/
def walkable : Option (List UInt8) → List Slot → Bool
  | _, [] => false
  | σ, e :: rest =>
    if e.attrs = 0 then true
    else if e.isLfn then 1 ≤ e.order && e.order ≤ 19 && walkable (remember σ e) rest
    else if e.isVolume then walkable σ rest
    else (σ.isSome || endsName ((e :: rest).flatMap Slot.bytes)) && walkable none rest

/-- The function returns, or halts with a message of its own. -/
def Explicit {α : Type} : Except Halt α → Prop
  | .ok _ | .error (.fatal _) | .error (.assertion _) => True
  | _ => False

theorem Explicit.of_bind {α β : Type} {x : Except Halt α} {f : α → Except Halt β}
    (h : Explicit (x >>= f)) : Explicit x := by
  cases x with
  | ok a => trivial
  | error e => cases e <;> exact h

/-! ## The entries -/

section Entries

variable {L : ℕ → UInt8} {σ : Option (List UInt8)} {slots : List Slot} {mem : List UInt8}

theorem strncmp_head {s₁ s₂ : List UInt8} {k : ℕ} (h : strncmp s₁ s₂ k = 0) :
    s₁.headD 0 = s₂.headD 0 := by
  by_contra hne
  rw [strncmp, if_pos (.inr hne)] at h
  cases h

theorem getname_dot {mem : List UInt8} (hdot : mem.headD 0 = 0x2e) : getname [] mem = .ok none := by
  have heq : strncmp mem [0x2e] 1 = 0 := by
    cases mem with
    | nil => exact absurd hdot (by decide)
    | cons a mem =>
      obtain rfl : a = 0x2e := hdot
      rfl
  rw [getname, if_neg (not_not_intro rfl), if_pos heq]

theorem listedName_cases (mem : List UInt8) :
    endsName mem = true ∧ (∃ r, listedName [] mem = .ok r) ∨
      endsName mem = false ∧ ¬ Explicit (listedName [] mem) := by
  have hrefused : ∀ {mem}, getname [] mem = .ok none → listedName [] mem = .ok none :=
    fun h => by rw [listedName, h]; rfl
  by_cases hdot : mem.headD 0 = 0x2e
  · exact .inl ⟨decide_eq_true (.inl hdot), none, hrefused (getname_dot hdot)⟩
  have hget : getname [] mem = if mem.headD 0 = 0x20 then .ok none
      else if 128 < mem.headD 0 then .ok none
      else if 0x20 ∉ mem then .error (.exception "read behind the buffer")
      else .ok (if mem.takeWhile (· ≠ 0x20) = [] then none
        else some (mem.takeWhile (· ≠ 0x20))) := by
    rw [getname, if_neg (not_not_intro rfl), if_neg fun h => hdot (strncmp_head h),
      if_neg fun h => hdot (strncmp_head h)]
  by_cases hblank : mem.headD 0 = 0x20
  · rw [if_pos hblank] at hget
    exact .inl ⟨decide_eq_true (.inr (.inl hblank)), none, hrefused hget⟩
  by_cases hbig : 128 < mem.headD 0
  · rw [if_neg hblank, if_pos hbig] at hget
    exact .inl ⟨decide_eq_true (.inr (.inr (.inl hbig))), none, hrefused hget⟩
  rw [if_neg hblank, if_neg hbig] at hget
  have hends : endsName mem =
      decide (0x20 ∈ mem ∧ ¬ Str.Spills (mem.takeWhile (· ≠ 0x20)).length) := by
    simp only [endsName, hdot, hblank, hbig, false_or]
  rw [hends, listedName, hget]
  by_cases hmem : 0x20 ∈ mem
  · have hcopy : ((if mem.takeWhile (· ≠ 0x20) = [] then none
        else some (mem.takeWhile (· ≠ 0x20))).getD []).length =
        (mem.takeWhile (· ≠ 0x20)).length := by
      split
      case isTrue hnil => rw [hnil]; rfl
      case isFalse => rfl
    rw [if_neg (not_not_intro hmem), ok_bind, if_pos rfl, hcopy, Str.destroyCopy]
    by_cases hspills : Str.Spills (mem.takeWhile (· ≠ 0x20)).length
    · rw [if_pos hspills]
      exact .inr ⟨decide_eq_false fun h => h.2 hspills, id⟩
    · rw [if_neg hspills]
      exact .inl ⟨decide_eq_true ⟨hmem, hspills⟩, _, rfl⟩
  · rw [if_pos hmem]
    exact .inr ⟨decide_eq_false fun h => hmem h.1, id⟩

/-- The name of an entry, with or without a long name in memory. -/
theorem listedName_holds (hσ : Holds L σ) (mem : List UInt8) :
    (σ.isSome || endsName mem) = true ∧ (∃ r, listedName (cstr L) mem = .ok r) ∨
      (σ.isSome || endsName mem) = false ∧ ¬ Explicit (listedName (cstr L) mem) := by
  cases σ with
  | none =>
    rw [cstr_nil.mpr hσ]
    exact listedName_cases mem
  | some x =>
    rw [listedName, getname, if_pos hσ.cstr_ne, ok_bind, if_neg hσ.cstr_ne]
    exact .inl ⟨rfl, _, rfl⟩

theorem storeLfn_halts {e : Slot} (h : (decide (1 ≤ e.order) && decide (e.order ≤ 19)) = false) :
    ∃ msg, storeLfn e L = .error (.exception msg) := by
  rw [Bool.and_eq_false_iff, decide_eq_false_iff_not, decide_eq_false_iff_not] at h
  refine ⟨_, if_pos ?_⟩
  omega

/-- The listing gets through exactly where the directory is `walkable`. -/
theorem listLoop_cases (hσ : Holds L σ) :
    walkable σ slots = true ∧ (∃ es, listLoop slots L = .ok es) ∨
      walkable σ slots = false ∧ ¬ Explicit (listLoop slots L) := by
  induction slots generalizing L σ with
  | nil => exact .inr ⟨rfl, id⟩
  | cons e slots ih =>
    rw [walkable, listLoop]
    by_cases hattrs : e.attrs = 0
    · rw [if_pos hattrs, if_pos hattrs]
      exact .inl ⟨rfl, _, rfl⟩
    · rw [if_neg hattrs, if_neg hattrs]
      by_cases hlfn : e.isLfn = true
      · rw [if_pos hlfn, if_pos hlfn]
        cases horder : (decide (1 ≤ e.order) && decide (e.order ≤ 19)) with
        | false =>
          obtain ⟨msg, hmsg⟩ := @storeLfn_halts L e horder
          rw [hmsg]
          exact .inr ⟨rfl, id⟩
        | true =>
          rw [Bool.and_eq_true, decide_eq_true_eq, decide_eq_true_eq] at horder
          rw [storeLfn_eq horder.1 horder.2, ok_bind, Bool.true_and]
          exact ih (hσ.store hlfn horder.1)
      · rw [if_neg hlfn, if_neg hlfn]
        by_cases hvolume : e.isVolume = true
        · rw [if_pos hvolume, if_pos hvolume]
          exact ih hσ
        · rw [if_neg hvolume, if_neg hvolume]
          rcases listedName_holds hσ ((e :: slots).flatMap Slot.bytes) with
            ⟨hname, r, hr⟩ | ⟨hname, hhalt⟩
          · have hreset : Holds (update L 0 0) none := update_self 0 0 L
            rw [hname, hr, ok_bind, Bool.true_and]
            rcases ih hreset with ⟨hwalk, es, hes⟩ | ⟨hwalk, hhalt⟩
            · rw [hes]
              exact .inl ⟨hwalk, _, rfl⟩
            · exact .inr ⟨hwalk, fun hrun => hhalt hrun.of_bind⟩
          · rw [hname, Bool.false_and]
            exact .inr ⟨rfl, fun hrun => hhalt hrun.of_bind⟩

end Entries

/-! ## The chain -/

section Links

variable {d : Disk} {h : Handle} {bpc c fuel : ℕ} {cs : List ℕ}

theorem fatent_eq (hin : 4 * c + 4 ≤ h.fatsize) : fatent h c = .ok (fatNext h c) := if_pos hin

theorem fatent_cases (h : Handle) (c : ℕ) : 4 * c + 4 ≤ h.fatsize ∧ fatent h c = .ok (fatNext h c) ∨
      h.fatsize < 4 * c + 4 ∧ ∃ msg, fatent h c = .error (.exception msg) := by
  by_cases hin : 4 * c + 4 ≤ h.fatsize
  · exact .inl ⟨hin, fatent_eq hin⟩
  · exact .inr ⟨Nat.not_le.mp hin, _, if_neg hin⟩

/-- What is counted is the chain. -/
theorem Linked.count_eq (hbpc : bpc < 2 ^ 32) (hlinked : Linked h c cs) (hfuel : cs.length ≤ fuel) :
    chainLoop d h bpc false fuel c 0 (2 ^ 32 - 1) = .ok ([], cs.length * bpc) := by
  have hmin : min (2 ^ 32 - 1) bpc = bpc := by omega
  induction hlinked generalizing fuel with
  | last hin hend =>
    obtain ⟨f, rfl⟩ := Nat.exists_eq_succ_of_ne_zero (Nat.ne_zero_of_lt hfuel)
    rw [chainLoop_last rfl (fatent_eq hin) hend (by decide), hmin, List.length_singleton,
      Nat.one_mul]
  | @cons c cs hin hmore htail ih =>
    obtain ⟨f, rfl⟩ := Nat.exists_eq_succ_of_ne_zero (Nat.ne_zero_of_lt hfuel)
    have hrest := ih (Nat.le_of_succ_le_succ hfuel)
    rw [chainLoop_cons rfl (fatent_eq hin) hmore (by decide) hrest, hmin, List.length_cons,
      Nat.succ_mul, Nat.add_comm]
    rfl

/-- Where the count comes to an end, there is a chain; otherwise it runs out of the FAT or
goes on forever. -/
theorem linked_of_count (hrun : Explicit (chainLoop d h bpc false fuel c 0 (2 ^ 32 - 1))) :
    ∃ cs, Linked h c cs ∧ cs.length ≤ fuel := by
  induction fuel generalizing c with
  | zero => exact hrun.elim
  | succ fuel ih =>
    have hdata : readCluster d h false c 0 (min (2 ^ 32 - 1) bpc) = .ok [] := rfl
    rcases fatent_cases h c with ⟨hin, hnext⟩ | ⟨-, msg, hmsg⟩
    · by_cases hend : 0x0ffffff8 ≤ fatNext h c
      · exact ⟨[c], .last hin hend, Nat.le_add_left 1 fuel⟩
      · have hmore := Nat.not_le.mp hend
        rw [chainLoop_more hdata hnext hmore (by decide)] at hrun
        obtain ⟨cs, hcs, hlen⟩ := ih hrun.of_bind
        exact ⟨c :: cs, .cons hin hmore hcs, Nat.succ_le_succ hlen⟩
    · rw [chainLoop, if_neg (by decide), Nat.sub_zero] at hrun
      simp only [hdata, hmsg, ok_bind] at hrun
      exact hrun.elim

/-- What is read of a cluster. -/
def clusterRead (d : Disk) (h : Handle) (bpc c : ℕ) : List UInt8 :=
  (List.range bpc).map (d.read (wadd h.dataoffset ((c - 2) * 512 % 2 ^ 32)) bpc)

theorem readCluster_cases (d : Disk) (h : Handle) (bpc c : ℕ) :
    2 ≤ c ∧ readCluster d h true c 0 bpc = .ok (clusterRead d h bpc c) ∨
      c < 2 ∧ ∃ msg, readCluster d h true c 0 bpc = .error (.assertion msg) := by
  rw [readCluster, if_pos rfl, diskoffset]
  by_cases hc : c < 2
  · rw [if_pos hc]
    exact .inr ⟨hc, _, rfl⟩
  · rw [if_neg hc, ok_bind, wadd_zero (wadd_lt _ _)]
    exact .inl ⟨Nat.not_lt.mp hc, rfl⟩

/-- The chain is read, up to a cluster that `diskoffset` refuses. -/
theorem Linked.read_cases (hbpc : 0 < bpc) (hlinked : Linked h c cs) (hfuel : cs.length ≤ fuel) :
    (∀ x ∈ cs, 2 ≤ x) ∧ chainLoop d h bpc true fuel c 0 (cs.length * bpc) =
        .ok (cs.flatMap (clusterRead d h bpc), cs.length * bpc) ∨
      (∃ x ∈ cs, x < 2) ∧
        ∃ msg, chainLoop d h bpc true fuel c 0 (cs.length * bpc) = .error (.assertion msg) := by
  induction hlinked generalizing fuel with
  | @last c hin hend =>
    obtain ⟨f, rfl⟩ := Nat.exists_eq_succ_of_ne_zero (Nat.ne_zero_of_lt hfuel)
    rw [List.length_singleton, Nat.one_mul]
    rcases readCluster_cases d h bpc c with ⟨hc, hdata⟩ | ⟨hc, msg, hmsg⟩
    · rw [← Nat.min_self bpc] at hdata
      rw [chainLoop_last hdata (fatent_eq hin) hend (Nat.ne_of_gt hbpc), Nat.min_self,
        List.flatMap_singleton]
      refine .inl ⟨fun x hx => ?_, rfl⟩
      rw [List.mem_singleton.mp hx]
      exact hc
    · refine .inr ⟨⟨c, List.mem_cons_self, hc⟩, msg, ?_⟩
      rw [chainLoop, if_neg (Nat.ne_of_gt hbpc), Nat.sub_zero, Nat.min_self]
      simp only [hmsg]
      rfl
  | @cons c cs hin hmore htail ih =>
    obtain ⟨f, rfl⟩ := Nat.exists_eq_succ_of_ne_zero (Nat.ne_zero_of_lt hfuel)
    have hlen : (c :: cs).length * bpc = cs.length * bpc + bpc := by
      rw [List.length_cons, Nat.succ_mul]
    have hpos : cs.length * bpc + bpc ≠ 0 := by omega
    have hmin : min (cs.length * bpc + bpc) bpc = bpc := Nat.min_eq_right (Nat.le_add_left _ _)
    rw [hlen]
    rcases readCluster_cases d h bpc c with ⟨hc, hdata⟩ | ⟨hc, msg, hmsg⟩
    · rw [← hmin] at hdata
      rcases ih (Nat.le_of_succ_le_succ hfuel) with ⟨hcs, hrest⟩ | ⟨⟨x, hx, hlt⟩, msg, hmsg⟩
      · rw [chainLoop_cons hdata (fatent_eq hin) hmore hpos
          (by rw [if_pos rfl, hmin, Nat.add_sub_cancel]; exact hrest), hmin, Nat.add_comm,
          List.flatMap_cons]
        refine .inl ⟨fun x hx => ?_, rfl⟩
        rcases List.mem_cons.mp hx with rfl | hx
        · exact hc
        · exact hcs x hx
      · refine .inr ⟨⟨x, List.mem_cons_of_mem c hx, hlt⟩, msg, ?_⟩
        rw [chainLoop_more hdata (fatent_eq hin) hmore hpos, if_pos rfl, hmin, Nat.add_sub_cancel]
        rw [hmsg]
        rfl
    · refine .inr ⟨⟨c, List.mem_cons_self, hc⟩, msg, ?_⟩
      rw [chainLoop, if_neg hpos, Nat.sub_zero, hmin]
      simp only [hmsg]
      rfl

end Links

/-! ## The whole function -/

section Readdir

variable {d : Disk} {offset fuel : ℕ} {h : Handle} {path : Path} {e : Slot} {area : ℕ → UInt8}
  {cs : List ℕ}

theorem lookup_slash (d : Disk) (h : Handle) :
    lookup d h [slash] = .ok (readSlots d h.dataoffset 0).patch := by
  simp [lookup, lookupLoop]

/-- The slots that are listed. -/
def listedSlots (d : Disk) (h : Handle) (cs : List ℕ) : List Slot :=
  slotsOf (cs.flatMap (clusterRead d h (clusterBytes h.bpb)))

/-- The directory `e` behind the two lookups. -/
theorem readdir_eq (hlook : lookup d h path = .ok e) : readdir d h fuel area path =
      (do
        let (_, bytes) ← chainLoop d h (clusterBytes h.bpb) false fuel e.cluster 0 (2 ^ 32 - 1)
        let (tmp, _) ← chainLoop d h (clusterBytes h.bpb) true fuel e.cluster 0 bytes
        listLoop (slotsOf tmp) (update area 0 0)) := by
  simp only [readdir, lookup_slash, hlook, ok_bind, chainread, Nat.zero_div, Nat.zero_mod, skipLoop]
  rfl

/-- Along a chain, `fat32_readdir` halts at the assertion of `diskoffset` or comes to its
entries. -/
theorem Linked.readdir_cases (hpos : 0 < clusterBytes h.bpb) (hlt : clusterBytes h.bpb < 2 ^ 32)
    (hlook : lookup d h path = .ok e) (hlinked : Linked h e.cluster cs)
    (hfuel : cs.length ≤ fuel) :
    (∀ x ∈ cs, 2 ≤ x) ∧
        readdir d h fuel area path = listLoop (listedSlots d h cs) (update area 0 0) ∨
      (∃ x ∈ cs, x < 2) ∧ ∃ msg, readdir d h fuel area path = .error (.assertion msg) := by
  rw [readdir_eq hlook, hlinked.count_eq hlt hfuel, ok_bind]
  rcases @read_cases d h _ _ _ _ hpos hlinked hfuel with ⟨hcs, hread⟩ | ⟨hcs, msg, hmsg⟩
  · simp only [hread, ok_bind]
    exact .inl ⟨hcs, rfl⟩
  · simp only [hmsg]
    exact .inr ⟨hcs, msg, rfl⟩

theorem Linked.fatNext_ne {c : ℕ} (hlinked : Linked h c cs) (hc : c < 0x0ffffff8) :
    fatNext h c ≠ c := by
  intro hself
  -- the chain behind `c` is a shorter one from `c`
  induction hlinked with
  | @last c hin hend =>
    rw [hself] at hend
    exact absurd hc (Nat.not_lt.mpr hend)
  | @cons c cs hin hmore htail ih =>
    rw [hself] at ih
    exact ih hc hself

/-- A volume like the labelled one, but with an empty root directory that is followed by
itself. -/
def cyclic : Disk where
  bytes k :=
    ([(524, 2), (525, 1), (526, 1), (528, 1), (548, 1), (556, 2), (1032, 2)].lookup k).getD 0
  behind _ _ := 0

def cyclicHandle : Handle where
  bpb := smallBpb
  fat := cyclic.read 1024 512
  fatsize := 512
  dataoffset := 1536

theorem cyclic_mounts : modMain cyclic 512 = .ok (some cyclicHandle) := by
  have hbpb : Bpb.ofBytes (cyclic.read 512 512) = smallBpb := by decide
  rfl

end Readdir

end NeptunOS.Fat
