import NeptunOS.Arch.PageView

/-!
# Walks

Addresses as paths, the leaves that calls write, and the processor's walk read
through paths. `paging_lookup` agrees with the walk wherever it meets no 1 GiB
page (`pagingLookup_eq`).
-/

namespace NeptunOS.Paging

open Radix Stepwise

/-! ## Addresses and paths -/

/-- Bits 47 to 63 of the address are equal. -/
def Canonical (v : ℕ) : Prop := v < 2 ^ 47 ∨ hhdm ≤ v ∧ v < 2 ^ 64

instance (v : ℕ) : Decidable (Canonical v) :=
  inferInstanceAs (Decidable (v < 2 ^ 47 ∨ hhdm ≤ v ∧ v < 2 ^ 64))

/-- The path of the last-level entry of an address. -/
def path (v : ℕ) : List ℕ := (indices v).reverse

theorem addr_index (a k : ℕ) : a >>> k &&& 511 = a / 2 ^ k % 512 := by
  rw [Nat.shiftRight_eq_div_pow]
  exact Nat.and_two_pow_sub_one_eq_mod _ 9

theorem path_eq (v : ℕ) : path v =
    [v / 2 ^ 12 % 512, v / 2 ^ 21 % 512, v / 2 ^ 30 % 512, v / 2 ^ 39 % 512] := by
  simp only [path, indices, addrPti, addrPdi, addrPdpi, addrPml4i, addr_index]
  rfl

variable {v w cr3 j : ℕ} {σ π is es : List ℕ} {m : ℕ → ℕ → ℕ} {V : List ℕ → ℕ} {c : Call}

/-- Every way begins in the PML4. -/
theorem root_suffix (hσ : σ ≠ []) (hs : σ <:+ path v) : [addrPml4i v] <:+ σ :=
  List.suffix_of_suffix_length_le ⟨[addrPti v, addrPdi v, addrPdpi v], rfl⟩ hs
    (List.length_pos_iff.mpr hσ)

theorem root_of_suffix {i : ℕ} (h : [i] <:+ path v) : i = addrPml4i v := by
  have heq := (root_suffix (List.cons_ne_nil i []) h).eq_of_length rfl
  exact (List.cons.inj heq).1.symm

/-- Pages of canonical addresses are told apart by their indices. -/
theorem path_inj (hv : Canonical v) (hw : Canonical w) :
    path v = path w ↔ v / 2 ^ 12 = w / 2 ^ 12 := by
  unfold Canonical hhdm at *
  simp only [path_eq, List.cons.injEq, and_true]
  omega

theorem path_tail_inj (hv : Canonical v) (hw : Canonical w) :
    (path v).tail = (path w).tail ↔ v / 2 ^ 21 = w / 2 ^ 21 := by
  unfold Canonical hhdm at *
  simp only [path_eq, List.tail_cons, List.cons.injEq, and_true]
  omega

namespace Call

/-- A call as the kernel makes it: a canonical address, a frame inside the
direct map, a 4 KiB or 2 MiB page. -/
structure Legal (c : Call) : Prop where
  canonical : Canonical c.virt
  phys : c.phys < 2 ^ 47
  size : c.s1G = false

/-- The call maps `v`. -/
def Covers (c : Call) (v : ℕ) : Prop := v / c.size.bytes = c.virt / c.size.bytes

instance (c : Call) (v : ℕ) : Decidable (c.Covers v) :=
  inferInstanceAs (Decidable (_ = _))

theorem slot_4K {c : Call} (hc : c.size = .s4K) : c.slot = path c.virt := by
  have hpage : c.page = c.virt / 2 ^ 12 * 2 ^ 12 := by rw [page, hc]; rfl
  simp only [slot, index, uppers, hc, leafIndex, upperIndices, addrPti, addrPdi, addrPdpi,
    addrPml4i, addr_index, path_eq, hpage, List.reverse_cons, List.reverse_nil,
    List.nil_append, List.cons_append, List.cons.injEq, and_true]
  omega

theorem slot_2M {c : Call} (hc : c.size = .s2M) : c.slot = (path c.virt).tail := by
  have hpage : c.page = c.virt / 2 ^ 21 * 2 ^ 21 := by rw [page, hc]; rfl
  simp only [slot, index, uppers, hc, leafIndex, upperIndices, addrPdi, addrPdpi,
    addrPml4i, addr_index, path_eq, hpage, List.reverse_cons, List.reverse_nil,
    List.nil_append, List.cons_append, List.tail_cons, List.cons.injEq, and_true]
  omega

theorem size_cases {c : Call} (hc : c.s1G = false) :
    c.s2M = false ∧ c.size = .s4K ∨ c.s2M = true ∧ c.size = .s2M := by
  rw [size_eq, hc]
  cases c.s2M with
  | false => exact .inl ⟨rfl, rfl⟩
  | true => exact .inr ⟨rfl, rfl⟩

theorem path_length (v : ℕ) : (path v).length = 4 := rfl

/-- A call covers the addresses below its slot. -/
theorem covers_iff {c : Call} (hc : c.Legal) {v : ℕ} (hv : Canonical v) :
    c.Covers v ↔ c.slot <:+ path v := by
  rcases size_cases hc.size with ⟨_, hs⟩ | ⟨_, hs⟩
  · rw [Covers, hs, slot_4K hs]
    show v / 2 ^ 12 = c.virt / 2 ^ 12 ↔ _
    rw [← path_inj hv hc.canonical]
    constructor
    · intro h
      rw [h]
    · intro h
      exact (h.eq_of_length rfl).symm
  · rw [Covers, hs, slot_2M hs]
    show v / 2 ^ 21 = c.virt / 2 ^ 21 ↔ _
    rw [← path_tail_inj hv hc.canonical]
    constructor
    · intro h
      rw [← h]
      exact List.tail_suffix _
    · intro h
      have htail := List.suffix_of_suffix_length_le h (List.tail_suffix (path v)) (by rfl)
      exact (htail.eq_of_length rfl).symm

end Call

/-! ## Leaves -/

/-- The cache bits are none of the rights. -/
theorem patbits_rights (cache : ℕ) :
    (rw (patbits4k cache) = false ∧ user (patbits4k cache) = false) ∧
      rw (patbits2m cache) = false ∧ user (patbits2m cache) = false := by
  refine ⟨⟨?_, ?_⟩, ?_, ?_⟩ <;>
    simp [patbits4k, patbits2m, rw, user, Nat.testBit_or]

namespace Call

theorem present_leaf (c : Call) : present c.leaf = true := by
  rw [leaf, present_setFlags]
  cases c.size <;> simp [leafFlags]

theorem rw_leaf (c : Call) : Paging.rw c.leaf = c.rw := by
  obtain ⟨⟨h4, _⟩, h2, _⟩ := patbits_rights c.cache
  have hh : Paging.rw Mflags.huge = false := by decide
  rw [leaf, rw_setFlags]
  cases c.size <;> simp [leafFlags, h4, h2, hh]

theorem user_leaf (c : Call) : Paging.user c.leaf = c.user := by
  obtain ⟨⟨_, h4⟩, _, h2⟩ := patbits_rights c.cache
  have hh : Paging.user Mflags.huge = false := by decide
  rw [leaf, user_setFlags]
  cases c.size <;> simp [leafFlags, h4, h2, hh]

theorem frame_le (c : Call) : c.frame ≤ c.phys := Nat.div_mul_le_self _ _

theorem nx_leaf {c : Call} (hphys : c.phys < 2 ^ 63) : nx c.leaf = !c.exe := by
  have hframe := c.frame_le
  rw [leaf, nx_setFlags, nx_or, nx_of_lt (by omega), c.nx_exeMask, Bool.false_or]

/-- The address part of the leaf. -/
theorem leaf_address {c : Call} (hc : c.Legal) :
    c.leaf / 2 ^ 12 * 2 ^ 12 = c.frame + exeMask c.flags := by
  have hframe := c.frame_le
  have hphys := hc.phys
  have hdvd := c.frame_dvd
  have hmask : 2 ^ 12 ∣ exeMask c.flags := by
    rcases exeMask_cases c.flags with h | h <;> rw [h] <;> decide
  rw [leaf, or_exeMask (by omega), setFlags]
  omega

/-- What the processor takes from it: the mask is above bit 52. -/
theorem leaf_frame {c : Call} (hc : c.Legal) : c.leaf % 2 ^ 52 / 2 ^ 12 * 2 ^ 12 = c.frame := by
  have hframe := c.frame_le
  have hphys := hc.phys
  have haddr := leaf_address hc
  have hsplit : c.leaf % 2 ^ 52 / 2 ^ 12 = c.leaf / 2 ^ 12 % 2 ^ 40 :=
    Nat.mod_mul_right_div_self c.leaf (2 ^ 12) (2 ^ 40)
  rw [hsplit, Nat.mul_comm]
  rcases exeMask_cases c.flags with h | h
  · omega
  · omega

theorem leaf_lt {c : Call} (hc : c.Legal) : c.leaf < 2 ^ 64 := by
  have hframe := c.frame_le
  have hphys := hc.phys
  have hmask := exeMask_le c.flags
  apply setFlags_lt
  rw [or_exeMask (by omega)]
  omega

theorem tableOf_leaf {c : Call} (hc : c.Legal) : tableOf c.leaf = hhdm + c.frame := by
  have hframe := c.frame_le
  have hphys := hc.phys
  have haddr := leaf_address hc
  rw [tableOf, haddr, virt_eq]
  · rcases exeMask_cases c.flags with h | h <;> rw [h] <;> omega
  · have := leaf_lt hc
    omega

end Call

/-! ## Walks through paths -/

/-- `walkFrom`, reading the entries by their paths. -/
def walkAt (V : List ℕ → ℕ) : List ℕ → List ℕ → Option (List ℕ)
  | _, [] => none
  | π, i :: is =>
    let e := V (i :: π)
    if ¬ present e then none
    else if is = [] ∨ huge e then some [e]
    else (walkAt V (i :: π) is).map (e :: ·)

theorem walkFrom_eq {t : ℕ} (hπ : table child m cr3 π = some t) :
    walkFrom m t is = walkAt (entryAt m cr3) π is := by
  induction is generalizing t π with
  | nil => rfl
  | cons i is ih =>
    have hentry : entryAt m cr3 (i :: π) = m t i := view_cons hπ
    unfold walkFrom walkAt
    simp only [hentry]
    split
    case isTrue => rfl
    case isFalse hp =>
      split
      case isTrue => rfl
      case isFalse hl =>
        have hp : present (m t i) = true := by simpa using hp
        have hh : huge (m t i) = false := by simpa using (not_or.mp hl).2
        rw [ih ((table_cons hπ).trans (child_of_present hp hh))]

theorem walk_eq (m : ℕ → ℕ → ℕ) (cr3 v : ℕ) :
    walk m cr3 v = walkAt (entryAt m cr3) [] (indices v) := walkFrom_eq rfl

/-- A walk that goes through present upper entries down to a leaf reads them
all. -/
theorem walkAt_slot {τ rest : List ℕ} (hτ : τ ≠ [])
    (hupper : ∀ σ ∈ slotsFrom τ π, σ ≠ τ.reverse ++ π →
      present (V σ) = true ∧ huge (V σ) = false) (hleaf : present (V (τ.reverse ++ π)) = true)
    (hend : rest = [] ∨ huge (V (τ.reverse ++ π)) = true) :
    walkAt V π (τ ++ rest) = some ((slotsFrom τ π).map V) := by
  induction τ generalizing π with
  | nil => exact absurd rfl hτ
  | cons i τ ih =>
    have happ : (i :: τ).reverse ++ π = τ.reverse ++ (i :: π) := by simp
    rw [happ] at hupper hleaf hend
    cases τ with
    | nil =>
      simp only [List.reverse_nil, List.nil_append] at hleaf hend
      simp [walkAt, slotsFrom, hleaf, hend]
    | cons j τ =>
      have hne : i :: π ≠ (j :: τ).reverse ++ (i :: π) := by
        intro h
        have hlen := congrArg List.length h
        simp only [List.length_cons, List.length_append, List.length_reverse] at hlen
        omega
      obtain ⟨hp, hh⟩ := hupper (i :: π) (by simp [slotsFrom]) hne
      have hrest := ih (by simp)
        (fun σ hσ hne => hupper σ (by rw [slotsFrom]; exact List.mem_cons_of_mem _ hσ) hne)
        hleaf hend
      rw [List.cons_append, walkAt]
      simp only [hp, hh, hrest]
      simp [slotsFrom]

/-- The address that `paging_lookup` reads off a walk without 1 GiB pages. -/
def lookupOf (v : ℕ) : Option (List ℕ) → ℕ
  | none => minusOne
  | some es =>
    if es.length = 3 then phys (wadd (tableOf (es.getLastD 0)) (v % 2 ^ 21)) % 2 ^ 63
    else wadd (es.getLastD 0 / 2 ^ 12 * 2 ^ 12) (v % 2 ^ 12) % 2 ^ 63

/-- `paging_lookup` walks as the processor does, where it meets no 1 GiB page. -/
theorem pagingLookup_eq (hnh : ∀ σ, σ ≠ [] → σ.length ≤ 2 → σ <:+ path v →
      present (entryAt m cr3 σ) = true → huge (entryAt m cr3 σ) = false) :
    pagingLookup m cr3 v = lookupOf v (walk m cr3 v) := by
  unfold pagingLookup walk indices
  simp only [walkFrom]
  by_cases p4 : present (m cr3 (addrPml4i v)) = true
  case neg => simp [p4, lookupOf]
  have h4 : huge (m cr3 (addrPml4i v)) = false :=
    hnh [addrPml4i v] (by simp) (by simp) ⟨[addrPti v, addrPdi v, addrPdpi v], rfl⟩ p4
  have t3 : table child m cr3 [addrPml4i v] = some (tableOf (m cr3 (addrPml4i v))) :=
    (table_cons rfl).trans (child_of_present p4 h4)
  have e3 : entryAt m cr3 [addrPdpi v, addrPml4i v] =
      m (tableOf (m cr3 (addrPml4i v))) (addrPdpi v) := view_cons t3
  simp only [p4, h4]
  by_cases p3 : present (m (tableOf (m cr3 (addrPml4i v))) (addrPdpi v)) = true
  case neg => simp [p3, lookupOf]
  have h3 := hnh [addrPdpi v, addrPml4i v] (by simp) (by simp)
    ⟨[addrPti v, addrPdi v], rfl⟩ (by rw [e3]; exact p3)
  rw [e3] at h3
  simp only [h3]
  set pd := tableOf (m (tableOf (m cr3 (addrPml4i v))) (addrPdpi v))
  by_cases p2 : present (m pd (addrPdi v)) = true
  case neg => simp [p3, p2, lookupOf]
  cases h2 : huge (m pd (addrPdi v)) with
  | true => simp [p3, p2, lookupOf]
  | false =>
    by_cases p1 : present (m (tableOf (m pd (addrPdi v))) (addrPti v)) = true
    · simp [p3, p2, p1, lookupOf]
    · simp [p3, p2, p1, lookupOf]

/-! ## One page more -/

/-- Walks read only the entries on their way. -/
theorem walkAt_congr {V' : List ℕ → ℕ} (h : ∀ σ ∈ slotsFrom is π, V' σ = V σ) :
    walkAt V' π is = walkAt V π is := by
  induction is generalizing π with
  | nil => rfl
  | cons i is ih =>
    have hrest := @ih (i :: π) fun σ hσ => h σ (by simp [slotsFrom, hσ])
    rw [walkAt, walkAt, h (i :: π) (by simp [slotsFrom]), hrest]

theorem walkAt_ne_nil (h : walkAt V π is = some es) : es ≠ [] := by
  cases is with
  | nil => cases h
  | cons i is =>
    rw [walkAt] at h
    split at h
    · cases h
    · split at h
      · cases h
        simp
      · obtain ⟨es', _, rfl⟩ := Option.map_eq_some_iff.mp h
        simp

/-- The number of levels and the leaf of a walk. -/
def leafOf (w : Option (List ℕ)) : Option (ℕ × ℕ) :=
  w.map fun es => (es.length, es.getLastD 0)

/-- One level more at the top. -/
theorem leafOf_cons (e : ℕ) :
    leafOf ((walkAt V π is).map (e :: ·)) =
      (leafOf (walkAt V π is)).map fun x => (x.1 + 1, x.2) := by
  cases h : walkAt V π is with
  | none => rfl
  | some es =>
    obtain ⟨e', es', rfl⟩ := List.exists_cons_of_ne_nil (walkAt_ne_nil h)
    simp [leafOf]

theorem translate_eq_leafOf (m : ℕ → ℕ → ℕ) (cr3 v : ℕ) :
    translate m cr3 v = (leafOf (walkAt (entryAt m cr3) [] (indices v))).map fun x =>
      x.2 % 2 ^ 52 / 2 ^ walkShift x.1 * 2 ^ walkShift x.1 + v % 2 ^ walkShift x.1 := by
  rw [translate, walk_eq, leafOf, Option.map_map]
  rfl

/-- Below an entry that is no pointer there are no entries. -/
theorem entryAt_below_leaf (hσ : σ ≠ []) (h : child (entryAt m cr3 σ) = none) :
    entryAt m cr3 (j :: σ) = 0 := by
  obtain ⟨i, π, rfl⟩ := List.exists_cons_of_ne_nil hσ
  simp [entryAt, view, (table_eq_child m cr3 i π).trans h]

theorem entryAt_below (hσ : σ ≠ []) (h : present (entryAt m cr3 σ) = false) :
    entryAt m cr3 (j :: σ) = 0 :=
  entryAt_below_leaf hσ (child_of_absent h)

theorem suffix_of_tail (h : σ <:+ c.slot.tail) : σ <:+ c.slot ∧ σ ≠ c.slot := by
  refine ⟨h.trans (List.tail_suffix _), ?_⟩
  rintro rfl
  have hle := h.length_le
  simp only [Call.slot, List.tail_cons, List.length_cons] at hle
  omega

theorem suffix_slot (h : σ <:+ c.slot) (hne : σ ≠ c.slot) : σ <:+ c.slot.tail :=
  (List.suffix_cons_iff.mp h).resolve_left hne

theorem indices_eq (v : ℕ) : indices v = (path v).reverse := by
  rw [path, List.reverse_reverse]

/-- The entries on the way to a slot: those above it, then its own. -/
theorem Call.entries_eq (c : Call) (V : List ℕ → ℕ) : (slotsFrom c.slot.reverse []).map V =
      (slotsFrom c.uppers []).map V ++ [V c.slot] := by
  have hrev : c.slot.reverse = c.uppers ++ [c.index] := by simp [Call.slot]
  rw [hrev, slotsFrom_eq_concat, List.map_append, List.append_nil]
  rfl

theorem Call.mem_uppers : σ ∈ slotsFrom c.uppers [] ↔ σ ≠ [] ∧ σ <:+ c.slot.tail := by
  rw [mem_slotsFrom, List.append_nil, List.length_nil, List.length_pos_iff]
  rfl

/-- A 4 KiB leaf is at the end of the walk, a larger one is marked. -/
theorem Call.leaf_end {pre : List ℕ} (hpre : pre ++ c.slot = path v) :
    pre = [] ∨ huge c.leaf = true := by
  rcases c.leaf_level with hhuge | hlen
  · right
    rw [Call.leaf, huge_setFlags, hhuge]
  · left
    have hsum := congrArg List.length hpre
    rw [List.length_append, c.slot_length, Call.path_length] at hsum
    exact List.length_eq_zero_iff.mp (by omega)

/-- The rights of a way that ends in a leaf: when the entries above it allow what its
call asks for, `USER` and NX are those of the call, `RW` needs them to have it. -/
theorem Call.rightsOf_leaf (hphys : c.phys < 2 ^ 63)
    (hes : ∀ e ∈ es, (c.user = true → Paging.user e = true) ∧ (c.exe = true → nx e = false)) :
    rightsOf (es ++ [c.leaf]) =
      { user := c.user, nx := !c.exe, rw := es.all Paging.rw && c.rw } := by
  rw [rightsOf]
  simp only [List.all_append, List.any_append, List.all_cons, List.all_nil, List.any_cons,
    List.any_nil, Bool.and_true, Bool.or_false, c.user_leaf, c.rw_leaf, Call.nx_leaf hphys]
  congr 1
  · cases hu : c.user with
    | false => rw [Bool.and_false]
    | true =>
      rw [Bool.and_true, List.all_eq_true]
      exact fun e he => (hes e he).1 hu
  · cases hx : c.exe with
    | false => simp
    | true =>
      rw [Bool.not_true, Bool.or_false, List.any_eq_false]
      intro e he
      rw [(hes e he).2 hx]
      decide

section Page

variable {c : Call} {m m' : ℕ → ℕ → ℕ} {cr3 v : ℕ}
variable {V V' : List ℕ → ℕ} {W : ℕ → Prop}

/-- A walk to another page meets the entries it met before, apart from the bits
that a call may change above its leaf. The induction follows the walk: as long
as it shares the way of the call both continue, then nothing has changed. -/
theorem leafOf_other (hm : Maps c (entryAt m cr3) (entryAt m' cr3))
    (hnh : ∀ σ, σ ≠ [] → σ <:+ c.slot.tail → present (entryAt m cr3 σ) = true →
      huge (entryAt m cr3 σ) = false) {π is : List ℕ}
    (hfull : (is.reverse ++ π).length = 4) (hns : ¬ c.slot <:+ is.reverse ++ π) :
    leafOf (walkAt (entryAt m' cr3) π is) = leafOf (walkAt (entryAt m cr3) π is) := by
  induction is generalizing π with
  | nil => rfl
  | cons i is ih =>
    have happ : (i :: is).reverse ++ π = is.reverse ++ (i :: π) := by simp
    rw [happ] at hfull hns
    by_cases hs : i :: π <:+ c.slot
    case neg =>
      rw [walkAt_congr fun τ hτ => ?_]
      obtain ⟨hlt, hτ⟩ := mem_slotsFrom.mp hτ
      rw [happ] at hτ
      have hup : i :: π <:+ τ :=
        List.suffix_of_suffix_length_le (List.suffix_append _ _) hτ
          (by rw [List.length_cons]; exact hlt)
      have hτlen := hτ.length_le
      exact hm.other τ (by omega) (fun h => hs (hup.trans h)) fun h => hns (h.trans hτ)
    case pos =>
      have hσ : i :: π ≠ c.slot := fun h => hns (h ▸ List.suffix_append _ _)
      have htail : i :: π <:+ c.slot.tail := (List.suffix_cons_iff.mp hs).resolve_left hσ
      have hup := hm.upper (i :: π) (by simp) htail
      have his : is ≠ [] := by
        rintro rfl
        have hle := htail.length_le
        have hlen := c.uppers_length
        simp only [Call.slot, List.tail_cons, List.length_reverse, List.length_append,
          List.reverse_nil, List.length_nil] at hle hfull
        omega
      have hnew : walkAt (entryAt m' cr3) π (i :: is) =
          (walkAt (entryAt m' cr3) (i :: π) is).map (entryAt m' cr3 (i :: π) :: ·) := by
        rw [walkAt]
        simp [hup.present, hup.huge, his]
      rw [hnew, leafOf_cons, ih hfull hns]
      cases hp : present (entryAt m cr3 (i :: π)) with
      | true =>
        have hold : walkAt (entryAt m cr3) π (i :: is) =
            (walkAt (entryAt m cr3) (i :: π) is).map (entryAt m cr3 (i :: π) :: ·) := by
          rw [walkAt]
          simp [hp, hnh _ (by simp) htail hp, his]
        rw [hold, leafOf_cons]
      | false =>
        obtain ⟨j, is', rfl⟩ := List.exists_cons_of_ne_nil his
        have hzero := entryAt_below (j := j) (by simp) hp
        have hz : present 0 = false := rfl
        simp [walkAt, hp, hzero, hz, leafOf]

/-- A call leaves the translation of every address that it does not cover. -/
theorem translate_other (hm : Maps c (entryAt m cr3) (entryAt m' cr3))
    (hlegal : c.Legal) (hv : Canonical v)
    (hnh : ∀ σ, σ ≠ [] → σ <:+ c.slot.tail → present (entryAt m cr3 σ) = true →
      huge (entryAt m cr3 σ) = false)
    (hcov : ¬ c.Covers v) :
    translate m' cr3 v = translate m cr3 v := by
  have hns : ¬ c.slot <:+ path v := fun h => hcov ((Call.covers_iff hlegal hv).mpr h)
  rw [translate_eq_leafOf, translate_eq_leafOf, leafOf_other hm hnh rfl]
  exact hns

/-- Where the tables above a slot are there and the slot holds the leaf of a call, an address
below the slot is walked down to it. -/
theorem walkAt_leaf
    (hupper : ∀ σ, σ ≠ [] → σ <:+ c.slot.tail → present (V σ) = true ∧ huge (V σ) = false)
    (hleaf : V c.slot = c.leaf) (hv : c.slot <:+ path v) :
    walkAt V [] (indices v) = some ((slotsFrom c.slot.reverse []).map V) := by
  obtain ⟨pre, hpre⟩ := hv
  have hslot : c.slot.reverse.reverse ++ [] = c.slot := by simp
  rw [indices_eq, ← hpre, List.reverse_append]
  apply walkAt_slot
  · simp [Call.slot]
  · intro σ hσ hne
    rw [hslot] at hne
    obtain ⟨hpos, hs⟩ := mem_slotsFrom.mp hσ
    rw [hslot] at hs
    exact hupper σ (List.length_pos_iff.mp hpos) (suffix_slot hs hne)
  · rw [hslot, hleaf, c.present_leaf]
  · rw [hslot, hleaf]
    exact (Call.leaf_end hpre).imp_left fun h => by rw [h, List.reverse_nil]

/-- An address below the slot is walked down to the leaf of the call. -/
theorem walkAt_below (hm : Maps c V V') (hv : c.slot <:+ path v) :
    walkAt V' [] (indices v) = some ((slotsFrom c.uppers []).map V' ++ [c.leaf]) := by
  rw [← hm.leaf, ← c.entries_eq]
  refine walkAt_leaf (fun σ hne hs => ?_) hm.leaf hv
  have hup := hm.upper σ hne hs
  exact ⟨hup.present, hup.huge⟩

theorem walkAt_self (hm : Maps c V V') (hlegal : c.Legal) (hv : Canonical v) (hcov : c.Covers v) :
    walkAt V' [] (indices v) = some ((slotsFrom c.uppers []).map V' ++ [c.leaf]) :=
  walkAt_below hm ((Call.covers_iff hlegal hv).mp hcov)

theorem translate_self (hm : Maps c (entryAt m cr3) (entryAt m' cr3))
    (hlegal : c.Legal) (hv : Canonical v) (hcov : c.Covers v) :
    translate m' cr3 v = some (c.frame + v % c.size.bytes) := by
  rw [translate_eq_leafOf, walkAt_self hm hlegal hv hcov, leafOf, Option.map_some,
    Option.map_some, List.getLastD_concat, List.length_append, List.length_map,
    length_slotsFrom, List.length_singleton]
  rcases Call.size_cases hlegal.size with ⟨_, hz⟩ | ⟨_, hz⟩
  · have hupper : c.uppers.length = 3 := by rw [Call.uppers, hz]; rfl
    rw [hupper, hz]
    show some (c.leaf % 2 ^ 52 / 2 ^ 12 * 2 ^ 12 + v % 2 ^ 12) = _
    rw [Call.leaf_frame hlegal]
    rfl
  · have hupper : c.uppers.length = 2 := by rw [Call.uppers, hz]; rfl
    have hdvd : 2 ^ 21 ∣ c.frame := by
      rw [Call.frame, hz]
      exact Nat.dvd_mul_left _ _
    have hleaf := Call.leaf_frame hlegal
    rw [hupper, hz]
    show some (c.leaf % 2 ^ 52 / 2 ^ 21 * 2 ^ 21 + v % 2 ^ 21) = some (c.frame + v % 2 ^ 21)
    generalize c.leaf % 2 ^ 52 = e at hleaf ⊢
    have hround : 2 ^ 21 * (e / 2 ^ 21) = c.frame := by omega
    rw [Nat.mul_comm, hround]

/-- A call with `USER` makes its page a user page. -/
theorem user_self (hm : Maps c (entryAt m cr3) (entryAt m' cr3)) (hlegal : c.Legal)
    (hv : Canonical v) (hcov : c.Covers v) (hu : c.user = true) :
    ∃ r, rights m' cr3 v = some r ∧ r.user = true := by
  refine ⟨_, by rw [rights, walk_eq, walkAt_self hm hlegal hv hcov, Option.map_some], ?_⟩
  rw [rightsOf, List.all_append, Bool.and_eq_true, List.all_map, List.all_eq_true]
  constructor
  · intro σ hσ
    obtain ⟨hne, hs⟩ := Call.mem_uppers.mp hσ
    have hup := (hm.upper σ hne hs).user
    rw [hu, Bool.or_true] at hup
    show user (entryAt m' cr3 σ) = true
    rw [hup]
    cases present (entryAt m cr3 σ) <;> rfl
  · rw [List.all_cons, c.user_leaf, hu]
    rfl

/-- Above the 4 KiB pages of `W` there are pointers only. -/
def Small (m : ℕ → ℕ → ℕ) (cr3 : ℕ) (W : ℕ → Prop) : Prop :=
  ∀ v, W v → ∀ σ, σ ≠ [] → σ <:+ (path v).tail → present (entryAt m cr3 σ) = true →
    huge (entryAt m cr3 σ) = false

/-- No 1 GiB page on the way to `v`, and no such mark in the PML4. -/
def NoGiant (m : ℕ → ℕ → ℕ) (cr3 v : ℕ) : Prop :=
  ∀ σ, σ ≠ [] → σ.length ≤ 2 → σ <:+ path v → present (entryAt m cr3 σ) = true →
    huge (entryAt m cr3 σ) = false

/-- A call for a 4 KiB page makes no large page. -/
theorem Maps.huge_kept (hm : Maps c V V') (hsize : c.size = .s4K) {σ : List ℕ} (hσ : σ ≠ [])
    (hlen : σ.length ≤ 3) (hh : huge (V' σ) = true) : V' σ = V σ := by
  have hlong : c.slot.length = 4 := by rw [Call.slot_4K hsize, Call.path_length]
  by_cases hs : σ <:+ c.slot
  · rw [(hm.upper σ hσ (suffix_slot hs (by rintro rfl; omega))).huge] at hh
    cases hh
  · exact hm.other σ (by omega) hs fun hs' => by have := hs'.length_le; omega

theorem Small.maps (h : Small m cr3 W) (hm : Maps c (entryAt m cr3) (entryAt m' cr3))
    (hsize : c.size = .s4K) : Small m' cr3 W := by
  intro v hv σ hσ hs hp
  have hlen := hs.length_le
  rw [← Bool.not_eq_true]
  intro hh
  rw [hm.huge_kept hsize hσ hlen hh] at hp hh
  rw [h v hv σ hσ hs hp] at hh
  cases hh

theorem NoGiant.maps (h : NoGiant m cr3 v)
    (hm : Maps c (entryAt m cr3) (entryAt m' cr3)) (hsize : c.size = .s4K) :
    NoGiant m' cr3 v := by
  intro σ hσ hlen hs hp
  rw [← Bool.not_eq_true]
  intro hh
  rw [hm.huge_kept hsize hσ (by omega) hh] at hp hh
  rw [h σ hσ hlen hs hp] at hh
  cases hh

theorem lookupOf_lt (es : List ℕ) : lookupOf v (some es) < 2 ^ 63 := by
  rw [lookupOf]
  split <;> exact Nat.mod_lt _ (by decide)

/-- Without 1 GiB pages `paging_lookup` finds what the processor finds. -/
theorem NoGiant.lookup_eq_minusOne (h : NoGiant m cr3 v) :
    pagingLookup m cr3 v = minusOne ↔ translate m cr3 v = none := by
  rw [pagingLookup_eq h, translate, Option.map_eq_none_iff]
  cases walk m cr3 v with
  | none => exact ⟨fun _ => rfl, fun _ => rfl⟩
  | some es =>
    have hlt := @lookupOf_lt v es
    refine ⟨fun heq => ?_, fun heq => by cases heq⟩
    rw [heq] at hlt
    exact absurd hlt (by decide)

theorem Small.noGiant (h : Small m cr3 W) (hv : W v) : NoGiant m cr3 v :=
  fun σ hσ hlen hs hp => h v hv σ hσ (List.suffix_of_suffix_length_le hs (List.tail_suffix _)
    (by rw [List.length_tail, Call.path_length]; omega)) hp

theorem Small.lookup_eq_minusOne (h : Small m cr3 W) (hv : W v) :
    pagingLookup m cr3 v = minusOne ↔ translate m cr3 v = none :=
  (h.noGiant hv).lookup_eq_minusOne

end Page

/-! ## Two roots

Two address spaces agree below the entries of their roots that `P` selects, if
the roots agree there and the tables below have not changed. -/

section Roots

variable {m m' : ℕ → ℕ → ℕ} {r r' : ℕ} {P : ℕ → Prop}

theorem entryAt_agree (hroot : ∀ i, P i → m' r' i = m r i)
    (hrest : ∀ π t i, π ≠ [] → π.length ≤ 3 → table child m r π = some t → m' t i = m t i)
    {σ : List ℕ} (hlen : σ.length ≤ 4) (hP : ∀ i, [i] <:+ σ → P i) :
    entryAt m' r' σ = entryAt m r σ := by
  induction σ with
  | nil => rfl
  | cons i π ih =>
    rw [List.length_cons] at hlen
    cases π with
    | nil =>
      exact hroot i (hP i List.suffix_rfl)
    | cons j π =>
      have habove := ih (by omega) fun k hk => hP k (hk.trans (List.suffix_cons _ _))
      have htable : table child m' r' (j :: π) = table child m r (j :: π) := by
        rw [table_eq_child, table_eq_child, habove]
      rw [entryAt, entryAt, view, view, htable]
      cases ht : table child m r (j :: π) with
      | none => rfl
      | some t => exact hrest _ t i (List.cons_ne_nil _ _) (by omega) ht

theorem translate_agree (hroot : ∀ i, P i → m' r' i = m r i)
    (hrest : ∀ π t i, π ≠ [] → π.length ≤ 3 → table child m r π = some t → m' t i = m t i)
    {v : ℕ} (hP : P (addrPml4i v)) : translate m' r' v = translate m r v := by
  rw [translate_eq_leafOf, translate_eq_leafOf]
  congr 2
  refine walkAt_congr fun σ hσ => ?_
  have hs : σ <:+ path v := by simpa [path] using (mem_slotsFrom.mp hσ).2
  refine entryAt_agree hroot hrest hs.length_le fun i hi => ?_
  rwa [root_of_suffix (hi.trans hs)]

end Roots

end NeptunOS.Paging
