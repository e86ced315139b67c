import NeptunOS.Arch.FiniteMap

/-!
# What `map_page` grants

The rights of a page are those of the whole way to it, and the entries of the
way are shared. `map_page` adds `USER` to one that is present and clears its NX
bit, but `RW` stays as the call that made the table left it. The PAT bit of a
large page is bit 12, which the 12-bit `flags` field does not hold. A page gets
what was asked for exactly when neither matters (`mapPage_grants_iff`).
-/

namespace NeptunOS.Paging

open Radix Stepwise

/-! ## Pages of all sizes -/

/-- The levels that a leaf of this size leaves out. -/
def PageSize.skipped : PageSize → ℕ
  | .s4K => 0
  | .s2M => 1
  | .s1G => 2

namespace Call

theorem slot_1G {c : Call} (hc : c.size = .s1G) : c.slot = (path c.virt).drop 2 := by
  have hpage : c.page = c.virt / 2 ^ 30 * 2 ^ 30 := by rw [page, hc]; rfl
  simp only [slot, index, uppers, hc, leafIndex, upperIndices, addrPdpi, addrPml4i,
    addr_index, path_eq, hpage, List.reverse_cons, List.reverse_nil, List.nil_append,
    List.drop_succ_cons, List.drop_zero, List.cons.injEq, and_true]
  omega

theorem slot_eq (c : Call) : c.slot = (path c.virt).drop c.size.skipped := by
  cases hc : c.size with
  | s4K => exact slot_4K hc
  | s2M => rw [slot_2M hc, ← List.drop_one]; rfl
  | s1G => exact slot_1G hc

/-- The page of `c'` lies inside the larger page of `c`. The processor translates
the low 48 bits of an address. -/
def Encloses (c c' : Call) : Prop :=
  c'.size.bytes < c.size.bytes ∧
    c'.virt % 2 ^ 48 / c.size.bytes = c.virt % 2 ^ 48 / c.size.bytes

instance (c c' : Call) : Decidable (c.Encloses c') := inferInstanceAs (Decidable (_ ∧ _))

/-- The indices down to a leaf are the address without the offset in its page. -/
theorem drop_path_eq_iff (z : PageSize) (v w : ℕ) :
    (path v).drop z.skipped = (path w).drop z.skipped ↔
      v % 2 ^ 48 / z.bytes = w % 2 ^ 48 / z.bytes := by
  cases z <;>
    simp only [path_eq, PageSize.skipped, PageSize.bytes, List.drop_succ_cons, List.drop_zero,
      List.cons.injEq, and_true] <;>
    omega

/-- A slot on the way to another belongs to an enclosing page. -/
theorem encloses_of_suffix {c c' : Call} (hs : c.slot <:+ c'.slot)
    (hne : c.slot ≠ c'.slot) : c.Encloses c' := by
  have hlen : c.slot.length < c'.slot.length :=
    lt_of_le_of_ne hs.length_le fun h => hne (hs.eq_of_length h)
  rw [c.slot_eq, c'.slot_eq, List.length_drop, List.length_drop, path_length, path_length] at hlen
  have hbytes : c'.size.bytes < c.size.bytes := by
    revert hlen
    cases c.size <;> cases c'.size <;> decide
  refine ⟨hbytes, ?_⟩
  rw [← drop_path_eq_iff]
  rw [c.slot_eq, c'.slot_eq] at hs
  have hdrop : (path c'.virt).drop c.size.skipped <:+ (path c'.virt).drop c'.size.skipped :=
    List.drop_suffix_drop_left _ (by omega)
  exact ((List.suffix_of_suffix_length_le hdrop hs (by simp [path_length])).eq_of_length
    (by simp [path_length]))

theorem slot_suffix_path {c : Call} {v : ℕ} (hcov : c.Covers v) : c.slot <:+ path v := by
  have heq : v % 2 ^ 48 / c.size.bytes = c.virt % 2 ^ 48 / c.size.bytes := by
    revert hcov
    unfold Covers
    cases c.size <;> simp only [PageSize.bytes] <;> omega
  rw [c.slot_eq, ← (drop_path_eq_iff c.size v c.virt).mpr heq]
  exact List.drop_suffix _ _

end Call

/-- No page is mapped inside a larger one. -/
def Apart (calls : List Call) : Prop := ∀ c ∈ calls, ∀ c' ∈ calls, ¬ c.Encloses c'

instance (calls : List Call) : Decidable (Apart calls) :=
  inferInstanceAs (Decidable (∀ c ∈ calls, ∀ c' ∈ calls, _))

/-- Only the leaves of calls are marked as such. -/
def Marked (calls : List Call) (V : List ℕ → ℕ) : Prop :=
  ∀ σ, σ ≠ [] → σ.length ≤ 4 → present (V σ) = true → huge (V σ) = true →
    ∃ c ∈ calls, c.slot = σ

section Runs

variable {s s' s'' : Tables} {cr3 : ℕ} {calls : List Call} {c : Call} {V V' : List ℕ → ℕ}

theorem Marked.snoc (h : Marked calls V) (hm : Maps c V V') : Marked (calls ++ [c]) V' := by
  intro σ hnil hlen hp hh
  by_cases hslot : σ = c.slot
  · exact ⟨c, by simp, hslot.symm⟩
  by_cases hbelow : c.slot <:+ σ
  · rw [hm.below σ hlen hbelow hslot] at hp
    cases hp
  by_cases habove : σ <:+ c.slot
  · rw [(hm.upper σ hnil (suffix_slot habove hslot)).huge] at hh
    cases hh
  · rw [hm.other σ hlen habove hbelow] at hp hh
    obtain ⟨c', hc', heq⟩ := h σ hnil hlen hp hh
    exact ⟨c', by simp [hc'], heq⟩

/-- The entries on the way to a further page are pointers if they are present. -/
theorem Marked.pointers (h : Marked calls V) (hun : Apart (calls ++ [c])) (σ : List ℕ)
    (hσ : σ ≠ []) (hs : σ <:+ c.slot.tail) (hp : present (V σ) = true) :
    huge (V σ) = false := by
  obtain ⟨hss, hsne⟩ := suffix_of_tail hs
  have hle := hss.length_le
  have hlen := c.uppers_length
  rw [c.slot_length] at hle
  cases hh : huge (V σ) with
  | false => rfl
  | true =>
    obtain ⟨c', hc', rfl⟩ := h σ hσ (by omega) hp hh
    exact absurd (Call.encloses_of_suffix hss hsne) (hun c' (by simp [hc']) c (by simp))

theorem run_marked (hwf : WellFormed s cr3) (h : Marked calls (entryAt s.mem cr3))
    (hphys : c.phys < 2 ^ 52) (hun : Apart (calls ++ [c])) (hr : c.run s cr3 = .ok s') :
    WellFormed s' cr3 ∧ Maps c (entryAt s.mem cr3) (entryAt s'.mem cr3) ∧
      Marked (calls ++ [c]) (entryAt s'.mem cr3) := by
  obtain ⟨hwf', hmaps⟩ := mapPage_spec hwf (by omega) (h.pointers hun) hr
  exact ⟨hwf', hmaps, h.snoc hmaps⟩

theorem mapAll_marked (hempty : Empty s cr3) (hphys : ∀ c ∈ calls, c.phys < 2 ^ 52)
    (hun : Apart calls) (hr : mapAll cr3 calls s = .ok s') :
    WellFormed s' cr3 ∧ Marked calls (entryAt s'.mem cr3) := by
  induction calls using List.reverseRecOn generalizing s' with
  | nil =>
    obtain rfl := Except.ok.inj hr
    refine ⟨hempty.wellFormed, fun σ _ _ hp => ?_⟩
    rw [hempty.entryAt_eq_zero] at hp
    cases hp
  | append_singleton calls c ih =>
    obtain ⟨t, ht, hr⟩ := mapAll_append.mp hr
    obtain ⟨s'', hc, hr⟩ := bind_eq_ok.mp hr
    obtain rfl := Except.ok.inj hr
    obtain ⟨hwf, hmarked⟩ := ih (fun c' hc' => hphys c' (by simp [hc']))
      (fun c hc c' hc' => hun c (by simp [hc]) c' (by simp [hc'])) ht
    obtain ⟨hwf', _, hmarked'⟩ := run_marked hwf hmarked (hphys c (by simp)) hun hc
    exact ⟨hwf', hmarked'⟩

end Runs

/-! ## Rights and caching of the new page -/

/-- The rights that the flags of a call name. -/
def Call.asked (c : Call) : Rights where
  user := c.user
  rw := c.rw
  nx := !c.exe

/-- The bit of a leaf that holds PAT, by the number of entries of the walk. -/
def patBit : ℕ → ℕ
  | 4 => 7
  | _ => 12

/-- The cache value of a walk: PWT, PCD and PAT of its leaf. -/
def cacheOf (es : List ℕ) : ℕ :=
  let e := es.getLastD 0
  (e.testBit 3).toNat + 2 * (e.testBit 4).toNat + 4 * (e.testBit (patBit es.length)).toNat

/-- The cache value of an address, if it is mapped. -/
def cacheAt (m : ℕ → ℕ → ℕ) (cr3 v : ℕ) : Option ℕ := (walk m cr3 v).map cacheOf

/-- The whole page of a call has the rights and the cache value it asked for. -/
def Grants (m : ℕ → ℕ → ℕ) (cr3 : ℕ) (c : Call) : Prop :=
  ∀ v, c.Covers v → rights m cr3 v = some c.asked ∧ cacheAt m cr3 v = some c.cache

/-- The cache values that a leaf of this size gets. -/
def PageSize.caches : PageSize → ℕ
  | .s4K => 8
  | .s2M => 4
  | .s1G => 4

/-- A page that is to be writable finds `RW` in the entries that are already on
its way, and the cache value fits in the bits that the `flags` field holds. -/
def Call.Grantable (c : Call) (m : ℕ → ℕ → ℕ) (cr3 : ℕ) : Prop :=
  (c.rw = true → ∀ σ ∈ slotsFrom c.uppers [], present (entryAt m cr3 σ) = true →
    Paging.rw (entryAt m cr3 σ) = true) ∧
  c.cache < c.size.caches

instance (c : Call) (m : ℕ → ℕ → ℕ) (cr3 : ℕ) : Decidable (c.Grantable m cr3) :=
  inferInstanceAs (Decidable ((_ → ∀ σ ∈ slotsFrom c.uppers [], _ → _) ∧ _))

section Grants

variable {s s' s'' : Tables} {cr3 : ℕ} {calls : List Call} {c : Call} {V V' : List ℕ → ℕ}

theorem rights_below (hm : Maps c V V') (hphys : c.phys < 2 ^ 52) :
    rightsOf ((slotsFrom c.uppers []).map V' ++ [c.leaf]) =
      { user := c.user, nx := !c.exe,
        rw := ((slotsFrom c.uppers []).map V').all rw && c.rw } := by
  refine Call.rightsOf_leaf (by omega) fun e he => ?_
  obtain ⟨σ, hσ, rfl⟩ := List.mem_map.mp he
  obtain ⟨hne, hs⟩ := Call.mem_uppers.mp hσ
  have hup := hm.upper σ hne hs
  rw [hup.user, hup.nx]
  refine ⟨fun hu => ?_, fun hx => ?_⟩
  · rw [hu]
    cases present (V σ) <;> simp
  · rw [hx]
    rfl

/-- The new page is writable as asked exactly when the entries that were there
before have `RW`. -/
theorem asked_iff (hm : Maps c V V') (hphys : c.phys < 2 ^ 52) :
    rightsOf ((slotsFrom c.uppers []).map V' ++ [c.leaf]) = c.asked ↔
      (c.rw = true → ∀ σ ∈ slotsFrom c.uppers [], present (V σ) = true →
        rw (V σ) = true) := by
  have hrw : ∀ σ ∈ slotsFrom c.uppers [], rw (V' σ) =
      bif present (V σ) then rw (V σ) else c.rw := by
    intro σ hσ
    obtain ⟨hne, hs⟩ := Call.mem_uppers.mp hσ
    exact (hm.upper σ hne hs).rw
  rw [rights_below hm hphys, Call.asked, Rights.mk.injEq]
  simp only [true_and, and_true]
  cases hc : c.rw with
  | false => simp
  | true =>
    rw [Bool.and_true, List.all_map, List.all_eq_true, forall_prop_of_true rfl]
    refine forall₂_congr fun σ hσ => ?_
    show rw (V' σ) = true ↔ _
    rw [hrw σ hσ, hc]
    cases present (V σ) <;> simp

/-- The flags of a call are the three lowest bits. -/
theorem Call.low_lt (c : Call) : c.low < 2 ^ 3 := by
  have hall : ∀ rw user exe s4K s2M s1G, flagBits rw user exe s4K s2M s1G % 2 ^ 13 < 2 ^ 3 := by
    decide
  exact hall _ _ _ _ _ _

theorem testBit_patbits (cache : ℕ) : ((patbits4k cache).testBit 3 = cache.testBit 0 ∧
      (patbits4k cache).testBit 4 = cache.testBit 1 ∧
      (patbits4k cache).testBit 7 = cache.testBit 2) ∧
    (patbits2m cache).testBit 3 = cache.testBit 0 ∧
      (patbits2m cache).testBit 4 = cache.testBit 1 := by
  have hmod : ∀ x i, (x % 2).testBit (i + 1) = false := by
    intro x i
    rw [← pow_one 2, Nat.testBit_mod_two_pow]
    simp
  refine ⟨⟨?_, ?_, ?_⟩, ?_, ?_⟩ <;> simp [patbits4k, patbits2m, Nat.testBit_or, hmod]

/-- PWT and PCD are those of the cache value. -/
theorem Call.testBit_leaf (c : Call) :
    c.leaf.testBit 3 = c.cache.testBit 0 ∧ c.leaf.testBit 4 = c.cache.testBit 1 := by
  obtain ⟨⟨h43, h44, _⟩, h23, h24⟩ := testBit_patbits c.cache
  have hlow3 : c.low.testBit 3 = false := Nat.testBit_lt_two_pow c.low_lt
  have hlow4 : c.low.testBit 4 = false := Nat.testBit_lt_two_pow (c.low_lt.trans (by decide))
  have hhuge : Mflags.huge.testBit 3 = false ∧ Mflags.huge.testBit 4 = false := by decide
  rw [Call.leaf, testBit_setFlags, testBit_setFlags, if_pos (by decide), if_pos (by decide)]
  cases c.size <;> simp [leafFlags, Nat.testBit_or, hlow3, hlow4, hhuge, h43, h44, h23, h24]

/-- A 4 KiB leaf has the PAT bit too. -/
theorem Call.testBit_leaf_4K {c : Call} (hc : c.size = .s4K) :
    c.leaf.testBit 7 = c.cache.testBit 2 := by
  obtain ⟨⟨_, _, h47⟩, _⟩ := testBit_patbits c.cache
  have hlow : c.low.testBit 7 = false := Nat.testBit_lt_two_pow (c.low_lt.trans (by decide))
  rw [Call.leaf, testBit_setFlags, if_pos (by decide), hc]
  simp [leafFlags, Nat.testBit_or, hlow, h47]

/-- A large leaf has none: the address of a large frame is 0 there, and the `flags`
field ends below it. -/
theorem Call.testBit_leaf_large {c : Call} (hc : c.size ≠ .s4K) : c.leaf.testBit 12 = false := by
  have hframe : c.frame.testBit 12 = false := by
    rw [Call.frame, alignDown]
    cases hz : c.size with
    | s4K => exact absurd hz hc
    | s2M => exact (Nat.testBit_mul_two_pow _ 12 21).trans (by simp)
    | s1G => exact (Nat.testBit_mul_two_pow _ 12 30).trans (by simp)
  have hmask : (exeMask c.flags).testBit 12 = false := by
    rcases exeMask_cases c.flags with h | h <;> rw [h] <;> decide
  rw [Call.leaf, testBit_setFlags, if_neg (by decide), Nat.testBit_or, hframe, hmask]
  rfl

theorem Call.cacheOf_leaf (c : Call) {es : List ℕ} (hlen : es.length = c.uppers.length) :
    cacheOf (es ++ [c.leaf]) = c.cache % c.size.caches := by
  obtain ⟨h3, h4⟩ := c.testBit_leaf
  rw [cacheOf, List.getLastD_concat, List.length_append, hlen, List.length_singleton, h3, h4]
  by_cases hz : c.size = .s4K
  · have hupper : c.uppers.length = 3 := by rw [Call.uppers, hz]; rfl
    rw [hupper, patBit, Call.testBit_leaf_4K hz, hz, PageSize.caches]
    simp only [Nat.toNat_testBit]
    omega
  · have hpat : patBit (c.uppers.length + 1) = 12 := by
      rw [Call.uppers]
      cases h : c.size with
      | s4K => exact absurd h hz
      | s2M => rfl
      | s1G => rfl
    have hcaches : c.size.caches = 4 := by
      cases h : c.size with
      | s4K => exact absurd h hz
      | s2M => rfl
      | s1G => rfl
    rw [hpat, Call.testBit_leaf_large hz, hcaches]
    simp only [Nat.toNat_testBit, Bool.toNat_false]
    omega

/-- **What a page gets.** After any sequence of calls on an empty PML4 that maps no
page inside a larger one, a further call gives its whole page the rights of its
flags and its cache value if and only if, before the call, the present entries on
the way have `RW` or the page is not to be writable, and the cache value is
below 8 for a 4 KiB page, below 4 for a larger one. -/
theorem mapPage_grants_iff (hempty : Empty s cr3)
    (hphys : ∀ c' ∈ calls ++ [c], c'.phys < 2 ^ 52) (hun : Apart (calls ++ [c]))
    (hr : mapAll cr3 calls s = .ok s') (hc : c.run s' cr3 = .ok s'') :
    Grants s''.mem cr3 c ↔ c.Grantable s'.mem cr3 := by
  have hphysc : c.phys < 2 ^ 52 := hphys c (by simp)
  obtain ⟨hwf, hmarked⟩ := mapAll_marked hempty (fun c' hc' => hphys c' (by simp [hc']))
    (fun c hc c' hc' => hun c (by simp [hc]) c' (by simp [hc'])) hr
  obtain ⟨_, hmaps, _⟩ := run_marked hwf hmarked hphysc hun hc
  -- all addresses of the page have the same walk
  have hwalk : ∀ v, c.Covers v → walk s''.mem cr3 v =
      some ((slotsFrom c.uppers []).map (entryAt s''.mem cr3) ++ [c.leaf]) := by
    intro v hcov
    rw [walk_eq, walkAt_below hmaps (Call.slot_suffix_path hcov)]
  have hcache := @Call.cacheOf_leaf c ((slotsFrom c.uppers []).map (entryAt s''.mem cr3))
    (by rw [List.length_map, length_slotsFrom])
  have hpos : 0 < c.size.caches := by cases c.size <;> decide
  have hfits : c.cache % c.size.caches = c.cache ↔ c.cache < c.size.caches :=
    ⟨fun h => h ▸ Nat.mod_lt _ hpos, Nat.mod_eq_of_lt⟩
  rw [Call.Grantable, ← asked_iff hmaps hphysc, ← hfits, ← hcache]
  constructor
  · intro h
    obtain ⟨hrights, hcacheAt⟩ := h c.virt rfl
    rw [rights, hwalk _ rfl] at hrights
    rw [cacheAt, hwalk _ rfl] at hcacheAt
    exact ⟨Option.some.inj hrights, Option.some.inj hcacheAt⟩
  · rintro ⟨hrights, hcacheAt⟩ v hcov
    rw [rights, cacheAt, hwalk v hcov, Option.map_some, Option.map_some, hrights, hcacheAt]
    exact ⟨rfl, rfl⟩

/-- A user page in the 2 MiB behind the first 4 MiB. -/
def userPage (page : ℕ) (rw exe : Bool) : Call :=
  ⟨0x400000 + page * 0x1000, 0x200000 + page * 0x1000, rw, true, exe, false, false, false, 0⟩

theorem mapPage_grants_data_pages :
    ∃ s' s'', mapAll (hhdm + 0x1000) [userPage 0 true false] bootTables = .ok s' ∧
      (userPage 1 true false).run s' (hhdm + 0x1000) = .ok s'' ∧
      Grants s''.mem (hhdm + 0x1000) (userPage 1 true false) := by
  have hgood : (do
      let s' ← mapAll (hhdm + 0x1000) [userPage 0 true false] bootTables
      ((userPage 1 true false).run s' (hhdm + 0x1000)).map fun _ =>
        decide ((userPage 1 true false).Grantable s'.mem (hhdm + 0x1000))) = .ok true := by
    decide
  obtain ⟨s', hs', hgood⟩ := bind_eq_ok.mp hgood
  obtain ⟨s'', hs'', hgrant⟩ := map_eq_ok.mp hgood
  refine ⟨s', s'', hs', hs'', ?_⟩
  exact (mapPage_grants_iff bootTables_empty (by decide) (by decide) hs' hs'').mpr
    (of_decide_eq_true hgrant)

/-- After a code page, a data page in the same 2 MiB is not writable. -/
theorem data_page_not_writable :
    ∃ s' s'', mapAll (hhdm + 0x1000) [userPage 0 false true] bootTables = .ok s' ∧
      (userPage 1 true false).run s' (hhdm + 0x1000) = .ok s'' ∧
      Apart [userPage 0 false true, userPage 1 true false] ∧
      ¬ Grants s''.mem (hhdm + 0x1000) (userPage 1 true false) := by
  have hread : (do
      let s' ← mapAll (hhdm + 0x1000) [userPage 0 false true] bootTables
      ((userPage 1 true false).run s' (hhdm + 0x1000)).map fun s'' : Tables =>
        rights s''.mem (hhdm + 0x1000) 0x401000) =
      .ok (some { user := true, rw := false, nx := true }) := by
    decide +kernel
  obtain ⟨s', hs', hread⟩ := bind_eq_ok.mp hread
  obtain ⟨s'', hs'', hrights⟩ := map_eq_ok.mp hread
  refine ⟨s', s'', hs', hs'', by decide, fun h => ?_⟩
  have hasked := (h 0x401000 rfl).1
  rw [hrights] at hasked
  exact absurd hasked (by decide)

end Grants

end NeptunOS.Paging
