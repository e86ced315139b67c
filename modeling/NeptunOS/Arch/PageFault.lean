import NeptunOS.Arch.FiniteMap
import NeptunOS.Mm.Ownership

/-!
# Demand paging: `case 0xe` of `onInterrupt`

A page fault in the heap window takes a page from the physical allocator and
maps it at the faulting address, whatever the cause of the fault was. On an
unmapped page this extends the heap's map by a frame that nobody holds; on a
mapped page (a protection fault) it replaces the frame. `demand_paging` says
that the first kind of fault is exactly the harmless one, and that runs with
only such faults keep the heap's map injective and every translation in place.
-/

namespace NeptunOS

open Radix Paging Stepwise Ledger

/-- What a page fault touches: the physical allocator and the kernel's tables. -/
structure Machine where
  pmm : Pmm
  tables : Tables
  pml4 : ℕ

namespace Machine

/-- `case 0xe`, with the page it took. The error code is not read. -/
def onPageFault (m : Machine) (cr2 : ℕ) : Except Halt (ℕ × Machine) :=
  if cr2 >>> 40 = 0xffff90 then do
    let (addr, pmm) ← pmmAlloc m.pmm 4096
    if addr = minusOne then .error (.assertion "addr != -1ull")
    else do
      let tables ← mapPage m.tables m.pml4 cr2 (phys addr) Mflags.kdata 0
      return (addr, { m with pmm := pmm, tables := tables })
  else .error (.exception "Halting...")

/-- The translation of an address under the kernel's tables. -/
def translate (m : Machine) (v : ℕ) : Option ℕ := Paging.translate m.tables.mem m.pml4 v

/-- Faults, and allocations by everybody else. -/
inductive Event where
  | fault (cr2 : ℕ)
  | request (r : Pmm.Request)
deriving DecidableEq, Repr

/-- What an event asks of the physical allocator. -/
def Event.asked : Event → Pmm.Request
  | .fault _ => .alloc 4096
  | .request r => r

def step (m : Machine) : Event → Except Halt (ℕ × Machine)
  | .fault cr2 => m.onPageFault cr2
  | .request r => do
    let (ptr, pmm) ← Pmm.step m.pmm r
    return (ptr, { m with pmm := pmm })

/-- The physical bytes that an event took. -/
def taken (x : Event × ℕ) : Set ℕ := Pmm.handed (x.1.asked, x.2)

/-- The addresses that are paged on demand. -/
def HeapWindow (v : ℕ) : Prop := v >>> 40 = 0xffff90

/-- The direct map, which reaches every frame. -/
def DirectMap (v : ℕ) : Prop := hhdm ≤ v ∧ v < 0xffff900000000000

instance (v : ℕ) : Decidable (HeapWindow v) := inferInstanceAs (Decidable (_ = _))

theorem HeapWindow.bounds {v : ℕ} (h : HeapWindow v) :
    0xffff900000000000 ≤ v ∧ v < 0xffff910000000000 := by
  unfold HeapWindow at h
  omega

theorem HeapWindow.canonical {v : ℕ} (h : HeapWindow v) : Canonical v := by
  have := h.bounds
  exact .inr (by unfold hhdm; omega)

theorem HeapWindow.not_directMap {v : ℕ} (h : HeapWindow v) : ¬ DirectMap v := by
  have := h.bounds
  unfold DirectMap
  omega

/-! ## The state between faults -/

/-- Two pages of the heap have two frames. -/
def HeapInjective (m : Machine) : Prop :=
  ∀ v w p q, HeapWindow v → HeapWindow w → m.translate v = some p → m.translate w = some q →
    p / 4096 = q / 4096 → v / 4096 = w / 4096

/-- The tables are a tree, the heap window has 4 KiB pages only, and a frame that
is mapped outside the direct map is not free. -/
structure Sound (m : Machine) : Prop where
  wf : WellFormed m.tables m.pml4
  small : ∀ v, HeapWindow v → ∀ σ, σ ≠ [] → σ <:+ (path v).tail →
    present (entryAt m.tables.mem m.pml4 σ) = true →
      huge (entryAt m.tables.mem m.pml4 σ) = false
  reach : m.pmm.Mapped
  owned : ∀ v p, Canonical v → ¬ DirectMap v → m.translate v = some p →
    p / 4096 ∉ m.pmm.free
  injective : HeapInjective m

/-- The call that a fault makes. -/
def faultCall (cr2 frame : ℕ) : Call :=
  ⟨cr2, frame, true, false, false, false, false, false, 0⟩

theorem kdata_eq : Mflags.kdata = flagBits true false false false false false := by decide

theorem faultCall_size (cr2 frame : ℕ) : (faultCall cr2 frame).size = .s4K := by
  rw [Call.size_eq]
  rfl

theorem faultCall_slot (cr2 frame : ℕ) : (faultCall cr2 frame).slot = path cr2 :=
  Call.slot_4K (faultCall_size cr2 frame)

/-- What a fault in the window does: one page is granted and mapped. -/
theorem onPageFault_eq_ok {m m' : Machine} {cr2 ptr : ℕ} (h : m.onPageFault cr2 = .ok (ptr, m')) :
    HeapWindow cr2 ∧ pmmAlloc m.pmm 4096 = .ok (ptr, m'.pmm) ∧
      (faultCall cr2 (phys ptr)).run m.tables m.pml4 = .ok m'.tables ∧
      m'.pml4 = m.pml4 := by
  unfold onPageFault at h
  split at h
  case isFalse => cases h
  case isTrue hw =>
    obtain ⟨⟨addr, pmm⟩, halloc, h⟩ := bind_eq_ok.mp h
    dsimp only at h
    split at h
    case isTrue => cases h
    case isFalse =>
      obtain ⟨tables, hmap, h⟩ := bind_eq_ok.mp h
      cases h
      rw [kdata_eq] at hmap
      exact ⟨hw, halloc, hmap, rfl⟩

section Fault

variable {m m' : Machine} {cr2 ptr : ℕ}

/-- The granted page, by its number: it was free, it is the page behind the
pointer, and afterwards the window maps it at the faulting address and
everything else as before. -/
structure Extends (m : Machine) (cr2 c : ℕ) (m' : Machine) : Prop where
  free : c ∈ m.pmm.free
  rest : m'.pmm.free = m.pmm.free \ {c}
  self : ∀ v, Canonical v → v / 4096 = cr2 / 4096 →
    m'.translate v = some (c * 4096 + v % 4096)
  other : ∀ v, Canonical v → v / 4096 ≠ cr2 / 4096 → m'.translate v = m.translate v

theorem onPageFault_spec (hm : m.Sound) (h : m.onPageFault cr2 = .ok (ptr, m')) :
    ∃ c, Extends m cr2 c m' ∧ WellFormed m'.tables m'.pml4 ∧
      Maps (faultCall cr2 (c * 4096)) (entryAt m.tables.mem m.pml4)
        (entryAt m'.tables.mem m'.pml4) := by
  obtain ⟨hw, halloc, hmap, hpml4⟩ := onPageFault_eq_ok h
  obtain ⟨c, rfl, hg⟩ := Pmm.allocFrom_grant halloc
  have hpages : Pmm.pages 4096 = 1 := by decide
  have hfree : c ∈ m.pmm.free := hg.avail ⟨Nat.le_refl _, Nat.lt_succ_self _⟩
  have hc := hm.reach c hfree
  rw [hg.phys_eq hm.reach] at hmap
  have hlegal : (faultCall cr2 (c * 4096)).Legal :=
    ⟨hw.canonical, show c * 4096 < 2 ^ 47 by omega, rfl⟩
  have hnh : ∀ σ, σ ≠ [] → σ <:+ (faultCall cr2 (c * 4096)).slot.tail →
      present (entryAt m.tables.mem m.pml4 σ) = true →
        huge (entryAt m.tables.mem m.pml4 σ) = false := by
    intro σ hσ hs
    rw [faultCall_slot] at hs
    exact hm.small cr2 hw σ hσ hs
  obtain ⟨hwf, hmaps⟩ := mapPage_spec hm.wf (show c * 4096 < 2 ^ 63 by omega) hnh hmap
  rw [← hpml4] at hwf
  refine ⟨c, ⟨hfree, ?_, ?_, ?_⟩, hwf, by rw [hpml4]; exact hmaps⟩
  · rw [hg.rest]
    congr 1
    ext k
    simp only [Set.mem_Ico, Set.mem_singleton_iff]
    omega
  · intro v hv heq
    have hframe : (faultCall cr2 (c * 4096)).frame = c * 4096 := by
      rw [Call.frame, faultCall_size]
      show c * 4096 / 4096 * 4096 = c * 4096
      rw [Nat.mul_div_cancel c (by decide)]
    show Paging.translate m'.tables.mem m'.pml4 v = some (c * 4096 + v % 2 ^ 12)
    have hcov : (faultCall cr2 (c * 4096)).Covers v := by
      rw [Call.Covers, faultCall_size]
      exact heq
    rw [hpml4, translate_self hmaps hlegal hv hcov, hframe, faultCall_size]
    rfl
  · intro v hv hne
    unfold translate
    rw [hpml4]
    refine translate_other hmaps hlegal hv hnh fun hcov => hne ?_
    rwa [Call.Covers, faultCall_size] at hcov

/-- A fault keeps the state sound; on a mapped page the old frame stays taken. -/
theorem Sound.fault (hm : m.Sound) (h : m.onPageFault cr2 = .ok (ptr, m')) : m'.Sound := by
  obtain ⟨c, hext, hwf, hmaps⟩ := onPageFault_spec hm h
  have hsub : m'.pmm.free ⊆ m.pmm.free := by rw [hext.rest]; exact Set.sdiff_subset
  have hgone : c ∉ m'.pmm.free := by rw [hext.rest]; exact fun hc => hc.2 rfl
  -- the frame of a page of the window: the new one, or one held before
  have hframe : ∀ v p, HeapWindow v → m'.translate v = some p →
      v / 4096 = cr2 / 4096 ∧ p / 4096 = c ∨
        v / 4096 ≠ cr2 / 4096 ∧ m.translate v = some p ∧ p / 4096 ≠ c := by
    intro v p hv hp
    by_cases heq : v / 4096 = cr2 / 4096
    · rw [hext.self v hv.canonical heq] at hp
      obtain rfl := Option.some.inj hp
      exact .inl ⟨heq, by omega⟩
    · rw [hext.other v hv.canonical heq] at hp
      have hheld := hm.owned v p hv.canonical hv.not_directMap hp
      exact .inr ⟨heq, hp, fun hpc => hheld (hpc ▸ hext.free)⟩
  constructor
  case wf => exact hwf
  case small =>
    rw [(onPageFault_eq_ok h).2.2.2] at hmaps ⊢
    exact Small.maps hm.small hmaps (faultCall_size _ _)
  case reach => exact fun k hk => hm.reach k (hsub hk)
  case owned =>
    intro v p hv hd hp
    by_cases heq : v / 4096 = cr2 / 4096
    · rw [hext.self v hv heq] at hp
      obtain rfl := Option.some.inj hp
      have hpage : (c * 4096 + v % 4096) / 4096 = c := by omega
      rw [hpage]
      exact hgone
    · rw [hext.other v hv heq] at hp
      exact fun hin => hm.owned v p hv hd hp (hsub hin)
  case injective =>
    intro v w p q hv hw' hp hq hpq
    rcases hframe v p hv hp with ⟨hv', hpc⟩ | ⟨_, hp', hpc⟩ <;>
      rcases hframe w q hw' hq with ⟨hw'', hqc⟩ | ⟨_, hq', hqc⟩
    · rw [hv', hw'']
    · exact absurd (hpq.symm.trans hpc) hqc
    · exact absurd (hpq.trans hqc) hpc
    · exact hm.injective v w p q hv hw' hp' hq' hpq

/-- What handling a fault should do: no mapped page moves, and an unmapped page
gets a frame that was free and that no other page outside the direct map has. -/
structure Preserves (m : Machine) (cr2 : ℕ) (m' : Machine) : Prop where
  kept : ∀ v, Canonical v → (m.translate v).isSome → m'.translate v = m.translate v
  fresh : m.translate cr2 = none → ∃ p, m'.translate cr2 = some p ∧
    p / 4096 ∈ m.pmm.free ∧ p / 4096 ∉ m'.pmm.free ∧
    ∀ w q, Canonical w → ¬ DirectMap w → w / 4096 ≠ cr2 / 4096 →
      m'.translate w = some q → q / 4096 ≠ p / 4096

/-- The pages of a window are mapped or not as a whole. -/
theorem translate_none_of_page {v : ℕ} (hw : HeapWindow cr2) (hv : Canonical v)
    (heq : v / 4096 = cr2 / 4096) (hnone : m.translate cr2 = none) :
    m.translate v = none := by
  have hpath : path v = path cr2 := (path_inj hv hw.canonical).mpr heq
  have hind : indices v = indices cr2 := by
    exact congrArg List.reverse hpath
  unfold translate Paging.translate walk at *
  rw [hind]
  rw [Option.map_eq_none_iff] at hnone ⊢
  exact hnone

theorem preserves_iff (hm : m.Sound) (h : m.onPageFault cr2 = .ok (ptr, m')) :
    Preserves m cr2 m' ↔ m.translate cr2 = none := by
  obtain ⟨c, hext, _, _⟩ := onPageFault_spec hm h
  have hw := (onPageFault_eq_ok h).1
  have hself := hext.self cr2 hw.canonical rfl
  have hpage : (c * 4096 + cr2 % 4096) / 4096 = c := by omega
  constructor
  · intro hp
    cases ht : m.translate cr2 with
    | none => rfl
    | some p =>
      -- the old frame is held, the new one was free
      have hkept := hp.kept cr2 hw.canonical (by rw [ht]; rfl)
      rw [hself, ht] at hkept
      have hheld := hm.owned cr2 p hw.canonical hw.not_directMap ht
      rw [← Option.some.inj hkept, hpage] at hheld
      exact absurd hext.free hheld
  · intro hnone
    constructor
    case kept =>
      intro v hv hsome
      by_cases heq : v / 4096 = cr2 / 4096
      · rw [translate_none_of_page hw hv heq hnone] at hsome
        cases hsome
      · exact hext.other v hv heq
    case fresh =>
      intro _
      refine ⟨_, hself, by rw [hpage]; exact hext.free, ?_, ?_⟩
      · rw [hpage, hext.rest]
        exact fun hin => hin.2 rfl
      · intro w q hw' hd hne hq
        rw [hext.other w hw' hne] at hq
        have hheld := hm.owned w q hw' hd hq
        rw [hpage]
        exact fun hqc => hheld (hqc ▸ hext.free)

end Fault

/-! ## Runs -/

/-- Faults come from unmapped pages only. -/
def OnUnmapped (m : Machine) : Event → Prop
  | .fault cr2 => m.translate cr2 = none
  | .request _ => True

section Runs

variable {m m' : Machine} {x : Event} {ptr : ℕ}

/-- Every event is one request to the physical allocator. -/
theorem step_pmm (h : m.step x = .ok (ptr, m')) : Pmm.step m.pmm x.asked = .ok (ptr, m'.pmm) := by
  cases x with
  | fault cr2 => exact (onPageFault_eq_ok h).2.1
  | request r =>
    obtain ⟨⟨ptr', pmm⟩, hr, h⟩ := bind_eq_ok.mp h
    cases h
    exact hr

/-- Another client's request leaves the tables alone. -/
theorem Sound.request {r : Pmm.Request} (hm : m.Sound) (h : m.step (.request r) = .ok (ptr, m')) :
    m'.Sound ∧ ∀ v, m'.translate v = m.translate v := by
  obtain ⟨⟨ptr', pmm⟩, hr, h⟩ := bind_eq_ok.mp h
  cases h
  obtain ⟨c, _, hg⟩ := Pmm.step_grant hr
  have hsub : pmm.free ⊆ m.pmm.free := by rw [hg.rest]; exact Set.sdiff_subset
  refine ⟨?_, fun _ => rfl⟩
  constructor
  case wf => exact hm.wf
  case small => exact hm.small
  case reach => exact fun k hk => hm.reach k (hsub hk)
  case owned => exact fun v p hv hd hp hin => hm.owned v p hv hd hp (hsub hin)
  case injective => exact hm.injective

theorem Sound.step (hm : m.Sound) (h : m.step x = .ok (ptr, m')) : m'.Sound := by
  cases x with
  | fault cr2 => exact hm.fault h
  | request r => exact (hm.request h).1

/-- A step on unmapped pages moves no page. -/
theorem step_kept (hm : m.Sound) (hg : m.OnUnmapped x) (h : m.step x = .ok (ptr, m'))
    {v : ℕ} (hv : Canonical v) (hsome : (m.translate v).isSome) :
    m'.translate v = m.translate v := by
  cases x with
  | fault cr2 => exact ((preserves_iff hm h).mpr hg).kept v hv hsome
  | request r => exact (hm.request h).2 v

theorem step_takes : Takes step OnUnmapped Sound (fun m => m.pmm.freeBytes) taken := by
  intro m x ptr m' hm _ h
  obtain ⟨_, htook, hleft⟩ := Pmm.step_takes m.pmm x.asked ptr m'.pmm hm.reach trivial (step_pmm h)
  exact ⟨hm.step h, htook, hleft⟩

end Runs

/-- **Demand paging.** From every sound state, a fault in the heap window does
what it should exactly when the page was not mapped; and in every run whose
faults are all of that kind, interleaved with any other allocations, the heap's
map stays injective, no page that was mapped ever moves, and all memory taken,
for the heap or by others, is disjoint. -/
theorem demand_paging (m : Machine) (hm : m.Sound) :
    (∀ cr2 ptr m', HeapWindow cr2 → m.onPageFault cr2 = .ok (ptr, m') →
      (Preserves m cr2 m' ↔ m.translate cr2 = none)) ∧
    ∀ h m', Runs step OnUnmapped m h m' →
      HeapInjective m' ∧
      (∀ v, Canonical v → (m.translate v).isSome → m'.translate v = m.translate v) ∧
      h.Pairwise fun x y => Disjoint (taken x) (taken y) := by
  refine ⟨fun cr2 ptr m' _ h => preserves_iff hm h, fun h m' hrun => ?_⟩
  have hkept : m'.Sound ∧ ∀ v, Canonical v → (m.translate v).isSome →
      m'.translate v = m.translate v := by
    refine hrun.invariant (P := fun _ s => s.Sound ∧ ∀ v, Canonical v →
      (m.translate v).isSome → s.translate v = m.translate v) ⟨hm, fun _ _ _ => rfl⟩ ?_
    rintro _ s x ptr s' ⟨hs, hsame⟩ hg hstep
    refine ⟨hs.step hstep, fun v hv hsome => ?_⟩
    rw [step_kept hs hg hstep hv (by rw [hsame v hv hsome]; exact hsome), hsame v hv hsome]
  obtain ⟨_, hbal⟩ := runs_balanced step_takes hm hrun
  exact ⟨hkept.1.injective, hkept.2, hbal.apart⟩

/-- A machine with 63 free pages, an empty PML4 and ten frames for tables. -/
def freshMachine : Machine where
  pmm := ⟨⟨fun _ => 1#64, 64⟩, 0, 0, 0, 0, 0, false⟩
  tables := bootTables
  pml4 := hhdm + 0x1000

theorem freshMachine_translate (v : ℕ) : freshMachine.translate v = none :=
  bootTables_empty.translate v

theorem freshMachine_sound : freshMachine.Sound where
  wf := bootTables_empty.wellFormed
  small v _ σ _ _ _ := by
    show huge (entryAt bootTables.mem (hhdm + 0x1000) σ) = false
    rw [bootTables_empty.entryAt_eq_zero]
    rfl
  reach k hk := hk.1.trans (by decide)
  owned v p _ _ hp := by
    rw [freshMachine_translate] at hp
    cases hp
  injective v w p q _ _ hp := by
    rw [freshMachine_translate] at hp
    cases hp

theorem demand_paging_fresh :
    ∃ ptr m', freshMachine.onPageFault 0xffff900000000abc = .ok (ptr, m') ∧
      Preserves freshMachine 0xffff900000000abc m' ∧ HeapInjective m' := by
  have hok : (freshMachine.onPageFault 0xffff900000000abc).toOption.isSome := by
    decide
  obtain ⟨⟨ptr, m'⟩, hr⟩ := Option.isSome_iff_exists.mp hok
  have hr := eq_ok_of_toOption hr
  have hnone := freshMachine_translate 0xffff900000000abc
  obtain ⟨hstep, hruns⟩ := demand_paging freshMachine freshMachine_sound
  have hrun : Runs step OnUnmapped freshMachine [(.fault 0xffff900000000abc, ptr)] m' :=
    (Runs.nil freshMachine).snoc hnone hr
  exact ⟨ptr, m', hr, (hstep _ _ _ (by decide) hr).mpr hnone, (hruns _ _ hrun).1⟩

/-- A protection fault on a page of the heap gives it another frame. -/
theorem mapped_page_replaced :
    ∃ p₁ m₁ p₂ m₂, freshMachine.onPageFault 0xffff900000000abc = .ok (p₁, m₁) ∧
      m₁.onPageFault 0xffff900000000abc = .ok (p₂, m₂) ∧
      m₁.translate 0xffff900000000abc = some 0x1abc ∧
      m₂.translate 0xffff900000000abc = some 0x2abc := by
  have hrun : ((freshMachine.onPageFault 0xffff900000000abc).toOption.bind fun r =>
      (r.2.onPageFault 0xffff900000000abc).toOption.map fun r' =>
        (r.2.translate 0xffff900000000abc, r'.2.translate 0xffff900000000abc)) =
      some (some 0x1abc, some 0x2abc) := by
    decide +kernel
  obtain ⟨⟨p₁, m₁⟩, h₁, hrun⟩ := Option.bind_eq_some_iff.mp hrun
  obtain ⟨⟨p₂, m₂⟩, h₂, hrun⟩ := Option.map_eq_some_iff.mp hrun
  exact ⟨p₁, m₁, p₂, m₂, eq_ok_of_toOption h₁, eq_ok_of_toOption h₂,
    congrArg Prod.fst hrun, congrArg Prod.snd hrun⟩

end Machine

end NeptunOS
