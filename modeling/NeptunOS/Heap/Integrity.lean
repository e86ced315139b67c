import NeptunOS.Heap.Redzones

/-!
# Redzones over whole runs

Every heap call keeps a watched property of redzones (`Call.watched`), at its
end and, outside the relinking lines, at every statement boundary. Two
properties are watched: that all redzones are intact, and that a given byte is
damaged.

- `runs_redzones`: careful clients see no alarm, and a damaged redzone is found
  by the next check, unless `try_realloc` rewrites it first.
- `runs_scan`: the timer's `check_all` passes at every statement boundary
  outside the relinking lines.
-/

namespace NeptunOS.Heap

open Stepwise Stepwise.Prog Linked BlockList Function

/-- A sound heap below the top of the address space whose used blocks have room
for their redzones. -/
structure Guarded (size : ℕ) (m : MemoryMgr) (bs : List Blk) : Prop where
  sound : Sound size m bs
  room : m.heapBase + size + redzoneSize < 2 ^ 64
  roomy : Roomy bs

/-- A guarded heap at `base` with the property `W`. -/
structure Watched (W : Mem → List Blk → Prop) (base size : ℕ) (m : MemoryMgr)
    (bs : List Blk) : Prop extends Guarded size m bs where
  heapBase : m.heapBase = base
  watch : W m.mem bs

section

variable {size : ℕ} {m s : MemoryMgr} {bs bs' : List Blk}

section

variable (h : Guarded size m bs)

include h

theorem Guarded.size_lt : size < 2 ^ 64 := by
  have := h.room
  omega

theorem Guarded.total_lt : total bs < 2 ^ 64 := h.sound.total ▸ h.size_lt

theorem Guarded.pos : ∀ b ∈ bs, 0 < b.len := by
  intro b hb
  cases hf : b.free with
  | true => exact h.sound.freePos b hb hf
  | false =>
    obtain ⟨pre, post, rfl⟩ := List.append_of_mem hb
    have := (h.roomy _ (mem_usedAt.mpr ⟨pre, b, post, rfl, hf, rfl⟩)).1
    omega

theorem Guarded.scannable : Scannable m bs :=
  ⟨h.sound.rep.chain, h.sound.base, h.total_lt, h.pos, h.sound.rep.length_le⟩

theorem Guarded.congr (hr : Rep s bs) (hb : s.heapBase = m.heapBase) : Guarded size s bs :=
  ⟨h.sound.congr hr hb, hb ▸ h.room, h.roomy⟩

/-- A boundary that shows no new used extent passes the scan. -/
theorem Guarded.view_checkAll
    (hi : Intact m.heapBase m.mem bs) (hv : View m bs s) : checkAll s = .ok () := by
  obtain ⟨hb, hm, bs', hc, hs⟩ := hv
  have hlen : bs'.length ≤ capacity := by
    have h64 := h.sound.rep.toPool.length_le h.sound.rep.nodup
    have hids : (ids bs).length = bs.length := List.length_map ..
    have := hs.length
    unfold capacity
    omega
  have hscan : Scannable s bs' := ⟨hc, hb ▸ h.sound.base, hs.total ▸ h.total_lt, hs.pos h.pos, hlen⟩
  apply hscan.checkAll_ok
  · intro e he
    exact h.roomy e (hs.used e he)
  · intro e he
    rw [hb, hm]
    exact hi e (hs.used e he)

end

end

/-! ## Looking blocks up -/

section

variable {size p : ℕ} {m : MemoryMgr} {bs : List Blk}
variable {pre post : List Blk} {b : Blk} {q : ℕ}

theorem getSize_inv {sz : ℕ} (hc : Chain m m.first bs) (hbase : m.heapBase < 2 ^ 64)
    (h : getSize m p = .ok sz) :
    ∃ pre b post, FirstAt m.heapBase (wsub p redzoneSize) bs pre b post ∧
      sz = wsub b.len (redzoneSize * 2) := by
  obtain ⟨c, hl, h⟩ := bind_eq_ok.mp h
  rcases lookup_inv hc hbase hl with ⟨pre, b, post, hat, rfl⟩ | ⟨_, hi⟩
  · obtain rfl := hat.split
    obtain rfl := Except.ok.inj h
    exact ⟨pre, b, post, hat, by rw [hc.data.1]⟩
  · rw [hi] at h
    cases h

/-- The block found at the address of a used block is that block. -/
theorem Guarded.firstAt_used {e : ℕ × ℕ} (h : Guarded size m bs) (he : e ∈ usedAt 0 bs)
    (hq : q = wadd m.heapBase e.1) (hat : FirstAt m.heapBase q bs pre b post) :
    b.free = false ∧ e = (total pre, b.len) := by
  obtain ⟨pre', u, post', rfl, hused, rfl⟩ := mem_usedAt.mp he
  rw [hq] at hat
  have hb : 0 < b.len := h.pos b (by rw [hat.split]; simp)
  obtain ⟨rfl, rfl, rfl⟩ := hat.unique rfl (Nat.zero_add _) h.sound.base h.total_lt hb
  exact ⟨hused, by rw [Nat.zero_add]⟩

theorem FirstAt.mem_usedAt {base : ℕ} (hat : FirstAt base q bs pre b post) (hb : b.free = false) :
    (total pre, b.len) ∈ usedAt 0 bs :=
  BlockList.mem_usedAt.mpr ⟨pre, b, post, hat.split, hb, by rw [Nat.zero_add]⟩

/-- No block has the null pointer. -/
theorem Guarded.not_firstAt_null (h : Guarded size m bs) :
    ¬ FirstAt m.heapBase (wsub 0 redzoneSize) bs pre b post := by
  intro hat
  have haddr := hat.addr
  have htot := h.sound.total
  have hroom := h.room
  rw [hat.split] at htot
  simp only [total_append, total_cons] at htot
  rw [wadd_of_lt (by omega)] at haddr
  have h0 : wsub 0 redzoneSize = 2 ^ 64 - redzoneSize := by decide
  omega

end

/-! ## What a request needs -/

theorem blockSize_ge_of_pos {n : ℕ} (hn : n ≤ 2 ^ 64 - 144) (hpos : 0 < n) : 144 ≤ blockSize n := by
  have h := @le_align n minAlloc (by decide) (by unfold minAlloc; omega)
  have h16 : 16 ∣ align n minAlloc := align_dvd n 16
  unfold blockSize redzoneSize
  unfold minAlloc at *
  rw [wadd_of_lt (by omega)]
  omega

theorem blockSize_ge {n : ℕ} (hn : n ≤ 2 ^ 64 - 144) : 128 ≤ blockSize n := by
  by_cases h0 : n = 0
  · subst h0
    decide
  · have := blockSize_ge_of_pos hn (Nat.pos_of_ne_zero h0)
    omega

/-- Requests whose block length does not wrap around, and are not empty where
that makes a block too small for `check`. An aligned request may find no block,
as long as the redzones it then writes behind the heap do not wrap into it. -/
def Call.Proper (size : ℕ) (m : MemoryMgr) : Call → Prop
  | .alloc n => n ≤ 2 ^ 64 - 144
  | .allocAligned n a => 0 < n ∧ n ≤ 2 ^ 64 - 144 ∧ a < 2 ^ 32 ∧
      (alignedFound m n a = true ∨ size + blockSize n ≤ 2 ^ 64)
  | .tryRealloc ptr n => ptr < 2 ^ 64 ∧ n ≤ 2 ^ 64 - 144
  | .realloc ptr n => ptr < 2 ^ 64 ∧ n ≤ 2 ^ 64 - 144
  | .free p => p < 2 ^ 64

instance (size : ℕ) (m : MemoryMgr) : (c : Call) → Decidable (c.Proper size m)
  | .alloc n => inferInstanceAs (Decidable (n ≤ 2 ^ 64 - 144))
  | .allocAligned n a => inferInstanceAs (Decidable (0 < n ∧ n ≤ 2 ^ 64 - 144 ∧ a < 2 ^ 32 ∧
      (alignedFound m n a = true ∨ size + blockSize n ≤ 2 ^ 64)))
  | .tryRealloc ptr n | .realloc ptr n =>
    inferInstanceAs (Decidable (ptr < 2 ^ 64 ∧ n ≤ 2 ^ 64 - 144))
  | .free p => inferInstanceAs (Decidable (p < 2 ^ 64))

/-- The call is a reallocation of `p` that succeeds in place. -/
def Call.InPlace (m : MemoryMgr) (p : ℕ) : Call → Prop
  | .tryRealloc ptr n => ptr = p ∧ fitsInPlace m ptr n = true
  | .realloc ptr n => ptr = p ∧ fitsInPlace m ptr n = true
  | _ => False

instance (m : MemoryMgr) (p : ℕ) : (c : Call) → Decidable (c.InPlace m p)
  | .alloc _ | .allocAligned _ _ | .free _ => inferInstanceAs (Decidable False)
  | .tryRealloc ptr n | .realloc ptr n =>
    inferInstanceAs (Decidable (ptr = p ∧ fitsInPlace m ptr n = true))

/-- `realloc` gets null or the pointer of a used block. -/
def Call.LiveArg (m : MemoryMgr) : Call → Prop
  | .realloc ptr _ => ptr = 0 ∨ ∃ e ∈ usedBlocks m, ptr = wadd e.1 redzoneSize
  | _ => True

section

variable {W : Mem → List Blk → Prop} {base size : ℕ} {inPlace : ℕ → Prop}
  {m s : MemoryMgr} {bs bs' : List Blk}

/-! ## Outcomes of the operations -/

theorem Watched.relock (h : Watched W base size m bs) (b : Bool) :
    Watched W base size { m with locked := b } bs :=
  ⟨h.toGuarded.congr (h.sound.rep.congr rfl rfl rfl rfl rfl rfl) rfl, h.heapBase, h.watch⟩

variable (hw : Watch base size inPlace W)

include hw

theorem Watched.cut {n off : ℕ} (h : Watched W base size m bs) (hn : n ≤ 2 ^ 64 - 144)
    (hpos : 0 < n) (hcut : Cut (blockSize n) bs off bs')
    (hd : AllocDone m (blockSize n) (wadd m.heapBase off) bs' s) :
    Watched W base size s bs' := by
  have hlen := blockSize_ge_of_pos hn hpos
  refine ⟨⟨h.sound.cut hcut hd, hd.heapBase ▸ h.room, ?_⟩, hd.heapBase.trans h.heapBase, ?_⟩
  · intro e he
    rcases hcut.mem_usedAt.mp he with rfl | he
    · exact ⟨hlen, blockSize_dvd n⟩
    · exact h.roomy e he
  · rw [hd.mem, h.heapBase]
    exact hw.cut h.sound.total h.roomy hcut hlen h.watch

theorem AllocPost.watched {n p : ℕ} (h : Watched W base size m bs)
    (hn : n ≤ 2 ^ 64 - 144) (hp : AllocPost m bs n p s) :
    ∃ bs', Watched W base size s bs' := by
  rcases hp with ⟨_, _, rfl⟩ | ⟨hne, off, bs', hcut, hd, _⟩
  · exact ⟨bs, h⟩
  · exact ⟨bs', h.cut hw hn (Nat.pos_of_ne_zero hne) hcut hd⟩

omit hw in
/-- A request that returns null was empty. -/
theorem AllocPost.of_null {n p : ℕ} (h : Guarded size m bs) (hp0 : p = 0)
    (hp : AllocPost m bs n p s) : n = 0 ∧ s = m := by
  rcases hp with ⟨hn, _, hs⟩ | ⟨_, off, bs', hcut, _, hp⟩
  · exact ⟨hn, hs⟩
  · have hne := ptr_ne_zero h.room (h.sound.total ▸ hcut.off_le)
    exact absurd (hp.symm.trans hp0) hne

section

variable (h : Watched W base size m bs)

include h

theorem AlignedPost.watched {n a p : ℕ}
    (hc : (Call.allocAligned n a).Proper size m) (hp : AlignedPost m bs n a p s) :
    ∃ bs', Watched W base size s bs' := by
  obtain ⟨hpos, hn, _, hfound⟩ := hc
  rcases hp with ⟨off, bs', hcut, hd, _⟩ | ⟨hmiss, hd, _⟩
  · exact ⟨bs', h.cut hw hn hpos hcut hd⟩
  · rw [hmiss, or_iff_right (by simp)] at hfound
    refine ⟨bs, h.toGuarded.congr hd.rep hd.heapBase, hd.heapBase.trans h.heapBase, ?_⟩
    rw [hd.mem, h.heapBase, h.sound.total]
    exact hw.miss h.sound.total h.roomy (blockSize_ge_of_pos hn hpos) hfound h.watch

theorem TryPost.watched {ptr n : ℕ} {r : Bool} (hptr : ptr < 2 ^ 64) (hn : n ≤ 2 ^ 64 - 144)
    (hin : fitsInPlace m ptr n = true → inPlace ptr) (hp : TryPost m bs ptr n r s) :
    ∃ bs', Watched W base size s bs' := by
  rcases hp with ⟨_, p, hp, _⟩ | ⟨_, hfits, pre, b, post, hat, hres⟩
  · exact hp.watched hw h hn
  · obtain rfl := hat.split
    have hq : wsub ptr redzoneSize = wadd base (total pre) := by
      rw [hat.addr, h.heapBase]
    have hp : ptr = wadd base (total pre + redzoneSize) := by
      rw [← wadd_assoc, ← hq, wsub_wadd_cancel hptr (by decide)]
    rcases hres with ⟨_, _, rfl⟩ | ⟨rfl, hle, rfl⟩ | ⟨rfl, k, tail, post', rfl, hg⟩
    · exact ⟨_, h⟩
    · have hge := blockSize_ge hn
      refine ⟨_, h.toGuarded.congr (h.sound.rep.congr rfl rfl rfl rfl rfl rfl) rfl, h.heapBase, ?_⟩
      dsimp only
      rw [hq]
      exact hw.fit h.sound.total h.roomy (by omega) (hp ▸ hin hfits.symm) h.watch
    · have hb := Coalesced.used_before h.sound.coalesced hg.free
      obtain ⟨others, hnew, hold, _⟩ :=
        @usedAt_grown pre tail post' b k (blockSize n) hb hg.free hg.spare hg.len
      have hblen := (h.roomy _ ((hold _).mpr (.inl rfl))).1
      refine ⟨_, ⟨h.sound.grown hg, hg.heapBase ▸ h.room, ?_⟩, hg.heapBase.trans h.heapBase, ?_⟩
      · intro e he
        rcases (hnew e).mp he with rfl | he
        · exact ⟨Nat.le_of_lt (Nat.lt_of_le_of_lt hblen hg.lt), blockSize_dvd n⟩
        · exact h.roomy e ((hold e).mpr (.inr he))
      · rw [hg.mem, hq]
        exact hw.grow h.sound.total h.roomy hb hg.free hg.spare hg.len hg.lt
          (hp ▸ hin hfits.symm) h.watch

theorem FreePost.watched {p : ℕ} (hp : FreePost m bs p s) : ∃ bs', Watched W base size s bs' := by
  rcases hp with ⟨_, rfl⟩ | ⟨_, pre, b, post, hat, hused, hlen, hdress, hd⟩
  · exact ⟨bs, h⟩
  · obtain rfl := hat.split
    have hperm := @usedAt_release_perm ℕ 0 pre post b hused
    refine ⟨_, ⟨h.sound.release hused (by omega) hd, hd.heapBase ▸ h.room, ?_⟩,
      hd.heapBase.trans h.heapBase, ?_⟩
    · intro e he
      exact h.roomy e (hperm.mem_iff.mpr (List.mem_cons_of_mem _ he))
    · rw [hd.mem]
      refine hw.release hused hlen ?_ h.watch
      rwa [hat.addr, h.heapBase] at hdress

/-- The copy of `realloc` stays inside the payload of the new block. -/
theorem Watched.copy {n off oldsize o l : ℕ} (ptr : ℕ)
    (hnew : (off, blockSize n) ∈ usedAt 0 bs) (hold : (o, l) ∈ usedAt 0 bs)
    (hle : l ≤ blockSize n) (hsz : oldsize = wsub l (redzoneSize * 2)) :
    Watched W base size { m with
      mem := memcpy m.mem (wadd base (off + redzoneSize)) ptr oldsize } bs := by
  refine ⟨h.toGuarded.congr (h.sound.rep.congr rfl rfl rfl rfl rfl rfl) rfl, h.heapBase, ?_⟩
  refine hw.store h.sound.total h.roomy hnew (fun k hk hout => ?_) h.watch
  have hl := (h.roomy _ hold).1
  have hend := usedAt_le_total hnew
  have htot := h.total_lt
  have hsize := h.size_lt
  rw [wsub_of_le (by have := blockSize_lt n; omega) (by unfold redzoneSize; omega)] at hsz
  refine memcpy_frame (wadd_lt _ _) (wadd_lt _ _) (by omega) ?_
  unfold redzoneSize at *
  unfold wsub wadd
  omega

/-- After a request that did not fit in place, the old block is no larger than
the new one. -/
theorem AllocPost.copy_room {n p ptr : ℕ} {pre post : List Blk} {b : Blk} (hn : n ≤ 2 ^ 64 - 144)
    (hat : FirstAt m.heapBase (wsub ptr redzoneSize) bs pre b post)
    (hlt : b.len < blockSize n) (hp : AllocPost m bs n p s) :
    ∃ bs', Watched W base size s bs' ∧ (∀ e ∈ usedAt 0 bs, e ∈ usedAt 0 bs') ∧
      ∀ {pre' b' post'}, FirstAt s.heapBase (wsub ptr redzoneSize) bs' pre' b' post' →
        b'.free = false →
        ∃ off, (off, blockSize n) ∈ usedAt 0 bs' ∧ p = wadd base (off + redzoneSize) ∧
          b'.len ≤ blockSize n := by
  rcases hp with ⟨rfl, rfl, rfl⟩ | ⟨hne, off, bs', hcut, hd, rfl⟩
  · refine ⟨bs, h, fun _ he => he, ?_⟩
    intro pre' b' post' hat' hb'
    -- a used block has room for an empty request
    have hused := hat'.mem_usedAt hb'
    obtain ⟨_, heq⟩ := h.toGuarded.firstAt_used hused hat'.addr hat
    have hlen := (h.roomy _ hused).1
    rw [heq] at hlen
    have h0 : blockSize 0 = 128 := by decide
    omega
  · refine ⟨bs', h.cut hw hn (Nat.pos_of_ne_zero hne) hcut hd,
      fun e he => hcut.mem_usedAt.mpr (.inr he), ?_⟩
    intro pre' b' post' hat' hb'
    refine ⟨off, hcut.mem_usedAt.mpr (.inl rfl), by rw [h.heapBase], ?_⟩
    rw [hd.heapBase] at hat'
    rcases hcut.mem_usedAt.mp (hat'.mem_usedAt hb') with heq | hused
    · exact Nat.le_of_eq (Prod.mk.inj heq).2
    · obtain ⟨_, heq⟩ := h.toGuarded.firstAt_used hused hat'.addr hat
      rw [(Prod.mk.inj heq).2]
      exact Nat.le_of_lt hlt

end

/-! ## Calls -/

section

variable {B : ℕ → MemoryMgr → Prop}
  (hR : ∀ line s, relinking line = true → B line s)
  (hB : ∀ line m bs s, Watched W base size m bs → View m bs s → B line s)

include hR hB

omit hw hR in
theorem Watched.boundary {line : ℕ} (h : ∃ bs', Watched W base size s bs') : B line s := by
  obtain ⟨bs', h⟩ := h
  exact hB line s bs' s h (View.of_chain rfl rfl h.sound.rep.chain)

section

variable (h : Watched W base size m bs)

include h

theorem alloc_watched {n : ℕ} (hn : n ≤ 2 ^ 64 - 144) :
    (alloc n).Spec m B fun p s => AllocPost m bs n p s := by
  refine alloc_spec hR (fun line s => hB line m bs s h) h.sound.rep h.total_lt h.sound.base
    n fun line p s hs => ?_
  obtain ⟨b, hs⟩ := hs
  exact Watched.boundary hB (hs.watched hw (h.relock b) hn)

theorem allocAligned_watched {n a : ℕ} (hc : (Call.allocAligned n a).Proper size m) :
    (allocAligned n a).Spec m B fun _ s => ∃ bs', Watched W base size s bs' := by
  refine (allocAligned_spec hR (fun line s => hB line m bs s h) h.sound.rep h.total_lt
    h.sound.base n a (fun line p s hs => ?_) fun h0 => ?_).mono (fun _ _ hb => hb)
    fun _ _ hs => hs.watched hw h hc
  · obtain ⟨b, hs⟩ := hs
    have hc' : (Call.allocAligned n a).Proper size { m with locked := b } := by
      refine ⟨hc.1, hc.2.1, hc.2.2.1, ?_⟩
      rw [alignedFound_locked]
      exact hc.2.2.2
    exact Watched.boundary hB (hs.watched hw (h.relock b) hc')
  · have := blockSize_ge hc.2.1
    omega

theorem tryRealloc_watched {ptr n : ℕ} (hptr : ptr < 2 ^ 64) (hn : n ≤ 2 ^ 64 - 144)
    (hin : fitsInPlace m ptr n = true → inPlace ptr) :
    (tryRealloc ptr n).Spec m B fun r s => TryPost m bs ptr n r s := by
  refine tryRealloc_spec hR (fun line s => hB line m bs s h) h.sound.rep h.total_lt
    h.sound.base ptr n fun line r s hs => ?_
  obtain ⟨b, hs⟩ := hs
  refine Watched.boundary hB (hs.watched hw (h.relock b) hptr hn ?_)
  rw [fitsInPlace_locked]
  exact hin

theorem free_watched (p : ℕ) : (free p).Spec m B fun _ s => ∃ bs', Watched W base size s bs' :=
  (free_spec hR (fun line s => hB line m bs s h) h.sound.rep h.total_lt h.sound.base p).mono
    (fun _ _ hb => hb) fun _ _ hs => hs.watched hw h

/-- `realloc` on a live pointer. With a dangling one, which `free` then rejects,
only the result is covered. -/
theorem realloc_watched {ptr n : ℕ} (hptr : ptr < 2 ^ 64)
    (hn : n ≤ 2 ^ 64 - 144) (hin : fitsInPlace m ptr n = true → inPlace ptr)
    (hlive : (ptr = 0 ∨ ∃ e ∈ usedAt 0 bs, ptr = wadd base (e.1 + redzoneSize)) ∨
      ∀ line s, B line s) :
    (realloc ptr n).Spec m B fun _ s => ∃ bs', Watched W base size s bs' := by
  unfold realloc
  apply Spec.bind (tryRealloc_watched hw hR hB h hptr hn hin)
  intro r s hs
  cases r with
  | true => exact Spec.pure (hs.watched hw h hptr hn hin)
  | false =>
    rcases hs with ⟨rfl, p, hp, hr⟩ | ⟨hne, _, pre, b, post, hat, hres⟩
    · obtain ⟨rfl, rfl⟩ := AllocPost.of_null h.toGuarded (by simpa using hr.symm) hp
      apply Spec.bind (alloc_watched hw hR hB h hn)
      rintro q s' (⟨_, _, rfl⟩ | ⟨h0, _⟩)
      · apply Spec.read_bind
        apply Spec.lift_bind
        intro oldsize hsz
        obtain ⟨pre, b, post, hat, _⟩ := getSize_inv h.sound.rep.chain h.sound.base hsz
        exact absurd hat h.toGuarded.not_firstAt_null
      · exact absurd rfl h0
    · obtain ⟨hlt, rfl⟩ : b.len < blockSize n ∧ s = m := by
        rcases hres with ⟨_, hlt, rfl⟩ | ⟨hr, _⟩ | ⟨hr, _⟩
        · exact ⟨hlt, rfl⟩
        · cases hr
        · cases hr
      apply Spec.bind (alloc_watched hw hR hB h hn)
      intro q s' hq
      apply Spec.read_bind
      apply Spec.lift_bind
      intro oldsize hsz
      obtain ⟨bs', h', hkeep, hnew⟩ := AllocPost.copy_room hw h hn hat hlt hq
      obtain ⟨pre', b', post', hat', hsz'⟩ := getSize_inv h'.sound.rep.chain h'.sound.base hsz
      by_cases hb' : b'.free = false
      · obtain ⟨off, hoff, rfl, hle⟩ := hnew hat' hb'
        have hcopy := h'.copy hw ptr hoff (hat'.mem_usedAt hb') hle hsz'
        apply Spec.stmt_bind (Watched.boundary hB ⟨_, hcopy⟩)
        apply Spec.bind (free_watched hw hR hB hcopy ptr)
        intro _ t ht
        exact Spec.pure ht
      · -- `free` refuses the block, so nothing is left to show but the boundaries
        have hall : ∀ line s, B line s := by
          rcases hlive with (h0 | ⟨e, he, hp⟩) | hall
          · exact absurd h0 hne
          · have hq : wsub ptr redzoneSize = wadd s'.heapBase e.1 := by
              rw [hp, h'.heapBase, ← wadd_assoc, wadd_wsub_cancel (wadd_lt _ _) (by decide)]
            exact absurd (h'.toGuarded.firstAt_used (hkeep e he) hq hat').1 hb'
          · exact hall
        apply Spec.stmt_bind (hall _ _)
        refine Spec.bind (P := fun _ _ => False) ?_ fun _ _ hf => hf.elim
        have hrep : Rep { s' with mem := memcpy s'.mem q ptr oldsize } bs' :=
          h'.sound.rep.congr rfl rfl rfl rfl rfl rfl
        apply (free_spec (fun line s _ => hall line s) (fun line s _ => hall line s) hrep
          h'.total_lt h'.sound.base ptr).mono fun _ _ hb => hb
        rintro _ t (⟨h0, _⟩ | ⟨_, pre2, b2, post2, hat2, hused, hlen, _⟩)
        · exact hne h0
        · have hat3 : FirstAt s'.heapBase (wsub ptr redzoneSize) bs' pre2 b2 post2 := hat2
          rw [hat'.addr] at hat3
          obtain ⟨_, rfl, _⟩ := hat3.unique hat'.split rfl h'.sound.base h'.total_lt
            (by omega)
          exact hb' hused

/-- **Every call keeps what is watched.** -/
theorem Call.watched {c : Call} (hc : c.Proper size m)
    (hin : ∀ p, c.InPlace m p → inPlace p) (hlive : c.LiveArg m ∨ ∀ line s, B line s) :
    c.prog.Spec m B fun _ s => ∃ bs', Watched W base size s bs' := by
  cases c with
  | alloc n =>
    exact (alloc_watched hw hR hB h hc).mono (fun _ _ hb => hb)
      fun _ _ hs => hs.watched hw h hc
  | allocAligned n a => exact allocAligned_watched hw hR hB h hc
  | tryRealloc ptr n =>
    have hin' : fitsInPlace m ptr n = true → inPlace ptr := fun hf => hin ptr ⟨rfl, hf⟩
    apply Spec.bind (tryRealloc_watched hw hR hB h hc.1 hc.2 hin')
    intro r s hs
    exact Spec.pure (hs.watched hw h hc.1 hc.2 hin')
  | realloc ptr n =>
    refine realloc_watched hw hR hB h hc.1 hc.2 (fun hf => hin ptr ⟨rfl, hf⟩) ?_
    refine hlive.imp_left fun hl => hl.imp_right ?_
    rintro ⟨e, he, rfl⟩
    rw [h.scannable.usedBlocks_eq, List.mem_map] at he
    obtain ⟨f, hf, rfl⟩ := he
    exact ⟨f, hf, by rw [wadd_assoc, h.heapBase]⟩
  | free p =>
    apply Spec.bind (free_watched hw hR hB h p)
    intro _ s hs
    exact Spec.pure hs

end

end

end

/-! ## Runs -/

/-- The address lies in the payload `[p, p + get_size(p))` of a used block. -/
def InPayload (m : MemoryMgr) (x : ℕ) : Prop :=
  x < 2 ^ 64 ∧ ∃ e ∈ usedBlocks m,
    wsub x (wadd e.1 redzoneSize) < wsub e.2 (redzoneSize * 2)

/-- The address lies in a redzone of the block `e`. -/
def InRedzone (e : ℕ × ℕ) (x : ℕ) : Prop :=
  x < 2 ^ 64 ∧ wsub x e.1 < e.2 ∧
    (wsub x e.1 < redzoneSize ∨ e.2 - redzoneSize ≤ wsub x e.1)

/-- Proper calls, and clients that store into payloads only. -/
def Event.Careful (size : ℕ) (m : MemoryMgr) : Event → Prop
  | .call c => c.Proper size m
  | .write addr _ => InPayload m addr

/-- Proper calls, and clients that store anywhere. -/
def Event.Careless (size : ℕ) (m : MemoryMgr) : Event → Prop
  | .call c => c.Proper size m
  | .write addr _ => addr < 2 ^ 64

/-- What may happen between a store to the redzone byte `x` of the block `e` and
the check that finds it: `x` is not stored to again, and if it is in the
trailing redzone, the block is not reallocated in place. -/
def Event.Leaves (size : ℕ) (e : ℕ × ℕ) (x : ℕ) (m : MemoryMgr) : Event → Prop
  | .call c => c.Proper size m ∧
      (wsub x e.1 < redzoneSize ∨ ¬ c.InPlace m (wadd e.1 redzoneSize))
  | .write addr _ => addr < 2 ^ 64 ∧ addr ≠ x

instance (m : MemoryMgr) (x : ℕ) : Decidable (InPayload m x) :=
  inferInstanceAs (Decidable (_ ∧ ∃ e ∈ usedBlocks m, _))

instance (size : ℕ) (m : MemoryMgr) : (e : Event) → Decidable (e.Careful size m)
  | .call c => inferInstanceAs (Decidable (c.Proper size m))
  | .write addr _ => inferInstanceAs (Decidable (InPayload m addr))

instance (size : ℕ) (m : MemoryMgr) : (e : Event) → Decidable (e.Careless size m)
  | .call c => inferInstanceAs (Decidable (c.Proper size m))
  | .write addr _ => inferInstanceAs (Decidable (addr < 2 ^ 64))

instance (size : ℕ) (e : ℕ × ℕ) (x : ℕ) (m : MemoryMgr) :
    (ev : Event) → Decidable (ev.Leaves size e x m)
  | .call c => inferInstanceAs (Decidable (c.Proper size m ∧
      (wsub x e.1 < redzoneSize ∨ ¬ c.InPlace m (wadd e.1 redzoneSize))))
  | .write addr _ => inferInstanceAs (Decidable (addr < 2 ^ 64 ∧ addr ≠ x))

section

variable {heap size : ℕ} {buffer : ℕ → BitVec 64} {mem : Mem}
  {hist : List (Event × ℕ)} {m : MemoryMgr} {bs : List Blk}
variable {W : Mem → List Blk → Prop} {inPlace : ℕ → Prop}

theorem init_watched (hpos : 0 < size) (hroom : heap + size + redzoneSize < 2 ^ 64)
    (hW : W mem [⟨0, size, true⟩]) :
    Watched W heap size (init heap size buffer mem) [⟨0, size, true⟩] := by
  have hbooks := init_books buffer mem (show heap < 2 ^ 64 by omega)
    (show size < 2 ^ 64 by omega) hpos
  exact ⟨⟨hbooks.toSound, hroom, fun e he => by cases he⟩, rfl, hW⟩

/-- A store into a payload. -/
theorem Watched.write {x : ℕ} {v : UInt8} (hw : Watch heap size inPlace W)
    (h : Watched W heap size m bs) (hx : InPayload m x) :
    Watched W heap size { m with mem := update m.mem x v } bs := by
  refine ⟨h.toGuarded.congr (h.sound.rep.congr rfl rfl rfl rfl rfl rfl) rfl, h.heapBase, ?_⟩
  obtain ⟨hx, e, he, hin⟩ := hx
  rw [h.scannable.usedBlocks_eq, List.mem_map] at he
  obtain ⟨f, hf, rfl⟩ := he
  refine hw.store h.sound.total h.roomy hf (fun k hk hout => ?_) h.watch
  have hlen := (h.roomy f hf).1
  have hend := usedAt_le_total hf
  have htot := h.total_lt
  rw [h.sound.total] at hend htot
  apply update_of_ne
  rintro rfl
  apply hout
  rw [h.heapBase] at hin
  unfold redzoneSize at *
  unfold wsub wadd at hin
  omega

/-- A run of proper calls and harmless stores keeps what is watched. -/
theorem runs_watched {guard : MemoryMgr → Event → Prop} {m' : MemoryMgr}
    (hw : Watch heap size inPlace W)
    (hcall : ∀ m c, guard m (.call c) → c.Proper size m ∧ ∀ p, c.InPlace m p → inPlace p)
    (hwrite : ∀ m bs x v, guard m (.write x v) → Watched W heap size m bs →
      Watched W heap size { m with mem := update m.mem x v } bs)
    (hinit : ∃ bs, Watched W heap size m bs) (hrun : Runs step guard m hist m') :
    ∃ bs, Watched W heap size m' bs := by
  apply hrun.invariant (P := fun _ m => ∃ bs, Watched W heap size m bs) hinit
  rintro _ s ev r s' ⟨bs, h⟩ hg hstep
  cases ev with
  | write x v =>
    cases hstep
    exact ⟨bs, hwrite s bs x v hg h⟩
  | call c =>
    obtain ⟨hc, hin⟩ := hcall s c hg
    exact (Call.watched hw (B := anywhere) (fun _ _ _ => trivial)
      (fun _ _ _ _ _ _ => trivial) h hc hin (.inr fun _ _ => trivial)).2 r s' hstep

/-- Careful clients keep all redzones intact. -/
theorem runs_intact (hpos : 0 < size) (hroom : heap + size + redzoneSize < 2 ^ 64)
    (hrun : Runs step (Event.Careful size) (init heap size buffer mem) hist m) :
    ∃ bs, Watched (Intact heap) heap size m bs := by
  have hw := intact_watch heap (show size < 2 ^ 64 by omega)
  refine runs_watched hw (fun m c hc => ⟨hc, fun _ _ => trivial⟩)
    (fun m bs x v hx h => h.write hw hx) ⟨_, init_watched hpos hroom ?_⟩ hrun
  intro e he
  cases he

theorem runs_guarded (hpos : 0 < size) (hroom : heap + size + redzoneSize < 2 ^ 64)
    (hrun : Runs step (Event.Careless size) (init heap size buffer mem) hist m) :
    m.heapBase = heap ∧ ∃ bs, Guarded size m bs := by
  have hw : Watch heap size (fun _ => True) fun _ _ => True := by
    constructor <;> intros <;> trivial
  have hall : ∃ bs, Watched (fun _ _ => True) heap size m bs := by
    refine runs_watched hw (fun m c hc => ⟨hc, fun _ _ => trivial⟩) (fun m bs x v hx h => ?_)
      ⟨_, init_watched hpos hroom trivial⟩ hrun
    exact ⟨h.toGuarded.congr (h.sound.rep.congr rfl rfl rfl rfl rfl rfl) rfl, h.heapBase, trivial⟩
  obtain ⟨bs, h⟩ := hall
  exact ⟨h.heapBase, bs, h.toGuarded⟩

/-- A damaged redzone stops every check of its block. -/
theorem Watched.scar_found {o k : ℕ} (h : Watched (Scar heap o k) heap size m bs) :
    checkPtr m (wadd heap (o + redzoneSize)) ≠ .ok () ∧ checkAll m ≠ .ok () ∧
      ∀ s, (free (wadd heap (o + redzoneSize))).run m ≠ .ok ((), s) := by
  obtain ⟨l, he, hk, hbad⟩ := h.watch
  have hlen := (h.roomy _ he).1
  have hundressed : ¬ Dressed m.mem (wadd m.heapBase o) l := by
    rw [dressed_iff (redzone_le (by dsimp only at hlen; omega)), h.heapBase]
    exact fun hall => hbad (hall k hk)
  refine ⟨?_, ?_, ?_⟩
  · intro hok
    rw [← h.heapBase] at hok
    exact hundressed ((h.scannable.checkPtr_eq_ok he).mp hok).2.2
  · intro hok
    exact hundressed (h.scannable.checkAll_eq_ok.mp hok _ he).2.2
  · intro s hrun
    rcases free_post h.sound.rep h.total_lt h.sound.base hrun with
      ⟨h0, _⟩ | ⟨_, pre, b, post, hat, _, _, hdress, _⟩
    · have hoff := usedAt_le_total he
      rw [h.sound.total] at hoff
      have hroom := h.room
      rw [h.heapBase] at hroom
      exact ptr_ne_zero hroom (by dsimp only at hoff; omega) h0
    · have hq : wsub (wadd heap (o + redzoneSize)) redzoneSize = wadd m.heapBase o := by
        rw [← wadd_assoc, wadd_wsub_cancel (wadd_lt _ _) (by decide), h.heapBase]
      rw [hq] at hat hdress
      obtain ⟨_, heq⟩ := h.toGuarded.firstAt_used he rfl hat
      rw [← (Prod.mk.inj heq).2] at hdress
      exact hundressed hdress

/-- **Redzones.** In every run of proper calls and stores into payloads, both
redzones of every used block are intact and no check raises an alarm. And after
a store that damages a redzone byte of a used block, that block fails every
check, however the run goes on, as long as the byte is not stored to again and,
if it is in the trailing redzone, the block is not reallocated in place. -/
theorem runs_redzones (hpos : 0 < size) (hroom : heap + size + redzoneSize < 2 ^ 64) :
    (∀ hist m, Runs step (Event.Careful size) (init heap size buffer mem) hist m →
      checkAll m = .ok () ∧ ∀ e ∈ usedBlocks m, Dressed m.mem e.1 e.2 ∧
        checkPtr m (wadd e.1 redzoneSize) = .ok ()) ∧
    ∀ hist m, Runs step (Event.Careless size) (init heap size buffer mem) hist m →
      ∀ e ∈ usedBlocks m, ∀ x v, InRedzone e x → v ≠ redzoneMagic →
        ∀ hist' m', Runs step (Event.Leaves size e x)
            { m with mem := update m.mem x v } hist' m' →
          checkPtr m' (wadd e.1 redzoneSize) ≠ .ok () ∧ checkAll m' ≠ .ok () ∧
            ∀ s, (free (wadd e.1 redzoneSize)).run m' ≠ .ok ((), s) := by
  constructor
  · intro hist m hrun
    obtain ⟨bs, h⟩ := runs_intact hpos hroom hrun
    have hscan := h.scannable
    have hintact : Intact m.heapBase m.mem bs := h.heapBase ▸ h.watch
    have hall := hscan.checkAll_ok h.roomy hintact
    refine ⟨hall, fun e he => ?_⟩
    rw [hscan.usedBlocks_eq, List.mem_map] at he
    obtain ⟨f, hf, rfl⟩ := he
    have hpass := hscan.checkAll_eq_ok.mp hall f hf
    refine ⟨hpass.2.2, ?_⟩
    rw [wadd_assoc]
    exact (hscan.checkPtr_eq_ok hf).mpr hpass
  · intro hist m hrun e he x v hx hv hist' m' hrun'
    obtain ⟨rfl, bs, h⟩ := runs_guarded hpos hroom hrun
    rw [h.scannable.usedBlocks_eq, List.mem_map] at he
    obtain ⟨⟨o, l⟩, hf, rfl⟩ := he
    obtain ⟨hx64, hin, hzone⟩ := hx
    dsimp only at hin hzone
    -- the byte's offset from the heap's base
    have hxk : x = wadd m.heapBase (o + wsub x (wadd m.heapBase o)) := by
      unfold wadd wsub
      omega
    have hscar : Watched (Scar m.heapBase o (o + wsub x (wadd m.heapBase o))) m.heapBase size
        { m with mem := update m.mem x v } bs := by
      refine ⟨h.congr (h.sound.rep.congr rfl rfl rfl rfl rfl rfl) rfl, rfl, l, hf, ?_, ?_⟩
      · unfold Zone
        omega
      · rw [← hxk]
        simpa using hv
    have hw := scar_watch m.heapBase o (o + wsub x (wadd m.heapBase o)) h.size_lt
    have hend := runs_watched hw (fun s c hc => ⟨hc.1, fun p hp heq => ?_⟩)
      (fun s bs' y u hy hs => ?_) ⟨bs, hscar⟩ hrun'
    · obtain ⟨bs', h'⟩ := hend
      rw [wadd_assoc]
      exact h'.scar_found
    · rcases hc.2 with hlead | hnot
      · dsimp only at hlead
        omega
      · rw [heq, ← wadd_assoc] at hp
        exact absurd hp hnot
    · obtain ⟨l', hl', hz, hbad⟩ := hs.watch
      refine ⟨hs.toGuarded.congr (hs.sound.rep.congr rfl rfl rfl rfl rfl rfl) rfl,
        hs.heapBase, l', hl', hz, ?_⟩
      dsimp only
      rw [← hxk] at hbad ⊢
      rwa [update_of_ne hy.2.symm]

end

/-- Both halves on a heap of one page: a payload store and growth in place raise
no alarm, and a store behind the payload is found after another allocation. -/
theorem runs_redzones_page_heap :
    (∃ hist m, Runs step (Event.Careful 4096) pageHeap hist m ∧
      usedBlocks m = [(4096, 176)] ∧ checkAll m = .ok ()) ∧
    ∃ hist m hist' m', Runs step (Event.Careless 4096) pageHeap hist m ∧
      usedBlocks m = [(4096, 144)] ∧ InRedzone (4096, 144) 4176 ∧
      Runs step (Event.Leaves 4096 (4096, 144) 4176)
        { m with mem := update m.mem 4176 7 } hist' m' ∧ hist'.length = 1 ∧
      checkPtr m' 4160 ≠ .ok () := by
  have hboth := @runs_redzones 4096 4096 (fun _ => 0) (fun _ => 0) (by decide) (by decide)
  constructor
  · have hreplay : (replay step (Event.Careful 4096) [] pageHeap
        [.call (.alloc 16), .write 4170 7, .call (.tryRealloc 4160 40)]).map
        (fun r => usedBlocks r.2) = some [(4096, 176)] := by decide
    obtain ⟨⟨hist, m⟩, hr, hres⟩ := Option.map_eq_some_iff.mp hreplay
    have hrun := (Runs.nil pageHeap).replay hr
    exact ⟨hist, m, hrun, hres, (hboth.1 hist m hrun).1⟩
  · have hreplay : ((replay step (Event.Careless 4096) [] pageHeap
        [.call (.alloc 16)]).map fun r => (usedBlocks r.2,
          (replay step (Event.Leaves 4096 (4096, 144) 4176) []
            { r.2 with mem := update r.2.mem 4176 7 } [.call (.alloc 16)]).map
            fun r => r.1.length)) = some ([(4096, 144)], some 1) := by decide
    obtain ⟨⟨hist, m⟩, hr, hres⟩ := Option.map_eq_some_iff.mp hreplay
    obtain ⟨hused, hres'⟩ := Prod.mk.inj hres
    obtain ⟨⟨hist', m'⟩, hr', hlen⟩ := Option.map_eq_some_iff.mp hres'
    have hrun := (Runs.nil pageHeap).replay hr
    have hrun' := (Runs.nil { m with mem := update m.mem 4176 7 }).replay hr'
    have hzone : InRedzone (4096, 144) 4176 := ⟨by decide, by decide, by decide⟩
    dsimp only at hused
    exact ⟨hist, m, hist', m', hrun, hused, hzone, hrun', hlen,
      (hboth.2 hist m hrun (4096, 144) (by rw [hused]; simp) 4176 7 hzone (by decide)
        hist' m' hrun').1⟩

/-- A careful client overruns its block by one byte, `try_realloc` rewrites the
trailing redzone, and the next check of the block passes. -/
theorem overrun_missed : ¬ ∀ hist m,
    Runs step (Event.Careful 4096) pageHeap hist m →
      ∀ e ∈ usedBlocks m, ∀ x v, InRedzone e x → v ≠ redzoneMagic →
        ∀ hist' m', Runs step (Event.Careful 4096)
            { m with mem := update m.mem x v } hist' m' →
          checkPtr m' (wadd e.1 redzoneSize) ≠ .ok () := by
  intro hcaught
  have hreplay : ((replay step (Event.Careful 4096) [] pageHeap
      [.call (.alloc 16)]).map fun r => (usedBlocks r.2,
        (replay step (Event.Careful 4096) []
          { r.2 with mem := update r.2.mem 4176 7 } [.call (.tryRealloc 4160 16)]).map
          fun r => (checkPtr r.2 4160).toOption)) =
      some ([(4096, 144)], some (some ())) := by decide +kernel
  obtain ⟨⟨hist, m⟩, hr, hres⟩ := Option.map_eq_some_iff.mp hreplay
  obtain ⟨hused, hres'⟩ := Prod.mk.inj hres
  obtain ⟨⟨hist', m'⟩, hr', hcheck⟩ := Option.map_eq_some_iff.mp hres'
  dsimp only at hused hcheck
  exact hcaught hist m ((Runs.nil pageHeap).replay hr) (4096, 144) (by rw [hused]; simp)
    4176 7 ⟨by decide, by decide, by decide⟩ (by decide) hist' m'
    ((Runs.nil { m with mem := update m.mem 4176 7 }).replay hr') (eq_ok_of_toOption hcheck)

/-! ## The timer -/

/-- **The timer's scan.** In every state careful clients can reach, `check_all`
passes at every statement boundary of a proper call, except after the
relinking lines. -/
theorem runs_scan {heap size : ℕ} {buffer : ℕ → BitVec 64} {mem : Mem}
    {hist : List (Event × ℕ)} {m : MemoryMgr} (hpos : 0 < size)
    (hroom : heap + size + redzoneSize < 2 ^ 64)
    (hrun : Runs step (Event.Careful size) (init heap size buffer mem) hist m)
    {c : Call} (hc : c.Proper size m) (hlive : c.LiveArg m) {line : ℕ} {s : MemoryMgr}
    (hs : (line, s) ∈ c.prog.trace m) (hline : relinking line = false) :
    checkAll s = .ok () := by
  obtain ⟨bs, h⟩ := runs_intact hpos hroom hrun
  have hspec := Call.watched (intact_watch heap h.size_lt)
    (B := fun line s => relinking line = true ∨ checkAll s = .ok ())
    (fun _ _ hr => Or.inl hr)
    (fun _ _ _ _ hm hv => Or.inr (hm.view_checkAll (hm.heapBase ▸ hm.watch) hv))
    h hc (fun _ _ => trivial) (Or.inl hlive)
  rcases hspec.1 _ hs with hr | hok
  · rw [hline] at hr
    cases hr
  · exact hok

/-- After line 176 of `alloc` the scan passes. -/
theorem runs_scan_alloc :
    ∃ s, (176, s) ∈ (Call.alloc 16).prog.trace pageHeap ∧ checkAll s = .ok () := by
  have hany : (((Call.alloc 16).prog.trace pageHeap).any fun b => b.1 == 176) = true := by
    decide
  obtain ⟨⟨line, s⟩, hs, hline⟩ := List.any_eq_true.mp hany
  obtain rfl : line = 176 := by simpa using hline
  exact ⟨s, hs, runs_scan (c := .alloc 16) (by decide) (by decide) (Runs.nil pageHeap)
    (by decide) trivial hs (by decide)⟩

/-- The first allocation of a fresh heap passes boundaries at which the scan
halts: the block is marked used before it has redzones. -/
theorem scan_halts : ¬ ∀ hist m, Runs step (Event.Careful 4096) pageHeap hist m →
    ∀ c : Call, c.Proper 4096 m → c.LiveArg m → ∀ line s, (line, s) ∈ c.prog.trace m →
      checkAll s = .ok () := by
  intro hscan
  have hany : (((Call.alloc 16).prog.trace pageHeap).any fun b =>
      (checkAll b.2).toOption.isNone) = true := by decide
  obtain ⟨⟨line, s⟩, hs, hbad⟩ := List.any_eq_true.mp hany
  have hok := hscan [] pageHeap (Runs.nil pageHeap) (.alloc 16) (by decide) trivial line s hs
  dsimp only at hbad
  rw [hok] at hbad
  cases hbad

end NeptunOS.Heap
