import NeptunOS.Heap.LivePointers

/-!
# Blocks stay until they are released

In a tidy heap no event moves or shortens a used block; only `free` of its
pointer, or a `realloc` of it that returns another pointer, gives it back
(`Tidy.stays`). Over runs: `Tidy.runs_stays`.
-/

namespace NeptunOS.Heap

open Stepwise Stepwise.Prog Linked BlockList Function

/-- The block `x` is used in `s`, and no shorter. -/
def Stays (x : Extent) (s : MemoryMgr) : Prop :=
  ∃ y ∈ extents s, y.free = false ∧ y.start = x.start ∧ x.len ≤ y.len

/-- The event takes the pointer `p` out of circulation. -/
def Releases (p : ℕ) : Event × ℕ → Prop
  | (.call c, r) => p ∈ c.gone ∧ p ∉ c.got r
  | (.write _ _, _) => False

/-- A reallocation grows the block in place, or allocates, copies and frees. -/
theorem realloc_cases {ptr n q : ℕ} {m s : MemoryMgr} (h : (realloc ptr n).run m = .ok (q, s)) :
    ((tryRealloc ptr n).run m = .ok (true, s) ∧ q = ptr) ∨
      ∃ s₁ s₂ oldsize, (tryRealloc ptr n).run m = .ok (false, s₁) ∧
        (alloc n).run s₁ = .ok (q, s₂) ∧ getSize s₂ ptr = .ok oldsize ∧
        (free ptr).run { s₂ with mem := memcpy s₂.mem q ptr oldsize } = .ok ((), s) := by
  obtain ⟨grown, s₁, htry, h⟩ := run_bind_eq_ok.mp h
  cases grown with
  | true =>
    cases h
    exact .inl ⟨htry, rfl⟩
  | false =>
    obtain ⟨q', s₂, halloc, hread⟩ := run_bind_eq_ok.mp h
    rw [run_bind, run_read] at hread
    obtain ⟨oldsize, _, hlift, hcopy⟩ := run_bind_eq_ok.mp hread
    obtain ⟨hsize, rfl⟩ := run_lift_eq_ok.mp hlift
    rw [run_bind, run_stmt] at hcopy
    obtain ⟨_, _, hfree, hret⟩ := run_bind_eq_ok.mp hcopy
    cases hret
    exact .inr ⟨_, _, oldsize, htry, halloc, hsize, hfree⟩

section Stays

variable {size n : ℕ} {m s t : MemoryMgr} {bs bs' : List Blk} {lost : List ℕ} {x : Extent}

theorem Stays.trans (h : Stays x s)
    (h' : ∀ y ∈ extents s, y.free = false → y.start = x.start → Stays y t) : Stays x t := by
  obtain ⟨y, hy, hused, hstart, hlen⟩ := h
  obtain ⟨z, hz, hzused, hzstart, hzlen⟩ := h' y hy hused hstart
  exact ⟨z, hz, hzused, hzstart.trans hstart, hlen.trans hzlen⟩

theorem stays_of_eq (h : extents s = extents m) (hx : x ∈ extents m) (hused : x.free = false) :
    Stays x s := ⟨x, h ▸ hx, hused, rfl, Nat.le_refl _⟩

theorem Cut.stays {len off address : ℕ} (h : Rep m bs) (hcut : Cut len bs off bs')
    (hd : AllocDone m len address bs' s) (hx : x ∈ extents m) (hused : x.free = false) :
    Stays x s := by
  rw [h.extents_eq] at hx
  obtain ⟨e, he, rfl⟩ := (mem_layout_used hused).mp hx
  refine ⟨_, ?_, hused, rfl, Nat.le_refl _⟩
  rw [hd.rep.extents_eq, hd.heapBase]
  exact (mem_layout_used rfl).mpr ⟨e, hcut.mem_usedAt.mpr (.inr he), rfl⟩

theorem AllocPost.stays {p : ℕ} (h : Rep m bs) (hp : AllocPost m bs n p s)
    (hx : x ∈ extents m) (hused : x.free = false) : Stays x s := by
  rcases hp with ⟨_, _, rfl⟩ | ⟨_, off, bs', hcut, hd, _⟩
  · exact stays_of_eq rfl hx hused
  · exact hcut.stays h hd hx hused

theorem TryPost.stays {ptr : ℕ} {r : Bool} (h : Books size m bs lost)
    (hp : TryPost m bs ptr n r s) (hx : x ∈ extents m) (hused : x.free = false) :
    Stays x s := by
  rcases hp with ⟨_, p, hp, _⟩ | ⟨_, _, pre, b, post, hat, hres⟩
  · exact hp.stays h.rep hx hused
  · rcases hres with ⟨_, _, rfl⟩ | ⟨_, _, rfl⟩ | ⟨_, k, tail, post', rfl, hg⟩
    · exact stays_of_eq rfl hx hused
    · have hrep : Rep { m with mem := rezone m.mem (wsub ptr redzoneSize) b.len } bs :=
        h.rep.congr rfl rfl rfl rfl rfl rfl
      exact stays_of_eq (hrep.extents_eq.trans h.rep.extents_eq.symm) hx hused
    · obtain rfl := hat.split
      have hb := Coalesced.used_before h.coalesced hg.free
      obtain ⟨others, hnew, hold, _⟩ :=
        @usedAt_grown pre tail post' b k (blockSize n) hb hg.free hg.spare hg.len
      rw [h.rep.extents_eq] at hx
      obtain ⟨e, he, rfl⟩ := (mem_layout_used hused).mp hx
      have hext : extents s = layout m.heapBase (shape _) := hg.heapBase ▸ hg.rep.extents_eq
      unfold Stays
      rw [hext]
      rcases (hold e).mp he with rfl | he
      · exact ⟨_, (mem_layout_used rfl).mpr ⟨_, (hnew _).mpr (.inl rfl), rfl⟩, rfl, rfl, hg.lt.le⟩
      · exact ⟨_, (mem_layout_used rfl).mpr ⟨e, (hnew e).mpr (.inr he), rfl⟩, rfl, rfl,
          Nat.le_refl _⟩

section

variable (h : Tidy size m bs lost)
variable {p ptr q : ℕ}

include h

theorem Tidy.free_stays (hq : q < 2 ^ 64) (hs : (free q).run m = .ok ((), s)) (hx : x ∈ extents m)
    (hused : x.free = false) (hne : q ≠ x.start + redzoneSize) : Stays x s := by
  by_cases h0 : q = 0
  · rcases free_post h.rep h.total_lt h.base hs with ⟨_, rfl⟩ | ⟨hne, _⟩
    · exact stays_of_eq rfl hx hused
    · exact absurd h0 hne
  · exact ⟨x, ((h.freed h0 hq hs).1 x hused).mpr ⟨hx, hne⟩, hused, rfl, Nat.le_refl _⟩

theorem Tidy.alloc_post (hs : (alloc n).run m = .ok (p, s)) : AllocPost m bs n p s :=
  (alloc_spec (B := anywhere) (fun _ _ _ => trivial) (fun _ _ _ => trivial) h.rep h.total_lt
    h.base n fun _ _ _ _ => trivial).2 p s hs

theorem Tidy.tryRealloc_post {r : Bool} (hs : (tryRealloc ptr n).run m = .ok (r, s)) :
    TryPost m bs ptr n r s :=
  (tryRealloc_spec (B := anywhere) (fun _ _ _ => trivial) (fun _ _ _ => trivial) h.rep
    h.total_lt h.base ptr n fun _ _ _ _ => trivial).2 r s hs

/-- Blocks lie in the heap. -/
theorem Tidy.extent_bounds (hx : x ∈ extents m) :
    m.heapBase ≤ x.start ∧ x.start + x.len ≤ m.heapBase + size := by
  obtain ⟨pre, b, post, hat, rfl⟩ := h.firstAt hx
  have htot := h.total
  rw [hat.split] at htot
  simp only [total_append, total_cons] at htot
  dsimp only
  omega

/-- The pointer of a block is an address, and not null. -/
theorem Tidy.ptr_bounds (hx : x ∈ extents m) :
    x.start + redzoneSize < 2 ^ 64 ∧ x.start + redzoneSize ≠ 0 := by
  have hin := h.extent_bounds hx
  have hroom := h.room
  unfold redzoneSize at *
  omega

theorem Tidy.end_lt (hx : x ∈ extents m) : x.start + x.len < 2 ^ 64 := by
  have hin := h.extent_bounds hx
  have hroom := h.room
  omega

theorem Tidy.start_dvd (hheap : 16 ∣ m.heapBase) (hx : x ∈ extents m) : 16 ∣ x.start := by
  obtain ⟨pre, b, post, hat, rfl⟩ := h.firstAt hx
  have hg : Granular 0 pre := fun c hc =>
    ⟨Nat.zero_le _, (h.tight c (by rw [hat.split]; simp [hc])).2⟩
  exact Nat.dvd_add hheap hg.total_dvd

/-- A new block is not where a used one is. -/
theorem Tidy.alloc_fresh (hsolid : 0 < blockSize n) (hs : (alloc n).run m = .ok (p, s))
    (hx : x ∈ extents m) (hused : x.free = false) : p ≠ x.start + redzoneSize := by
  rw [h.rep.extents_eq] at hx
  obtain ⟨e, he, rfl⟩ := (mem_layout_used hused).mp hx
  have hpos : 0 < e.2 := by
    obtain ⟨pre, b, post, hbs, _, rfl⟩ := mem_usedAt.mp he
    exact h.pos b (by rw [hbs]; simp)
  have htot := h.total
  have hroom := h.room
  rcases h.alloc_post hs with ⟨_, rfl, _⟩ | ⟨_, off, bs', hcut, _, rfl⟩
  · unfold redzoneSize
    omega
  · have hapart := hcut.apart he
    have hoff := hcut.end_le
    rw [wadd_of_lt (by omega)]
    dsimp only
    omega

theorem Tidy.realloc_stays (hptr : ptr < 2 ^ 64) (hn : n < 2 ^ 64) (hsolid : 0 < blockSize n)
    (hs : (realloc ptr n).run m = .ok (q, s)) (hx : x ∈ extents m) (hused : x.free = false)
    (hrel : ptr = x.start + redzoneSize → q = ptr) : Stays x s := by
  rcases realloc_cases hs with ⟨htry, _⟩ | ⟨s₁, s₂, oldsize, htry, halloc, _, hfree⟩
  · exact (h.tryRealloc_post htry).stays h.toBooks hx hused
  · have hstep₁ : Heap.step m (.call (.tryRealloc ptr n)) = .ok (0, s₁) :=
      run_bind_eq_ok.mpr ⟨false, s₁, htry, rfl⟩
    obtain ⟨_, bs₁, lost₁, h₁, _⟩ := h.step (e := .call (.tryRealloc ptr n)) ⟨⟨hptr, hn⟩, hsolid⟩
      hstep₁
    obtain ⟨_, bs₂, lost₂, h₂, _⟩ := h₁.step (e := .call (.alloc n)) ⟨hn, hsolid⟩ halloc
    have hk := Kept.of_mem h₂.toBooks (memcpy s₂.mem q ptr oldsize) True True
    have h₃ : Tidy size { s₂ with mem := memcpy s₂.mem q ptr oldsize } bs₂ lost₂ :=
      ⟨hk.books, h₂.tight, h₂.room, h₂.unlocked⟩
    have hext : extents { s₂ with mem := memcpy s₂.mem q ptr oldsize } = extents s₂ :=
      h₃.rep.extents_eq.trans h₂.rep.extents_eq.symm
    refine ((h.tryRealloc_post htry).stays h.toBooks hx hused).trans fun y hy hyused hystart => ?_
    refine ((h₁.alloc_post halloc).stays h₁.rep hy hyused).trans fun z hz hzused hzstart => ?_
    refine h₃.free_stays hptr hfree (hext ▸ hz) hzused fun heq => ?_
    -- only the block itself could be freed here, and then the pointer has changed
    have hptr' : ptr = x.start + redzoneSize := by rw [heq, hzstart, hystart]
    refine h₁.alloc_fresh hsolid halloc hy hyused ?_
    rw [hrel hptr', hptr', hystart]

/-- **A block stays until it is released.** -/
theorem Tidy.stays {e : Event} {r : ℕ} (he : e.Sized m)
    (hstep : Heap.step m e = .ok (r, s)) (hx : x ∈ extents m) (hused : x.free = false)
    (hrel : ¬ Releases (x.start + redzoneSize) (e, r)) : Stays x s := by
  have hp : x.start + redzoneSize ≠ 0 := by
    unfold redzoneSize
    omega
  cases e with
  | write addr v =>
    cases hstep
    have hrep : Rep { m with mem := update m.mem addr v } bs := h.rep.congr rfl rfl rfl rfl rfl rfl
    exact stays_of_eq (hrep.extents_eq.trans h.rep.extents_eq.symm) hx hused
  | call c =>
    cases c with
    | alloc n => exact (h.alloc_post hstep).stays h.rep hx hused
    | allocAligned n a =>
      have hpost := (allocAligned_spec (B := anywhere) (fun _ _ _ => trivial)
        (fun _ _ _ => trivial) h.rep h.total_lt h.base n a (fun _ _ _ _ => trivial)
        fun _ _ _ => trivial).2 r s hstep
      rcases hpost with ⟨off, bs', hcut, hd, _⟩ | ⟨_, hd, _⟩
      · exact hcut.stays h.rep hd hx hused
      · refine stays_of_eq ?_ hx hused
        rw [hd.rep.extents_eq, hd.heapBase, h.rep.extents_eq]
    | tryRealloc ptr n =>
      obtain ⟨_, _, htry, hret⟩ := run_bind_eq_ok.mp hstep
      cases hret
      exact (h.tryRealloc_post htry).stays h.toBooks hx hused
    | realloc ptr n =>
      refine h.realloc_stays he.1.1 he.1.2 he.2 hstep hx hused fun hptr => ?_
      by_contra hne
      refine hrel ⟨?_, ?_⟩
      · rw [Call.gone, hptr, handle_of_ne hp]
        exact Multiset.mem_singleton_self _
      · rw [Call.got, handle]
        split
        · exact Multiset.notMem_zero _
        · rw [Multiset.mem_singleton, ← hptr]
          exact Ne.symm hne
    | free q =>
      obtain ⟨_, _, hfree, hret⟩ := run_bind_eq_ok.mp hstep
      cases hret
      refine h.free_stays he.1 hfree hx hused fun heq => hrel ⟨?_, Multiset.notMem_zero _⟩
      rw [Call.gone, heq, handle_of_ne hp]
      exact Multiset.mem_singleton_self _

theorem Tidy.runs_stays {hist : List (Event × ℕ)}
    (hrun : Runs Heap.step Event.Sized m hist t) (hx : x ∈ extents m) (hused : x.free = false)
    (hrel : ∀ y ∈ hist, ¬ Releases (x.start + redzoneSize) y) : Stays x t := by
  have hall : (∃ bs lost, Tidy size t bs lost) ∧
      ((∀ y ∈ hist, ¬ Releases (x.start + redzoneSize) y) → Stays x t) := by
    apply hrun.invariant (P := fun hist t => (∃ bs lost, Tidy size t bs lost) ∧
      ((∀ y ∈ hist, ¬ Releases (x.start + redzoneSize) y) → Stays x t))
    · exact ⟨⟨bs, lost, h⟩, fun _ => stays_of_eq rfl hx hused⟩
    · rintro hist s e r s' ⟨⟨bs, lost, h⟩, hstays⟩ he hstep
      obtain ⟨_, bs', lost', h', _⟩ := h.step he hstep
      refine ⟨⟨bs', lost', h'⟩, fun hrel => ?_⟩
      refine (hstays fun y hy => hrel y (by simp [hy])).trans fun y hy hyused hstart => ?_
      exact h.stays he hstep hy hyused (hstart ▸ hrel (e, r) (by simp))
  exact hall.2 hrel

end

end Stays

end NeptunOS.Heap
