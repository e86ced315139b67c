import NeptunOS.Heap.FirstFit
import NeptunOS.Heap.Redzones

/-!
# Which pointers `free` accepts

`free(p)` looks for the first link at `p - 64`, so what it accepts depends on
every block boundary that merging has removed and reuse has brought back. As
long as no link is empty, addresses and links correspond one to one: `free`
returns exactly on the pointers of used blocks with intact redzones, frees that
block only, and refuses a pointer it has freed until a call hands it out again.

Two kinds of requests break this. A size just below `2^64` makes a block of no
bytes, which hides the block behind it from `free`; and `try_realloc` of null
allocates a block whose pointer nobody gets.
-/

namespace NeptunOS.Heap

open Stepwise Stepwise.Prog Linked BlockList Function

/-! ## Live pointers -/

/-- `p` points behind the first redzone of a used block. -/
def Held (m : MemoryMgr) (p : ℕ) : Prop :=
  ∃ e ∈ extents m, e.free = false ∧ p = e.start + redzoneSize

/-- `p - 64` is the start of a used block of at least 144 bytes with intact
redzones. -/
def Live (m : MemoryMgr) (p : ℕ) : Prop :=
  ∃ e ∈ extents m, e.free = false ∧ p = e.start + redzoneSize ∧ 144 ≤ e.len ∧
    Dressed m.mem e.start e.len

/-- From `m` to `s`, the block of `p` became free and no other used block
changed. -/
def Freed (m : MemoryMgr) (p : ℕ) (s : MemoryMgr) : Prop :=
  (∀ x : Extent, x.free = false →
    (x ∈ extents s ↔ x ∈ extents m ∧ p ≠ x.start + redzoneSize)) ∧
  ∀ e ∈ extents m, p = e.start + redzoneSize →
    ∃ f ∈ extents s, f.free = true ∧ f.start ≤ e.start ∧ e.start + e.len ≤ f.start + f.len

/-- The event returned the pointer `p` to its caller. -/
def HandsOut (p : ℕ) : Event × ℕ → Prop
  | (.call c, r) => p ∈ c.got r
  | (.write _ _, _) => False

/-- `free(p)` has returned and `p` has not been handed out since. -/
def Stale (p : ℕ) (hist : List (Event × ℕ)) : Prop :=
  ∃ h₁ h₂, hist = h₁ ++ (.call (.free p), 0) :: h₂ ∧ ∀ x ∈ h₂, ¬ HandsOut p x

/-- Calls whose sizes do not wrap to a block of no bytes. -/
def Event.Sized (_ : MemoryMgr) : Event → Prop
  | .call c => c.Typed ∧ c.Solid
  | .write addr _ => addr < 2 ^ 64

/-- Calls that also give `try_realloc` and `realloc` no null pointer. -/
def Event.Plain (_ : MemoryMgr) : Event → Prop
  | .call c => c.Typed ∧ c.Solid ∧ c.NonNull
  | .write addr _ => addr < 2 ^ 64

instance (mem : Mem) (address len : ℕ) : Decidable (Dressed mem address len) :=
  inferInstanceAs (Decidable (_ ∧ _))

instance (m : MemoryMgr) (p : ℕ) : Decidable (Live m p) :=
  inferInstanceAs (Decidable (∃ e ∈ extents m, _))

instance (m : MemoryMgr) : (e : Event) → Decidable (e.Sized m)
  | .call c => inferInstanceAs (Decidable (c.Typed ∧ c.Solid))
  | .write addr _ => inferInstanceAs (Decidable (addr < 2 ^ 64))

instance (m : MemoryMgr) : (e : Event) → Decidable (e.Plain m)
  | .call c => inferInstanceAs (Decidable (c.Typed ∧ c.Solid ∧ c.NonNull))
  | .write addr _ => inferInstanceAs (Decidable (addr < 2 ^ 64))

/-! ## `free` returns -/

section Returns

variable {m : MemoryMgr} {bs pre post : List Blk} {b : Blk}

theorem locking_returns {α : Type} {line : ℕ} {body : Op α} (hm : m.locked = false)
    (h : body.Returns { m with locked := true }) : (locking line body).Returns m := by
  obtain ⟨r, hr⟩ := h
  exact ⟨_, by rw [locking_run hm, hr]; rfl⟩

theorem Rep.slot_lt (h : Rep m bs) (hb : b ∈ bs) : b.id < m.bm.sz := by
  rw [h.sz]
  exact ((h.bits _).mp (mem_ids_of_mem hb)).1

theorem deleteLink_returns {l : ℕ} (hl : l < m.bm.sz) (line : ℕ) :
    (deleteLink line l).Returns m := by
  unfold deleteLink
  apply Returns.read_bind
  apply Returns.bind (Returns.when fun _ => Returns.stmt _ _)
  intro _ _ _
  apply Returns.lift_bind (Bitmap.set_ok hl false)
  apply Returns.stmt_bind
  apply Returns.stmt_bind
  exact Returns.stmt _ _

theorem fuse_returns {n : ℕ} (hn : n < m.bm.sz) (line c : ℕ) : (fuse line c n).Returns m := by
  unfold fuse
  apply Returns.stmt_bind
  apply Returns.read_bind
  apply setPrevOf_returns_bind
  apply Returns.stmt_bind
  apply deleteLink_returns
  exact hn

theorem mergeNext_returns (h : Rep m (pre ++ b :: post)) : (mergeNext b.id).Returns m := by
  unfold mergeNext
  apply Returns.read_bind
  rw [h.next_eq]
  cases post with
  | nil => exact Returns.pure ()
  | cons n post =>
    exact Returns.when fun _ => fuse_returns (h.slot_lt (by simp)) _ _

theorem mergePrev_returns {l : ℕ} (hl : l < m.bm.sz) : (mergePrev l).Returns m := by
  unfold mergePrev
  apply Returns.read_bind
  cases m.prev l with
  | none => exact Returns.pure ()
  | some q => exact Returns.when fun _ => fuse_returns hl _ _

theorem merge_returns (h : Rep m (pre ++ b :: post)) (hb : b.free = true)
    (htot : total (pre ++ b :: post) < 2 ^ 64) : (merge b.id).Returns m := by
  unfold merge
  apply Returns.bind (mergeNext_returns h)
  intro _ s hs
  obtain ⟨hrep, -⟩ := (mergeNext_spec (B := anywhere) (fun _ _ _ => trivial) h hb htot
    fun _ _ _ _ _ => trivial).2 _ s hs
  rw [← absorb_id b post]
  exact mergePrev_returns (hrep.slot_lt (by simp))

/-- `free` returns on the pointer of a used block that passes its check. -/
theorem free_returns {p : ℕ} (hlock : m.locked = false) (h : Rep m bs)
    (htot : total bs < 2 ^ 64) (hbase : m.heapBase < 2 ^ 64) (hp : p ≠ 0)
    (hat : FirstAt m.heapBase (wsub p redzoneSize) bs pre b post) (hused : b.free = false)
    (hlen : 144 ≤ b.len) (hmax : b.len ≠ 2 ^ 64 - 1)
    (hdress : Dressed m.mem (wsub p redzoneSize) b.len) : (free p).Returns m := by
  apply locking_returns hlock
  have hrep : Rep { m with locked := true } bs := h.congr rfl rfl rfl rfl rfl rfl
  have hcheck : checkPtr { m with locked := true } p = .ok () :=
    (checkPtr_eq_ok hrep.chain hbase hrep.length_le).mpr
      ⟨pre, b, post, hat, hmax, hused, hlen, hdress⟩
  unfold freeNomutex
  rw [if_pos hp]
  apply Returns.read_bind
  apply Returns.lift_bind hcheck
  apply Returns.lift_bind (lookup_hit hrep.chain hbase hrep.length_le hat)
  obtain rfl := hat.split
  dsimp only
  rw [h.length_eq]
  apply Returns.unless_bind hmax
  apply Returns.stmt_bind
  apply Returns.stmt_bind
  apply Returns.stmt_bind
  have hacct : Rep { m with
      locked := true
      usedmem := wsub m.usedmem b.len
      freemem := wadd m.freemem b.len } (pre ++ b :: post) :=
    h.congr rfl rfl rfl rfl rfl rfl
  have hmerge := merge_returns (hacct.setFree true) rfl (by simpa using htot)
  exact hmerge

end Returns

/-! ## One state -/

/-- A sound, unlocked heap below the top of the address space in which no block
is empty. -/
structure Tidy (size : ℕ) (m : MemoryMgr) (bs : List Blk) (lost : List ℕ) : Prop
    extends Books size m bs lost where
  tight : Tight bs
  room : m.heapBase + size + redzoneSize < 2 ^ 64
  unlocked : m.locked = false

theorem mem_layout_used {a : ℕ} {bs : List Blk} {x : Extent} (hx : x.free = false) :
    x ∈ layout a (shape bs) ↔ ∃ e ∈ usedAt 0 bs, x = ⟨a + e.1, e.2, false⟩ := by
  rw [mem_layout]
  constructor
  · rintro ⟨pre, b, post, rfl, rfl⟩
    have hb : b.free = false := hx
    exact ⟨(0 + total pre, b.len), mem_usedAt.mpr ⟨pre, b, post, rfl, hb, rfl⟩,
      by rw [Nat.zero_add, hb]⟩
  · rintro ⟨_, he, rfl⟩
    obtain ⟨pre, b, post, rfl, hb, rfl⟩ := mem_usedAt.mp he
    exact ⟨pre, b, post, rfl, by rw [Nat.zero_add, hb]⟩

/-- The released block lies in a free block of the new list. -/
theorem release_covers {pre post : List Blk} {b : Blk} (hb : b.free = true) :
    ∃ xs f ys, release pre b post = xs ++ f :: ys ∧ f.free = true ∧ total xs ≤ total pre ∧
      total pre + b.len ≤ total xs + f.len := by
  have hle := absorb_len_le b post
  have hfree : (absorb b post).free = true := by rw [absorb_free, hb]
  unfold release
  rcases pre.eq_nil_or_concat with rfl | ⟨pre', q, rfl⟩
  · exact ⟨[], _, _, joinPrev_nil _ _, hfree, Nat.le_refl _, by simpa using hle⟩
  · rw [List.concat_eq_append]
    cases hq : q.free with
    | true =>
      refine ⟨pre', _, _, joinPrev_free hq _ _ _, hq, ?_, ?_⟩
      · simp
      · simp only [total_append, total_cons, total_nil]
        omega
    | false =>
      refine ⟨pre' ++ [q], absorb b post, unabsorbed post, ?_, hfree, Nat.le_refl _, ?_⟩
      · rw [joinPrev_used hq]
        simp
      · omega

section

variable {size p : ℕ} {m s : MemoryMgr} {bs bs' : List Blk} {lost lost' : List ℕ}

section

variable (h : Tidy size m bs lost)

include h

theorem Tidy.pos : ∀ b ∈ bs, 0 < b.len := fun b hb => (h.tight b hb).1

theorem Tidy.total_lt : total bs < 2 ^ 64 := by
  have := h.room
  have := h.total
  omega

/-- Every block is the first one at its address. -/
theorem Tidy.firstAt {e : Extent} (he : e ∈ extents m) :
    ∃ pre b post, FirstAt m.heapBase e.start bs pre b post ∧
      e = ⟨m.heapBase + total pre, b.len, b.free⟩ := by
  rw [h.rep.extents_eq] at he
  obtain ⟨pre, b, post, rfl, rfl⟩ := mem_layout.mp he
  have hat := firstAt_of_pos h.pos h.total_lt h.base
  have htot := h.total
  have hroom := h.room
  simp only [total_append, total_cons] at htot
  rw [wadd_of_lt (by omega)] at hat
  exact ⟨pre, b, post, hat, rfl⟩

/-- What stands at `p - 64`, as a block. -/
theorem Tidy.ptr_eq (hp : p < 2 ^ 64) {pre post : List Blk} {b : Blk}
    (hat : FirstAt m.heapBase (wsub p redzoneSize) bs pre b post) :
    p = m.heapBase + total pre + redzoneSize := by
  have haddr := hat.addr
  have htot := h.total
  have hroom := h.room
  rw [hat.split] at htot
  simp only [total_append, total_cons] at htot
  unfold redzoneSize at *
  rw [wadd_of_lt (by omega)] at haddr
  unfold wsub at haddr
  omega

/-- A block is determined by its address. -/
theorem Tidy.extent_unique {e x : Extent} (he : e ∈ extents m)
    (hx : x ∈ extents m) (hstart : e.start = x.start) : e = x := by
  obtain ⟨pre, b, post, hat, rfl⟩ := h.firstAt he
  obtain ⟨pre', b', post', hat', rfl⟩ := h.firstAt hx
  rw [← hstart, hat.addr] at hat'
  obtain ⟨rfl, rfl, rfl⟩ := hat'.unique hat.split rfl h.base h.total_lt
    (h.pos b' (by rw [hat'.split]; simp))
  rfl

/-- No block starts inside another one. -/
theorem Tidy.not_inside {e x : Extent} (he : e ∈ extents m)
    (hx : x ∈ extents m) (hlo : e.start < x.start) (hhi : x.start < e.start + e.len) : False := by
  rw [h.rep.extents_eq] at he hx
  obtain ⟨pre, b, post, rfl, rfl⟩ := mem_layout.mp he
  rcases apart_of_layout (Nat.le_refl b.len) hx (by rintro rfl; exact lt_irrefl _ hlo) with
    hap | hap
  · dsimp only at hap hhi
    omega
  · dsimp only at hap hlo
    omega

end

theorem wsub_redzone {a : ℕ} (h : a + redzoneSize < 2 ^ 64) :
    wsub (a + redzoneSize) redzoneSize = a := by
  rw [wsub_of_le h (Nat.le_add_left _ _), Nat.add_sub_cancel]

/-- **`free` returns exactly on live pointers.** -/
theorem Tidy.free_returns_iff (h : Tidy size m bs lost) (hp : p ≠ 0) (hp64 : p < 2 ^ 64) :
    (free p).Returns m ↔ Live m p := by
  constructor
  · rintro ⟨⟨_, s⟩, hs⟩
    rcases free_post h.rep h.total_lt h.base hs with
      ⟨h0, _⟩ | ⟨_, pre, b, post, hat, hused, hlen, hdress, _⟩
    · exact absurd h0 hp
    · have hptr := h.ptr_eq hp64 hat
      have hwsub : wsub p redzoneSize = m.heapBase + total pre := by
        rw [hptr]
        exact wsub_redzone (hptr ▸ hp64)
      rw [hwsub] at hdress
      refine ⟨⟨m.heapBase + total pre, b.len, b.free⟩, ?_, hused, hptr, hlen, hdress⟩
      rw [h.rep.extents_eq]
      exact mem_layout.mpr ⟨pre, b, post, hat.split, rfl⟩
  · rintro ⟨e, he, hused, rfl, hlen, hdress⟩
    obtain ⟨pre, b, post, hat, rfl⟩ := h.firstAt he
    have hwsub := wsub_redzone hp64
    rw [← hwsub] at hat hdress
    have htot := h.total
    have hroom := h.room
    have hsplit := hat.split
    rw [hsplit] at htot
    simp only [total_append, total_cons] at htot
    exact free_returns h.unlocked h.rep h.total_lt h.base hp hat hused hlen
      (by unfold redzoneSize at hroom; omega) hdress

/-- **A return frees the block of the pointer and nothing else.** -/
theorem Tidy.freed (h : Tidy size m bs lost) (hp : p ≠ 0) (hp64 : p < 2 ^ 64)
    (hs : (free p).run m = .ok ((), s)) : Freed m p s := by
  rcases free_post h.rep h.total_lt h.base hs with
    ⟨h0, _⟩ | ⟨_, pre, b, post, hat, hused, hlen, _, hd⟩
  · exact absurd h0 hp
  have hptr := h.ptr_eq hp64 hat
  have hpos := h.pos
  have hext := h.rep.extents_eq
  obtain rfl := hat.split
  have hperm := @usedAt_release_perm ℕ 0 pre post b hused
  rw [Nat.zero_add] at hperm
  -- no other used block starts where the freed one did
  have hother : ∀ e ∈ usedAt 0 (release pre { b with free := true } post),
      e.1 ≠ total pre := by
    intro e he hstart
    have hpos' : 0 < e.2 := by
      obtain ⟨xs, u, ys, hsplit, _, rfl⟩ :=
        mem_usedAt.mp (hperm.mem_iff.mpr (List.mem_cons_of_mem _ he))
      exact hpos u (by rw [hsplit]; simp)
    rw [usedAt_release (b := { b with free := true }) rfl] at he
    rcases usedAt_around he with ⟨_, hend⟩ | ⟨hfree, _⟩ | ⟨hstart', _⟩
    · omega
    · cases hfree
    · dsimp only at hstart'
      omega
  have hexts := hd.rep.extents_eq
  rw [hd.heapBase] at hexts
  constructor
  · intro x hx
    rw [hexts, hext, mem_layout_used hx, mem_layout_used hx]
    constructor
    · rintro ⟨e, he, rfl⟩
      refine ⟨⟨e, hperm.mem_iff.mpr (List.mem_cons_of_mem _ he), rfl⟩, fun heq => ?_⟩
      have := hother e he
      dsimp only at heq
      omega
    · rintro ⟨⟨e, he, rfl⟩, hne⟩
      rcases List.mem_cons.mp (hperm.mem_iff.mp he) with rfl | he
      · exact absurd hptr hne
      · exact ⟨e, he, rfl⟩
  · intro e he heq
    obtain ⟨pre', b', post', hat', rfl⟩ := h.firstAt he
    have hsame : m.heapBase + total pre' = wadd m.heapBase (total pre) := by
      rw [← hat.addr, heq]
      exact (wsub_redzone (heq ▸ hp64)).symm
    rw [hsame] at hat'
    obtain ⟨rfl, rfl, rfl⟩ := hat'.unique rfl rfl h.base h.total_lt
      (hpos b' (by rw [hat'.split]; simp))
    obtain ⟨xs, f, ys, hrel, hfree, hstart, hend⟩ :=
      @release_covers pre' post' { b' with free := true } rfl
    refine ⟨⟨m.heapBase + total xs, f.len, f.free⟩, ?_, hfree, ?_, ?_⟩
    · rw [hexts, hrel]
      exact mem_layout.mpr ⟨xs, f, ys, rfl, rfl⟩
    · dsimp only
      omega
    · dsimp only at hend ⊢
      omega

/-- The pointers of the used blocks are the pointers held. -/
theorem Tidy.held_iff (h : Tidy size m bs lost) : Held m p ↔ p ∈ ptrs m.heapBase bs := by
  have hroom := h.room
  have hptr : ∀ e ∈ usedAt 0 bs,
      wadd m.heapBase (e.1 + redzoneSize) = m.heapBase + e.1 + redzoneSize := by
    intro e he
    obtain ⟨pre, b, post, rfl, _, rfl⟩ := mem_usedAt.mp he
    have htot := h.total
    simp only [total_append, total_cons] at htot
    rw [wadd_of_lt] <;> omega
  unfold Held ptrs
  rw [Multiset.mem_coe, List.mem_map, h.rep.extents_eq]
  constructor
  · rintro ⟨x, hx, hfree, rfl⟩
    obtain ⟨e, he, rfl⟩ := (mem_layout_used hfree).mp hx
    exact ⟨e, he, hptr e he⟩
  · rintro ⟨e, he, rfl⟩
    exact ⟨⟨m.heapBase + e.1, e.2, false⟩, (mem_layout_used rfl).mpr ⟨e, he, rfl⟩, rfl, hptr e he⟩

/-- A call brings no pointer into use but the one it returns. -/
theorem Kept.held {fair solid : Prop} {got gone : Multiset ℕ}
    (hk : Kept size m bs lost fair solid got gone s bs' lost') (hfair : fair)
    (h : Tidy size m bs lost) (h' : Tidy size s bs' lost') (hp : Held s p) :
    Held m p ∨ p ∈ got := by
  have hmem := h'.held_iff.mp hp
  rw [hk.heapBase] at hmem
  have hsum := hk.ledger hfair h.room ▸ Multiset.mem_add.mpr (.inl
    (Multiset.mem_add.mpr (.inl hmem)) : _ ∨ p ∈ gone)
  rcases Multiset.mem_add.mp hsum with hsum | hgot
  · rcases Multiset.mem_add.mp hsum with hold | hstray
    · exact .inl (h.held_iff.mpr hold)
    · -- used blocks start before the end of the heap
      obtain ⟨e, he, _, rfl⟩ := hp
      obtain ⟨pre, b, post, hat, rfl⟩ := h'.firstAt he
      have hb := h'.pos b (by rw [hat.split]; simp)
      have htot := h'.total
      have hroom := h.room
      rw [hat.split] at htot
      simp only [total_append, total_cons] at htot
      have heq := Multiset.eq_of_mem_replicate hstray
      rw [strayPtr, wadd_of_lt (by omega), hk.heapBase] at heq
      dsimp only at heq
      omega
  · exact .inr hgot

end

/-! ## Runs -/

theorem stale_concat {p : ℕ} {hist : List (Event × ℕ)} {x : Event × ℕ} : Stale p (hist ++ [x]) ↔
      x = (.call (.free p), 0) ∨ (Stale p hist ∧ ¬ HandsOut p x) := by
  constructor
  · rintro ⟨h₁, h₂, heq, hnot⟩
    rcases h₂.eq_nil_or_concat with rfl | ⟨h₂', y, rfl⟩
    · obtain ⟨-, hx⟩ := List.append_inj' heq rfl
      exact .inl (List.cons.inj hx).1
    · rw [List.concat_eq_append, ← List.cons_append, ← List.append_assoc] at heq
      obtain ⟨hhist, hx⟩ := List.append_inj' heq rfl
      obtain rfl := (List.cons.inj hx).1
      exact .inr ⟨⟨h₁, h₂', hhist, fun z hz => hnot z (by simp [hz])⟩, hnot x (by simp)⟩
  · rintro (rfl | ⟨⟨h₁, h₂, rfl, hnot⟩, hx⟩)
    · exact ⟨hist, [], rfl, by simp⟩
    · refine ⟨h₁, h₂ ++ [x], by simp, fun z hz => ?_⟩
      rcases List.mem_append.mp hz with hz | hz
      · exact hnot z hz
      · rwa [List.mem_singleton.mp hz]

section

variable {heap size : ℕ} {buffer : ℕ → BitVec 64} {mem : Mem}
  {hist : List (Event × ℕ)} {m s : MemoryMgr} {bs : List Blk} {lost : List ℕ}

theorem init_tidy (hpos : 0 < size) (h16 : 16 ∣ size) (hroom : heap + size + redzoneSize < 2 ^ 64) :
    Tidy size (init heap size buffer mem) [⟨0, size, true⟩] [] := by
  refine ⟨init_books buffer mem (by omega) (by omega) hpos, ?_, hroom, rfl⟩
  intro b hb
  obtain rfl := List.mem_singleton.mp hb
  exact ⟨hpos, h16⟩

theorem Event.Plain.sized {e : Event} (h : e.Plain m) : e.Sized m := by
  cases e with
  | call c => exact ⟨h.1, h.2.1⟩
  | write addr v => exact h

/-- An event keeps the heap tidy and, if it is plain, brings no pointer into use but
the one it returns. -/
theorem Tidy.step {e : Event} {r : ℕ} (h : Tidy size m bs lost) (he : e.Sized m)
    (hstep : Heap.step m e = .ok (r, s)) :
    s.heapBase = m.heapBase ∧ ∃ bs' lost', Tidy size s bs' lost' ∧
      (e.Plain m → ∀ p, Held s p → Held m p ∨ HandsOut p (e, r)) := by
  cases e with
  | write addr v =>
    cases hstep
    have hk := Kept.of_mem h.toBooks (update m.mem addr v) True True
    have h' : Tidy size { m with mem := update m.mem addr v } bs lost :=
      ⟨hk.books, h.tight, h.room, h.unlocked⟩
    refine ⟨rfl, bs, lost, h', fun _ p hp => ?_⟩
    exact (hk.held trivial h h' hp).imp_right fun hgot => by cases hgot
  | call c =>
    have hroom := h.room
    obtain ⟨bs', lost', hk, _⟩ := (c.kept h.toBooks (by omega) he.1).2 r s hstep
    have h' : Tidy size s bs' lost' :=
      ⟨hk.books, hk.tight he.2 h.tight, hk.heapBase ▸ h.room, c.unlocked hstep⟩
    exact ⟨hk.heapBase, bs', lost', h', fun hplain p hp => hk.held hplain.2.2 h h' hp⟩

theorem Tidy.runs {m₀ : MemoryMgr} (h : Tidy size m₀ bs lost)
    (hrun : Runs Heap.step Event.Sized m₀ hist m) :
    m.heapBase = m₀.heapBase ∧ ∃ bs lost, Tidy size m bs lost := by
  apply hrun.invariant (P := fun _ m => m.heapBase = m₀.heapBase ∧
    ∃ bs lost, Tidy size m bs lost) ⟨rfl, bs, lost, h⟩
  rintro _ s e r s' ⟨hb, bs, lost, h⟩ he hstep
  obtain ⟨hb', bs', lost', h', _⟩ := h.step he hstep
  exact ⟨hb'.trans hb, bs', lost', h'⟩

/-- In a plain run no used block has a stale pointer. -/
theorem runs_stale (hpos : 0 < size) (h16 : 16 ∣ size) (hroom : heap + size + redzoneSize < 2 ^ 64)
    (hrun : Runs step Event.Plain (init heap size buffer mem) hist m) :
    (∃ bs lost, Tidy size m bs lost) ∧ ∀ p, p ≠ 0 → Stale p hist → ¬ Held m p := by
  apply hrun.invariant (P := fun hist m => (∃ bs lost, Tidy size m bs lost) ∧
    ∀ p, p ≠ 0 → Stale p hist → ¬ Held m p)
  · refine ⟨⟨_, _, init_tidy hpos h16 hroom⟩, ?_⟩
    rintro p _ ⟨h₁, h₂, heq, _⟩
    exact absurd heq (by simp)
  · rintro hist s e r s' ⟨⟨bs, lost, h⟩, hstale⟩ hplain hstep
    obtain ⟨_, bs', lost', h', hnew⟩ := h.step hplain.sized hstep
    refine ⟨⟨bs', lost', h'⟩, fun p hp hst hheld => ?_⟩
    rcases stale_concat.mp hst with heq | ⟨hst, hout⟩
    · cases heq
      -- `free` itself has just released the block
      obtain ⟨_, t, hfree, hret⟩ := run_bind_eq_ok.mp hstep
      cases hret
      obtain ⟨x, hx, hused, heq⟩ := hheld
      exact (((h.freed hp hplain.1 hfree).1 x hused).mp hx).2 heq
    · rcases hnew hplain p hheld with hheld | hgot
      · exact hstale p hp hst hheld
      · exact hout hgot

/-- **Live pointers.** In every run whose requests make no empty block and whose
reallocations get no null pointer, `free(p)` returns exactly when `p` is live,
and then frees that block only. A pointer into a block but not at its payload's
start, a pointer to a free block, and a pointer that was freed and not handed
out again are all refused. -/
theorem free_accepts_live (hpos : 0 < size) (h16 : 16 ∣ size)
    (hroom : heap + size + redzoneSize < 2 ^ 64)
    (hrun : Runs step Event.Plain (init heap size buffer mem) hist m) {p : ℕ} (hp : p ≠ 0)
    (hp64 : p < 2 ^ 64) :
    ((free p).Returns m ↔ Live m p) ∧
    (∀ s, (free p).run m = .ok ((), s) → Freed m p s) ∧
    (∀ e ∈ extents m, e.start + redzoneSize < p → p < e.start + e.len + redzoneSize →
      ¬ (free p).Returns m) ∧
    (∀ e ∈ extents m, e.free = true → p = e.start + redzoneSize → ¬ (free p).Returns m) ∧
    (Stale p hist → ¬ (free p).Returns m) := by
  obtain ⟨⟨bs, lost, h⟩, hstale⟩ := runs_stale hpos h16 hroom hrun
  have hiff := h.free_returns_iff hp hp64
  refine ⟨hiff, fun s => h.freed hp hp64, ?_, ?_, ?_⟩
  · intro e he hlo hhi hret
    obtain ⟨x, hx, _, rfl, _⟩ := hiff.mp hret
    exact h.not_inside he hx (by omega) (by omega)
  · intro e he hfree hptr hret
    obtain ⟨x, hx, hused, hptr', _⟩ := hiff.mp hret
    have hsame : e = x := h.extent_unique he hx (by omega)
    rw [hsame, hused] at hfree
    cases hfree
  · intro hst hret
    obtain ⟨x, hx, hused, hptr, _⟩ := hiff.mp hret
    exact hstale p hp hst ⟨x, hx, hused, hptr⟩

end

/-- Of two blocks the first has been freed: its pointer is refused, that of the
second is accepted. -/
theorem free_accepts_live_page_heap : ∃ hist m, Runs step Event.Plain pageHeap hist m ∧
    Stale 4160 hist ∧ ¬ (free 4160).Returns m ∧ Live m 4304 ∧ (free 4304).Returns m := by
  have hreplay : (replay step Event.Plain [] pageHeap
      [.call (.alloc 16), .call (.alloc 16), .call (.free 4160)]).map
      (fun r => (r.1, decide (Live r.2 4304))) =
      some ([(.call (.alloc 16), 4160), (.call (.alloc 16), 4304), (.call (.free 4160), 0)],
        true) := by decide +kernel
  obtain ⟨⟨hist, m⟩, hr, hres⟩ := Option.map_eq_some_iff.mp hreplay
  obtain ⟨hhist, hlive⟩ := Prod.mk.inj hres
  dsimp only at hhist hlive
  have hrun := (Runs.nil pageHeap).replay hr
  have hstale : Stale 4160 hist :=
    ⟨[(.call (.alloc 16), 4160), (.call (.alloc 16), 4304)], [], hhist, by simp⟩
  exact ⟨hist, m, hrun, hstale,
    (free_accepts_live (by decide) (by decide) (by decide) hrun (p := 4160) (by decide)
      (by decide)).2.2.2.2 hstale,
    of_decide_eq_true hlive,
    (free_accepts_live (by decide) (by decide) (by decide) hrun (p := 4304) (by decide)
      (by decide)).1.mpr (of_decide_eq_true hlive)⟩

/-- A request of `2^64 - 128` bytes leaves an empty used block at the start of the
heap. The next allocation gets the same address and cannot be freed. And after
`realloc(nullptr, 16)` a pointer can be freed a second time. -/
theorem empty_block_hides_live :
    (¬ ∀ hist m, Runs step Event.Typed pageHeap hist m → ∀ p, p ≠ 0 → p < 2 ^ 64 →
      ((free p).Returns m ↔ Live m p)) ∧
    ¬ ∀ hist m, Runs step Event.Typed pageHeap hist m → ∀ p, p ≠ 0 → p < 2 ^ 64 →
      Stale p hist → ¬ (free p).Returns m := by
  constructor
  · intro hfree
    have hreplay : (replay step Event.Typed [] pageHeap
        [.call (.alloc (2 ^ 64 - 128)), .call (.alloc 16)]).map
        (fun r => (decide (Live r.2 4160), ((free 4160).run r.2).toOption.isNone)) =
        some (true, true) := by decide +kernel
    obtain ⟨⟨hist, m⟩, hr, hres⟩ := Option.map_eq_some_iff.mp hreplay
    obtain ⟨hlive, hnone⟩ := Prod.mk.inj hres
    obtain ⟨r, hret⟩ := (hfree hist m ((Runs.nil pageHeap).replay hr) 4160 (by decide)
      (by decide)).mpr (of_decide_eq_true hlive)
    dsimp only at hnone
    rw [hret] at hnone
    cases hnone
  · intro hstale
    have hreplay : (replay step Event.Typed [] pageHeap
        [.call (.alloc 16), .call (.free 4160), .call (.realloc 0 16)]).map
        (fun r => (r.1, ((free 4160).run r.2).toOption.isSome)) =
        some ([(.call (.alloc 16), 4160), (.call (.free 4160), 0), (.call (.realloc 0 16), 0)],
          true) := by decide +kernel
    obtain ⟨⟨hist, m⟩, hr, hres⟩ := Option.map_eq_some_iff.mp hreplay
    obtain ⟨hhist, hsome⟩ := Prod.mk.inj hres
    dsimp only at hhist hsome
    obtain ⟨r, hret⟩ := Option.isSome_iff_exists.mp hsome
    refine hstale hist m ((Runs.nil pageHeap).replay hr) 4160 (by decide) (by decide) ?_
      ⟨r, eq_ok_of_toOption hret⟩
    refine ⟨[(.call (.alloc 16), 4160)], [(.call (.realloc 0 16), 0)], hhist, fun x hx => ?_⟩
    obtain rfl := List.mem_singleton.mp hx
    simp [HandsOut, Call.got, handle]

end NeptunOS.Heap
