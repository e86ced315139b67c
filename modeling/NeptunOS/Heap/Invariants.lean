import NeptunOS.Heap.Runs

/-!
# The heap over whole runs

Two results about every run: the representation invariant of the linked list
(`runs_heapInv`), and complete coalescing (`runs_coalesce`): freeing undoes
allocating exactly, and once every pointer is freed the heap is one free block
again.
-/

namespace NeptunOS.Heap

open Stepwise Linked BlockList Function

/-! ## The representation invariant -/

/-- The links reachable from `first` are a doubly linked list of distinct
slots, exactly those marked in `bm`; lengths are positive multiples of 16 that
sum up to `size`; no two neighbours are free; the counters are the sums of the
used and of the free lengths. -/
def HeapInv (size : ℕ) (m : MemoryMgr) : Prop :=
  ∃ ls : List ℕ,
    Listed (fwd m) m.prev none ls ∧ ls.Nodup ∧
    (∀ s, s ∈ ls ↔ s < m.bm.sz ∧ m.bm.bit s = true) ∧
    (∀ l ∈ ls, 0 < m.length l ∧ 16 ∣ m.length l) ∧
    (ls.map m.length).sum = size ∧
    ls.IsChain (fun a b => ¬ (m.free a = true ∧ m.free b = true)) ∧
    m.usedmem = ((ls.filter fun l => !m.free l).map m.length).sum ∧
    m.freemem = ((ls.filter fun l => m.free l).map m.length).sum

/-- The alignment is between 1 and `2^31`. -/
def Call.AlignOk : Call → Prop
  | .allocAligned _ a => 1 ≤ a ∧ a ≤ 2 ^ 31
  | _ => True

/-- Calls as the kernel makes them: sizes below `2^63`, alignments from 1 to
`2^31`, and aligned requests that find a block. -/
def Event.Regular (m : MemoryMgr) : Event → Prop
  | .call c => c.Typed ∧ c.Small ∧ c.Found m ∧ c.AlignOk
  | .write addr _ => addr < 2 ^ 64

instance : (c : Call) → Decidable c.AlignOk
  | .alloc _ | .tryRealloc _ _ | .realloc _ _ | .free _ =>
    inferInstanceAs (Decidable True)
  | .allocAligned _ a => inferInstanceAs (Decidable (1 ≤ a ∧ a ≤ 2 ^ 31))

instance (m : MemoryMgr) : (e : Event) → Decidable (e.Regular m)
  | .call c => inferInstanceAs (Decidable (c.Typed ∧ c.Small ∧ c.Found m ∧ c.AlignOk))
  | .write addr _ => inferInstanceAs (Decidable (addr < 2 ^ 64))

/-- A list property read off the pool. -/
theorem map_length_ids {m : MemoryMgr} : ∀ {bs : List Blk},
    (∀ b ∈ bs, m.length b.id = b.len ∧ m.free b.id = b.free) →
    (ids bs).map m.length = bs.map BlockList.Block.len ∧
      ((ids bs).filter fun l => !m.free l).map m.length =
        (bs.filter fun b => !b.free).map BlockList.Block.len ∧
      ((ids bs).filter fun l => m.free l).map m.length =
        (bs.filter BlockList.Block.free).map BlockList.Block.len
  | [], _ => ⟨rfl, rfl, rfl⟩
  | b :: bs, h => by
    obtain ⟨hl, hf⟩ := h b (by simp)
    obtain ⟨h1, h2, h3⟩ := @map_length_ids m bs fun x hx => h x (by simp [hx])
    cases hb : b.free <;>
      simp [hl, hf, hb, h1, h2, h3]

theorem Books.heapInv {size : ℕ} {m : MemoryMgr} {bs : List Blk}
    (h : Books size m bs []) (hsize : size < 2 ^ 64) (ht : Tight bs) :
    HeapInv size m := by
  obtain ⟨h1, h2, h3⟩ := map_length_ids h.rep.data
  obtain ⟨hused, hsum⟩ := usedTotal_add_free 0 bs
  have htot := h.total
  have hu := h.used
  have hf := h.free
  rw [show ((usedAt 0 bs).map Prod.snd).sum = usedTotal bs from rfl] at hused hsum
  rw [List.sum_nil, Nat.add_zero, Nat.mod_eq_of_lt (by omega)] at hu
  rw [hu, wsub_of_le hsize (by omega)] at hf
  refine ⟨ids bs, h.rep.listed, h.rep.nodup, ?_, ?_, ?_, ?_, ?_, ?_⟩
  · rw [h.rep.sz]
    exact h.rep.bits
  · intro l hl
    obtain ⟨b, hb, rfl⟩ := List.mem_map.mp hl
    rw [(h.rep.data b hb).1]
    exact ht b hb
  · rw [h1]
    exact htot
  · rw [ids, List.isChain_map]
    apply List.IsChain.imp_of_mem_imp _ h.coalesced
    intro a b ha hb hab
    rwa [(h.rep.data a ha).2, (h.rep.data b hb).2]
  · rw [h2, hu, hused]
  · rw [h3, hf]
    omega

/-- **Representation invariant.** Every run of regular events from a fresh heap
keeps `HeapInv`. -/
theorem runs_heapInv {heap size : ℕ} (buffer : ℕ → BitVec 64) (mem : Mem)
    (hheap : heap < 2 ^ 64) (hsize : size < 2 ^ 64) (hpos : 0 < size)
    (h16 : 16 ∣ size) {hist : List (Event × ℕ)} {m : MemoryMgr}
    (hrun : Runs step Event.Regular (init heap size buffer mem) hist m) :
    HeapInv size m := by
  have hinv : ∃ bs, Books size m bs [] ∧ Tight bs := by
    apply hrun.invariant (P := fun _ m => ∃ bs, Books size m bs [] ∧ Tight bs)
    · refine ⟨_, init_books buffer mem hheap hsize hpos, ?_⟩
      intro b hb
      obtain rfl := List.mem_singleton.mp hb
      exact ⟨hpos, h16⟩
    · rintro _ s e r s' ⟨bs, hbooks, ht⟩ hreg hstep
      cases e with
      | write addr v =>
        cases hstep
        exact ⟨bs, (Kept.of_mem hbooks _ True True).books, ht⟩
      | call c =>
        obtain ⟨htyped, hsmall, hfound, _⟩ := hreg
        obtain ⟨bs', lost', hk, hlost⟩ :=
          (c.kept hbooks hsize htyped).2 r s' hstep
        rw [hlost hfound] at hk
        exact ⟨bs', hk.books, hk.tight hsmall.solid ht⟩
  obtain ⟨bs, hbooks, ht⟩ := hinv
  exact hbooks.heapInv hsize ht

/-- The heap of one zeroed page that the examples start from. -/
def pageHeap : MemoryMgr := init 4096 4096 (fun _ => 0) fun _ => 0

/-- An allocation, growth in place, an aligned request that is cut three ways, a
store and a free. -/
theorem runs_heapInv_page_heap : ∃ hist m,
    Runs step Event.Regular pageHeap hist m ∧
      hist.map Prod.snd = [4160, 1, 4608, 0, 0] ∧ HeapInv 4096 m := by
  have hreplay : (replay step Event.Regular [] pageHeap
      [.call (.alloc 16), .call (.tryRealloc 4160 40), .call (.allocAligned 16 512),
        .write 4160 7, .call (.free 4608)]).map
      (fun r => r.1.map Prod.snd) = some [4160, 1, 4608, 0, 0] := by
    decide +kernel
  obtain ⟨⟨hist, m⟩, hr, hres⟩ := Option.map_eq_some_iff.mp hreplay
  have hrun := (Runs.nil pageHeap).replay hr
  exact ⟨hist, m, hrun, hres,
    runs_heapInv (fun _ => 0) (fun _ => 0) (by decide) (by decide) (by decide) (by decide)
      hrun⟩

/-! ## Complete coalescing -/

/-- The blocks in list order, as lengths and free marks. -/
def blocksFrom (m : MemoryMgr) : ℕ → Option ℕ → List (ℕ × Bool)
  | _, none => []
  | 0, some _ => []
  | fuel + 1, some l => (m.length l, m.free l) :: blocksFrom m fuel (m.next l)

/-- The sequence of blocks of a heap. -/
def blocks (m : MemoryMgr) : List (ℕ × Bool) := blocksFrom m capacity m.first

/-- The heap `t` has the blocks and the counters of `m`. -/
def SameBooks (m t : MemoryMgr) : Prop :=
  blocks t = blocks m ∧ t.usedmem = m.usedmem ∧ t.freemem = m.freemem

theorem blocksFrom_eq {m : MemoryMgr} : ∀ {fuel : ℕ} {p : Option ℕ} {bs : List Blk},
    Chain m p bs → bs.length ≤ fuel → blocksFrom m fuel p = shape bs
  | fuel, p, [], h, _ => by
    obtain rfl : p = none := h
    cases fuel <;> rfl
  | fuel + 1, p, b :: bs, ⟨hp, hl, hf, hc⟩, hlen => by
    rw [hp, blocksFrom, hl, hf, blocksFrom_eq hc (by simpa using hlen)]
    rfl

theorem Rep.blocks_eq {m : MemoryMgr} {bs : List Blk} (h : Rep m bs) :
    blocks m = shape bs := blocksFrom_eq h.chain h.length_le

section

variable {size : ℕ} {m s t : MemoryMgr} {bs bs' : List Blk} {lost : List ℕ}
variable {base off len p n : ℕ} {pre post : List Blk} {b : Blk}

theorem notAt_split {q : ℕ} (h : NotAt base q (pre ++ b :: post)) (hbase : base < 2 ^ 64) :
    wadd base (total pre) ≠ q := by
  induction pre generalizing base with
  | nil =>
    simpa [wadd_zero hbase, NotAt, Passes] using h.1
  | cons a pre ih =>
    have := ih h.2 (wadd_lt _ _)
    rwa [wadd_assoc] at this

/-- The block found at the address of a block is that block, provided the found
one is not empty. -/
theorem FirstAt.unique {pre' post' : List Blk} {u : Blk}
    (hat : FirstAt base (wadd base off) bs pre b post) (hbs : bs = pre' ++ u :: post')
    (hoff : off = total pre') (hbase : base < 2 ^ 64) (htot : total bs < 2 ^ 64) (hb : 0 < b.len) :
    pre = pre' ∧ b = u ∧ post = post' := by
  have hle : total pre + b.len ≤ total bs := by
    rw [hat.split]
    simp only [total_append, total_cons]
    omega
  have hle' : total pre' ≤ total bs := by
    rw [hbs]
    simp only [total_append]
    omega
  have hsame : off = total pre := wadd_left_cancel (by omega) (by omega) hat.addr
  have hsplit := hat.split
  rw [hbs] at hsplit
  rcases List.append_eq_append_iff.mp hsplit with ⟨as, hpre, hrest⟩ | ⟨as, hpre, hrest⟩
  · cases as with
    | nil =>
      rw [List.append_nil] at hpre
      obtain ⟨h1, h2⟩ := List.cons.inj hrest
      exact ⟨hpre, h1.symm, h2.symm⟩
    | cons a as =>
      -- the wanted block would have been passed
      have hnot := hat.notAt
      rw [hpre] at hnot
      exact absurd (by rw [hoff]) (notAt_split hnot hbase)
  · cases as with
    | nil =>
      rw [List.append_nil] at hpre
      obtain ⟨h1, h2⟩ := List.cons.inj hrest
      exact ⟨hpre.symm, h1, h2⟩
    | cons a as =>
      -- the found block would lie before the wanted one
      obtain ⟨rfl, _⟩ := List.cons.inj hrest
      have : total pre' = total pre + b.len + total as := by
        rw [hpre]
        simp only [total_append, total_cons]
        omega
      omega

/-- Freeing what was just cut out undoes the cut. -/
theorem Books.cut_free (h : Books size m bs lost) (hsize : size < 2 ^ 64)
    (hcut : Cut len bs off bs') (hd : AllocDone m len (wadd m.heapBase off) bs' s)
    (hlen : len < 2 ^ 64) (hp : p = wadd m.heapBase (off + redzoneSize)) (hne : p ≠ 0)
    (hfree : FreePost s bs' p t) : SameBooks m t := by
  rcases hfree with ⟨h0, _⟩ | ⟨_, pre, b, post, hat, hused, hblen, _, hf⟩
  · exact absurd h0 hne
  have hq : wsub p redzoneSize = wadd s.heapBase off := by
    rw [hp, ← wadd_assoc, wadd_wsub_cancel (wadd_lt _ _) (by decide), hd.heapBase]
  rw [hq] at hat
  have htot : total bs' < 2 ^ 64 := by
    rw [hcut.change.total_eq, h.total]
    exact hsize
  have hu := h.used
  have hfm := h.free
  have husd := hf.usedmem
  have hfrd := hf.freemem
  rw [hd.usedmem] at husd
  rw [hd.freemem] at hfrd
  cases hcut with
  | @mk cpre cpost lead tail c hc hl ht _ hsum =>
    have hsplit : cpre ++ (lead ++ ⟨c.id, len, false⟩ :: (tail ++ cpost)) =
        (cpre ++ lead) ++ ⟨c.id, len, false⟩ :: (tail ++ cpost) := by simp
    obtain ⟨rfl, rfl, rfl⟩ := hat.unique hsplit (by simp) (hd.heapBase ▸ h.base) htot
      (by omega)
    refine ⟨?_, ?_, ?_⟩
    · rw [hf.rep.blocks_eq, h.rep.blocks_eq]
      exact shape_release_take h.coalesced hc rfl hl ht hsum
    · rw [husd]
      dsimp only
      unfold wsub wadd
      omega
    · rw [hfrd]
      dsimp only
      unfold wsub at hfm
      unfold wsub wadd
      omega

/-- A pointer that a failed `alloc_aligned` returned cannot be freed: no block
starts behind the heap. -/
theorem Books.stray_free (h : Books size m bs lost) (hsize : size < 2 ^ 64)
    (hb : s.heapBase = m.heapBase) (hp : p = strayPtr m.heapBase size) (hne : p ≠ 0)
    (hfree : FreePost s bs p t) : False := by
  rcases hfree with ⟨h0, _⟩ | ⟨_, pre, b, post, hat, _, hblen, _, _⟩
  · exact hne h0
  have hq : wsub p redzoneSize = wadd s.heapBase size := by
    rw [hp, strayPtr, ← wadd_assoc, wadd_wsub_cancel (wadd_lt _ _) (by decide), hb]
  have htot := h.total
  rw [hat.split] at htot
  simp only [total_append, total_cons] at htot
  have haddr := hat.addr
  rw [hq] at haddr
  have : size = total pre := wadd_left_cancel (by omega) (by omega) haddr
  omega

theorem free_post (hr : Rep s bs) (htot : total bs < 2 ^ 64) (hbase : s.heapBase < 2 ^ 64)
    (hrun : (Heap.free p).run s = .ok ((), t)) : FreePost s bs p t :=
  (free_spec (B := anywhere) (fun _ _ _ => trivial) (fun _ _ _ => trivial) hr htot hbase
    p).2 () t hrun

theorem Books.placed_free (h : Books size m bs lost) (hsize : size < 2 ^ 64)
    (hroom : m.heapBase + size + redzoneSize < 2 ^ 64) (hcut : Cut len bs off bs')
    (hd : AllocDone m len (wadd m.heapBase off) bs' s) (hlen : len < 2 ^ 64)
    (hp : p = wadd m.heapBase (off + redzoneSize)) (hrun : (Heap.free p).run s = .ok ((), t)) :
    SameBooks m t := by
  have hbooks := h.cut hcut hd hlen
  have hfree := free_post hd.rep (hbooks.total ▸ hsize) hbooks.base hrun
  refine h.cut_free hsize hcut hd hlen hp ?_ hfree
  rw [hp]
  exact ptr_ne_zero hroom (h.total ▸ hcut.off_le)

theorem AllocPost.undo (h : Books size m bs lost) (hsize : size < 2 ^ 64)
    (hroom : m.heapBase + size + redzoneSize < 2 ^ 64) (hpost : AllocPost m bs n p s)
    (hrun : (Heap.free p).run s = .ok ((), t)) : SameBooks m t := by
  rcases hpost with ⟨_, rfl, rfl⟩ | ⟨_, off, bs', hcut, hd, hp⟩
  · rcases free_post h.rep (h.total ▸ hsize) h.base hrun with ⟨_, rfl⟩ | ⟨h0, _⟩
    · exact ⟨rfl, rfl, rfl⟩
    · exact absurd rfl h0
  · exact h.placed_free hsize hroom hcut hd (blockSize_lt n) hp hrun

theorem AlignedPost.undo {a : ℕ} (h : Books size m bs lost) (hsize : size < 2 ^ 64)
    (hroom : m.heapBase + size + redzoneSize < 2 ^ 64) (hpost : AlignedPost m bs n a p s)
    (hrun : (Heap.free p).run s = .ok ((), t)) : SameBooks m t := by
  rcases hpost with ⟨off, bs', hcut, hd, hp⟩ | ⟨_, hd, hp⟩
  · exact h.placed_free hsize hroom hcut hd (blockSize_lt n) hp hrun
  · rw [h.total] at hp
    have hfree := free_post hd.rep (h.total ▸ hsize) (hd.heapBase ▸ h.base) hrun
    refine (h.stray_free hsize hd.heapBase hp ?_ hfree).elim
    rw [hp]
    exact ptr_ne_zero hroom (Nat.le_refl size)

/-- A coalesced list without used blocks is one block. -/
theorem Coalesced.single (h : Coalesced bs) (hused : usedAt 0 bs = [])
    (hpos : 0 < total bs) : shape bs = [(total bs, true)] := by
  have hfree : ∀ {o : ℕ} {bs : List Blk}, usedAt o bs = [] → ∀ b ∈ bs, b.free = true := by
    intro o bs
    induction bs generalizing o with
    | nil => simp
    | cons b bs ih =>
      intro hu
      cases hb : b.free with
      | false =>
        rw [usedAt_cons_used hb] at hu
        cases hu
      | true =>
        rw [usedAt_cons_free hb] at hu
        simpa [hb] using ih hu
  match bs, h, hpos, hfree hused with
  | [], _, hpos, _ => simp at hpos
  | [b], _, _, hall => simp [hall b (by simp)]
  | a :: b :: bs, h, _, hall =>
    have := (List.isChain_cons_cons.mp h).1
    exact absurd ⟨hall a (by simp), hall b (by simp)⟩ this

end

/-- Calls with arguments of the source's types. -/
def Event.Typed (_ : MemoryMgr) : Event → Prop
  | .call c => c.Typed
  | .write addr _ => addr < 2 ^ 64

/-- Calls that also give `try_realloc` and `realloc` no null pointer. -/
def Event.Fair (m : MemoryMgr) : Event → Prop
  | .call c => c.Typed ∧ c.NonNull
  | .write addr v => Event.Typed m (.write addr v)

instance (m : MemoryMgr) : (e : Event) → Decidable (e.Typed m)
  | .call c => inferInstanceAs (Decidable c.Typed)
  | .write addr _ => inferInstanceAs (Decidable (addr < 2 ^ 64))

instance (m : MemoryMgr) : (e : Event) → Decidable (e.Fair m)
  | .call c => inferInstanceAs (Decidable (c.Typed ∧ c.NonNull))
  | .write addr _ => inferInstanceAs (Decidable (addr < 2 ^ 64))

/-- The pointers a history has returned; null is none. -/
def returned (hist : List (Event × ℕ)) : Multiset ℕ :=
  (hist.map fun e => match e.1 with
    | .call c => c.got e.2
    | .write _ _ => 0).sum

/-- The pointers a history has freed, directly or through `realloc`. -/
def freed (hist : List (Event × ℕ)) : Multiset ℕ :=
  (hist.map fun e => match e.1 with
    | .call c => c.gone
    | .write _ _ => 0).sum

section

variable {heap size : ℕ} {buffer : ℕ → BitVec 64} {mem : Mem}
  {hist : List (Event × ℕ)} {m : MemoryMgr}

/-- The books are in order after every run. -/
theorem runs_books (hheap : heap < 2 ^ 64) (hsize : size < 2 ^ 64) (hpos : 0 < size)
    (hrun : Runs step Event.Typed (init heap size buffer mem) hist m) :
    m.heapBase = heap ∧ ∃ bs lost, Books size m bs lost := by
  apply hrun.invariant (P := fun _ m => m.heapBase = heap ∧ ∃ bs lost, Books size m bs lost)
  · exact ⟨rfl, _, _, init_books buffer mem hheap hsize hpos⟩
  · rintro _ s e r s' ⟨hb, bs, lost, h⟩ hg hstep
    cases e with
    | write addr v =>
      cases hstep
      exact ⟨hb, bs, lost, (Kept.of_mem h _ True True).books⟩
    | call c =>
      obtain ⟨bs', lost', hk, _⟩ := (c.kept h hsize hg).2 r s' hstep
      exact ⟨hk.heapBase.trans hb, bs', lost', hk.books⟩

/-- In a fair run every pointer returned and not freed is a used block or was
returned by an `alloc_aligned` that found none. -/
theorem runs_ledger (hheap : heap < 2 ^ 64) (hsize : size < 2 ^ 64) (hpos : 0 < size)
    (hroom : heap + size + redzoneSize < 2 ^ 64)
    (hrun : Runs step Event.Fair (init heap size buffer mem) hist m) :
    ∃ bs lost, Books size m bs lost ∧ m.heapBase = heap ∧
      returned hist = freed hist + (ptrs heap bs +
        Multiset.replicate lost.length (strayPtr heap size)) := by
  apply hrun.invariant (P := fun hist m => ∃ bs lost, Books size m bs lost ∧
    m.heapBase = heap ∧ returned hist = freed hist + (ptrs heap bs +
      Multiset.replicate lost.length (strayPtr heap size)))
  · exact ⟨_, _, init_books buffer mem hheap hsize hpos, rfl, rfl⟩
  · rintro hist s e r s' ⟨bs, lost, h, rfl, hled⟩ hg hstep
    cases e with
    | write addr v =>
      cases hstep
      refine ⟨bs, lost, (Kept.of_mem h _ True True).books, rfl, ?_⟩
      simpa [returned, freed] using hled
    | call c =>
      obtain ⟨bs', lost', hk, _⟩ := (c.kept h hsize hg.1).2 r s' hstep
      refine ⟨bs', lost', hk.books, hk.heapBase, ?_⟩
      have hret : returned (hist ++ [(.call c, r)]) = returned hist + c.got r := by
        simp [returned]
      have hfr : freed (hist ++ [(.call c, r)]) = freed hist + c.gone := by
        simp [freed]
      rw [hret, hfr, hled, add_assoc, ← hk.ledger hg.2 hroom, add_assoc (freed hist),
        add_comm c.gone]

/-- **Complete coalescing.** In every reachable heap, an allocation and the
free of its pointer restore the blocks and the counters; and a fair run that
has freed what it was given ends with one free block. -/
theorem runs_coalesce (hheap : heap < 2 ^ 64) (hsize : size < 2 ^ 64) (hpos : 0 < size)
    (hroom : heap + size + redzoneSize < 2 ^ 64) :
    (Runs step Event.Typed (init heap size buffer mem) hist m →
      ∀ p s t, ((∃ n, (alloc n).run m = .ok (p, s)) ∨
          ∃ n a, (allocAligned n a).run m = .ok (p, s)) →
        (free p).run s = .ok ((), t) → SameBooks m t) ∧
    (Runs step Event.Fair (init heap size buffer mem) hist m →
      returned hist = freed hist → blocks m = [(size, true)] ∧ m.usedmem = 0) := by
  constructor
  · intro hrun p s t hres hfree
    obtain ⟨rfl, bs, lost, h⟩ := runs_books hheap hsize hpos hrun
    rcases hres with ⟨n, hres⟩ | ⟨n, a, hres⟩
    · have hpost := (alloc_spec (B := anywhere) (fun _ _ _ => trivial)
        (fun _ _ _ => trivial) h.rep (h.total ▸ hsize) h.base n
        fun _ _ _ _ => trivial).2 p s hres
      exact hpost.undo h hsize hroom hfree
    · have hpost := (allocAligned_spec (B := anywhere) (fun _ _ _ => trivial)
        (fun _ _ _ => trivial) h.rep (h.total ▸ hsize) h.base n a
        (fun _ _ _ _ => trivial) fun _ _ _ => trivial).2 p s hres
      exact hpost.undo h hsize hroom hfree
  · intro hrun hbal
    obtain ⟨bs, lost, h, rfl, hled⟩ := runs_ledger hheap hsize hpos hroom hrun
    rw [hbal, left_eq_add] at hled
    have hcard := congrArg Multiset.card hled
    simp only [ptrs, Multiset.card_add, Multiset.coe_card, List.length_map,
      Multiset.card_replicate, Multiset.card_zero, Nat.add_eq_zero_iff,
      List.length_eq_zero_iff] at hcard
    obtain ⟨hused, hlost⟩ := hcard
    rw [h.rep.blocks_eq, Coalesced.single h.coalesced hused (h.total ▸ hpos), h.total,
      h.used, hlost, usedTotal, hused]
    exact ⟨rfl, rfl⟩

end

/-- Both halves on concrete runs: an allocation undone in a fresh heap, and a
run that frees what it was given. -/
theorem runs_coalesce_page_heap :
    (∃ s t, (alloc 16).run pageHeap = .ok (4160, s) ∧
      (free 4160).run s = .ok ((), t) ∧ SameBooks pageHeap t) ∧
    ∃ hist m, Runs step Event.Fair pageHeap hist m ∧ (returned hist).card = 2 ∧
      blocks m = [(4096, true)] ∧ m.usedmem = 0 := by
  constructor
  · have heval : ((alloc 16).run pageHeap).toOption.map (fun r =>
        (r.1, ((free 4160).run r.2).toOption.isSome)) = some (4160, true) := by
      decide +kernel
    obtain ⟨⟨p, s⟩, hs, hres⟩ := Option.map_eq_some_iff.mp heval
    obtain ⟨rfl, hfree⟩ := Prod.mk.inj hres
    obtain ⟨⟨_, t⟩, ht⟩ := Option.isSome_iff_exists.mp hfree
    have hs' := eq_ok_of_toOption hs
    have ht' := eq_ok_of_toOption ht
    exact ⟨s, t, hs', ht', (runs_coalesce (by decide) (by decide) (by decide)
      (by decide)).1 (Runs.nil pageHeap) 4160 s t (Or.inl ⟨16, hs'⟩) ht'⟩
  · have hreplay : (replay step Event.Fair [] pageHeap
        [.call (.alloc 16), .call (.allocAligned 16 512), .call (.tryRealloc 4160 40),
          .call (.free 4160), .call (.free 4608)]).map
        (fun r => (decide (returned r.1 = freed r.1), (returned r.1).card)) =
          some (true, 2) := by
      decide +kernel
    obtain ⟨⟨hist, m⟩, hr, hres⟩ := Option.map_eq_some_iff.mp hreplay
    obtain ⟨hbal, hcard⟩ := Prod.mk.inj hres
    have hrun := (Runs.nil pageHeap).replay hr
    exact ⟨hist, m, hrun, hcard, (runs_coalesce (by decide) (by decide) (by decide)
      (by decide)).2 hrun (of_decide_eq_true hbal)⟩

end NeptunOS.Heap
