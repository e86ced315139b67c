import NeptunOS.Heap.Alloc

/-!
# `check` and `free`

`check(p)` returns exactly when `p - 64` is the first address match of a used
link of at least 144 bytes whose two redzones are intact (`check_eq_ok`).
`free` checks, marks the block free and merges it with its free neighbours:
on the block list this is `BlockList.release`.
-/

namespace NeptunOS.Heap

open Stepwise Stepwise.Prog Linked BlockList Function

/-! ## The check -/

/-- Both redzones of the block of `len` bytes at `address` hold the magic
value. -/
def Dressed (mem : Mem) (address len : ℕ) : Prop :=
  memchk mem address redzoneMagic redzoneSize = false ∧
    memchk mem (wsub (wadd address len) redzoneSize) redzoneMagic
      redzoneSize = false

variable {m : MemoryMgr} {p j i : ℕ} {nested : ℕ → Except Halt Unit}

theorem reportBefore_ne_ok : reportBefore m p j nested ≠ .ok () := by
  intro h
  obtain ⟨sz, _, h⟩ := bind_eq_ok.mp h
  split at h
  · cases h
  · obtain ⟨_, _, h⟩ := bind_eq_ok.mp h
    cases h

theorem reportAfter_ne_ok : reportAfter m p i nested ≠ .ok () := by
  unfold reportAfter
  intro h
  split at h
  · cases h
  · obtain ⟨_, _, h⟩ := bind_eq_ok.mp h
    cases h

/-- `check` returns only past all of its tests. -/
theorem check_succ_eq_ok {fuel ptr addr : ℕ} {cb ca : Bool}
    (hl : lookup m (wsub ptr redzoneSize) = .ok ⟨some i, some j, addr⟩) :
    check m (fuel + 1) ptr cb ca = .ok () ↔
      m.length i ≠ 2 ^ 64 - 1 ∧ m.free i = false ∧
        minAlloc + redzoneSize * 2 ≤ m.length i ∧
        Dressed m.mem (wsub ptr redzoneSize) (m.length i) := by
  unfold Dressed
  rw [check, hl]
  change (if m.length i = 2 ^ 64 - 1 then _ else _) = _ ↔ _
  by_cases h1 : m.length i = 2 ^ 64 - 1
  · rw [if_pos h1]
    exact iff_of_false (by simp) fun h => h.1 h1
  rw [if_neg h1]
  by_cases h2 : m.free i = true
  · rw [if_pos h2]
    exact iff_of_false (by simp) fun h => by rw [h.2.1] at h2; cases h2
  rw [if_neg h2]
  by_cases h3 : m.length i < minAlloc + redzoneSize * 2
  · rw [if_pos h3]
    refine iff_of_false (fun h => ?_) fun h => absurd h.2.2.1 (by omega)
    obtain ⟨_, _, h⟩ := bind_eq_ok.mp h
    cases h
  rw [if_neg h3]
  by_cases h4 : memchk m.mem (wsub ptr redzoneSize) redzoneMagic redzoneSize = true
  · rw [if_pos h4]
    exact iff_of_false reportBefore_ne_ok fun h => by
      rw [h.2.2.2.1] at h4
      cases h4
  rw [if_neg h4]
  by_cases h5 : memchk m.mem (wsub (wadd (wsub ptr redzoneSize) (m.length i))
      redzoneSize) redzoneMagic redzoneSize = true
  · rw [if_pos h5]
    exact iff_of_false reportAfter_ne_ok fun h => by
      rw [h.2.2.2.2] at h5
      cases h5
  rw [if_neg h5]
  exact iff_of_true rfl ⟨h1, by simpa using h2, by omega, by simpa using h4, by simpa using h5⟩

/-- The walk of `lookup` passes the blocks that do not start at `q`. -/
def NotAt (base q : ℕ) (bs : List Blk) : Prop :=
  Passes (fun _ addr => .ok (decide (addr = q))) base bs

/-- The first block at the address `q` is `b`, between `pre` and `post`. -/
structure FirstAt (base q : ℕ) (bs pre : List Blk) (b : Blk) (post : List Blk) :
    Prop where
  split : bs = pre ++ b :: post
  notAt : NotAt base q pre
  addr : q = wadd base (total pre)

section

variable {m : MemoryMgr} {bs : List Blk} {q : ℕ} {c : Cursor}
variable {pre post : List Blk} {b : Blk}

theorem lookup_inv (hc : Chain m m.first bs) (hbase : m.heapBase < 2 ^ 64)
    (h : lookup m q = .ok c) :
    (∃ pre b post, FirstAt m.heapBase q bs pre b post ∧
      c = ⟨some b.id, endOf m.first (ids pre), q⟩) ∨
    (NotAt m.heapBase q bs ∧ c.i = none) := by
  rcases walk_inv hc hbase h with ⟨pre, b, post, hbs, hp, hb, rfl⟩ | ⟨hp, rfl⟩
  · have haddr : wadd m.heapBase (total pre) = q := by simpa using hb
    rw [haddr]
    exact .inl ⟨pre, b, post, ⟨hbs, hp, haddr.symm⟩, rfl⟩
  · exact .inr ⟨hp, rfl⟩

theorem lookup_hit (hc : Chain m m.first bs) (hbase : m.heapBase < 2 ^ 64)
    (hcap : bs.length ≤ capacity) (h : FirstAt m.heapBase q bs pre b post) :
    lookup m q = .ok ⟨some b.id, endOf m.first (ids pre), q⟩ := by
  obtain ⟨rfl, hp, rfl⟩ := h
  refine walk_hit hc hp hbase (by simp) ?_
  simp only [List.length_append, List.length_cons] at hcap
  omega

/-- The link before a found one is never null: at the first link it is that
link itself. -/
theorem Chain.before (hc : Chain m m.first (pre ++ b :: post)) :
    ∃ j, endOf m.first (ids pre) = some j := by
  have hmem := endOf_mem m.first (ids pre)
  have hfirst : ∃ f, m.first = some f := by
    cases pre with
    | nil => exact ⟨_, hc.1⟩
    | cons a pre => exact ⟨_, hc.1⟩
  obtain ⟨f, hf⟩ := hfirst
  rw [List.mem_cons, List.mem_map, hf] at hmem
  rw [hf]
  rcases hmem with h | ⟨j, _, h⟩
  · exact ⟨f, h⟩
  · exact ⟨j, h.symm⟩

theorem Chain.data {p : Option ℕ} (hc : Chain m p (pre ++ b :: post)) :
    m.length b.id = b.len ∧ m.free b.id = b.free := by
  induction pre generalizing p with
  | nil => exact ⟨hc.2.1, hc.2.2.1⟩
  | cons a pre ih => exact ih hc.2.2.2

/-- **`check(p)` returns exactly when** the first block at `p - 64` is used,
at least 144 bytes long and has intact redzones. -/
theorem checkPtr_eq_ok {p : ℕ} (hc : Chain m m.first bs)
    (hbase : m.heapBase < 2 ^ 64) (hcap : bs.length ≤ capacity) :
    checkPtr m p = .ok () ↔
      ∃ pre b post, FirstAt m.heapBase (wsub p redzoneSize) bs pre b post ∧
        b.len ≠ 2 ^ 64 - 1 ∧ b.free = false ∧ 144 ≤ b.len ∧
        Dressed m.mem (wsub p redzoneSize) b.len := by
  constructor
  · intro h
    have h' := h
    unfold checkPtr at h'
    rw [check] at h'
    obtain ⟨c, hl, _⟩ := bind_eq_ok.mp h'
    rcases lookup_inv hc hbase hl with ⟨pre, b, post, hat, rfl⟩ | ⟨hp, hi⟩
    · obtain rfl := hat.split
      obtain ⟨j, hj⟩ := hc.before
      rw [hj] at hl
      have hok := (check_succ_eq_ok hl).mp h
      rw [hc.data.1, hc.data.2] at hok
      exact ⟨pre, b, post, hat, hok⟩
    · obtain ⟨i, j, addr⟩ := c
      obtain rfl : i = none := hi
      rw [hl] at h'
      cases h'
  · rintro ⟨pre, b, post, hat, hok⟩
    have hl := lookup_hit hc hbase hcap hat
    obtain rfl := hat.split
    obtain ⟨j, hj⟩ := hc.before
    rw [hj] at hl
    refine (check_succ_eq_ok hl).mpr ?_
    rw [hc.data.1, hc.data.2]
    exact hok

end

/-! ## Merging -/

section

variable {m : MemoryMgr} {pre post : List Blk} {c n : Blk}
  {B : ℕ → MemoryMgr → Prop}

/-- `c` takes over the block `n` behind it. Once relinked, every boundary shows
the merged list. -/
theorem fuse_spec {line : ℕ} (h : Rep m (pre ++ c :: n :: post))
    (hlen : c.len + n.len < 2 ^ 64) (hB : ∀ s, B line s)
    (hB' : ∀ s, B (line + 2) s)
    (hM : ∀ l s, s.heapBase = m.heapBase → s.mem = m.mem →
      Chain s s.first (pre ++ { c with len := c.len + n.len } :: post) → B l s) :
    (fuse line c.id n.id).Spec m B fun _ s =>
      Rep s (pre ++ { c with len := c.len + n.len } :: post) ∧ SameData m s := by
  have hn : Rep m ((pre ++ [c]) ++ n :: post) := by simpa using h
  have hprevn : m.prev n.id = some c.id := by simpa using hn.prev_eq
  have hnid : ∀ x ∈ ids (pre ++ { c with len := c.len + n.len } :: post),
      x ≠ n.id := by
    have hnd := hn.nodup
    rw [ids_append, ids_cons, List.nodup_middle, List.nodup_cons] at hnd
    rintro x hx rfl
    exact hnd.1 (by simpa using hx)
  unfold fuse
  apply Spec.stmt_bind (hB _)
  apply Spec.read_bind
  apply setPrevOf_bind hB'
  -- the list after the last link is set, whatever the slot of `n` holds
  have hlist : ∀ bm nx pv, (∀ x, x ≠ n.id →
        nx x = update m.next c.id (m.next n.id) x) →
      (∀ x, x ≠ n.id → pv x = if m.next n.id = some x then some c.id else m.prev x) →
      ListRep { m with
        next := nx, prev := pv, bm := bm
        length := update m.length c.id (wadd (m.length c.id) (m.length n.id)) }
        (pre ++ { c with len := c.len + n.len } :: post) := by
    intro bm nx pv hnx hpv
    apply h.toListRep.unlink
    · rfl
    · intro x hx
      rw [← update_apply]
      exact hnx x hx
    · exact hpv
    · intro x _
      rw [h.length_eq, hn.length_eq, wadd_of_lt hlen, ← update_apply]
    · intro x _
      rfl
  apply Spec.stmt_bind
  · exact hM _ _ rfl rfl (hlist m.bm _ _ (fun _ _ => rfl) fun _ _ => rfl).chain
  have hpool : Pool { m with
      next := update m.next c.id (m.next n.id)
      prev := fun x => if m.next n.id = some x then some c.id else m.prev x
      length := update m.length c.id (wadd (m.length c.id) (m.length n.id)) }
      (ids (pre ++ c :: n :: post)) := ⟨h.sz, h.bits⟩
  have hprev' : (if m.next n.id = some n.id then some c.id else m.prev n.id) =
      some c.id := by
    rw [hprevn, ite_self]
  have hids : ∀ x, x ∈ ids (pre ++ { c with len := c.len + n.len } :: post) ↔
      x ∈ ids (pre ++ c :: n :: post) ∧ x ≠ n.id := by
    intro x
    have hx := hnid x
    simp only [ids_append, ids_cons, List.mem_append, List.mem_cons] at hx ⊢
    tauto
  apply (deleteLink_spec hpool hprev' hids ?_).mono fun _ _ hb => hb
  · rintro _ s ⟨hp, bm, rfl⟩
    refine ⟨⟨hlist bm _ _ (fun x hx => ?_) (fun x hx => ?_), hp.sz, hp.bits⟩,
      rfl, rfl, rfl, rfl, rfl⟩
    · rw [update_of_ne hx]
    · rw [update_of_ne hx]
  · intro bm nx pv hnx
    refine hM _ _ rfl rfl ?_
    apply (hlist m.bm _ _ (fun _ _ => rfl) fun _ _ => rfl).chain.congr
    intro x hx
    exact ⟨hnx x (hnid x hx), rfl, rfl⟩

variable (hW : ∀ line s, relinking line = true → B line s)

include hW

section

variable (h : Rep m (pre ++ c :: post))

include h

theorem mergeNext_spec (hc : c.free = true) (htot : total (pre ++ c :: post) < 2 ^ 64)
    (hM : ∀ l s, s.heapBase = m.heapBase → s.mem = m.mem →
      Chain s s.first (pre ++ absorb c post :: unabsorbed post) → B l s) :
    (mergeNext c.id).Spec m B fun _ s =>
      Rep s (pre ++ absorb c post :: unabsorbed post) ∧ SameData m s := by
  unfold mergeNext
  apply Spec.read_bind
  rw [h.next_eq]
  cases post with
  | nil => exact Spec.pure ⟨h, SameData.refl m⟩
  | cons n post =>
    have hn : Rep m ((pre ++ [c]) ++ n :: post) := by simpa using h
    rw [absorb_cons, unabsorbed_cons] at hM ⊢
    apply Spec.when
    · rintro ⟨_, hfree⟩
      rw [hn.free_eq] at hfree
      rw [if_pos hfree, if_pos hfree] at hM ⊢
      refine fuse_spec h ?_ (fun s => hW _ s rfl) (fun s => hW _ s rfl) hM
      simp only [total_append, total_cons] at htot
      omega
    · intro hused
      have hnf : ¬ n.free = true := fun hfree =>
        hused ⟨h.free_eq.trans hc, hn.free_eq.trans hfree⟩
      rw [if_neg hnf, if_neg hnf]
      exact ⟨h, SameData.refl m⟩

theorem mergePrev_spec (hc : c.free = true) (htot : total (pre ++ c :: post) < 2 ^ 64)
    (hM : ∀ l s, s.heapBase = m.heapBase → s.mem = m.mem →
      Chain s s.first (joinPrev pre c post) → B l s) :
    (mergePrev c.id).Spec m B fun _ s =>
      Rep s (joinPrev pre c post) ∧ SameData m s := by
  unfold mergePrev
  apply Spec.read_bind
  rw [h.prev_eq]
  rcases pre.eq_nil_or_concat with rfl | ⟨pre', q, rfl⟩
  · exact Spec.pure ⟨h, SameData.refl m⟩
  · rw [List.concat_eq_append] at h hM htot ⊢
    have hq : Rep m (pre' ++ q :: c :: post) := by simpa using h
    have hend : endOf (none : Option ℕ) (ids (pre' ++ [q])) = some q.id := by simp
    rw [hend]
    apply Spec.when
    · rintro ⟨_, hfree⟩
      rw [hq.free_eq] at hfree
      rw [joinPrev_free hfree] at hM ⊢
      refine fuse_spec hq ?_ (fun s => hW _ s rfl) (fun s => hW _ s rfl) hM
      simp only [total_append, total_cons, total_nil] at htot
      omega
    · intro hused
      have hqf : q.free = false := by
        rw [← Bool.not_eq_true]
        exact fun hfree => hused ⟨h.free_eq.trans hc, hq.free_eq.trans hfree⟩
      rw [joinPrev_used hqf]
      exact ⟨hq, SameData.refl m⟩

/-- `merge` is `BlockList.release`. -/
theorem merge_spec (hc : c.free = true) (htot : total (pre ++ c :: post) < 2 ^ 64)
    (hM : ∀ l s bs', s.heapBase = m.heapBase → s.mem = m.mem →
      (bs' = pre ++ absorb c post :: unabsorbed post ∨
        bs' = release pre c post) → Chain s s.first bs' → B l s) :
    (merge c.id).Spec m B fun _ s =>
      Rep s (release pre c post) ∧ SameData m s := by
  unfold merge
  apply Spec.bind (mergeNext_spec hW h hc htot fun l s hb hm hch =>
    hM l s _ hb hm (.inl rfl) hch)
  rintro _ s ⟨hs, hdata⟩
  have htot' : total (pre ++ absorb c post :: unabsorbed post) < 2 ^ 64 := by
    have ha := absorb_total c post
    simp only [total_append, total_cons] at htot ⊢
    omega
  have hprev := mergePrev_spec hW hs (by rw [absorb_free, hc]) htot'
    fun l t hb hm hch => hM l t _ (hb.trans hdata.heapBase)
      (hm.trans hdata.mem) (.inr rfl) hch
  rw [absorb_id] at hprev
  apply hprev.mono fun _ _ hb => hb
  rintro _ t ⟨ht, htd⟩
  exact ⟨ht, hdata.trans htd⟩

end

end

/-! ## Freeing -/

section

variable {pre post : List Blk} {b : Blk}

/-- While a block is being freed, a walk sees no new used extent. -/
theorem shows_mark (pre post : List Blk) (b : Blk) :
    Shows (pre ++ b :: post) (pre ++ { b with free := true } :: post) := by
  refine ⟨?_, ?_, ?_, ?_⟩
  · simp
  · simp
  · intro e he
    have hb : ({ b with free := true } : Blk).free = true := rfl
    rw [usedAt_append, usedAt_cons_free hb, List.mem_append] at he
    rw [usedAt_append, List.mem_append]
    refine he.imp_right fun he => ?_
    cases hf : b.free with
    | true => rwa [usedAt_cons_free hf]
    | false =>
      rw [usedAt_cons_used hf]
      exact List.mem_cons_of_mem _ he
  · intro hall x hx
    rw [List.mem_append, List.mem_cons] at hx
    rcases hx with hx | rfl | hx
    · exact hall x (by simp [hx])
    · exact hall b (by simp)
    · exact hall x (by simp [hx])

theorem shows_absorb (hb : b.free = true) :
    Shows (pre ++ b :: post) (pre ++ absorb b post :: unabsorbed post) := by
  refine ⟨?_, ?_, ?_, ?_⟩
  · have := unabsorbed_length_le post
    simp only [List.length_append, List.length_cons]
    omega
  · have := absorb_total b post
    simp only [total_append, total_cons]
    omega
  · intro e he
    rwa [usedAt_append, usedAt_absorb hb, ← usedAt_append] at he
  · intro hall x hx
    rw [List.mem_append, List.mem_cons] at hx
    rcases hx with hx | rfl | hx
    · exact hall x (by simp [hx])
    · exact Nat.lt_of_lt_of_le (hall b (by simp)) (absorb_len_le b post)
    · exact hall x (by simp [unabsorbed_subset hx])

theorem shows_release (hb : b.free = true) : Shows (pre ++ b :: post) (release pre b post) := by
  refine ⟨?_, ?_, ?_, ?_⟩
  · have := release_length_le pre b post
    simp only [List.length_append, List.length_cons]
    omega
  · rw [release_total]
    simp only [total_append, total_cons]
    omega
  · intro e he
    rwa [usedAt_release hb] at he
  · intro hall x hx
    rcases mem_release hx with hx | hx | ⟨hle, _⟩
    · exact hall x (by simp [hx])
    · exact hall x (by simp [hx])
    · exact Nat.lt_of_lt_of_le (hall b (by simp)) hle

/-- Marking first and merging then still shows no more than the old list. -/
theorem Shows.of_mark {bs' : List Blk} (h : Shows (pre ++ { b with free := true } :: post) bs') :
    Shows (pre ++ b :: post) bs' := by
  have hm := shows_mark pre post b
  refine ⟨?_, h.total.trans hm.total, fun e he => hm.used e (h.used e he),
    fun hall => h.pos (hm.pos hall)⟩
  have := h.length
  simp only [List.length_append, List.length_cons] at this ⊢
  omega

end

/-- The state `s` after the block `b` of `m`, between `pre` and `post`, was
freed. -/
structure FreeDone (m : MemoryMgr) (pre : List Blk) (b : Blk) (post : List Blk)
    (s : MemoryMgr) : Prop where
  rep : Rep s (release pre { b with free := true } post)
  heapBase : s.heapBase = m.heapBase
  usedmem : s.usedmem = wsub m.usedmem b.len
  freemem : s.freemem = wadd m.freemem b.len
  mem : s.mem = m.mem
  locked : s.locked = m.locked

/-- What `free_nomutex(p)` does when it returns. -/
def FreePost (m : MemoryMgr) (bs : List Blk) (p : ℕ) (s : MemoryMgr) : Prop :=
  (p = 0 ∧ s = m) ∨
    (p ≠ 0 ∧ ∃ pre b post,
      FirstAt m.heapBase (wsub p redzoneSize) bs pre b post ∧ b.free = false ∧
      144 ≤ b.len ∧ Dressed m.mem (wsub p redzoneSize) b.len ∧
      FreeDone m pre b post s)

section

variable {m : MemoryMgr} {bs : List Blk} {B : ℕ → MemoryMgr → Prop}

theorem Rep.length_le {m : MemoryMgr} {bs : List Blk} (h : Rep m bs) : bs.length ≤ capacity := by
  have hle := h.toPool.length_le h.nodup
  have hlen : (ids bs).length = bs.length := List.length_map ..
  unfold capacity
  omega

theorem freeNomutex_spec (hW : ∀ line s, relinking line = true → B line s)
    (hV : ∀ line s, View m bs s → B line s) (h : Rep m bs)
    (htot : total bs < 2 ^ 64) (hbase : m.heapBase < 2 ^ 64) (p : ℕ) :
    (freeNomutex p).Spec m B fun _ s => FreePost m bs p s := by
  unfold freeNomutex
  by_cases hp : p = 0
  · rw [if_neg (by simpa using hp)]
    exact Spec.pure (.inl ⟨hp, rfl⟩)
  rw [if_pos hp]
  apply Spec.read_bind
  apply Spec.lift_bind
  intro _ hcheck
  obtain ⟨pre, b, post, hat, hmax, hused, hlen, hdress⟩ :=
    (checkPtr_eq_ok h.chain hbase h.length_le).mp hcheck
  apply Spec.lift_bind
  intro c hl
  rw [lookup_hit h.chain hbase h.length_le hat] at hl
  obtain rfl := Except.ok.inj hl
  obtain rfl := hat.split
  dsimp only
  rw [h.length_eq]
  apply Spec.unless_bind
  intro _
  have hview : ∀ u f, View m (pre ++ b :: post)
      { m with usedmem := u, freemem := f } := fun u f =>
    View.of_chain rfl rfl (h.chain.congr fun _ _ => ⟨rfl, rfl, rfl⟩)
  apply Spec.stmt_bind (hV _ _ (hview _ m.freemem))
  apply Spec.stmt_bind (hV _ _ (hview _ _))
  have hacct : Rep { m with
      usedmem := wsub m.usedmem b.len
      freemem := wadd m.freemem b.len } (pre ++ b :: post) :=
    h.congr rfl rfl rfl rfl rfl rfl
  have hmark := hacct.setFree true
  apply Spec.stmt_bind
  · exact hV _ _ ⟨rfl, rfl, _, hmark.chain, shows_mark pre post b⟩
  have htot' : total (pre ++ { b with free := true } :: post) < 2 ^ 64 := by
    simpa using htot
  apply (merge_spec hW hmark rfl htot' ?_).mono fun _ _ hb => hb
  · rintro _ s ⟨hs, hd⟩
    exact .inr ⟨hp, pre, b, post, hat, hused, hlen, hdress, hs, hd.heapBase,
      hd.usedmem, hd.freemem, hd.mem, hd.locked⟩
  · rintro l s bs' hb hm hbs' hch
    refine hV _ _ ⟨hb, hm, bs', hch, Shows.of_mark ?_⟩
    rcases hbs' with rfl | rfl
    · exact shows_absorb rfl
    · exact shows_release rfl

theorem FreePost.view {p : ℕ} {s : MemoryMgr} (h : Rep m bs)
    (hpost : FreePost m bs p s) : View m bs s := by
  rcases hpost with ⟨_, rfl⟩ | ⟨_, pre, b, post, hat, _, _, _, hd⟩
  · exact View.of_chain rfl rfl h.chain
  · obtain rfl := hat.split
    exact ⟨hd.heapBase, hd.mem, _, hd.rep.chain, Shows.of_mark (shows_release rfl)⟩

theorem FreePost.relock {p : ℕ} {s : MemoryMgr}
    (h : FreePost { m with locked := true } bs p s) (hm : m.locked = false) :
    FreePost m bs p { s with locked := false } := by
  rcases h with ⟨hp, rfl⟩ | ⟨hp, pre, b, post, hat, hused, hlen, hdr, hd⟩
  · refine .inl ⟨hp, ?_⟩
    rw [← hm]
  · exact .inr ⟨hp, pre, b, post, hat, hused, hlen, hdr,
      hd.rep.congr rfl rfl rfl rfl rfl rfl, hd.heapBase, hd.usedmem, hd.freemem,
      hd.mem, hm.symm⟩

/-- **`free`**: outside the relinking lines every boundary shows at most the
used extents from before. -/
theorem free_spec (hW : ∀ line s, relinking line = true → B line s)
    (hV : ∀ line s, View m bs s → B line s) (h : Rep m bs)
    (htot : total bs < 2 ^ 64) (hbase : m.heapBase < 2 ^ 64) (p : ℕ) :
    (free p).Spec m B fun _ s => FreePost m bs p s := by
  have hrep : Rep { m with locked := true } bs := h.congr rfl rfl rfl rfl rfl rfl
  have hV' : ∀ line s, View { m with locked := true } bs s → B line s := hV
  unfold free
  apply (locking_spec (Q := fun _ => FreePost { m with locked := true } bs p)
    (hV _ _ (View.of_chain rfl rfl hrep.chain)) ?_ ?_).mono fun _ _ hb => hb
  · rintro _ s ⟨hm, s', hs', rfl⟩
    exact hs'.relock hm
  · intro _
    exact freeNomutex_spec hW hV' hrep htot hbase p
  · intro _ s hs
    have hrep' : Rep { m with locked := false } bs := h.congr rfl rfl rfl rfl rfl rfl
    have hview : View { m with locked := false } bs { s with locked := false } :=
      FreePost.view hrep' (FreePost.relock hs rfl)
    exact hV _ _ hview

end

end NeptunOS.Heap
