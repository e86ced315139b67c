import NeptunOS.Heap.MemoryMgr
import NeptunOS.Lib.BlockList
import NeptunOS.Lib.Linked

/-!
# Representation of a block list by the link pool

`ListRep m bs`: the links reachable from `first` are the blocks `bs`, in order,
doubly linked. `Pool m ids`: the bits of `bm` mark exactly the slots `ids`.
`Rep` is both. The relinking code is covered by three edits of `ListRep`
(`insertAfter`, `insertBefore`, `unlink`), the walks by `walk_hit` and
`walk_miss`, which only need the forward chain (`Chain`).
-/

namespace NeptunOS.Heap

open Stepwise Stepwise.Prog Linked BlockList Function

/-- A block of the heap, identified by its slot in the pool. -/
abbrev Blk := BlockList.Block ℕ

/-- Slots of a block list. -/
def ids (bs : List Blk) : List ℕ := bs.map BlockList.Block.id

@[simp] theorem ids_nil : ids [] = [] := rfl

@[simp] theorem ids_cons (b : Blk) (bs : List Blk) : ids (b :: bs) = b.id :: ids bs := rfl

@[simp] theorem ids_append (xs ys : List Blk) : ids (xs ++ ys) = ids xs ++ ids ys := List.map_append

variable {bs pre post : List Blk} {m m' : MemoryMgr} {c : Blk}

theorem mem_ids_of_mem {b : Blk} (h : b ∈ bs) : b.id ∈ ids bs :=
  List.mem_map_of_mem h

/-- Forward pointers: `first` stands before the list. -/
def fwd (m : MemoryMgr) : Option ℕ → Option ℕ
  | none => m.first
  | some s => m.next s

@[simp] theorem fwd_none (m : MemoryMgr) : fwd m none = m.first := rfl

@[simp] theorem fwd_some (m : MemoryMgr) (s : ℕ) : fwd m (some s) = m.next s := rfl

/-- The doubly linked list of the pool is `bs`. -/
structure ListRep (m : MemoryMgr) (bs : List Blk) : Prop where
  listed : Listed (fwd m) m.prev none (ids bs)
  nodup : (ids bs).Nodup
  data : ∀ b ∈ bs, m.length b.id = b.len ∧ m.free b.id = b.free

/-- The bitmap marks exactly the slots `is`. -/
structure Pool (m : MemoryMgr) (is : List ℕ) : Prop where
  sz : m.bm.sz = 64
  bits : ∀ s, s ∈ is ↔ s < 64 ∧ m.bm.bit s = true

/-- The state represents the block list `bs`. -/
structure Rep (m : MemoryMgr) (bs : List Blk) : Prop extends
  ListRep m bs, Pool m (ids bs)

/-- What the links-only parts of an operation leave alone. -/
structure SameData (m m' : MemoryMgr) : Prop where
  heapBase : m'.heapBase = m.heapBase
  usedmem : m'.usedmem = m.usedmem
  freemem : m'.freemem = m.freemem
  mem : m'.mem = m.mem
  locked : m'.locked = m.locked

theorem SameData.refl (m : MemoryMgr) : SameData m m := ⟨rfl, rfl, rfl, rfl, rfl⟩

theorem SameData.trans {m'' : MemoryMgr} (h : SameData m m') (h' : SameData m' m'') :
    SameData m m'' :=
  ⟨h'.1.trans h.1, h'.2.trans h.2, h'.3.trans h.3, h'.4.trans h.4, h'.5.trans h.5⟩

/-! ## Reading the list -/

section Reading

variable {m : MemoryMgr} {pre post : List Blk} {c n : Blk}

theorem nodup_some {is : List ℕ} (h : is.Nodup) : ((none : Option ℕ) :: is.map some).Nodup := by
  rw [List.nodup_cons]
  exact ⟨by simp, h.map (Option.some_injective _)⟩

theorem ListRep.next_eq (h : ListRep m (pre ++ c :: post)) : m.next c.id = (ids post).head? := by
  have hl := h.listed
  rw [ids_append, ids_cons] at hl
  exact hl.fwd_node

theorem ListRep.prev_eq (h : ListRep m (pre ++ c :: post)) :
    m.prev c.id = endOf none (ids pre) := by
  have hl := h.listed
  rw [ids_append, ids_cons] at hl
  exact hl.bwd_node

theorem ListRep.first_eq {bs : List Blk} (h : ListRep m bs) : m.first = (ids bs).head? := by
  have := Listed.fwd_end (show Listed (fwd m) m.prev none ([] ++ ids bs) from
    h.listed)
  simpa using this

section

variable (h : ListRep m (pre ++ c :: post))

include h

theorem ListRep.length_eq : m.length c.id = c.len := (h.data c (by simp)).1

theorem ListRep.free_eq : m.free c.id = c.free := (h.data c (by simp)).2

/-- Slots of other blocks differ. -/
theorem ListRep.ne_of_mem {b : Blk} (hb : b ∈ pre ∨ b ∈ post) : b.id ≠ c.id := by
  have hnd := h.nodup
  rw [ids_append, ids_cons, List.nodup_middle, List.nodup_cons] at hnd
  intro heq
  apply hnd.1
  rw [← heq, List.mem_append]
  exact hb.imp mem_ids_of_mem mem_ids_of_mem

/-- The first block is the one with nothing before it. -/
theorem ListRep.first_iff : m.first = some c.id ↔ m.prev c.id = none := by
  have hfirst := h.first_eq
  have hprev := h.prev_eq
  cases pre with
  | nil => exact iff_of_true (by simpa using hfirst) (by simpa using hprev)
  | cons b pre =>
    refine iff_of_false (fun hf => ?_) (fun hp => ?_)
    · rw [hfirst] at hf
      exact absurd (by simpa using hf) (h.ne_of_mem (.inl List.mem_cons_self))
    · have hmem := endOf_mem (some b.id) (ids pre)
      rw [ids_cons, endOf_cons, hp] at hprev
      rw [← hprev] at hmem
      simp at hmem

end

end Reading

/-! ## Edits of the list -/

section Edits

variable {m m' : MemoryMgr} {pre post : List Blk} {c n : Blk}

section

variable (h : ListRep m (pre ++ c :: post))

include h

/-- Change the data of one block. -/
theorem ListRep.modify {len : ℕ} {fr : Bool}
    (hfirst : m'.first = m.first) (hnext : m'.next = m.next)
    (hprev : m'.prev = m.prev) (hlen : m'.length = update m.length c.id len)
    (hfree : m'.free = update m.free c.id fr) :
    ListRep m' (pre ++ ⟨c.id, len, fr⟩ :: post) := by
  have hids : ids (pre ++ ⟨c.id, len, fr⟩ :: post) = ids (pre ++ c :: post) := by
    simp
  have hfwd : fwd m' = fwd m := by
    funext p
    cases p with
    | none => exact hfirst
    | some s => exact congrFun hnext s
  refine ⟨?_, ?_, fun b hb => ?_⟩
  · rw [hids, hfwd, hprev]
    exact h.listed
  · rw [hids]
    exact h.nodup
  · rw [hlen, hfree]
    rw [List.mem_append, List.mem_cons, or_left_comm] at hb
    rcases hb with rfl | hb
    · exact ⟨update_self .., update_self ..⟩
    · have hne := h.ne_of_mem hb
      rw [update_of_ne hne, update_of_ne hne]
      exact h.data b (by
        rw [List.mem_append, List.mem_cons]
        tauto)

theorem ListRep.setFree (fr : Bool) : ListRep { m with free := update m.free c.id fr }
      (pre ++ { c with free := fr } :: post) := by
  apply h.modify <;> try rfl
  rw [← h.length_eq, update_eq_self]

theorem ListRep.setLength (len : ℕ) : ListRep { m with length := update m.length c.id len }
      (pre ++ { c with len := len } :: post) := by
  apply h.modify <;> try rfl
  rw [← h.free_eq, update_eq_self]

/-- An edit of `c` and of the fresh slot `k` leaves the other blocks as they are. -/
theorem ListRep.data_kept {k : ℕ} (hk : k ∉ ids (pre ++ c :: post))
    (hlen : ∀ x, x ≠ c.id → x ≠ k → m'.length x = m.length x)
    (hfree : ∀ x, x ≠ k → m'.free x = m.free x) {b : Blk} (hb : b ∈ pre ∨ b ∈ post) :
    m'.length b.id = b.len ∧ m'.free b.id = b.free := by
  have hin : b ∈ pre ++ c :: post := List.mem_append.mpr (hb.imp_right (List.mem_cons_of_mem c))
  have hbk : b.id ≠ k := fun heq => hk (heq ▸ mem_ids_of_mem hin)
  rw [hlen _ (h.ne_of_mem hb) hbk, hfree _ hbk]
  exact h.data b hin

/-- Link the fresh slot `k` in behind the block `c`. -/
theorem ListRep.insertAfter {k size rem : ℕ} (hk : k ∉ ids (pre ++ c :: post))
    (hfirst : m'.first = m.first)
    (hnext : m'.next = update (update m.next k (m.next c.id)) c.id (some k))
    (hprev : ∀ x, m'.prev x = if x = k then some c.id
      else if m.next c.id = some x then some k else m.prev x)
    (hlen : m'.length = update (update m.length c.id size) k rem)
    (hfree : m'.free = update m.free k true) :
    ListRep m' (pre ++ { c with len := size } :: ⟨k, rem, true⟩ :: post) := by
  have hkc : c.id ≠ k := by
    rintro rfl
    exact hk (by simp)
  have hids : ids (pre ++ { c with len := size } :: ⟨k, rem, true⟩ :: post) =
      ids (pre ++ [c]) ++ k :: ids post := by simp
  have hold : ids (pre ++ c :: post) = ids (pre ++ [c]) ++ ids post := by simp
  have hend : endOf (none : Option ℕ) (ids (pre ++ [c])) = some c.id := by simp
  refine ⟨?_, ?_, fun b hb => ?_⟩
  · rw [hids]
    apply Listed.insert (hold ▸ h.listed) (hold ▸ nodup_some h.nodup)
    · simpa using hk
    · rw [hend, fwd_some, hnext, update_self]
    · rw [fwd_some, hnext, update_of_ne hkc.symm, update_self, h.next_eq]
    · rw [hend, hprev, if_pos rfl]
    · intro y hy
      have hyk : y ≠ k := by
        rintro rfl
        exact hk (by
          rw [hold]
          exact List.mem_append_right _ (List.mem_of_mem_head? hy))
      rw [hprev, if_neg hyk, if_pos (h.next_eq.trans hy)]
    · intro p hp hpk
      cases p with
      | none => exact hfirst
      | some s =>
        rw [fwd_some, fwd_some, hnext, update_of_ne (by simpa using hp),
          update_of_ne (by simpa using hpk)]
    · intro x hxk hx
      rw [hprev, if_neg hxk, h.next_eq, if_neg hx]
  · have hnd := h.nodup
    rw [hids, List.nodup_middle, List.nodup_cons, ← hold]
    exact ⟨hk, hold ▸ h.nodup⟩
  · have hkept : ∀ b, b ∈ pre ∨ b ∈ post → m'.length b.id = b.len ∧ m'.free b.id = b.free :=
      fun b => h.data_kept hk (fun x hc hk => by rw [hlen, update_of_ne hk, update_of_ne hc])
        (fun x hk => by rw [hfree, update_of_ne hk])
    rw [List.mem_append, List.mem_cons, List.mem_cons] at hb
    rcases hb with hb | rfl | rfl | hb
    · exact hkept b (.inl hb)
    · simp only [hlen, hfree, update_of_ne hkc, update_self, true_and]
      exact h.free_eq
    · simp [hlen, hfree]
    · exact hkept b (.inr hb)

/-- Link the fresh slot `k` in before the block `c`. -/
theorem ListRep.insertBefore {k fix len : ℕ} (hk : k ∉ ids (pre ++ c :: post))
    (hfirst : m'.first = if m.first = some c.id then some k else m.first)
    (hnext : ∀ x, m'.next x = if x = k then some c.id
      else if m.prev c.id = some x then some k else m.next x)
    (hprev : ∀ x, m'.prev x = if x = c.id then some k
      else if x = k then m.prev c.id else m.prev x)
    (hlen : m'.length = update (update m.length k fix) c.id len)
    (hfree : m'.free = update m.free k true) :
    ListRep m' (pre ++ ⟨k, fix, true⟩ :: { c with len := len } :: post) := by
  have hkc : c.id ≠ k := by
    rintro rfl
    exact hk (by simp)
  have hids : ids (pre ++ ⟨k, fix, true⟩ :: { c with len := len } :: post) =
      ids pre ++ k :: ids (c :: post) := by simp
  refine ⟨?_, ?_, fun b hb => ?_⟩
  · rw [hids]
    apply Listed.insert (ids_append pre (c :: post) ▸ h.listed)
      (ids_append pre (c :: post) ▸ nodup_some h.nodup)
    · simpa using hk
    · -- the seam is `first` or the link before `c`
      rw [← h.prev_eq]
      cases hq : m.prev c.id with
      | none => rw [fwd_none, hfirst, if_pos (h.first_iff.mpr hq)]
      | some q =>
        have hqk : q ≠ k := by
          rintro rfl
          have hmem := endOf_mem none (ids pre)
          rw [← h.prev_eq, hq] at hmem
          exact hk (by
            rw [ids_append]
            exact List.mem_append_left _ (by simpa using hmem))
        rw [fwd_some, hnext, if_neg hqk, if_pos hq]
    · rw [fwd_some, hnext, if_pos rfl]
      rfl
    · rw [hprev, if_neg hkc.symm, if_pos rfl, h.prev_eq]
    · rintro y hy
      obtain rfl : c.id = y := by simpa using hy
      rw [hprev, if_pos rfl]
    · intro p hp hpk
      rw [← h.prev_eq] at hp
      cases p with
      | none =>
        rw [fwd_none, fwd_none, hfirst, if_neg fun hf => hp (h.first_iff.mp hf).symm]
      | some x =>
        rw [fwd_some, fwd_some, hnext, if_neg (by simpa using hpk), if_neg (Ne.symm hp)]
    · intro x hxk hx
      have hxc : x ≠ c.id := by
        rintro rfl
        exact hx rfl
      rw [hprev, if_neg hxc, if_neg hxk]
  · rw [hids, List.nodup_middle, List.nodup_cons, ← ids_append]
    exact ⟨hk, h.nodup⟩
  · have hkept : ∀ b, b ∈ pre ∨ b ∈ post → m'.length b.id = b.len ∧ m'.free b.id = b.free :=
      fun b => h.data_kept hk (fun x hc hk => by rw [hlen, update_of_ne hc, update_of_ne hk])
        (fun x hk => by rw [hfree, update_of_ne hk])
    rw [List.mem_append, List.mem_cons, List.mem_cons] at hb
    rcases hb with hb | rfl | rfl | hb
    · exact hkept b (.inl hb)
    · rw [hlen, hfree, update_of_ne hkc.symm, update_self, update_self]
      exact ⟨rfl, rfl⟩
    · rw [hlen, hfree, update_self, update_of_ne hkc]
      exact ⟨rfl, h.free_eq⟩
    · exact hkept b (.inr hb)

end

/-- Unlink the block `n` behind `c`; the fields of its slot do not matter
afterwards. -/
theorem ListRep.unlink {len : ℕ} (h : ListRep m (pre ++ c :: n :: post))
    (hfirst : m'.first = m.first)
    (hnext : ∀ x, x ≠ n.id →
      m'.next x = if x = c.id then m.next n.id else m.next x)
    (hprev : ∀ x, x ≠ n.id →
      m'.prev x = if m.next n.id = some x then some c.id else m.prev x)
    (hlen : ∀ x, x ≠ n.id →
      m'.length x = if x = c.id then len else m.length x)
    (hfree : ∀ x, x ≠ n.id → m'.free x = m.free x) :
    ListRep m' (pre ++ { c with len := len } :: post) := by
  have hn : ListRep m ((pre ++ [c]) ++ n :: post) := by simpa using h
  have hcn : c.id ≠ n.id := hn.ne_of_mem (.inl (by simp))
  have hids : ids (pre ++ { c with len := len } :: post) = ids (pre ++ [c]) ++ ids post := by simp
  have hold : ids ((pre ++ [c]) ++ n :: post) = ids (pre ++ [c]) ++ n.id :: ids post := by simp
  have hend : endOf (none : Option ℕ) (ids (pre ++ [c])) = some c.id := by simp
  have hpost : ∀ y ∈ ids post, y ≠ n.id := by
    rintro y hy rfl
    have hnd := hn.nodup
    rw [hold, List.nodup_middle, List.nodup_cons] at hnd
    exact hnd.1 (List.mem_append_right _ hy)
  refine ⟨?_, ?_, fun b hb => ?_⟩
  · rw [hids]
    apply Listed.remove (hold ▸ hn.listed) (hold ▸ nodup_some hn.nodup)
    · rw [hend, fwd_some, hnext _ hcn, if_pos rfl, hn.next_eq]
    · intro y hy
      have hy' := hpost y (List.mem_of_mem_head? hy)
      rw [hend, hprev y hy', if_pos (hn.next_eq.trans hy)]
    · intro p hp hpn
      cases p with
      | none => exact hfirst
      | some x =>
        rw [fwd_some, fwd_some, hnext x (by simpa using hpn), if_neg (by simpa using hp)]
    · intro x hxn hx
      rw [hprev x hxn, hn.next_eq, if_neg hx]
  · rw [hids]
    have hnd := hn.nodup
    rw [hold, List.nodup_middle, List.nodup_cons] at hnd
    exact hnd.2
  · rw [List.mem_append, List.mem_cons] at hb
    rcases hb with hb | rfl | hb
    · have h1 := hn.ne_of_mem (.inl (List.mem_append_left [c] hb))
      have h2 := h.ne_of_mem (.inl hb)
      rw [hlen _ h1, hfree _ h1, if_neg h2]
      exact h.data b (by simp [hb])
    · rw [hlen _ hcn, hfree _ hcn, if_pos rfl]
      exact ⟨rfl, h.free_eq⟩
    · have h1 := hn.ne_of_mem (.inr hb)
      have h2 := h.ne_of_mem (.inr (List.mem_cons_of_mem _ hb))
      rw [hlen _ h1, hfree _ h1, if_neg h2]
      exact h.data b (by simp [hb])

end Edits

theorem Rep.setFree (h : Rep m (pre ++ c :: post)) (fr : Bool) :
    Rep { m with free := update m.free c.id fr }
      (pre ++ { c with free := fr } :: post) :=
  ⟨h.toListRep.setFree fr, h.sz, by simpa using h.bits⟩

theorem Rep.setLength (h : Rep m (pre ++ c :: post)) (len : ℕ) :
    Rep { m with length := update m.length c.id len }
      (pre ++ { c with len := len } :: post) :=
  ⟨h.toListRep.setLength len, h.sz, by simpa using h.bits⟩

/-- Accounting, memory and the lock are not part of the representation. -/
theorem Rep.congr (h : Rep m bs) (hfirst : m'.first = m.first) (hnext : m'.next = m.next)
    (hprev : m'.prev = m.prev) (hlen : m'.length = m.length) (hfree : m'.free = m.free)
    (hbm : m'.bm = m.bm) : Rep m' bs := by
  have hfwd : fwd m' = fwd m := by
    funext p
    cases p with
    | none => exact hfirst
    | some s => exact congrFun hnext s
  refine ⟨⟨?_, h.nodup, ?_⟩, hbm ▸ h.sz, hbm ▸ h.bits⟩
  · rw [hfwd, hprev]
    exact h.listed
  · rw [hlen, hfree]
    exact h.data

/-! ## The forward chain -/

/-- What a walk from the pointer `p` sees: only `next`, `length` and `free` of
the links it visits. -/
def Chain (m : MemoryMgr) : Option ℕ → List Blk → Prop
  | p, [] => p = none
  | p, b :: bs =>
    p = some b.id ∧ m.length b.id = b.len ∧ m.free b.id = b.free ∧
      Chain m (m.next b.id) bs

theorem ListRep.chain_from {m : MemoryMgr} : ∀ (suf pre : List Blk),
    ListRep m (pre ++ suf) → Chain m (fwd m (endOf none (ids pre))) suf
  | [], pre, h => by
    have hl : Listed (fwd m) m.prev none (ids pre ++ []) := by
      simpa using h.listed
    simpa [Chain] using hl.fwd_end
  | b :: suf, pre, h => by
    have hl : Listed (fwd m) m.prev none (ids pre ++ b.id :: ids suf) := by
      simpa using h.listed
    have ih := ListRep.chain_from suf (pre ++ [b]) (by simpa using h)
    refine ⟨by simpa using hl.fwd_end, h.length_eq, h.free_eq, ?_⟩
    simpa using ih

theorem ListRep.chain (h : ListRep m bs) : Chain m m.first bs := ListRep.chain_from bs [] h

/-- A chain survives any change outside its slots. -/
theorem Chain.congr {m m' : MemoryMgr} : ∀ {p : Option ℕ} {bs : List Blk}, Chain m p bs →
    (∀ s ∈ ids bs, m'.next s = m.next s ∧ m'.length s = m.length s ∧
      m'.free s = m.free s) → Chain m' p bs
  | _, [], h, _ => h
  | _, b :: bs, ⟨hp, hl, hf, hc⟩, hs => by
    obtain ⟨h1, h2, h3⟩ := hs b.id (by simp)
    refine ⟨hp, h2.trans hl, h3.trans hf, ?_⟩
    rw [h1]
    exact hc.congr fun s hm => hs s (by simp [hm])

/-- `stop` lets the walk pass the blocks `bs`, the first being at `addr`. -/
def Passes (stop : ℕ → ℕ → Except Halt Bool) : ℕ → List Blk → Prop
  | _, [] => True
  | addr, b :: bs =>
    stop b.id addr = .ok false ∧ Passes stop (wadd addr b.len) bs

section Walks

variable {m : MemoryMgr} {stop : ℕ → ℕ → Except Halt Bool}
variable {fuel addr : ℕ} {j p : Option ℕ}

theorem walk_cons {i : ℕ} : walk m stop (fuel + 1) (some i) j addr =
      match stop i addr with
      | .error e => .error e
      | .ok true => .ok ⟨some i, j, addr⟩
      | .ok false =>
        walk m stop fuel (m.next i) (some i) (wadd addr (m.length i)) := by
  rw [walk]
  rcases stop i addr with e | _ | _ <;> rfl

/-- A walk reads `next` and `length` only. -/
theorem walk_congr {m' : MemoryMgr} (hnext : m'.next = m.next) (hlen : m'.length = m.length) :
    ∀ (fuel : ℕ) (p j : Option ℕ) (addr : ℕ),
      walk m' stop fuel p j addr = walk m stop fuel p j addr
  | _, none, _, _ => by rw [walk, walk]
  | 0, some _, _, _ => rfl
  | fuel + 1, some i, j, addr => by
    rw [walk_cons, walk_cons, hnext, hlen]
    rcases stop i addr with e | _ | _
    · rfl
    · exact walk_congr hnext hlen fuel _ _ _
    · rfl

/-- A walk passes a prefix. -/
theorem walk_pass : ∀ {fuel : ℕ} {p j : Option ℕ} {addr : ℕ}
    {pre suf : List Blk}, Chain m p (pre ++ suf) → Passes stop addr pre →
    addr < 2 ^ 64 → ∃ p', Chain m p' suf ∧
      walk m stop (pre.length + fuel) p j addr =
        walk m stop fuel p' (endOf j (ids pre)) (wadd addr (total pre))
  | fuel, p, j, addr, [], suf, hc, _, ha => by
    refine ⟨p, hc, ?_⟩
    have h0 : wadd addr 0 = addr := wadd_of_lt ha
    simp [h0]
  | fuel, p, j, addr, b :: pre, suf, ⟨hp, hl, _, hc⟩, ⟨hs, hps⟩, _ => by
    obtain ⟨p', hc', hw⟩ :=
      @walk_pass fuel (m.next b.id) (some b.id) (wadd addr b.len) pre suf hc
        hps (wadd_lt _ _)
    refine ⟨p', hc', ?_⟩
    have hfuel : (b :: pre).length + fuel = (pre.length + fuel) + 1 := by
      rw [List.length_cons]
      omega
    rw [hfuel, hp, walk_cons, hs, hl]
    simpa [wadd_assoc] using hw

/-- A walk stops at the first block its test accepts. -/
theorem walk_hit {pre post : List Blk} {b : Blk} (hc : Chain m p (pre ++ b :: post))
    (hp : Passes stop addr pre) (ha : addr < 2 ^ 64)
    (hb : stop b.id (wadd addr (total pre)) = .ok true) (hfuel : pre.length < fuel) :
    walk m stop fuel p j addr =
      .ok ⟨some b.id, endOf j (ids pre), wadd addr (total pre)⟩ := by
  obtain ⟨f, rfl⟩ := Nat.exists_eq_add_of_lt hfuel
  obtain ⟨p', hc', hw⟩ := @walk_pass m stop (f + 1) p j addr pre (b :: post) hc hp ha
  rw [Nat.add_assoc, hw, hc'.1, walk_cons, hb]

/-- A walk that accepts no block reaches the end. -/
theorem walk_miss {bs : List Blk} (hc : Chain m p bs) (hp : Passes stop addr bs)
    (ha : addr < 2 ^ 64) (hfuel : bs.length ≤ fuel) :
    walk m stop fuel p j addr =
      .ok ⟨none, endOf j (ids bs), wadd addr (total bs)⟩ := by
  obtain ⟨f, rfl⟩ := Nat.exists_eq_add_of_le hfuel
  have hc' : Chain m p (bs ++ []) := by simpa using hc
  obtain ⟨p', hn, hw⟩ := @walk_pass m stop f p j addr bs [] hc' hp ha
  obtain rfl : p' = none := hn
  rw [hw]
  cases f <;> rfl

/-- A walk that returns stopped at the first accepted block or at the end. -/
theorem walk_inv : ∀ {fuel : ℕ} {p j : Option ℕ} {addr : ℕ} {bs : List Blk}
    {c : Cursor}, Chain m p bs → addr < 2 ^ 64 →
    walk m stop fuel p j addr = .ok c →
    (∃ pre b post, bs = pre ++ b :: post ∧ Passes stop addr pre ∧
      stop b.id (wadd addr (total pre)) = .ok true ∧
      c = ⟨some b.id, endOf j (ids pre), wadd addr (total pre)⟩) ∨
    (Passes stop addr bs ∧
      c = ⟨none, endOf j (ids bs), wadd addr (total bs)⟩)
  | fuel, p, j, addr, [], c, hc, ha, h => by
    obtain rfl : p = none := hc
    have h0 : wadd addr 0 = addr := wadd_of_lt ha
    rw [walk] at h
    exact .inr ⟨trivial, by simpa [h0] using (Except.ok.inj h).symm⟩
  | 0, p, j, addr, b :: bs, c, ⟨hp, _⟩, _, h => by
    rw [hp, walk] at h
    cases h
  | fuel + 1, p, j, addr, b :: bs, c, ⟨hp, hl, _, hc⟩, ha, h => by
    have h0 : wadd addr 0 = addr := wadd_of_lt ha
    rw [hp, walk_cons] at h
    cases hs : stop b.id addr with
    | error e => rw [hs] at h; cases h
    | ok v =>
      rw [hs] at h
      cases v with
      | true =>
        refine .inl ⟨[], b, bs, rfl, trivial, ?_, ?_⟩
        · simpa [h0] using hs
        · simpa [h0] using (Except.ok.inj h).symm
      | false =>
        rw [hl] at h
        rcases walk_inv hc (wadd_lt _ _) h with
          ⟨pre, b', post, rfl, hps, hb', rfl⟩ | ⟨hps, rfl⟩
        · refine .inl ⟨b :: pre, b', post, rfl, ⟨hs, hps⟩, ?_, ?_⟩
          · simpa [wadd_assoc] using hb'
          · simp [wadd_assoc]
        · refine .inr ⟨⟨hs, hps⟩, ?_⟩
          simp [wadd_assoc]

end Walks

/-! ## Pool slots -/

section Slots

variable {m : MemoryMgr} {is : List ℕ} {B : ℕ → MemoryMgr → Prop}
  {line : ℕ}
variable {α : Type} {p v : Option ℕ} {k : Unit → Op α} {Q : α → MemoryMgr → Prop}

/-- Go on past an assertion. -/
theorem assert_bind {c : Prop} [Decidable c] {text : String} (h : c → (k ()).Spec m B Q) :
    Spec (assert c text >>= k) m B Q :=
  Spec.unless_bind fun hc => h (Decidable.not_not.mp hc)

theorem Pool.congr {m' : MemoryMgr} (h : Pool m is) (hbm : m'.bm = m.bm) :
    Pool m' is := ⟨hbm ▸ h.sz, hbm ▸ h.bits⟩

theorem Pool.length_le (h : Pool m is) (hnd : is.Nodup) : is.length ≤ 64 := by
  have hsub : is ⊆ List.range 64 := fun s hs =>
    List.mem_range.mpr ((h.bits s).mp hs).1
  simpa using List.Nodup.length_le_of_subset hnd hsub

/-- `create_link` returns a slot that was not in use. -/
theorem createLink_spec (h : Pool m is) (hB : ∀ bm, B line { m with bm := bm }) :
    (createLink line).Spec m B fun k s =>
      k ∉ is ∧ Pool s (k :: is) ∧ ∃ bm, s = { m with bm := bm } := by
  unfold createLink
  apply Spec.read_bind
  apply Spec.lift_bind
  rintro ⟨idx, bm⟩ hr
  obtain ⟨_, hf⟩ := Bitmap.findAndSetMultiple_zero hr
  cases idx with
  | none => exact Spec.fail _
  | some k =>
    obtain ⟨_, hk, hclear, _, hsz, hbits⟩ := hf
    have hk64 : k < 64 := by
      rw [h.sz] at hk
      omega
    refine Spec.stmt_bind (hB bm) (Spec.pure ⟨?_, ?_, bm, rfl⟩)
    · intro hmem
      have hset := ((h.bits k).mp hmem).2
      rw [hclear k (Nat.le_refl k) (by omega)] at hset
      cases hset
    · refine ⟨hsz.trans h.sz, fun x => ?_⟩
      show x ∈ k :: is ↔ x < 64 ∧ bm.bit x = true
      rw [hbits x, List.mem_cons, h.bits x, Bool.or_eq_true, decide_eq_true_eq]
      constructor
      · rintro (rfl | ⟨hx, hb⟩)
        · exact ⟨hk64, .inl (by omega)⟩
        · exact ⟨hx, .inr hb⟩
      · rintro ⟨hx, hb | hb⟩
        · exact .inl (by omega)
        · exact .inr ⟨hx, hb⟩

/-- `delete_link` on a link that has a predecessor gives its slot back. -/
theorem deleteLink_spec {l q : ℕ} {is' : List ℕ} (h : Pool m is)
    (hq : m.prev l = some q) (his : ∀ x, x ∈ is' ↔ x ∈ is ∧ x ≠ l)
    (hB : ∀ bm nx pv, (∀ x, x ≠ l → nx x = m.next x) →
      B line { m with bm := bm, next := nx, prev := pv }) :
    (deleteLink line l).Spec m B fun _ s =>
      Pool s is' ∧ ∃ bm, s = { m with
        bm := bm, next := update m.next l none,
        prev := update m.prev l none } := by
  unfold deleteLink
  apply Spec.read_bind
  apply Spec.bind (P := fun _ s => m = s)
    (Spec.when (fun h0 => by rw [hq] at h0; cases h0) fun _ => rfl)
  rintro _ _ rfl
  apply Spec.lift_bind
  intro bm hbm
  obtain ⟨hlt, rfl⟩ := Bitmap.set_eq_ok hbm
  have hnext : ∀ x, x ≠ l → update m.next l none x = m.next x := fun x hx =>
    update_of_ne hx ..
  apply Spec.stmt_bind (hB _ _ _ fun _ _ => rfl)
  apply Spec.stmt_bind (hB _ _ _ hnext)
  refine Spec.stmt (hB _ _ _ hnext) ⟨⟨h.sz, fun x => ?_⟩, _, rfl⟩
  show x ∈ is' ↔ x < 64 ∧ (m.bm.put l false).bit x = true
  rw [his, h.bits, Bitmap.bit_put]
  by_cases hx : x = l <;> simp [hx]

/-- A locked operation: its body runs with the lock held, and leaves it
released. -/
theorem locking_spec {body : Op α} (hlock : B line { m with locked := true })
    (hbody : m.locked = false → body.Spec { m with locked := true } B Q)
    (hunlock : ∀ a s, Q a s → B line { s with locked := false }) :
    (locking line body).Spec m B fun a s =>
      m.locked = false ∧ ∃ s', Q a s' ∧ s = { s' with locked := false } := by
  unfold locking
  apply Spec.read_bind
  apply Spec.unless_bind
  intro hfree
  have hf : m.locked = false := by simpa using hfree
  apply Spec.stmt_bind hlock
  apply Spec.bind (hbody hf)
  intro a s hs
  apply Spec.stmt_bind (hunlock a s hs)
  exact Spec.pure ⟨hf, s, hs, rfl⟩

theorem setPrevOf_bind (hB : ∀ s, B line s) (h : (k ()).Spec
      { m with prev := fun x => if p = some x then v else m.prev x } B Q) :
    Spec (setPrevOf line p v >>= k) m B Q := by
  cases p with
  | none => exact h
  | some s =>
    apply Spec.stmt_bind (hB _)
    have hprev : update m.prev s v =
        fun x => if some s = some x then v else m.prev x := by
      funext x
      rw [update_apply]
      simp [eq_comm]
    rw [hprev]
    exact h

theorem setNextOf_bind (hB : ∀ s, B line s) (h : (k ()).Spec
      { m with next := fun x => if p = some x then v else m.next x } B Q) :
    Spec (setNextOf line p v >>= k) m B Q := by
  cases p with
  | none => exact h
  | some s =>
    apply Spec.stmt_bind (hB _)
    have hnext : update m.next s v =
        fun x => if some s = some x then v else m.next x := by
      funext x
      rw [update_apply]
      simp [eq_comm]
    rw [hnext]
    exact h

end Slots

/-! ## Boundaries -/

/-- Lines after which `mm.cc` is in the middle of an update: from the first
assignment that takes a length, a link or a used mark out of step with the
rest up to the one that completes the update. -/
def relinking (line : ℕ) : Bool :=
  (88 ≤ line && line ≤ 90) || (101 ≤ line && line ≤ 103) ||
    (114 ≤ line && line ≤ 175) || (228 ≤ line && line ≤ 242) ||
    (249 ≤ line && line ≤ 286) || (324 ≤ line && line ≤ 362)

/-- `bs'` covers the same bytes as `bs` and has no used extent that `bs` did
not have. -/
structure Shows (bs bs' : List Blk) : Prop where
  length : bs'.length ≤ bs.length + 1
  total : total bs' = total bs
  used : ∀ e ∈ usedAt 0 bs', e ∈ usedAt 0 bs
  pos : (∀ b ∈ bs, 0 < b.len) → ∀ b ∈ bs', 0 < b.len

theorem Shows.refl (bs : List Blk) : Shows bs bs := ⟨Nat.le_succ _, rfl, fun _ h => h, fun h => h⟩

/-- What a walk sees at the boundary state `s` of an operation that started
in `m` with the blocks `bs`. -/
def View (m : MemoryMgr) (bs : List Blk) (s : MemoryMgr) : Prop :=
  s.heapBase = m.heapBase ∧ s.mem = m.mem ∧
    ∃ bs', Chain s s.first bs' ∧ Shows bs bs'

/-- A state with the same list and memory shows the same. -/
theorem View.of_chain {s : MemoryMgr} (hbase : s.heapBase = m.heapBase) (hmem : s.mem = m.mem)
    (hc : Chain s s.first bs) : View m bs s :=
  ⟨hbase, hmem, bs, hc, Shows.refl bs⟩

end NeptunOS.Heap
