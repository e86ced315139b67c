import NeptunOS.Heap.Invariants

/-!
# Redzones, byte by byte

Redzones are described by offsets from the heap's base: `Zone o len` are the
bytes of the two redzones of a block of `len` bytes at offset `o`.

- `dress_at`, `rezone_at`: what writing redzones does to each byte.
- `Intact`: every used block has intact redzones; `Scar`: one byte of one
  redzone is damaged. Both are followed through the list edits.
- `checkAll_eq_ok`: `check_all` returns exactly when every used block passes.
-/

namespace NeptunOS.Heap

open Stepwise Linked BlockList Function

/-! ## Bytes -/

/-- Byte `k` belongs to a redzone of the block of `len` bytes at `o`. -/
def Zone (o len k : ℕ) : Prop :=
  (o ≤ k ∧ k < o + redzoneSize) ∨ (o + len - redzoneSize ≤ k ∧ k < o + len)

instance (o len k : ℕ) : Decidable (Zone o len k) :=
  inferInstanceAs (Decidable (_ ∨ _))

section

variable {mem : Mem} {base o len k : ℕ}

theorem memset_at {c : UInt8} {n : ℕ} (ho : o + n ≤ 2 ^ 64) (hk : k < 2 ^ 64) :
    memset mem (wadd base o) c n (wadd base k) =
      if o ≤ k ∧ k < o + n then c else mem (wadd base k) := by
  rw [memset_apply (wadd_lt _ _) (wadd_lt _ _) (by omega)]
  have hiff : wsub (wadd base k) (wadd base o) < n ↔ o ≤ k ∧ k < o + n := by
    unfold wsub wadd
    omega
  simp only [hiff]

theorem tail_addr (h : redzoneSize ≤ len) :
    wsub (wadd (wadd base o) len) redzoneSize = wadd base (o + len - redzoneSize) := by
  unfold redzoneSize at *
  unfold wsub wadd
  omega

theorem rezone_at (hlen : redzoneSize ≤ len) (ho : o + len ≤ 2 ^ 64) (hk : k < 2 ^ 64) :
    rezone mem (wadd base o) len (wadd base k) =
      if o + len - redzoneSize ≤ k ∧ k < o + len then redzoneMagic
      else mem (wadd base k) := by
  unfold rezone
  rw [tail_addr hlen, memset_at (by omega) hk]
  have hend : o + len - redzoneSize + redzoneSize = o + len := by omega
  rw [hend]

theorem dress_at (hlen : redzoneSize ≤ len) (ho : o + len ≤ 2 ^ 64) (hk : k < 2 ^ 64) :
    dress mem (wadd base o) len (wadd base k) =
      if Zone o len k then redzoneMagic else mem (wadd base k) := by
  have hrz : dress mem (wadd base o) len =
      rezone (memset mem (wadd base o) redzoneMagic redzoneSize) (wadd base o) len := rfl
  rw [hrz, rezone_at hlen ho hk, memset_at (by omega) hk]
  by_cases htail : o + len - redzoneSize ≤ k ∧ k < o + len
  · rw [if_pos htail, if_pos (show Zone o len k from .inr htail)]
  · rw [if_neg htail]
    by_cases hhead : o ≤ k ∧ k < o + redzoneSize
    · rw [if_pos hhead, if_pos (show Zone o len k from .inl hhead)]
    · rw [if_neg hhead, if_neg fun hz : Zone o len k => hz.elim hhead htail]

theorem dressed_iff (hlen : redzoneSize ≤ len) : Dressed mem (wadd base o) len ↔
      ∀ k, Zone o len k → mem (wadd base k) = redzoneMagic := by
  unfold Dressed Zone
  rw [tail_addr hlen, memchk_eq_false, memchk_eq_false]
  simp only [wadd_assoc]
  constructor
  · rintro ⟨hhead, htail⟩ k (⟨h1, h2⟩ | ⟨h1, h2⟩)
    · have := hhead (k - o) (by omega)
      rwa [Nat.add_sub_cancel' h1] at this
    · have := htail (k - (o + len - redzoneSize)) (by omega)
      rwa [Nat.add_sub_cancel' h1] at this
  · intro h
    constructor
    · intro i hi
      exact h _ (.inl (by omega))
    · intro i hi
      exact h _ (.inr (by omega))

theorem Zone.bounds (h : Zone o len k) (hlen : redzoneSize ≤ len) : o ≤ k ∧ k < o + len := by
  unfold Zone at h
  omega

theorem dressed_dress {mem : Mem} {base off len : ℕ} (hlen : redzoneSize ≤ len)
    (hend : off + len < 2 ^ 64) : Dressed (dress mem (wadd base off) len) (wadd base off) len := by
  refine (dressed_iff hlen).mpr fun k hk => ?_
  have hb := hk.bounds hlen
  rw [dress_at hlen (by omega) (by omega), if_pos hk]

end

/-! ## Following redzones through the list edits -/

/-- Every used block has room for two redzones and 16 bytes. -/
def Roomy (bs : List Blk) : Prop := ∀ e ∈ usedAt 0 bs, 144 ≤ e.2 ∧ 16 ∣ e.2

/-- The redzones of every used block hold the magic value. -/
def Intact (base : ℕ) (mem : Mem) (bs : List Blk) : Prop :=
  ∀ e ∈ usedAt 0 bs, ∀ k, Zone e.1 e.2 k → mem (wadd base k) = redzoneMagic

/-- The block at offset `o` is used and byte `k` of its redzones is damaged. -/
def Scar (base o k : ℕ) (mem : Mem) (bs : List Blk) : Prop :=
  ∃ len, (o, len) ∈ usedAt 0 bs ∧ Zone o len k ∧ mem (wadd base k) ≠ redzoneMagic

/-- `W` survives what heap calls do to the memory and the blocks of a heap of
`size` bytes; `inPlace p` says whether the block with pointer `p` may get a new
trailing redzone. -/
structure Watch (base size : ℕ) (inPlace : ℕ → Prop) (W : Mem → List Blk → Prop) :
    Prop where
  /-- A new block. -/
  cut : ∀ {mem bs bs' len off}, total bs = size → Roomy bs → Cut len bs off bs' →
    144 ≤ len → W mem bs → W (dress mem (wadd base off) len) bs'
  /-- The trailing redzone is rewritten. -/
  fit : ∀ {mem pre b post}, total (pre ++ b :: post) = size → Roomy (pre ++ b :: post) →
    128 ≤ b.len → inPlace (wadd base (total pre + redzoneSize)) →
    W mem (pre ++ b :: post) →
    W (rezone mem (wadd base (total pre)) b.len) (pre ++ b :: post)
  /-- A block grows into the free block behind it. -/
  grow : ∀ {mem pre b n tail post len}, total (pre ++ b :: n :: post) = size →
    Roomy (pre ++ b :: n :: post) → b.free = false → n.free = true → Spare tail →
    len + total tail = b.len + n.len → b.len < len →
    inPlace (wadd base (total pre + redzoneSize)) → W mem (pre ++ b :: n :: post) →
    W (rezone mem (wadd base (total pre)) len)
      (pre ++ { b with len := len } :: (tail ++ post))
  /-- A checked block is freed. -/
  release : ∀ {mem pre b post}, b.free = false → 144 ≤ b.len →
    Dressed mem (wadd base (total pre)) b.len → W mem (pre ++ b :: post) →
    W mem (release pre { b with free := true } post)
  /-- Stores into one payload. -/
  store : ∀ {mem mem' bs e}, total bs = size → Roomy bs → e ∈ usedAt 0 bs →
    (∀ k < size, ¬ (e.1 + redzoneSize ≤ k ∧ k + redzoneSize < e.1 + e.2) →
      mem' (wadd base k) = mem (wadd base k)) → W mem bs → W mem' bs
  /-- Redzones behind the heap, from an aligned request that found no block. -/
  miss : ∀ {mem bs len}, total bs = size → Roomy bs → 144 ≤ len →
    size + len ≤ 2 ^ 64 → W mem bs → W (dress mem (wadd base size) len) bs

section

variable {base size o k : ℕ} {mem : Mem} {bs : List Blk}
variable {off : ℕ} {e : ℕ × ℕ} {bs' : List Blk}

/-- Used extents lie inside the heap. -/
theorem usedAt_le_total (he : e ∈ usedAt 0 bs) : e.1 + e.2 ≤ total bs := by
  obtain ⟨pre, c, post, rfl, _, rfl⟩ := mem_usedAt.mp he
  simp only [total_append, total_cons]
  omega

theorem redzone_le {len : ℕ} (h : 128 ≤ len) : redzoneSize ≤ len := by
  unfold redzoneSize
  omega

theorem zone_bounds (hroomy : Roomy bs) (he : e ∈ usedAt 0 bs) (hk : Zone e.1 e.2 k) :
    e.1 ≤ k ∧ k < e.1 + e.2 ∧ k < total bs := by
  have hlen := (hroomy e he).1
  have hle := usedAt_le_total he
  have hb := hk.bounds (redzone_le (by omega))
  omega

/-- Redzones and payloads do not meet. -/
theorem zone_not_payload {f : ℕ × ℕ} (hroomy : Roomy bs) (he : e ∈ usedAt 0 bs)
    (hf : f ∈ usedAt 0 bs) (hk : Zone e.1 e.2 k) :
    ¬ (f.1 + redzoneSize ≤ k ∧ k + redzoneSize < f.1 + f.2) := by
  have hb := zone_bounds hroomy he hk
  obtain ⟨pre, c, post, rfl, _, rfl⟩ := mem_usedAt.mp hf
  rintro ⟨h1, h2⟩
  rcases usedAt_around he with ⟨_, h⟩ | ⟨_, rfl⟩ | ⟨h, _⟩
  · omega
  · unfold Zone at hk
    omega
  · omega

theorem Cut.mem_usedAt {len : ℕ} (h : Cut len bs off bs') :
    e ∈ usedAt 0 bs' ↔ e = (off, len) ∨ e ∈ usedAt 0 bs := by
  cases h with
  | @mk pre post lead tail c hc hl ht _ hlen =>
    have hperm := @usedAt_take ℕ 0 pre post lead tail c ⟨c.id, len, false⟩ hc rfl hl ht
      hlen
    rw [hperm.mem_iff, List.mem_cons, Nat.zero_add]

theorem Cut.end_le {len : ℕ} (h : Cut len bs off bs') : off + len ≤ total bs := by
  cases h with
  | mk hc hl ht _ hlen =>
    simp only [total_append, total_cons]
    omega

/-- A cut block does not meet the used blocks that were there. -/
theorem Cut.apart {len : ℕ} (h : Cut len bs off bs') (he : e ∈ usedAt 0 bs) :
    e.1 + e.2 ≤ off ∨ off + len ≤ e.1 := by
  cases h with
  | mk hc hl ht _ hlen =>
    rcases usedAt_around he with ⟨_, h⟩ | ⟨hused, _⟩ | ⟨h, _⟩
    · omega
    · rw [hc] at hused
      cases hused
    · omega

/-- Growth changes one used extent; the others keep away from both blocks. -/
theorem usedAt_grown {pre tail post : List Blk} {b n : Blk} {len : ℕ}
    (hb : b.free = false) (hn : n.free = true) (ht : Spare tail)
    (hsum : len + total tail = b.len + n.len) :
    ∃ others : List (ℕ × ℕ), (∀ e, e ∈ usedAt 0 (pre ++ { b with len := len } :: (tail ++ post)) ↔
        e = (total pre, len) ∨ e ∈ others) ∧
      (∀ e, e ∈ usedAt 0 (pre ++ b :: n :: post) ↔ e = (total pre, b.len) ∨ e ∈ others) ∧
      ∀ e ∈ others, e.1 + e.2 ≤ total pre ∨ total pre + b.len + n.len ≤ e.1 := by
  obtain ⟨hnew, hold⟩ := @usedAt_grow ℕ 0 len pre post tail b n hb hn ht hsum
  rw [Nat.zero_add] at hnew hold
  refine ⟨usedAt 0 pre ++ usedAt (total pre + (b.len + n.len)) post, ?_, ?_, ?_⟩
  · intro e
    rw [hnew, List.perm_middle.mem_iff, List.mem_cons]
  · intro e
    rw [hold, List.perm_middle.mem_iff, List.mem_cons]
  · intro e he
    rcases List.mem_append.mp he with he | he
    · exact .inl (usedAt_le_total he)
    · obtain ⟨xs, c, ys, rfl, _, rfl⟩ := mem_usedAt.mp he
      right
      omega

theorem intact_watch (base : ℕ) (hsize : size < 2 ^ 64) :
    Watch base size (fun _ => True) (Intact base) where
  cut := by
    intro mem bs bs' len off htot hroomy hcut hlen h e he k hk
    have hend := hcut.end_le
    rcases hcut.mem_usedAt.mp he with rfl | he
    · have hb := hk.bounds (redzone_le (by omega))
      rw [dress_at (redzone_le (by omega)) (by omega) (by omega), if_pos hk]
    · have hb := zone_bounds hroomy he hk
      rw [dress_at (redzone_le (by omega)) (by omega) (by omega)]
      split
      · rfl
      · exact h e he k hk
  fit := by
    intro mem pre b post htot hroomy hlen _ h e he k hk
    have hb := zone_bounds hroomy he hk
    have htot' := htot
    simp only [total_append, total_cons] at htot'
    rw [rezone_at (redzone_le hlen) (by omega) (by omega)]
    split
    · rfl
    · exact h e he k hk
  grow := by
    intro mem pre b n tail post len htot hroomy hb hn ht hsum hlt _ h e he k hk
    obtain ⟨others, hnew, hold, _⟩ := @usedAt_grown pre tail post b n len hb hn ht hsum
    have hblen := (hroomy _ ((hold _).mpr (.inl rfl))).1
    have htot' := htot
    simp only [total_append, total_cons] at htot'
    rcases (hnew e).mp he with rfl | he
    · have hkb := hk.bounds (redzone_le (by dsimp only; omega))
      rw [rezone_at (redzone_le (by omega)) (by omega) (by omega)]
      split
      · rfl
      · rename_i hnot
        rcases hk with hk | hk
        · exact h _ ((hold _).mpr (.inl rfl)) k (.inl hk)
        · exact absurd hk hnot
    · have he' := (hold e).mpr (.inr he)
      have hkb := zone_bounds hroomy he' hk
      rw [rezone_at (redzone_le (by omega)) (by omega) (by omega)]
      split
      · rfl
      · exact h e he' k hk
  release := by
    intro mem pre b post hb _ _ h e he
    have hperm := @usedAt_release_perm ℕ 0 pre post b hb
    exact h e (hperm.mem_iff.mpr (List.mem_cons_of_mem _ he))
  store := by
    intro mem mem' bs f htot hroomy hf hmem h e he k hk
    have hb := zone_bounds hroomy he hk
    rw [hmem k (by omega) (zone_not_payload hroomy he hf hk)]
    exact h e he k hk
  miss := by
    intro mem bs len htot hroomy hlen hend h e he k hk
    have hb := zone_bounds hroomy he hk
    rw [dress_at (redzone_le (by omega)) (by omega) (by omega)]
    split
    · rfl
    · exact h e he k hk

/-- A damaged byte stays damaged, unless its block gets a new trailing redzone
and the byte is not in the leading one. -/
theorem scar_watch (base o k : ℕ) (hsize : size < 2 ^ 64) :
    Watch base size (fun p => p = wadd base (o + redzoneSize) → k < o + redzoneSize)
      (Scar base o k) where
  cut := by
    rintro mem bs bs' len off htot hroomy hcut hlen ⟨l, he, hk, hbad⟩
    have hend := hcut.end_le
    have hb := zone_bounds hroomy he hk
    have hapart := hcut.apart he
    refine ⟨l, hcut.mem_usedAt.mpr (.inr he), hk, ?_⟩
    rw [dress_at (redzone_le (by omega)) (by omega) (by omega), if_neg ?_]
    · exact hbad
    · intro hz
      have hz' := hz.bounds (redzone_le (by omega))
      omega
  fit := by
    rintro mem pre b post htot hroomy hlen hin ⟨l, he, hk, hbad⟩
    have hb := zone_bounds hroomy he hk
    have haround := usedAt_around he
    have htot' := htot
    simp only [total_append, total_cons] at htot'
    refine ⟨l, he, hk, ?_⟩
    rw [rezone_at (redzone_le hlen) (by omega) (by omega), if_neg ?_]
    · exact hbad
    · rintro ⟨h1, h2⟩
      unfold redzoneSize at h1 hin
      rcases haround with ⟨_, h⟩ | ⟨_, h⟩ | ⟨h, _⟩
      · omega
      · obtain ⟨rfl, rfl⟩ := Prod.mk.inj h
        have := hin (by rw [Nat.zero_add])
        omega
      · omega
  grow := by
    rintro mem pre b n tail post len htot hroomy hb hn ht hsum hlt hin ⟨l, he, hk, hbad⟩
    obtain ⟨others, hnew, hold, hapart⟩ := @usedAt_grown pre tail post b n len hb hn ht hsum
    have hblen := (hroomy _ ((hold _).mpr (.inl rfl))).1
    have hkb := zone_bounds hroomy he hk
    have htot' := htot
    simp only [total_append, total_cons] at htot'
    have hmem : rezone mem (wadd base (total pre)) len (wadd base k) =
        if total pre + len - redzoneSize ≤ k ∧ k < total pre + len then redzoneMagic
        else mem (wadd base k) :=
      rezone_at (redzone_le (by omega)) (by omega) (by omega)
    rcases (hold _).mp he with h | h
    · obtain ⟨rfl, rfl⟩ := Prod.mk.inj h
      have hlead := hin rfl
      refine ⟨len, (hnew _).mpr (.inl rfl), .inl ⟨hkb.1, hlead⟩, ?_⟩
      rw [hmem, if_neg (by unfold redzoneSize at *; omega)]
      exact hbad
    · have hap := hapart _ h
      refine ⟨l, (hnew _).mpr (.inr h), hk, ?_⟩
      rw [hmem, if_neg (by unfold redzoneSize; omega)]
      exact hbad
  release := by
    rintro mem pre b post hb hlen hdress ⟨l, he, hk, hbad⟩
    have hperm := @usedAt_release_perm ℕ 0 pre post b hb
    rcases List.mem_cons.mp (hperm.mem_iff.mp he) with h | h
    · obtain ⟨rfl, rfl⟩ := Prod.mk.inj h
      rw [Nat.zero_add] at hk
      exact absurd ((dressed_iff (redzone_le (by omega))).mp hdress k hk) hbad
    · exact ⟨l, h, hk, hbad⟩
  store := by
    rintro mem mem' bs f htot hroomy hf hmem ⟨l, he, hk, hbad⟩
    have hb := zone_bounds hroomy he hk
    refine ⟨l, he, hk, ?_⟩
    rwa [hmem k (by omega) (zone_not_payload hroomy he hf hk)]
  miss := by
    rintro mem bs len htot hroomy hlen hend ⟨l, he, hk, hbad⟩
    have hb := zone_bounds hroomy he hk
    refine ⟨l, he, hk, ?_⟩
    rw [dress_at (redzone_le (by omega)) (by omega) (by omega), if_neg ?_]
    · exact hbad
    · intro hz
      have hz' := hz.bounds (redzone_le (by omega))
      omega

end

/-! ## The scan -/

/-- Address and length of every used link, in the order of `check_all`. -/
def usedFrom (m : MemoryMgr) : ℕ → Option ℕ → ℕ → List (ℕ × ℕ)
  | _, none, _ => []
  | 0, some _, _ => []
  | fuel + 1, some l, a =>
    if m.free l then usedFrom m fuel (m.next l) (wadd a (m.length l))
    else (a, m.length l) :: usedFrom m fuel (m.next l) (wadd a (m.length l))

/-- The used blocks of a heap. -/
def usedBlocks (m : MemoryMgr) : List (ℕ × ℕ) :=
  usedFrom m capacity m.first m.heapBase

section

variable {m : MemoryMgr} {bs : List Blk}

theorem usedFrom_eq {base : ℕ} : ∀ {fuel o : ℕ} {p : Option ℕ} {bs : List Blk},
    Chain m p bs → bs.length ≤ fuel →
    usedFrom m fuel p (wadd base o) = (usedAt o bs).map fun e => (wadd base e.1, e.2)
  | fuel, _, p, [], h, _ => by
    obtain rfl : p = none := h
    cases fuel <;> rfl
  | fuel + 1, o, p, b :: bs, ⟨hp, hl, hf, hc⟩, hlen => by
    have ih := @usedFrom_eq base fuel (o + b.len) _ bs hc (by simpa using hlen)
    rw [hp, usedFrom, hl, hf, wadd_assoc, ih]
    cases hb : b.free with
    | true => rw [usedAt_cons_free hb, if_pos rfl]
    | false => rw [usedAt_cons_used hb, if_neg (by simp), List.map_cons]

theorem checkFrom_eq_ok {base : ℕ} : ∀ {fuel o : ℕ} {p : Option ℕ} {bs : List Blk},
    Chain m p bs → bs.length ≤ fuel →
    (checkFrom m fuel p (wadd base o) = .ok () ↔
      ∀ e ∈ usedAt o bs, checkPtr m (wadd base (e.1 + redzoneSize)) = .ok ())
  | fuel, _, p, [], h, _ => by
    obtain rfl : p = none := h
    cases fuel <;> simp [checkFrom]
  | fuel + 1, o, p, b :: bs, ⟨hp, hl, hf, hc⟩, hlen => by
    have ih := @checkFrom_eq_ok base fuel (o + b.len) _ bs hc (by simpa using hlen)
    rw [hp, checkFrom, hl, hf, wadd_assoc, wadd_assoc]
    cases hb : b.free with
    | true =>
      rw [if_pos rfl, usedAt_cons_free hb]
      exact ih
    | false =>
      rw [if_neg (by simp), bind_eq_ok, usedAt_cons_used hb, List.forall_mem_cons, ← ih]
      exact ⟨fun ⟨_, h1, h2⟩ => ⟨h1, h2⟩, fun ⟨h1, h2⟩ => ⟨(), h1, h2⟩⟩

/-- A list of non-empty blocks has no second block at the address behind it. -/
theorem notAt_of_pos {base : ℕ} : ∀ {pre : List Blk}, (∀ b ∈ pre, 0 < b.len) →
    total pre < 2 ^ 64 → base < 2 ^ 64 → NotAt base (wadd base (total pre)) pre
  | [], _, _, _ => trivial
  | b :: pre, hpos, htot, hbase => by
    have hb := hpos b (by simp)
    rw [total_cons] at htot ⊢
    constructor
    · have hne : base ≠ wadd base (b.len + total pre) := by
        unfold wadd
        omega
      simpa using hne
    · rw [← wadd_assoc]
      exact notAt_of_pos (fun x hx => hpos x (by simp [hx])) (by omega) (wadd_lt _ _)

theorem firstAt_of_pos {base : ℕ} {pre post : List Blk} {b : Blk}
    (hpos : ∀ x ∈ pre ++ b :: post, 0 < x.len) (htot : total (pre ++ b :: post) < 2 ^ 64)
    (hbase : base < 2 ^ 64) :
    FirstAt base (wadd base (total pre)) (pre ++ b :: post) pre b post := by
  refine ⟨rfl, notAt_of_pos (fun x hx => hpos x (by simp [hx])) ?_ hbase, rfl⟩
  simp only [total_append, total_cons] at htot
  omega

/-- What a walk that sees non-empty blocks `bs` needs: they fit the address
space and the walk's bound. -/
structure Scannable (m : MemoryMgr) (bs : List Blk) : Prop where
  chain : Chain m m.first bs
  base : m.heapBase < 2 ^ 64
  fits : total bs < 2 ^ 64
  pos : ∀ b ∈ bs, 0 < b.len
  length : bs.length ≤ capacity

section

variable (h : Scannable m bs)

include h

theorem Scannable.usedBlocks_eq :
    usedBlocks m = (usedAt 0 bs).map fun e => (wadd m.heapBase e.1, e.2) := by
  have hbase : m.heapBase = wadd m.heapBase 0 := (wadd_zero h.base).symm
  rw [usedBlocks, hbase, usedFrom_eq h.chain h.length, ← hbase]

/-- `check` on the pointer of a used block returns exactly when the block is
large enough and has intact redzones. -/
theorem Scannable.checkPtr_eq_ok {e : ℕ × ℕ} (he : e ∈ usedAt 0 bs) :
    checkPtr m (wadd m.heapBase (e.1 + redzoneSize)) = .ok () ↔
      e.2 ≠ 2 ^ 64 - 1 ∧ 144 ≤ e.2 ∧ Dressed m.mem (wadd m.heapBase e.1) e.2 := by
  obtain ⟨pre, b, post, rfl, hused, rfl⟩ := mem_usedAt.mp he
  have hq : wsub (wadd m.heapBase (0 + total pre + redzoneSize)) redzoneSize =
      wadd m.heapBase (total pre) := by
    rw [Nat.zero_add, ← wadd_assoc, wadd_wsub_cancel (wadd_lt _ _) (by decide)]
  rw [Heap.checkPtr_eq_ok h.chain h.base h.length, hq, Nat.zero_add]
  have hat := firstAt_of_pos h.pos h.fits h.base
  constructor
  · rintro ⟨pre', b', post', hat', hmax, _, hlen, hd⟩
    obtain ⟨rfl, rfl, rfl⟩ := hat'.unique rfl rfl h.base h.fits (by omega)
    exact ⟨hmax, hlen, hd⟩
  · rintro ⟨hmax, hlen, hd⟩
    exact ⟨pre, b, post, hat, hmax, hused, hlen, hd⟩

/-- **`check_all` returns exactly when every used block passes its check.** -/
theorem Scannable.checkAll_eq_ok : checkAll m = .ok () ↔
      ∀ e ∈ usedAt 0 bs, e.2 ≠ 2 ^ 64 - 1 ∧ 144 ≤ e.2 ∧
        Dressed m.mem (wadd m.heapBase e.1) e.2 := by
  have hbase : m.heapBase = wadd m.heapBase 0 := (wadd_zero h.base).symm
  rw [checkAll, hbase, checkFrom_eq_ok h.chain h.length, ← hbase]
  exact forall₂_congr fun e he => h.checkPtr_eq_ok he

/-- Large used blocks with intact redzones pass the scan. -/
theorem Scannable.checkAll_ok (hroomy : Roomy bs)
    (hintact : Intact m.heapBase m.mem bs) : checkAll m = .ok () := by
  refine h.checkAll_eq_ok.mpr fun e he => ?_
  obtain ⟨hlen, h16⟩ := hroomy e he
  exact ⟨by omega, hlen, (dressed_iff (redzone_le (by omega))).mpr (hintact e he)⟩

end

end

end NeptunOS.Heap
