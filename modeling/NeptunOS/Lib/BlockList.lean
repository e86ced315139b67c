import Mathlib.Data.List.Chain
import Mathlib.Algebra.BigOperators.Group.List.Basic
import Mathlib.Algebra.GroupWithZero.Nat

/-!
# Block lists

An arena cut into consecutive blocks, each used or free: the value an
address-ordered allocator with immediate coalescing manipulates. Blocks carry
an identity of any type, so that a linked representation can name its nodes.

`Change` lists the four things one allocator operation can do to the list:
nothing, take a block out of a free one (leaving spare pieces before and
behind), grow a used block into the free block behind it, or release a used
block and merge it with its free neighbours. Everything an allocator keeps
(the total, no two free neighbours, no empty free block) is proved once, over
`Change`.
-/

namespace NeptunOS.BlockList

/-- One block of the arena. -/
structure Block (ι : Type) where
  id : ι
  len : ℕ
  free : Bool
deriving DecidableEq, Repr

variable {ι : Type}

/-- Bytes covered by a list of blocks. -/
def total (bs : List (Block ι)) : ℕ := (bs.map Block.len).sum

/-- What is left of a block list when identities are forgotten. -/
def shape (bs : List (Block ι)) : List (ℕ × Bool) :=
  bs.map fun b => (b.len, b.free)

/-- No two neighbours are both free. -/
def Coalesced (bs : List (Block ι)) : Prop :=
  bs.IsChain fun a b => ¬ (a.free = true ∧ b.free = true)

/-- At most one block, free and not empty. -/
def Spare (bs : List (Block ι)) : Prop :=
  bs = [] ∨ ∃ s, bs = [s] ∧ s.free = true ∧ 0 < s.len

@[simp] theorem total_nil : total ([] : List (Block ι)) = 0 := rfl

@[simp] theorem total_cons (b : Block ι) (bs : List (Block ι)) :
    total (b :: bs) = b.len + total bs := by
  simp [total]

@[simp] theorem total_append (xs ys : List (Block ι)) : total (xs ++ ys) = total xs + total ys := by
  simp [total]

@[simp] theorem shape_nil : shape ([] : List (Block ι)) = [] := rfl

@[simp] theorem shape_cons (b : Block ι) (bs : List (Block ι)) :
    shape (b :: bs) = (b.len, b.free) :: shape bs := rfl

@[simp] theorem shape_append (xs ys : List (Block ι)) :
    shape (xs ++ ys) = shape xs ++ shape ys := by
  simp [shape]

/-! ## Used extents -/

/-- Offset and length of every used block, the first block being at `o`. -/
def usedAt : ℕ → List (Block ι) → List (ℕ × ℕ)
  | _, [] => []
  | o, b :: bs =>
    if b.free then usedAt (o + b.len) bs
    else (o, b.len) :: usedAt (o + b.len) bs

@[simp] theorem usedAt_nil (o : ℕ) : usedAt o ([] : List (Block ι)) = [] := rfl

variable {o len : ℕ} {pre post lead tail bs bs' : List (Block ι)} {b n c u q x : Block ι}

theorem usedAt_cons_free (h : b.free = true) : usedAt o (b :: bs) = usedAt (o + b.len) bs := by
  rw [usedAt, if_pos h]

theorem usedAt_cons_used (h : b.free = false) :
    usedAt o (b :: bs) = (o, b.len) :: usedAt (o + b.len) bs := by
  rw [usedAt, if_neg (by simp [h])]

theorem usedAt_append : ∀ (o : ℕ) (xs ys : List (Block ι)),
    usedAt o (xs ++ ys) = usedAt o xs ++ usedAt (o + total xs) ys
  | o, [], ys => by simp
  | o, b :: xs, ys => by
    cases h : b.free with
    | true =>
      rw [List.cons_append, usedAt_cons_free h, usedAt_cons_free h,
        usedAt_append (o + b.len) xs ys, total_cons, Nat.add_assoc]
    | false =>
      rw [List.cons_append, usedAt_cons_used h, usedAt_cons_used h,
        usedAt_append (o + b.len) xs ys, total_cons, Nat.add_assoc,
        List.cons_append]

theorem usedAt_spare (h : Spare bs) : usedAt o bs = [] := by
  rcases h with rfl | ⟨s, rfl, hs, _⟩
  · rfl
  · rw [usedAt_cons_free hs, usedAt_nil]

/-- A used extent is a used block of the list with what precedes it. -/
theorem mem_usedAt : ∀ {o : ℕ} {bs : List (Block ι)} {e : ℕ × ℕ}, e ∈ usedAt o bs ↔
      ∃ pre b post, bs = pre ++ b :: post ∧ b.free = false ∧
        e = (o + total pre, b.len)
  | o, [], e => by simp
  | o, b :: bs, e => by
    have ih := @mem_usedAt (o + b.len) bs e
    have hcons : (∃ pre c post, bs = pre ++ c :: post ∧ c.free = false ∧
          e = (o + b.len + total pre, c.len)) ↔
        ∃ pre c post, b :: bs = b :: pre ++ c :: post ∧ c.free = false ∧
          e = (o + total (b :: pre), c.len) := by
      simp [Nat.add_assoc]
    constructor
    · intro h
      cases hb : b.free with
      | true =>
        rw [usedAt_cons_free hb, ih, hcons] at h
        obtain ⟨pre, c, post, hc⟩ := h
        exact ⟨b :: pre, c, post, hc⟩
      | false =>
        rw [usedAt_cons_used hb, List.mem_cons] at h
        rcases h with rfl | h
        · exact ⟨[], b, bs, rfl, hb, by simp⟩
        · rw [ih, hcons] at h
          obtain ⟨pre, c, post, hc⟩ := h
          exact ⟨b :: pre, c, post, hc⟩
    · rintro ⟨pre, c, post, heq, hc, he⟩
      cases pre with
      | nil =>
        obtain ⟨rfl, rfl⟩ := List.cons.inj heq
        rw [usedAt_cons_used hc]
        exact List.mem_cons.mpr (.inl (by simpa using he))
      | cons a pre =>
        obtain ⟨rfl, rfl⟩ := List.cons.inj heq
        have hmem : e ∈ usedAt (o + b.len) (pre ++ c :: post) :=
          ih.mpr ⟨pre, c, post, rfl, hc, by simpa [Nat.add_assoc] using he⟩
        cases hb : b.free with
        | true => rwa [usedAt_cons_free hb]
        | false =>
          rw [usedAt_cons_used hb]
          exact List.mem_cons_of_mem _ hmem

/-! ## Releasing a block -/

/-- Absorb the block behind when it is free. -/
def absorb (b : Block ι) : List (Block ι) → Block ι
  | [] => b
  | n :: _ => if n.free then { b with len := b.len + n.len } else b

/-- What remains behind after `absorb`. -/
def unabsorbed : List (Block ι) → List (Block ι)
  | [] => []
  | n :: post => if n.free then post else n :: post

/-- Put `b` behind `pre`, merging it into the last block of `pre` when that
one is free. -/
def joinPrev (pre : List (Block ι)) (b : Block ι) (post : List (Block ι)) :
    List (Block ι) :=
  match pre.getLast? with
  | none => b :: post
  | some q =>
    if q.free then pre.dropLast ++ { q with len := q.len + b.len } :: post
    else pre ++ b :: post

/-- The list after the block between `pre` and `post` became the free block
`b`: it is merged with the block behind, then with the block before. -/
def release (pre : List (Block ι)) (b : Block ι) (post : List (Block ι)) :
    List (Block ι) :=
  joinPrev pre (absorb b post) (unabsorbed post)

theorem absorb_cons (b n : Block ι) (post : List (Block ι)) : absorb b (n :: post) =
      if n.free then { b with len := b.len + n.len } else b := rfl

theorem unabsorbed_cons (n : Block ι) (post : List (Block ι)) :
    unabsorbed (n :: post) = if n.free then post else n :: post := rfl

@[simp] theorem absorb_free (b : Block ι) (post : List (Block ι)) :
    (absorb b post).free = b.free := by
  cases post with
  | nil => rfl
  | cons n post => rw [absorb_cons]; split <;> rfl

@[simp] theorem absorb_id (b : Block ι) (post : List (Block ι)) : (absorb b post).id = b.id := by
  cases post with
  | nil => rfl
  | cons n post => rw [absorb_cons]; split <;> rfl

theorem absorb_len_le (b : Block ι) (post : List (Block ι)) : b.len ≤ (absorb b post).len := by
  cases post with
  | nil => exact Nat.le_refl _
  | cons n post =>
    rw [absorb_cons]
    split
    · exact Nat.le_add_right _ _
    · exact Nat.le_refl _

theorem absorb_total (b : Block ι) (post : List (Block ι)) :
    (absorb b post).len + total (unabsorbed post) = b.len + total post := by
  cases post with
  | nil => rfl
  | cons n post =>
    rw [absorb_cons, unabsorbed_cons]
    split <;> simp [Nat.add_assoc]

theorem unabsorbed_subset (h : x ∈ unabsorbed post) : x ∈ post := by
  cases post with
  | nil => exact h
  | cons n post =>
    rw [unabsorbed_cons] at h
    split at h
    · exact List.mem_cons_of_mem _ h
    · exact h

theorem unabsorbed_length_le (post : List (Block ι)) : (unabsorbed post).length ≤ post.length := by
  cases post with
  | nil => exact Nat.le_refl _
  | cons n post =>
    rw [unabsorbed_cons]
    split
    · exact Nat.le_succ _
    · exact Nat.le_refl _

@[simp] theorem joinPrev_nil (b : Block ι) (post : List (Block ι)) :
    joinPrev [] b post = b :: post := rfl

theorem joinPrev_free (hq : q.free = true) (pre : List (Block ι)) (b : Block ι)
    (post : List (Block ι)) :
    joinPrev (pre ++ [q]) b post =
      pre ++ { q with len := q.len + b.len } :: post := by
  simp [joinPrev, hq]

theorem joinPrev_used (hq : q.free = false) (pre : List (Block ι)) (b : Block ι)
    (post : List (Block ι)) : joinPrev (pre ++ [q]) b post = pre ++ q :: b :: post := by
  simp [joinPrev, hq]

/-- The last block of the prefix decides the merge. -/
theorem joinPrev_of_last (h : ∀ q ∈ pre.getLast?, q.free = false) (b : Block ι)
    (post : List (Block ι)) : joinPrev pre b post = pre ++ b :: post := by
  rcases pre.eq_nil_or_concat with rfl | ⟨pre', q, rfl⟩
  · rfl
  · rw [List.concat_eq_append] at h ⊢
    rw [joinPrev_used (h q (by simp)), List.append_assoc]
    rfl

/-! ## Changes -/

/-- What one allocator operation can do to the block list. -/
inductive Change : List (Block ι) → List (Block ι) → Prop
  | same (bs : List (Block ι)) : Change bs bs
  | take {pre post lead tail : List (Block ι)} {c u : Block ι}
      (hc : c.free = true) (hu : u.free = false) (hl : Spare lead)
      (ht : Spare tail) (hlen : total lead + u.len + total tail = c.len) :
      Change (pre ++ c :: post) (pre ++ (lead ++ u :: (tail ++ post)))
  | grow {pre post tail : List (Block ι)} {b n : Block ι} {d : ℕ}
      (hb : b.free = false) (hn : n.free = true) (ht : Spare tail)
      (hlen : d + total tail = n.len) :
      Change (pre ++ b :: n :: post)
        (pre ++ { b with len := b.len + d } :: (tail ++ post))
  | release {pre post : List (Block ι)} {b : Block ι} (hb : b.free = false) :
      Change (pre ++ b :: post) (release pre { b with free := true } post)

theorem release_length_le (pre : List (Block ι)) (b : Block ι) (post : List (Block ι)) :
    (release pre b post).length ≤ pre.length + 1 + post.length := by
  have ha := unabsorbed_length_le post
  unfold release
  rcases pre.eq_nil_or_concat with rfl | ⟨pre', q, rfl⟩
  · simp only [joinPrev_nil, List.length_cons, List.length_nil]
    omega
  · rw [List.concat_eq_append]
    cases hq : q.free with
    | true =>
      simp only [joinPrev_free hq, List.length_append, List.length_cons, List.length_nil]
      omega
    | false =>
      simp only [joinPrev_used hq, List.length_append, List.length_cons, List.length_nil]
      omega

theorem release_total (pre : List (Block ι)) (b : Block ι) (post : List (Block ι)) :
    total (release pre b post) = total pre + b.len + total post := by
  have ha := absorb_total b post
  unfold release
  rcases pre.eq_nil_or_concat with rfl | ⟨pre', q, rfl⟩
  · simp only [joinPrev_nil, total_cons, total_nil]
    omega
  · rw [List.concat_eq_append]
    cases hq : q.free with
    | true =>
      simp only [joinPrev_free hq, total_append, total_cons, total_nil]
      omega
    | false =>
      simp only [joinPrev_used hq, total_append, total_cons, total_nil]
      omega

/-- Blocks are neither created nor lost in bytes. -/
theorem Change.total_eq (h : Change bs bs') : total bs' = total bs := by
  cases h with
  | same => rfl
  | take hc hu hl ht hlen =>
    simp only [total_append, total_cons]
    omega
  | grow hb hn ht hlen =>
    simp only [total_append, total_cons]
    omega
  | @release pre post b hb =>
    rw [release_total]
    simp only [total_append, total_cons]
    omega

theorem coalesced_cons : Coalesced (c :: post) ↔
      (∀ q ∈ post.head?, ¬ (c.free = true ∧ q.free = true)) ∧
        Coalesced post :=
  List.isChain_cons

theorem Coalesced.split (h : Coalesced (pre ++ c :: post)) :
    Coalesced pre ∧ Coalesced post ∧
      (∀ q ∈ pre.getLast?, ¬ (q.free = true ∧ c.free = true)) ∧
      (∀ q ∈ post.head?, ¬ (c.free = true ∧ q.free = true)) := by
  unfold Coalesced at h
  rw [List.isChain_append, List.isChain_cons] at h
  obtain ⟨hpre, ⟨hhd, hpost⟩, hseam⟩ := h
  exact ⟨hpre, hpost, fun q hq => hseam q hq c (by simp), hhd⟩

theorem Coalesced.join (hpre : Coalesced pre) (hpost : Coalesced post)
    (hlast : ∀ q ∈ pre.getLast?, ¬ (q.free = true ∧ c.free = true))
    (hhd : ∀ q ∈ post.head?, ¬ (c.free = true ∧ q.free = true)) : Coalesced (pre ++ c :: post) := by
  unfold Coalesced
  rw [List.isChain_append, List.isChain_cons]
  refine ⟨hpre, ⟨hhd, hpost⟩, fun q hq y hy => ?_⟩
  obtain rfl : c = y := by simpa using hy
  exact hlast q hq

/-- A spare piece may stand before a list that does not start free. -/
theorem Coalesced.spare_append (ht : Spare tail) (hpost : Coalesced post)
    (hhd : ∀ q ∈ post.head?, q.free = false) : Coalesced (tail ++ post) := by
  rcases ht with rfl | ⟨s, rfl, _, _⟩
  · exact hpost
  · refine coalesced_cons.mpr ⟨fun q hq => ?_, hpost⟩
    simp [hhd q hq]

/-- After releasing into a list that had no two free neighbours, it still
has none. -/
theorem release_coalesced (hpre : Coalesced pre) (hpost : Coalesced post) :
    Coalesced (release pre b post) := by
  -- behind: what is left does not start free
  have hrest : Coalesced (unabsorbed post) ∧
      ∀ q ∈ (unabsorbed post).head?, q.free = false := by
    cases post with
    | nil => exact ⟨List.isChain_nil, by simp [unabsorbed]⟩
    | cons n post =>
      have hs := coalesced_cons.mp hpost
      rw [unabsorbed_cons]
      cases hn : n.free with
      | true =>
        refine ⟨hs.2, fun q hq => ?_⟩
        simpa [hn] using hs.1 q hq
      | false => exact ⟨hpost, by simp [hn]⟩
  unfold release
  rcases pre.eq_nil_or_concat with rfl | ⟨pre', q, rfl⟩
  · refine coalesced_cons.mpr ⟨fun q hq => ?_, hrest.1⟩
    simp [hrest.2 q hq]
  · rw [List.concat_eq_append] at hpre ⊢
    have hs := Coalesced.split hpre
    cases hq : q.free with
    | true =>
      rw [joinPrev_free hq]
      apply Coalesced.join hs.1 hrest.1
      · intro r hr
        exact hs.2.2.1 r hr
      · intro r hr
        simp [hrest.2 r hr]
    | false =>
      rw [joinPrev_used hq]
      apply Coalesced.join hs.1
      · refine coalesced_cons.mpr ⟨fun r hr => ?_, hrest.1⟩
        simp [hrest.2 r hr]
      · simp [hq]
      · simp [hq]

/-- No change leaves two free neighbours. -/
theorem Change.coalesced (h : Change bs bs') (hbs : Coalesced bs) : Coalesced bs' := by
  cases h with
  | same => exact hbs
  | @take pre post lead tail c u hc hu hl ht hlen =>
    obtain ⟨hpre, hpost, hlast, hhd⟩ := hbs.split
    have hpost' : Coalesced (tail ++ post) :=
      Coalesced.spare_append ht hpost fun q hq => by
        simpa [hc] using hhd q hq
    have hmid : Coalesced (u :: (tail ++ post)) := coalesced_cons.mpr ⟨by simp [hu], hpost'⟩
    rcases hl with rfl | ⟨s, rfl, hs, _⟩
    · exact Coalesced.join hpre hpost' (by simp [hu]) (by simp [hu])
    · apply Coalesced.join hpre hmid
      · intro q hq
        have := hlast q hq
        simp only [hc, and_true] at this
        simp [this]
      · simp [hu]
  | @grow pre post tail b n d hb hn ht hlen =>
    obtain ⟨hpre, hrest, _, _⟩ := hbs.split
    have hs := coalesced_cons.mp hrest
    apply Coalesced.join hpre
    · exact Coalesced.spare_append ht hs.2 fun q hq => by
        simpa [hn] using hs.1 q hq
    · simp [hb]
    · simp [hb]
  | @release pre post b hb =>
    obtain ⟨hpre, hpost, _, _⟩ := hbs.split
    exact release_coalesced hpre hpost

/-- Every used extent lies before a block of the list, is that block, or lies
behind it. -/
theorem usedAt_around {e : ℕ × ℕ} (h : e ∈ usedAt o (pre ++ b :: post)) :
    (o ≤ e.1 ∧ e.1 + e.2 ≤ o + total pre) ∨
      (b.free = false ∧ e = (o + total pre, b.len)) ∨
      (o + total pre + b.len ≤ e.1 ∧
        e.1 + e.2 ≤ o + total (pre ++ b :: post)) := by
  have hbounds : ∀ {o : ℕ} {bs : List (Block ι)}, e ∈ usedAt o bs →
      o ≤ e.1 ∧ e.1 + e.2 ≤ o + total bs := by
    intro o bs he
    obtain ⟨xs, c, ys, rfl, _, rfl⟩ := mem_usedAt.mp he
    simp only [total_append, total_cons]
    omega
  rw [usedAt_append, List.mem_append] at h
  rcases h with h | h
  · exact .inl (hbounds h)
  · right
    have hpost : e ∈ usedAt (o + total pre + b.len) post →
        o + total pre + b.len ≤ e.1 ∧ e.1 + e.2 ≤ o + total (pre ++ b :: post) := by
      intro he
      have := hbounds he
      simp only [total_append, total_cons]
      omega
    cases hb : b.free with
    | true =>
      rw [usedAt_cons_free hb] at h
      exact .inr (hpost h)
    | false =>
      rw [usedAt_cons_used hb, List.mem_cons] at h
      exact h.imp (fun he => ⟨rfl, he⟩) hpost

/-! ## Used extents after a change -/

/-- Taking a block adds exactly its extent. -/
theorem usedAt_take (hc : c.free = true) (hu : u.free = false) (hl : Spare lead) (ht : Spare tail)
    (hlen : total lead + u.len + total tail = c.len) :
    (usedAt o (pre ++ (lead ++ u :: (tail ++ post)))).Perm
      ((o + (total pre + total lead), u.len) :: usedAt o (pre ++ c :: post)) := by
  have hend : o + total pre + total lead + u.len + total tail = o + total pre + c.len := by omega
  rw [usedAt_append, usedAt_append, usedAt_spare hl, usedAt_cons_used hu,
    usedAt_append, usedAt_spare ht, hend, usedAt_append, usedAt_cons_free hc,
    List.nil_append, List.nil_append, Nat.add_assoc]
  exact List.perm_middle

/-- Growing a block moves no used extent. -/
theorem usedAt_grow (hb : b.free = false) (hn : n.free = true) (ht : Spare tail)
    (hlen : len + total tail = b.len + n.len) :
    usedAt o (pre ++ { b with len := len } :: (tail ++ post)) =
        usedAt o pre ++ (o + total pre, len) :: usedAt (o + total pre + (b.len + n.len)) post ∧
      usedAt o (pre ++ b :: n :: post) =
        usedAt o pre ++ (o + total pre, b.len) ::
          usedAt (o + total pre + (b.len + n.len)) post := by
  have hend : o + total pre + len + total tail = o + total pre + (b.len + n.len) := by omega
  have hb' : ({ b with len := len } : Block ι).free = false := hb
  constructor
  · rw [usedAt_append, usedAt_cons_used hb', usedAt_append, usedAt_spare ht, hend, List.nil_append]
  · rw [usedAt_append, usedAt_cons_used hb, usedAt_cons_free hn, Nat.add_assoc _ b.len]

/-- Merging free blocks moves no used extent. -/
theorem usedAt_absorb (hb : b.free = true) (post : List (Block ι)) :
    usedAt o (absorb b post :: unabsorbed post) = usedAt o (b :: post) := by
  cases post with
  | nil => rfl
  | cons n post =>
    rw [absorb_cons, unabsorbed_cons]
    cases hn : n.free with
    | true =>
      rw [if_pos rfl, if_pos rfl, usedAt_cons_free hb, usedAt_cons_free hn]
      rw [usedAt_cons_free (show ({ b with len := b.len + n.len } :
        Block ι).free = true from hb), Nat.add_assoc]
    | false => rfl

theorem usedAt_joinPrev (hb : b.free = true) (pre post : List (Block ι)) :
    usedAt o (joinPrev pre b post) = usedAt o (pre ++ b :: post) := by
  rcases pre.eq_nil_or_concat with rfl | ⟨pre', q, rfl⟩
  · rfl
  · rw [List.concat_eq_append]
    cases hq : q.free with
    | false => rw [joinPrev_used hq, List.append_assoc]; rfl
    | true =>
      have hq' : ({ q with len := q.len + b.len } : Block ι).free = true := hq
      rw [joinPrev_free hq, usedAt_append, usedAt_cons_free hq',
        List.append_assoc, usedAt_append, List.cons_append, List.nil_append,
        usedAt_cons_free hq, usedAt_cons_free hb, Nat.add_assoc _ q.len]

theorem usedAt_release (hb : b.free = true) (pre post : List (Block ι)) :
    usedAt o (release pre b post) = usedAt o (pre ++ b :: post) := by
  rw [release, usedAt_joinPrev (by rw [absorb_free, hb]), usedAt_append,
    usedAt_absorb hb, ← usedAt_append]

/-- Releasing a block removes exactly its extent. -/
theorem usedAt_release_perm (hb : b.free = false) :
    (usedAt o (pre ++ b :: post)).Perm
      ((o + total pre, b.len) ::
        usedAt o (release pre { b with free := true } post)) := by
  have hb' : ({ b with free := true } : Block ι).free = true := rfl
  rw [usedAt_release hb', usedAt_append, usedAt_cons_used hb, usedAt_append, usedAt_cons_free hb']
  exact List.perm_middle

/-- Bytes in used blocks. -/
def usedTotal (bs : List (Block ι)) : ℕ := ((usedAt 0 bs).map Prod.snd).sum

theorem usedTotal_take (hc : c.free = true) (hu : u.free = false) (hl : Spare lead)
    (ht : Spare tail) (hlen : total lead + u.len + total tail = c.len) :
    usedTotal (pre ++ (lead ++ u :: (tail ++ post))) =
      usedTotal (pre ++ c :: post) + u.len := by
  unfold usedTotal
  rw [((usedAt_take hc hu hl ht hlen).map Prod.snd).sum_eq, List.map_cons,
    List.sum_cons, Nat.add_comm]

theorem usedTotal_grow (hb : b.free = false) (hn : n.free = true) (ht : Spare tail)
    (hlen : len + total tail = b.len + n.len) :
    usedTotal (pre ++ { b with len := len } :: (tail ++ post)) + b.len =
      usedTotal (pre ++ b :: n :: post) + len := by
  unfold usedTotal
  obtain ⟨h1, h2⟩ := @usedAt_grow ι 0 len pre post tail b n hb hn ht hlen
  rw [h1, h2]
  simp only [List.map_append, List.map_cons, List.sum_append, List.sum_cons]
  omega

theorem usedTotal_release (hb : b.free = false) :
    usedTotal (pre ++ b :: post) =
      usedTotal (release pre { b with free := true } post) + b.len := by
  unfold usedTotal
  rw [((usedAt_release_perm hb).map Prod.snd).sum_eq, List.map_cons, List.sum_cons, Nat.add_comm]

/-- Used and free bytes make up the whole. -/
theorem usedTotal_add_free : ∀ (o : ℕ) (bs : List (Block ι)),
    ((usedAt o bs).map Prod.snd).sum = ((bs.filter fun b => !b.free).map Block.len).sum ∧
      ((usedAt o bs).map Prod.snd).sum + ((bs.filter Block.free).map Block.len).sum =
        total bs
  | _, [] => ⟨rfl, rfl⟩
  | o, b :: bs => by
    obtain ⟨h1, h2⟩ := usedTotal_add_free (o + b.len) bs
    cases hb : b.free with
    | true =>
      rw [usedAt_cons_free hb]
      simp only [hb, List.filter_cons, Bool.not_true, Bool.false_eq_true,
        if_false, if_true, List.map_cons, List.sum_cons, total_cons]
      exact ⟨h1, by omega⟩
    | false =>
      rw [usedAt_cons_used hb]
      simp only [hb, List.filter_cons, Bool.not_false, Bool.false_eq_true,
        if_false, if_true, List.map_cons, List.sum_cons, total_cons]
      exact ⟨by omega, by omega⟩

/-- Releasing the block that was taken last undoes the taking, up to
identities. -/
theorem shape_release_take (hbs : Coalesced (pre ++ c :: post)) (hc : c.free = true)
    (hu : u.free = true) (hl : Spare lead) (ht : Spare tail)
    (hlen : total lead + u.len + total tail = c.len) :
    shape (release (pre ++ lead) u (tail ++ post)) = shape (pre ++ c :: post) := by
  obtain ⟨_, _, hlast, hhd⟩ := hbs.split
  have hpost : ∀ q ∈ post.head?, q.free = false := fun q hq => by
    simpa [hc] using hhd q hq
  have hpre : ∀ q ∈ pre.getLast?, q.free = false := fun q hq => by
    simpa [hc] using hlast q hq
  -- behind: the spare rest comes back, the next block is used
  have hback : (absorb u (tail ++ post)).len = u.len + total tail ∧
      unabsorbed (tail ++ post) = post := by
    rcases ht with rfl | ⟨t, rfl, ht, _⟩
    · cases post with
      | nil => exact ⟨rfl, rfl⟩
      | cons n post =>
        have hn : ¬ n.free = true := by simp [hpost n (by simp)]
        rw [List.nil_append, absorb_cons, unabsorbed_cons, if_neg hn, if_neg hn]
        exact ⟨rfl, rfl⟩
    · rw [List.cons_append, absorb_cons, unabsorbed_cons, if_pos ht, if_pos ht]
      exact ⟨by simp, rfl⟩
  have hfree : (absorb u (tail ++ post)).free = true := by rw [absorb_free, hu]
  rw [release, hback.2]
  rcases hl with rfl | ⟨l, rfl, hlf, _⟩
  · rw [total_nil] at hlen
    rw [List.append_nil, joinPrev_of_last hpre, shape_append, shape_append,
      shape_cons, shape_cons, hback.1, hfree, hc]
    have : u.len + total tail = c.len := by omega
    rw [this]
  · rw [joinPrev_free hlf, shape_append, shape_append, shape_cons, shape_cons, hback.1, hlf, hc]
    have : l.len + (u.len + total tail) = c.len := by
      simp only [total_cons, total_nil] at hlen
      omega
    rw [this]

/-- Every block of the released list is old, or is the freed block with the
bytes of its free neighbours. -/
theorem mem_release (h : x ∈ release pre b post) :
    x ∈ pre ∨ x ∈ post ∨
      (b.len ≤ x.len ∧ ∃ y, y = absorb b post ∧
        (x = y ∨ ∃ q ∈ pre, q.free = true ∧
          x = { q with len := q.len + y.len })) := by
  have hrest : ∀ y ∈ unabsorbed post, y ∈ post := fun _ => unabsorbed_subset
  have hle := absorb_len_le b post
  unfold release at h
  rcases pre.eq_nil_or_concat with rfl | ⟨pre', q, rfl⟩
  · rw [joinPrev_nil, List.mem_cons] at h
    rcases h with rfl | h
    · exact .inr (.inr ⟨hle, _, rfl, .inl rfl⟩)
    · exact .inr (.inl (hrest x h))
  · rw [List.concat_eq_append] at h ⊢
    cases hq : q.free with
    | true =>
      rw [joinPrev_free hq, List.mem_append, List.mem_cons] at h
      rcases h with h | rfl | h
      · exact .inl (List.mem_append_left _ h)
      · refine .inr (.inr ⟨Nat.le_trans hle (Nat.le_add_left _ _), _,
          rfl, .inr ⟨q, by simp, hq, rfl⟩⟩)
      · exact .inr (.inl (hrest x h))
    | false =>
      rw [joinPrev_used hq, List.mem_append, List.mem_cons, List.mem_cons] at h
      rcases h with h | rfl | rfl | h
      · exact .inl (List.mem_append_left _ h)
      · exact .inl (by simp)
      · exact .inr (.inr ⟨hle, _, rfl, .inl rfl⟩)
      · exact .inr (.inl (hrest x h))

end NeptunOS.BlockList
