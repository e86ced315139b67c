import NeptunOS.Storage.LinkedList
import NeptunOS.Storage.String

/-!
# `HashMap` of `util/storage.hh`

A vector of buckets, each a `LinkedList` of pairs. `operator[]` inserts only
into an empty bucket: a bucket never holds two pairs, and a new key whose bucket
is taken halts the kernel. The pair is copied into its link, and with it a `String`
key whose length is a multiple of 16 writes behind its block.

- `Stores`: the map holds exactly the pairs of a table `K → Option V`.
- `refines_iff`: a sequence of operations behaves like the table if and only if
  no key is inserted into the bucket of another present key and no copy of a key is
  freed whose redzone is damaged.
-/

namespace NeptunOS

open Function Stepwise

/-- Key types: the sum that `hash(key, size)` reduces modulo `size`, and the keys whose
copies write one byte behind their block. -/
class Hash (K : Type) where
  sum : K → ℕ
  spills : K → Bool

/-- `pow(a, b)` on `u128`. -/
def pow (a : ℕ) : ℕ → ℕ
  | 0 => 1
  | b + 1 => pow a b * a % 2 ^ 128

/-- `valueperchar`. -/
def valuePerChar : ℕ := 53

/-- A `char`, which is signed, as a `u128` operand. -/
def charWord (c : UInt8) : ℕ :=
  if c.toNat < 128 then c.toNat else 2 ^ 128 - 256 + c.toNat

/-- The loop of `hash(const String& val, size)` from index `i` on. -/
def stringSum : ℕ → ℕ → List UInt8 → ℕ
  | sum, _, [] => sum
  | sum, i, c :: val =>
    stringSum ((sum + pow valuePerChar i * charWord c % 2 ^ 128) % 2 ^ 64) (i + 1) val

instance : Hash UInt64 := ⟨UInt64.toNat, fun _ => false⟩

/-- The characters of a name alone, without the block they are in. -/
instance : Hash (List UInt8) := ⟨stringSum 0 0, fun _ => false⟩

/-- A `String` as a key. -/
structure StringKey where
  chars : List UInt8
deriving DecidableEq

instance : Hash StringKey :=
  ⟨fun key => stringSum 0 0 key.chars, fun key => decide (Str.Spills key.chars.length)⟩

/-- `HashMap<K, V>`; `entries` has `size` buckets. A bucket has one link at most, and
`spilt` says that the redzone of the key in it is damaged. -/
structure HashMap (K V : Type) where
  entries : ℕ → LinkedList (K × V)
  size : ℕ
  spilt : ℕ → Bool

/-- How `operator[]` gets a key, with the byte behind the characters that are copied into the
link: of a `const K&` the terminator, of a `K&&` whatever follows them in the block that the
vector made for it. -/
inductive KeyArg where
  | lvalue (tail : UInt8)
  | rvalue (tail : UInt8)
deriving DecidableEq

def KeyArg.tail : KeyArg → UInt8
  | lvalue tail | rvalue tail => tail

/-- The copy of the key in a link damages its redzone. -/
def KeyArg.damages {K : Type} [Hash K] (arg : KeyArg) (key : K) : Bool :=
  Hash.spills key && arg.tail != Heap.redzoneMagic

/-- The pair that `operator[]` copies into the link is destroyed. A key that was not moved into
it was copied the same way. -/
def KeyArg.destroy {K : Type} [Hash K] (arg : KeyArg) (key : K) : Except Halt Unit :=
  match arg with
  | lvalue _ => if arg.damages key then .error Str.corrupted else .ok ()
  | rvalue _ => .ok ()

namespace HashMap

variable {K V : Type}

/-- `HashMap(s)`: the bucket count is kept in a `u32`. -/
def init (s : ℕ) : HashMap K V where
  entries _ := .empty
  size := s % 2 ^ 32
  spilt _ := false

/-- A reference to the value of a pair: its bucket and its link. -/
structure Ref where
  bucket : ℕ
  link : ℕ

variable [Hash K] [DecidableEq K]

/-- `hash(key, size)`. -/
def hash (key : K) (size : ℕ) : Except Halt ℕ :=
  if size = 0 then .error (.exception "divide error") else .ok (Hash.sum key % size)

/-- `operator[](key)` in the bucket `b`. -/
def indexIn [Inhabited V] (m : HashMap K V) (key : K) (arg : KeyArg) (b : ℕ) :
    Except Halt (Ref × HashMap K V) :=
  let bucket := m.entries b
  if bucket.size = 0 then do
    let (i, bucket) ← bucket.pushFront (key, default)
    arg.destroy key
    return (⟨b, i⟩, { m with
      entries := update m.entries b bucket, spilt := update m.spilt b (arg.damages key) })
  else do
    match ← bucket.find fun e => decide (e.1 = key) with
    | some i => return (⟨b, i⟩, m)
    | none => .error (.fatal "Nincs ilyen elem!")

/-- `operator[](key)`. The argument is looked at only for keys whose copies can spill. -/
def index [Inhabited V] (m : HashMap K V) (key : K) (arg : KeyArg := .rvalue 0) :
    Except Halt (Ref × HashMap K V) := do
  let b ← hash key m.size
  m.indexIn key arg b

/-- Read through a reference. -/
def load (m : HashMap K V) (r : Ref) : Except Halt V := do
  let x ← (m.entries r.bucket).deref (some r.link)
  return x.data.2

/-- The bucket after an assignment to the value of link `i`. -/
def storeIn (bucket : LinkedList (K × V)) (i : ℕ) (v : V) : LinkedList (K × V) :=
  { bucket with
    links := update bucket.links i
      ((bucket.links i).map fun x => { x with data := (x.data.1, v) }) }

/-- Assign through a reference. -/
def store (m : HashMap K V) (r : Ref) (v : V) : HashMap K V :=
  { m with entries := update m.entries r.bucket (storeIn (m.entries r.bucket) r.link v) }

/-- The same links with other values. -/
def mapValues (f : K → V → V) (m : HashMap K V) : HashMap K V :=
  { m with entries := fun b => { m.entries b with
      links := fun i => ((m.entries b).links i).map fun x =>
        { x with data := (x.data.1, f x.data.1 x.data.2) } } }

/-- `has(key)`. -/
def has (m : HashMap K V) (key : K) : Except Halt Bool := do
  let b ← hash key m.size
  let i ← (m.entries b).find fun e => decide (e.1 = key)
  return i.isSome

/-- The `do .. while (first != l)` loop of `remove`. -/
def removeFrom (bucket : LinkedList (K × V)) (key : K) (first : Option ℕ) :
    ℕ → Option ℕ → Except Halt (LinkedList (K × V))
  | 0, _ => .error .endless
  | fuel + 1, l => do
    let x ← bucket.deref l
    match l with
    | some i =>
      if x.data.1 = key then bucket.removeLink i
      else if x.next = first then .error (.fatal "Element not found!")
      else removeFrom bucket key first fuel x.next
    | none => .error (.exception "page fault: null link")

/-- `remove(key)`; the link that is deleted has a key. -/
def remove (m : HashMap K V) (key : K) : Except Halt (HashMap K V) := do
  let b ← hash key m.size
  let bucket := m.entries b
  if bucket.size = 0 then
    .error (.fatal "Tried to delete non-existent element!")
  else
    let bucket ← removeFrom bucket key bucket.first bucket.fresh bucket.first
    if m.spilt b then .error Str.corrupted
    else return { m with entries := update m.entries b bucket }

/-! ## Operations and their meaning -/

/-- Uses of a map: `m[k]` read, `m[k] = v`, `m.has(k)` and `m.remove(k)`. -/
inductive Op (K V : Type) where
  | get (k : K) (arg : KeyArg)
  | set (k : K) (arg : KeyArg) (v : V)
  | has (k : K)
  | remove (k : K)

/-- What a use yields. -/
inductive Answer (V : Type) where
  | value (v : V)
  | found (b : Bool)
  | done
deriving DecidableEq

/-- One use of the map. -/
def step [Inhabited V] (m : HashMap K V) :
    Op K V → Except Halt (Answer V × HashMap K V)
  | .get k arg => do
    let (r, m) ← m.index k arg
    let v ← m.load r
    return (.value v, m)
  | .set k arg v => do
    let (r, m) ← m.index k arg
    return (.done, m.store r v)
  | .has k => do
    let b ← m.has k
    return (.found b, m)
  | .remove k => do
    let m ← m.remove k
    return (.done, m)

/-- A sequence of uses and what they yield. -/
def run [Inhabited V] (m : HashMap K V) :
    List (Op K V) → Except Halt (List (Answer V) × HashMap K V)
  | [] => .ok ([], m)
  | op :: ops => do
    let (a, m) ← m.step op
    let (as, m) ← m.run ops
    return (a :: as, m)

/-- The finite map a `HashMap` stands for. -/
abbrev Table (K V : Type) := K → Option V

/-- The meaning of one use: a present key yields its value, an absent one is
inserted with `V()` by `operator[]`. -/
def Table.step [Inhabited V] (t : Table K V) : Op K V → Answer V × Table K V
  | .get k _ => (.value ((t k).getD default), update t k (some ((t k).getD default)))
  | .set k _ v => (.done, update t k (some v))
  | .has k => (.found (t k).isSome, t)
  | .remove k => (.done, update t k none)

def Table.run [Inhabited V] (t : Table K V) : List (Op K V) → List (Answer V)
  | [] => []
  | op :: ops => (Table.step t op).1 :: Table.run (Table.step t op).2 ops

/-- `operator[](k)` finds `k` present, or no present key in its bucket. -/
def Free (size : ℕ) (t : Table K V) (k : K) : Prop :=
  (t k).isSome = true ∨
    ∀ k', (t k').isSome = true → Hash.sum k' % size ≠ Hash.sum k % size

/-- Only a present key is removed. -/
def Op.Legal (t : Table K V) : Op K V → Prop
  | .remove k => (t k).isSome = true
  | _ => True

/-- No key is inserted into the bucket of another present key, and no key in `spilt`, those
whose redzone is damaged, is freed. -/
def Op.Clear (size : ℕ) (t : Table K V) (spilt : K → Bool) : Op K V → Prop
  | .get k arg | .set k arg _ => Free size t k ∧ (t k = none → arg.destroy k = .ok ())
  | .has _ => True
  | .remove k => spilt k = false

/-- An insertion may damage the redzone of its key. -/
def Op.spilt (t : Table K V) (spilt : K → Bool) : Op K V → K → Bool
  | .get k arg | .set k arg _ => if (t k).isSome then spilt else update spilt k (arg.damages k)
  | .has _ | .remove _ => spilt

def Legal [Inhabited V] (t : Table K V) : List (Op K V) → Prop
  | [] => True
  | op :: ops => op.Legal t ∧ Legal (Table.step t op).2 ops

def Clear [Inhabited V] (size : ℕ) (t : Table K V) (spilt : K → Bool) : List (Op K V) → Prop
  | [] => True
  | op :: ops => op.Clear size t spilt ∧ Clear size (Table.step t op).2 (op.spilt t spilt) ops

/-- The map stores exactly the pairs of the table, each alone in the bucket of
its key; `c` lists what the buckets hold. -/
structure Stores (m : HashMap K V) (c : ℕ → Option (K × V)) (t : Table K V) : Prop where
  pos : 0 < m.size
  holds : ∀ b, (m.entries b).Holds (c b)
  home : ∀ b k v, c b = some (k, v) → Hash.sum k % m.size = b
  table : ∀ k v, t k = some v ↔ c (Hash.sum k % m.size) = some (k, v)
  spilt : ∀ b, m.spilt b = true → (c b).any fun x => Hash.spills x.1

section

variable {m : HashMap K V} {c : ℕ → Option (K × V)} {t : Table K V} {k : K}
variable {k' : K} {v' v : V} {l : LinkedList (K × V)} {r : Ref} {m' : HashMap K V} {b : ℕ}
  {arg : KeyArg} {op : Op K V}

omit [DecidableEq K] in
theorem Stores.hash_eq (h : Stores m c t) (k : K) : hash k m.size = .ok (Hash.sum k % m.size) := by
  unfold hash
  rw [if_neg (Nat.ne_of_gt h.pos)]

omit [DecidableEq K] in
theorem init_stores {s : ℕ} (hs : s % 2 ^ 32 ≠ 0) :
    Stores (init s : HashMap K V) (fun _ => none) fun _ => none := by
  refine ⟨Nat.pos_of_ne_zero hs, fun _ => LinkedList.empty_holds, ?_, ?_, nofun⟩
  · intro b k v h
    cases h
  · intro k v
    simp

omit [DecidableEq K] in
/-- An absent key whose bucket is taken meets another present key there. -/
theorem Stores.not_free (h : Stores m c t) (hc : c (Hash.sum k % m.size) = some (k', v'))
    (hne : k' ≠ k) : ¬ Free m.size t k := by
  have hhome := h.home _ _ _ hc
  rintro (hp | hall)
  · obtain ⟨v, hv⟩ := Option.isSome_iff_exists.mp hp
    have := (h.table k v).mp hv
    rw [hc] at this
    exact hne (Prod.mk.inj (Option.some.inj this)).1
  · refine hall k' ?_ hhome
    rw [(h.table k' v').mpr (by rw [hhome]; exact hc)]
    rfl

omit [DecidableEq K] in
theorem Stores.absent (h : Stores m c t) (hc : c (Hash.sum k % m.size) = none) : t k = none := by
  rw [Option.eq_none_iff_forall_not_mem]
  intro v hv
  rw [(h.table k v).mp hv] at hc
  cases hc

/-- A bucket gets a new content; the table changes at the key that was in it only. -/
theorem Stores.set (h : Stores m c t) (x : Option V) (hl : l.Holds (x.map (k, ·))) (sp : ℕ → Bool)
    (hold : ∀ k' v', c (Hash.sum k % m.size) = some (k', v') → k' = k)
    (hother : ∀ b, b ≠ Hash.sum k % m.size → sp b = m.spilt b)
    (hsp : sp (Hash.sum k % m.size) = true → x.isSome ∧ Hash.spills k = true) :
    Stores { m with entries := update m.entries (Hash.sum k % m.size) l, spilt := sp }
      (update c (Hash.sum k % m.size) (x.map (k, ·))) (update t k x) := by
  have hkey : ∀ {k' v'}, x.map (k, ·) = some (k', v') → k' = k := by
    intro k' v' hx
    obtain ⟨_, _, heq⟩ := Option.map_eq_some_iff.mp hx
    exact (Prod.mk.inj heq).1.symm
  refine ⟨h.pos, ?_, ?_, ?_, ?_⟩
  case refine_4 =>
    intro b hb
    by_cases hhome : b = Hash.sum k % m.size
    · rw [hhome] at hb
      obtain ⟨hx, hspills⟩ := hsp hb
      obtain ⟨v, rfl⟩ := Option.isSome_iff_exists.mp hx
      simp [hhome, hspills]
    · simpa [update_of_ne hhome] using h.spilt b ((hother b hhome).symm.trans hb)
  · intro b
    by_cases hb : b = Hash.sum k % m.size
    · rw [hb]
      simpa using hl
    · simpa [update_of_ne hb] using h.holds b
  · intro b k' v' hc
    by_cases hb : b = Hash.sum k % m.size
    · rw [hb, update_self] at hc
      rw [hkey hc, hb]
    · rw [update_of_ne hb] at hc
      exact h.home b k' v' hc
  · intro k' v'
    dsimp only
    by_cases hk : k' = k
    · rw [hk, update_self, update_self]
      simp
    · rw [update_of_ne hk, h.table]
      by_cases hb : Hash.sum k' % m.size = Hash.sum k % m.size
      · rw [hb, update_self]
        exact iff_of_false (fun hc => hk (hold k' v' hc)) fun hc => hk (hkey hc)
      · rw [update_of_ne hb]

omit [Hash K] [DecidableEq K] in
theorem link_eq {x : K × V} {i : ℕ} (h : l.Holds (some x)) (hi : l.first = some i) :
    l.links i = some ⟨some i, some i, x, true⟩ := by
  obtain ⟨j, hf, _, _, hj⟩ := h
  rw [hi] at hf
  obtain rfl := Option.some.inj hf
  exact hj

/-- The reference `r` points to the pair of `k` with value `v`. -/
structure RefersTo (m : HashMap K V) (r : Ref) (k : K) (v : V) : Prop where
  bucket : r.bucket = Hash.sum k % m.size
  holds : (m.entries r.bucket).Holds (some (k, v))
  first : (m.entries r.bucket).first = some r.link

omit [DecidableEq K] in
theorem RefersTo.load (h : RefersTo m r k v) : m.load r = .ok v := by
  unfold HashMap.load
  rw [LinkedList.deref_some (link_eq h.holds h.first)]
  rfl

omit [DecidableEq K] in
theorem RefersTo.storeIn_holds (h : RefersTo m r k v) (v' : V) :
    (storeIn (m.entries r.bucket) r.link v').Holds (some (k, v')) := by
  obtain ⟨i, hf, hs, hlt, hi⟩ := h.holds
  have hri : r.link = i := Option.some.inj (h.first.symm.trans hf)
  exact ⟨i, hf, hs, hlt, by simp [storeIn, hri, hi]⟩

theorem Stores.store (h : Stores m c t) (v' : V) (hr : RefersTo m r k v) :
    ∃ c', Stores (m.store r v') c' (update t k (some v')) := by
  have hmatch : ∀ k' u, c (Hash.sum k % m.size) = some (k', u) → k' = k := by
    intro k' u hc
    have hh := h.holds (Hash.sum k % m.size)
    rw [hc, ← hr.bucket] at hh
    have h1 := link_eq hh hr.first
    rw [link_eq hr.holds hr.first] at h1
    injection h1 with h1
    injection h1 with _ _ h1 _
    exact (Prod.mk.inj h1).1.symm
  have hput := h.set (some v') (hr.storeIn_holds v') m.spilt hmatch (fun _ _ => rfl)
    fun hb => ⟨rfl, by
      obtain ⟨⟨k', u⟩, hc, hspills⟩ := Option.any_eq_true _ _ |>.mp (h.spilt _ hb)
      exact hmatch k' u hc ▸ hspills⟩
  rw [HashMap.store]
  nth_rewrite 1 [hr.bucket]
  exact ⟨_, hput⟩

omit [DecidableEq K] in
theorem Stores.mapValues (h : Stores m c t) (f : K → V → V) :
    Stores (m.mapValues f) (fun b => (c b).map fun x => (x.1, f x.1 x.2))
      fun k => (t k).map (f k) := by
  refine ⟨h.pos, fun b => ?_, fun b k v hc => ?_, fun k v => ?_, fun b hb => ?_⟩
  · have hh := h.holds b
    cases hc : c b with
    | none =>
      rw [hc] at hh
      exact hh
    | some x =>
      rw [hc] at hh
      obtain ⟨i, hfirst, hsize, hlt, hlink⟩ := hh
      exact ⟨i, hfirst, hsize, hlt, by simp [HashMap.mapValues, hlink]⟩
  · obtain ⟨⟨k', v'⟩, hx, heq⟩ := Option.map_eq_some_iff.mp hc
    obtain ⟨rfl, -⟩ := Prod.mk.inj heq
    exact h.home b k' v' hx
  · rw [Option.map_eq_some_iff]
    constructor
    · rintro ⟨v', hv', rfl⟩
      exact Option.map_eq_some_iff.mpr ⟨_, (h.table k v').mp hv', rfl⟩
    · intro hc
      obtain ⟨⟨k', v'⟩, hx, heq⟩ := Option.map_eq_some_iff.mp hc
      obtain ⟨rfl, rfl⟩ := Prod.mk.inj heq
      exact ⟨v', (h.table k' v').mpr hx, rfl⟩
  · rw [Option.any_map]
    exact h.spilt b hb

/-! ## One use -/

variable [Inhabited V]

theorem Stores.index_eq (h : Stores m c t) (k : K) (arg : KeyArg) :
    m.index k arg = m.indexIn k arg (Hash.sum k % m.size) := by
  unfold HashMap.index
  rw [h.hash_eq]
  rfl

/-- `operator[]` on a free key. -/
theorem Stores.index_ok (h : Stores m c t) (hfree : Free m.size t k) (arg : KeyArg)
    (harg : t k = none → arg.destroy k = .ok ()) :
    ∃ r m' c', m.index k arg = .ok (r, m') ∧ m'.size = m.size ∧
      Stores m' c' (update t k (some ((t k).getD default))) ∧
      RefersTo m' r k ((t k).getD default) ∧
      m'.spilt = if (t k).isSome then m.spilt
        else update m.spilt (Hash.sum k % m.size) (arg.damages k) := by
  have hh := h.holds (Hash.sum k % m.size)
  rw [h.index_eq, indexIn]
  cases hc : c (Hash.sum k % m.size) with
  | none =>
    rw [hc] at hh
    obtain ⟨l, hpush, hl, hfirst⟩ := hh.pushFront (k, (default : V))
    have hput := h.set (some _) hl (update m.spilt (Hash.sum k % m.size) (arg.damages k))
      (by rw [hc]; simp) (fun b hb => update_of_ne hb _ _) fun hb => ⟨rfl, by
        rw [update_self, KeyArg.damages, Bool.and_eq_true] at hb
        exact hb.1⟩
    rw [if_pos hh.2, hpush, ok_bind, harg (h.absent hc), h.absent hc]
    refine ⟨_, _, _, rfl, rfl, hput, ⟨rfl, ?_, ?_⟩, rfl⟩
    · simpa using hl
    · simpa using hfirst
  | some p =>
    obtain ⟨k', v'⟩ := p
    by_cases hk : k' = k
    · subst hk
      have hv : t k' = some v' := (h.table k' v').mpr hc
      have hsame : update t k' (some v') = t := by rw [← hv, update_eq_self]
      rw [hc] at hh
      have hne : (m.entries (Hash.sum k' % m.size)).size ≠ 0 := by
        rw [Ne, hh.size_eq]
        simp
      obtain ⟨i, hf, _⟩ := id hh
      rw [hv, Option.getD_some, hsame, if_neg hne, hh.find_some, if_pos (by simp), hf]
      exact ⟨_, _, _, rfl, rfl, h, ⟨rfl, hh, hf⟩, rfl⟩
    · exact absurd hfree (h.not_free hc hk)

/-- Where the pair of a present key is. -/
def refOf (m : HashMap K V) (k : K) : Ref :=
  ⟨Hash.sum k % m.size, (m.entries (Hash.sum k % m.size)).first.getD 0⟩

omit [DecidableEq K] [Inhabited V] in
theorem Stores.refersTo (h : Stores m c t) (hv : t k = some v) : RefersTo m (m.refOf k) k v := by
  have hh := h.holds (Hash.sum k % m.size)
  rw [(h.table k v).mp hv] at hh
  obtain ⟨i, hf, _⟩ := id hh
  exact ⟨rfl, hh, by rw [refOf, hf]; rfl⟩

/-- `operator[]` on a present key inserts nothing. -/
theorem Stores.index_present (h : Stores m c t) (hv : t k = some v) (arg : KeyArg) :
    m.index k arg = .ok (m.refOf k, m) := by
  have hr := h.refersTo hv
  have hh : (m.entries (Hash.sum k % m.size)).Holds (some (k, v)) := hr.holds
  have hf : (m.entries (Hash.sum k % m.size)).first = some (m.refOf k).link := hr.first
  have hne : (m.entries (Hash.sum k % m.size)).size ≠ 0 := by
    rw [Ne, hh.size_eq]
    simp
  rw [h.index_eq, indexIn]
  rw [if_neg hne, hh.find_some, if_pos (by simp), hf]
  rfl

omit [Hash K] [DecidableEq K] [Inhabited V] in
theorem holds_unique {x y : Option (K × V)} (hx : l.Holds x) (hy : l.Holds y) : x = y := by
  have hsize : x.isSome = y.isSome := by
    have := hx.size_eq.symm.trans hy.size_eq
    cases x <;> cases y <;> simp_all
  cases x with
  | none => exact (Option.isSome_eq_false_iff.mp hsize.symm |> Option.isNone_iff_eq_none.mp).symm
  | some a =>
    cases y with
    | none => cases hsize
    | some b =>
      obtain ⟨i, hf, _⟩ := id hx
      have hlink := link_eq hx hf
      rw [link_eq hy hf] at hlink
      injection hlink with hlink
      injection hlink with _ _ hdata _
      rw [hdata]

omit [DecidableEq K] [Inhabited V] in
/-- A map stores one table. -/
theorem Stores.table_unique (h : Stores m c t) {c' : ℕ → Option (K × V)} {t' : Table K V}
    (h' : Stores m c' t') : t' = t := by
  funext k
  refine Option.ext fun v => ?_
  show t' k = some v ↔ t k = some v
  rw [h'.table, h.table, holds_unique (h'.holds _) (h.holds _)]

/-! ### Frames: the other buckets stay as they are -/

/-- `m'` differs from `m` in the bucket `b` only. -/
structure OnlyBucket (m m' : HashMap K V) (b : ℕ) : Prop where
  size : m'.size = m.size
  entries : ∀ b', b' ≠ b → m'.entries b' = m.entries b'

omit [DecidableEq K] [Inhabited V] in
theorem OnlyBucket.refOf_eq (h : OnlyBucket m m' b) (hb : Hash.sum k % m.size ≠ b) :
    m'.refOf k = m.refOf k := by
  unfold refOf
  rw [h.size, h.entries _ hb]

omit [DecidableEq K] [Inhabited V] [Hash K] in
theorem OnlyBucket.trans {m₁ m₂ : HashMap K V} (h₁ : OnlyBucket m m₁ b) (h₂ : OnlyBucket m₁ m₂ b) :
    OnlyBucket m m₂ b :=
  ⟨h₂.size.trans h₁.size, fun b' hb => (h₂.entries b' hb).trans (h₁.entries b' hb)⟩

omit [DecidableEq K] in
theorem hash_eq_ok {size : ℕ} (h : hash k size = .ok b) : b = Hash.sum k % size := by
  unfold hash at h
  split at h
  · cases h
  · exact (Except.ok.inj h).symm

theorem index_onlyBucket (h : m.index k arg = .ok (r, m')) :
    OnlyBucket m m' (Hash.sum k % m.size) := by
  obtain ⟨b, hhash, h⟩ := bind_eq_ok.mp h
  obtain rfl := hash_eq_ok hhash
  unfold indexIn at h
  dsimp only at h
  split at h
  · obtain ⟨⟨i, l⟩, _, h⟩ := bind_eq_ok.mp h
    obtain ⟨_, _, h⟩ := bind_eq_ok.mp h
    cases h
    exact ⟨rfl, fun b' hb => update_of_ne hb _ _⟩
  · obtain ⟨i, _, h⟩ := bind_eq_ok.mp h
    split at h
    · cases h
      exact ⟨rfl, fun b' _ => rfl⟩
    · cases h

omit [DecidableEq K] [Inhabited V] [Hash K] in
theorem store_onlyBucket (m : HashMap K V) (r : Ref) (v : V) :
    OnlyBucket m (m.store r v) r.bucket :=
  ⟨rfl, fun _ hb => update_of_ne hb _ _⟩

omit [Inhabited V] in
theorem remove_onlyBucket (h : m.remove k = .ok m') : OnlyBucket m m' (Hash.sum k % m.size) := by
  obtain ⟨b, hhash, h⟩ := bind_eq_ok.mp h
  obtain rfl := hash_eq_ok hhash
  dsimp only at h
  split at h
  · cases h
  · obtain ⟨l, _, h⟩ := bind_eq_ok.mp h
    split at h
    · cases h
    · cases h
      exact ⟨rfl, fun b' hb => update_of_ne hb _ _⟩

omit [DecidableEq K] [Inhabited V] in
/-- An assignment moves no pair. -/
theorem store_refOf (m : HashMap K V) (r : Ref) (v : V) (k : K) :
    (m.store r v).refOf k = m.refOf k := by
  by_cases hb : Hash.sum k % m.size = r.bucket
  · unfold refOf HashMap.store
    dsimp only
    rw [hb, update_self]
    rfl
  · exact (store_onlyBucket m r v).refOf_eq hb

omit [DecidableEq K] [Inhabited V] [Hash K] in
theorem store_store (m : HashMap K V) (r : Ref) (v v' : V) :
    (m.store r v).store r v' = m.store r v' := by
  unfold HashMap.store storeIn
  simp [Function.comp_def]

omit [DecidableEq K] [Inhabited V] [Hash K] in
theorem load_store (h : m.load r = .ok v) : (m.store r v').load r = .ok v' := by
  obtain ⟨x, hx, _⟩ := bind_eq_ok.mp h
  have hlink : (m.entries r.bucket).links r.link = some x := by
    unfold LinkedList.deref at hx
    dsimp only at hx
    split at hx
    · cases hx
      assumption
    · cases hx
  unfold HashMap.load HashMap.store storeIn LinkedList.deref
  simp only [update_self, hlink, Option.map_some]
  rfl

omit [DecidableEq K] [Inhabited V] in
/-- Two present keys, or a present and a free one, have different buckets. -/
theorem Stores.bucket_ne (h : Stores m c t) (hfree : Free m.size t k) (hv' : t k' = some v')
    (hne : k' ≠ k) : Hash.sum k' % m.size ≠ Hash.sum k % m.size := by
  rcases hfree with hp | hall
  · obtain ⟨v, hv⟩ := Option.isSome_iff_exists.mp hp
    intro heq
    have hc := (h.table k v).mp hv
    rw [← heq, (h.table k' v').mp hv'] at hc
    exact hne (Prod.mk.inj (Option.some.inj hc)).1
  · exact hall k' (by rw [hv']; rfl)

/-- `operator[]` on a key whose bucket is taken by another one halts. -/
theorem Stores.index_halts (h : Stores m c t) (hclash : ¬ Free m.size t k) (arg : KeyArg) :
    m.index k arg = .error (.fatal "Nincs ilyen elem!") := by
  have hh := h.holds (Hash.sum k % m.size)
  rw [h.index_eq, indexIn]
  cases hc : c (Hash.sum k % m.size) with
  | none =>
    refine absurd (.inr fun k' hp heq => ?_) hclash
    obtain ⟨v', hv'⟩ := Option.isSome_iff_exists.mp hp
    rw [h.table, heq, hc] at hv'
    cases hv'
  | some p =>
    obtain ⟨k', v'⟩ := p
    have hk : k' ≠ k := by
      rintro rfl
      refine hclash (.inl ?_)
      rw [(h.table k' v').mpr hc]
      rfl
    rw [hc] at hh
    have hne : (m.entries (Hash.sum k % m.size)).size ≠ 0 := by
      rw [Ne, hh.size_eq]
      simp
    rw [if_neg hne, hh.find_some, if_neg (by simpa using hk)]
    rfl

/-- A key that is inserted as a `const K&` is copied twice, and one copy destroyed. -/
theorem Stores.index_spilt (h : Stores m c t) (habsent : t k = none)
    (harg : arg.destroy k ≠ .ok ()) :
    ∃ e, m.index k arg = .error e := by
  by_cases hfree : Free m.size t k
  case neg => exact ⟨_, h.index_halts hfree arg⟩
  case pos =>
    have hh := h.holds (Hash.sum k % m.size)
    rw [h.index_eq, indexIn]
    cases hc : c (Hash.sum k % m.size) with
    | some x =>
      obtain ⟨k', v'⟩ := x
      refine absurd hfree (h.not_free hc fun hk => ?_)
      subst hk
      rw [(h.table k' v').mpr hc] at habsent
      cases habsent
    | none =>
      rw [hc] at hh
      obtain ⟨l, hpush, -⟩ := hh.pushFront (k, (default : V))
      rw [if_pos hh.2, hpush, ok_bind]
      cases hd : arg.destroy k with
      | ok u => exact absurd hd harg
      | error e => exact ⟨e, rfl⟩

omit [Inhabited V] in
theorem Stores.has_eq (h : Stores m c t) (k : K) : m.has k = .ok (t k).isSome := by
  have hh := h.holds (Hash.sum k % m.size)
  unfold HashMap.has
  rw [h.hash_eq]
  show (m.entries (Hash.sum k % m.size)).find _ >>= _ = _
  cases hc : c (Hash.sum k % m.size) with
  | none =>
    rw [hc] at hh
    rw [hh.find_none, h.absent hc]
    rfl
  | some p =>
    obtain ⟨k', v'⟩ := p
    rw [hc] at hh
    obtain ⟨i, hf, _⟩ := id hh
    rw [hh.find_some, hf]
    by_cases hk : k' = k
    · subst hk
      rw [(h.table k' v').mpr hc, if_pos (by simp)]
      rfl
    · have hnone : t k = none := by
        rw [Option.eq_none_iff_forall_not_mem]
        intro v hv
        have := (h.table k v).mp hv
        rw [hc] at this
        exact hk (Prod.mk.inj (Option.some.inj this)).1
      rw [hnone, if_neg (by simpa using hk)]
      rfl

omit [Inhabited V] in
/-- A present key is removed unless its redzone is damaged. -/
theorem Stores.remove_eq (h : Stores m c t) (hp : (t k).isSome = true) :
    ∃ m' c', m.remove k = (if m.spilt (Hash.sum k % m.size) then .error Str.corrupted
        else .ok m') ∧ m'.size = m.size ∧ m'.spilt = m.spilt ∧
      (m.spilt (Hash.sum k % m.size) = false → Stores m' c' (update t k none)) := by
  obtain ⟨v, hv⟩ := Option.isSome_iff_exists.mp hp
  have hc := (h.table k v).mp hv
  have hh := h.holds (Hash.sum k % m.size)
  rw [hc] at hh
  have hne : (m.entries (Hash.sum k % m.size)).size ≠ 0 := by
    rw [Ne, hh.size_eq]
    simp
  obtain ⟨i, hf, _, hlt, _⟩ := id hh
  obtain ⟨l, hrem, hl⟩ := hh.removeLink hf
  obtain ⟨n, hn⟩ := Nat.exists_eq_succ_of_ne_zero (Nat.ne_of_gt (Nat.zero_lt_of_lt hlt))
  have hloop : removeFrom (m.entries (Hash.sum k % m.size)) k (some i) (n + 1) (some i) =
      .ok l := by
    rw [removeFrom, LinkedList.deref_some (link_eq hh hf)]
    show (if k = k then _ else _) = _
    rw [if_pos rfl, hrem]
  have hold : ∀ k' v', c (Hash.sum k % m.size) = some (k', v') → k' = k := by
    intro k' v' hc'
    exact (Prod.mk.inj (Option.some.inj (hc'.symm.trans hc))).1
  refine ⟨_, _, ?_, ?_, ?_, fun hspilt => h.set none hl m.spilt hold (fun _ _ => rfl)
    fun hb => absurd (hspilt.symm.trans hb) Bool.false_ne_true⟩
  case refine_2 => rfl
  case refine_3 => rfl
  unfold HashMap.remove
  rw [h.hash_eq]
  show (if (m.entries (Hash.sum k % m.size)).size = 0 then _ else _) = _
  rw [if_neg hne, hf, hn, hloop]
  rfl

omit [Inhabited V] in
/-- A plain key is never damaged. -/
theorem Stores.remove_ok (h : Stores m c t) (hp : (t k).isSome = true)
    (hplain : Hash.spills k = false) :
    ∃ m' c', m.remove k = .ok m' ∧ m'.size = m.size ∧ Stores m' c' (update t k none) := by
  obtain ⟨v, hv⟩ := Option.isSome_iff_exists.mp hp
  have hspilt : m.spilt (Hash.sum k % m.size) = false := by
    by_contra hne
    have hany := h.spilt _ (Bool.not_eq_false _ ▸ hne)
    rw [(h.table k v).mp hv, Option.any_some, hplain] at hany
    cases hany
  obtain ⟨m', c', heq, hsize, -, hs⟩ := h.remove_eq hp
  rw [hspilt, if_neg Bool.false_ne_true] at heq
  exact ⟨m', c', heq, hsize, hs hspilt⟩

/-- `d` marks the present keys whose redzone is damaged. -/
def Marks (m : HashMap K V) (t : Table K V) (d : K → Bool) : Prop :=
  ∀ k, (t k).isSome = true → m.spilt (Hash.sum k % m.size) = d k

variable {d : K → Bool}

omit [Inhabited V] in
/-- What `operator[]` does to the marks. -/
theorem Stores.index_marks (h : Stores m c t) (hd : Marks m t d) (hfree : Free m.size t k)
    (hsize : m'.size = m.size) (x : Option V) (hspilt : m'.spilt = if (t k).isSome then m.spilt
      else update m.spilt (Hash.sum k % m.size) (arg.damages k)) :
    Marks m' (update t k x) (if (t k).isSome then d else update d k (arg.damages k)) := by
  intro k' hk'
  rw [hspilt, hsize]
  by_cases hk : k' = k
  · subst hk
    split
    case isTrue hp => exact hd k' hp
    case isFalse => rw [update_self, update_self]
  · rw [update_of_ne hk] at hk'
    obtain ⟨v', hv'⟩ := Option.isSome_iff_exists.mp hk'
    split
    case isTrue => exact hd k' hk'
    case isFalse =>
      rw [update_of_ne hk, update_of_ne (h.bucket_ne hfree hv' hk)]
      exact hd k' hk'

theorem Stores.step_ok (h : Stores m c t) (hd : Marks m t d) (hlegal : op.Legal t)
    (hclear : op.Clear m.size t d) :
    ∃ m' c', m.step op = .ok ((Table.step t op).1, m') ∧ m'.size = m.size ∧
      Stores m' c' (Table.step t op).2 ∧ Marks m' (Table.step t op).2 (op.spilt t d) := by
  cases op with
  | get k arg =>
    obtain ⟨r, m', c', hidx, hsize, hs, hr, hspilt⟩ := h.index_ok hclear.1 arg hclear.2
    refine ⟨m', c', ?_, hsize, hs, h.index_marks hd hclear.1 hsize _ hspilt⟩
    rw [HashMap.step, hidx]
    show m'.load r >>= _ = _
    rw [hr.load]
    rfl
  | set k arg v =>
    obtain ⟨r, m', c', hidx, hsize, hs, hr, hspilt⟩ := h.index_ok hclear.1 arg hclear.2
    obtain ⟨c'', hs'⟩ := hs.store v hr
    rw [update_idem] at hs'
    refine ⟨m'.store r v, c'', ?_, hsize, hs', h.index_marks hd hclear.1 hsize _ hspilt⟩
    rw [HashMap.step, hidx]
    rfl
  | has k =>
    refine ⟨m, c, ?_, rfl, h, hd⟩
    rw [HashMap.step, h.has_eq]
    rfl
  | remove k =>
    have hspilt : m.spilt (Hash.sum k % m.size) = false := (hd k hlegal).trans hclear
    obtain ⟨m', c', hrem, hsize, hkeep, hs⟩ := h.remove_eq hlegal
    rw [hspilt, if_neg Bool.false_ne_true] at hrem
    refine ⟨m', c', ?_, hsize, hs hspilt, fun k' hk' => ?_⟩
    · rw [HashMap.step, hrem]
      rfl
    · change (update t k none k').isSome = true at hk'
      have hne : k' ≠ k := by
        rintro rfl
        rw [update_self] at hk'
        cases hk'
      rw [update_of_ne hne] at hk'
      rw [hkeep, hsize]
      exact hd k' hk'

theorem Stores.step_halts (h : Stores m c t) (hd : Marks m t d) (hlegal : op.Legal t)
    (hclash : ¬ op.Clear m.size t d) : ∃ e, m.step op = .error e := by
  have hindex : ∀ {k : K} {arg : KeyArg},
      ¬ (Free m.size t k ∧ (t k = none → arg.destroy k = .ok ())) →
      ∃ e, m.index k arg = .error e := by
    intro k arg hnot
    by_cases hfree : Free m.size t k
    · rw [not_and, Classical.not_imp] at hnot
      exact h.index_spilt (hnot hfree).1 (hnot hfree).2
    · exact ⟨_, h.index_halts hfree arg⟩
  cases op with
  | get k arg | set k arg v =>
    obtain ⟨e, he⟩ := hindex hclash
    exact ⟨e, by rw [HashMap.step, he]; rfl⟩
  | has k => exact absurd trivial hclash
  | remove k =>
    obtain ⟨m', c', hrem, -⟩ := h.remove_eq hlegal
    have hspilt : m.spilt (Hash.sum k % m.size) = true := by
      rw [hd k hlegal]
      exact Bool.not_eq_false _ ▸ hclash
    rw [hspilt, if_pos rfl] at hrem
    exact ⟨_, by rw [HashMap.step, hrem]; rfl⟩

/-! ## Sequences -/

theorem run_cons {a : Answer V} (hstep : m.step op = .ok (a, m')) (ops : List (Op K V)) :
    m.run (op :: ops) = (do let r ← m'.run ops; return (a :: r.1, r.2)) := by
  rw [run, hstep]
  rfl

/-- From any state that stores a table. -/
theorem Stores.run_iff {ops : List (Op K V)} (h : Stores m c t) (hd : Marks m t d)
    (hlegal : Legal t ops) :
    (∃ m', m.run ops = .ok (Table.run t ops, m')) ↔ Clear m.size t d ops := by
  induction ops generalizing m c t d with
  | nil => exact iff_of_true ⟨m, rfl⟩ trivial
  | cons op ops ih =>
    by_cases hclear : op.Clear m.size t d
    · obtain ⟨m', c', hstep, hsize, hs, hd'⟩ := h.step_ok hd hlegal.1 hclear
      have ih' := ih hs hd' hlegal.2
      rw [hsize] at ih'
      rw [Clear, and_iff_right hclear, ← ih', run_cons hstep, Table.run]
      constructor
      · rintro ⟨m'', hrun⟩
        obtain ⟨⟨as, m3⟩, hrest, hret⟩ := bind_eq_ok.mp hrun
        have has : as = Table.run (Table.step t op).2 ops :=
          (List.cons.inj (Prod.mk.inj (Except.ok.inj hret)).1).2
        exact ⟨m3, by rw [hrest, has]⟩
      · rintro ⟨m'', hrest⟩
        exact ⟨m'', by rw [hrest]; rfl⟩
    · refine iff_of_false ?_ fun hc => hclear hc.1
      rintro ⟨m', hrun⟩
      obtain ⟨e, hstep⟩ := h.step_halts hd hlegal.1 hclear
      rw [HashMap.run, hstep] at hrun
      cases hrun

end

/-- Without buckets every use divides by zero. -/
theorem step_no_buckets [Inhabited V] {m : HashMap K V} (hm : m.size = 0) (op : Op K V) :
    m.step op = .error (.exception "divide error") := by
  have hhash : ∀ k : K, hash k m.size = .error (.exception "divide error") := by
    intro k
    unfold hash
    rw [if_pos hm]
  cases op with
  | get k arg => rw [step, index, hhash]; rfl
  | set k arg v => rw [step, index, hhash]; rfl
  | has k => rw [step, has, hhash]; rfl
  | remove k => rw [step, remove, hhash]; rfl

/-- **When a `HashMap` is a map.** A sequence of uses in which only present keys
are removed returns the answers of the finite map if and only if the bucket
count is not a multiple of `2^32`, no key is inserted into the bucket of another
present key, and no key is freed, in a pair that was copied or in a link that is
removed, after its copy wrote behind its block. -/
theorem refines_iff [Inhabited V] (s : ℕ) (ops : List (Op K V))
    (hlegal : Legal (fun _ => none) ops) :
    (∃ m', (init s).run ops = .ok (Table.run (fun _ => none) ops, m')) ↔
      ops = [] ∨ (s % 2 ^ 32 ≠ 0 ∧ Clear (s % 2 ^ 32) (fun _ => none) (fun _ => false) ops) := by
  by_cases hs : s % 2 ^ 32 = 0
  · cases ops with
    | nil => exact iff_of_true ⟨_, rfl⟩ (Or.inl rfl)
    | cons op ops =>
      refine iff_of_false ?_ ?_
      case refine_2 =>
        rintro (hnil | ⟨hne, _⟩)
        · cases hnil
        · exact hne hs
      rintro ⟨m', hrun⟩
      rw [run, step_no_buckets hs] at hrun
      cases hrun
  · rw [(init_stores hs).run_iff (d := fun _ => false) (fun k hk => by cases hk) hlegal]
    constructor
    · intro hclear
      exact Or.inr ⟨hs, hclear⟩
    · rintro (rfl | ⟨_, hclear⟩)
      · trivial
      · exact hclear

/-- The name of `n` letters. -/
def letterKey (n : ℕ) : StringKey := ⟨List.replicate n 97⟩

/-- An assignment, a read, a test and a removal in a map of default size, and a name of 16
letters that is moved in and read. -/
theorem refines_iff_sixteen :
    ∃ m', (init 1024).run [Op.set (letterKey 4) (.lvalue 0) 10, .get (letterKey 4) (.lvalue 0),
      .has (letterKey 1), .remove (letterKey 4), .get (letterKey 16) (.rvalue 0)] =
        .ok ([.done, .value (10 : ℕ), .found false, .done, .value 0], m') := by
  refine (refines_iff 1024 [Op.set (letterKey 4) (.lvalue 0) 10, .get (letterKey 4) (.lvalue 0),
    .has (letterKey 1), .remove (letterKey 4), .get (letterKey 16) (.rvalue 0)] ?_).mpr
      (Or.inr ⟨by decide, ?_⟩)
  · exact ⟨trivial, trivial, trivial, rfl, trivial, trivial⟩
  · refine ⟨⟨Or.inr fun _ h => (by cases h), fun _ => rfl⟩, ⟨Or.inl rfl, nofun⟩, trivial, rfl,
      ⟨Or.inr fun k h => ?_, fun _ => rfl⟩, trivial⟩
    by_cases hk : k = letterKey 4 <;> simp [Table.step, update, hk] at h

/-- The file names `5b` and `ja` share a bucket: the second one halts. A name of 16 letters
halts when it is inserted by reference, and when it is removed after it was moved in. -/
theorem colliding_names_halt :
    ((init 1024).run [Op.set ⟨[53, 98]⟩ (.rvalue 0) 1, .get (⟨[106, 97]⟩ : StringKey) (.rvalue 0)] :
      Except Halt (List (Answer ℕ) × HashMap StringKey ℕ)).toOption.isNone = true ∧
    ((init 1024).run [Op.get (letterKey 16) (.lvalue 0)] :
      Except Halt (List (Answer ℕ) × HashMap StringKey ℕ)).toOption.isNone = true ∧
    ((init 1024).run [Op.get (letterKey 16) (.rvalue 0), .remove (letterKey 16)] :
      Except Halt (List (Answer ℕ) × HashMap StringKey ℕ)).toOption.isNone = true := by
  decide +kernel

end HashMap

end NeptunOS
