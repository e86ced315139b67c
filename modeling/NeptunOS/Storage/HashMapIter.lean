import Mathlib.Data.List.Nodup
import NeptunOS.Storage.HashMap

/-!
# Iterating over a `HashMap`

`HashMap::Iter` walks the buckets and, within a bucket, its links. An iterator is built from
`first` of the bucket it starts at; `end()` starts behind the last bucket, so that it reads
memory that is no bucket. What it reads there is the argument `behind`.

- `Stores.visit`: the iteration visits what the buckets hold, in bucket order.
- `run_stores`: every sequence of uses that returns leaves a map that stores a table.
-/

namespace NeptunOS

namespace HashMap

open Function Stepwise

variable {K V : Type}

/-- `HashMap::Iter`; `vcur` and `vend` are positions in `entries`. -/
structure Iter where
  vcur : ℕ
  vend : ℕ
  lcur : Option ℕ

/-- `vcur->begin()`. -/
def bucketBegin (m : HashMap K V) (behind : Option ℕ) (b : ℕ) : Option ℕ :=
  if b < m.size then (m.entries b).first else behind

/-- The loop of `find_next_valid` with `n` buckets left; `vcur` does not pass `vend`. -/
def findLoop (m : HashMap K V) : ℕ → Iter → Iter
  | 0, it => it
  | n + 1, it =>
    if it.vcur ≠ it.vend ∧ it.lcur = none then
      findLoop m n
        ⟨it.vcur + 1, it.vend,
          if it.vcur + 1 ≠ it.vend then (m.entries (it.vcur + 1)).first else it.lcur⟩
    else it

/-- `find_next_valid()`. -/
def findNextValid (m : HashMap K V) (it : Iter) : Iter := m.findLoop (it.vend - it.vcur) it

/-- `Iter(vstart, vend)`; before `vend` the assignment in its body repeats the first read. -/
def iterAt (m : HashMap K V) (behind : Option ℕ) (vstart vend : ℕ) : Iter :=
  m.findNextValid ⟨vstart, vend, m.bucketBegin behind vstart⟩

/-- `begin()`. -/
def beginIter (m : HashMap K V) (behind : Option ℕ) : Iter := m.iterAt behind 0 m.size

/-- `end()`. -/
def endIter (m : HashMap K V) (behind : Option ℕ) : Iter := m.iterAt behind m.size m.size

/-- `it == o`. -/
def Iter.eq (it o : Iter) : Bool :=
  if it.vcur = o.vcur ∧ o.vcur = o.vend then true
  else decide (it.vcur = o.vcur ∧ it.lcur = o.lcur)

/-- `*it`. -/
def current (m : HashMap K V) (it : Iter) : Except Halt (K × V) := do
  let x ← (m.entries it.vcur).deref it.lcur
  return x.data

/-- `++it`. -/
def next (m : HashMap K V) (it : Iter) : Except Halt Iter := do
  let x ← (m.entries it.vcur).deref it.lcur
  return m.findNextValid { it with lcur := if x.last then none else x.next }

/-- The rounds `for (; it != last; ++it)` and the pairs they see. -/
def visitFrom (m : HashMap K V) (last : Iter) : ℕ → Iter → Except Halt (List (K × V))
  | 0, it => if it.eq last then .ok [] else .error .endless
  | fuel + 1, it =>
    if it.eq last then .ok []
    else do
      let x ← m.current it
      let it ← m.next it
      let xs ← m.visitFrom last fuel it
      return x :: xs

/-- `for (auto& e : m)` in at most `fuel` rounds. -/
def visit (m : HashMap K V) (behind : Option ℕ) (fuel : ℕ) : Except Halt (List (K × V)) :=
  m.visitFrom (m.endIter behind) fuel (m.beginIter behind)

/-- The list has every pair of the table once. -/
structure Lists (t : Table K V) (pairs : List (K × V)) : Prop where
  once : (pairs.map Prod.fst).Nodup
  all : ∀ k v, (k, v) ∈ pairs ↔ t k = some v

/-- The table after a sequence of uses. -/
def Table.after [DecidableEq K] [Inhabited V] (t : Table K V) (ops : List (Op K V)) : Table K V :=
  ops.foldl (fun t op => (Table.step t op).2) t

section

variable {m : HashMap K V} {c : ℕ → Option (K × V)} {t : Table K V}
variable {last : Iter} {l : Option ℕ} {b : ℕ} {m' : HashMap K V} {ops : List (Op K V)}
  {as : List (Answer V)}

theorem endIter_eq (m : HashMap K V) (behind : Option ℕ) :
    m.endIter behind = ⟨m.size, m.size, behind⟩ := by
  unfold endIter iterAt findNextValid bucketBegin
  rw [if_neg (Nat.lt_irrefl _), Nat.sub_self]
  rfl

/-- At the end the link is not compared. -/
theorem visitFrom_end (hcur : last.vcur = m.size) (hend : last.vend = m.size) (fuel : ℕ) :
    m.visitFrom last fuel ⟨m.size, m.size, l⟩ = .ok [] := by
  have heq : Iter.eq ⟨m.size, m.size, l⟩ last = true := by
    unfold Iter.eq
    rw [if_pos ⟨hcur.symm, hcur.trans hend.symm⟩]
  cases fuel <;> rw [visitFrom, if_pos heq]

/-- Before the end the positions differ. -/
theorem Iter.eq_false (hcur : last.vcur = m.size) (hb : b < m.size) :
    Iter.eq ⟨b, m.size, l⟩ last = false := by
  have hne : b ≠ last.vcur := by omega
  unfold Iter.eq
  rw [if_neg (fun h => hne h.1), decide_eq_false (fun h => hne h.1)]

/-- An empty rest of a bucket is skipped. -/
theorem findLoop_none {n : ℕ} (hb : b < m.size) : m.findLoop (n + 1) ⟨b, m.size, none⟩ =
      m.findLoop n ⟨b + 1, m.size, if b + 1 ≠ m.size then (m.entries (b + 1)).first else none⟩ := by
  rw [findLoop, if_pos ⟨Nat.ne_of_lt hb, rfl⟩]

theorem findLoop_some (m : HashMap K V) (b n i : ℕ) :
    m.findLoop n ⟨b, m.size, some i⟩ = ⟨b, m.size, some i⟩ := by
  cases n with
  | zero => rfl
  | succ n =>
    rw [findLoop, if_neg]
    rintro ⟨_, h⟩
    cases h

variable [Hash K]

/-- From the start of bucket `b` on, the iteration sees what the buckets `b` and later hold.
The induction is on the number of buckets left; a bucket is either skipped or its one pair
is seen and the search goes on behind it. -/
theorem Stores.visitFrom (h : Stores m c t) (hcur : last.vcur = m.size) (hend : last.vend = m.size)
    (n : ℕ) :
    ∀ {b : ℕ} {l : Option ℕ}, b + n = m.size → (b < m.size → l = (m.entries b).first) →
      ∀ fuel, n ≤ fuel →
        m.visitFrom last fuel (m.findLoop n ⟨b, m.size, l⟩) =
          .ok ((List.range' b n).filterMap c) := by
  induction n with
  | zero =>
    intro b l hb _ fuel _
    obtain rfl : b = m.size := hb
    exact visitFrom_end hcur hend fuel
  | succ n ih =>
    intro b l hb hl fuel hfuel
    have hlt : b < m.size := by omega
    have hskip : ∀ fuel, n ≤ fuel →
        m.visitFrom last fuel (m.findLoop (n + 1) ⟨b, m.size, none⟩) =
          .ok ((List.range' (b + 1) n).filterMap c) := by
      intro fuel hfuel
      rw [findLoop_none hlt]
      exact ih (by omega) (fun hb => if_pos (Nat.ne_of_lt hb)) fuel hfuel
    have hholds := h.holds b
    rw [List.range'_succ]
    cases hc : c b with
    | none =>
      rw [hc] at hholds
      rw [hl hlt, hholds.1, hskip fuel (by omega), List.filterMap_cons_none hc]
    | some x =>
      rw [hc] at hholds
      obtain ⟨i, hfirst, _, _, hlink⟩ := hholds
      obtain ⟨fuel, rfl⟩ : ∃ f, fuel = f + 1 := ⟨fuel - 1, by omega⟩
      have hderef := LinkedList.deref_some hlink
      have hcurrent : m.current ⟨b, m.size, some i⟩ = .ok x := by
        unfold current
        rw [hderef]
        rfl
      have hnext : m.next ⟨b, m.size, some i⟩ =
          .ok (m.findLoop (n + 1) ⟨b, m.size, none⟩) := by
        have hleft : m.size - b = n + 1 := by omega
        unfold next findNextValid
        rw [hderef, ← hleft]
        rfl
      rw [hl hlt, hfirst, findLoop_some, HashMap.visitFrom, Iter.eq_false hcur hlt, hcurrent,
        List.filterMap_cons_some hc]
      simp only [ok_bind, hnext, hskip fuel (by omega)]
      rfl

/-- The iteration ends and sees what the buckets hold, whatever lies behind them. -/
theorem Stores.visit (h : Stores m c t) (behind : Option ℕ) {fuel : ℕ} (hfuel : m.size ≤ fuel) :
    m.visit behind fuel = .ok ((List.range m.size).filterMap c) := by
  unfold HashMap.visit beginIter iterAt findNextValid
  rw [endIter_eq, List.range_eq_range', Nat.sub_zero]
  refine h.visitFrom rfl rfl m.size (Nat.zero_add _) (fun hlt => ?_) fuel hfuel
  rw [bucketBegin, if_pos hlt]

/-- Each key lives in one bucket. -/
theorem Stores.lists (h : Stores m c t) : Lists t ((List.range m.size).filterMap c) := by
  constructor
  case once =>
    rw [List.map_filterMap]
    refine List.Nodup.filterMap ?_ List.nodup_range
    intro b b' k hb hb'
    obtain ⟨⟨k₁, v₁⟩, hc, rfl⟩ := Option.map_eq_some_iff.mp hb
    obtain ⟨⟨k₂, v₂⟩, hc', hk⟩ := Option.map_eq_some_iff.mp hb'
    obtain rfl : k₂ = k₁ := hk
    rw [← h.home _ _ _ hc, h.home _ _ _ hc']
  case all =>
    intro k v
    rw [List.mem_filterMap, h.table]
    constructor
    · rintro ⟨b, _, hc⟩
      rw [h.home b k v hc]
      exact hc
    · intro hc
      exact ⟨_, List.mem_range.mpr (Nat.mod_lt _ h.pos), hc⟩

variable [DecidableEq K]

/-! ## The maps that can arise -/

theorem Stores.remove_halts (h : Stores m c t) {k : K} (habsent : t k = none) :
    ∃ e, m.remove k = .error e := by
  have hholds := h.holds (Hash.sum k % m.size)
  unfold HashMap.remove
  rw [h.hash_eq, ok_bind]
  cases hc : c (Hash.sum k % m.size) with
  | none =>
    rw [hc] at hholds
    exact ⟨_, if_pos hholds.2⟩
  | some x =>
    obtain ⟨k', v⟩ := x
    have hne : k' ≠ k := by
      rintro rfl
      rw [(h.table k' v).mpr hc] at habsent
      cases habsent
    rw [hc] at hholds
    obtain ⟨i, hfirst, hsize, hlt, hlink⟩ := hholds
    obtain ⟨n, hn⟩ := Nat.exists_eq_succ_of_ne_zero (Nat.ne_of_gt (Nat.zero_lt_of_lt hlt))
    refine ⟨.fatal "Element not found!", ?_⟩
    rw [if_neg (by rw [hsize]; exact Nat.one_ne_zero), hfirst, hn, removeFrom,
      LinkedList.deref_some hlink]
    simp only [ok_bind, if_neg hne, if_true]
    rfl

variable [Inhabited V] {d : K → Bool}

theorem Stores.step_inv (h : Stores m c t) (hd : Marks m t d) {op : Op K V} {a : Answer V}
    (hstep : m.step op = .ok (a, m')) :
    ∃ c', Stores m' c' (Table.step t op).2 ∧ Marks m' (Table.step t op).2 (op.spilt t d) := by
  have hlegal : op.Legal t := by
    cases op with
    | remove k =>
      show (t k).isSome = true
      rw [Option.isSome_iff_ne_none]
      intro habsent
      obtain ⟨e, he⟩ := h.remove_halts habsent
      rw [HashMap.step, he] at hstep
      cases hstep
    | _ => trivial
  have hclear : op.Clear m.size t d := by
    by_contra hclash
    obtain ⟨e, he⟩ := h.step_halts hd hlegal hclash
    rw [he] at hstep
    cases hstep
  obtain ⟨m'', c', hok, _, hs, hd'⟩ := h.step_ok hd hlegal hclear
  rw [hok] at hstep
  obtain rfl := (Prod.mk.inj (Except.ok.inj hstep)).2
  exact ⟨c', hs, hd'⟩

theorem Stores.run_inv (h : Stores m c t) (hd : Marks m t d) (hrun : m.run ops = .ok (as, m')) :
    ∃ c', Stores m' c' (t.after ops) := by
  induction ops generalizing m c t d as with
  | nil =>
    obtain rfl := (Prod.mk.inj (Except.ok.inj hrun)).2
    exact ⟨c, h⟩
  | cons op ops ih =>
    obtain ⟨⟨a, m₁⟩, hstep, hrest⟩ := bind_eq_ok.mp hrun
    obtain ⟨⟨as', m₂⟩, hrun', hret⟩ := bind_eq_ok.mp hrest
    obtain rfl := (Prod.mk.inj (Except.ok.inj hret)).2
    obtain ⟨c₁, hs, hd'⟩ := h.step_inv hd hstep
    exact ih hs hd' hrun'

/-- Every map that uses of `HashMap(s)` lead to stores the table of these uses. -/
theorem run_stores {s : ℕ} (hs : s % 2 ^ 32 ≠ 0) (hrun : (init s).run ops = .ok (as, m)) :
    ∃ c, Stores m c (Table.after (fun _ => none) ops) :=
  (init_stores hs).run_inv (d := fun _ => false) (fun k hk => by cases hk) hrun

end

end HashMap

end NeptunOS
