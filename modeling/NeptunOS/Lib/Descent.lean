import NeptunOS.Lib.Stepwise
import Mathlib.Data.List.Sigma

/-!
# Descents that keep no record of where they have been

A place holds items, an item may lead down to another place, and a walk lists the items of
a place, behind each one what lies below it. Nothing is marked, so that a walk repeats what
can be reached in several ways, and runs on where the descent has no end.

- `walkAll_terminates_iff`: the walks that come to an end.
- `walkAll_count_eq_one_iff`: the items that are listed once.
-/

namespace NeptunOS.Descent

open Stepwise

/-! ## Lists without repetitions as enumerations -/

section Enumeration

variable {α β : Type} {P Q : α → Prop} {l m : List α}

def Enumerates (P : α → Prop) (l : List α) : Prop := l.Nodup ∧ ∀ a, a ∈ l ↔ P a

theorem Enumerates.nil (h : ∀ a, ¬P a) : Enumerates P [] :=
  ⟨List.nodup_nil, fun a => ⟨fun ha => absurd ha List.not_mem_nil, fun ha => absurd ha (h a)⟩⟩

theorem Enumerates.congr (hl : Enumerates P l) (h : ∀ a, P a ↔ Q a) : Enumerates Q l :=
  ⟨hl.1, fun a => (hl.2 a).trans (h a)⟩

theorem Enumerates.append (hl : Enumerates P l) (hm : Enumerates Q m) (h : ∀ a, P a → ¬Q a) :
    Enumerates (fun a => P a ∨ Q a) (l ++ m) := by
  refine ⟨hl.1.append hm.1 fun a hal ham => h a ((hl.2 a).mp hal) ((hm.2 a).mp ham), fun a => ?_⟩
  rw [List.mem_append, hl.2, hm.2]

theorem Enumerates.map {f : α → β} (hf : Function.Injective f) (hl : Enumerates P l) :
    Enumerates (fun b => ∃ a, P a ∧ f a = b) (l.map f) := by
  refine ⟨hl.1.map hf, fun b => ?_⟩
  simp only [List.mem_map, hl.2]

theorem Enumerates.length_eq_one_iff (hl : Enumerates P l) : l.length = 1 ↔ ∃! a, P a := by
  rw [List.length_eq_one_iff]
  constructor
  · rintro ⟨a, rfl⟩
    exact ⟨a, (hl.2 a).mp List.mem_cons_self, fun b hb => List.mem_singleton.mp ((hl.2 b).mpr hb)⟩
  · rintro ⟨a, ha, hunique⟩
    match l, hl with
    | [], hl => exact absurd ((hl.2 a).mpr ha) List.not_mem_nil
    | [b], _ => exact ⟨b, rfl⟩
    | b :: c :: rest, hl =>
      have hb := hunique b ((hl.2 b).mp List.mem_cons_self)
      have hc := hunique c ((hl.2 c).mp (List.mem_cons_of_mem b List.mem_cons_self))
      exact absurd (hb.trans hc.symm) (List.ne_of_not_mem_cons (List.nodup_cons.mp hl.1).1)

end Enumeration

/-! ## Results one after the other -/

section Collect

variable {α β π ε : Type} {f g : α → Except ε (List β)} {as : List α} {l : List β} {a : α}

def collect (f : α → Except ε (List β)) : List α → Except ε (List β)
  | [] => .ok []
  | a :: as => do
    let found ← f a
    let later ← collect f as
    .ok (found ++ later)

theorem collect_cons_ok : collect f (a :: as) = .ok l ↔
    ∃ found later, f a = .ok found ∧ collect f as = .ok later ∧ l = found ++ later := by
  rw [collect, bind_eq_ok]
  constructor
  · rintro ⟨found, hfound, hrest⟩
    obtain ⟨later, hlater, hl⟩ := bind_eq_ok.mp hrest
    exact ⟨found, later, hfound, hlater, (Except.ok.inj hl).symm⟩
  · rintro ⟨found, later, hfound, hlater, rfl⟩
    exact ⟨found, hfound, by rw [hlater, ok_bind]⟩

theorem collect_map {γ : Type} (k : γ → α) (cs : List γ) :
    collect f (cs.map k) = collect (fun c => f (k c)) cs := by
  induction cs with
  | nil => rfl
  | cons c cs ih => rw [List.map_cons, collect, collect, ih]

theorem collect_append (as bs : List α) : collect f (as ++ bs) = (do
    let found ← collect f as
    let later ← collect f bs
    .ok (found ++ later)) := by
  induction as with
  | nil =>
    rw [List.nil_append, collect, ok_bind]
    cases collect f bs <;> rfl
  | cons a as ih =>
    rw [List.cons_append, collect, collect, ih]
    cases f a with
    | error e => rfl
    | ok found =>
      cases collect f as with
      | error e => rfl
      | ok later =>
        cases collect f bs with
        | error e => rfl
        | ok last => simp only [ok_bind, List.append_assoc]

theorem collect_singleton (a : α) : collect f [a] = f a := by
  rw [collect, collect]
  cases f a with
  | error e => rfl
  | ok found => rw [ok_bind, ok_bind, List.append_nil]

theorem collect_flatMap {γ : Type} (k : γ → List α) (cs : List γ) :
    collect f (cs.flatMap k) = collect (fun c => collect f (k c)) cs := by
  induction cs with
  | nil => rfl
  | cons c cs ih => rw [List.flatMap_cons, collect_append, ih, collect]

/-- What finds nothing can be left out, and what is found renamed. -/
theorem collect_filter {γ : Type} {g : α → Except ε (List γ)} {p : α → Bool} {k : γ → β}
    (h : ∀ a, f a = if p a then (g a).map (List.map k) else .ok []) (as : List α) :
    collect f as = (collect g (as.filter p)).map (List.map k) := by
  induction as with
  | nil => rfl
  | cons a as ih =>
    rw [collect, h, ih, List.filter_cons]
    cases p a with
    | false =>
      rw [if_neg Bool.false_ne_true, if_neg Bool.false_ne_true, ok_bind]
      cases collect g (as.filter p) <;> rfl
    | true =>
      rw [if_pos rfl, if_pos rfl, collect]
      cases g a with
      | error e => rfl
      | ok found =>
        cases collect g (as.filter p) with
        | error e => rfl
        | ok later => exact congrArg Except.ok List.map_append.symm

theorem collect_rename {γ : Type} {g : α → Except ε (List γ)} {k : γ → β}
    (h : ∀ a, f a = (g a).map (List.map k)) (as : List α) :
    collect f as = (collect g as).map (List.map k) := by
  rw [@collect_filter _ _ _ f _ g (fun _ => true) k h, List.filter_true]

theorem collect_mono (h : ∀ a l, f a = .ok l → g a = .ok l) (hl : collect f as = .ok l) :
    collect g as = .ok l := by
  induction as generalizing l with
  | nil => exact hl
  | cons a as ih =>
    obtain ⟨found, later, hfound, hlater, rfl⟩ := collect_cons_ok.mp hl
    exact collect_cons_ok.mpr ⟨found, later, h a found hfound, ih hlater, rfl⟩

theorem ok_of_collect (hl : collect f as = .ok l) (ha : a ∈ as) : ∃ found, f a = .ok found := by
  induction as generalizing l with
  | nil => exact absurd ha List.not_mem_nil
  | cons b as ih =>
    obtain ⟨found, later, hfound, hlater, -⟩ := collect_cons_ok.mp hl
    rcases List.mem_cons.mp ha with rfl | ha
    · exact ⟨found, hfound⟩
    · exact ih hlater ha

/-- Enough fuel for each is enough for all. -/
theorem exists_collect {F : ℕ → α → Except ε (List β)}
    (hmono : ∀ {m n : ℕ}, m ≤ n → ∀ a l, F m a = .ok l → F n a = .ok l)
    (h : ∀ a ∈ as, ∃ n l, F n a = .ok l) : ∃ n l, collect (F n) as = .ok l := by
  induction as with
  | nil => exact ⟨0, [], rfl⟩
  | cons a as ih =>
    obtain ⟨m, found, hfound⟩ := h a List.mem_cons_self
    obtain ⟨n, later, hlater⟩ := ih fun b hb => h b (List.mem_cons_of_mem a hb)
    exact ⟨max m n, _, collect_cons_ok.mpr ⟨found, later,
      hmono (Nat.le_max_left m n) a found hfound,
      collect_mono (hmono (Nat.le_max_right m n)) hlater, rfl⟩⟩

/-- Where the parts enumerate the ways to `b`, so does the whole. -/
theorem collect_enumerates [DecidableEq β] {b : β} {P : α → π → Prop} (hnodup : as.Nodup)
    (h : ∀ a ∈ as, ∀ l, f a = .ok l → ∃ ps, Enumerates (P a) ps ∧ l.count b = ps.length)
    (hl : collect f as = .ok l) :
    ∃ ps, Enumerates (fun x : α × π => x.1 ∈ as ∧ P x.1 x.2) ps ∧ l.count b = ps.length := by
  induction as generalizing l with
  | nil =>
    cases hl
    exact ⟨[], .nil fun x hx => absurd hx.1 List.not_mem_nil, rfl⟩
  | cons a as ih =>
    obtain ⟨found, later, hfound, hlater, rfl⟩ := collect_cons_ok.mp hl
    obtain ⟨hfresh, hnodup⟩ := List.nodup_cons.mp hnodup
    obtain ⟨ps, hps, hcount⟩ := h a List.mem_cons_self found hfound
    obtain ⟨qs, hqs, hcounts⟩ := ih hnodup (fun c hc => h c (List.mem_cons_of_mem a hc)) hlater
    have hmap := hps.map (f := Prod.mk a) fun p q h => (Prod.mk.inj h).2
    refine ⟨_, (hmap.append hqs ?_).congr ?_, ?_⟩
    · rintro _ ⟨p, -, rfl⟩ ⟨ha, -⟩
      exact hfresh ha
    · rintro ⟨c, p⟩
      constructor
      · rintro (⟨q, hq, heq⟩ | ⟨hc, hp⟩)
        · cases heq
          exact ⟨List.mem_cons_self, hq⟩
        · exact ⟨List.mem_cons_of_mem a hc, hp⟩
      · rintro ⟨hc, hp⟩
        rcases List.mem_cons.mp hc with hc | hc
        · cases hc
          exact .inl ⟨p, hp, rfl⟩
        · exact .inr ⟨hc, hp⟩
    · rw [List.count_append, hcount, hcounts, List.length_append, List.length_map]

end Collect

/-! ## The walk -/

section Walk

variable {V I ε : Type} (items : V → List I) (down : I → Option V) (stop : ε)

/-- An item, and behind it what `below` finds. -/
def walkItem (below : V → Except ε (List I)) (i : I) : Except ε (List I) := do
  let found ← (down i).elim (.ok []) below
  .ok (i :: found)

/-- The walk, for descents of less than `fuel` places. -/
def walk : ℕ → V → Except ε (List I)
  | 0, _ => .error stop
  | fuel + 1, v => collect (walkItem down (walk fuel)) (items v)

/-- Walks one after the other. -/
def walkAll (fuel : ℕ) (vs : List V) : Except ε (List I) :=
  collect (walk items down stop fuel) vs

/-- An item of `v` leads down to `w`. -/
def Below (w v : V) : Prop := ∃ i ∈ items v, down i = some w

/-- The items that lead from `v` down to `i`, which is the last of them. -/
inductive Route : V → List I → I → Prop
  | here {v : V} {i : I} (h : i ∈ items v) : Route v [i] i
  | deeper {v w : V} {p : List I} {i j : I} (hj : j ∈ items v) (hdown : down j = some w)
      (h : Route w p i) : Route v (j :: p) i

variable {items down stop} {below below' : V → Except ε (List I)} {l p : List I} {i j : I}
  {v w : V} {vs : List V} {fuel fuel' : ℕ}

theorem walkItem_ok : walkItem down below i = .ok l ↔
    ∃ found, (down i).elim (.ok []) below = .ok found ∧ l = i :: found := by
  rw [walkItem, bind_eq_ok]
  constructor
  · rintro ⟨found, hfound, hl⟩
    exact ⟨found, hfound, (Except.ok.inj hl).symm⟩
  · rintro ⟨found, hfound, rfl⟩
    exact ⟨found, hfound, rfl⟩

theorem walkItem_mono (h : ∀ w l, below w = .ok l → below' w = .ok l)
    (hl : walkItem down below i = .ok l) : walkItem down below' i = .ok l := by
  obtain ⟨found, hfound, rfl⟩ := walkItem_ok.mp hl
  refine walkItem_ok.mpr ⟨found, ?_, rfl⟩
  cases hdown : down i with
  | none => rwa [hdown] at hfound
  | some w =>
    rw [hdown] at hfound
    exact h w found hfound

theorem walk_mono (hle : fuel ≤ fuel') (v : V) (l : List I)
    (hl : walk items down stop fuel v = .ok l) : walk items down stop fuel' v = .ok l := by
  induction fuel generalizing fuel' v l with
  | zero => cases hl
  | succ fuel ih =>
    obtain ⟨f, rfl⟩ := Nat.exists_eq_add_of_le' (Nat.le_trans (Nat.le_add_left 1 fuel) hle)
    exact collect_mono (fun i l => walkItem_mono (ih (Nat.le_of_succ_le_succ hle))) hl

/-- A walk comes to an end exactly where no descent is endless. -/
theorem walk_terminates_iff :
    (∃ fuel l, walk items down stop fuel v = .ok l) ↔ Acc (Below items down) v := by
  constructor
  · rintro ⟨fuel, l, hl⟩
    induction fuel generalizing v l with
    | zero => cases hl
    | succ fuel ih =>
      refine Acc.intro v ?_
      rintro w ⟨i, hi, hdown⟩
      obtain ⟨found, hfound⟩ := ok_of_collect hl hi
      obtain ⟨below, hbelow, -⟩ := walkItem_ok.mp hfound
      rw [hdown] at hbelow
      exact ih below hbelow
  · intro hacc
    induction hacc with
    | intro v _ ih =>
      have hitem : ∀ i ∈ items v,
          ∃ fuel l, walkItem down (walk items down stop fuel) i = .ok l := by
        intro i hi
        cases hdown : down i with
        | none => exact ⟨0, _, walkItem_ok.mpr ⟨[], by rw [hdown]; rfl, rfl⟩⟩
        | some w =>
          obtain ⟨fuel, found, hfound⟩ := ih w ⟨i, hi, hdown⟩
          exact ⟨fuel, _, walkItem_ok.mpr ⟨found, by rw [hdown]; exact hfound, rfl⟩⟩
      have hmono : ∀ {m n : ℕ}, m ≤ n → ∀ i l, walkItem down (walk items down stop m) i = .ok l →
          walkItem down (walk items down stop n) i = .ok l :=
        fun hle _ _ => walkItem_mono (walk_mono hle)
      obtain ⟨fuel, l, hl⟩ := exists_collect hmono hitem
      exact ⟨fuel + 1, l, hl⟩

theorem walkAll_terminates_iff : (∃ fuel l, walkAll items down stop fuel vs = .ok l) ↔
      ∀ v ∈ vs, Acc (Below items down) v := by
  constructor
  · rintro ⟨fuel, l, hl⟩ v hv
    obtain ⟨found, hfound⟩ := ok_of_collect hl hv
    exact walk_terminates_iff.mp ⟨fuel, found, hfound⟩
  · exact fun h => exists_collect walk_mono fun v hv => walk_terminates_iff.mpr (h v hv)

/-! ## How often an item is listed -/

theorem Route.ne_nil (h : Route items down v p i) : p ≠ [] := by
  cases h <;> exact List.cons_ne_nil _ _

theorem route_cons_iff : Route items down v (j :: p) i ↔
    j ∈ items v ∧ (j = i ∧ p = [] ∨ ∃ w, down j = some w ∧ Route items down w p i) := by
  constructor
  · intro h
    cases h with
    | here hi => exact ⟨hi, .inl ⟨rfl, rfl⟩⟩
    | deeper hj hdown h => exact ⟨hj, .inr ⟨_, hdown, h⟩⟩
  · rintro ⟨hj, ⟨rfl, rfl⟩ | ⟨w, hdown, h⟩⟩
    · exact .here hj
    · exact .deeper hj hdown h

variable [DecidableEq I]

theorem walkItem_enumerates (hbelow : ∀ w l, below w = .ok l →
      ∃ ps, Enumerates (fun p => Route items down w p i) ps ∧ l.count i = ps.length)
    (hl : walkItem down below j = .ok l) :
    ∃ ps, Enumerates (fun p => j = i ∧ p = [] ∨ ∃ w, down j = some w ∧ Route items down w p i) ps ∧
      l.count i = ps.length := by
  obtain ⟨found, hfound, rfl⟩ := walkItem_ok.mp hl
  have hhere : ∃ ps : List (List I), Enumerates (fun p => j = i ∧ p = []) ps ∧
      [j].count i = ps.length := by
    by_cases hj : j = i
    · refine ⟨[[]], ⟨List.nodup_singleton _, fun p => ?_⟩, ?_⟩
      · exact List.mem_singleton.trans (and_iff_right hj).symm
      · rw [hj, List.count_singleton_self, List.length_singleton]
    · refine ⟨[], .nil fun p hp => hj hp.1, ?_⟩
      exact List.count_eq_zero_of_not_mem fun hi => hj (List.mem_singleton.mp hi).symm
  have hdeeper : ∃ ps, Enumerates (fun p => ∃ w, down j = some w ∧ Route items down w p i) ps ∧
      found.count i = ps.length := by
    cases hdown : down j with
    | none =>
      rw [hdown] at hfound
      cases hfound
      refine ⟨[], .nil ?_, rfl⟩
      rintro p ⟨w, hw, -⟩
      cases hw
    | some w =>
      rw [hdown] at hfound
      obtain ⟨ps, hps, hcount⟩ := hbelow w found hfound
      refine ⟨ps, hps.congr fun p => ⟨fun h => ⟨w, rfl, h⟩, ?_⟩, hcount⟩
      rintro ⟨w', hw', h⟩
      rwa [Option.some.inj hw']
  obtain ⟨ps, hps, hcount⟩ := hhere
  obtain ⟨qs, hqs, hcounts⟩ := hdeeper
  refine ⟨ps ++ qs, hps.append hqs ?_, ?_⟩
  · rintro p ⟨-, rfl⟩ ⟨w, -, h⟩
    exact h.ne_nil rfl
  · rw [List.length_append, ← hcount, ← hcounts, ← List.count_append, List.singleton_append]

/-- An item is listed once for each route to it. -/
theorem walk_enumerates (hitems : ∀ v, (items v).Nodup) (hl : walk items down stop fuel v = .ok l) :
    ∃ ps, Enumerates (fun p => Route items down v p i) ps ∧ l.count i = ps.length := by
  induction fuel generalizing v l with
  | zero => cases hl
  | succ fuel ih =>
    obtain ⟨ps, hps, hcount⟩ := collect_enumerates (hitems v)
      (fun j _ l => walkItem_enumerates fun w l => ih) hl
    have hcons : Function.Injective fun x : I × List I => x.1 :: x.2 := by
      rintro ⟨a, p⟩ ⟨b, q⟩ h
      cases h
      rfl
    refine ⟨_, (hps.map hcons).congr fun p => ?_, by rw [List.length_map, hcount]⟩
    constructor
    · rintro ⟨⟨j, q⟩, h, rfl⟩
      exact route_cons_iff.mpr h
    · intro h
      obtain ⟨j, q, rfl⟩ := List.exists_cons_of_ne_nil h.ne_nil
      exact ⟨(j, q), route_cons_iff.mp h, rfl⟩

/-- An item is listed once exactly where there is a single way to it, from a single one of
the walks. -/
theorem walkAll_count_eq_one_iff (hitems : ∀ v, (items v).Nodup)
    (hl : walkAll items down stop fuel vs = .ok l) :
    l.count i = 1 ↔
      ∃! x : (V × ℕ) × List I, x.1 ∈ vs.zipIdx ∧ Route items down x.1.1 x.2 i := by
  have hzip : collect (fun x : V × ℕ => walk items down stop fuel x.1) vs.zipIdx = .ok l := by
    rw [← collect_map Prod.fst, List.zipIdx_map_fst]
    exact hl
  obtain ⟨ps, hps, hcount⟩ := collect_enumerates (b := i) (List.nodup_zipIdx_map_snd vs).of_map
    (fun x _ l => walk_enumerates hitems) hzip
  rw [hcount]
  exact hps.length_eq_one_iff

end Walk

end NeptunOS.Descent
