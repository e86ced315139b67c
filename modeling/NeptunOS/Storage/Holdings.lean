import NeptunOS.Storage.Objects

/-!
# The blocks of an object

`Obj.blocks` are the blocks that a live object refers to. Each special member of a
container is a triple between the blocks of its operands and those of its results:
whoever holds the former may call it and holds the latter afterwards. The triples have
conditions, one for each place where the source loses a block or gives one to two
objects.
-/

namespace NeptunOS.Objects

open Accounts

open Finset (range)

/-- The block behind a pointer. -/
def held : Option ℕ → Multiset ℕ
  | none => 0
  | some b => {b}

/-- The blocks of a live object. -/
def Obj.blocks : Obj → Multiset ℕ
  | .pod => 0
  | .string d _ _ => held d
  | .vector _ d n cells _ => held d + ∑ i ∈ range n, (cells i).blocks
  | .inactive => 0
  | .active _ o => o.blocks
  | .pair a b => a.blocks + b.blocks

/-- Without a block there are no elements. -/
def Obj.Sound : Obj → Prop
  | .pod => True
  | .string d n _ => d = none → n = 0
  | .vector _ d n cells _ => (d = none → n = 0) ∧ ∀ i < n, (cells i).Sound
  | .inactive => True
  | .active _ o => o.Sound
  | .pair a b => a.Sound ∧ b.Sound

/-- The blocks `q` are those of the live object `o`. -/
def Whole (o : Obj) (q : Multiset ℕ) : Prop := q = o.blocks ∧ o.Sound

/-! ## Conditions -/

/-- A `variant` is copied byte by byte, so what is in it must not own a block. -/
def Obj.Copyable : Obj → Prop
  | .vector _ _ n cells _ => ∀ i < n, (cells i).Copyable
  | .active _ o => o.blocks = 0
  | .pair a b => a.Copyable ∧ b.Copyable
  | _ => True

/-- The same for a move, which leaves the elements of a vector where they are. -/
def Obj.Movable : Obj → Prop
  | .active _ o => o.blocks = 0
  | .pair a b => a.Movable ∧ b.Movable
  | _ => True

/-- A string without characters but with capacity is moved to a new block also when it
has been destroyed. -/
def Obj.Quiet : Obj → Prop
  | .string _ n c => n = 0 → c = 0
  | .pair a b => a.Quiet ∧ b.Quiet
  | _ => True

/-- `reserve(cap)` does not move the elements. -/
def World.Keeps (w : World) (t : Ty) (d : Option ℕ) (n cap : ℕ) : Prop :=
  ∀ b, d = some b → w.inPlace b ((if cap < n then n else cap) * t.sizeof % 2 ^ 64) = true

/-- The condition on `y` in `y = x`. The elements of a vector are destroyed first and
moved then; what is in a `variant` is overwritten. -/
def Assignable (w : World) : Obj → Obj → Prop
  | .vector t d n cells _, .vector _ _ _ _ c' => w.Keeps t d n c' ∨ ∀ i < n, (cells i).Quiet
  | .active _ o, _ => o.blocks = 0
  | .pair a b, .pair a' b' => Assignable w a a' ∧ Assignable w b b'
  | _, _ => True

/-- The condition on `y` in `y = move(x)`: a vector forgets its block. -/
def Obj.Discardable : Obj → Prop
  | .vector _ d _ _ _ => d = none
  | .active _ o => o.blocks = 0
  | .pair a b => a.Discardable ∧ b.Discardable
  | _ => True

/-- The condition of `x = x`. -/
def Obj.SelfAssignable (w : World) : Obj → Prop
  | .vector t d n cells c => w.Keeps t d n c ∨ ∀ i < n, (cells i).Quiet
  | .pair a b => a.SelfAssignable w ∧ b.SelfAssignable w
  | _ => True

/-- The condition of `x = move(x)`. -/
def Obj.SelfMoveAssignable : Obj → Prop
  | .vector _ d _ _ _ => d = none
  | .pair a b => a.SelfMoveAssignable ∧ b.SelfMoveAssignable
  | _ => True

/-- The condition of `reserve(cap)` and `resize(cap)`. -/
def Obj.Reservable (w : World) (cap : ℕ) : Obj → Prop
  | .vector t d n cells _ => w.Keeps t d n cap ∨ ∀ i < n, (cells i).Movable
  | _ => True

/-- The condition of `push_back` and `emplace_back`. -/
def Obj.Growable (w : World) : Obj → Prop
  | .vector t d n cells c =>
    n < c ∨ w.Keeps t d n (growfun c) ∨ ∀ i < n, (cells i).Movable
  | _ => True

/-- One more element fits into the block. -/
def Obj.HasRoom : Obj → Prop
  | .vector _ _ n _ c => n < c
  | _ => True

/-- The condition of `operator+=`, which assigns to a cell that was never constructed. -/
def Obj.Appendable (w : World) : Obj → Prop
  | .vector t d n cells _ =>
    (∃ size, t = .pod size) ∧ (w.Keeps t d n (wadd n 1) ∨ ∀ i < n, (cells i).Movable)
  | _ => True

/-- The condition of `pop`, which does not destroy. -/
def Obj.Poppable : Obj → Prop
  | .vector _ _ n cells _ => ∀ i, n = i + 1 → (cells i).blocks = 0
  | _ => True

/-- The condition of `swap_remove`, which reads the cell behind the last. -/
def Obj.Swappable : Obj → Prop
  | .vector t _ n cells _ => (∃ size, t = .pod size) ∧ ∀ i < n, (cells i).blocks = 0
  | _ => True

/-! ## Blocks -/

theorem galloc_turns (n : ℕ) : Turns 0 (galloc n) fun d q => q = held d ∧ (d = none ↔ n = 0) := by
  unfold galloc
  split
  case isTrue h => exact .pure ⟨rfl, iff_of_true rfl h⟩
  case isFalse h =>
    exact Turns.take.bind fun b q hq => .pure ⟨hq, iff_of_false (Option.some_ne_none b) h⟩

theorem gfree_turns (d : Option ℕ) : Turns (held d) (gfree d) fun _ q => q = 0 := by
  cases d with
  | none => exact .pure rfl
  | some b =>
    show Turns {b} (release b) _
    rw [← Multiset.cons_zero]
    exact Turns.release b

variable {n : ℕ} {o y x : Obj}

theorem sum_blocks_eq_zero {cells : ℕ → Obj} (h : ∀ i < n, (cells i).blocks = 0) :
    ∑ i ∈ range n, (cells i).blocks = 0 :=
  Finset.sum_eq_zero fun i hi => h i (Finset.mem_range.mp hi)

theorem blocks_init (t : Ty) : t.init.blocks = 0 := by
  induction t with
  | pod | string | vector | variant => rfl
  | pair _ a b iha ihb =>
    show a.init.blocks + b.init.blocks = 0
    rw [iha, ihb, add_zero]

theorem sound_init (t : Ty) : t.init.Sound := by
  induction t with
  | pod | variant => trivial
  | string => exact fun _ => rfl
  | vector => exact ⟨fun _ => rfl, fun i hi => absurd hi (Nat.not_lt_zero i)⟩
  | pair _ a b iha ihb => exact ⟨iha, ihb⟩

theorem whole_empty (t : Ty) (d : Option ℕ) (cells : ℕ → Obj) (c : ℕ) :
    Whole (.vector t d 0 cells c) (held d) :=
  ⟨(add_zero _).symm, fun _ => rfl, fun i hi => absurd hi (Nat.not_lt_zero i)⟩

theorem Obj.Copyable.movable (h : o.Copyable) : o.Movable := by
  induction o with
  | pod | string | vector | inactive => trivial
  | active => exact h
  | pair a b iha ihb => exact ⟨iha h.1, ihb h.2⟩

/-! ## Destruction -/

/-- Bytes of an object that has been destroyed. -/
def Obj.Dead : Obj → Prop
  | .pod => True
  | .string d _ _ => d = none
  | .vector _ d n cells _ => d = none ∧ ∀ i < n, (cells i).Dead
  | .inactive => True
  | .active _ _ => False
  | .pair a b => a.Dead ∧ b.Dead

theorem Obj.Dead.blocks (h : o.Dead) : o.blocks = 0 := by
  induction o with
  | pod | inactive => rfl
  | string d =>
    obtain rfl : d = none := h
    rfl
  | vector t d n cells c ih =>
    obtain ⟨rfl, hcells⟩ := h
    show 0 + ∑ i ∈ range n, (cells i).blocks = 0
    rw [sum_blocks_eq_zero fun i hi => ih i (hcells i hi), add_zero]
  | active => exact h.elim
  | pair a b iha ihb =>
    show a.blocks + b.blocks = 0
    rw [iha h.1, ihb h.2, add_zero]

/-- The destructor gives back all blocks. -/
theorem destroy_turns (o : Obj) : Turns o.blocks (destroy o) fun o' q =>
    q = 0 ∧ o'.Dead ∧ (o.Quiet → o'.Quiet) := by
  induction o with
  | pod => exact .pure ⟨rfl, trivial, id⟩
  | string d n c => exact (gfree_turns d).bind fun _ q hq => .pure ⟨hq, rfl, id⟩
  | vector t d n cells c ih =>
    have hcells := Turns.fill (g := fun _ _ => 0) (R := fun _ o => o.Dead) (n := n)
      (fun i _ => (ih i).mono fun o' q h => ⟨h.1, h.2.1⟩) cells
    refine hcells.part (held d) (add_comm _ _) fun cells' q hq => ?_
    obtain ⟨rfl, hdead⟩ := hq
    rw [Finset.sum_const_zero, zero_add]
    exact (gfree_turns d).bind fun _ q hq => .pure ⟨hq, ⟨rfl, hdead⟩, id⟩
  | inactive => exact .pure ⟨rfl, trivial, id⟩
  | active i o ih => exact ih.bind fun _ q hq => .pure ⟨hq.1, trivial, id⟩
  | pair a b iha ihb =>
    refine ihb.part a.blocks (add_comm _ _) fun b' q hb => ?_
    obtain ⟨rfl, hb, hqb⟩ := hb
    rw [zero_add]
    refine iha.bind fun a' q ha => .pure ?_
    obtain ⟨rfl, ha, hqa⟩ := ha
    exact ⟨rfl, ⟨ha, hb⟩, fun h => ⟨hqa h.1, hqb h.2⟩⟩

theorem destroyCells_turns (n : ℕ) (cells c : ℕ → Obj) :
    Turns (∑ i ∈ range n, (cells i).blocks) (fill (fun i => destroy (cells i)) n c) fun c' q =>
      q = 0 ∧ ∀ i < n, (c' i).Dead ∧ ((cells i).Quiet → (c' i).Quiet) := by
  have hcells := Turns.fill (g := fun _ _ => 0)
    (R := fun i o => o.Dead ∧ ((cells i).Quiet → o.Quiet)) (n := n)
    (fun i _ => destroy_turns (cells i)) c
  refine hcells.mono fun c' q hq => ⟨?_, hq.2⟩
  rw [hq.1, Finset.sum_const_zero]

/-! ## Copies and moves -/

theorem copyCells_turns {cp : ℕ → Own Obj} {src data : Option ℕ} {P : Obj → Prop}
    (h : ∀ i < n, Turns 0 (cp i) fun o q => Whole o q ∧ P o) (c : ℕ → Obj) :
    Turns 0 (copyCells cp src n data c) fun c' q => q = ∑ i ∈ range n, (c' i).blocks ∧
      (data = none → n = 0) ∧ ∀ i < n, (c' i).Sound ∧ P (c' i) := by
  unfold copyCells
  split
  case isTrue hn =>
    subst hn
    exact .pure ⟨rfl, fun _ => rfl, fun i hi => absurd hi (Nat.not_lt_zero i)⟩
  case isFalse =>
    split
    case isTrue => exact .fail _
    case isFalse =>
      split
      case isTrue => exact .fail _
      case isFalse hdata =>
        have hcells := Turns.fill (p := fun _ => 0) (g := fun _ o => o.blocks)
          (R := fun _ o => o.Sound ∧ P o)
          (fun i hi => (h i hi).mono fun o q ho => ⟨ho.1.1, ho.1.2, ho.2⟩) c
        rw [Finset.sum_const_zero] at hcells
        exact hcells.mono fun c' q hq => ⟨hq.1, fun hnone => absurd hnone hdata, hq.2⟩

theorem copy_turns (w : World) (hs : o.Sound) (hc : o.Copyable) :
    Turns 0 (copy w o) fun o' q => Whole o' q ∧ o'.Copyable := by
  induction o with
  | pod => exact .pure ⟨⟨rfl, trivial⟩, trivial⟩
  | string d n c =>
    unfold copy
    split
    case isTrue => exact .pure ⟨⟨rfl, fun _ => rfl⟩, trivial⟩
    case isFalse hn =>
      refine (galloc_turns n).bind fun r q hr => ?_
      split
      case isTrue => exact .fail _
      case isFalse => exact .pure ⟨⟨hr.1, hr.2.mp⟩, trivial⟩
  | vector t d n cells c ih =>
    refine (galloc_turns (c * t.sizeof % 2 ^ 64)).bind fun r q hr => ?_
    obtain ⟨rfl, -⟩ := hr
    rw [← zero_add (held r)]
    refine (copyCells_turns (fun i hi => ih i (hs.2 i hi) (hc i hi)) _).seq fun c' q hq => ?_
    obtain ⟨rfl, hdata, hcells⟩ := hq
    exact .pure ⟨⟨add_comm _ _, hdata, fun i hi => (hcells i hi).1⟩, fun i hi => (hcells i hi).2⟩
  | inactive => exact .pure ⟨⟨rfl, trivial⟩, trivial⟩
  | active i o => exact .pure ⟨⟨hc.symm, hs⟩, hc⟩
  | pair a b iha ihb =>
    refine (iha hs.1 hc.1).bind fun a' q ha => ?_
    obtain ⟨⟨rfl, hsa⟩, hca⟩ := ha
    rw [← zero_add a'.blocks]
    refine (ihb hs.2 hc.2).seq fun b' q hb => .pure ?_
    obtain ⟨⟨rfl, hsb⟩, hcb⟩ := hb
    exact ⟨⟨add_comm _ _, hsa, hsb⟩, hca, hcb⟩

theorem moveFrom_turns (hs : o.Sound) (hm : o.Movable) :
    Turns o.blocks (moveFrom o) fun r q => q = r.1.blocks + r.2.blocks ∧ r.1.Sound ∧
      r.2.Sound ∧ (o.Copyable → r.1.Copyable) := by
  induction o with
  | pod => exact .pure ⟨rfl, trivial, trivial, id⟩
  | string d n c =>
    refine (galloc_turns c).part (held d) (zero_add _).symm fun r q hr => ?_
    obtain ⟨rfl, -⟩ := hr
    have hpod : ∀ i < n, Turns 0 (pure .pod : Own Obj) fun o q => Whole o q ∧ o = .pod :=
      fun _ _ => .pure ⟨⟨rfl, trivial⟩, rfl⟩
    refine (copyCells_turns hpod fun _ => .pod).part _ (zero_add _).symm fun c' q hq => .pure ?_
    obtain ⟨rfl, hdata, hcells⟩ := hq
    refine ⟨?_, hdata, hs, id⟩
    rw [sum_blocks_eq_zero fun i hi => by rw [(hcells i hi).2]; rfl, zero_add]
    rfl
  | vector t d n cells c =>
    exact .pure ⟨(add_zero _).symm, hs,
      ⟨fun _ => rfl, fun i hi => absurd hi (Nat.not_lt_zero i)⟩, id⟩
  | inactive => exact .pure ⟨rfl, trivial, trivial, id⟩
  | active i o =>
    refine .pure ⟨?_, hs, hs, id⟩
    show o.blocks = o.blocks + o.blocks
    rw [show o.blocks = 0 from hm, add_zero]
  | pair a b iha ihb =>
    refine (iha hs.1 hm.1).seq fun x q hx => ?_
    obtain ⟨rfl, hx₁, hx₂, hxc⟩ := hx
    refine (ihb hs.2 hm.2).part _ (add_comm _ _) fun y q hy => .pure ?_
    obtain ⟨rfl, hy₁, hy₂, hyc⟩ := hy
    refine ⟨?_, ⟨hx₁, hy₁⟩, ⟨hx₂, hy₂⟩, fun h => ⟨hxc h.1, hyc h.2⟩⟩
    show _ = x.1.blocks + y.1.blocks + (x.2.blocks + y.2.blocks)
    abel

/-! ## `reserve` -/

/-- An object that can be moved, with `R` of the new one. -/
def Moves (R : Obj → Prop) (o : Obj) : Prop :=
  Turns o.blocks (moveFrom o) fun r q => q = r.1.blocks + r.2.blocks ∧ R r.1

theorem moves_live (hs : o.Sound) (hm : o.Movable) : Moves Obj.Sound o :=
  (moveFrom_turns hs hm).mono fun _ _ h => ⟨h.1, h.2.1⟩

theorem moves_copyable (h : o.Sound ∧ o.Copyable) : Moves (fun o => o.Sound ∧ o.Copyable) o :=
  (moveFrom_turns h.1 h.2.movable).mono fun _ _ hr => ⟨hr.1, hr.2.1, hr.2.2.2 h.2⟩

/-- What is left of an object can be moved without a new block. -/
theorem Obj.Dead.moves (h : o.Dead) (hq : o.Quiet) : Moves Obj.Dead o := by
  induction o with
  | pod => exact .pure ⟨rfl, trivial⟩
  | string d n c =>
    obtain rfl : d = none := h
    refine (galloc_turns c).bind fun r q hr => ?_
    unfold copyCells
    split
    case isTrue hn =>
      obtain rfl := hr.2.mpr (hq hn)
      exact .pure ⟨hr.1, rfl⟩
    case isFalse => exact .fail _
  | vector t d n cells c => exact .pure ⟨(add_zero _).symm, h⟩
  | inactive => exact .pure ⟨rfl, trivial⟩
  | active => exact h.elim
  | pair a b iha ihb =>
    refine Turns.seq (iha h.1 hq.1) fun x q hx => ?_
    obtain ⟨rfl, hx⟩ := hx
    refine Turns.part (ihb h.2 hq.2) _ (add_comm _ _) fun y q hy => .pure ?_
    obtain ⟨rfl, hy⟩ := hy
    refine ⟨?_, hx, hy⟩
    show _ = x.1.blocks + y.1.blocks + (x.2.blocks + y.2.blocks)
    abel

section Reserve

variable {w : World} {R : Obj → Prop} {n : ℕ} {cells : ℕ → Obj}
variable {t : Ty} {d : Option ℕ} {cap : ℕ}

theorem relocate_turns (h : ∀ i < n, Moves R (cells i)) (r : Option ℕ) :
    Turns (∑ i ∈ range n, (cells i).blocks) (relocate w n cells r) fun c q =>
      q = ∑ i ∈ range n, (c i).blocks ∧ (r = none → n = 0) ∧ ∀ i < n, R (c i) := by
  unfold relocate
  split
  case isTrue hn =>
    subst hn
    exact .pure ⟨rfl, fun _ => rfl, fun i hi => absurd hi (Nat.not_lt_zero i)⟩
  case isFalse =>
    split
    case isTrue => exact .fail _
    case isFalse hr =>
      split
      case isTrue => exact .fail _
      case isFalse =>
        refine (Turns.fill (g := fun _ x => x.1.blocks + x.2.blocks) (R := fun _ x => R x.1) h
          _).bind fun x q hx => ?_
        obtain ⟨rfl, hR⟩ := hx
        rw [Finset.sum_add_distrib, add_comm]
        refine (destroyCells_turns n _ _).seq fun _ q hq => ?_
        obtain ⟨rfl, -⟩ := hq
        exact .pure ⟨zero_add _, fun hnone => absurd hnone hr, hR⟩

theorem reserve_turns (hd : d = none → n = 0) (hR : ∀ i < n, R (cells i))
    (hmove : w.Keeps t d n cap ∨ ∀ i < n, Moves R (cells i)) :
    Turns (held d + ∑ i ∈ range n, (cells i).blocks) (reserve w t d n cells cap) fun r q =>
      q = held r.1 + ∑ i ∈ range n, (r.2.1 i).blocks ∧ (r.1 = none → n = 0) ∧
        ∀ i < n, R (r.2.1 i) := by
  unfold World.Keeps at hmove
  unfold reserve
  generalize (if cap < n then n else cap) = cap at *
  cases d with
  | none =>
    obtain rfl := hd rfl
    have hnone : ∀ c : ℕ → Obj, ∀ i < 0, R (c i) := fun _ i hi => absurd hi (Nat.not_lt_zero i)
    dsimp only
    split
    case isTrue => exact .pure ⟨rfl, fun _ => rfl, hnone _⟩
    case isFalse =>
      refine Turns.bind (galloc_turns _) fun r q hr => .pure ?_
      exact ⟨hr.1.trans (add_zero _).symm, fun _ => rfl, hnone _⟩
  | some b =>
    dsimp only
    split
    case isTrue => exact .pure ⟨rfl, nofun, hR⟩
    case isFalse hplace =>
      have hmove := hmove.resolve_left fun hkeeps => hplace (hkeeps b rfl)
      refine (galloc_turns _).part _ (zero_add _).symm fun r q hr => ?_
      obtain ⟨rfl, -⟩ := hr
      refine (relocate_turns hmove r).part (held r + held (some b)) (by abel) fun c q hc => ?_
      obtain ⟨rfl, hr, hR'⟩ := hc
      refine (gfree_turns (some b)).part (held r + ∑ i ∈ range n, (c i).blocks) (by abel)
        fun _ q hq => .pure ⟨?_, hr, hR'⟩
      rw [hq, zero_add]

/-- `reserve` on destroyed elements. -/
theorem reserve_dead_turns {live : ℕ → Obj} (hd : d = none → n = 0)
    (hdead : ∀ i < n, (cells i).Dead ∧ ((live i).Quiet → (cells i).Quiet))
    (hmove : w.Keeps t d n cap ∨ ∀ i < n, (live i).Quiet) :
    Turns (held d) (reserve w t d n cells cap) fun r q =>
      q = held r.1 ∧ (r.1 = none → n = 0) ∧ ∀ i < n, (r.2.1 i).Dead := by
  have hres := reserve_turns hd (fun i hi => (hdead i hi).1)
    (hmove.imp_right fun h i hi => (hdead i hi).1.moves ((hdead i hi).2 (h i hi)))
  rw [sum_blocks_eq_zero fun i hi => (hdead i hi).1.blocks, add_zero] at hres
  refine hres.mono fun r q hr => ⟨?_, hr.2⟩
  rw [hr.1, sum_blocks_eq_zero fun i hi => (hr.2.2 i hi).blocks, add_zero]

/-- `reserve` on characters. -/
theorem reserve_chars_turns (hd : d = none → n = 0) :
    Turns (held d) (reserve w (.pod 1) d n (fun _ => .pod) cap) fun r q =>
      q = held r.1 ∧ (r.1 = none → n = 0) := by
  have hpod : ∀ i < n, Obj.pod.Dead ∧ (Obj.pod.Quiet → Obj.pod.Quiet) := fun _ _ => ⟨trivial, id⟩
  exact (reserve_dead_turns hd hpod (.inr fun _ _ => trivial)).mono
    fun r q hr => ⟨hr.1, hr.2.1⟩

end Reserve

/-! ## Assignments -/

/-- The members of a struct, one after the other. -/
theorem pair_turns {p r : Multiset ℕ} {x y : Own Obj} (hx : Turns p x Whole)
    (hy : Turns r y Whole) :
    Turns (p + r) (do
      let a ← x
      let b ← y
      pure (.pair a b)) Whole := by
  refine hx.part r rfl fun a q ha => ?_
  obtain ⟨rfl, ha⟩ := ha
  refine hy.part a.blocks (add_comm _ _) fun b q hb => .pure ?_
  obtain ⟨rfl, hb⟩ := hb
  exact ⟨add_comm _ _, ha, hb⟩

theorem assign_turns (w : World) (hy : y.Sound) (hx : x.Sound) (hc : x.Copyable)
    (h : Assignable w y x) : Turns y.blocks (assign w y x) Whole := by
  induction y generalizing x with
  | pod =>
    cases x with
    | pod => exact .pure ⟨rfl, trivial⟩
    | _ => exact .fail _
  | string d _ _ =>
    cases x with
    | string d' n _ =>
      refine (gfree_turns d).bind fun _ q hq => ?_
      subst hq
      refine (galloc_turns n).bind fun r q hr => ?_
      split
      case isTrue => exact .fail _
      case isFalse => exact .pure ⟨hr.1, hr.2.mp⟩
    | _ => exact .fail _
  | vector t d n cells _ =>
    cases x with
    | vector _ d' n' cells' c' =>
      refine (destroyCells_turns n cells cells).part (held d) (add_comm _ _) fun c q hc' => ?_
      obtain ⟨rfl, hdead⟩ := hc'
      rw [zero_add]
      refine (reserve_dead_turns hy.1 hdead h).bind fun r q hr => ?_
      obtain ⟨rfl, -, -⟩ := hr
      -- what is left in the cells is overwritten
      refine (copyCells_turns (fun i hi => copy_turns w (hx.2 i hi) (hc i hi)) _).part _
        (zero_add _).symm fun c q hc' => .pure ?_
      obtain ⟨rfl, hdata, hcells⟩ := hc'
      exact ⟨add_comm _ _, hdata, fun i hi => (hcells i hi).1⟩
    | _ => exact .fail _
  | inactive =>
    cases x with
    | inactive => exact .pure ⟨rfl, trivial⟩
    | active _ o => exact .pure ⟨Eq.symm hc, hx⟩
    | _ => exact .fail _
  | active _ o =>
    cases x with
    | inactive => exact .pure ⟨h, trivial⟩
    | active _ o' => exact .pure ⟨Eq.trans h (Eq.symm hc), hx⟩
    | _ => exact .fail _
  | pair a b iha ihb =>
    cases x with
    | pair a' b' =>
      exact pair_turns (iha hy.1 hx.1 hc.1 h.1) (ihb hy.2 hx.2 hc.2 h.2)
    | _ => exact .fail _

/-- The argument of a move assignment is left without blocks. -/
theorem whole_emptied (hx : x.Sound) (hm : x.Movable) : Whole (emptied x) 0 := by
  induction x with
  | pod | inactive => exact ⟨rfl, trivial⟩
  | string => exact ⟨rfl, fun _ => rfl⟩
  | vector => exact ⟨rfl, fun _ => rfl, fun i hi => absurd hi (Nat.not_lt_zero i)⟩
  | active => exact ⟨Eq.symm hm, hx⟩
  | pair a b iha ihb =>
    obtain ⟨ha, hsa⟩ := iha hx.1 hm.1
    obtain ⟨hb, hsb⟩ := ihb hx.2 hm.2
    refine ⟨?_, hsa, hsb⟩
    show 0 = (emptied a).blocks + (emptied b).blocks
    rw [← ha, ← hb, add_zero]

theorem moveAssign_turns (hx : x.Sound) (h : y.Discardable) :
    Turns (y.blocks + x.blocks) (moveAssign y x) Whole := by
  induction y generalizing x with
  | pod =>
    cases x with
    | pod => exact .pure ⟨rfl, trivial⟩
    | _ => exact .fail _
  | string d _ _ =>
    cases x with
    | string d' _ _ =>
      refine (gfree_turns d).part (held d') rfl fun _ q hq => .pure ⟨?_, hx⟩
      rw [hq, zero_add]
      rfl
    | _ => exact .fail _
  | vector t d n cells _ =>
    cases x with
    | vector t' d' n' cells' c' =>
      obtain rfl : d = none := h
      refine (destroyCells_turns n cells cells).part _ (congrArg (· + _) (zero_add _))
        fun _ q hq => .pure ⟨?_, hx⟩
      rw [hq.1, zero_add]
    | _ => exact .fail _
  | inactive =>
    cases x with
    | inactive => exact .pure ⟨rfl, trivial⟩
    | active _ o => exact .pure ⟨zero_add _, hx⟩
    | _ => exact .fail _
  | active _ o =>
    cases x with
    | inactive => exact .pure ⟨(add_zero _).trans h, trivial⟩
    | active _ o' => exact .pure ⟨(congrArg (· + o'.blocks) h).trans (zero_add _), hx⟩
    | _ => exact .fail _
  | pair a b iha ihb =>
    cases x with
    | pair a' b' =>
      show Turns (a.blocks + b.blocks + (a'.blocks + b'.blocks)) _ _
      rw [add_add_add_comm]
      exact pair_turns (iha hx.1 h.1) (ihb hx.2 h.2)
    | _ => exact .fail _

theorem Obj.Dead.recopied (h : o.Dead) : Whole (recopied o) 0 := by
  induction o with
  | pod | inactive => exact ⟨rfl, trivial⟩
  | string => exact ⟨rfl, fun _ => rfl⟩
  | vector => exact ⟨rfl, fun _ => rfl, fun i hi => absurd hi (Nat.not_lt_zero i)⟩
  | active => exact h.elim
  | pair a b iha ihb =>
    obtain ⟨ha, hsa⟩ := iha h.1
    obtain ⟨hb, hsb⟩ := ihb h.2
    refine ⟨?_, hsa, hsb⟩
    show 0 = (Objects.recopied a).blocks + (Objects.recopied b).blocks
    rw [← ha, ← hb, add_zero]

theorem selfAssign_turns (w : World) (hx : x.Sound) (h : x.SelfAssignable w) :
    Turns x.blocks (selfAssign w x) Whole := by
  induction x with
  | pod => exact .pure ⟨rfl, trivial⟩
  | string d n _ =>
    refine (gfree_turns d).bind fun _ q hq => ?_
    subst hq
    exact (galloc_turns n).bind fun r q hr => .pure ⟨hr.1, hr.2.mp⟩
  | vector t d n cells c =>
    refine (destroyCells_turns n cells cells).part (held d) (add_comm _ _) fun cs q hc => ?_
    obtain ⟨rfl, hdead⟩ := hc
    rw [zero_add]
    refine (reserve_dead_turns hx.1 hdead h).bind fun r q hr => .pure ?_
    obtain ⟨rfl, hdata, hcells⟩ := hr
    have hblank : ∀ i < n, Whole (if i < n then recopied (r.2.1 i) else r.2.1 i) 0 := by
      intro i hi
      rw [if_pos hi]
      exact (hcells i hi).recopied
    refine ⟨?_, hdata, fun i hi => (hblank i hi).2⟩
    show _ = held r.1 + _
    rw [sum_blocks_eq_zero fun i hi => (hblank i hi).1.symm, add_zero]
  | inactive => exact .pure ⟨rfl, trivial⟩
  | active => exact .pure ⟨rfl, hx⟩
  | pair a b iha ihb => exact pair_turns (iha hx.1 h.1) (ihb hx.2 h.2)

theorem selfMoveAssign_turns (hx : x.Sound) (h : x.SelfMoveAssignable) :
    Turns x.blocks (selfMoveAssign x) Whole := by
  induction x with
  | pod => exact .pure ⟨rfl, trivial⟩
  | string d n _ => exact (gfree_turns d).bind fun _ q hq => .pure ⟨hq, fun _ => rfl⟩
  | vector t d n cells c =>
    obtain rfl : d = none := h
    refine (destroyCells_turns n cells cells).part 0 ((zero_add _).trans (add_zero _).symm)
      fun cs q hc => .pure ⟨?_, fun _ => rfl, fun i hi => absurd hi (Nat.not_lt_zero i)⟩
    rw [hc.1]
    rfl
  | inactive => exact .pure ⟨rfl, trivial⟩
  | active => exact .pure ⟨rfl, hx⟩
  | pair a b iha ihb => exact pair_turns (iha hx.1 h.1) (ihb hx.2 h.2)

/-! ## Mutators -/

section Mutators

variable {w : World}
variable {n c cap size : ℕ} {cells : ℕ → Obj} {o v : Obj} {t : Ty} {d : Option ℕ}

theorem sum_blocks_update (cells : ℕ → Obj) (o : Obj) :
    ∑ i ∈ range (n + 1), (Function.update cells n o i).blocks =
      (∑ i ∈ range n, (cells i).blocks) + o.blocks := by
  rw [Finset.sum_range_succ, Function.update_self]
  congr 1
  refine Finset.sum_congr rfl fun i hi => ?_
  rw [Function.update_of_ne (Nat.ne_of_lt (Finset.mem_range.mp hi))]

theorem forall_update {P : Obj → Prop} (h : ∀ i < n, P (cells i)) (ho : P o) :
    ∀ i < n + 1, P (Function.update cells n o i) := by
  intro i hi
  rcases Nat.lt_succ_iff_lt_or_eq.mp hi with hi | rfl
  · rw [Function.update_of_ne (Nat.ne_of_lt hi)]
    exact h i hi
  · rw [Function.update_self]
    exact ho

theorem push_turns (hv : v.Sound) (ho : o.Sound) :
    Turns (v.blocks + o.blocks) (push v o) fun v' q =>
      Whole v' q ∧ (v.Copyable → o.Copyable → v'.Copyable) := by
  cases v with
  | vector t d n cells c =>
    unfold push
    dsimp only
    split
    case isTrue => exact .fail _
    case isFalse hd =>
      refine .pure ⟨⟨?_, fun h => absurd h hd, forall_update hv.2 ho⟩,
        fun hcv hco => forall_update hcv hco⟩
      show _ = held d + ∑ i ∈ range (n + 1), (Function.update cells n o i).blocks
      rw [sum_blocks_update, ← add_assoc]
      rfl
  | _ => exact .fail _

/-- `reserve` on a vector that is alive. -/
theorem reserve_live_turns (hv : (Obj.vector t d n cells c).Sound)
    (hmove : w.Keeps t d n cap ∨ ∀ i < n, (cells i).Movable) :
    Turns (Obj.vector t d n cells c).blocks (reserve w t d n cells cap) fun r q =>
      Whole (.vector t r.1 n r.2.1 r.2.2) q :=
  reserve_turns hv.1 hv.2 (hmove.imp_right fun h i hi => moves_live (hv.2 i hi) (h i hi))

theorem grow_turns (hv : v.Sound) (h : v.Growable w) :
    Turns v.blocks (grow w v) fun v' q => Whole v' q ∧ (v.HasRoom → v' = v) := by
  cases v with
  | vector t d n cells c =>
    unfold grow
    dsimp only
    split
    case isTrue hfull =>
      have hmove := h.resolve_left (Nat.not_lt.mpr hfull)
      exact (reserve_live_turns hv hmove).bind fun r q hr =>
        .pure ⟨hr, fun hroom => absurd hroom (Nat.not_lt.mpr hfull)⟩
    case isFalse => exact .pure ⟨⟨rfl, hv⟩, fun _ => rfl⟩
  | _ => exact .fail _

theorem grow_copyable_turns (hv : v.Sound) (hc : v.Copyable) :
    Turns v.blocks (grow w v) fun v' q => Whole v' q ∧ v'.Copyable := by
  cases v with
  | vector t d n cells c =>
    unfold grow
    dsimp only
    split
    case isTrue =>
      have hcells : ∀ i < n, (cells i).Sound ∧ (cells i).Copyable :=
        fun i hi => ⟨hv.2 i hi, hc i hi⟩
      refine (reserve_turns hv.1 hcells
        (.inr fun i hi => moves_copyable (hcells i hi))).bind fun r q hr => .pure ?_
      obtain ⟨hq, hdata, hnew⟩ := hr
      exact ⟨⟨hq, hdata, fun i hi => (hnew i hi).1⟩, fun i hi => (hnew i hi).2⟩
    case isFalse => exact .pure ⟨⟨rfl, hv⟩, hc⟩
  | _ => exact .fail _

theorem checkData_turns (v : Obj) (p : Multiset ℕ) : Turns p (checkData v) fun _ q => q = p := by
  cases v with
  | vector t d n cells c =>
    unfold checkData
    dsimp only
    split
    case isTrue => exact .fail _
    case isFalse => exact .pure rfl
  | _ => exact .fail _

theorem assign_pod_turns (y : Obj) : Turns 0 (assign w .pod y) fun o q => q = 0 ∧ o = .pod := by
  cases y with
  | pod => exact .pure ⟨rfl, rfl⟩
  | _ => exact .fail _

theorem append_turns {x : Obj} (hv : v.Sound) (h : v.Appendable w) (hx : x.Sound)
    (hc : x.Copyable) :
    Turns v.blocks (append w v x) Whole := by
  cases v with
  | vector t d n cells c =>
    obtain ⟨⟨size, rfl⟩, hmove⟩ := h
    refine (copy_turns w hx hc).part _ (zero_add _).symm fun y q hy => ?_
    obtain ⟨⟨rfl, -⟩, -⟩ := hy
    refine (reserve_live_turns hv hmove).part y.blocks (add_comm _ _) fun r q hr => ?_
    obtain ⟨rfl, hr⟩ := hr
    dsimp only
    split
    case isTrue => exact .fail _
    case isFalse hd =>
      refine (assign_pod_turns y).part _ (zero_add _).symm fun o q ho => ?_
      obtain ⟨rfl, rfl⟩ := ho
      refine (destroy_turns y).part _ ((zero_add _).trans (add_comm _ _)) fun _ q hq =>
        .pure ⟨?_, fun h => absurd h hd, forall_update hr.2 trivial⟩
      rw [hq.1, zero_add]
      show _ = held r.1 + ∑ i ∈ range (n + 1), (Function.update r.2.1 n .pod i).blocks
      rw [sum_blocks_update]
      exact congrArg (held r.1 + ·) (add_zero _).symm
  | _ => exact .fail _

theorem reserveTo_turns (hv : v.Sound) (h : v.Reservable w cap) :
    Turns v.blocks (reserveTo w cap v) Whole := by
  cases v with
  | vector t d n cells c => exact (reserve_live_turns hv h).bind fun r q hr => .pure hr
  | string d n c => exact (reserve_chars_turns hv).bind fun r q hr => .pure hr
  | _ => exact .fail _

/-- `resize` constructs the new elements. -/
theorem whole_grown {k : ℕ} (hcells : ∀ i < n, (cells i).Sound) (hd : d = none → n + k = 0) :
    Whole (.vector t d (n + k) (fun i => if n ≤ i ∧ i < n + k then t.init else cells i) c)
      (held d + ∑ i ∈ range n, (cells i).blocks) := by
  refine ⟨congrArg (held d + ·) ?_, hd, fun i hi => ?_⟩
  · rw [Finset.sum_range_add, ← add_zero (∑ i ∈ range n, (cells i).blocks)]
    congr 1
    · refine Finset.sum_congr rfl fun i hi => ?_
      dsimp only
      rw [if_neg fun h => absurd h.1 (Nat.not_le.mpr (Finset.mem_range.mp hi))]
    · refine (Finset.sum_eq_zero fun i hi => ?_).symm
      dsimp only
      rw [if_pos ⟨Nat.le_add_right n i, Nat.add_lt_add_left (Finset.mem_range.mp hi) n⟩]
      exact blocks_init t
  · dsimp only
    split
    case isTrue => exact sound_init t
    case isFalse h => exact hcells i (Nat.lt_of_not_le fun hle => h ⟨hle, hi⟩)

theorem resize_turns (hv : v.Sound) (h : v.Reservable w size) :
    Turns v.blocks (resize w size v) Whole := by
  cases v with
  | vector t d n cells c =>
    refine (reserve_live_turns hv h).bind fun r q hr => ?_
    obtain ⟨rfl, hdata, hcells⟩ := hr
    dsimp only
    split
    case isTrue hlt =>
      obtain ⟨k, rfl⟩ := Nat.exists_eq_add_of_le hlt.le
      rw [Nat.add_sub_cancel_left]
      have hsum : (Obj.vector t r.1 (size + k) r.2.1 r.2.2).blocks =
          (∑ i ∈ range k, (r.2.1 (size + i)).blocks) +
            (held r.1 + ∑ i ∈ range size, (r.2.1 i).blocks) := by
        show held r.1 + ∑ i ∈ range (size + k), (r.2.1 i).blocks = _
        rw [Finset.sum_range_add]
        abel
      refine (Turns.drain (p := fun i => (r.2.1 i).blocks)
        (fun i _ => (destroy_turns _).mono fun _ _ h => h.1) r.2.1).part _ hsum
        fun c' q hc => .pure ?_
      obtain ⟨rfl, hsame⟩ := hc
      refine ⟨?_, fun hnone => (Nat.add_eq_zero_iff.mp (hdata hnone)).1, fun i hi => ?_⟩
      · rw [zero_add]
        refine congrArg (held r.1 + ·) (Finset.sum_congr rfl fun i hi => ?_)
        rw [hsame i (Finset.mem_range.mp hi)]
      · rw [hsame i hi]
        exact hcells i (Nat.lt_add_right k hi)
    case isFalse hle =>
      split
      case isTrue => exact .fail _
      case isFalse hd =>
        obtain ⟨k, rfl⟩ := Nat.exists_eq_add_of_le (Nat.not_lt.mp hle)
        refine .pure (whole_grown hcells fun hnone => ?_)
        obtain rfl := hdata hnone
        by_contra hk
        exact hd ⟨Nat.pos_of_ne_zero hk, hnone⟩
  | string d n c =>
    refine (reserve_chars_turns hv).bind fun r q hr => ?_
    obtain ⟨rfl, hr⟩ := hr
    dsimp only
    split
    case isTrue => exact .fail _
    case isFalse hd =>
      refine (reserve_chars_turns fun hnone => ?_).bind fun r' q hr' => ?_
      · obtain rfl := hr hnone
        by_contra hsize
        exact hd ⟨Nat.pos_of_ne_zero hsize, hnone⟩
      · obtain ⟨rfl, -⟩ := hr'
        split
        case isTrue => exact .fail _
        case isFalse hd' => exact .pure ⟨rfl, fun hnone => absurd hnone hd'⟩
  | _ => exact .fail _

theorem pop_turns (hv : v.Sound) (h : v.Poppable) : Turns v.blocks (pop v) Whole := by
  cases v with
  | vector t d n cells c =>
    cases n with
    | zero => exact .fail _
    | succ n =>
      have hlast : (cells n).blocks = 0 := h n rfl
      refine .pure ⟨congrArg (held d + ·) ?_, fun hnone => ?_, fun i hi => ?_⟩
      · rw [Finset.sum_range_succ, hlast, add_zero]
        rfl
      · cases hv.1 hnone
      · exact hv.2 i (Nat.lt_succ_of_lt hi)
  | _ => exact .fail _

theorem swapRemove_turns {idx : ℕ} (hv : v.Sound) (h : v.Swappable) :
    Turns v.blocks (swapRemove w idx v) Whole := by
  cases v with
  | vector t d n cells c =>
    obtain ⟨⟨size, rfl⟩, hzero⟩ := h
    unfold swapRemove
    dsimp only
    split
    case isTrue => exact .fail _
    case isFalse =>
      refine (assign_pod_turns .pod).part _ (zero_add _).symm fun o q ho => .pure ?_
      obtain ⟨rfl, rfl⟩ := ho
      have hcell : ∀ P : Obj → Prop, P .pod → (∀ i < n, P (cells i)) →
          ∀ i < n - 1, P (Function.update cells idx .pod i) := by
        intro P hpod hcells i hi
        rw [Function.update_apply]
        split
        · exact hpod
        · exact hcells i (by omega)
      refine ⟨?_, fun hnone => ?_, hcell _ trivial hv.2⟩
      · rw [zero_add]
        refine congrArg (held d + ·) ?_
        rw [sum_blocks_eq_zero hzero, sum_blocks_eq_zero (hcell (·.blocks = 0) rfl hzero)]
      · rw [hv.1 hnone]
  | _ => exact .fail _

/-- `reserve` and a write to the block. -/
theorem reserve_write_turns (hd : d = none → n = 0) :
    Turns (held d) (do
      let (d, _, c) ← reserve w (.pod 1) d n (fun _ => .pod) cap
      if d = none then crash
      else pure (.string d size c) : Own Obj) Whole := by
  refine (reserve_chars_turns hd).bind fun r q hr => ?_
  dsimp only
  split
  case isTrue => exact .fail _
  case isFalse hd => exact .pure ⟨hr.1, fun hnone => absurd hnone hd⟩

theorem appendText_turns {len : ℕ} (hv : v.Sound) : Turns v.blocks (appendText w len v) Whole := by
  cases v with
  | string d n c => exact reserve_write_turns hv
  | _ => exact .fail _

theorem appendChar_turns (hv : v.Sound) : Turns v.blocks (appendChar w v) Whole := by
  cases v with
  | string d n c => exact reserve_write_turns hv
  | _ => exact .fail _

end Mutators

/-! ## `variant` -/

theorem checkInactive_turns (v : Obj) (p : Multiset ℕ) :
    Turns p (checkInactive v) fun _ q => q = p := by
  cases v with
  | inactive => exact .pure rfl
  | _ => exact .fail _

theorem activate_turns {v : Obj} (i : ℕ) (ho : o.Sound) :
    Turns (v.blocks + o.blocks) (activate i o v) Whole := by
  cases v with
  | inactive => exact .pure ⟨zero_add _, ho⟩
  | _ => exact .fail _

theorem clear_turns (v : Obj) : Turns v.blocks (clear v) Whole := by
  cases v with
  | inactive => exact .pure ⟨rfl, trivial⟩
  | active i o => exact (destroy_turns o).bind fun _ q hq => .pure ⟨hq.1, trivial⟩
  | _ => exact .fail _

end NeptunOS.Objects
