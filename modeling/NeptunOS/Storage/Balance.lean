import NeptunOS.Storage.Holdings

/-!
# The balance of the containers

`Safe` collects the conditions under which each statement keeps track of its blocks. In
a run of safe statements the blocks in use are those from the start and those of the
live objects, each owned by one of them, and no statement frees a block that is not in
use. A move assignment to a vector with a block is not safe, and neither is any copy of
a `variant` with a block in it.
-/

namespace NeptunOS.Objects

open Accounts Stepwise

open Finset (range)

/-! ## Ways into an object -/

/-- The indices on the way are below the size. `operator[]` allows one more. -/
def Obj.Inside : List Proj → Obj → Prop
  | .elem i :: p, .vector _ _ n cells _ => i < n ∧ (cells i).Inside p
  | .alt i :: p, .active j o => i = j → o.Inside p
  | .fst :: p, .pair a _ => a.Inside p
  | .snd :: p, .pair _ b => b.Inside p
  | _, _ => True

/-- The path `p` leads from `o` to its part `x`. -/
inductive Leads : Obj → List Proj → Obj → Prop
  | here (o : Obj) : Leads o [] o
  | elem {t : Ty} {d : Option ℕ} {n c i : ℕ} {cells : ℕ → Obj} {p : List Proj} {x : Obj} :
      i < n → Leads (cells i) p x → Leads (.vector t d n cells c) (.elem i :: p) x
  | alt {i : ℕ} {o x : Obj} {p : List Proj} :
      Leads o p x → Leads (.active i o) (.alt i :: p) x
  | fst {a b x : Obj} {p : List Proj} : Leads a p x → Leads (.pair a b) (.fst :: p) x
  | snd {a b x : Obj} {p : List Proj} : Leads b p x → Leads (.pair a b) (.snd :: p) x

theorem leads_of_get {p : List Proj} {o x : Obj} (h : o.get p = .ok x) (hin : o.Inside p) :
    Leads o p x := by
  induction p generalizing o with
  | nil =>
    cases h
    exact .here _
  | cons a p ih =>
    cases a with
    | elem i =>
      cases o with
      | vector t d n cells c =>
        unfold Obj.get at h
        split at h
        case isTrue => cases h
        case isFalse =>
          split at h
          case isTrue => cases h
          case isFalse => exact .elem hin.1 (ih h hin.2)
      | _ => cases h
    | alt i =>
      cases o with
      | active j o =>
        unfold Obj.get at h
        split at h
        case isTrue => cases h
        case isFalse hij =>
          obtain rfl := not_ne_iff.mp hij
          exact .alt (ih h (hin rfl))
      | _ => cases h
    | fst =>
      cases o with
      | pair a b => exact .fst (ih h hin)
      | _ => cases h
    | snd =>
      cases o with
      | pair a b => exact .snd (ih h hin)
      | _ => cases h

theorem inside_nil (o : Obj) : o.Inside [] := by
  cases o <;> trivial

theorem tail_eq_of_cons {a : Proj} {p q : List Proj} (h : a :: p <+: a :: q → a :: q = a :: p)
    (hpre : p <+: q) : q = p :=
  List.tail_eq_of_cons_eq (h ((List.prefix_cons_inj a).mpr hpre))

namespace Leads

variable {o x : Obj} {p q : List Proj}

section

variable (h : Leads o p x)

include h

/-- Only the blocks of the part change when it is replaced. -/
theorem focus : ∃ rest, o.blocks = x.blocks + rest ∧
    ∀ x', (Obj.put x' p o).blocks = x'.blocks + rest := by
  induction h with
  | here o => exact ⟨0, (add_zero _).symm, fun _ => (add_zero _).symm⟩
  | @elem t d n c i cells p x hi _ ih =>
    obtain ⟨rest, hrest, hput⟩ := ih
    obtain ⟨others, hothers, hupdate⟩ := sum_focus Obj.blocks cells hi
    refine ⟨held d + (rest + others), ?_, fun x' => ?_⟩
    · show held d + _ = _
      rw [hothers, hrest]
      abel
    · show held d + _ = _
      rw [hupdate, hput]
      abel
  | alt _ ih => exact ih
  | @fst a b x p _ ih =>
    obtain ⟨rest, hrest, hput⟩ := ih
    refine ⟨rest + b.blocks, ?_, fun x' => ?_⟩
    · show a.blocks + b.blocks = _
      rw [hrest, add_assoc]
    · show (Obj.put x' p a).blocks + b.blocks = _
      rw [hput, add_assoc]
  | @snd a b x p _ ih =>
    obtain ⟨rest, hrest, hput⟩ := ih
    refine ⟨a.blocks + rest, ?_, fun x' => ?_⟩
    · show a.blocks + b.blocks = _
      rw [hrest, add_left_comm]
    · show a.blocks + (Obj.put x' p b).blocks = _
      rw [hput, add_left_comm]

theorem sound (ho : o.Sound) : x.Sound := by
  induction h with
  | here => exact ho
  | elem hi _ ih => exact ih (ho.2 _ hi)
  | alt _ ih => exact ih ho
  | fst _ ih => exact ih ho.1
  | snd _ ih => exact ih ho.2

theorem put_sound (ho : o.Sound) {x' : Obj} (hx : x'.Sound) : (Obj.put x' p o).Sound := by
  induction h with
  | here => exact hx
  | @elem t d n c i cells p x hi _ ih =>
    refine ⟨ho.1, fun j hj => ?_⟩
    rw [Function.update_apply]
    split
    case isTrue => exact ih (ho.2 _ hi)
    case isFalse => exact ho.2 j hj
  | alt _ ih => exact ih ho
  | fst _ ih => exact ⟨ih ho.1, ho.2⟩
  | snd _ ih => exact ⟨ho.1, ih ho.2⟩

theorem put_self : Obj.put x p o = o := by
  induction h with
  | here => rfl
  | elem _ _ ih => rw [Obj.put, ih, Function.update_eq_self]
  | alt _ ih => rw [Obj.put, ih]
  | fst _ ih => rw [Obj.put, ih]
  | snd _ ih => rw [Obj.put, ih]

/-- A way that does not lead into what is replaced is as before. -/
theorem put_inside (x' : Obj) (hq : p <+: q → q = p) (hin : o.Inside q) :
    (Obj.put x' p o).Inside q := by
  induction h generalizing q with
  | here =>
    rw [hq List.nil_prefix]
    exact inside_nil _
  | @elem t d n c i cells p x hi _ ih =>
    cases q with
    | nil => exact inside_nil _
    | cons a q =>
      cases a with
      | elem j =>
        refine ⟨hin.1, ?_⟩
        rw [Function.update_apply]
        split
        case isTrue hj =>
          subst hj
          exact ih (tail_eq_of_cons hq) hin.2
        case isFalse => exact hin.2
      | _ => trivial
  | alt _ ih =>
    cases q with
    | nil => exact inside_nil _
    | cons a q =>
      cases a with
      | alt j =>
        rintro rfl
        exact ih (tail_eq_of_cons hq) (hin rfl)
      | _ => trivial
  | fst _ ih =>
    cases q with
    | nil => exact inside_nil _
    | cons a q =>
      cases a with
      | fst => exact ih (tail_eq_of_cons hq) hin
      | snd => exact hin
      | _ => trivial
  | snd _ ih =>
    cases q with
    | nil => exact inside_nil _
    | cons a q =>
      cases a with
      | snd => exact ih (tail_eq_of_cons hq) hin
      | fst => exact hin
      | _ => trivial

theorem get_put (x' : Obj) (hp : ¬ p <+: q) (hq : ¬ q <+: p) :
    (Obj.put x' p o).get q = o.get q := by
  induction h generalizing q with
  | here => exact absurd List.nil_prefix hp
  | @elem t d n c i cells p x hi _ ih =>
    cases q with
    | nil => exact absurd List.nil_prefix hq
    | cons a q =>
      cases a with
      | elem j =>
        unfold Obj.put Obj.get
        rw [Function.update_apply]
        by_cases hj : j = i
        · subst hj
          rw [if_pos rfl, ih (by simpa using hp) (by simpa using hq)]
        · rw [if_neg hj]
      | _ => rfl
  | @alt i o x p _ ih =>
    cases q with
    | nil => exact absurd List.nil_prefix hq
    | cons a q =>
      cases a with
      | alt j =>
        unfold Obj.put Obj.get
        by_cases hj : j = i
        · subst hj
          rw [ih (by simpa using hp) (by simpa using hq)]
        · rw [if_pos hj, if_pos hj]
      | _ => rfl
  | fst _ ih =>
    cases q with
    | nil => exact absurd List.nil_prefix hq
    | cons a q =>
      cases a with
      | fst => exact ih (by simpa using hp) (by simpa using hq)
      | _ => rfl
  | snd _ ih =>
    cases q with
    | nil => exact absurd List.nil_prefix hq
    | cons a q =>
      cases a with
      | snd => exact ih (by simpa using hp) (by simpa using hq)
      | _ => rfl

end

end Leads

/-! ## Variables -/

/-- The blocks of a variable. -/
def varBlocks : Option Obj → Multiset ℕ
  | none => 0
  | some o => o.blocks

/-- The blocks of all live objects. -/
def Env.blocks (e : Env) : Multiset ℕ := ∑ x ∈ range e.count, varBlocks (e.vars x)

/-- Variables are numbered in the order of their declarations. -/
structure Env.Sound (e : Env) : Prop where
  lt : ∀ x o, e.vars x = some o → x < e.count
  sound : ∀ x o, e.vars x = some o → o.Sound

def Env.Inside (e : Env) (l : Loc) : Prop := ∀ o, e.vars l.var = some o → o.Inside l.path

/-- The condition `P` holds for the object at `l`, if there is one. -/
def Env.At (e : Env) (l : Loc) (P : Obj → Prop) : Prop :=
  e.Inside l ∧ ∀ o, e.get l = .ok o → P o

/-- The object at `l` is the one at `l'` or lies in it. -/
def Loc.Within (l l' : Loc) : Prop := l.var = l'.var ∧ l'.path <+: l.path

/-- None of the two objects lies in the other. -/
def Loc.Apart (l l' : Loc) : Prop := ¬ l.Within l' ∧ ¬ l'.Within l

/-- The blocks `q` are those of the live objects. -/
def Env.Whole (e : Env) (q : Multiset ℕ) : Prop := q = e.blocks ∧ e.Sound

theorem update_some_cases {vars : ℕ → Option Obj} {x y : ℕ} {o o' : Obj}
    (h : Function.update vars x (some o) y = some o') :
    y = x ∧ o' = o ∨ vars y = some o' := by
  rw [Function.update_apply] at h
  split at h
  case isTrue hy => exact .inl ⟨hy, (Option.some.inj h).symm⟩
  case isFalse => exact .inr h

namespace Env

variable {e : Env} {l l' : Loc} {x : Obj}

theorem focus_var (e : Env) {x : ℕ} (hx : x < e.count) : ∃ rest,
    e.blocks = varBlocks (e.vars x) + rest ∧
      ∀ v, Env.blocks { e with vars := Function.update e.vars x v } = varBlocks v + rest :=
  sum_focus varBlocks e.vars hx

theorem leads (hget : e.get l = .ok x) (hin : e.Inside l) :
    ∃ o, e.vars l.var = some o ∧ Leads o l.path x := by
  unfold get at hget
  split at hget
  case h_1 => cases hget
  case h_2 o ho => exact ⟨o, ho, leads_of_get hget (hin o ho)⟩

theorem put_vars {o : Obj} (h : e.vars l.var = some o) (x' : Obj) :
    e.put l x' = { e with vars := Function.update e.vars l.var (some (Obj.put x' l.path o)) } := by
  unfold put
  rw [h]
  rfl

theorem Sound.get (he : e.Sound) (hin : e.Inside l) (hget : e.get l = .ok x) : x.Sound := by
  obtain ⟨o, ho, hlead⟩ := leads hget hin
  exact hlead.sound (he.sound _ _ ho)

/-- Only the blocks of the object change when it is replaced. -/
theorem Sound.focus (he : e.Sound) (hin : e.Inside l) (hget : e.get l = .ok x) :
    ∃ rest, e.blocks = x.blocks + rest ∧ ∀ x', (e.put l x').blocks = x'.blocks + rest := by
  obtain ⟨o, ho, hlead⟩ := leads hget hin
  obtain ⟨others, hothers, hupdate⟩ := e.focus_var (he.lt _ _ ho)
  obtain ⟨rest, hrest, hput⟩ := hlead.focus
  refine ⟨rest + others, ?_, fun x' => ?_⟩
  · rw [hothers, ho, ← add_assoc, ← hrest]
    rfl
  · rw [put_vars ho, hupdate, ← add_assoc, ← hput]
    rfl

theorem Sound.put (he : e.Sound) (hin : e.Inside l) (hget : e.get l = .ok x) {x' : Obj}
    (hx : x'.Sound) : (e.put l x').Sound := by
  obtain ⟨o, ho, hlead⟩ := leads hget hin
  rw [put_vars ho]
  constructor
  · intro y o' hy
    rcases update_some_cases hy with ⟨rfl, -⟩ | hy
    · exact he.lt _ _ ho
    · exact he.lt _ _ hy
  · intro y o' hy
    rcases update_some_cases hy with ⟨-, rfl⟩ | hy
    · exact hlead.put_sound (he.sound _ _ ho) hx
    · exact he.sound _ _ hy

theorem put_self (hin : e.Inside l) (hget : e.get l = .ok x) : e.put l x = e := by
  obtain ⟨o, ho, hlead⟩ := leads hget hin
  rw [put_vars ho, hlead.put_self, ← ho, Function.update_eq_self]

/-- A way that does not lead into what is replaced is as before. -/
theorem put_inside (hin : e.Inside l) (hget : e.get l = .ok x) (x' : Obj)
    (hl : l'.Within l → l'.path = l.path) (hin' : e.Inside l') : (e.put l x').Inside l' := by
  obtain ⟨o, ho, hlead⟩ := leads hget hin
  rw [put_vars ho]
  intro o' ho'
  dsimp only at ho'
  rw [Function.update_apply] at ho'
  split at ho'
  case isTrue hvar =>
    obtain rfl := Option.some.inj ho'
    exact hlead.put_inside x' (fun hpre => hl ⟨hvar, hpre⟩) (hin' o (hvar ▸ ho))
  case isFalse => exact hin' o' ho'

theorem get_put (hin : e.Inside l) (hget : e.get l = .ok x) (x' : Obj) (hl : l.Apart l') :
    (e.put l x').get l' = e.get l' := by
  obtain ⟨o, ho, hlead⟩ := leads hget hin
  rw [put_vars ho]
  unfold get
  dsimp only
  rw [Function.update_apply]
  by_cases hvar : l'.var = l.var
  · rw [if_pos hvar, hvar, ho]
    exact hlead.get_put x' (fun hpre => hl.2 ⟨hvar, hpre⟩) fun hpre => hl.1 ⟨hvar.symm, hpre⟩
  · rw [if_neg hvar]

theorem Sound.declare (he : e.Sound) {o : Obj} (ho : o.Sound) :
    (e.declare o).Whole (e.blocks + o.blocks) := by
  refine ⟨?_, fun y o' hy => ?_, fun y o' hy => ?_⟩
  · unfold blocks Env.declare
    rw [Finset.sum_range_succ]
    dsimp only
    rw [Function.update_self]
    refine congrArg (· + o.blocks) (Finset.sum_congr rfl fun y hy => ?_)
    rw [Function.update_of_ne (Nat.ne_of_lt (Finset.mem_range.mp hy))]
  · rcases update_some_cases hy with ⟨rfl, -⟩ | hy
    · exact Nat.lt_succ_self _
    · exact Nat.lt_succ_of_lt (he.lt _ _ hy)
  · rcases update_some_cases hy with ⟨-, rfl⟩ | hy
    · exact ho
    · exact he.sound _ _ hy

theorem Sound.drop (he : e.Sound) {y : ℕ} {o : Obj} (ho : e.vars y = some o) :
    e.blocks = o.blocks + (e.drop y).blocks ∧ (e.drop y).Sound := by
  have hcases : ∀ z o', Function.update e.vars y none z = some o' → e.vars z = some o' := by
    intro z o' hz
    rw [Function.update_apply] at hz
    split at hz
    case isTrue => cases hz
    case isFalse => exact hz
  refine ⟨?_, fun z o' hz => he.lt _ _ (hcases z o' hz), fun z o' hz =>
    he.sound _ _ (hcases z o' hz)⟩
  obtain ⟨rest, hrest, hupdate⟩ := e.focus_var (he.lt _ _ ho)
  rw [hrest, ho, show (e.drop y).blocks = 0 + rest from hupdate none, zero_add]
  rfl

end Env

/-! ## Parts of statements -/

section Parts

variable {w : World} {e : Env} {l l' : Loc}
variable {f : Obj → Own Obj} {P : Obj → Prop} {p : Multiset ℕ} {os : List Obj}

theorem mutate_turns {r : Multiset ℕ} (he : e.Sound) (hin : e.Inside l)
    (hf : ∀ o, e.get l = .ok o → o.Sound → Turns (o.blocks + r) (f o) Whole) :
    Turns (e.blocks + r) (mutate e l f) Env.Whole := by
  refine (Turns.lift (P := fun o q => e.get l = .ok o ∧ q = e.blocks + r)
    fun o ho => ⟨ho, rfl⟩).bind fun o q ho => ?_
  obtain ⟨ho, rfl⟩ := ho
  obtain ⟨rest, hrest, hput⟩ := he.focus hin ho
  refine (hf o ho (he.get hin ho)).part rest (by rw [hrest]; abel) fun o' q ho' => .pure ?_
  obtain ⟨rfl, ho'⟩ := ho'
  exact ⟨(hput o').symm, he.put hin ho ho'⟩

theorem mutate_at_turns (he : e.Sound) (hat : e.At l P)
    (hf : ∀ o, o.Sound → P o → Turns o.blocks (f o) Whole) :
    Turns e.blocks (mutate e l f) Env.Whole := by
  have hmut := mutate_turns (r := 0) (f := f) he hat.1 fun o ho hs => by
    rw [add_zero]
    exact hf o hs (hat.2 o ho)
  rwa [add_zero] at hmut

theorem mutate_inside_turns (he : e.Sound) (hin : e.Inside l)
    (hf : ∀ o, o.Sound → Turns o.blocks (f o) Whole) : Turns e.blocks (mutate e l f) Env.Whole :=
  mutate_at_turns (P := fun _ => True) he ⟨hin, fun _ _ => trivial⟩ fun o ho _ => hf o ho

theorem look_turns (l : Loc) : Turns p (lift (e.get l)) fun _ q => q = p :=
  .lift fun _ _ => rfl

/-- Read an object. -/
theorem read_turns (he : e.Sound) (hat : e.At l P) :
    Turns p (lift (e.get l)) fun o q => e.get l = .ok o ∧ o.Sound ∧ P o ∧ q = p :=
  .lift fun o ho => ⟨ho, he.get hat.1 ho, hat.2 o ho, rfl⟩

/-- Where the object at `l'` is when the vector at `l` grows and gets a new element. -/
def Clear (e : Env) (l l' : Loc) : Prop :=
  l.Apart l' ∨ ¬ l.Within l' ∧ e.At l Obj.HasRoom

theorem makeRoom_turns (he : e.Sound) (hgrow : e.At l (Obj.Growable w)) (hclear : Clear e l l')
    (hat : e.At l' P) :
    Turns e.blocks (makeRoom w e l l') fun e' q =>
      e'.Whole q ∧ e'.Inside l ∧ e'.At l' P := by
  refine (read_turns he hgrow).bind fun v q hv => ?_
  obtain ⟨hv, hs, hg, rfl⟩ := hv
  obtain ⟨rest, hrest, hput⟩ := he.focus hgrow.1 hv
  refine (grow_turns hs hg).part rest hrest fun v' q hv' => ?_
  obtain ⟨⟨rfl, hs'⟩, hroom⟩ := hv'
  split
  case isTrue => exact .fail _
  case isFalse =>
    refine .pure ⟨⟨(hput v').symm, he.put hgrow.1 hv hs'⟩,
      Env.put_inside hgrow.1 hv v' (fun _ => rfl) hgrow.1, ?_⟩
    rcases hclear with hapart | ⟨_, hat'⟩
    · refine ⟨Env.put_inside hgrow.1 hv v' (fun h => absurd h hapart.2) hat.1, fun o ho => ?_⟩
      rw [Env.get_put hgrow.1 hv v' hapart] at ho
      exact hat.2 o ho
    · rw [hroom (hat'.2 v hv), Env.put_self hgrow.1 hv]
      exact hat

/-- The temporaries of an initializer list. -/
def blocksOf (os : List Obj) : Multiset ℕ := (os.map Obj.blocks).sum

theorem blocksOf_reverse (os : List Obj) : blocksOf os.reverse = blocksOf os := by
  unfold blocksOf
  rw [List.map_reverse, List.sum_reverse]

theorem copyItems_turns (he : e.Sound) {ls : List Loc} (h : ∀ l ∈ ls, e.At l Obj.Copyable) :
    Turns 0 (copyItems w e ls) fun os q =>
      q = blocksOf os ∧ ∀ o ∈ os, o.Sound ∧ o.Copyable := by
  induction ls with
  | nil => exact .pure ⟨rfl, by simp⟩
  | cons l ls ih =>
    refine (read_turns he (h l (by simp))).bind fun x q hx => ?_
    obtain ⟨-, hs, hc, rfl⟩ := hx
    refine (copy_turns w hs hc).bind fun o q ho => ?_
    obtain ⟨⟨rfl, hs'⟩, hc'⟩ := ho
    refine (ih fun l hl => h l (List.mem_cons_of_mem _ hl)).part o.blocks (zero_add _).symm
      fun os q hos => .pure ?_
    obtain ⟨rfl, hos⟩ := hos
    refine ⟨?_, List.forall_mem_cons.mpr ⟨⟨hs', hc'⟩, hos⟩⟩
    rw [add_comm]
    simp [blocksOf]

theorem emplaceAll_turns (h : ∀ o ∈ os, o.Sound ∧ o.Copyable) {v : Obj} (hv : v.Sound)
    (hc : v.Copyable) : Turns v.blocks (emplaceAll w os v) Whole := by
  induction os generalizing v with
  | nil => exact .pure ⟨rfl, hv⟩
  | cons x os ih =>
    obtain ⟨hx, hos⟩ := List.forall_mem_cons.mp h
    refine (grow_copyable_turns hv hc).bind fun v₁ q hv₁ => ?_
    obtain ⟨⟨rfl, hs₁⟩, hc₁⟩ := hv₁
    refine (checkData_turns v₁ _).bind fun _ q hq => ?_
    subst hq
    refine (copy_turns w hx.1 hx.2).part v₁.blocks (zero_add _).symm fun o q ho => ?_
    obtain ⟨⟨rfl, hso⟩, hco⟩ := ho
    rw [add_comm]
    refine (push_turns hs₁ hso).bind fun v₂ q hv₂ => ?_
    obtain ⟨⟨rfl, hs₂⟩, hc₂⟩ := hv₂
    exact ih hos hs₂ (hc₂ hc₁ hco)

theorem ofItems_turns {t : Ty} (h : ∀ o ∈ os, o.Sound ∧ o.Copyable) :
    Turns 0 (ofItems w t os) Whole := by
  unfold ofItems
  dsimp only
  split
  case isTrue => exact .pure (whole_empty t none _ 0)
  case isFalse =>
    refine (galloc_turns _).bind fun r q hr => ?_
    obtain ⟨hblocks, hs⟩ := whole_empty t r (w.cells r) (align os.length 8)
    rw [hr.1, hblocks]
    exact emplaceAll_turns h hs fun i hi => absurd hi (Nat.not_lt_zero i)

theorem destroyAll_turns (os : List Obj) :
    Turns (blocksOf os) (destroyAll os) fun _ q => q = 0 := by
  induction os with
  | nil => exact .pure rfl
  | cons o os ih =>
    refine (destroy_turns o).part (blocksOf os) (by simp [blocksOf]) fun _ q hq => ?_
    rw [hq.1, zero_add]
    exact ih

end Parts

/-! ## Constructors -/

/-- The condition of a constructor. -/
def Init.Safe (e : Env) : Init → Prop
  | .items _ ls => ∀ l ∈ ls, e.At l Obj.Copyable
  | .copy l | .variantCopy _ l => e.At l Obj.Copyable
  | .move l | .variantMove _ l => e.At l Obj.Movable
  | _ => True

/-- The constructor does not read an object that the one at `l` lies in. -/
def Init.Spares (l : Loc) : Init → Prop
  | .copy l' | .move l' | .variantCopy _ l' | .variantMove _ l' => ¬ l.Within l'
  | _ => True

section Construct

variable {w : World} {e : Env}

/-- Move from an object and go on with the new one. -/
theorem moved_turns {l : Loc} (he : e.Sound) (hat : e.At l Obj.Movable) {β : Type}
    {f : Obj → Env → Own β} {Q : β → Multiset ℕ → Prop}
    (hf : ∀ o e', o.Sound → e'.Sound → (∀ l', ¬ l'.Within l → e.Inside l' → e'.Inside l') →
      Turns (e'.blocks + o.blocks) (f o e') Q) :
    Turns e.blocks (do
      let x ← lift (e.get l)
      let (o, x) ← moveFrom x
      f o (e.put l x)) Q := by
  refine (read_turns he hat).bind fun x q hx => ?_
  obtain ⟨hx, hs, hm, rfl⟩ := hx
  obtain ⟨rest, hrest, hput⟩ := he.focus hat.1 hx
  refine (moveFrom_turns hs hm).part rest hrest fun r q hr => ?_
  obtain ⟨rfl, hs₁, hs₂, -⟩ := hr
  have hblocks : r.1.blocks + r.2.blocks + rest = (e.put l r.2).blocks + r.1.blocks := by
    rw [hput]
    abel
  rw [hblocks]
  exact hf r.1 _ hs₁ (he.put hat.1 hx hs₂) fun l' hl hin =>
    Env.put_inside hat.1 hx r.2 (fun h => absurd h hl) hin

theorem construct_turns (he : e.Sound) {i : Init} (h : i.Safe e) :
    Turns e.blocks (construct w e i) fun r q => q = r.2.blocks + r.1.blocks ∧ r.1.Sound ∧
      r.2.Sound ∧ ∀ l, i.Spares l → e.Inside l → r.2.Inside l := by
  have hkeep : ∀ l, i.Spares l → e.Inside l → e.Inside l := fun _ _ h => h
  cases i with
  | default t =>
    refine .pure ⟨?_, sound_init t, he, hkeep⟩
    rw [blocks_init, add_zero]
  | capacity t cap =>
    refine (galloc_turns _).part e.blocks (zero_add _).symm fun r q hr => .pure ?_
    obtain ⟨rfl, -⟩ := hr
    obtain ⟨hblocks, hs⟩ := whole_empty t r (w.cells r) cap
    exact ⟨hblocks ▸ add_comm _ _, hs, he, hkeep⟩
  | items t ls =>
    refine (copyItems_turns he h).part e.blocks (zero_add _).symm fun os q hos => ?_
    obtain ⟨rfl, hos⟩ := hos
    refine (ofItems_turns hos).part _ (zero_add _).symm fun v q hv => ?_
    obtain ⟨rfl, hv⟩ := hv
    refine (destroyAll_turns os.reverse).part (e.blocks + v.blocks) ?_ fun _ q hq => .pure ?_
    · rw [blocksOf_reverse]
      abel
    · rw [hq, zero_add]
      exact ⟨rfl, hv, he, hkeep⟩
  | text n | chars n =>
    unfold construct
    dsimp only
    split
    case isTrue => exact .fail _
    case isFalse hn =>
      refine (galloc_turns _).part e.blocks (zero_add _).symm fun r q hr => .pure ?_
      obtain ⟨rfl, hr⟩ := hr
      exact ⟨add_comm _ _, fun hnone => absurd (hr.mp hnone) hn, he, hkeep⟩
  | copy l | variantCopy i l =>
    refine (read_turns he h).bind fun x q hx => ?_
    obtain ⟨-, hs, hc, rfl⟩ := hx
    refine (copy_turns w hs hc).part e.blocks (zero_add _).symm fun o q ho => .pure ?_
    obtain ⟨⟨rfl, ho⟩, -⟩ := ho
    exact ⟨add_comm _ _, ho, he, hkeep⟩
  | move l =>
    exact moved_turns he h fun o e' ho he' hin => .pure ⟨rfl, ho, he', fun l' => hin l'⟩
  | variantMove i l =>
    exact moved_turns (f := fun o e => pure (Obj.active i o, e)) he h
      fun o e' ho he' hin => .pure ⟨rfl, ho, he', fun l' => hin l'⟩

end Construct

/-! ## Statements -/

/-- The condition of a statement. -/
def Safe (w : World) (e : Env) : Op → Prop
  | .declare i => i.Safe e
  | .group _ _ | .destroy _ => True
  | .assign l l' =>
    l = l' ∧ e.At l (Obj.SelfAssignable w) ∨
    l.Apart l' ∧ e.At l' Obj.Copyable ∧
      e.At l fun y => ∀ x, e.get l' = .ok x → Assignable w y x
  | .moveAssign l l' =>
    l = l' ∧ e.At l Obj.SelfMoveAssignable ∨
    l.Apart l' ∧ e.At l' Obj.Movable ∧ e.At l Obj.Discardable
  | .reserve l cap | .resize l cap => e.At l (Obj.Reservable w cap)
  | .pushBack l l' | .emplaceBack l l' =>
    e.At l (Obj.Growable w) ∧ Clear e l l' ∧ e.At l' Obj.Copyable
  | .pushBackMove l l' | .emplaceBackMove l l' =>
    e.At l (Obj.Growable w) ∧ Clear e l l' ∧ e.At l' Obj.Movable
  | .append l l' => e.At l' Obj.Copyable ∧ e.At l (Obj.Appendable w)
  | .pop l => e.At l Obj.Poppable
  | .swapRemove l _ => e.At l Obj.Swappable
  | .appendText l _ | .appendChar l | .clear l => e.Inside l
  | .emplace l _ c => e.Inside l ∧ c.Safe e ∧ c.Spares l

section Exec

variable {w : World} {e : Env}

theorem Clear.not_within {l l' : Loc} (h : Clear e l l') : ¬ l.Within l' := h.elim (·.1) (·.1)

theorem assign_stmt_turns (he : e.Sound) {l l' : Loc} (h : Safe w e (.assign l l')) :
    Turns e.blocks (exec w e (.assign l l')) Env.Whole := by
  rcases h with ⟨rfl, hat⟩ | ⟨hapart, hat', hat⟩
  · refine (look_turns l).bind fun x q hq => ?_
    subst hq
    rw [if_pos rfl]
    exact mutate_at_turns he hat fun o ho h => selfAssign_turns w ho h
  · have hne : l ≠ l' := by
      rintro rfl
      exact hapart.1 ⟨rfl, List.prefix_rfl⟩
    refine (read_turns he hat').bind fun x q hx => ?_
    obtain ⟨hx, hs, hc, rfl⟩ := hx
    rw [if_neg hne]
    exact mutate_at_turns he hat fun o ho h => assign_turns w ho hs hc (h x hx)

theorem moveAssign_stmt_turns (he : e.Sound) {l l' : Loc} (h : Safe w e (.moveAssign l l')) :
    Turns e.blocks (exec w e (.moveAssign l l')) Env.Whole := by
  rcases h with ⟨rfl, hat⟩ | ⟨hapart, hat', hat⟩
  · refine (look_turns l).bind fun x q hq => ?_
    subst hq
    rw [if_pos rfl]
    exact mutate_at_turns he hat fun o ho h => selfMoveAssign_turns ho h
  · have hne : l ≠ l' := by
      rintro rfl
      exact hapart.1 ⟨rfl, List.prefix_rfl⟩
    refine (read_turns he hat').bind fun x q hx => ?_
    obtain ⟨hx, hs, hm, rfl⟩ := hx
    rw [if_neg hne]
    -- the argument is emptied, its blocks are in hand
    obtain ⟨rest, hrest, hput⟩ := he.focus hat'.1 hx
    obtain ⟨hzero, hempty⟩ := whole_emptied hs hm
    have hblocks : e.blocks = (e.put l' (emptied x)).blocks + x.blocks := by
      rw [hput, ← hzero, zero_add, add_comm, hrest]
    rw [hblocks]
    refine mutate_turns (he.put hat'.1 hx hempty)
      (Env.put_inside hat'.1 hx _ (fun h => absurd h hapart.1) hat.1) fun y hy hsy => ?_
    rw [Env.get_put hat'.1 hx _ ⟨hapart.2, hapart.1⟩] at hy
    exact moveAssign_turns hs (hat.2 y hy)

/-- The end of `push_back` and `emplace_back`: the copy of the argument. -/
theorem pushCopy_turns (he : e.Sound) {l l' : Loc} (hin : e.Inside l) (hat : e.At l' Obj.Copyable) :
    Turns e.blocks (do
      let x ← lift (e.get l')
      let o ← copy w x
      mutate e l (push · o) : Own Env) Env.Whole := by
  refine (read_turns he hat).bind fun x q hx => ?_
  obtain ⟨-, hs, hc, rfl⟩ := hx
  refine (copy_turns w hs hc).part e.blocks (zero_add _).symm fun o q ho => ?_
  obtain ⟨⟨rfl, ho⟩, -⟩ := ho
  rw [add_comm]
  exact mutate_turns he hin fun v _ hv => (push_turns hv ho).mono fun _ _ h => h.1

/-- The same with the argument moved. -/
theorem pushMove_turns (he : e.Sound) {l l' : Loc} (hin : e.Inside l) (hout : ¬ l.Within l')
    (hat : e.At l' Obj.Movable) :
    Turns e.blocks (do
      let x ← lift (e.get l')
      let (o, x) ← moveFrom x
      mutate (e.put l' x) l (push · o) : Own Env) Env.Whole :=
  moved_turns he hat fun _ _ ho he' hin' =>
    mutate_turns he' (hin' l hout hin) fun _ _ hv => (push_turns hv ho).mono fun _ _ h => h.1

/-- The check of `emplace_back`, in front of `m`. -/
theorem checked_turns {l : Loc} {m : Own Env} (h : Turns e.blocks m Env.Whole) :
    Turns e.blocks (do
      let v ← lift (e.get l)
      checkData v
      m : Own Env) Env.Whole := by
  refine (look_turns l).bind fun v q hq => ?_
  subst hq
  refine (checkData_turns v _).bind fun _ q hq => ?_
  subst hq
  exact h

/-- A safe statement leaves exactly the blocks of the live objects. -/
theorem exec_turns (he : e.Sound) {op : Op} (h : Safe w e op) :
    Turns e.blocks (exec w e op) Env.Whole := by
  cases op with
  | declare i =>
    refine (construct_turns he h).bind fun r q hr => .pure ?_
    obtain ⟨rfl, ho, he', -⟩ := hr
    exact he'.declare ho
  | group x y =>
    unfold exec
    dsimp only
    split
    case h_1 a b ha hb =>
      split
      case isTrue => exact .fail _
      case isFalse hxy =>
        obtain ⟨hx, hex⟩ := he.drop ha
        have hb' : (e.drop x).vars y = some b := by
          unfold Env.drop
          dsimp only
          rw [Function.update_of_ne (Ne.symm hxy), hb]
        obtain ⟨hy, hey⟩ := hex.drop hb'
        have hpair := hey.declare (o := .pair a b) ⟨he.sound _ _ ha, he.sound _ _ hb⟩
        refine .pure ⟨Eq.trans ?_ hpair.1, hpair.2⟩
        show _ = _ + (a.blocks + b.blocks)
        rw [hx, hy]
        abel
    case h_2 => exact .fail _
  | destroy x =>
    unfold exec
    dsimp only
    split
    case h_1 => exact .fail _
    case h_2 o ho =>
      obtain ⟨hx, hex⟩ := he.drop ho
      refine (destroy_turns o).part _ hx fun _ q hq => .pure ⟨?_, hex⟩
      rw [hq.1, zero_add]
  | assign l l' => exact assign_stmt_turns he h
  | moveAssign l l' => exact moveAssign_stmt_turns he h
  | reserve l cap => exact mutate_at_turns he h fun o ho h => reserveTo_turns ho h
  | pushBack l l' =>
    obtain ⟨hgrow, hclear, hat⟩ := h
    refine (makeRoom_turns he hgrow hclear hat).bind fun e' q he' => ?_
    obtain ⟨⟨rfl, he'⟩, hin, hat'⟩ := he'
    exact pushCopy_turns he' hin hat'
  | pushBackMove l l' =>
    obtain ⟨hgrow, hclear, hat⟩ := h
    refine (makeRoom_turns he hgrow hclear hat).bind fun e' q he' => ?_
    obtain ⟨⟨rfl, he'⟩, hin, hat'⟩ := he'
    exact pushMove_turns he' hin hclear.not_within hat'
  | emplaceBack l l' =>
    obtain ⟨hgrow, hclear, hat⟩ := h
    refine (makeRoom_turns he hgrow hclear hat).bind fun e' q he' => ?_
    obtain ⟨⟨rfl, he'⟩, hin, hat'⟩ := he'
    exact checked_turns (pushCopy_turns he' hin hat')
  | emplaceBackMove l l' =>
    obtain ⟨hgrow, hclear, hat⟩ := h
    refine (makeRoom_turns he hgrow hclear hat).bind fun e' q he' => ?_
    obtain ⟨⟨rfl, he'⟩, hin, hat'⟩ := he'
    exact checked_turns (pushMove_turns he' hin hclear.not_within hat')
  | append l l' =>
    obtain ⟨hat', hat⟩ := h
    refine (read_turns he hat').bind fun x q hx => ?_
    obtain ⟨-, hs, hc, rfl⟩ := hx
    exact mutate_at_turns he hat fun o ho h => append_turns ho h hs hc
  | resize l size => exact mutate_at_turns he h fun o ho h => resize_turns ho h
  | pop l => exact mutate_at_turns he h fun o ho h => pop_turns ho h
  | swapRemove l idx => exact mutate_at_turns he h fun o ho h => swapRemove_turns ho h
  | appendText l len =>
    exact mutate_inside_turns he h fun o ho => appendText_turns ho
  | appendChar l =>
    exact mutate_inside_turns he h fun o ho => appendChar_turns ho
  | emplace l i c =>
    obtain ⟨hin, hc, hspares⟩ := h
    refine (look_turns l).bind fun v q hq => ?_
    subst hq
    refine (checkInactive_turns v _).bind fun _ q hq => ?_
    subst hq
    refine (construct_turns he hc).bind fun r q hr => ?_
    obtain ⟨rfl, ho, he', hin'⟩ := hr
    exact mutate_turns he' (hin' l hspares hin) fun v _ _ => activate_turns i ho
  | clear l =>
    exact mutate_inside_turns he h fun o _ => clear_turns o

end Exec

/-! ## Runs -/

section Run

variable {heap : Pool} {s s' : Env × Pool} {x : Stmt}

theorem step_eq_ok : step s x = .ok ((), s') ↔ exec x.world s.1 x.op s.2 = .ok s' := by
  unfold step
  cases exec x.world s.1 x.op s.2 <;> simp [Except.map]

theorem step_eq_error {err : Stop Fault} :
    step s x = .error err ↔ exec x.world s.1 x.op s.2 = .error err := by
  unfold step
  cases exec x.world s.1 x.op s.2 <;> simp [Except.map]

/-- The blocks in use are those from the start and those of the live objects. -/
def Balanced (heap : Pool) (s : Env × Pool) : Prop :=
  s.2.used.val = s.1.blocks + heap.used.val ∧ s.1.Sound

theorem start_balanced (heap : Pool) : Balanced heap (start heap) :=
  ⟨(zero_add _).symm, nofun, nofun⟩

/-- A safe statement keeps the balance, and does not free what is not in use. -/
theorem Balanced.step (h : Balanced heap s) (hsafe : Safe x.world s.1 x.op) :
    Objects.step s x ≠ .error .badFree ∧
      ∀ s', Objects.step s x = .ok ((), s') → Balanced heap s' := by
  have hturns := exec_turns h.2 hsafe
  refine ⟨fun hbad => hturns.safe s.2 _ h.1 (step_eq_error.mp hbad), fun s' hs' => ?_⟩
  obtain ⟨q, ⟨rfl, hsound⟩, hused⟩ := hturns.post s.2 _ s'.1 s'.2 h.1 (step_eq_ok.mp hs')
  exact ⟨hused, hsound⟩

theorem runs_balanced {hist : List (Stmt × Unit)}
    (hrun : Runs step (fun s x => Safe x.world s.1 x.op) (start heap) hist s) :
    Balanced heap s :=
  hrun.invariant (P := fun _ s => Balanced heap s) (start_balanced heap)
    fun _ _ _ _ s' h hsafe hs => (h.step hsafe).2 s' hs

/-- Every block belongs to one live object and is in use, and when all objects have been
destroyed the blocks in use are those from the start. -/
structure Owned (heap : Pool) (s : Env × Pool) : Prop where
  unshared : s.1.blocks.Nodup
  used : ∀ b ∈ s.1.blocks, b ∈ s.2.used
  returned : (∀ v < s.1.count, s.1.vars v = none) → s.2.used = heap.used

theorem Balanced.owned (h : Balanced heap s) : Owned heap s := by
  have hnodup : (s.1.blocks + heap.used.val).Nodup := h.1 ▸ s.2.used.nodup
  refine ⟨(Multiset.nodup_add.mp hnodup).1, fun b hb => ?_, fun hnone => ?_⟩
  · rw [← Finset.mem_val, h.1]
    exact Multiset.mem_add.mpr (.inl hb)
  · have hblocks : s.1.blocks = 0 := Finset.sum_eq_zero fun v hv => by
      rw [hnone v (Finset.mem_range.mp hv)]
      rfl
    rw [← Finset.val_inj, h.1, hblocks, zero_add]

end Run

/-- **Ownership.** In every run of safe statements, every state reached has its blocks
owned, and no safe statement frees a block that is not in use. -/
theorem runs_owned {heap : Pool} {hist : List (Stmt × Unit)} {s : Env × Pool}
    (hrun : Runs step (fun s x => Safe x.world s.1 x.op) (start heap) hist s) :
    Owned heap s ∧ ∀ x : Stmt, Safe x.world s.1 x.op → step s x ≠ .error .badFree :=
  ⟨(runs_balanced hrun).owned, fun _ hsafe => ((runs_balanced hrun).step hsafe).1⟩

/-- A heap without blocks. -/
def bare : Pool := ⟨∅, 0, by simp⟩

/-- A heap that never grows a block in place. -/
def rigid : World := ⟨fun _ _ => false, fun _ _ => .pod⟩

/-- `vfs_create` for a file: `entry = vfs_entry(basename, vfs_entry_union(true, Vector<u8>()))`
for an entry that was not there before. -/
theorem runs_owned_vfs_create : ∃ hist s, Owned bare s ∧ s.1.blocks = {0} ∧
    Runs step (fun s x => Safe x.world s.1 x.op) (start bare) hist s := by
  have hrun : Runs step (fun s x => Safe x.world s.1 x.op) (start bare) [] (start bare) := .nil _
  have h₁ := hrun.snoc (x := Stmt.mk rigid (.declare (.text 3))) trivial rfl
  have h₂ := h₁.snoc (x := Stmt.mk rigid (.declare (.default (.vector (.pod 1))))) trivial rfl
  have h₃ := h₂.snoc (x := Stmt.mk rigid (.declare (.variantMove 1 ⟨1, []⟩)))
    ⟨fun _ _ => inside_nil _, fun o ho => by cases ho; trivial⟩ rfl
  have h₄ := h₃.snoc (x := Stmt.mk rigid (.group 0 2)) trivial rfl
  have h₅ := h₄.snoc (x := Stmt.mk rigid (.declare (.default .string))) trivial rfl
  have h₆ := h₅.snoc (x := Stmt.mk rigid (.declare (.default (.variant 25)))) trivial rfl
  have h₇ := h₆.snoc (x := Stmt.mk rigid (.group 4 5)) trivial rfl
  have h₈ := h₇.snoc (x := Stmt.mk rigid (.moveAssign ⟨6, []⟩ ⟨3, []⟩))
    (.inr ⟨⟨fun h => absurd h.1 (by decide), fun h => absurd h.1 (by decide)⟩,
      ⟨fun _ _ => inside_nil _, fun o ho => by cases ho; exact ⟨trivial, rfl⟩⟩,
      fun _ _ => inside_nil _, fun o ho => by cases ho; exact ⟨trivial, trivial⟩⟩) rfl
  have h₉ := h₈.snoc (x := Stmt.mk rigid (.destroy 3)) trivial rfl
  exact ⟨_, _, (runs_owned h₉).1, rfl, h₉⟩

/-- `a = move(b)` loses the block of the vector `a`. And where a `variant` with a string
in it is copied, the second destructor frees a block that is not in use. -/
theorem containers_lose_and_share :
    (¬ ∀ heap hist s, Runs step (fun _ _ => True) (start heap) hist s → Owned heap s) ∧
    ¬ ∀ heap hist s, Runs step (fun _ _ => True) (start heap) hist s →
      ∀ x, step s x ≠ .error .badFree := by
  constructor
  · intro howned
    have hreplay : (replay step (fun _ _ => True) [] (start bare)
        [⟨rigid, .declare (.capacity (.pod 1) 8)⟩, ⟨rigid, .declare (.capacity (.pod 1) 8)⟩,
          ⟨rigid, .moveAssign ⟨0, []⟩ ⟨1, []⟩⟩, ⟨rigid, .destroy 0⟩, ⟨rigid, .destroy 1⟩]).map
        (fun r => (decide (∀ v < r.2.1.count, (r.2.1.vars v).isNone), decide (0 ∈ r.2.2.used))) =
        some (true, true) := by decide
    obtain ⟨⟨hist, s⟩, hr, hres⟩ := Option.map_eq_some_iff.mp hreplay
    obtain ⟨hnone, hlost⟩ := Prod.mk.inj hres
    have hreturned := (howned bare hist s ((Runs.nil _).replay hr)).returned fun v hv =>
      Option.isNone_iff_eq_none.mp (of_decide_eq_true hnone v hv)
    rw [hreturned] at hlost
    cases hlost
  · intro hfrees
    have hreplay : (replay step (fun _ _ => True) [] (start bare)
        [⟨rigid, .declare (.text 3)⟩, ⟨rigid, .declare (.variantMove 0 ⟨0, []⟩)⟩,
          ⟨rigid, .declare (.copy ⟨1, []⟩)⟩, ⟨rigid, .destroy 1⟩]).map
        (fun r => match step r.2 ⟨rigid, .destroy 2⟩ with
          | .error .badFree => true
          | _ => false) = some true := by decide
    obtain ⟨⟨hist, s⟩, hr, hbad⟩ := Option.map_eq_some_iff.mp hreplay
    dsimp only at hbad
    split at hbad
    · exact hfrees bare hist s ((Runs.nil _).replay hr) _ ‹_›
    · cases hbad

end NeptunOS.Objects
