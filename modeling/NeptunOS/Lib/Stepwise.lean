import Mathlib.Data.List.Basic

/-!
# Statement-level programs

A program over a state `σ` that may stop with an error and is executed one
statement at a time. Besides its result it leaves a trace: for each executed
assignment, the source line and the state right after it. The result is what
a caller sees; the trace is what an interrupt handler running between two
statements sees.

- `Prog.run`: result of the whole program (`run_bind`, `run_bind_eq_ok`).
- `Prog.trace`: the states at the statement boundaries (`mem_trace_bind`).
- `Prog.Spec`: boundary assertion and postcondition, with one rule for each
  way of building a program.
- `Prog.Returns`: the program does not stop; with `Prog.Spec`, total
  correctness (`Returns.post`).
- `Runs`: finite runs of a step function under a guard, with the invariant
  rule `Runs.invariant` and the refinement rule `Runs.agree_iff`; `replay`
  computes one.
-/

namespace NeptunOS.Stepwise

/-- A sequence of computations that may stop returns when both do. -/
theorem bind_eq_ok {ε α β : Type} {x : Except ε α} {f : α → Except ε β} {r : β} :
    (x >>= f) = .ok r ↔ ∃ a, x = .ok a ∧ f a = .ok r := by
  cases x with
  | error e => exact ⟨fun h => (by cases h), fun ⟨_, h, _⟩ => (by cases h)⟩
  | ok a => exact ⟨fun h => ⟨a, rfl, h⟩, fun ⟨_, h, h'⟩ => by cases h; exact h'⟩

@[simp] theorem ok_bind {ε α β : Type} (a : α) (f : α → Except ε β) :
    (Except.ok a >>= f) = f a := rfl

theorem map_eq_ok {ε α β : Type} {x : Except ε α} {f : α → β} {r : β} :
    x.map f = .ok r ↔ ∃ a, x = .ok a ∧ f a = r := by
  cases x with
  | error e => exact ⟨fun h => (by cases h), fun ⟨_, h, _⟩ => (by cases h)⟩
  | ok a => exact ⟨fun h => ⟨a, rfl, Except.ok.inj h⟩, fun ⟨_, h, h'⟩ => by cases h; rw [← h']; rfl⟩

theorem eq_ok_of_toOption {ε α : Type} {x : Except ε α} {a : α}
    (h : x.toOption = some a) : x = .ok a := by
  cases x with
  | error e => cases h
  | ok b => rw [Option.some.inj h]

/-- The invariant of a counting loop. -/
theorem foldlM_range_invariant {σ ε : Type} {f : σ → ℕ → Except ε σ} {I : ℕ → σ → Prop}
    {n : ℕ} {s s' : σ} (h : (List.range n).foldlM f s = .ok s') (hinit : I 0 s)
    (hstep : ∀ k t t', k < n → I k t → f t k = .ok t' → I (k + 1) t') : I n s' := by
  induction n generalizing s' with
  | zero =>
    obtain rfl := Except.ok.inj h
    exact hinit
  | succ n ih =>
    rw [List.range_succ, List.foldlM_append] at h
    obtain ⟨t, ht, h⟩ := bind_eq_ok.mp h
    obtain ⟨t', ht', h⟩ := bind_eq_ok.mp (List.foldlM_cons.symm.trans h)
    obtain rfl := Except.ok.inj h
    have hn : I n t := ih ht fun k t t' hk => hstep k t t' (Nat.lt_succ_of_lt hk)
    exact hstep n t t' (Nat.lt_succ_self n) hn ht'

/-- A program: the trace of its assignments and its result. -/
def Prog (σ ε α : Type) : Type := σ → List (ℕ × σ) × Except ε (α × σ)

namespace Prog

variable {σ ε α β : Type}

/-- The result of the whole program. -/
def run (x : Prog σ ε α) (s : σ) : Except ε (α × σ) := (x s).2

/-- Line and state of every statement boundary passed. -/
def trace (x : Prog σ ε α) (s : σ) : List (ℕ × σ) := (x s).1

protected def pure (a : α) : Prog σ ε α := fun s => ([], .ok (a, s))

protected def bind (x : Prog σ ε α) (f : α → Prog σ ε β) : Prog σ ε β :=
  fun s =>
    match x s with
    | (t, .ok (a, s')) => (t ++ (f a s').1, (f a s').2)
    | (t, .error e) => (t, .error e)

instance : Monad (Prog σ ε) where
  pure := Prog.pure
  bind := Prog.bind

/-- Read the state. -/
def read : Prog σ ε σ := fun s => ([], .ok (s, s))

/-- One assignment statement, tagged with its source line. -/
def stmt (line : ℕ) (f : σ → σ) : Prog σ ε Unit :=
  fun s => ([(line, f s)], .ok ((), f s))

/-- Stop. -/
def fail (e : ε) : Prog σ ε α := fun _ => ([], .error e)

/-- A pure computation that may stop, for instance a search loop. -/
def lift (x : Except ε α) : Prog σ ε α :=
  fun s => ([], x.map fun a => (a, s))

/-- `if (c) x;` without an `else`. -/
def when (c : Prop) [Decidable c] (x : Prog σ ε Unit) : Prog σ ε Unit :=
  if c then x else pure ()

/-! ## Results -/

@[simp] theorem run_pure (a : α) (s : σ) : run (pure a : Prog σ ε α) s = .ok (a, s) := rfl

@[simp] theorem run_read (s : σ) : run (read : Prog σ ε σ) s = .ok (s, s) := rfl

@[simp] theorem run_stmt (line : ℕ) (f : σ → σ) (s : σ) :
    run (stmt line f : Prog σ ε Unit) s = .ok ((), f s) := rfl

@[simp] theorem run_fail (e : ε) (s : σ) : run (fail e : Prog σ ε α) s = .error e := rfl

@[simp] theorem run_lift_ok (a : α) (s : σ) : run (lift (.ok a) : Prog σ ε α) s = .ok (a, s) := rfl

@[simp] theorem run_lift_error (e : ε) (s : σ) :
    run (lift (.error e) : Prog σ ε α) s = .error e := rfl

@[simp] theorem run_bind (x : Prog σ ε α) (f : α → Prog σ ε β) (s : σ) : run (x >>= f) s =
      match run x s with
      | .ok r => run (f r.1) r.2
      | .error e => .error e := by
  show (Prog.bind x f s).2 = _
  unfold Prog.bind run
  rcases x s with ⟨t, ⟨e⟩ | ⟨a, s'⟩⟩ <;> rfl

/-- A sequence returns exactly when both halves do. -/
theorem run_bind_eq_ok {x : Prog σ ε α} {f : α → Prog σ ε β} {s : σ} {r : β × σ} :
    run (x >>= f) s = .ok r ↔
      ∃ a s', run x s = .ok (a, s') ∧ run (f a) s' = .ok r := by
  rw [run_bind]
  cases h : run x s with
  | error e => simp
  | ok v =>
    obtain ⟨a, s'⟩ := v
    simp

theorem run_lift_eq_ok {x : Except ε α} {s : σ} {r : α × σ} :
    run (lift x : Prog σ ε α) s = .ok r ↔ x = .ok r.1 ∧ r.2 = s := by
  obtain ⟨a, s'⟩ := r
  cases x with
  | error e => simp
  | ok b =>
    simp only [run_lift_ok, Except.ok.injEq, Prod.mk.injEq]
    exact and_congr_right fun _ => eq_comm

/-! ## Traces -/

@[simp] theorem trace_pure (a : α) (s : σ) : trace (pure a : Prog σ ε α) s = [] := rfl

@[simp] theorem trace_read (s : σ) : trace (read : Prog σ ε σ) s = [] := rfl

@[simp] theorem trace_stmt (line : ℕ) (f : σ → σ) (s : σ) :
    trace (stmt line f : Prog σ ε Unit) s = [(line, f s)] := rfl

@[simp] theorem trace_fail (e : ε) (s : σ) : trace (fail e : Prog σ ε α) s = [] := rfl

@[simp] theorem trace_lift (x : Except ε α) (s : σ) : trace (lift x : Prog σ ε α) s = [] := rfl

@[simp] theorem trace_bind (x : Prog σ ε α) (f : α → Prog σ ε β) (s : σ) : trace (x >>= f) s =
      trace x s ++
        match run x s with
        | .ok r => trace (f r.1) r.2
        | .error _ => [] := by
  show (Prog.bind x f s).1 = _
  unfold Prog.bind run trace
  rcases x s with ⟨t, ⟨e⟩ | ⟨a, s'⟩⟩ <;> simp

theorem mem_trace_bind {x : Prog σ ε α} {f : α → Prog σ ε β} {s : σ} {b : ℕ × σ} :
    b ∈ trace (x >>= f) s ↔
      b ∈ trace x s ∨
        ∃ a s', run x s = .ok (a, s') ∧ b ∈ trace (f a) s' := by
  rw [trace_bind, List.mem_append]
  cases h : run x s with
  | error e => simp
  | ok v =>
    obtain ⟨a, s'⟩ := v
    simp

/-! ## Specifications -/

/-- From `s`, every statement boundary passed satisfies `B` (line and state),
whether or not the program returns, and if it returns, `Q` holds. -/
def Spec (x : Prog σ ε α) (s : σ) (B : ℕ → σ → Prop) (Q : α → σ → Prop) :
    Prop :=
  (∀ b ∈ trace x s, B b.1 b.2) ∧ ∀ a s', run x s = .ok (a, s') → Q a s'

section Spec

variable {x : Prog σ ε α} {f : α → Prog σ ε β} {s : σ} {B : ℕ → σ → Prop}
  {P : α → σ → Prop} {Q : β → σ → Prop}
variable {line : ℕ} {y : Except ε α} {c : Prop} {g : σ → σ} {k : Unit → Prog σ ε β}

theorem Spec.bind (hx : Spec x s B P)
    (hf : ∀ a s', P a s' → Spec (f a) s' B Q) : Spec (x >>= f) s B Q := by
  constructor
  · intro b hb
    rcases mem_trace_bind.mp hb with hb | ⟨a, s', hr, hb⟩
    · exact hx.1 b hb
    · exact (hf a s' (hx.2 a s' hr)).1 b hb
  · intro a s'' h
    obtain ⟨a', s', hr, h⟩ := run_bind_eq_ok.mp h
    exact (hf a' s' (hx.2 a' s' hr)).2 a s'' h

theorem Spec.pure {a : α} (h : P a s) : Spec (pure a : Prog σ ε α) s B P :=
  ⟨by simp, fun _ _ h' => by cases h'; exact h⟩

theorem Spec.read {P : σ → σ → Prop} (h : P s s) : Spec (read : Prog σ ε σ) s B P :=
  ⟨by simp, fun _ _ h' => by cases h'; exact h⟩

theorem Spec.stmt {P : Unit → σ → Prop} (hB : B line (g s)) (h : P () (g s)) :
    Spec (stmt line g : Prog σ ε Unit) s B P :=
  ⟨by simpa using hB, fun _ _ h' => by cases h'; exact h⟩

theorem Spec.fail (e : ε) : Spec (fail e : Prog σ ε α) s B P := ⟨by simp, fun _ _ h' => by cases h'⟩

theorem Spec.lift (h : ∀ a, y = .ok a → P a s) : Spec (lift y : Prog σ ε α) s B P := by
  refine ⟨by simp, fun a s' h' => ?_⟩
  obtain ⟨ha, rfl⟩ := run_lift_eq_ok.mp h'
  exact h a ha

theorem Spec.when [Decidable c] {y : Prog σ ε Unit} {P : Unit → σ → Prop} (ht : c → Spec y s B P)
    (hf : ¬ c → P () s) : Spec (when c y) s B P := by
  unfold Prog.when
  split
  · exact ht ‹_›
  · exact Spec.pure (hf ‹_›)

/-- A conditional that stops: go on with its condition false. -/
theorem Spec.unless_bind [Decidable c] {e : ε} (h : ¬ c → Spec (k ()) s B Q) :
    Spec (Prog.when c (Prog.fail e) >>= k) s B Q :=
  Spec.bind (P := fun _ s' => ¬ c ∧ s' = s)
    (Spec.when (fun _ => Spec.fail e) fun hc => ⟨hc, rfl⟩) fun _ s' hP => by
      obtain ⟨hc, rfl⟩ := hP
      exact h hc

/-- Read the state and go on from it. -/
theorem Spec.read_bind {g : σ → Prog σ ε β} (h : Spec (g s) s B Q) : Spec (Prog.read >>= g) s B Q :=
  Spec.bind (P := fun a s' => a = s ∧ s' = s) (Spec.read ⟨rfl, rfl⟩)
    fun a s' hP => by
      obtain ⟨rfl, rfl⟩ := hP
      exact h

/-- Execute a statement and go on from the state it leaves. -/
theorem Spec.stmt_bind (hB : B line (g s)) (h : Spec (k ()) (g s) B Q) :
    Spec (Prog.stmt line g >>= k) s B Q :=
  Spec.bind (P := fun _ s' => s' = g s) (Spec.stmt hB rfl) fun _ s' hP => by
    obtain rfl := hP
    exact h

/-- Go on with the value of a pure computation that did not stop. -/
theorem Spec.lift_bind (h : ∀ a, y = .ok a → Spec (f a) s B Q) : Spec (Prog.lift y >>= f) s B Q :=
  Spec.bind (P := fun a s' => y = .ok a ∧ s' = s)
    (Spec.lift fun _ ha => ⟨ha, rfl⟩) fun a s' hP => by
      obtain ⟨ha, rfl⟩ := hP
      exact h a ha

theorem Spec.mono {B' : ℕ → σ → Prop} {P' : α → σ → Prop} (h : Spec x s B P)
    (hB : ∀ line t, B line t → B' line t) (hP : ∀ a t, P a t → P' a t) :
    Spec x s B' P' :=
  ⟨fun b hb => hB _ _ (h.1 b hb), fun a s' hr => hP _ _ (h.2 a s' hr)⟩

end Spec

/-! ## Programs that return -/

/-- From `s`, the program does not stop. -/
def Returns (x : Prog σ ε α) (s : σ) : Prop := ∃ r, run x s = .ok r

section Returns

variable {x : Prog σ ε α} {f : α → Prog σ ε β} {s : σ}

theorem Returns.bind (hx : Returns x s)
    (hf : ∀ a s', run x s = .ok (a, s') → Returns (f a) s') : Returns (x >>= f) s := by
  obtain ⟨⟨a, s'⟩, hr⟩ := hx
  obtain ⟨r, hr'⟩ := hf a s' hr
  exact ⟨r, run_bind_eq_ok.mpr ⟨a, s', hr, hr'⟩⟩

theorem Returns.pure (a : α) : Returns (pure a : Prog σ ε α) s := ⟨_, rfl⟩

theorem Returns.stmt (line : ℕ) (g : σ → σ) : Returns (stmt line g : Prog σ ε Unit) s := ⟨_, rfl⟩

theorem Returns.read_bind {g : σ → Prog σ ε β} (h : Returns (g s) s) :
    Returns (Prog.read >>= g) s := by
  apply Returns.bind ⟨_, rfl⟩
  rintro _ _ ⟨⟩
  exact h

theorem Returns.stmt_bind {line : ℕ} {g : σ → σ} {k : Unit → Prog σ ε β}
    (h : Returns (k ()) (g s)) : Returns (Prog.stmt line g >>= k) s := by
  apply Returns.bind (Returns.stmt line g)
  rintro _ _ ⟨⟩
  exact h

theorem Returns.lift_bind {y : Except ε α} {a : α} (hy : y = .ok a) (h : Returns (f a) s) :
    Returns (Prog.lift y >>= f) s := by
  subst hy
  exact Returns.bind ⟨_, rfl⟩ fun _ _ hr => by cases hr; exact h

theorem Returns.when {c : Prop} [Decidable c] {y : Prog σ ε Unit} (h : c → Returns y s) :
    Returns (Prog.when c y) s := by
  unfold Prog.when
  split
  · exact h ‹_›
  · exact Returns.pure ()

/-- A conditional that stops, with its condition false. -/
theorem Returns.unless_bind {c : Prop} [Decidable c] {e : ε} {k : Unit → Prog σ ε β}
    (hc : ¬ c) (h : Returns (k ()) s) : Returns (Prog.when c (Prog.fail e) >>= k) s := by
  unfold Prog.when
  rw [if_neg hc]
  exact Returns.bind (Returns.pure ()) fun _ _ hr => by cases hr; exact h

/-- What returns under a specification meets its postcondition. -/
theorem Returns.post {B : ℕ → σ → Prop} {P : α → σ → Prop} (hx : Returns x s)
    (hspec : Spec x s B P) : ∃ a s', run x s = .ok (a, s') ∧ P a s' := by
  obtain ⟨⟨a, s'⟩, hr⟩ := hx
  exact ⟨a, s', hr, hspec.2 a s' hr⟩

end Returns

end Prog

/-! ## Guarded runs -/

section Runs

variable {σ ε A R : Type}
variable {guard' : σ → A → Prop} {s s' : σ} {h : List (A × R)}

/-- Finite runs of `step` whose every action satisfies `guard` in the state
it is taken from. The history pairs each action with what it returned. -/
inductive Runs (step : σ → A → Except ε (R × σ)) (guard : σ → A → Prop) :
    σ → List (A × R) → σ → Prop
  | nil (s : σ) : Runs step guard s [] s
  | snoc {s s' s'' : σ} {h : List (A × R)} {x : A} {y : R} :
      Runs step guard s h s' → guard s' x → step s' x = .ok (y, s'') →
      Runs step guard s (h ++ [(x, y)]) s''

variable {step : σ → A → Except ε (R × σ)} {guard : σ → A → Prop}

/-- What holds initially and is kept by every guarded step, with its
history, holds at the end of every run. -/
theorem Runs.invariant {P : List (A × R) → σ → Prop} (hrun : Runs step guard s h s')
    (hinit : P [] s) (hstep : ∀ h s x y s', P h s → guard s x → step s x = .ok (y, s') →
      P (h ++ [(x, y)]) s') : P h s' := by
  induction hrun with
  | nil => exact hinit
  | snoc _ hg hs ih => exact hstep _ _ _ _ _ ih hg hs

/-- A run under a stronger guard is a run under a weaker one. -/
theorem Runs.mono (hrun : Runs step guard s h s') (hg : ∀ s x, guard s x → guard' s x) :
    Runs step guard' s h s' := by
  induction hrun with
  | nil => exact .nil _
  | snoc _ hx hs ih => exact .snoc ih (hg _ _ hx) hs

theorem Runs.nil_iff : Runs step guard s [] s' ↔ s' = s := by
  constructor
  · generalize hh : ([] : List (A × R)) = h
    rintro (_ | ⟨_, _, _⟩)
    · rfl
    · exact absurd hh.symm (List.concat_ne_nil _ _)
  · rintro rfl
    exact .nil _

theorem Runs.concat_iff {s'' : σ} {x : A} {y : R} :
    Runs step guard s (h ++ [(x, y)]) s'' ↔
      ∃ s', Runs step guard s h s' ∧ guard s' x ∧ step s' x = .ok (y, s'') := by
  constructor
  · generalize hh : h ++ [(x, y)] = h'
    rintro (_ | ⟨hrun, hg, hs⟩)
    · exact absurd hh (List.concat_ne_nil _ _)
    · obtain ⟨rfl, hlast⟩ := List.append_inj' hh rfl
      cases hlast
      exact ⟨_, hrun, hg, hs⟩
  · rintro ⟨s', hrun, hg, hs⟩
    exact hrun.snoc hg hs

/-- The history determines the state. -/
theorem Runs.unique {s₁ s₂ : σ} (hrun₁ : Runs step guard s h s₁) (hrun₂ : Runs step guard' s h s₂) :
    s₁ = s₂ := by
  induction hrun₁ generalizing s₂ with
  | nil => exact (nil_iff.mp hrun₂).symm
  | snoc _ _ hs ih =>
    obtain ⟨s', hrun', -, hs'⟩ := concat_iff.mp hrun₂
    rw [← ih hrun', hs] at hs'
    cases hs'
    rfl

/-- Where a step keeps `P` exactly when its guard holds, `P` holds all along a run exactly
when the guard does. -/
theorem Runs.forall_prefix_iff {P : List (A × R) → σ → Prop} (hinit : P [] s)
    (hstep : ∀ h s x y s', P h s → step s x = .ok (y, s') → (P (h ++ [(x, y)]) s' ↔ guard s x))
    (hrun : Runs step (fun _ _ => True) s h s') :
    (∀ h' t, Runs step (fun _ _ => True) s h' t → h' <+: h → P h' t) ↔
      Runs step guard s h s' := by
  induction hrun with
  | nil =>
    refine iff_of_true (fun h' t hrun' hpre => ?_) (.nil _)
    obtain rfl := List.prefix_nil.mp hpre
    rwa [nil_iff.mp hrun']
  | snoc hrun _ hs ih =>
    constructor
    · intro hall
      have hprev := ih.mp fun h' t hrun' hpre =>
        hall h' t hrun' (hpre.trans (List.prefix_append _ _))
      have hP := hall _ _ hrun (List.prefix_append _ _)
      have hlast := hall _ _ (hrun.snoc trivial hs) List.prefix_rfl
      exact hprev.snoc ((hstep _ _ _ _ _ hP hs).mp hlast) hs
    · intro hguarded h' t hrun' hpre
      obtain ⟨t', hprev, hg, hs'⟩ := concat_iff.mp hguarded
      obtain rfl := hrun.unique hprev
      have hall := ih.mpr hprev
      rcases List.prefix_concat_iff.mp hpre with rfl | hpre
      · have hlast : Runs step (fun _ _ => True) s _ _ := hrun.snoc trivial hs
        obtain rfl := hrun'.unique hlast
        exact (hstep _ _ _ _ _ (hall _ _ hrun List.prefix_rfl) hs).mpr hg
      · exact hall h' t hrun' hpre

/-- **Refinement rule.** Where a step matches a step of the specification, with the same
answer, exactly when its guard holds, the two agree all along a run of the specification
exactly when that run can be taken under the guard. -/
theorem Runs.agree_iff {τ δ : Type} {spec : τ → A → Except δ (R × τ)} {rel : σ → τ → Prop}
    {t t' : τ} (hinit : rel s t) (hstep : ∀ s t x y t', rel s t → spec t x = .ok (y, t') →
      ((∃ s', step s x = .ok (y, s') ∧ rel s' t') ↔ guard s x))
    (hrun : Runs spec (fun _ _ => True) t h t') :
    (∀ h', h' <+: h → ∃ s' t', Runs step (fun _ _ => True) s h' s' ∧
        Runs spec (fun _ _ => True) t h' t' ∧ rel s' t') ↔
      ∃ s', Runs step guard s h s' := by
  induction hrun with
  | nil =>
    refine iff_of_true (fun h' hpre => ?_) ⟨s, .nil _⟩
    obtain rfl := List.prefix_nil.mp hpre
    exact ⟨s, _, .nil _, .nil _, hinit⟩
  | snoc hrun _ hs ih =>
    constructor
    · intro hall
      obtain ⟨s', hguarded⟩ := ih.mp fun h' hpre =>
        hall h' (hpre.trans (List.prefix_append _ _))
      obtain ⟨s₁, t₁, hs₁, ht₁, hrel⟩ := hall _ (List.prefix_append _ _)
      obtain rfl := hs₁.unique hguarded
      obtain rfl := ht₁.unique hrun
      obtain ⟨s₂, t₂, hs₂, ht₂, hrel₂⟩ := hall _ List.prefix_rfl
      obtain ⟨s₁', hs₁', -, hlast⟩ := concat_iff.mp hs₂
      obtain rfl := hs₁'.unique hguarded
      obtain rfl := ht₂.unique (hrun.snoc trivial hs)
      exact ⟨s₂, hguarded.snoc ((hstep _ _ _ _ _ hrel hs).mp ⟨s₂, hlast, hrel₂⟩) hlast⟩
    · rintro ⟨s₂, hguarded⟩ h' hpre
      obtain ⟨s₁, hs₁, hg, -⟩ := concat_iff.mp hguarded
      have hall := ih.mpr ⟨s₁, hs₁⟩
      rcases List.prefix_concat_iff.mp hpre with rfl | hpre
      · obtain ⟨s₁', t₁, hs₁', ht₁, hrel⟩ := hall _ List.prefix_rfl
        obtain rfl := hs₁'.unique hs₁
        obtain rfl := ht₁.unique hrun
        obtain ⟨s', hs', hrel'⟩ := (hstep _ _ _ _ _ hrel hs).mpr hg
        exact ⟨s', _, hs₁'.snoc trivial hs', hrun.snoc trivial hs, hrel'⟩
      · exact hall h' hpre

/-- Take the actions one after the other, as long as the guard allows it and
the steps return. `h` is the history so far. -/
def replay (step : σ → A → Except ε (R × σ)) (guard : σ → A → Prop)
    [∀ s x, Decidable (guard s x)] (h : List (A × R)) (s : σ) :
    List A → Option (List (A × R) × σ)
  | [] => some (h, s)
  | x :: xs =>
    if guard s x then
      match step s x with
      | .ok (y, s') => replay step guard (h ++ [(x, y)]) s' xs
      | .error _ => none
    else none

/-- A replay is a run. -/
theorem Runs.replay [∀ s x, Decidable (guard s x)] {s : σ} :
    ∀ {xs : List A} {h : List (A × R)} {s' : σ} {r : List (A × R) × σ},
      Runs step guard s h s' → Stepwise.replay step guard h s' xs = some r →
      Runs step guard s r.1 r.2
  | [], _, _, _, hrun, hr => by
    obtain rfl := Option.some.inj hr
    exact hrun
  | x :: xs, h, s', r, hrun, hr => by
    unfold Stepwise.replay at hr
    split at hr
    case isFalse => cases hr
    case isTrue hg =>
      split at hr
      · exact (hrun.snoc hg ‹_›).replay hr
      · cases hr

end Runs

end NeptunOS.Stepwise
