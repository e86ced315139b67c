import NeptunOS.Sched.Rotation

/-!
# Locks and the timer interrupt

One processor, tasks that call into the heap and the scheduler one instruction at a
time, and a timer interrupt that may come between any two. Of the calls, only what
concerns `sched_m`, `sched_tasks.m`, `g_vmm.m` and `sched_running` is kept. The
interrupt handler runs with interrupts off, so that a lock it waits for is never
released: it is one step, which may end up spinning.

- `Mirrors.tick`: a tick that does not spin is the tick of `Sched`.
- `Sound`: who holds which lock can be read off the tasks' positions.
- `Sound.tick_waits`: when a tick spins.
- `waits_for_heap`: what a task can wait for.
-/

namespace NeptunOS.Preemption

open Stepwise Function

/-! ## Calls -/

/-- `sched_m`, `sched_tasks.m` and `g_vmm.m`. -/
inductive Mutex where
  | schedM
  | tasksM
  | vmmM
deriving DecidableEq, Repr

inductive Instr where
  | lock (m : Mutex)
  | unlock (m : Mutex)
  | setRunning (b : Bool)
  | assertRunning
  -- the new link is in the ring
  | link
  -- `scheduled_for_deletion = true`
  | mark
  | pause
deriving DecidableEq, Repr

inductive Call where
  | kmalloc
  | kfree
  | addThread
  | addUserProcess
  | exitThread
deriving DecidableEq, Repr

/-- `MemoryMgr::alloc` and `MemoryMgr::free`, within their `LockguardSimple`. -/
def heapCall : List Instr := [.lock .vmmM, .unlock .vmmM]

/-- `LinkedList::push_back`, with the `new Link` inside. -/
def pushBack : List Instr := .lock .tasksM :: heapCall ++ [.link, .unlock .tasksM]

/-- What a call does, in order; `~schedguard` comes after `sched_m.unlock()`. -/
def Call.body : Call → List Instr
  | .kmalloc => heapCall
  | .kfree => heapCall
  | .addThread =>
    [.lock .schedM, .setRunning false] ++ heapCall ++ heapCall ++ pushBack ++
      [.unlock .schedM, .setRunning true]
  | .addUserProcess =>
    [.assertRunning, .lock .schedM, .setRunning false] ++ heapCall ++ pushBack ++
      [.unlock .schedM, .setRunning true]
  | .exitThread =>
    [.lock .schedM, .setRunning false, .mark, .unlock .schedM, .setRunning true, .pause]

/-! ## The machine -/

/-- The ring of tasks and what each has still to do. `holder` says whose `lock()` set a
mutex; `spinning` is the mutex that `sched_tick` waits for. -/
structure Machine where
  tasks : List ℕ
  current : ℕ
  code : ℕ → List Instr
  marked : ℕ → Bool
  holder : Mutex → Option ℕ
  running : Bool
  interrupts : Bool
  spinning : Option Mutex
  fresh : ℕ

namespace Machine

/-- After `sched_start`. -/
def started : Machine where
  tasks := [0]
  current := 0
  code _ := []
  marked _ := false
  holder _ := none
  running := true
  interrupts := true
  spinning := none
  fresh := 1

/-- The running task goes on with `rest`. -/
def goto (s : Machine) (rest : List Instr) : Machine :=
  { s with code := update s.code s.current rest }

/-- The next instruction of the running task. -/
def exec (s : Machine) : Except Halt Machine :=
  match s.code s.current with
  | [] => .ok s
  | .lock m :: rest =>
    -- a mutex that is taken is waited for
    if (s.holder m).isSome then .ok s
    else .ok { s.goto rest with holder := update s.holder m (some s.current) }
  | .unlock m :: rest => .ok { s.goto rest with holder := update s.holder m none }
  | .setRunning b :: rest => .ok { s.goto rest with running := b }
  | .assertRunning :: rest =>
    if s.running then .ok (s.goto rest) else .error (.assertion "sched_running")
  | .link :: rest =>
    .ok { s with
      tasks := s.tasks ++ [s.fresh]
      code := update (update s.code s.current rest) s.fresh []
      marked := update s.marked s.fresh false
      fresh := s.fresh + 1 }
  | .mark :: rest => .ok { s.goto rest with marked := update s.marked s.current true }
  | .pause :: _ => .ok { s with interrupts := false }

/-- `ctask->next`. -/
def next (s : Machine) : ℕ :=
  ((Sched.rotation s.current s.tasks).tail ++ [s.current]).headD s.current

/-- `sched_tasks.remove(*ctask)` in the tick; `delete &l` frees the link. -/
def removeCurrent (s : Machine) : Machine :=
  if (s.holder .tasksM).isSome then { s with spinning := some .tasksM }
  else if (s.holder .vmmM).isSome then { s with spinning := some .vmmM }
  else { s with tasks := s.tasks.erase s.current, current := s.next }

/-- `sched_tick(frame, false, true)`. -/
def tick (s : Machine) : Except Halt Machine :=
  if !s.running then .ok s
  else if (s.holder .schedM).isSome then .ok { s with spinning := some .schedM }
  else if s.current ∉ s.tasks then .error (.exception "use of a deleted link")
  else if s.marked s.current then .ok s.removeCurrent
  else .ok { s with current := s.next }

/-- The timer interrupt, unless it is masked. -/
def interrupt (s : Machine) : Except Halt Machine := if s.interrupts then s.tick else .ok s

/-- What happens next: the running task starts a call or goes on with one, or the timer
interrupt comes. -/
inductive Action where
  | call (c : Call)
  | exec
  | timer
deriving DecidableEq, Repr

def step (s : Machine) (a : Action) : Except Halt (Unit × Machine) :=
  if s.spinning.isSome then .error .spinning
  else
    match a with
    | .call c => .ok ((), if s.code s.current = [] then s.goto c.body else s)
    | .exec => do
      let t ← s.exec
      return ((), t)
    | .timer => do
      let t ← s.interrupt
      return ((), t)

/-! ## The scheduler's own tick -/

section Mirrors

variable {p p' : Machine} {s s' : Sched} {v : Sched.View}

/-- The ring, the running task and the marks are those of the scheduler. -/
structure Mirrors (p : Machine) (v : Sched.View) : Prop where
  tasks : p.tasks = v.contents.addrs
  current : p.current = v.current
  marked : ∀ e ∈ v.contents.elems, p.marked e.1 = e.2.scheduledForDeletion

theorem Mirrors.next_eq (hp : Mirrors p v) (hv : v.Sound) {us vs : List ℕ}
    (hsplit : v.contents.addrs = us ++ v.current :: vs) :
    some p.next = (vs ++ us ++ [v.current]).head? := by
  have hnd := hv.nodup
  rw [hsplit] at hnd
  rw [Machine.next, hp.tasks, hp.current, hsplit, Sched.rotation_eq hnd, List.tail_cons]
  cases vs ++ us <;> rfl

theorem removeCurrent_quiet (hquiet : p.removeCurrent.spinning = none) :
    p.removeCurrent = { p with tasks := p.tasks.erase p.current, current := p.next } := by
  rw [removeCurrent] at hquiet ⊢
  split at hquiet
  case isTrue => cases hquiet
  case isFalse htasks =>
    split at hquiet
    case isTrue => cases hquiet
    case isFalse hvmm => rw [if_neg htasks, if_neg hvmm]

theorem tick_quiet (hrunning : p.running = true) (htick : p.tick = .ok p')
    (hquiet : p'.spinning = none) :
    p' = if p.marked p.current then p.removeCurrent else { p with current := p.next } := by
  rw [Machine.tick, if_neg (by simp [hrunning])] at htick
  split at htick
  case isTrue =>
    cases htick
    cases hquiet
  case isFalse =>
    split at htick
    case isTrue => cases htick
    case isFalse =>
      rw [← apply_ite Except.ok] at htick
      exact (Except.ok.inj htick).symm

/-- A tick that does not spin does to the ring what the tick of the scheduler does. -/
theorem Mirrors.tick (hp : Mirrors p v) (hv : v.Sound) (hs : Sched.Shows s v)
    (hrunning : p.running = s.running) {state : Sched.CpuState} {sse : List ℕ}
    {d : Option Sched.Dispatch} (h : s.tick state sse false = .ok (d, s'))
    (htick : p.tick = .ok p') (hquiet : p'.spinning = none) :
    ∃ v', Sched.Shows s' v' ∧ Mirrors p' v' := by
  cases hrun : s.running with
  | false =>
    rw [Machine.tick, hrunning, hrun, Bool.not_false, if_pos rfl] at htick
    rw [Sched.tick, hrun, Bool.not_false, Bool.and_self, if_pos rfl] at h
    cases htick
    cases h
    exact ⟨v, ⟨hs.tasks, hs.current, hs.fresh⟩, hp⟩
  | true =>
    have hsome := Sched.tick_isSome (by rw [hrun]; rfl) h
    obtain ⟨v', hchange, hs'⟩ := Sched.tick_change hv hs h
    refine ⟨v', hs', ?_⟩
    obtain rfl := tick_quiet (hrunning.trans hrun) htick hquiet
    cases hchange with
    | idle => cases hsome
    | @save _ _ _ t u j us vs ht hmark hsplit hnext hu =>
      rw [hp.current, hp.marked _ ht, hmark, if_neg Bool.false_ne_true]
      refine ⟨hp.tasks.trans (LinkedList.Contents.setData_addrs ..).symm, ?_, fun e he => ?_⟩
      · exact Option.some.inj ((hp.next_eq hv hsplit).trans hnext)
      · obtain ⟨rfl, -⟩ | ⟨-, he⟩ := LinkedList.Contents.mem_setData he
        · exact (hp.marked (v.current, t) ht).trans hmark
        · exact hp.marked e he
    | @leave _ _ _ t u j us vs ht hmark hsplit haddrs hnext hu =>
      rw [hp.current, hp.marked _ ht, hmark, if_pos rfl] at hquiet ⊢
      rw [removeCurrent_quiet hquiet]
      have hne : vs ++ us ≠ [] := by
        intro hnil
        rw [hnil] at hnext
        cases hnext
      have hcur : v.current ∉ us := fun hin =>
        (List.nodup_middle.mp (hsplit ▸ hv.nodup)).notMem (List.mem_append_left _ hin)
      refine ⟨?_, ?_, fun e he => hp.marked e (Sched.mem_remove.mp he).1⟩
      · show p.tasks.erase p.current = _
        rw [hp.tasks, hp.current, haddrs, hsplit, List.erase_append_right _ hcur,
          List.erase_cons_head]
      · have heq := hp.next_eq hv hsplit
        rw [List.head?_append_of_ne_nil _ hne, hnext] at heq
        exact Option.some.inj heq

end Mirrors

/-- `sched_tick` waits for a mutex that a task holds. -/
def Waits (s : Machine) : Prop := ∃ m j, s.spinning = some m ∧ s.holder m = some j

/-! ## Positions -/

/-- Between `lock()` and `unlock()`. -/
def inside (m : Mutex) (code : List Instr) : Bool :=
  code.find? (fun x => x = .lock m || x = .unlock m) = some (.unlock m)

/-- `sched_running` is set there. -/
def preemptible (code : List Instr) : Bool :=
  code.find? (fun x => x = .setRunning true || x = .setRunning false) ≠ some (.setRunning true)

/-- A timer interrupt that may preempt finds the running task not between `sched_m.lock()`
and `sched_running = false`, and if that task is to be deleted, no other one between
taking and releasing the heap lock. -/
def Careful (s : Machine) : Action → Prop
  | .timer => s.interrupts = true → s.running = true →
      (s.code s.current).head? ≠ some (.setRunning false) ∧
      (s.marked s.current = true → ∀ j ∈ s.tasks, inside .vmmM (s.code j) = false)
  | _ => True

instance (s : Machine) (a : Action) : Decidable (Careful s a) := by
  cases a <;> unfold Careful <;> infer_instance

/-- All positions in calls. -/
def positions : List (List Instr) :=
  [Call.kmalloc, .kfree, .addThread, .addUserProcess, .exitThread].flatMap fun c => c.body.tails

theorem nil_mem_positions : [] ∈ positions := by decide

theorem body_mem_positions (c : Call) : c.body ∈ positions := by cases c <;> decide

theorem tail_mem_positions : ∀ code ∈ positions, code.tail ∈ positions := by decide

theorem mem_positions_of_cons {x : Instr} {rest : List Instr} (h : x :: rest ∈ positions) :
    rest ∈ positions := tail_mem_positions _ h

theorem body_start (c : Call) : preemptible c.body = true ∧
    c.body.head? ≠ some (.setRunning false) ∧ ∀ m, inside m c.body = false := by
  refine ⟨by cases c <;> decide, by cases c <;> decide, ?_⟩
  intro m
  cases c <;> cases m <;> decide

/-- `sched_m` is held with the scheduler running in one place only. -/
theorem window_of_inside : ∀ code ∈ positions, inside .schedM code = true →
    preemptible code = true → code.head? = some (.setRunning false) := by decide

theorem inside_of_window : ∀ code ∈ positions, code.head? = some (.setRunning false) →
    inside .schedM code = true ∧ preemptible code = true := by decide

/-- `sched_tasks.m` is only taken with the scheduler stopped. -/
theorem tasksM_of_inside : ∀ code ∈ positions, inside .tasksM code = true →
    preemptible code = false := by decide

theorem inside_of_lock (m : Mutex) :
    ∀ code ∈ positions, code.head? = some (.lock m) → inside m code.tail = true := by
  cases m <;> decide

theorem inside_of_unlock (m : Mutex) :
    ∀ code ∈ positions, code.head? = some (.unlock m) → inside m code.tail = false := by
  cases m <;> decide

theorem preemptible_of_setRunning (b : Bool) :
    ∀ code ∈ positions, code.head? = some (.setRunning b) → preemptible code.tail = b := by
  cases b <;> decide +kernel

/-- What a marked task has still to do. -/
def exitTails : List (List Instr) :=
  [[.unlock .schedM, .setRunning true, .pause], [.setRunning true, .pause], [.pause]]

theorem exitTails_of_mark :
    ∀ code ∈ positions, code.head? = some .mark → code.tail ∈ exitTails := by decide

theorem exitTails_tail : ∀ code ∈ exitTails, code.head? ≠ some .pause →
    code.tail ∈ exitTails := by decide

theorem pause_of_preemptible : ∀ code ∈ exitTails, preemptible code = true →
    code = [.pause] := by decide

@[simp] theorem inside_nil (m : Mutex) : inside m [] = false := rfl

@[simp] theorem inside_lock (m : Mutex) (rest : List Instr) :
    inside m (.lock m :: rest) = false := by simp [inside]

@[simp] theorem inside_unlock (m : Mutex) (rest : List Instr) :
    inside m (.unlock m :: rest) = true := by simp [inside]

theorem inside_cons {m : Mutex} (x : Instr) (rest : List Instr) (hl : x ≠ .lock m)
    (hu : x ≠ .unlock m) : inside m (x :: rest) = inside m rest := by
  simp [inside, hl, hu]

theorem preemptible_cons (x : Instr) (rest : List Instr) (hx : ∀ b, x ≠ .setRunning b) :
    preemptible (x :: rest) = preemptible rest := by
  simp [preemptible, hx]

/-! ## The invariant -/

/-- Locks and the flag follow the tasks' positions. Only the running task can be where the
scheduler is stopped, or in the window before that. -/
structure Sound (s : Machine) : Prop where
  quiet : s.spinning = none
  position : ∀ j, s.code j ∈ positions
  holds : ∀ m j, s.holder m = some j ↔ inside m (s.code j) = true
  flag : s.running = preemptible (s.code s.current)
  others : ∀ j, j ≠ s.current →
    preemptible (s.code j) = true ∧ (s.code j).head? ≠ some (.setRunning false)
  exiting : ∀ j, s.marked j = true → s.code j ∈ exitTails
  gone : ∀ j, j ∉ s.tasks → s.fresh ≤ j ∨ s.code j = [.pause]
  known : ∀ j, s.fresh ≤ j → s.code j = []
  member : ∀ j ∈ s.tasks, j < s.fresh
  old : s.current < s.fresh

theorem started_sound : Sound started where
  quiet := rfl
  position _ := nil_mem_positions
  holds m j := by simp [started]
  flag := rfl
  others j _ := ⟨rfl, nofun⟩
  exiting j h := by cases h
  gone j hj := .inl (Nat.one_le_iff_ne_zero.mpr fun h0 => hj (h0 ▸ List.mem_cons_self))
  known _ _ := rfl
  member j hj := by
    rw [List.mem_singleton.mp hj]
    exact Nat.one_pos
  old := Nat.one_pos

section Sound

variable {s s' : Machine}

section

variable (hs : Sound s)
variable {rest : List Instr} {marked : ℕ → Bool} {m : Mutex} {x : Instr}

include hs

/-- The running task moves on to `rest`, with locks, flag and marks to match. -/
theorem Sound.goto (hmem : s.current ∈ s.tasks) (hpos : rest ∈ positions)
    {holder : Mutex → Option ℕ} {running : Bool}
    (hholds : ∀ m j, holder m = some j ↔ inside m (update s.code s.current rest j) = true)
    (hflag : running = preemptible rest)
    (hmarked : ∀ j, marked j = true → update s.code s.current rest j ∈ exitTails) :
    Sound { s.goto rest with holder, running, marked } where
  quiet := hs.quiet
  position j := by
    by_cases hj : j = s.current
    · subst hj
      simpa [Machine.goto] using hpos
    · simpa [Machine.goto, hj] using hs.position j
  holds := hholds
  flag := by simpa [Machine.goto] using hflag
  others j hj := by
    rw [show ({ s.goto rest with holder, running, marked } : Machine).code j = s.code j from
      update_of_ne hj ..]
    exact hs.others j hj
  exiting := hmarked
  gone j hj := by
    have hne : j ≠ s.current := fun heq => hj (heq ▸ hmem)
    rw [show ({ s.goto rest with holder, running, marked } : Machine).code j = s.code j from
      update_of_ne hne ..]
    exact hs.gone j hj
  known j hj := by
    have hne : j ≠ s.current := fun heq => Nat.lt_irrefl _ (heq ▸ hs.old |>.trans_le hj)
    rw [show ({ s.goto rest with holder, running, marked } : Machine).code j = s.code j from
      update_of_ne hne ..]
    exact hs.known j hj
  member := hs.member
  old := hs.old

/-- Moving on without touching a mutex. -/
theorem Sound.holds_goto (h : inside m rest = inside m (s.code s.current)) (j : ℕ) :
    s.holder m = some j ↔ inside m (update s.code s.current rest j) = true := by
  rw [hs.holds]
  by_cases hj : j = s.current
  · subst hj
    rw [update_self, h]
  · rw [update_of_ne hj]

theorem Sound.exiting_goto (hcode : s.code s.current = x :: rest) (hx : x ≠ .pause) (j : ℕ)
    (hj : s.marked j = true) : update s.code s.current rest j ∈ exitTails := by
  have hin := hs.exiting j hj
  by_cases hcur : j = s.current
  · subst hcur
    rw [hcode] at hin
    rw [update_self]
    exact exitTails_tail _ hin (by simpa using hx)
  · rwa [update_of_ne hcur]

/-- A task that is not there waits to be switched off. -/
theorem Sound.mem_tasks (hcode : s.code s.current = x :: rest) (hx : x ≠ .pause) :
    s.current ∈ s.tasks := by
  by_contra hout
  rcases hs.gone _ hout with hlt | hpause
  · exact absurd hs.old (Nat.not_lt.mpr hlt)
  · rw [hcode] at hpause
    exact hx (List.cons.inj hpause).1

/-- A new task in the ring. -/
theorem Sound.link : Sound { s with
    tasks := s.tasks ++ [s.fresh]
    code := update s.code s.fresh []
    marked := update s.marked s.fresh false
    fresh := s.fresh + 1 } := by
  have hcode : update s.code s.fresh [] = s.code := by
    rw [← hs.known s.fresh le_rfl, update_eq_self]
  rw [hcode]
  constructor
  case quiet => exact hs.quiet
  case position => exact hs.position
  case holds => exact hs.holds
  case flag => exact hs.flag
  case others => exact hs.others
  case exiting =>
    intro j hj
    by_cases hnew : j = s.fresh
    · subst hnew
      simp at hj
    · exact hs.exiting j (by simpa [hnew] using hj)
  case gone =>
    intro j hj
    rw [List.mem_append, not_or, List.mem_singleton] at hj
    exact (hs.gone j hj.1).imp_left fun hle => Nat.lt_of_le_of_ne hle (Ne.symm hj.2)
  case known => exact fun j hj => hs.known j (Nat.le_of_succ_le hj)
  case member =>
    intro j hj
    rcases List.mem_append.mp hj with hj | hj
    · exact Nat.lt_succ_of_lt (hs.member j hj)
    · rw [List.mem_singleton.mp hj]
      exact Nat.lt_succ_self _
  case old => exact Nat.lt_succ_of_lt hs.old

/-- Moving on past something that is neither a lock operation nor the flag. -/
theorem Sound.pass (hcode : s.code s.current = x :: rest) (hl : ∀ m, x ≠ .lock m)
    (hu : ∀ m, x ≠ .unlock m) (hr : ∀ b, x ≠ .setRunning b) (hp : x ≠ .pause)
    (hmarked : ∀ j, marked j = true → update s.code s.current rest j ∈ exitTails) :
    Sound { s.goto rest with marked } := by
  have hpos := hs.position s.current
  rw [hcode] at hpos
  refine hs.goto (hs.mem_tasks hcode hp) (mem_positions_of_cons hpos)
    (fun m => hs.holds_goto ?_) ?_ hmarked
  · rw [hcode, inside_cons x rest (hl m) (hu m)]
  · show s.running = _
    rw [hs.flag, hcode, preemptible_cons x rest hr]

theorem Sound.lock (hcode : s.code s.current = .lock m :: rest) (hfree : s.holder m = none) :
    Sound { s.goto rest with holder := update s.holder m (some s.current) } := by
  have hpos := hs.position s.current
  rw [hcode] at hpos
  refine hs.goto (hs.mem_tasks hcode nofun) (mem_positions_of_cons hpos) ?_ ?_
    (hs.exiting_goto hcode nofun)
  · intro m' j
    by_cases hm : m' = m
    · subst hm
      by_cases hj : j = s.current
      · subst hj
        simpa using inside_of_lock m' _ hpos rfl
      · -- nobody else is inside
        rw [update_of_ne hj, ← hs.holds, hfree]
        simp [Ne.symm hj]
    · rw [update_of_ne hm]
      refine hs.holds_goto ?_ j
      rw [hcode, inside_cons (.lock m) rest (by simpa using Ne.symm hm) nofun]
  · show s.running = _
    rw [hs.flag, hcode, preemptible_cons (.lock m) rest nofun]

theorem Sound.unlock (hcode : s.code s.current = .unlock m :: rest) :
    Sound { s.goto rest with holder := update s.holder m none } := by
  have hpos := hs.position s.current
  rw [hcode] at hpos
  have hmine : s.holder m = some s.current := by
    rw [hs.holds, hcode, inside_unlock]
  refine hs.goto (hs.mem_tasks hcode nofun) (mem_positions_of_cons hpos) ?_ ?_
    (hs.exiting_goto hcode nofun)
  · intro m' j
    by_cases hm : m' = m
    · subst hm
      by_cases hj : j = s.current
      · subst hj
        simpa using inside_of_unlock m' _ hpos rfl
      · rw [update_of_ne hj, ← hs.holds, hmine]
        simp [Ne.symm hj]
    · rw [update_of_ne hm]
      refine hs.holds_goto ?_ j
      rw [hcode, inside_cons (.unlock m) rest nofun (by simpa using Ne.symm hm)]
  · show s.running = _
    rw [hs.flag, hcode, preemptible_cons (.unlock m) rest nofun]

theorem Sound.setRunning {b : Bool} (hcode : s.code s.current = .setRunning b :: rest) :
    Sound { s.goto rest with running := b } := by
  have hpos := hs.position s.current
  rw [hcode] at hpos
  refine hs.goto (hs.mem_tasks hcode nofun) (mem_positions_of_cons hpos)
    (fun m => hs.holds_goto ?_) (preemptible_of_setRunning b _ hpos rfl).symm
    (hs.exiting_goto hcode nofun)
  rw [hcode, inside_cons (.setRunning b) rest nofun nofun]

theorem Sound.mark (hcode : s.code s.current = .mark :: rest) :
    Sound { s.goto rest with marked := update s.marked s.current true } := by
  have hpos := hs.position s.current
  rw [hcode] at hpos
  refine hs.pass hcode nofun nofun nofun nofun fun j hj => ?_
  by_cases hcur : j = s.current
  · subst hcur
    simpa using exitTails_of_mark _ hpos rfl
  · rw [update_of_ne hcur] at hj
    exact hs.exiting_goto hcode nofun j hj

theorem Sound.exec (h : s.exec = .ok s') : Sound s' := by
  unfold Machine.exec at h
  split at h
  case h_1 =>
    cases h
    exact hs
  case h_2 m rest hcode =>
    split at h <;> cases h
    case isTrue => exact hs
    case isFalse hfree => exact hs.lock hcode (Option.not_isSome_iff_eq_none.mp hfree)
  case h_3 m rest hcode =>
    cases h
    exact hs.unlock hcode
  case h_4 b rest hcode =>
    cases h
    exact hs.setRunning hcode
  case h_5 rest hcode =>
    split at h <;> cases h
    exact hs.pass hcode nofun nofun nofun nofun (hs.exiting_goto hcode nofun)
  case h_6 rest hcode =>
    cases h
    exact (hs.pass hcode nofun nofun nofun nofun (hs.exiting_goto hcode nofun)).link
  case h_7 rest hcode =>
    cases h
    exact hs.mark hcode
  case h_8 =>
    cases h
    exact ⟨hs.quiet, hs.position, hs.holds, hs.flag, hs.others, hs.exiting, hs.gone,
      hs.known, hs.member, hs.old⟩

theorem Sound.call (c : Call) (hidle : s.code s.current = []) : Sound (s.goto c.body) := by
  obtain ⟨hopen, -, hout⟩ := body_start c
  have hmem : s.current ∈ s.tasks := by
    by_contra hnot
    rcases hs.gone _ hnot with hlt | hpause
    · exact absurd hs.old (Nat.not_lt.mpr hlt)
    · rw [hidle] at hpause
      cases hpause
  refine hs.goto hmem (body_mem_positions c) (fun m => hs.holds_goto ?_) ?_ fun j hj => ?_
  · rw [hidle, hout m, inside_nil]
  · show s.running = _
    rw [hs.flag, hidle, hopen]
    rfl
  · have hin := hs.exiting j hj
    have hne : j ≠ s.current := by
      rintro rfl
      rw [hidle] at hin
      exact absurd hin (by decide)
    rwa [update_of_ne hne]

/-- With the scheduler running, no task is where it is stopped. -/
theorem Sound.preemptible (hrunning : s.running = true) (j : ℕ) :
    Machine.preemptible (s.code j) = true := by
  by_cases hj : j = s.current
  · subst hj
    exact hs.flag.symm.trans hrunning
  · exact (hs.others j hj).1

theorem Sound.tasksM_free (hrunning : s.running = true) : s.holder .tasksM = none := by
  by_contra hheld
  obtain ⟨j, hj⟩ := Option.ne_none_iff_exists'.mp hheld
  have hstopped := tasksM_of_inside _ (hs.position j) ((hs.holds _ j).mp hj)
  rw [hs.preemptible hrunning j] at hstopped
  cases hstopped

/-- `sched_m` is held by the running task in its window, or by nobody. -/
theorem Sound.schedM_held (hrunning : s.running = true) : s.holder .schedM =
      if (s.code s.current).head? = some (.setRunning false) then some s.current else none := by
  split
  case isTrue hwindow =>
    rw [hs.holds]
    exact (inside_of_window _ (hs.position _) hwindow).1
  case isFalse hwindow =>
    by_contra hheld
    obtain ⟨j, hj⟩ := Option.ne_none_iff_exists'.mp hheld
    have hhead := window_of_inside _ (hs.position j) ((hs.holds _ j).mp hj)
      (hs.preemptible hrunning j)
    by_cases hcur : j = s.current
    · exact hwindow (hcur ▸ hhead)
    · exact (hs.others j hcur).2 hhead

/-- The heap lock is held by a task of the ring. -/
theorem Sound.vmmM_free :
    s.holder .vmmM = none ↔ ∀ j ∈ s.tasks, inside .vmmM (s.code j) = false := by
  constructor
  · intro hnone j _
    rw [Bool.eq_false_iff, ne_eq, ← hs.holds, hnone]
    exact nofun
  · intro hall
    by_contra hheld
    obtain ⟨j, hj⟩ := Option.ne_none_iff_exists'.mp hheld
    have hin := (hs.holds _ j).mp hj
    by_cases hmem : j ∈ s.tasks
    · rw [hall j hmem] at hin
      cases hin
    · rcases hs.gone j hmem with hnew | hpause
      · rw [hs.known j hnew] at hin
        cases hin
      · rw [hpause] at hin
        cases hin

theorem Sound.next_lt : s.next < s.fresh := by
  have hall : ∀ j ∈ (Sched.rotation s.current s.tasks).tail ++ [s.current], j < s.fresh := by
    intro j hj
    rcases List.mem_append.mp hj with hj | hj
    · exact hs.member j ((Sched.rotation_perm _ _).mem_iff.mp (List.mem_of_mem_tail hj))
    · rw [List.mem_singleton.mp hj]
      exact hs.old
  unfold Machine.next
  cases hlist : (Sched.rotation s.current s.tasks).tail ++ [s.current] with
  | nil => exact hs.old
  | cons j js => exact hall j (hlist ▸ List.mem_cons_self)

/-- The switch to another task leaves the running one at a place where that is allowed. -/
theorem Sound.switch (hrunning : s.running = true)
    (hwindow : (s.code s.current).head? ≠ some (.setRunning false)) {tasks : List ℕ}
    (hsub : ∀ j ∈ tasks, j ∈ s.tasks)
    (hgone : ∀ j, j ∉ tasks → s.fresh ≤ j ∨ s.code j = [.pause]) :
    Sound { s with tasks, current := s.next } where
  quiet := hs.quiet
  position := hs.position
  holds := hs.holds
  flag := hrunning.trans (hs.preemptible hrunning _).symm
  others j _ := by
    refine ⟨hs.preemptible hrunning j, ?_⟩
    by_cases hj : j = s.current
    · exact hj ▸ hwindow
    · exact (hs.others j hj).2
  exiting := hs.exiting
  gone := hgone
  known := hs.known
  member j hj := hs.member j (hsub j hj)
  old := hs.next_lt

/-- A careful tick returns or switches. -/
theorem Sound.tick (hon : s.interrupts = true) (hcareful : Careful s .timer)
    (h : s.tick = .ok s') : Sound s' := by
  unfold Machine.tick at h
  split at h
  case isTrue =>
    cases h
    exact hs
  case isFalse hstopped =>
    have hrunning : s.running = true := by simpa using hstopped
    obtain ⟨hwindow, hheap⟩ := hcareful hon hrunning
    rw [if_neg (by rw [hs.schedM_held hrunning, if_neg hwindow]; exact nofun)] at h
    split at h
    case isTrue => cases h
    case isFalse hmem =>
      split at h <;> cases h
      case isTrue hmark =>
        have hfree := hs.vmmM_free.mpr (hheap hmark)
        have hpause := pause_of_preemptible _ (hs.exiting _ hmark) (hs.preemptible hrunning _)
        simp only [removeCurrent, hs.tasksM_free hrunning, hfree, Option.isSome_none,
          Bool.false_eq_true, if_false]
        refine hs.switch hrunning hwindow (fun j => List.mem_of_mem_erase) fun j hj => ?_
        by_cases hcur : j = s.current
        · exact .inr (hcur ▸ hpause)
        · exact hs.gone j fun hin => hj ((List.mem_erase_of_ne hcur).mpr hin)
      case isFalse => exact hs.switch hrunning hwindow (fun j hj => hj) hs.gone

/-- A tick that is not careful spins. -/
theorem Sound.tick_waits (hcareless : ¬ Careful s .timer) (h : s.tick = .ok s') : s'.Waits := by
  obtain ⟨-, hcareless⟩ := Classical.not_imp.mp hcareless
  obtain ⟨hrunning, hbad⟩ := Classical.not_imp.mp hcareless
  have hsched := hs.schedM_held hrunning
  rw [Machine.tick, hrunning, Bool.not_true, if_neg Bool.false_ne_true] at h
  by_cases hwindow : (s.code s.current).head? = some (.setRunning false)
  · rw [if_pos hwindow] at hsched
    rw [if_pos (by rw [hsched]; rfl)] at h
    cases h
    exact ⟨.schedM, s.current, rfl, hsched⟩
  · rw [if_neg hwindow] at hsched
    obtain ⟨hmark, hheap⟩ := Classical.not_imp.mp fun himp => hbad ⟨hwindow, himp⟩
    obtain ⟨i, hi⟩ := Option.ne_none_iff_exists'.mp (mt hs.vmmM_free.mp hheap)
    rw [if_neg (by rw [hsched]; exact nofun)] at h
    split at h
    case isTrue => cases h
    case isFalse =>
      rw [removeCurrent, hs.tasksM_free hrunning, hi] at h
      cases h
      exact ⟨.vmmM, i, rfl, hi⟩

theorem Sound.step {a : Action} (hcareful : Careful s a)
    (h : s.step a = .ok ((), s')) : Sound s' := by
  unfold Machine.step at h
  rw [hs.quiet, if_neg (by exact nofun)] at h
  cases a with
  | call c =>
    cases h
    split
    case isTrue hidle => exact hs.call c hidle
    case isFalse => exact hs
  | exec =>
    obtain ⟨t, ht, h⟩ := bind_eq_ok.mp h
    cases h
    exact hs.exec ht
  | timer =>
    obtain ⟨t, ht, h⟩ := bind_eq_ok.mp h
    cases h
    unfold interrupt at ht
    split at ht
    case isTrue hon => exact hs.tick hon hcareful ht
    case isFalse =>
      cases ht
      exact hs

end

theorem runs_sound {h : List (Action × Unit)} (hrun : Runs step Careful started h s) : Sound s :=
  hrun.invariant (P := fun _ s => Sound s) started_sound
    fun _ _ _ _ _ hs hcareful hstep => hs.step hcareful hstep

/-- In every careful run `sched_tick` never waits for a task, and a timer interrupt makes
it wait exactly when it is not careful. -/
theorem tick_waits_iff {h : List (Action × Unit)} (hrun : Runs step Careful started h s) :
    ¬ s.Waits ∧
      ∀ s', s.step .timer = .ok ((), s') → (s'.Waits ↔ ¬ Careful s .timer) := by
  have hs := runs_sound hrun
  have hquiet : ∀ t : Machine, Sound t → ¬ t.Waits := by
    rintro t ht ⟨m, j, hspin, -⟩
    rw [ht.quiet] at hspin
    cases hspin
  refine ⟨hquiet s hs, fun s' hstep => ⟨fun hwaits hcareful => ?_, fun hcareless => ?_⟩⟩
  · exact hquiet s' (hs.step hcareful hstep) hwaits
  · unfold Machine.step at hstep
    rw [hs.quiet, if_neg (by exact nofun)] at hstep
    obtain ⟨t, ht, hstep⟩ := bind_eq_ok.mp hstep
    cases hstep
    rw [interrupt, (Classical.not_imp.mp hcareless).1, if_pos rfl] at ht
    exact hs.tick_waits hcareless ht

/-- The running task adds a thread. -/
def adding : List Action := .call .addThread :: List.replicate 13 .exec

/-- The running task exits, up to its `pause()`. -/
def exiting : List Action := .call .exitThread :: List.replicate 5 .exec

/-- A thread is added, exits and is taken out by the tick after the timer has preempted
the initial task in a `kmalloc` that has since come to its end. -/
theorem tick_waits_iff_exit :
    ∃ h s, Runs step Careful started h s ∧ s.tasks = [0] ∧ ¬ s.Waits := by
  have hreplay : (replay step Careful [] started
      (adding.append (.call .kmalloc :: .exec :: .timer :: .timer :: .exec :: .timer ::
        exiting.concat .timer))).map (fun r => r.2.tasks) = some [0] := by
    decide +kernel
  obtain ⟨⟨h, s⟩, hr, htasks⟩ := Option.map_eq_some_iff.mp hreplay
  have hrun := (Runs.nil started).replay hr
  exact ⟨h, s, hrun, htasks, (tick_waits_iff hrun).1⟩

/-- Right after `sched_m.lock()` of `sched_add_thread` the tick waits for the interrupted
task. A thread that exits while a preempted task is in `kmalloc` makes the tick wait for
that task. -/
theorem tick_spins :
    (∃ h s, Runs step (fun _ _ => True) started h s ∧ s.Waits ∧
      s.spinning = some .schedM ∧ s.holder .schedM = some s.current) ∧
    ∃ h s, Runs step (fun _ _ => True) started h s ∧ s.Waits ∧
      s.spinning = some .vmmM ∧ s.holder .vmmM = some 0 ∧ s.current = 1 := by
  constructor
  · have hreplay : (replay step (fun _ _ => True) [] started
        [.call .addThread, .exec, .timer]).map
          (fun r => (r.2.spinning, r.2.holder .schedM, r.2.current)) =
        some (some .schedM, some 0, 0) := by
      decide
    obtain ⟨⟨h, s⟩, hr, hvals⟩ := Option.map_eq_some_iff.mp hreplay
    simp only [Prod.mk.injEq] at hvals
    obtain ⟨hspin, hheld, hcur⟩ := hvals
    exact ⟨h, s, (Runs.nil started).replay hr, ⟨_, _, hspin, hheld⟩, hspin, hcur ▸ hheld⟩
  · have hreplay : (replay step (fun _ _ => True) [] started
        (adding.append (.call .kmalloc :: .exec :: .timer :: exiting.concat .timer))).map
          (fun r => (r.2.spinning, r.2.holder .vmmM, r.2.current)) =
        some (some .vmmM, some 0, 1) := by
      decide +kernel
    obtain ⟨⟨h, s⟩, hr, hvals⟩ := Option.map_eq_some_iff.mp hreplay
    simp only [Prod.mk.injEq] at hvals
    obtain ⟨hspin, hheld, hcur⟩ := hvals
    exact ⟨h, s, (Runs.nil started).replay hr, ⟨_, _, hspin, hheld⟩, hspin, hheld, hcur⟩

/-! ## Every interleaving -/

/-- As long as no tick spins, every tick has been careful. -/
theorem runs_quiet {h : List (Action × Unit)} (hrun : Runs step (fun _ _ => True) started h s)
    (hquiet : s.spinning = none) : Sound s := by
  refine hrun.invariant (P := fun _ s => s.spinning = none → Sound s) (fun _ => started_sound)
    ?_ hquiet
  intro _ t a _ t' ht _ hstep hquiet'
  have hs : Sound t := by
    refine ht (by_contra fun hspin => ?_)
    unfold Machine.step at hstep
    rw [if_pos (Option.isSome_iff_ne_none.mpr hspin)] at hstep
    cases hstep
  by_cases hcareful : Careful t a
  · exact hs.step hcareful hstep
  · cases a with
    | call => exact absurd trivial hcareful
    | exec => exact absurd trivial hcareful
    | timer =>
      unfold Machine.step at hstep
      rw [hs.quiet, if_neg (by exact nofun)] at hstep
      obtain ⟨t₁, htick, hstep⟩ := bind_eq_ok.mp hstep
      cases hstep
      rw [interrupt, (Classical.not_imp.mp hcareful).1, if_pos rfl] at htick
      obtain ⟨m, j, hwaits, -⟩ := hs.tick_waits hcareful htick
      rw [hquiet'] at hwaits
      cases hwaits

/-- A task that waits with the scheduler stopped is never preempted. -/
theorem step_stuck {m : Mutex} {j : ℕ} {rest : List Instr} {a : Action}
    (hcode : s.code s.current = .lock m :: rest) (hheld : s.holder m = some j)
    (hstopped : s.running = false) (h : s.step a = .ok ((), s')) : s' = s := by
  unfold Machine.step at h
  split at h
  case isTrue => cases h
  case isFalse =>
    cases a with
    | call c =>
      dsimp only at h
      rw [if_neg (by rw [hcode]; exact nofun)] at h
      cases h
      rfl
    | exec =>
      obtain ⟨t, ht, h⟩ := bind_eq_ok.mp h
      cases h
      rw [Machine.exec, hcode] at ht
      simpa [hheld] using ht.symm
    | timer =>
      obtain ⟨t, ht, h⟩ := bind_eq_ok.mp h
      cases h
      simpa [interrupt, Machine.tick, hstopped] using ht.symm

/-- **Locks.** However the timer comes between, two tasks are never inside one mutex, and a task
only ever waits for the heap's, which another task of the ring holds. If it waits with the
scheduler stopped, nothing happens any more. -/
theorem waits_for_heap {h : List (Action × Unit)}
    (hrun : Runs step (fun _ _ => True) started h s) (hquiet : s.spinning = none) :
    (∀ m i j, inside m (s.code i) = true → inside m (s.code j) = true → i = j) ∧
    ∀ m j, (s.code s.current).head? = some (.lock m) → s.holder m = some j →
      m = .vmmM ∧ j ≠ s.current ∧ j ∈ s.tasks ∧
      (s.running = false → ∀ h' s', Runs step (fun _ _ => True) s h' s' → s' = s) := by
  have hs := runs_quiet hrun hquiet
  have hone : ∀ m i j, inside m (s.code i) = true → inside m (s.code j) = true → i = j := by
    intro m i j hi hj
    exact Option.some.inj (((hs.holds m i).mpr hi).symm.trans ((hs.holds m j).mpr hj))
  refine ⟨hone, fun m j hhead hheld => ?_⟩
  obtain ⟨rest, hcode⟩ := List.head?_eq_some_iff.mp hhead
  have hin : inside m (s.code j) = true := (hs.holds m j).mp hheld
  have hother : j ≠ s.current := by
    rintro rfl
    rw [hcode, inside_lock] at hin
    cases hin
  obtain ⟨hopen, hwindow⟩ := hs.others j hother
  have hheap : m = .vmmM := by
    cases m with
    | schedM => exact absurd (window_of_inside _ (hs.position j) hin hopen) hwindow
    | tasksM => exact absurd (hopen.symm.trans (tasksM_of_inside _ (hs.position j) hin)) nofun
    | vmmM => rfl
  subst hheap
  refine ⟨rfl, hother, ?_, fun hstopped h' s' hrun' => ?_⟩
  · by_contra hout
    refine absurd (hs.vmmM_free.mpr fun i hi => ?_) (by rw [hheld]; exact nofun)
    rw [Bool.eq_false_iff]
    exact fun hi' => hout (hone _ i j hi' hin ▸ hi)
  · exact hrun'.invariant (P := fun _ t => t = s) rfl fun _ _ _ _ _ ht _ hstep =>
      step_stuck hcode hheld hstopped (ht ▸ hstep)

/-- The initial task is preempted in a `kmalloc` by a thread that adds another one. -/
theorem waits_for_heap_hang : ∃ h s, Runs step (fun _ _ => True) started h s ∧
    s.current = 1 ∧ ∀ h' s', Runs step (fun _ _ => True) s h' s' → s' = s := by
  have hreplay : (replay step (fun _ _ => True) [] started
      (adding.append [.call .kmalloc, .exec, .timer, .call .addThread, .exec, .exec])).map
        (fun r => (r.2.current, (r.2.code 1).head?, r.2.holder .vmmM, r.2.running, r.2.spinning)) =
      some (1, some (.lock .vmmM), some 0, false, none) := by
    decide +kernel
  obtain ⟨⟨h, s⟩, hr, hvals⟩ := Option.map_eq_some_iff.mp hreplay
  simp only [Prod.mk.injEq] at hvals
  obtain ⟨hcur, hhead, hheld, hstopped, hquiet⟩ := hvals
  have hrun := (Runs.nil started).replay hr
  exact ⟨h, s, hrun, hcur, ((waits_for_heap hrun hquiet).2 _ 0 (hcur ▸ hhead) hheld).2.2.2 hstopped⟩

end Sound

end Machine

end NeptunOS.Preemption
