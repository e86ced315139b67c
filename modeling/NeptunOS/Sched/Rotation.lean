import NeptunOS.Lib.RoundRobin
import NeptunOS.Sched.Scheduler

/-!
# Round robin over the task list

The ring of tasks, read from the running one on, is a round robin queue
(`Change.rotates`); a task's saved context changes only when it is preempted.
-/

namespace NeptunOS

open Stepwise Function

namespace LinkedList

variable {α : Type} {l l' : LinkedList α} {c : Contents α} {i : ℕ} {x : α}

/-! ## Links of a list -/

/-- The links met from `p` on, `n` at most. -/
def follow (l : LinkedList α) : ℕ → Option ℕ → List ℕ
  | n + 1, some i => i :: follow l n (l.nextOf i)
  | _, _ => []

/-- The links of the list, in order. -/
def members (l : LinkedList α) : List ℕ := l.follow l.size l.first

theorem follow_chain {as : List ℕ} {p : ℕ → ℕ → Prop}
    (h : as.IsChain fun a b => l.nextOf a = some b ∧ p a b) :
    l.follow as.length as.head? = as := by
  induction as with
  | nil => rfl
  | cons a as ih =>
    obtain ⟨hhead, htail⟩ := List.isChain_cons.mp h
    rw [List.length_cons, List.head?_cons, follow]
    cases as with
    | nil => rfl
    | cons b as => rw [(hhead b rfl).1]; exact congrArg (a :: ·) (ih htail)

theorem Represents.members_eq (h : Represents l c) : l.members = c.addrs := by
  have hlen : l.size = c.addrs.length := h.size.trans (List.length_map ..).symm
  rw [members, hlen, h.first]
  by_cases hne : c.addrs = []
  · rw [hne]
    rfl
  · exact follow_chain ((Ring.iff_closed hne).mp h.ring).2

/-! ## Writing to a link -/

/-- The contents with other data in link `i`. -/
def Contents.setData (c : Contents α) (i : ℕ) (x : α) : Contents α :=
  ⟨c.elems.map fun e => if e.1 = i then (i, x) else e, c.marked⟩

@[simp] theorem Contents.setData_addrs (c : Contents α) (i : ℕ) (x : α) :
    (c.setData i x).addrs = c.addrs := by
  rw [addrs, setData, List.map_map]
  refine List.map_congr_left fun e _ => ?_
  rw [comp_apply]
  split
  · exact Eq.symm ‹_›
  · rfl

theorem Contents.mem_setData {e : ℕ × α} (h : e ∈ (c.setData i x).elems) :
    e = (i, x) ∧ i ∈ c.addrs ∨ e.1 ≠ i ∧ e ∈ c.elems := by
  obtain ⟨e', he', rfl⟩ := List.mem_map.mp h
  by_cases hi : e'.1 = i
  · rw [if_pos hi]
    exact .inl ⟨rfl, hi ▸ List.mem_map_of_mem he'⟩
  · rw [if_neg hi]
    exact .inr ⟨hi, he'⟩

theorem Represents.setData (h : Represents l c) (i : ℕ) (x : α) :
    ∃ l', l.setData (some i) x = .ok l' ∧ l'.fresh = l.fresh ∧
      Represents l' (c.setData i x) := by
  set l' : LinkedList α := l.modify i fun k => { k with data := x } with hl'
  refine ⟨l', rfl, rfl, ?_⟩
  have hlinks : ∀ a, l'.links a =
      (l.links a).map fun k => if a = i then { k with data := x } else k := by
    intro a
    by_cases ha : a = i
    · simp [hl', modify, ha]
    · simp [hl', modify, ha]
  have hnext : ∀ a, l'.nextOf a = l.nextOf a ∧ l'.prevOf a = l.prevOf a := by
    intro a
    rw [nextOf, nextOf, prevOf, prevOf, hlinks]
    cases l.links a with
    | none => exact ⟨rfl, rfl⟩
    | some k => constructor <;> simp only [Option.map_some, Option.bind_some] <;> split <;> rfl
  constructor
  case first => rw [Contents.setData_addrs]; exact h.first
  case size => exact h.size.trans (List.length_map ..).symm
  case ring =>
    rw [Contents.setData_addrs]
    exact h.ring.congr (fun a _ => (hnext a).1) fun a _ => (hnext a).2
  case nodup => rw [Contents.setData_addrs]; exact h.nodup
  case old => rw [Contents.setData_addrs]; exact h.old
  case live =>
    intro a k hk
    rw [Contents.setData_addrs]
    rw [hlinks] at hk
    obtain ⟨k', hk', -⟩ := Option.map_eq_some_iff.mp hk
    exact h.live a k' hk'
  case link =>
    intro a y hy
    rw [Contents.setData_addrs, hlinks]
    obtain ⟨heq, hi⟩ | ⟨ha, hold⟩ := Contents.mem_setData hy
    · obtain ⟨rfl, rfl⟩ := Prod.mk.inj heq
      obtain ⟨⟨_, z⟩, hz, rfl⟩ := List.mem_map.mp hi
      obtain ⟨k, hk, _, hlast⟩ := h.link _ z hz
      exact ⟨{ k with data := y }, by simp [hk], rfl, hlast⟩
    · obtain ⟨k, hk, hdata, hlast⟩ := h.link a y hold
      exact ⟨k, by rw [hk, Option.map_some, if_neg ha], hdata, hlast⟩

theorem Contents.pushBack_addrs (c : Contents α) (i : ℕ) (x : α) :
    (c.pushBack i x).addrs = c.addrs ++ [i] := List.map_append

/-- A link of the list by its address. -/
theorem Represents.deref_mem (h : Represents l c) (hi : i ∈ c.addrs) :
    ∃ k, l.deref (some i) = .ok k ∧ (i, k.data) ∈ c.elems ∧ k.next = l.nextOf i := by
  obtain ⟨⟨_, y⟩, hy, rfl⟩ := List.mem_map.mp hi
  obtain ⟨k, hk, rfl, -⟩ := h.link _ y hy
  exact ⟨k, deref_some hk, hy, by rw [nextOf, hk]; rfl⟩

/-- The neighbour of a link in the ring. -/
theorem Represents.next_of_split (h : Represents l c) {us vs : List ℕ}
    (hsplit : c.addrs = us ++ i :: vs) : l.nextOf i = (vs ++ us ++ [i]).head? := by
  have hring : Ring l.nextOf l.prevOf (i :: (vs ++ us) : List ℕ) := by
    have := h.ring
    rw [hsplit, Ring.rotate] at this
    exact this
  by_cases hne : vs ++ us = []
  · rw [hne] at hring ⊢
    exact ((Ring.iff_closed (by simp)).mp hring).1.1
  · rw [(Ring.head_eq hne hring).1, List.head?_append_of_ne_nil _ hne, List.head?_eq_some_head hne]

/-! ## Addresses given out -/

theorem setNext_fresh {p v : Option ℕ} (h : l.setNext p v = .ok l') : l'.fresh = l.fresh := by
  cases p <;> cases h
  rfl

theorem setPrev_fresh {p v : Option ℕ} (h : l.setPrev p v = .ok l') : l'.fresh = l.fresh := by
  cases p <;> cases h
  rfl

theorem removeLink_fresh (h : l.removeLink i = .ok l') : l'.fresh = l.fresh := by
  unfold LinkedList.removeLink at h
  split at h
  case isTrue => cases h
  case isFalse =>
    split at h
    case h_1 => cases h
    case h_2 f _ =>
      obtain ⟨k, -, h⟩ := bind_eq_ok.mp h
      split at h
      · cases h
        rfl
      · obtain ⟨l₂, hl₂, h⟩ := bind_eq_ok.mp h
        obtain ⟨l₃, hl₃, h⟩ := bind_eq_ok.mp h
        have h₃ : l₃.fresh = l.fresh := (setPrev_fresh hl₃).trans (setNext_fresh hl₂)
        cases h
        split <;> exact h₃

theorem Represents.pushBack_fresh (h : Represents l c) (hr : l.pushBack x = .ok (i, l')) :
    l'.fresh = l.fresh + 1 := by
  by_cases hempty : c.elems = []
  · rw [LinkedList.pushBack, h.first_none hempty] at hr
    cases hr
    rfl
  · obtain ⟨_, _, _, _, _, hrun⟩ := h.pushBack_eq hempty x
    rw [hr] at hrun
    split at hrun <;> cases hrun
    rfl

end LinkedList

namespace Sched

/-! ## Histories -/

/-- What may happen once the scheduler has been started. -/
inductive Op where
  | addThread (rip stack callee cr3 : ℕ)
  | addUserProcess (cr3 stackptr entry : ℕ)
  | exitThread
  | tick (state : CpuState) (sse : List ℕ) (force : Bool)
deriving DecidableEq, Repr

/-- What is seen of it; tasks are known by their links. -/
inductive Event where
  | added (task : ℕ)
  | exited (task : Option ℕ)
  | ticked (d : Option Dispatch)
deriving DecidableEq, Repr

def step (s : Sched) : Op → Except Halt (Event × Sched)
  | .addThread rip stack callee cr3 => do
    let (i, s) ← s.addThread rip stack callee cr3
    return (.added i, s)
  | .addUserProcess cr3 stackptr entry => do
    let (i, s) ← s.addUserProcess cr3 stackptr entry
    return (.added i, s)
  | .exitThread => do
    let t ← s.exitThread
    return (.exited s.current, t)
  | .tick state sse force => do
    let (d, s) ← s.tick state sse force
    return (.ticked d, s)

/-- The initial task, which has the first link, does not exit, and there are never
`2^64` tasks at once. -/
def Allowed (s : Sched) : Op → Prop
  | .addThread .. => s.tasks.size + 1 < 2 ^ 64
  | .addUserProcess .. => s.tasks.size + 1 < 2 ^ 64
  | .exitThread => s.current ≠ some 0
  | .tick .. => True

instance (s : Sched) (op : Op) : Decidable (Allowed s op) := by
  cases op <;> unfold Allowed <;> infer_instance

/-- The context a new task starts with. -/
def Op.initialState : Op → Option CpuState
  | .addThread rip stack callee cr3 => some (threadState rip stack callee cr3)
  | .addUserProcess cr3 stackptr entry => some (userState cr3 stackptr entry)
  | _ => none

/-- The task that is dispatched. -/
def Event.turn : Event → Option ℕ
  | .ticked d => d.bind Dispatch.task
  | _ => none

/-- The task that exits. -/
def Event.exit : Event → Option ℕ
  | .exited i => i
  | _ => none

/-- The tasks dispatched in a history, in order. -/
def turns (h : List (Op × Event)) : List ℕ := h.filterMap fun x => x.2.turn

/-- The tasks that called `sched_exit_thread`. -/
def exited (h : List (Op × Event)) : List ℕ := h.filterMap fun x => x.2.exit

/-- Contexts on record: a new task's initial one, a preempted task's interrupted one. -/
def record (f : ℕ → CpuState) : Op × Event → ℕ → CpuState
  | (op, .added i) => update f i (op.initialState.getD {})
  | (.tick state _ _, .ticked (some d)) => update f (d.preempted.getD 0) state
  | _ => f

/-- The contexts on record after a history that began with `state`. -/
def saved (state : CpuState) (h : List (Op × Event)) : ℕ → CpuState :=
  h.foldl record fun _ => state

/-! ## The ring as a list -/

/-- The task list as its contents, with the running task and the next address. -/
structure View where
  contents : LinkedList.Contents Task
  current : ℕ
  fresh : ℕ

/-- Only the running task can be marked, and the initial one is there, unmarked. -/
structure View.Sound (v : View) : Prop where
  mem : v.current ∈ v.contents.addrs
  nodup : v.contents.addrs.Nodup
  old : ∀ a ∈ v.contents.addrs, a < v.fresh
  marked : ∀ e ∈ v.contents.elems, e.2.scheduledForDeletion = true → e.1 = v.current
  initial : ∃ e ∈ v.contents.elems, e.1 = 0 ∧ e.2.scheduledForDeletion = false

structure Shows (s : Sched) (v : View) : Prop where
  tasks : s.tasks.Represents v.contents
  current : s.current = some v.current
  fresh : s.tasks.fresh = v.fresh

/-- Everything a step can do. -/
inductive Change (v : View) : Op → Event → View → Prop
  | add {op : Op} {t : Task} (hop : op.initialState = some t.state)
      (hmark : t.scheduledForDeletion = false) :
      Change v op (.added v.fresh)
        ⟨v.contents.pushBack v.fresh t, v.current, v.fresh + 1⟩
  | exit {t : Task} (hinit : v.current ≠ 0) (ht : (v.current, t) ∈ v.contents.elems) :
      Change v .exitThread (.exited (some v.current))
        ⟨v.contents.setData v.current { t with scheduledForDeletion := true },
          v.current, v.fresh⟩
  | idle {state : CpuState} {sse : List ℕ} {force : Bool} :
      Change v (.tick state sse force) (.ticked none) v
  | save {state : CpuState} {sse : List ℕ} {force : Bool} {t u : Task} {j : ℕ}
      {us vs : List ℕ} (ht : (v.current, t) ∈ v.contents.elems)
      (hmark : t.scheduledForDeletion = false)
      (hsplit : v.contents.addrs = us ++ v.current :: vs)
      (hnext : (vs ++ us ++ [v.current]).head? = some j)
      (hu : (j, u) ∈
        (v.contents.setData v.current { t with state, ssestate := sse }).elems) :
      Change v (.tick state sse force) (.ticked (some ⟨some v.current, some j, u.state⟩))
        ⟨v.contents.setData v.current { t with state, ssestate := sse }, j, v.fresh⟩
  | leave {state : CpuState} {sse : List ℕ} {force : Bool} {t u : Task} {j : ℕ}
      {us vs : List ℕ} (ht : (v.current, t) ∈ v.contents.elems)
      (hmark : t.scheduledForDeletion = true)
      (hsplit : v.contents.addrs = us ++ v.current :: vs)
      (haddrs : (v.contents.remove v.current).addrs = us ++ vs)
      (hnext : (vs ++ us).head? = some j)
      (hu : (j, u) ∈ (v.contents.remove v.current).elems) :
      Change v (.tick state sse force) (.ticked (some ⟨some v.current, some j, u.state⟩))
        ⟨v.contents.remove v.current, j, v.fresh⟩

section Change

variable {s s' : Sched} {v v' : View} {op : Op} {e : Event}
variable {t u : Task} {i : ℕ} {state : CpuState} {c : LinkedList.Contents Task} {x : ℕ × Task}
  {us vs : List ℕ}

theorem View.Sound.unique (hv : v.Sound) {j : ℕ} (ht : (j, t) ∈ v.contents.elems)
    (hu : (j, u) ∈ v.contents.elems) : t = u :=
  congrArg Prod.snd (List.inj_on_of_nodup_map hv.nodup ht hu rfl)

/-- The running task is not alone when it is marked. -/
theorem View.Sound.ne_initial (hv : v.Sound) (ht : (v.current, t) ∈ v.contents.elems)
    (hmark : t.scheduledForDeletion = true) : v.current ≠ 0 := by
  obtain ⟨⟨j, u⟩, hu, hj, hfree⟩ := hv.initial
  intro hzero
  obtain rfl : j = v.current := hj.trans hzero.symm
  rw [hv.unique hu ht, hmark] at hfree
  cases hfree

theorem addTask_change (hs : Shows s v) (hfit : s.tasks.size + 1 < 2 ^ 64) {type : TaskType}
    (hop : op.initialState = some state) (h : s.addTask state type = .ok (i, s')) :
    ∃ v', Change v op (.added i) v' ∧ Shows s' v' := by
  obtain ⟨⟨i', tasks⟩, hpush, h⟩ := bind_eq_ok.mp h
  cases h
  obtain ⟨l', hl', hrep⟩ := hs.tasks.pushBack hfit (hs.tasks.kept_of_pushBack hpush) _
  have hfresh := hs.tasks.pushBack_fresh hpush
  rw [hl'] at hpush
  cases hpush
  rw [hs.fresh] at hrep ⊢
  exact ⟨_, .add hop rfl, hrep, hs.current, by rw [hfresh, hs.fresh]⟩

theorem tick_change (hv : v.Sound) (hs : Shows s v) {sse : List ℕ} {force : Bool}
    {d : Option Dispatch} (h : s.tick state sse force = .ok (d, s')) :
    ∃ v', Change v (.tick state sse force) (.ticked d) v' ∧ Shows s' v' := by
  unfold tick at h
  dsimp only at h
  split at h
  case isTrue =>
    cases h
    exact ⟨v, .idle, hs.tasks, hs.current, hs.fresh⟩
  case isFalse =>
    obtain ⟨t, hpre, h⟩ := bind_eq_ok.mp h
    obtain ⟨next, hderef, h⟩ := bind_eq_ok.mp h
    cases h
    simp only [preempt, hs.current] at hpre
    obtain ⟨us, vs, hsplit, -, -, haddrs⟩ := v.contents.split hv.mem hv.nodup
    obtain ⟨k, hk, hdata, hnext⟩ := hs.tasks.deref_mem hv.mem
    rw [hs.tasks.next_of_split hsplit] at hnext
    rw [hk, ok_bind] at hpre
    split at hpre
    case isTrue hmark =>
      -- the initial task is left, so there is a next one
      have hne : vs ++ us ≠ [] := by
        intro hnil
        obtain ⟨rfl, rfl⟩ := List.append_eq_nil_iff.mp hnil
        obtain ⟨x, hx, hzero, -⟩ := hv.initial
        have hin : x.1 ∈ v.contents.addrs := List.mem_map_of_mem hx
        rw [hsplit, List.nil_append, List.mem_singleton] at hin
        exact hv.ne_initial hdata hmark (hin.symm.trans hzero)
      obtain ⟨tasks, hrm, hpre⟩ := bind_eq_ok.mp hpre
      cases hpre
      obtain ⟨l', hl', hrep⟩ := hs.tasks.removeLink hv.mem
      have hfresh := LinkedList.removeLink_fresh hrm
      rw [hrm] at hl'
      cases hl'
      rw [List.head?_append_of_ne_nil _ hne] at hnext
      have hj : (vs ++ us).head hne ∈ (v.contents.remove v.current).addrs := by
        rw [haddrs]
        exact List.mem_append.mpr (List.mem_append.mp (List.head_mem hne)).symm
      rw [List.head?_eq_some_head hne] at hnext
      obtain ⟨k', hk', hdata', -⟩ := hrep.deref_mem hj
      rw [hnext, hk'] at hderef
      cases hderef
      rw [hnext, hs.current]
      exact ⟨_, .leave hdata hmark hsplit haddrs (List.head?_eq_some_head hne) hdata',
        hrep, rfl, hfresh.trans hs.fresh⟩
    case isFalse hmark =>
      obtain ⟨tasks, hset, hpre⟩ := bind_eq_ok.mp hpre
      cases hpre
      obtain ⟨l', hl', hfresh, hrep⟩ := hs.tasks.setData v.current
        { k.data with state := state, ssestate := sse }
      rw [hset] at hl'
      cases hl'
      have hne : vs ++ us ++ [v.current] ≠ [] := by simp
      rw [List.head?_eq_some_head hne] at hnext
      have hj : (vs ++ us ++ [v.current]).head hne ∈ v.contents.addrs := by
        rw [hsplit]
        have := List.head_mem hne
        simp only [List.mem_append, List.mem_cons, List.not_mem_nil] at this ⊢
        tauto
      rw [← LinkedList.Contents.setData_addrs] at hj
      obtain ⟨k', hk', hdata', -⟩ := hrep.deref_mem hj
      rw [hnext, hk'] at hderef
      cases hderef
      rw [hnext, hs.current]
      exact ⟨_, .save hdata (by simpa using hmark) hsplit (List.head?_eq_some_head hne) hdata',
        hrep, rfl, hfresh.trans hs.fresh⟩

theorem step_change (hv : v.Sound) (hs : Shows s v) (hallowed : Allowed s op)
    (h : s.step op = .ok (e, s')) : ∃ v', Change v op e v' ∧ Shows s' v' := by
  cases op with
  | addThread rip stack callee cr3 =>
    obtain ⟨⟨i, t⟩, hadd, h⟩ := bind_eq_ok.mp h
    cases h
    exact addTask_change hs hallowed rfl hadd
  | addUserProcess cr3 stackptr entry =>
    obtain ⟨⟨i, t⟩, hadd, h⟩ := bind_eq_ok.mp h
    cases h
    unfold addUserProcess at hadd
    split at hadd
    · cases hadd
    · exact addTask_change hs hallowed rfl hadd
  | exitThread =>
    obtain ⟨t, hexit, h⟩ := bind_eq_ok.mp h
    cases h
    unfold exitThread at hexit
    rw [hs.current] at hexit ⊢
    obtain ⟨k, hk, hdata, -⟩ := hs.tasks.deref_mem hv.mem
    rw [hk, ok_bind] at hexit
    obtain ⟨l', hl', hfresh, hrep⟩ := hs.tasks.setData v.current
      { k.data with scheduledForDeletion := true }
    rw [hl', ok_bind] at hexit
    cases hexit
    have hzero : v.current ≠ 0 := fun heq => hallowed (heq ▸ hs.current)
    exact ⟨_, .exit hzero hdata, hrep, rfl, hfresh.trans hs.fresh⟩
  | tick state sse force =>
    obtain ⟨⟨d, t⟩, htick, h⟩ := bind_eq_ok.mp h
    cases h
    exact tick_change hv hs htick

/-- Writing to a task that is there keeps every other one. -/
theorem mem_setData_of_ne (hx : x ∈ c.elems) (hne : x.1 ≠ i) : x ∈ (c.setData i t).elems :=
  List.mem_map.mpr ⟨x, hx, if_neg hne⟩

theorem mem_setData_self (hx : (i, t) ∈ c.elems) : (i, u) ∈ (c.setData i u).elems :=
  List.mem_map.mpr ⟨(i, t), hx, if_pos rfl⟩

theorem mem_remove : x ∈ (c.remove i).elems ↔ x ∈ c.elems ∧ x.1 ≠ i := by
  simp [LinkedList.Contents.remove]

/-- Once the running task is not marked or out of the list, no task is marked. -/
theorem View.Sound.setData_unmarked (hv : v.Sound) (hu : u.scheduledForDeletion = false) :
    ∀ x ∈ (v.contents.setData v.current u).elems, x.2.scheduledForDeletion = false := by
  intro x hx
  obtain ⟨rfl, -⟩ | ⟨hne, hx⟩ := LinkedList.Contents.mem_setData hx
  · exact hu
  · exact Bool.eq_false_iff.mpr fun hxm => hne (hv.marked x hx hxm)

theorem View.Sound.remove_unmarked (hv : v.Sound) :
    ∀ x ∈ (v.contents.remove v.current).elems, x.2.scheduledForDeletion = false := by
  intro x hx
  obtain ⟨hx, hne⟩ := mem_remove.mp hx
  exact Bool.eq_false_iff.mpr fun hxm => hne (hv.marked x hx hxm)

theorem Change.sound (h : Change v op e v') (hv : v.Sound) : v'.Sound := by
  obtain ⟨z, hz, hzero, hfree⟩ := hv.initial
  cases h with
  | @add _ t hop hmark =>
    have haddrs : (v.contents.pushBack v.fresh t).addrs = v.contents.addrs ++ [v.fresh] :=
      LinkedList.Contents.pushBack_addrs ..
    constructor
    case mem => rw [haddrs]; exact List.mem_append_left _ hv.mem
    case nodup =>
      rw [haddrs]
      refine List.nodup_append.mpr ⟨hv.nodup, List.nodup_singleton _, fun a ha b hb => ?_⟩
      rw [List.mem_singleton.mp hb]
      exact (hv.old a ha).ne
    case old =>
      intro a ha
      rw [haddrs] at ha
      rcases List.mem_append.mp ha with ha | ha
      · exact Nat.lt_succ_of_lt (hv.old a ha)
      · rw [List.mem_singleton.mp ha]
        exact Nat.lt_succ_self _
    case marked =>
      intro x hx hxm
      rcases List.mem_append.mp hx with hx | hx
      · exact hv.marked x hx hxm
      · rw [List.mem_singleton.mp hx, hmark] at hxm
        cases hxm
    case initial => exact ⟨z, List.mem_append_left _ hz, hzero, hfree⟩
  | @exit t hinit ht =>
    constructor
    case mem => rw [LinkedList.Contents.setData_addrs]; exact hv.mem
    case nodup => rw [LinkedList.Contents.setData_addrs]; exact hv.nodup
    case old => rw [LinkedList.Contents.setData_addrs]; exact hv.old
    case marked =>
      intro x hx hxm
      obtain ⟨rfl, -⟩ | ⟨-, hx⟩ := LinkedList.Contents.mem_setData hx
      · rfl
      · exact hv.marked x hx hxm
    case initial =>
      exact ⟨z, mem_setData_of_ne hz (hzero ▸ hinit.symm), hzero, hfree⟩
  | idle => exact hv
  | @save state sse force t u j us vs ht hmark hsplit hnext hu =>
    constructor
    case mem => exact List.mem_map_of_mem hu
    case nodup => rw [LinkedList.Contents.setData_addrs]; exact hv.nodup
    case old => rw [LinkedList.Contents.setData_addrs]; exact hv.old
    case marked =>
      intro x hx hxm
      exact absurd hxm (Bool.eq_false_iff.mp (hv.setData_unmarked (by exact hmark) x hx))
    case initial =>
      by_cases hcur : z.1 = v.current
      · exact ⟨_, mem_setData_self ht, hcur.symm.trans hzero, hmark⟩
      · exact ⟨z, mem_setData_of_ne hz hcur, hzero, hfree⟩
  | @leave state sse force t u j us vs ht hmark hsplit haddrs hnext hu =>
    constructor
    case mem => exact List.mem_map_of_mem hu
    case nodup =>
      have hnd := hv.nodup
      rw [hsplit] at hnd
      rw [haddrs]
      exact hnd.sublist ((List.Sublist.refl us).append (List.sublist_cons_self _ _))
    case old =>
      intro a ha
      obtain ⟨x, hx, rfl⟩ := List.mem_map.mp ha
      exact hv.old _ (List.mem_map_of_mem (mem_remove.mp hx).1)
    case marked =>
      intro x hx hxm
      rw [hv.remove_unmarked x hx] at hxm
      cases hxm
    case initial =>
      have hcur : z.1 ≠ v.current := hzero ▸ (hv.ne_initial ht hmark).symm
      exact ⟨z, mem_remove.mpr ⟨hz, hcur⟩, hzero, hfree⟩

/-! ## The queue -/

/-- The ring from the running task on. -/
def rotation (i : ℕ) (as : List ℕ) : List ℕ :=
  as.dropWhile (· ≠ i) ++ as.takeWhile (· ≠ i)

theorem rotation_perm (i : ℕ) (as : List ℕ) : (rotation i as).Perm as := by
  have h := @List.perm_append_comm _ (as.dropWhile (· ≠ i)) (as.takeWhile (· ≠ i))
  rwa [List.takeWhile_append_dropWhile] at h

theorem rotation_eq (hnd : (us ++ i :: vs).Nodup) :
    rotation i (us ++ i :: vs) = i :: (vs ++ us) := by
  have hus : ∀ a ∈ us, (a ≠ i : Bool) = true := by
    intro a ha
    have hdisj := (List.nodup_append.mp hnd).2.2 a ha i List.mem_cons_self
    simpa using hdisj
  rw [rotation, List.dropWhile_append_of_pos hus, List.takeWhile_append_of_pos hus]
  simp

/-- The tasks in the order of their turns. -/
def View.Sound.queue (hv : v.Sound) : RoundRobin.Queue ℕ where
  order := rotation v.current v.contents.addrs
  used := {a | a < v.fresh}
  nodup := (rotation_perm _ _).nodup_iff.mpr hv.nodup
  known a ha := hv.old a ((rotation_perm _ _).mem_iff.mp ha)

theorem View.Sound.mem_queue (hv : v.Sound) {a : ℕ} : a ∈ hv.queue.order ↔ a ∈ v.contents.addrs :=
  (rotation_perm _ _).mem_iff

theorem View.Sound.order_eq (hv : v.Sound) (hsplit : v.contents.addrs = us ++ v.current :: vs) :
    hv.queue.order = v.current :: (vs ++ us) := by
  show rotation _ _ = _
  rw [hsplit]
  exact rotation_eq (hsplit ▸ hv.nodup)

theorem View.Sound.head_queue (hv : v.Sound) : hv.queue.order.head? = some v.current := by
  obtain ⟨us, vs, hsplit, -⟩ := v.contents.split hv.mem hv.nodup
  rw [hv.order_eq hsplit, List.head?_cons]

/-- Every step is one of the round robin queue. -/
theorem Change.rotates (h : Change v op e v') (hv : v.Sound) (hv' : v'.Sound) :
    RoundRobin.Step hv.queue e.turn hv'.queue := by
  cases h with
  | @add _ t hop hmark =>
    obtain ⟨us, vs, hsplit, -⟩ := v.contents.split hv.mem hv.nodup
    have haddrs : (v.contents.pushBack v.fresh t).addrs =
        us ++ v.current :: (vs ++ [v.fresh]) := by
      rw [LinkedList.Contents.pushBack_addrs, hsplit, List.append_assoc, List.cons_append]
    -- the end of the list is somewhere behind the running task
    refine .arrive (Nat.lt_irrefl _) (hv.order_eq hsplit)
      ((hv'.order_eq haddrs).trans ?_) ?_
    · rw [List.append_assoc]
      rfl
    · ext a
      exact Nat.lt_succ_iff_lt_or_eq.trans or_comm
  | exit =>
    refine .idle ?_ rfl
    exact congrArg (rotation _) (LinkedList.Contents.setData_addrs ..)
  | idle => exact .idle rfl rfl
  | @save state sse force t u j us vs ht hmark hsplit hnext hu =>
    have hhead := hv'.head_queue
    refine .next (hv.order_eq hsplit) ?_ hhead rfl
    -- the ring is the same, seen from the next task on
    show rotation j _ = _
    rw [LinkedList.Contents.setData_addrs, hsplit]
    have hnd := hv.nodup
    rw [hsplit] at hnd
    cases vs with
    | cons w vs =>
      obtain rfl : w = j := Option.some.inj hnext
      have hassoc : us ++ v.current :: w :: vs = us ++ [v.current] ++ w :: vs := by simp
      rw [hassoc] at hnd ⊢
      rw [rotation_eq hnd]
      simp
    | nil =>
      cases us with
      | nil =>
        obtain rfl : v.current = j := Option.some.inj hnext
        simp [rotation]
      | cons w us =>
        obtain rfl : w = j := Option.some.inj hnext
        rw [List.cons_append, ← List.nil_append (w :: _)] at hnd ⊢
        rw [rotation_eq hnd]
        simp
  | @leave state sse force t u j us vs ht hmark hsplit haddrs hnext hu =>
    cases vs with
    | cons w vs =>
      obtain rfl : w = j := Option.some.inj hnext
      exact .leave (hv.order_eq hsplit) (hv'.order_eq haddrs) rfl
    | nil =>
      cases us with
      | nil => cases hnext
      | cons w us =>
        obtain rfl : w = j := Option.some.inj hnext
        have hfirst : (v.contents.remove v.current).addrs = [] ++ w :: us := by
          rw [haddrs, List.append_nil, List.nil_append]
        exact .leave (hv.order_eq hsplit)
          ((hv'.order_eq hfirst).trans (by rw [List.append_nil])) rfl

/-- What is on record is what the tasks hold. -/
def View.Records (v : View) (f : ℕ → CpuState) : Prop :=
  ∀ x ∈ v.contents.elems, x.2.state = f x.1

theorem Change.records (h : Change v op e v') (hv : v.Sound) {f : ℕ → CpuState}
    (hf : v.Records f) : v'.Records (record f (op, e)) := by
  intro x hx
  cases h with
  | @add _ t hop hmark =>
    simp only [record, hop, Option.getD_some]
    rcases List.mem_append.mp hx with hx | hx
    · rw [update_of_ne (hv.old _ (List.mem_map_of_mem hx)).ne]
      exact hf x hx
    · rw [List.mem_singleton.mp hx, update_self]
  | @exit t hinit ht =>
    obtain ⟨rfl, -⟩ | ⟨-, hx⟩ := LinkedList.Contents.mem_setData hx
    · exact hf (v.current, t) ht
    · exact hf x hx
  | idle => exact hf x hx
  | @save state sse force t u j us vs ht hmark hsplit hnext hu =>
    simp only [record, Option.getD_some]
    obtain ⟨rfl, -⟩ | ⟨hne, hx⟩ := LinkedList.Contents.mem_setData hx
    · rw [update_self]
    · rw [update_of_ne hne]
      exact hf x hx
  | leave =>
    obtain ⟨hx, hne⟩ := mem_remove.mp hx
    simp only [record, Option.getD_some]
    rw [update_of_ne hne]
    exact hf x hx

/-- A dispatched task is in the list, unmarked, with the context that is loaded. -/
theorem Change.loads {d : Dispatch} (h : Change v op (.ticked (some d)) v') (hv : v.Sound) :
    ∃ x ∈ v'.contents.elems, d.task = some x.1 ∧ d.state = x.2.state ∧
      x.2.scheduledForDeletion = false := by
  cases h with
  | save _ hmark _ _ hu => exact ⟨_, hu, rfl, rfl, hv.setData_unmarked (by exact hmark) _ hu⟩
  | leave _ _ _ _ _ hu => exact ⟨_, hu, rfl, rfl, hv.remove_unmarked _ hu⟩

/-- Tasks that have exited are gone, apart from the running one, which is marked. -/
def View.Retires (v : View) (ex : List ℕ) : Prop :=
  ∀ i ∈ ex, i < v.fresh ∧
    (i ∈ v.contents.addrs → ∃ t, (i, t) ∈ v.contents.elems ∧ t.scheduledForDeletion = true)

theorem Change.retires (h : Change v op e v') (hv : v.Sound) {ex : List ℕ}
    (hex : v.Retires ex) : v'.Retires (ex ++ e.exit.toList) := by
  intro i hi
  cases h with
  | @add _ t hop hmark =>
    rw [show Event.exit (.added v.fresh) = none from rfl, Option.toList_none, List.append_nil] at hi
    obtain ⟨hlt, hin⟩ := hex i hi
    refine ⟨Nat.lt_succ_of_lt hlt, fun hmem => ?_⟩
    obtain ⟨x, hx, rfl⟩ := List.mem_map.mp hmem
    rcases List.mem_append.mp hx with hx | hx
    · obtain ⟨t', ht', hm⟩ := hin (List.mem_map_of_mem hx)
      exact ⟨t', List.mem_append_left _ ht', hm⟩
    · rw [List.mem_singleton.mp hx] at hlt
      exact absurd hlt (Nat.lt_irrefl _)
  | @exit t hinit ht =>
    by_cases hcur : i = v.current
    · subst hcur
      exact ⟨hv.old _ hv.mem, fun _ => ⟨_, mem_setData_self ht, rfl⟩⟩
    · have hi' : i ∈ ex := by simpa [Event.exit, hcur] using hi
      obtain ⟨hlt, hin⟩ := hex i hi'
      refine ⟨hlt, fun hmem => ?_⟩
      rw [LinkedList.Contents.setData_addrs] at hmem
      obtain ⟨t', ht', hm⟩ := hin hmem
      exact ⟨t', mem_setData_of_ne ht' hcur, hm⟩
  | idle => exact hex i (by simpa [Event.exit] using hi)
  | @save state sse force t u j us vs ht hmark hsplit hnext hu =>
    obtain ⟨hlt, hin⟩ := hex i (by simpa [Event.exit] using hi)
    refine ⟨hlt, fun hmem => ?_⟩
    rw [LinkedList.Contents.setData_addrs] at hmem
    obtain ⟨t', ht', hm⟩ := hin hmem
    -- a marked task would be the running one, which is not marked
    obtain rfl : i = v.current := hv.marked _ ht' hm
    rw [hv.unique ht' ht, hmark] at hm
    cases hm
  | @leave state sse force t u j us vs ht hmark hsplit haddrs hnext hu =>
    obtain ⟨hlt, hin⟩ := hex i (by simpa [Event.exit] using hi)
    refine ⟨hlt, fun hmem => ?_⟩
    obtain ⟨x, hx, rfl⟩ := List.mem_map.mp hmem
    obtain ⟨hx, hne⟩ := mem_remove.mp hx
    obtain ⟨t', ht', hm⟩ := hin (List.mem_map_of_mem hx)
    exact absurd (hv.marked _ ht' hm) hne

end Change

/-! ## Runs -/

section Runs

variable {s s' s₀ : Sched} {v : View} {h : List (Op × Event)} {state : CpuState}

/-- A tick that is forced, or finds the scheduler running, dispatches. -/
theorem tick_isSome {sse : List ℕ} {force : Bool} {d : Option Dispatch}
    (hgo : (!s.running && !force) = false) (h : s.tick state sse force = .ok (d, s')) :
    d.isSome := by
  rw [tick, hgo, if_neg Bool.false_ne_true] at h
  obtain ⟨t, -, h⟩ := bind_eq_ok.mp h
  obtain ⟨next, -, h⟩ := bind_eq_ok.mp h
  cases h
  rfl

/-- `sched_start` leaves the initial task running, with the context it was called in. -/
theorem start_shows {area sse : List ℕ} {d : Option Dispatch}
    (h : boot.start area state sse = .ok (d, s₀)) :
    d = some ⟨some 0, some 0, state⟩ ∧
      ∃ v : View, v.Sound ∧ Shows s₀ v ∧ v.Records fun _ => state := by
  unfold start at h
  obtain ⟨⟨i, tasks⟩, hpush, h⟩ := bind_eq_ok.mp h
  obtain ⟨⟨d', s₁⟩, htick, h⟩ := bind_eq_ok.mp h
  cases h
  obtain ⟨l', hl', hrep⟩ := LinkedList.empty_represents.pushFront (by decide) (initialTask area 0)
  obtain ⟨hfirst, hfresh⟩ : tasks.first = some 0 ∧ tasks.fresh = 1 := by
    cases hpush
    exact ⟨rfl, rfl⟩
  obtain rfl : l' = tasks := congrArg Prod.snd (Except.ok.inj (hl'.symm.trans hpush))
  set v : View := ⟨LinkedList.Contents.nil.pushFront 0 (initialTask area 0), 0, 1⟩
  have hv : v.Sound := by
    refine ⟨List.mem_cons_self, List.nodup_singleton 0, ?_, ?_, ?_⟩
    · intro a ha
      rw [List.mem_singleton.mp ha]
      exact Nat.one_pos
    · intro x hx hmark
      rw [List.mem_singleton.mp hx] at hmark
      cases hmark
    · exact ⟨(0, initialTask area 0), List.mem_cons_self, rfl, rfl⟩
  obtain ⟨v', hchange, hs'⟩ := tick_change hv ⟨hrep, hfirst, hfresh⟩ htick
  have hv' := hchange.sound hv
  -- the only task saves its context and goes on
  suffices hsave : d = some ⟨some 0, some 0, state⟩ ∧ v'.Records fun _ => state from
    ⟨hsave.1, v', hv', ⟨hs'.tasks, hs'.current, hs'.fresh⟩, hsave.2⟩
  have hforced := tick_isSome rfl htick
  cases hchange with
  | idle => cases hforced
  | leave ht hmark => exact absurd rfl (hv.ne_initial ht hmark)
  | @save _ _ _ t u j us vs ht hmark hsplit hnext hu =>
    have honly : ∀ x ∈ (v.contents.setData v.current
        { t with state := state, ssestate := sse }).elems, x.1 = 0 ∧ x.2.state = state := by
      intro x hx
      obtain ⟨rfl, -⟩ | ⟨hne, hx⟩ := LinkedList.Contents.mem_setData hx
      · exact ⟨rfl, rfl⟩
      · rw [List.mem_singleton.mp hx] at hne
        exact absurd rfl hne
    obtain ⟨hj, hstate⟩ := honly _ hu
    dsimp only at hj hstate
    exact ⟨by rw [hj, hstate], fun x hx => (honly x hx).2⟩

theorem filterMap_snoc {β : Type} (g : Op × Event → Option β) (h : List (Op × Event))
    (x : Op × Event) : (h ++ [x]).filterMap g = h.filterMap g ++ (g x).toList := by
  cases hx : g x <;> simp [hx]

/-- The state of affairs after a history. -/
theorem runs_shows (hv : v.Sound) (hs : Shows s₀ v) {f : ℕ → CpuState} (hf : v.Records f)
    (hrun : Runs step Allowed s₀ h s) :
    ∃ v', ∃ hv' : v'.Sound, Shows s v' ∧ RoundRobin.Trace hv.queue (turns h) hv'.queue ∧
      v'.Records (h.foldl record f) ∧ v'.Retires (exited h) := by
  induction hrun with
  | nil => exact ⟨v, hv, hs, .nil _, hf, fun i hi => absurd hi List.not_mem_nil⟩
  | snoc _ hallowed hstep ih =>
    obtain ⟨v₁, hv₁, hs₁, htrace, hrec, hret⟩ := ih
    obtain ⟨v₂, hchange, hs₂⟩ := step_change hv₁ hs₁ hallowed hstep
    have hv₂ := hchange.sound hv₁
    refine ⟨v₂, hv₂, hs₂, ?_, ?_, ?_⟩
    · rw [turns, filterMap_snoc]
      exact htrace.snoc (hchange.rotates hv₁ hv₂)
    · rw [List.foldl_append]
      exact hchange.records hv₁ hrec
    · rw [exited, filterMap_snoc]
      exact hchange.retires hv₁ hret

/-- The links of `sched_tasks`. -/
theorem Shows.members_eq (hs : Shows s v) : s.tasks.members = v.contents.addrs :=
  hs.tasks.members_eq

/-- After `sched_start` the running task is in the list. Whatever is dispatched next has
not exited, and its context is the one on record. From a moment when `a` runs to its
next dispatch, every other task that is in the list all the time is dispatched exactly
once. -/
theorem sched_round_robin {area sse : List ℕ} {d : Option Dispatch}
    (hstart : boot.start area state sse = .ok (d, s₀)) (hrun : Runs step Allowed s₀ h s) :
    d = some ⟨some 0, some 0, state⟩ ∧
    (∃ i ∈ s.tasks.members, s.current = some i) ∧
    (∀ op i j cs s', Allowed s op → s.step op = .ok (.ticked (some ⟨i, some j, cs⟩), s') →
        j ∉ exited h ∧ cs = saved state (h ++ [(op, .ticked (some ⟨i, some j, cs⟩))]) j) ∧
    ∀ a b op i cs h' s' s'', s.current = some a → Runs step Allowed s h' s' →
      a ∉ turns h' → Allowed s' op →
      s'.step op = .ok (.ticked (some ⟨i, some a, cs⟩), s'') →
      b ≠ a → b ∈ s.tasks.members → b ∈ s''.tasks.members → (turns h').count b = 1 := by
  obtain ⟨hd, v₀, hv₀, hs₀, hrec₀⟩ := start_shows hstart
  obtain ⟨v, hv, hs, -, hrec, hret⟩ := runs_shows hv₀ hs₀ hrec₀ hrun
  refine ⟨hd, ⟨v.current, hs.members_eq ▸ hv.mem, hs.current⟩, ?_, ?_⟩
  · intro op i j cs s' hallowed hstep
    obtain ⟨v', hchange, hs'⟩ := step_change hv hs hallowed hstep
    obtain ⟨x, hx, htask, hstate, hfree⟩ := hchange.loads hv
    obtain rfl : j = x.1 := Option.some.inj htask
    constructor
    · intro hin
      have hv' := hchange.sound hv
      obtain ⟨t, ht, hmark⟩ := (hchange.retires hv hret _ (List.mem_append_left _ hin)).2
        (List.mem_map_of_mem hx)
      rw [hv'.unique ht hx, hfree] at hmark
      cases hmark
    · rw [saved, List.foldl_append]
      exact hstate.trans (hchange.records hv hrec x hx)
  · intro a b op i cs h' s' s'' hcur hrun' hnot hallowed hstep hne hb hb'
    obtain ⟨v', hv', hs', htrace, -⟩ := runs_shows hv hs hrec hrun'
    obtain ⟨v'', hchange, hs''⟩ := step_change hv' hs' hallowed hstep
    have hv'' := hchange.sound hv'
    obtain rfl : v.current = a := Option.some.inj (hs.current.symm.trans hcur)
    rw [hs.members_eq] at hb
    rw [hs''.members_eq] at hb'
    exact htrace.once hv.head_queue hnot (hchange.rotates hv' hv'') (hv.mem_queue.mpr hb)
      (hv''.mem_queue.mpr hb') hne

/-- A thread and a process are added; until the initial task has its next turn, each of
them has one. -/
theorem sched_round_robin_two :
    ∃ s₀ h s h' s', boot.start [] {} [] = .ok (some ⟨some 0, some 0, {}⟩, s₀) ∧
      Runs step Allowed s₀ h s ∧ Runs step Allowed s h' s' ∧
      (turns h').count 1 = 1 ∧ (turns h').count 2 = 1 := by
  obtain ⟨⟨d, s₀⟩, hstart, hd⟩ : ∃ r, boot.start [] {} [] = .ok r ∧
      r.1 = some ⟨some 0, some 0, {}⟩ := ⟨_, rfl, rfl⟩
  have hreplay : ((boot.start [] {} []).toOption.bind fun r =>
      (replay step Allowed [] r.2 [.addThread 1 0 0 0, .addUserProcess 2 3 4]).bind fun r₁ =>
        (replay step Allowed [] r₁.2 [.tick { rip := 5 } [] false, .tick { rip := 6 } [] true]).map
          fun r₂ => (r₁.2.current, r₁.2.tasks.members, turns r₂.1,
            (r₂.2.step (.tick { rip := 7 } [] false)).toOption.map
              fun r₃ => (r₃.1, r₃.2.tasks.members))) =
      some (some 0, [0, 1, 2], [1, 2],
        some (.ticked (some ⟨some 2, some 0, { rip := 5 }⟩), [0, 1, 2])) := by
    decide
  rw [hstart, Except.toOption, Option.bind_some] at hreplay
  obtain ⟨⟨h, s⟩, hr₁, hreplay⟩ := Option.bind_eq_some_iff.mp hreplay
  obtain ⟨⟨h', s'⟩, hr₂, hvals⟩ := Option.map_eq_some_iff.mp hreplay
  simp only [Prod.mk.injEq] at hvals
  obtain ⟨hcur, hmem, hturns, hlast⟩ := hvals
  obtain ⟨⟨e, s''⟩, hstep, hvals⟩ := Option.map_eq_some_iff.mp hlast
  obtain ⟨rfl, hmem'⟩ := Prod.mk.inj hvals
  have hrun := (Runs.nil s₀).replay hr₁
  have hrun' := (Runs.nil s).replay hr₂
  have hturn := (sched_round_robin hstart hrun).2.2.2
  have honce : ∀ b, b ≠ 0 → b ∈ [0, 1, 2] → (turns h').count b = 1 := fun b hb hin =>
    hturn 0 b (.tick { rip := 7 } [] false) _ _ h' s' s'' hcur hrun' (hturns ▸ by decide)
      trivial (eq_ok_of_toOption hstep) hb (hmem ▸ hin) (hmem' ▸ hin)
  exact ⟨s₀, h, s, h', s', hd ▸ hstart, hrun, hrun', honce 1 (by decide) (by decide),
    honce 2 (by decide) (by decide)⟩

end Runs

end Sched

end NeptunOS
