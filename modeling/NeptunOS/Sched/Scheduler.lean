import NeptunOS.Storage.EndMarker

/-!
# `scheduler/scheduler.cc`, `scheduler/scheduler.hh`

The task list and the pointer to the running task, for one processor. What `kmalloc`
and `paging_lookup` return is an argument. `sched_m` is left out here: every function
takes and releases it within one call.
-/

namespace NeptunOS

open Function

/-- `p->data = x`. -/
def LinkedList.setData {α : Type} (l : LinkedList α) (p : Option ℕ) (x : α) :
    Except Halt (LinkedList α) :=
  match p with
  | none => .error (.exception "page fault: null link")
  | some i =>
    .ok { l with
      links := update l.links i ((l.links i).map fun k => { k with data := x }) }

namespace Sched

/-- `cpu_state_amd64_t`. -/
structure CpuState where
  cr3 : ℕ := 0
  r15 : ℕ := 0
  r14 : ℕ := 0
  r13 : ℕ := 0
  r12 : ℕ := 0
  r11 : ℕ := 0
  r10 : ℕ := 0
  r9 : ℕ := 0
  r8 : ℕ := 0
  cr2 : ℕ := 0
  rbp : ℕ := 0
  rsi : ℕ := 0
  rdi : ℕ := 0
  rdx : ℕ := 0
  rcx : ℕ := 0
  rbx : ℕ := 0
  rax : ℕ := 0
  exc : ℕ := 0
  rflexc : ℕ := 0
  err : ℕ := 0
  rip : ℕ := 0
  cs : ℕ := 0
  rfl : ℕ := 0
  rsp : ℕ := 0
  ss : ℕ := 0
deriving DecidableEq, Repr

inductive TaskType where
  | process
  | thread
deriving DecidableEq, Repr

/-- `struct task`; `ssestate` is the area the pointer leads to. -/
structure Task where
  state : CpuState
  ssestate : List ℕ
  id : ℕ
  parent : ℕ
  type : TaskType
  scheduledForDeletion : Bool := false
deriving DecidableEq, Repr

end Sched

/-- `sched_tasks`, `sched_running`, `sched_cpus[cpuid_xapic_id()]`, `sched_current_pid`
and `sse_state`. -/
structure Sched where
  tasks : LinkedList Sched.Task
  running : Bool
  current : Option ℕ
  pid : ℕ
  sseState : List ℕ

namespace Sched

/-- Before `sched_start`. -/
def boot : Sched where
  tasks := .empty
  running := false
  current := none
  pid := 0
  sseState := []

/-- The first half of `sched_tick`: take the running task out or save its context. -/
def preempt (s : Sched) (state : CpuState) : Except Halt Sched :=
  match s.current with
  | none => .error (.exception "page fault: null link")
  | some i => do
    let ctask ← s.tasks.deref (some i)
    if ctask.data.scheduledForDeletion then
      let tasks ← s.tasks.removeLink i
      return { s with tasks, current := ctask.next }
    else
      let tasks ← s.tasks.setData (some i)
        { ctask.data with state, ssestate := s.sseState }
      return { s with tasks, current := ctask.next }

/-- A task that is given the processor, with the context loaded for it. -/
structure Dispatch where
  preempted : Option ℕ
  task : Option ℕ
  state : CpuState
deriving DecidableEq, Repr

/-- `sched_tick(state, force, eoi)`; the interrupt stub has stored `sse` in `sse_state`. -/
def tick (s : Sched) (state : CpuState) (sse : List ℕ) (force : Bool) :
    Except Halt (Option Dispatch × Sched) :=
  let s := { s with sseState := sse }
  if !s.running && !force then .ok (none, s)
  else do
    let t ← s.preempt state
    let next ← t.tasks.deref t.current
    return (some ⟨s.current, t.current, next.data.state⟩,
      { t with sseState := next.data.ssestate })

/-- The task that `sched_start` puts into the list. -/
def initialTask (area : List ℕ) (id : ℕ) : Task where
  state := { cs := 0x08, ss := 0x10 }
  ssestate := area
  id := id
  parent := 0
  type := .process

/-- `sched_start()`; `area` is what `kmalloc(512)` holds, `state` and `sse` are the
context at `int $0x41`. -/
def start (s : Sched) (area : List ℕ) (state : CpuState) (sse : List ℕ) :
    Except Halt (Option Dispatch × Sched) :=
  if s.tasks.size ≠ 0 then .error (.assertion "!sched_tasks.size")
  else do
    let (_, tasks) ← s.tasks.pushFront (initialTask area s.pid)
    let (d, s) ← tick
      { s with tasks, running := false, current := tasks.first, pid := (s.pid + 1) % 2 ^ 32 }
      state sse true
    return (d, { s with running := true })

/-- The context a thread starts with: `operator()` of `fun` on a stack with the address of
`sched_exit_thread` on top. -/
def threadState (rip stack callee cr3 : ℕ) : CpuState where
  cs := 0x08
  ss := 0x10
  rip := rip
  rsp := wsub (wadd stack 0x8000) 8
  rbp := wadd stack 0x8000
  rfl := 0x202
  rdi := callee
  cr3 := cr3

/-- The context a user process starts with. -/
def userState (cr3 stackptr entry : ℕ) : CpuState where
  cs := 0x20 ||| 3
  ss := 0x18 ||| 3
  rip := entry
  rsp := stackptr
  rbp := stackptr
  rfl := 0x202
  rdi := 0
  cr3 := cr3

/-- The part the two functions below share; the result is the new link. -/
def addTask (s : Sched) (state : CpuState) (type : TaskType) :
    Except Halt (ℕ × Sched) := do
  let (i, tasks) ← s.tasks.pushBack
    { state, ssestate := s.sseState, id := s.pid, parent := 0, type }
  return (i, { s with tasks, running := true, pid := (s.pid + 1) % 2 ^ 32 })

/-- `sched_add_thread(fun)`. -/
def addThread (s : Sched) (rip stack callee cr3 : ℕ) : Except Halt (ℕ × Sched) :=
  s.addTask (threadState rip stack callee cr3) .thread

/-- `sched_add_user_process(cr3, stackptr, entry)`. -/
def addUserProcess (s : Sched) (cr3 stackptr entry : ℕ) : Except Halt (ℕ × Sched) :=
  if !s.running then .error (.assertion "sched_running")
  else s.addTask (userState cr3 stackptr entry) .process

/-- `sched_exit_thread()`, up to its `pause()`. -/
def exitThread (s : Sched) : Except Halt Sched := do
  let ctask ← s.tasks.deref s.current
  let tasks ← s.tasks.setData s.current { ctask.data with scheduledForDeletion := true }
  return { s with tasks, running := true }

end Sched

end NeptunOS
