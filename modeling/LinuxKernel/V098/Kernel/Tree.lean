import LinuxKernel.Lib.System
import LinuxKernel.Lib.Queues
import LinuxKernel.Lib.Forest

/-!
# LinuxKernel.V098.Kernel.Tree

The **process tree** of `kernel/fork.c`, `kernel/exit.c` and `kernel/ptrace.c`: the links
between tasks and the five calls that change them.

- `sys_fork` is cut at `copy_mem` and `do_exit` behind `forget_original_parent`: both can
  sleep there. Everything else that a call does with the links it does in one go.
- A store through a pointer that is NULL or to a page that is no task is a panic, and so is
  a loop of `do_exit` that goes on for more than `NR_TASKS` rounds.
- Whatever else changes `p->state` (signals, sleeping, waking up) is `setState`. Calls that
  the checks of users and permissions refuse are left out.
-/

namespace LinuxKernel.V098.Kernel.Tree

/-- The page of a `task_struct`. -/
abbrev Addr := Nat

/-- `&init_task`, which is `task[0]`, and the page of `task[1]`. -/
def initTask : Addr := 0
def init : Addr := 1

def NR_TASKS : Nat := 64

inductive TaskState
  | running
  | interruptible
  | uninterruptible
  | zombie
  | stopped
  deriving Repr, DecidableEq

/-- Where a task is: in no call that counts here, not started yet (`sys_fork` of its parent
is in `copy_mem`), in `copy_mem` for a child, in `do_exit` behind `forget_original_parent`,
or gone. -/
inductive Pc
  | user
  | new
  | fork (nr : Nat) (p : Addr)
  | exiting
  | dead
  deriving Repr, DecidableEq

structure State where
  task : Nat → Option Addr
  allocated : Addr → Bool
  pOpptr : Addr → Addr
  pPptr : Addr → Addr
  pCptr : Addr → Option Addr
  pYsptr : Addr → Option Addr
  pOsptr : Addr → Option Addr
  ptraced : Addr → Bool
  state : Addr → TaskState
  pc : Addr → Pc

/-! ### Stores -/

/-- A store through `p`. -/
def deref (s : State) (p : Option Addr) (f : Addr → State) : Outcome State :=
  match p with
  | some a => if s.allocated a then .next (f a) else .panic "store through a freed task"
  | none => .panic "store through NULL"

def setCptr (s : State) (p : Option Addr) (v : Option Addr) : Outcome State :=
  deref s p fun a => { s with pCptr := Function.update s.pCptr a v }

def setYsptr (s : State) (p : Option Addr) (v : Option Addr) : Outcome State :=
  deref s p fun a => { s with pYsptr := Function.update s.pYsptr a v }

def setOsptr (s : State) (p : Option Addr) (v : Option Addr) : Outcome State :=
  deref s p fun a => { s with pOsptr := Function.update s.pOsptr a v }

/-- `if (p) p->p_ysptr = v` -/
def setYsptrIf (s : State) (p : Option Addr) (v : Option Addr) : Outcome State :=
  if p.isSome then setYsptr s p v else .next s

def setPptr (s : State) (p v : Addr) : State :=
  { s with pPptr := Function.update s.pPptr p v }

/-! ### `include/linux/sched.h` -/

/-- `REMOVE_LINKS(p)` -/
def removeLinks (s : State) (p : Addr) : Outcome State :=
  (setYsptrIf s (s.pOsptr p) (s.pYsptr p)).bind fun s =>
  match s.pYsptr p with
  | some q => setOsptr s (some q) (s.pOsptr p)
  | none => setCptr s (some (s.pPptr p)) (s.pOsptr p)

/-- `SET_LINKS(p)` -/
def setLinks (s : State) (p : Addr) : Outcome State :=
  (setYsptr s (some p) none).bind fun s =>
  (setOsptr s (some p) (s.pCptr (s.pPptr p))).bind fun s =>
  (setYsptrIf s (s.pOsptr p) (some p)).bind fun s =>
  setCptr s (some (s.pPptr p)) (some p)

/-- Take `child` off its parent's list and put it on that of `parent`. -/
def moveTo (s : State) (child parent : Addr) : Outcome State :=
  (removeLinks s child).bind fun s => setLinks (setPptr s child parent) child

/-! ### `kernel/fork.c` -/

/-- The loop of `find_empty_process` over the slots: only the super-user gets the last one. -/
def findEmptyProcess (s : State) (suser : Bool) : Option Nat :=
  match (List.range NR_TASKS).filter fun i => 0 < i ∧ s.task i = none with
  | [] => none
  | [nr] => if suser then some nr else none
  | nr :: _ :: _ => some nr

/-- `sys_fork` down to `copy_mem`, with the page that `get_free_page` has returned. -/
def sysFork (s : State) (current p : Addr) (suser : Bool) : Outcome State :=
  match findEmptyProcess s suser with
  | none => .next s
  | some nr =>
      (setLinks { s with
        task := Function.update s.task nr (some p)
        allocated := Function.update s.allocated p true
        state := Function.update s.state p .uninterruptible
        ptraced := Function.update s.ptraced p false
        pOpptr := Function.update s.pOpptr p current
        pPptr := Function.update s.pPptr p current
        pCptr := Function.update s.pCptr p none } p).bind fun s =>
      .next { s with pc := Function.update (Function.update s.pc p .new) current (.fork nr p) }

/-- `sys_fork` from there on; `copied` tells whether `copy_mem` has succeeded. -/
def forkEnd (s : State) (current : Addr) (nr : Nat) (p : Addr) (copied : Bool) : Outcome State :=
  if copied then
    .next { s with
      state := Function.update s.state p .running
      pc := Function.update (Function.update s.pc p .user) current .user }
  else
    (removeLinks { s with task := Function.update s.task nr none } p).bind fun s =>
    .next { s with
      allocated := Function.update s.allocated p false
      pc := Function.update s.pc current .user }

/-! ### `kernel/exit.c` -/

def inTask (s : State) (p : Addr) : Bool := (List.range NR_TASKS).any fun i => s.task i = some p

/-- The slots that are searched from `LAST_TASK` down to, but without, `FIRST_TASK`. -/
def search (s : State) (p : Addr) : Option Nat :=
  (List.range NR_TASKS).find? fun i => 0 < i ∧ s.task i = some p

/-- `release(p)`, by another task. -/
def release (s : State) (p : Addr) : Outcome State :=
  match search s p with
  | some i =>
      (removeLinks { s with task := Function.update s.task i none } p).bind fun s =>
      .next { s with allocated := Function.update s.allocated p false }
  | none => .panic "trying to release non-existent task"

/-- The task that inherits orphans. -/
def reaper (s : State) : Addr := ((s.task 1).or (s.task 0)).getD initTask

/-- `forget_original_parent`: the loop changes one field of each task it meets. -/
def forgetOriginalParent (s : State) (father : Addr) : State :=
  { s with
    pOpptr := fun p =>
      if (search s p).isSome ∧ s.pOpptr p = father then reaper s else s.pOpptr p }

/-- One round of the loop of `do_exit`, for the child `p`. -/
def reparent (s : State) (current p : Addr) : Outcome State :=
  (setCptr s (some current) (s.pOsptr p)).bind fun s =>
  (setYsptr s (some p) none).bind fun s =>
  let s := setPptr { s with ptraced := Function.update s.ptraced p false } p (reaper s)
  (setOsptr s (some p) (s.pCptr (s.pPptr p))).bind fun s =>
  (setYsptr s (s.pOsptr p) (some p)).bind fun s =>
  setCptr s (some (s.pPptr p)) (some p)

/-- `while (p = current->p_cptr)` -/
def reparentAll (current : Addr) : Nat → State → Outcome State
  | 0, s =>
      match s.pCptr current with
      | none => .next s
      | some _ => .panic "the loop of do_exit goes on"
  | n + 1, s =>
      match s.pCptr current with
      | none => .next s
      | some p => (reparent s current p).bind (reparentAll current n)

/-- `do_exit` behind the calls that sleep. -/
def exitEnd (s : State) (current : Addr) : Outcome State :=
  (reparentAll current NR_TASKS { s with state := Function.update s.state current .zombie }).bind
    fun s => .next { s with pc := Function.update s.pc current .dead }

/-- The child at which the loop of `sys_wait4` stops, `none` if the loop goes on. In `pids`
are the children that the argument `pid` selects, a stopped one only where it is reported. -/
def waitFor (s : State) (current : Addr) (pids : List Addr) : Option (Option Addr) :=
  walk s.pOsptr (fun p => p ∈ pids ∧ (s.state p = .zombie ∨ s.state p = .stopped)) NR_TASKS
    (s.pCptr current)

/-- `sys_wait4` -/
def sysWait4 (s : State) (current : Addr) (pids : List Addr) : Outcome State :=
  match waitFor s current pids with
  | none => .panic "the loop of sys_wait4 goes on"
  | some none => .next s
  | some (some p) =>
      if s.state p = .zombie then
        if s.pOpptr p ≠ s.pPptr p then moveTo s p (s.pOpptr p) else release s p
      else .next s

/-! ### `kernel/ptrace.c` -/

/-- `PTRACE_TRACEME` -/
def traceme (s : State) (current : Addr) : State :=
  if s.ptraced current then s else { s with ptraced := Function.update s.ptraced current true }

/-- A sleeping or stopped child is made to run. -/
def wakeChild (s : State) (child : Addr) : State :=
  if s.state child = .interruptible ∨ s.state child = .stopped then
    { s with state := Function.update s.state child .running }
  else s

/-- `PTRACE_ATTACH`, for a child that `get_task` has found. -/
def attach (s : State) (current child : Addr) : Outcome State :=
  if child = current ∨ s.ptraced child then .next s
  else
    let s := { s with ptraced := Function.update s.ptraced child true }
    (if s.pPptr child ≠ current then moveTo s child current else .next s).bind fun s =>
    .next (wakeChild s child)

/-- `PTRACE_DETACH` -/
def detach (s : State) (current child : Addr) : Outcome State :=
  if ¬ s.ptraced child ∨ s.state child ≠ .stopped ∨ s.pPptr child ≠ current then .next s
  else
    moveTo { s with
      ptraced := Function.update s.ptraced child false
      state := Function.update s.state child .running } child (s.pOpptr child)

/-! ### Steps -/

inductive Act
  | fork (current p : Addr) (suser : Bool)
  | copyMem (current : Addr) (copied : Bool)
  | exit (current : Addr)
  | exitEnd (current : Addr)
  | wait4 (current : Addr) (pids : List Addr)
  | traceme (current : Addr)
  | attach (current : Addr) (nr : Nat)
  | detach (current : Addr) (nr : Nat)
  | setState (p : Addr) (state : TaskState)
  deriving Repr, DecidableEq

/-- The task runs and may make a call. `task[0]` only idles. -/
def CanCall (s : State) (p : Addr) : Prop :=
  p ≠ initTask ∧ inTask s p ∧ s.pc p = .user ∧ s.state p = .running

instance (s : State) (p : Addr) : Decidable (CanCall s p) := inferInstanceAs (Decidable (_ ∧ _))

/-- The child of a `ptrace` request: `get_task` starts at slot 1. -/
def getTask (s : State) (nr : Nat) : Option Addr :=
  if 0 < nr ∧ nr < NR_TASKS then s.task nr else none

def step (s : State) : Act → Outcome State
  | .fork current p suser =>
      if CanCall s current ∧ ¬ s.allocated p then sysFork s current p suser else .disabled
  | .copyMem current copied =>
      match s.pc current with
      | .fork nr p => if inTask s current then forkEnd s current nr p copied else .disabled
      | _ => .disabled
  | .exit current =>
      -- task 1 does not exit
      if CanCall s current ∧ current ≠ init then
        .next { forgetOriginalParent s current with pc := Function.update s.pc current .exiting }
      else .disabled
  | .exitEnd current =>
      if inTask s current ∧ s.pc current = .exiting then exitEnd s current else .disabled
  | .wait4 current pids => if CanCall s current then sysWait4 s current pids else .disabled
  | .traceme current => if CanCall s current then .next (traceme s current) else .disabled
  | .attach current nr =>
      match getTask s nr with
      | some child => if CanCall s current then attach s current child else .disabled
      | none => .disabled
  | .detach current nr =>
      match getTask s nr with
      | some child => if CanCall s current then detach s current child else .disabled
      | none => .disabled
  | .setState p state =>
      if inTask s p ∧ s.pc p ≠ .new ∧ s.pc p ≠ .dead ∧ state ≠ .zombie then
        .next { s with state := Function.update s.state p state }
      else .disabled

/-- `task[0]` has forked `task[1]`. Pages that are no tasks are taken to be zero. -/
def boot : State where
  task i := if i = 0 then some initTask else if i = 1 then some init else none
  allocated p := p = initTask ∨ p = init
  pOpptr _ := initTask
  pPptr _ := initTask
  pCptr p := if p = initTask then some init else none
  pYsptr _ := none
  pOsptr _ := none
  ptraced _ := false
  state _ := .running
  pc _ := .user

/-! ### What is wanted -/

/-- `bad_task_ptr` finds nothing wrong. -/
def GoodPtr (s : State) (p : Option Addr) : Prop := ∀ q, p = some q → inTask s q

/-- The checks of `audit_ptree` for one task. -/
structure Audited (s : State) (t : Addr) : Prop where
  pptr : inTask s (s.pPptr t)
  cptr : GoodPtr s (s.pCptr t)
  ysptr : GoodPtr s (s.pYsptr t)
  osptr : GoodPtr s (s.pOsptr t)
  pptrSelf : s.pPptr t ≠ t
  cptrSelf : s.pCptr t ≠ some t
  ysptrSelf : s.pYsptr t ≠ some t
  osptrSelf : s.pOsptr t ≠ some t
  older : ∀ q, s.pOsptr t = some q → s.pPptr t = s.pPptr q ∧ s.pYsptr q = some t
  younger : ∀ q, s.pYsptr t = some q → s.pPptr t = s.pPptr q ∧ s.pOsptr q = some t
  youngest : ∀ q, s.pCptr t = some q → s.pPptr q = t ∧ s.pYsptr q = none

/-- The tree is a forest: the audit finds nothing, every task but the first two comes to
task 1 by `p_pptr`, the original parents are tasks, and no call does a bad store. -/
structure Forest (s : State) : Prop where
  audit : ∀ i t, 0 < i → i < NR_TASKS → s.task i = some t → Audited s t
  reach : ∀ t, inTask s t → t ≠ initTask → t ≠ init → ∃ n, s.pPptr^[n] t = init
  opptr : ∀ t, inTask s t → inTask s (s.pOpptr t)
  faults : ∀ a msg, step s a ≠ .panic msg

end LinuxKernel.V098.Kernel.Tree
