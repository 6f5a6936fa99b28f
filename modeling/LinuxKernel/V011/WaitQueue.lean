import LinuxKernel.Lib.System

/-!
# LinuxKernel.V011.WaitQueue

The **wait queues** of `kernel/sched.c`: `sleep_on`, `interruptible_sleep_on`,
`wake_up` and the part of `schedule` that makes a signalled task runnable.

A wait queue is a single pointer `*p`. The rest of the list is threaded
through the stacks of the sleeping tasks: each saves the head it found in its
local `tmp` and puts itself at the head. A task suspended in `schedule()`
inside one of the two functions is therefore a `Frame`: which function, which
queue, which `tmp`.

The kernel is not preemptive, so everything between two calls of `schedule()`
is one step. `schedule` picks the next task by `counter`; here *any* runnable
task may be the one that continues (`Act.resume`).

`stray` is a history variable: it becomes `true` when one of the three
functions stores `state = 0` into a task that is in neither sleep function.
-/

namespace LinuxKernel.V011.WaitQueue

/-! ### The data model -/

/-- The values of `task_struct.state` in `sched.h`. -/
inductive TaskState
  | running
  | interruptible
  | uninterruptible
  | zombie
  | stopped
  deriving DecidableEq, Repr

/-- The fields of `struct task_struct` that `schedule` reads. -/
structure TaskStruct where
  state : TaskState
  signal : BitVec 32
  blocked : BitVec 32
  alarm : Nat
  deriving DecidableEq, Repr

/-- The two functions a task can be asleep in. -/
inductive Sleep
  | sleepOn
  | interruptibleSleepOn
  deriving DecidableEq, Repr

/-- The stack frame of a task suspended in `schedule()` inside a sleep
function: the queue `p` and the local `tmp`. -/
structure Frame where
  fn : Sleep
  p : Nat
  tmp : Option Nat
  deriving DecidableEq, Repr

/-- Task numbers and queue numbers are unbounded. `queue p` is `*p`. -/
structure State where
  task : Nat → TaskStruct
  queue : Nat → Option Nat
  frame : Nat → Option Frame
  jiffies : Nat
  stray : Bool

def State.running (s : State) (t : Nat) : Prop := (s.task t).state = .running

instance (s : State) (t : Nat) : Decidable (s.running t) :=
  inferInstanceAs (Decidable ((s.task t).state = .running))

def setState (s : State) (t : Nat) (st : TaskState) : State :=
  { s with task := Function.update s.task t { s.task t with state := st } }

/-- `_S(nr)`. -/
def sigBit (nr : Nat) : BitVec 32 := 1#32 <<< (nr - 1)

def SIGKILL : Nat := 9
def SIGALRM : Nat := 14
def SIGSTOP : Nat := 19

/-- `_BLOCKABLE`. -/
def blockable : BitVec 32 := ~~~(sigBit SIGKILL ||| sigBit SIGSTOP)

/-! ### The code -/

/-- An expired alarm raises `SIGALRM`. -/
def expireAlarm (jiffies : Nat) (p : TaskStruct) : TaskStruct :=
  if p.alarm ≠ 0 ∧ p.alarm < jiffies then
    { p with signal := p.signal ||| sigBit SIGALRM, alarm := 0 }
  else p

/-- The body of the first loop of `schedule`, for one task: an unblocked
signal ends an interruptible sleep. -/
def checkSignals (jiffies : Nat) (q : TaskStruct) : TaskStruct :=
  let p := expireAlarm jiffies q
  if p.signal &&& ~~~(blockable &&& p.blocked) ≠ 0 ∧ p.state = .interruptible then
    { p with state := .running }
  else p

/-- `schedule` up to `switch_to`: the loop runs over every task but `FIRST_TASK`. -/
def schedule (s : State) : State :=
  { s with task := fun t => if t = 0 then s.task t else checkSignals s.jiffies (s.task t) }

/-- `tmp->state=0` and `(**p).state=0`, recording whether the store hits a
task that is inside a sleep function. -/
def wake (s : State) (u : Nat) : State :=
  { setState s u .running with stray := s.stray || (s.frame u).isNone }

/-- `if (tmp) tmp->state=0;` -/
def wakeTmp (s : State) : Option Nat → State
  | some u => wake s u
  | none => s

/-- `wake_up`. -/
def wakeUp (s : State) (p : Nat) : State :=
  match s.queue p with
  | some h => { wake s h with queue := Function.update s.queue p none }
  | none => s

/-- Both sleep functions up to their first `schedule()`. -/
def enter (s : State) (fn : Sleep) (st : TaskState) (t p : Nat) : State :=
  schedule
    { setState s t st with
      frame := Function.update s.frame t (some ⟨fn, p, s.queue p⟩)
      queue := Function.update s.queue p (some t) }

/-- `sleep_on`, called by the running task `t`. -/
def sleepOn (s : State) (t p : Nat) : Outcome State :=
  if t = 0 then .panic "task[0] trying to sleep"
  else .next (enter s .sleepOn .uninterruptible t p)

/-- `interruptible_sleep_on`, called by the running task `t`. -/
def interruptibleSleepOn (s : State) (t p : Nat) : Outcome State :=
  if t = 0 then .panic "task[0] trying to sleep"
  else .next (enter s .interruptibleSleepOn .interruptible t p)

/-- Return from the sleep function. -/
def leave (s : State) (t : Nat) : State :=
  { s with frame := Function.update s.frame t none }

/-- What `t` does when `schedule()` returns. -/
def afterSchedule (s : State) (t : Nat) (f : Frame) : State :=
  match f.fn with
  | .sleepOn => leave (wakeTmp s f.tmp) t
  | .interruptibleSleepOn =>
      match s.queue f.p with
      | some h =>
          if h ≠ t then schedule (setState (wake s h) t .interruptible)  -- goto repeat
          else leave (wakeTmp { s with queue := Function.update s.queue f.p none } f.tmp) t
      | none =>
          leave (wakeTmp { s with queue := Function.update s.queue f.p none } f.tmp) t

/-! ### The system -/

/-- One step. The last three actions are the rest of the kernel: signals are
sent and masked, time passes, and a task outside the two functions changes its
own state (`sys_pause`, `do_exit`, the re-use of its slot) and reschedules. -/
inductive Act
  | sleepOn (t p : Nat)
  | interruptibleSleepOn (t p : Nat)
  | wakeUp (p : Nat)
  | resume (t : Nat)
  | signal (t : Nat) (signal blocked : BitVec 32) (alarm : Nat)
  | tick
  | other (t : Nat) (st : TaskState)
  deriving DecidableEq, Repr

def step (s : State) : Act → Outcome State
  | .sleepOn t p =>
      if s.running t ∧ s.frame t = none then sleepOn s t p else .disabled
  | .interruptibleSleepOn t p =>
      if s.running t ∧ s.frame t = none then interruptibleSleepOn s t p else .disabled
  | .wakeUp p => .next (wakeUp s p)
  | .resume t =>
      match s.frame t with
      | some f => if s.running t then .next (afterSchedule s t f) else .disabled
      | none => .disabled
  | .signal t sig blk alrm =>
      .next { s with
        task := Function.update s.task t
          { s.task t with signal := sig, blocked := blk, alarm := alrm } }
  | .tick => .next { s with jiffies := s.jiffies + 1 }
  | .other t st =>
      if s.frame t = none then .next (schedule (setState s t st)) else .disabled

/-- Nobody sleeps yet. -/
structure Init (s : State) : Prop where
  queue : ∀ p, s.queue p = none
  frame : ∀ t, s.frame t = none
  stray : s.stray = false

/-! ### What is claimed -/

/-- `t` is inside a sleep function and its saved `tmp` is `u`. -/
def Saved (s : State) (t u : Nat) : Prop := ∃ f, s.frame t = some f ∧ f.tmp = some u

/-- Following saved `tmp` pointers. -/
def Follows (s : State) : Nat → Nat → Prop := Relation.ReflTransGen (Saved s)

/-- `t` is reachable from `*p`, or from the `tmp` of a runnable task that is
still inside one of the two functions. -/
def Linked (s : State) (p t : Nat) : Prop :=
  (∃ h, s.queue p = some h ∧ Follows s h t) ∨
    ∃ r u, s.running r ∧ Saved s r u ∧ Follows s u t

/-- Every task still asleep on a queue can be reached. -/
def NoLostSleeper (s : State) : Prop :=
  ∀ t f, s.frame t = some f → ¬ s.running t → Linked s f.p t

/-- No sleeper is lost and no stranger has been woken. -/
def Sound (s : State) : Prop := NoLostSleeper s ∧ s.stray = false

/-! ### When the code keeps it

`sleep_on` never takes itself off the queue, and `interruptible_sleep_on`
writes `*p = NULL` or goes back to sleep depending on what it finds at `*p`.
Both are right only if the pointers to the task are where the code assumes
them: nobody still points to a task that leaves, and somebody still points to
a task that goes back to sleep. -/

/-- The step in which `t` continues after `schedule()` meets its assumption. -/
def ResumeOk (s : State) (t : Nat) (f : Frame) : Prop :=
  match f.fn with
  | .sleepOn => s.queue f.p ≠ some t ∧ ∀ u, ¬ Saved s u t
  | .interruptibleSleepOn =>
      match s.queue f.p with
      | none => ∀ u, ¬ Saved s u t
      | some h => h ≠ t →
          Follows s h t ∨ ∃ r u, r ≠ t ∧ s.running r ∧ Saved s r u ∧ Follows s u t

/-- Only the continuation of a sleep function carries a condition. -/
def StepOk (s : State) : Act → Prop
  | .resume t => ∀ f, s.frame t = some f → ResumeOk s t f
  | _ => True

end LinuxKernel.V011.WaitQueue
