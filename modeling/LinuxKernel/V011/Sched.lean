import LinuxKernel.V011.WaitQueue

/-!
# LinuxKernel.V011.Sched

**The scheduler**: `schedule`, `do_timer` and `sys_nice` of `kernel/sched.c`, and what `fork`
does to counters.

- A `long` is an `Int` that wraps.
- `rounds` in an action bounds the rounds of the loop of `schedule`; the action is possible
  if the loop is left within them.
- Everything that puts a task to sleep, wakes it up, sends signals to it or sets its alarm is
  an action. What calls `schedule` does so in the next action, except for `do_timer`.
-/

namespace LinuxKernel.V011.Sched

open WaitQueue (TaskState TaskStruct checkSignals)

/-! ### The data model -/

def NR_TASKS : Nat := 64

/-- A sum or a difference of two `long`s. -/
def wrap (x : Int) : Int := (x + 2 ^ 31) % 2 ^ 32 - 2 ^ 31

structure Task extends TaskStruct where
  counter : Int
  priority : Int

abbrev Table := Nat → Option Task

structure State where
  task : Table
  current : Nat
  jiffies : Nat

def State.setTask (s : State) (n : Nat) (p : Task) : State :=
  { s with task := Function.update s.task n (some p) }

/-- A slot that the loops of `schedule` look at. -/
def Slot (n : Nat) : Prop := 1 ≤ n ∧ n < NR_TASKS

instance (n : Nat) : Decidable (Slot n) := inferInstanceAs (Decidable (_ ∧ _))

/-! ### `schedule` -/

/-- The first loop: alarms, and tasks that have got a signal. -/
def awake (s : State) : Table := fun n =>
  if Slot n then
    (s.task n).map fun p => { p with toTaskStruct := checkSignals s.jiffies p.toTaskStruct }
  else s.task n

/-- A round of `while (--i)`, with `c` and `next`. -/
def compare (task : Table) (n : Nat) (r : Int × Nat) : Int × Nat :=
  match task n with
  | some p => if p.state = .running ∧ r.1 < p.counter then (p.counter, n) else r
  | none => r

/-- `while (--i)`. -/
def pick (task : Table) : Nat → Int × Nat → Int × Nat
  | 0, r => r
  | n + 1, r => pick task n (compare task (n + 1) r)

/-- A recalculation pass. -/
def recalc (task : Table) : Table := fun n =>
  if Slot n then (task n).map fun p => { p with counter := wrap (p.counter / 2 + p.priority) }
  else task n

/-- `while (1)`: the table and `next` when it is left. -/
def choose : Nat → Table → Option (Table × Nat)
  | 0, _ => none
  | rounds + 1, task =>
      let r := pick task (NR_TASKS - 1) (-1, 0)
      if r.1 ≠ 0 then some (task, r.2) else choose rounds (recalc task)

/-- `schedule`. -/
def schedule (rounds : Nat) (s : State) : Outcome State :=
  match choose rounds (awake s) with
  | some r => .next { s with task := r.1, current := r.2 }
  | none => .disabled

/-! ### Timer ticks, `nice` and `fork` -/

/-- `do_timer`, and whether it calls `schedule`. -/
def doTimer (s : State) (cpl : Bool) : State × Bool :=
  match s.task s.current with
  | none => (s, false)
  | some p =>
      let counter := wrap (p.counter - 1)
      if 0 < counter then (s.setTask s.current { p with counter := counter }, false)
      else (s.setTask s.current { p with counter := 0 }, cpl)

/-- `sys_nice`. -/
def sysNice (p : Task) (increment : Int) : Task :=
  if 0 < wrap (p.priority - increment) then { p with priority := wrap (p.priority - increment) }
  else p

/-- The child of `copy_process`. -/
def child (p : Task) : Task :=
  { p with state := .running, counter := p.priority, signal := 0, alarm := 0 }

/-! ### The system -/

inductive Act
  | fork (n : Nat)
  | nice (increment : Int)
  | tick (cpl : Bool) (rounds : Nat)
  | schedule (rounds : Nat)
  /-- The current task sleeps, stops or ends. -/
  | setState (st : TaskState)
  | wakeUp (n : Nat)
  | signal (n : Nat) (signal blocked : BitVec 32) (alarm : Nat)
  /-- A zombie is released. -/
  | release (n : Nat)

def step (s : State) : Act → Outcome State
  | .fork n =>
      match s.task s.current, s.task n with
      | some p, none => if Slot n then .next (s.setTask n (child p)) else .disabled
      | _, _ => .disabled
  | .nice increment =>
      match s.task s.current with
      | some p => .next (s.setTask s.current (sysNice p increment))
      | none => .disabled
  | .tick cpl rounds =>
      let r := doTimer { s with jiffies := s.jiffies + 1 } cpl
      if r.2 then schedule rounds r.1 else .next r.1
  | .schedule rounds => schedule rounds s
  | .setState st =>
      match s.task s.current with
      | some p => .next (s.setTask s.current { p with state := st })
      | none => .disabled
  | .wakeUp n =>
      match s.task n with
      | some p => .next (s.setTask n { p with state := .running })
      | none => .disabled
  | .signal n signal blocked alarm =>
      match s.task n with
      | some p => .next (s.setTask n { p with signal, blocked, alarm })
      | none => .disabled
  | .release n =>
      if Slot n ∧ n ≠ s.current then .next { s with task := Function.update s.task n none }
      else .disabled

/-- `INIT_TASK`. -/
def initTask : Task where
  state := .running
  signal := 0
  blocked := 0
  alarm := 0
  counter := 15
  priority := 15

def initial : State where
  task n := if n = 0 then some initTask else none
  current := 0
  jiffies := 0

/-! ### What is claimed -/

/-- The state in which an action calls `schedule`. -/
def called (s : State) : Act → Option State
  | .tick cpl _ =>
      let r := doTimer { s with jiffies := s.jiffies + 1 } cpl
      if r.2 then some r.1 else none
  | .schedule _ => some s
  | _ => none

def Runnable (task : Table) (n : Nat) (p : Task) : Prop :=
  Slot n ∧ task n = some p ∧ p.state = .running

/-- `schedule` needs one recalculation pass at most, and takes a runnable task with a positive
and maximal counter if there is any. -/
def Picks (s : State) : Prop :=
  ∃ task next, choose 2 (awake s) = some (task, next) ∧
    ((∃ n p, Runnable (awake s) n p) → ∃ p, Runnable task next p ∧ 0 < p.counter ∧
      ∀ m q, Runnable task m q → q.counter ≤ p.counter)

/-- No sum of the recalculation pass wraps, if there is one. -/
def Calm (s : State) : Prop :=
  (pick (awake s) (NR_TASKS - 1) (-1, 0)).1 = 0 →
    ∀ n p, Slot n → awake s n = some p → p.counter / 2 + p.priority < 2 ^ 31

/-- The condition of a step. -/
def Ok (s : State) (a : Act) : Prop := ∀ t, called s a = some t → Calm t

end LinuxKernel.V011.Sched
