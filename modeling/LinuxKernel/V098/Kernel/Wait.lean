import LinuxKernel.Lib.System
import LinuxKernel.Lib.Chain
import LinuxKernel.Lib.Cycle

/-!
# LinuxKernel.V098.Kernel.Wait

The **wait queues**: `add_wait_queue`, `remove_wait_queue`, `wake_up`, `__sleep_on`, and
`select_wait` and `free_wait` of `select`.

- A step is one section under cli. `wake_up` can come from an interrupt at any time; as it
  changes no `*q`, it makes no difference that it reads `*q` before its cli.
- An entry is the one in the `task_struct` or one of the table on the stack of `do_select`.
  `next` of an entry that is on no queue is not read before it is set.
- A loop that takes more rounds than there are entries in use is a panic. `used`, `queue`
  and `pending` are history: the entries that have been added and not yet removed, where,
  and which of them no `wake_up` has come to since.
-/

namespace LinuxKernel.V098.Kernel.Wait

abbrev Task := Nat
abbrev Queue := Nat

/-- A `struct wait_queue`: `current->wait`, or `entry[i].wait` of a `select_table`. -/
inductive Entry
  | wait (t : Task)
  | select (t : Task) (i : Nat)
  deriving Repr, DecidableEq

def Entry.task : Entry → Task
  | wait t => t
  | select t _ => t

inductive TaskState
  | running
  | interruptible
  | uninterruptible
  | zombie
  | stopped
  deriving Repr, DecidableEq

/-- Where a task is in `do_select`: not in it, in the loop over the files, in `schedule`, or
in `free_wait`, from where it goes to `repeat` or returns. -/
inductive Select
  | out
  | checking
  | waiting
  | freeing (again : Bool)
  deriving Repr, DecidableEq

structure State where
  head : Queue → Option Entry
  next : Entry → Option Entry
  state : Task → TaskState
  sleeping : Task → Option Queue
  select : Task → Select
  table : Task → List Queue
  used : List Entry
  queue : Entry → Option Queue
  pending : Entry → Bool

/-! ### `include/linux/sched.h` -/

/-- `while (tmp->next) if ((tmp = tmp->next)->next == *p) break`: the last `tmp`. -/
def addLoop (next : Entry → Option Entry) (p : Option Entry) : Nat → Entry → Option Entry
  | 0, _ => none
  | n + 1, tmp =>
      match next tmp with
      | none => some tmp
      | some tmp => if next tmp = p then some tmp else addLoop next p n tmp

def addWaitQueue (s : State) (p : Queue) (wait : Entry) : Outcome State :=
  let next := Function.update s.next wait (s.head p)
  match addLoop next (s.head p) (s.used.length + 1) wait with
  | none => .panic "the loop of add_wait_queue goes on"
  | some tmp =>
      .next { s with
        next := Function.update next tmp (some wait)
        head := Function.update s.head p (some wait)
        used := wait :: s.used
        queue := Function.update s.queue wait (some p)
        pending := Function.update s.pending wait true }

def removeWaitQueue (s : State) (p : Queue) (wait : Entry) : Outcome State :=
  let head :=
    if s.head p = some wait then
      Function.update s.head p (if s.next wait = some wait then none else s.next wait)
    else s.head
  -- `tmp = wait; while (tmp && tmp->next != wait) tmp = tmp->next`
  match walk s.next (fun tmp => s.next tmp = some wait) (s.used.length + 1) (some wait) with
  | none => .panic "the loop of remove_wait_queue goes on"
  | some tmp =>
      let next :=
        match tmp with
        | some tmp => Function.update s.next tmp (s.next wait)
        | none => s.next
      .next { s with
        next := Function.update next wait none
        head := head
        used := s.used.erase wait
        queue := Function.update s.queue wait none
        pending := Function.update s.pending wait false }

/-! ### `kernel/sched.c` -/

def wake (state : Task → TaskState) (t : Task) : Task → TaskState :=
  if state t = .zombie ∨ state t = .stopped then state else Function.update state t .running

/-- The loop of `wake_up`, at the entry `tmp`. -/
def wakeLoop (q : Queue) : Nat → Entry → State → Outcome State
  | 0, _, _ => .panic "the loop of wake_up goes on"
  | n + 1, tmp, s =>
      let s' := { s with
        state := wake s.state tmp.task
        next := Function.update s.next tmp none
        pending :=
          if s.queue tmp = some q then Function.update s.pending tmp false else s.pending }
      match s.next tmp with
      | none => .next s'
      | some next => if s.head q = some next then .next s' else wakeLoop q n next s'

def wakeUp (s : State) (q : Queue) : Outcome State :=
  match s.head q with
  | none => .next s
  | some tmp => wakeLoop q (s.used.length + 1) tmp s

/-- `__sleep_on` down to `schedule` -/
def sleepOn (s : State) (t : Task) (p : Queue) (state : TaskState) : Outcome State :=
  addWaitQueue { s with
    state := Function.update s.state t state
    sleeping := Function.update s.sleeping t (some p) } p (.wait t)

/-- `__sleep_on` from there on -/
def sleepEnd (s : State) (t : Task) (p : Queue) : Outcome State :=
  removeWaitQueue { s with sleeping := Function.update s.sleeping t none } p (.wait t)

/-! ### `fs/select.c` -/

/-- `select_wait` -/
def selectWait (s : State) (t : Task) (p : Queue) : Outcome State :=
  addWaitQueue { s with table := Function.update s.table t (s.table t ++ [p]) } p
    (.select t (s.table t).length)

/-- One round of the loop of `free_wait`, which goes down from the last entry. -/
def freeWait (s : State) (t : Task) : Outcome State :=
  match (s.table t).getLast? with
  | none => .disabled
  | some p =>
      removeWaitQueue { s with table := Function.update s.table t (s.table t).dropLast } p
        (.select t ((s.table t).length - 1))

/-- `do_select` goes on to `repeat`, or begins. -/
def selectBegin (s : State) (t : Task) : State :=
  { s with
    state := Function.update s.state t .interruptible
    select := Function.update s.select t .checking }

/-! ### Steps -/

inductive Act
  | sleepOn (t : Task) (p : Queue) (interruptible : Bool)
  | sleepEnd (t : Task)
  | wakeUp (q : Queue)
  | select (t : Task)
  | selectWait (t : Task) (p : Queue)
  | selectSchedule (t : Task)
  | selectResume (t : Task)
  | selectDone (t : Task)
  | freeWait (t : Task)
  | freeEnd (t : Task)
  | setState (t : Task) (state : TaskState)
  deriving Repr, DecidableEq

def step (s : State) : Act → Outcome State
  | .sleepOn t p interruptible =>
      if s.sleeping t = none ∧ s.select t ≠ .waiting then
        sleepOn s t p (if interruptible then .interruptible else .uninterruptible)
      else .disabled
  | .sleepEnd t =>
      match s.sleeping t with
      | some p => if s.state t = .running then sleepEnd s t p else .disabled
      | none => .disabled
  | .wakeUp q => wakeUp s q
  | .select t =>
      if s.sleeping t = none ∧ s.select t = .out then .next (selectBegin s t) else .disabled
  | .selectWait t p =>
      if s.sleeping t = none ∧ s.select t = .checking then selectWait s t p else .disabled
  | .selectSchedule t =>
      if s.sleeping t = none ∧ s.select t = .checking then
        .next { s with select := Function.update s.select t .waiting }
      else .disabled
  | .selectResume t =>
      if s.select t = .waiting ∧ s.state t = .running then
        .next { s with select := Function.update s.select t (.freeing true) }
      else .disabled
  | .selectDone t =>
      if s.sleeping t = none ∧ s.select t = .checking then
        .next { s with select := Function.update s.select t (.freeing false) }
      else .disabled
  | .freeWait t =>
      if s.sleeping t = none ∧ (s.select t = .freeing true ∨ s.select t = .freeing false) then
        freeWait s t
      else .disabled
  | .freeEnd t =>
      if s.table t = [] then
        match s.select t with
        | .freeing true => .next (selectBegin s t)
        | .freeing false =>
            .next { s with
              state := Function.update s.state t .running
              select := Function.update s.select t .out }
        | _ => .disabled
      else .disabled
  -- signals, timeouts and whatever else changes the state of a task
  | .setState t state => .next { s with state := Function.update s.state t state }

def init : State where
  head _ := none
  next _ := none
  state _ := .running
  sleeping _ := none
  select _ := .out
  table _ := []
  used := []
  queue _ := none
  pending _ := false

/-! ### What is wanted -/

/-- An entry that the links lead to from `*q`. -/
inductive Reached (s : State) (q : Queue) : Entry → Prop
  | head {e : Entry} : s.head q = some e → Reached s q e
  | next {e e' : Entry} : Reached s q e → s.next e = some e' → Reached s q e'

/-- The entry that a step removes. -/
def removed (s : State) : Act → Option Entry
  | .sleepEnd t => some (.wait t)
  | .freeWait t => some (.select t ((s.table t).length - 1))
  | _ => none

/-- No loop goes on; a `wake_up` leaves no entry of its queue pending; and an entry that is
removed takes no other one with it and leaves no pointer to itself. -/
structure Sound (s : State) : Prop where
  loops : ∀ a msg, step s a ≠ .panic msg
  reached : ∀ q s', step s (.wakeUp q) = .next s' →
    ∀ e, s.queue e = some q → s'.pending e = false
  others : ∀ a e s', removed s a = some e → step s a = .next s' →
    ∀ q e', e' ≠ e → Reached s q e' → Reached s' q e'
  gone : ∀ a e s', removed s a = some e → step s a = .next s' →
    (∀ q, s'.head q ≠ some e) ∧ ∀ e', s'.next e' ≠ some e

end LinuxKernel.V098.Kernel.Wait
