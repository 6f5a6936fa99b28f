import LinuxKernel.V011.WaitQueue

/-!
# LinuxKernel.V011.Exit

**The task table**: `fork`, `exit`, `waitpid` and `kill` (`kernel/fork.c`,
`kernel/exit.c`).

The kernel is not preemptive. `do_exit` may sleep between the loop over the
children and the end, `sys_waitpid` sleeps for a child, and inside `release`
and `put_fs_long`; a step takes one task from such a place to the next. Task 0
only idles, and task 1 does not exit.

- A slot of the table holds the page of a `task_struct`; pages and pids are
  used again. `id` and `parent` name tasks once and for all, and with the lists
  of `State` they are history.
- A fatal signal is an `exit` like any other.
- `waitpid` has a `stat_addr` that can be stored to, and wait queues leave zombies alone
  (`WaitQueueSound` says when).
-/

namespace LinuxKernel.V011.Exit

open WaitQueue (TaskState TaskStruct sigBit checkSignals)

/-! ### The data model -/

def SIGHUP : Nat := 1
def SIGCHLD : Nat := 17

def EPERM : Int := 1
def EINTR : Int := 4
def ECHILD : Int := 10
def EAGAIN : Int := 11
def EINVAL : Int := 22

def WNOHANG : BitVec 32 := 1
def WUNTRACED : BitVec 32 := 2

/-- Where a task is. -/
inductive Pc
  | user
  /-- In `do_exit`, between the loop over the children and the end. -/
  | exiting (code : Int)
  /-- In `sys_waitpid`, asleep. -/
  | waiting (pid : Int) (options : BitVec 32)
  /-- In `sys_waitpid`, behind `release`; `flag` and `code` are the variables. -/
  | released (flag code : Int) (child : Nat)
  deriving DecidableEq

/-- The fields of `struct task_struct` that the functions look at; `eax` is what
the last system call has returned. -/
structure Task extends TaskStruct where
  pid : Int
  father : Int
  pgrp : Int
  session : Int
  leader : Bool
  euid : Nat
  exitCode : Int
  utime : Int
  stime : Int
  cutime : Int
  cstime : Int
  eax : Int
  pc : Pc
  id : Nat
  parent : Nat

/-- A child has been released by `sys_waitpid`. -/
structure Reap where
  father : Nat
  child : Nat
  parent : Nat
  pid : Int
  code : Int
  utime : Int
  stime : Int

/-- `sys_waitpid` has returned the pid of a child and stored its exit code. -/
structure Return where
  father : Nat
  child : Nat
  value : Int
  status : Int
  deriving DecidableEq

structure State where
  slot : Fin 64 → Option Nat
  proc : Nat → Task
  used : Nat → Bool
  lastPid : Int
  jiffies : Nat
  nextId : Nat
  /-- Who has begun to exit. -/
  left : List Nat
  /-- Who has become a zombie, with which code. -/
  exits : List (Nat × Int)
  reaps : List Reap
  returned : List Return
  badFather : Bool

def setProc (s : State) (p : Nat) (t : Task) : State :=
  { s with proc := Function.update s.proc p t }

theorem setProc_proc (s : State) (p q : Nat) (t : Task) :
    (setProc s p t).proc q = if q = p then t else s.proc q :=
  Function.update_apply s.proc p t q

/-- Put `bits` into the `signal` of page `p`. -/
def raise (s : State) (p : Nat) (bits : BitVec 32) : State :=
  setProc s p { s.proc p with signal := (s.proc p).signal ||| bits }

/-! ### `fork` -/

/-- `if ((++last_pid)<0) last_pid=1;` -/
def nextPid (last : Int) : Int := if last + 1 = 2 ^ 31 then 1 else last + 1

/-- Some task has this pid. -/
def pidUsed (s : State) (pid : Int) : Bool :=
  (List.finRange 64).any fun i =>
    match s.slot i with
    | some p => (s.proc p).pid = pid
    | none => false

/-- The first loop of `find_empty_process`. -/
def findPid (s : State) (last : Int) : Nat → Option Int
  | 0 => none
  | fuel + 1 => if pidUsed s (nextPid last) then findPid s (nextPid last) fuel else nextPid last

/-- The second loop. -/
def findSlot (s : State) : Option (Fin 64) :=
  (List.finRange 64).find? fun i => i ≠ 0 && (s.slot i).isNone

/-- The new task that `copy_process` makes of `t`. -/
def child (s : State) (t : Task) : Task :=
  { t with
    state := .running, pid := s.lastPid, father := t.pid, signal := 0, alarm := 0, leader := false
    utime := 0, stime := 0, cutime := 0, cstime := 0, eax := 0
    pc := .user, id := s.nextId, parent := t.id }

/-- `copy_process`, with the page that `get_free_page` gives. -/
def copyProcess (s : State) (cur : Nat) (nr : Fin 64) (page : Option Nat) (copied : Bool) :
    Outcome State :=
  match page with
  | none => .next (setProc s cur { s.proc cur with eax := -EAGAIN })
  | some p =>
      if s.used p then .disabled
      else if copied then
        let s' := setProc s cur { s.proc cur with eax := s.lastPid }
        .next { s' with
          slot := Function.update s.slot nr (some p)
          proc := Function.update s'.proc p (child s (s.proc cur))
          used := Function.update s.used p true
          nextId := s.nextId + 1 }
      else
        -- `task[nr]` is `NULL` again and the page is free
        .next (setProc (setProc s p (child s (s.proc cur))) cur
          { s.proc cur with eax := -EAGAIN })

/-- `sys_fork`. -/
def sysFork (s : State) (cur : Nat) (page : Option Nat) (copied : Bool) : Outcome State :=
  match findPid s s.lastPid 65 with
  | none => .disabled
  | some pid =>
      let s := { s with lastPid := pid }
      match findSlot s with
      | none => .next (setProc s cur { s.proc cur with eax := -EAGAIN })
      | some nr => copyProcess s cur nr page copied

/-! ### `exit` -/

/-- The body of the loop over the children in `do_exit`. -/
def orphan (pid : Int) (s : State) (i : Fin 64) : State :=
  match s.slot i with
  | none => s
  | some p =>
      if (s.proc p).father = pid then
        let s := setProc s p { s.proc p with father := 1 }
        if (s.proc p).state = .zombie then
          match s.slot 1 with
          | some q => raise s q (sigBit SIGCHLD)
          | none => s
        else s
      else s

/-- `do_exit` up to the first place where it may sleep. -/
def doExit (s : State) (cur : Nat) (code : Int) : State :=
  let s := (List.finRange 64).foldl (orphan (s.proc cur).pid) s
  { setProc s cur { s.proc cur with pc := .exiting code } with
    left := (s.proc cur).id :: s.left }

/-- `kill_session`. -/
def killSession (s : State) (session : Int) : State :=
  (List.finRange 64).foldl (fun s i =>
    match s.slot i with
    | some p => if i ≠ 0 ∧ (s.proc p).session = session then raise s p (sigBit SIGHUP) else s
    | none => s) s

/-- `release`, up to its `schedule`. -/
def release (s : State) (p : Nat) : Outcome State :=
  match (List.finRange 64).find? fun i => i ≠ 0 && s.slot i = some p with
  | none => .panic "trying to release non-existent task"
  | some i =>
      .next { s with
        slot := Function.update s.slot i none
        used := Function.update s.used p false }

/-- `tell_father`. -/
def tellFather (s : State) (cur : Nat) (pid : Int) : Outcome State :=
  let father := (List.finRange 64).findSome? fun i =>
    match s.slot i with
    | some p => if (s.proc p).pid = pid then some p else none
    | none => none
  match if pid = 0 then none else father with
  | some p => .next (raise s p (sigBit SIGCHLD))
  | none => release { s with badFather := true } cur

/-- The end of `do_exit`. -/
def finishExit (s : State) (cur : Nat) (code : Int) : Outcome State :=
  let s := if (s.proc cur).leader then killSession s (s.proc cur).session else s
  let s := setProc s cur { s.proc cur with state := .zombie, exitCode := code }
  let s := { s with exits := s.exits ++ [((s.proc cur).id, code)] }
  tellFather s cur (s.proc cur).father

/-! ### `waitpid` -/

/-- Whether `waitpid(pid)` of `t` is for the child `c`. -/
def wanted (pid : Int) (t c : Task) : Bool :=
  if 0 < pid then c.pid = pid
  else if pid = 0 then c.pgrp = t.pgrp
  else pid = -1 || c.pgrp = -pid

inductive Found
  | stopped (p : Nat)
  | zombie (p : Nat)
  | nothing (flag : Bool)

/-- The loop of `sys_waitpid`. -/
def scan (s : State) (cur : Nat) (pid : Int) (options : BitVec 32) :
    List (Fin 64) → Bool → Found
  | [], flag => .nothing flag
  | i :: is, flag =>
      match s.slot i with
      | none => scan s cur pid options is flag
      | some p =>
          if p = cur ∨ (s.proc p).father ≠ (s.proc cur).pid ∨
              wanted pid (s.proc cur) (s.proc p) = false then
            scan s cur pid options is flag
          else
            match (s.proc p).state with
            | .stopped =>
                if options &&& WUNTRACED = 0 then scan s cur pid options is flag else .stopped p
            | .zombie => .zombie p
            | _ => scan s cur pid options is true

/-- Slots `LAST_TASK` down to the one behind `FIRST_TASK`. -/
def scanned : List (Fin 64) := (List.finRange 64).reverse.filter (· ≠ 0)

/-- `sys_waitpid`, from `repeat` on. -/
def sysWaitpid (s : State) (cur : Nat) (pid : Int) (options : BitVec 32) : Outcome State :=
  let t := s.proc cur
  match scan s cur pid options scanned false with
  | .stopped p => .next (setProc s cur { t with eax := (s.proc p).pid, pc := .user })
  | .zombie p =>
      let c := s.proc p
      let s := setProc s cur
        { t with
          cutime := t.cutime + c.utime, cstime := t.cstime + c.stime
          pc := .released c.pid c.exitCode c.id }
      let r : Reap := {
        father := t.id, child := c.id, parent := c.parent, pid := c.pid, code := c.exitCode
        utime := c.utime, stime := c.stime }
      release { s with reaps := r :: s.reaps } p
  | .nothing flag =>
      if flag then
        if options &&& WNOHANG ≠ 0 then .next (setProc s cur { t with eax := 0, pc := .user })
        else .next (setProc s cur { t with state := .interruptible, pc := .waiting pid options })
      else .next (setProc s cur { t with eax := -ECHILD, pc := .user })

/-- `sys_waitpid` behind its `schedule`. -/
def wake (s : State) (cur : Nat) (pid : Int) (options : BitVec 32) : Outcome State :=
  let t := { s.proc cur with signal := (s.proc cur).signal &&& ~~~sigBit SIGCHLD }
  if t.signal = 0 then sysWaitpid (setProc s cur t) cur pid options
  else .next (setProc s cur { t with eax := -EINTR, pc := .user })

/-- The end of `sys_waitpid` for a zombie. -/
def returnPid (s : State) (cur : Nat) (flag code : Int) (child : Nat) : State :=
  let t := s.proc cur
  { setProc s cur { t with eax := flag, pc := .user } with
    returned :=
      { father := t.id, child := child, value := flag, status := code } :: s.returned }

/-! ### `kill` -/

/-- `send_sig`. -/
def sendSig (s : State) (cur : Nat) (sig : Int) (p : Nat) (priv : Bool) : State × Int :=
  if sig < 1 ∨ 32 < sig then (s, -EINVAL)
  else if priv ∨ (s.proc cur).euid = (s.proc p).euid ∨ (s.proc cur).euid = 0 then
    (raise s p (sigBit sig.toNat), 0)
  else (s, -EPERM)

/-- The loops of `sys_kill` over the tasks that satisfy `sel`. -/
def killAll (cur : Nat) (sig : Int) (priv : Bool) (sel : Task → Bool) (s : State) (retval : Int)
    (is : List (Fin 64)) : State × Int :=
  is.foldl (fun r i =>
    match r.1.slot i with
    | some p =>
        if sel (r.1.proc p) then
          let r' := sendSig r.1 cur sig p priv
          (r'.1, if r'.2 ≠ 0 then r'.2 else r.2)
        else r
    | none => r) (s, retval)

/-- The loop for `pid == -1`: the first success ends it, and the `else` is a
loop over the rest. A free slot is `-EINVAL`. -/
def killEach (cur : Nat) (sig : Int) (s : State) (retval : Int) : List (Fin 64) → State × Int
  | [] => (s, retval)
  | i :: is =>
      match s.slot i with
      | none => killEach cur sig s (-EINVAL) is
      | some p =>
          let r := sendSig s cur sig p false
          if r.2 ≠ 0 then killEach cur sig r.1 r.2 is
          else killAll cur sig false (fun t => t.pgrp = 1) r.1 retval is

/-- `sys_kill`. -/
def sysKill (s : State) (cur : Nat) (pid sig : Int) : State :=
  let r :=
    if pid = 0 then
      killAll cur sig true (fun t => t.pgrp = (s.proc cur).pid) s 0 scanned
    else if 0 < pid then killAll cur sig false (fun t => t.pid = pid) s 0 scanned
    else if pid = -1 then killEach cur sig s 0 scanned
    else (s, 0)
  setProc r.1 cur { r.1.proc cur with eax := r.2 }

/-! ### The system -/

inductive Op
  | fork (i : Fin 64) (page : Option Nat) (copied : Bool)
  /-- `sys_exit`, or a fatal signal. -/
  | exit (i : Fin 64) (code : Int)
  | finishExit (i : Fin 64)
  | waitpid (i : Fin 64) (pid : Int) (options : BitVec 32)
  | wake (i : Fin 64)
  | returnPid (i : Fin 64)
  | kill (i : Fin 64) (pid sig : Int)
  | pause (i : Fin 64)
  /-- A signal is taken out of `signal` and handled or ignored. -/
  | handle (i : Fin 64) (sig : Nat)
  /-- `sys_setpgid` of any task for task `i`. -/
  | setpgid (i : Fin 64) (pgrp : Int)
  | setsid (i : Fin 64)
  /-- The first loop of `schedule`. -/
  | schedule
  /-- A tick, in user or in kernel mode. -/
  | tick (i : Fin 64) (cpl : Bool)

/-- The tasks after the first loop of `schedule`. -/
def scheduled (s : State) (p : Nat) : Task :=
  if (List.finRange 64).any fun i => i ≠ 0 && s.slot i = some p then
    { s.proc p with toTaskStruct := checkSignals s.jiffies (s.proc p).toTaskStruct }
  else s.proc p

/-- The task in slot `i`, if it may run. -/
def ready (s : State) (i : Fin 64) : Option (Nat × Task) :=
  match s.slot i with
  | some p => if i ≠ 0 ∧ (s.proc p).state = .running then some (p, s.proc p) else none
  | none => none

/-- A system call of task `i`. -/
def call (s : State) (i : Fin 64) (f : Nat → Task → Outcome State) : Outcome State :=
  match ready s i with
  | some (p, t) => if t.pc = .user then f p t else .disabled
  | none => .disabled

def step (s : State) : Op → Outcome State
  | .fork i page copied => call s i fun p _ => sysFork s p page copied
  | .exit i code => if i = 1 then .disabled else call s i fun p _ => .next (doExit s p code)
  | .finishExit i =>
      match ready s i with
      | some (p, t) =>
          match t.pc with
          | .exiting code => finishExit s p code
          | _ => .disabled
      | none => .disabled
  | .waitpid i pid options => call s i fun p _ => sysWaitpid s p pid options
  | .wake i =>
      match ready s i with
      | some (p, t) =>
          match t.pc with
          | .waiting pid options => wake s p pid options
          | _ => .disabled
      | none => .disabled
  | .returnPid i =>
      match ready s i with
      | some (p, t) =>
          match t.pc with
          | .released flag code child => .next (returnPid s p flag code child)
          | _ => .disabled
      | none => .disabled
  | .kill i pid sig => call s i fun p _ => .next (sysKill s p pid sig)
  | .pause i => call s i fun p t => .next (setProc s p { t with state := .interruptible })
  | .handle i sig =>
      call s i fun p t => .next (setProc s p { t with signal := t.signal &&& ~~~sigBit sig })
  | .setpgid i pgrp =>
      match s.slot i with
      | some p => .next (setProc s p { s.proc p with pgrp := pgrp })
      | none => .disabled
  | .setsid i =>
      call s i fun p t =>
        .next (setProc s p { t with leader := true, session := t.pid, pgrp := t.pid })
  | .schedule => .next { s with proc := scheduled s }
  | .tick i cpl =>
      match s.slot i with
      | some p =>
          let t := s.proc p
          let t := if cpl then { t with utime := t.utime + 1 } else { t with stime := t.stime + 1 }
          .next { setProc s p t with jiffies := s.jiffies + 1 }
      | none => .disabled

/-! ### What is claimed -/

/-- The return that a release leads to. -/
def Reap.ret (r : Reap) : Return where
  father := r.father
  child := r.child
  value := r.pid
  status := r.code

/-- What the children that `id` has waited for have used. -/
def waitedFor (s : State) (id : Nat) (time : Reap → Int) : Int :=
  ((s.reaps.filter fun r => r.father = id).map time).sum

/-- Every exit status is delivered once, to the right father.
- Who has exited is a zombie in its slot, with its code, until it is released; and only
  then its slot and its page are free.
- The father who releases it is the parent, or task 1 if the parent exited first.
- A release is followed by a return of `sys_waitpid` with the pid and the code, and
  `sys_waitpid` returns so in no other case. -/
structure Delivered (s : State) : Prop where
  zombie : ∀ e ∈ s.exits,
    (∃ i p, s.slot i = some p ∧ (s.proc p).id = e.1 ∧ (s.proc p).state = .zombie ∧
      (s.proc p).exitCode = e.2) ∨
    ∃ r ∈ s.reaps, r.child = e.1 ∧ r.code = e.2
  reaped : ∀ r ∈ s.reaps, (r.child, r.code) ∈ s.exits ∧
    ∀ i p, s.slot i = some p → (s.proc p).id ≠ r.child
  once : (s.reaps.map Reap.child).Nodup
  kept : ∀ id, id < s.nextId →
    (∃ i p, s.slot i = some p ∧ (s.proc p).id = id) ∨ ∃ r ∈ s.reaps, r.child = id
  pages : ∀ p, s.used p = true ↔ ∃ i, s.slot i = some p
  father : ∀ r ∈ s.reaps, r.father = r.parent ∨ r.father = 1 ∧ r.parent ∈ s.left
  returns : ∀ r ∈ s.reaps,
    r.ret ∈ s.returned ∨ ∃ i p, s.slot i = some p ∧ (s.proc p).id = r.father ∧
      (s.proc p).pc = .released r.pid r.code r.child
  returned : ∀ q ∈ s.returned, ∃ r ∈ s.reaps, q = r.ret
  returnedOnce : (s.returned.map Return.child).Nodup
  times : ∀ i p, s.slot i = some p →
    (s.proc p).cutime = waitedFor s (s.proc p).id Reap.utime ∧
    (s.proc p).cstime = waitedFor s (s.proc p).id Reap.stime
  hasFather : s.badFather = false

/-- Task 0 has made task 1, and idles. -/
def bootTask (pid father : Int) (id : Nat) : Task where
  state := .running
  signal := 0
  blocked := 0
  alarm := 0
  pid := pid
  father := father
  pgrp := 0
  session := 0
  leader := false
  euid := 0
  exitCode := 0
  utime := 0
  stime := 0
  cutime := 0
  cstime := 0
  eax := 0
  pc := .user
  id := id
  parent := 0

def initial : State where
  slot := fun i => if i = 0 then some 0 else if i = 1 then some 1 else none
  proc := fun p => if p = 0 then bootTask 0 (-1) 0 else bootTask 1 0 1
  used := fun p => p = 0 || p = 1
  lastPid := 1
  jiffies := 0
  nextId := 2
  left := []
  exits := []
  reaps := []
  returned := []
  badFather := false

end LinuxKernel.V011.Exit
