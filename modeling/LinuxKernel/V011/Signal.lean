import Mathlib.Data.Fin.Tuple.Basic
import LinuxKernel.V011.WaitQueue

/-!
# LinuxKernel.V011.Signal

**Signal masks and signal delivery**: `kernel/signal.c`, and the selection of a
signal at `ret_from_sys_call` in `kernel/system_call.s`.

- Whatever comes from user memory is arbitrary: the four words of a
  `struct sigaction`, and the mask that `masksig_restore` passes to `ssetmask`
  when a handler returns.
- A system call is made by `current`; signals come to any task at any time.
- `do_signal` gives the words it stores on the user's stack as a list, from
  the new `esp` on.
-/

namespace LinuxKernel.V011.Signal

open WaitQueue (TaskState TaskStruct sigBit SIGKILL checkSignals expireAlarm blockable)

/-! ### The data model -/

/-- `struct sigaction`. -/
structure SigAction where
  saHandler : BitVec 32
  saMask : BitVec 32
  saFlags : BitVec 32
  saRestorer : BitVec 32
  deriving DecidableEq

def SA_NOMASK : BitVec 32 := 0x40000000
def SA_ONESHOT : BitVec 32 := 0x80000000
def SIGCHLD : Nat := 17

structure Task extends TaskStruct where
  sigaction : Fin 32 → SigAction
  exitCode : BitVec 32

/-- The registers that `system_call` has pushed, as far as `do_signal` and
`ret_from_sys_call` look at them. -/
structure Regs where
  eax : BitVec 32
  ecx : BitVec 32
  edx : BitVec 32
  eip : BitVec 32
  cs : BitVec 32
  eflags : BitVec 32
  esp : BitVec 32
  ss : BitVec 32

structure State where
  task : Nat → Task
  current : Nat
  jiffies : Nat

def State.setTask (s : State) (t : Nat) (p : Task) : State :=
  { s with task := Function.update s.task t p }

@[simp] theorem State.setTask_self (s : State) (t : Nat) (p : Task) :
    (s.setTask t p).task t = p := Function.update_self ..

theorem State.setTask_of_ne (s : State) {t u : Nat} (p : Task) (h : u ≠ t) :
    (s.setTask t p).task u = s.task u := Function.update_of_ne h ..

/-! ### The system calls -/

/-- `sys_ssetmask`. -/
def sysSsetmask (p : Task) (newmask : BitVec 32) : Task :=
  { p with blocked := newmask &&& ~~~sigBit SIGKILL }

/-- The entry of `sigaction` for a signal number that the calls accept. -/
def sigIndex (signum : Int) : Option (Fin 32) :=
  if h : ¬(signum < 1 ∨ signum > 32 ∨ signum = SIGKILL) then some ⟨(signum - 1).toNat, by omega⟩
  else none

/-- `sys_signal`, with the old handler. -/
def sysSignal (p : Task) (signum : Int) (handler restorer : BitVec 32) : Task × BitVec 32 :=
  match sigIndex signum with
  | none => (p, -1)
  | some i =>
      let tmp : SigAction :=
        { saHandler := handler, saMask := 0, saFlags := SA_ONESHOT ||| SA_NOMASK,
          saRestorer := restorer }
      ({ p with sigaction := Function.update p.sigaction i tmp }, (p.sigaction i).saHandler)

/-- `sys_sigaction`, with what `save_old` stores. -/
def sysSigaction (p : Task) (signum : Int) (action : SigAction) : Task × Option SigAction :=
  match sigIndex signum with
  | none => (p, none)
  | some i =>
      let saMask :=
        if action.saFlags &&& SA_NOMASK ≠ 0 then 0 else action.saMask ||| (1#32 <<< i.val)
      ({ p with sigaction := Function.update p.sigaction i { action with saMask := saMask } },
        some (p.sigaction i))

/-! ### Delivery -/

/-- `bsfl`: the lowest bit that is set. -/
def bsf (w : BitVec 32) : Option (Fin 32) := Fin.find? fun i => w.getLsbD i.val

/-- The signal that `ret_from_sys_call` takes. -/
def select (p : TaskStruct) : Option (Fin 32) := bsf (~~~p.blocked &&& p.signal)

/-- `do_exit`, as far as the task itself is concerned. -/
def doExit (p : Task) (code : BitVec 32) : Task := { p with state := .zombie, exitCode := code }

/-- The end of `do_signal`, for a signal with a handler. -/
def enterHandler (p : Task) (i : Fin 32) (r : Regs) : Task × Regs × List (BitVec 32) :=
  let sa := p.sigaction i
  let nomask : Bool := sa.saFlags &&& SA_NOMASK ≠ 0
  let sa' := if sa.saFlags &&& SA_ONESHOT ≠ 0 then { sa with saHandler := 0 } else sa
  let longs : BitVec 32 := if nomask then 7 else 8
  ({ p with
      sigaction := Function.update p.sigaction i sa'
      blocked := p.blocked ||| sa.saMask },
    { r with eip := sa.saHandler, esp := r.esp - 4 * longs },
    [sa.saRestorer, BitVec.ofNat 32 (i.val + 1)] ++ (if nomask then [] else [p.blocked]) ++
      [r.eax, r.ecx, r.edx, r.eflags, r.eip])

/-- `do_signal`, for the signal number `i + 1`. -/
def doSignal (p : Task) (i : Fin 32) (r : Regs) : Task × Regs × List (BitVec 32) :=
  if (p.sigaction i).saHandler = 1 then (p, r, [])
  else if (p.sigaction i).saHandler = 0 then
    if i.val + 1 = SIGCHLD then (p, r, []) else (doExit p (1#32 <<< i.val), r, [])
  else enterHandler p i r

/-- The system call was made in user mode. -/
def fromUser (r : Regs) : Bool := r.cs.setWidth 16 == 0x0f#16 && r.ss.setWidth 16 == 0x17#16

/-- `ret_from_sys_call`. -/
def retFromSysCall (s : State) (r : Regs) : State × Regs × List (BitVec 32) :=
  let p := s.task s.current
  if s.current = 0 ∨ fromUser r = false then (s, r, [])
  else
    match select p.toTaskStruct with
    | none => (s, r, [])
    | some i =>
        let (p', r', frame) :=
          doSignal { p with signal := p.signal &&& ~~~(1#32 <<< i.val) } i r
        (s.setTask s.current p', r', frame)

/-! ### The system -/

inductive Op
  | ssetmask (newmask : BitVec 32)
  | signal (signum : Int) (handler restorer : BitVec 32)
  | sigaction (signum : Int) (action : SigAction)
  | retFromSysCall (r : Regs)
  /-- A handler returns, with `masksig_restore` or with `sig_restore`. -/
  | handlerReturn (mask : Option (BitVec 32))
  /-- `send_sig` and the other places that set bits of `signal`. -/
  | send (t : Nat) (bits : BitVec 32)
  | fork (t : Nat)
  | execve
  | pause
  /-- `schedule`, which goes on with task `next`. -/
  | schedule (next : Nat)
  | tick

/-- The task that `copy_process` makes. -/
def copyProcess (p : Task) : Task := { p with state := .uninterruptible, signal := 0, alarm := 0 }

/-- `do_execve`: the handlers are gone, the masks stay. -/
def clearHandlers (p : Task) : Task :=
  { p with sigaction := fun i => { p.sigaction i with saHandler := 0 } }

/-- The first loop of `schedule`. -/
def checkAll (s : State) : State :=
  { s with task := fun t =>
      if t = 0 then s.task t
      else { s.task t with toTaskStruct := checkSignals s.jiffies (s.task t).toTaskStruct } }

def step (s : State) (op : Op) : Outcome State :=
  let p := s.task s.current
  match op with
  | .ssetmask newmask => .next (s.setTask s.current (sysSsetmask p newmask))
  | .signal signum handler restorer =>
      .next (s.setTask s.current (sysSignal p signum handler restorer).1)
  | .sigaction signum action => .next (s.setTask s.current (sysSigaction p signum action).1)
  | .retFromSysCall r => .next (retFromSysCall s r).1
  | .handlerReturn none => .next s
  | .handlerReturn (some mask) => .next (s.setTask s.current (sysSsetmask p mask))
  | .send t bits =>
      .next (s.setTask t { s.task t with signal := (s.task t).signal ||| bits })
  | .fork t => .next (s.setTask t (copyProcess p))
  | .execve => .next (s.setTask s.current (clearHandlers p))
  | .pause => .next (s.setTask s.current { p with state := .interruptible })
  | .schedule next => .next { checkAll s with current := next }
  | .tick => .next { s with jiffies := s.jiffies + 1 }

/-- `INIT_TASK`. -/
def initTask : Task where
  state := .running
  signal := 0
  blocked := 0
  alarm := 0
  sigaction := fun _ => { saHandler := 0, saMask := 0, saFlags := 0, saRestorer := 0 }
  exitCode := 0

def initial : State where
  task := fun _ => initTask
  current := 0
  jiffies := 0

/-! ### What is claimed -/

/-- Signal `i + 1` is pending and not blocked. -/
def Deliverable (p : TaskStruct) (i : Fin 32) : Prop :=
  p.signal.getLsbD i = true ∧ p.blocked.getLsbD i = false

/-- `SIGKILL`, as a bit number. -/
def killBit : Fin 32 := ⟨SIGKILL - 1, by decide⟩

/-- No task can keep `SIGKILL` off. The mask does not have its bit; therefore
`ret_from_sys_call` takes a pending `SIGKILL` unless one with a smaller number
is deliverable too, and `schedule` ends an interruptible sleep for it. -/
structure Killable (s : State) : Prop where
  unblocked : ∀ t, (s.task t).blocked.getLsbD killBit = false
  selected : ∀ t, (s.task t).signal.getLsbD killBit = true →
    (∃ i, select (s.task t).toTaskStruct = some i ∧ i ≤ killBit) ∧
    (select (s.task t).toTaskStruct = some killBit ↔
      ∀ i, i < killBit → ¬Deliverable (s.task t).toTaskStruct i)
  woken : ∀ t, t ≠ 0 → (s.task t).signal.getLsbD killBit = true →
    (s.task t).state = .interruptible → ((checkAll s).task t).state = .running

/-- A signal that is delivered to a handler does not block `SIGKILL`. -/
def MaskOk (s : State) : Op → Prop
  | .retFromSysCall r =>
      s.current ≠ 0 → fromUser r = true →
      ∀ i, select (s.task s.current).toTaskStruct = some i →
        ((s.task s.current).sigaction i).saHandler ≠ 0 →
        ((s.task s.current).sigaction i).saHandler ≠ 1 →
        ((s.task s.current).sigaction i).saMask.getLsbD killBit = false
  | _ => True

/-! ### Selection -/

theorem exists_bsf {w : BitVec 32} {i : Fin 32} (hi : w.getLsbD i = true) :
    ∃ j, bsf w = some j ∧ j ≤ i := by
  obtain ⟨j, hj⟩ := Option.isSome_iff_exists.mp
    (Fin.isSome_find?_of_eq_true (p := fun i : Fin 32 => w.getLsbD i.val) hi)
  refine ⟨j, hj, not_lt.mp fun hlt => ?_⟩
  have := Fin.eq_false_of_find?_eq_some_of_lt hj i hlt
  rw [hi] at this
  cases this

theorem deliverable_iff {p : TaskStruct} {i : Fin 32} :
    (~~~p.blocked &&& p.signal).getLsbD i = true ↔ Deliverable p i := by
  simp [Deliverable, and_comm]

variable {s s' : State} {p : Task} {op : Op}

/-- Without its bit in the mask a pending `SIGKILL` is taken. -/
theorem select_kill {p : TaskStruct} (hb : p.blocked.getLsbD killBit = false)
    (hs : p.signal.getLsbD killBit = true) :
    (∃ i, select p = some i ∧ i ≤ killBit) ∧
      (select p = some killBit ↔ ∀ i, i < killBit → ¬Deliverable p i) := by
  have hdel : (~~~p.blocked &&& p.signal).getLsbD killBit = true :=
    deliverable_iff.mpr ⟨hs, hb⟩
  refine ⟨exists_bsf hdel, ?_⟩
  rw [select, bsf, Fin.find?_eq_some_iff]
  constructor
  · intro h i hi hd
    have := h.2 i hi
    rw [deliverable_iff.mpr hd] at this
    cases this
  · intro h
    refine ⟨hdel, fun i hi => ?_⟩
    rw [← Bool.not_eq_true, deliverable_iff]
    exact h i hi

/-- `_BLOCKABLE` takes `SIGKILL` out of every mask. -/
theorem checkSignals_kill {p : TaskStruct} {jiffies : Nat}
    (hs : p.signal.getLsbD killBit = true) (hst : p.state = .interruptible) :
    (checkSignals jiffies p).state = .running := by
  have hbit : (expireAlarm jiffies p).signal.getLsbD killBit = true := by
    unfold expireAlarm
    split
    · simp [hs]
    · exact hs
  have hstate : (expireAlarm jiffies p).state = .interruptible := by
    unfold expireAlarm
    split <;> exact hst
  have hmask : blockable.getLsbD killBit = false := by decide
  have hne : (expireAlarm jiffies p).signal &&&
      ~~~(blockable &&& (expireAlarm jiffies p).blocked) ≠ 0 := fun h0 => by
    have := congrArg (fun w : BitVec 32 => w.getLsbD killBit) h0
    simp only [BitVec.getLsbD_and, BitVec.getLsbD_not, hbit, hmask] at this
    simp at this
  rw [checkSignals, if_pos ⟨hne, hstate⟩]

/-- `schedule` leaves the masks alone. -/
theorem checkAll_blocked (t : Nat) : ((checkAll s).task t).blocked = (s.task t).blocked := by
  simp only [checkAll]
  split
  · rfl
  · simp only [checkSignals, expireAlarm]
    split <;> split <;> rfl

/-! ### One step -/

/-- `SIGKILL` is in nobody's mask. -/
def Unblocked (s : State) : Prop := ∀ t, (s.task t).blocked.getLsbD killBit = false

theorem Unblocked.killable (h : Unblocked s) : Killable s where
  unblocked := h
  selected := fun t hs => select_kill (h t) hs
  woken := fun t ht hs hst => by
    simp only [checkAll, if_neg ht]
    exact checkSignals_kill hs hst

theorem killable_iff : Killable s ↔ Unblocked s := ⟨fun h => h.unblocked, fun h => h.killable⟩

theorem Unblocked.setTask_iff (h : Unblocked s) {t : Nat} :
    Unblocked (s.setTask t p) ↔ p.blocked.getLsbD killBit = false := by
  refine ⟨fun h' => ?_, fun hp u => ?_⟩
  · have := h' t
    rwa [State.setTask_self] at this
  · by_cases hu : u = t
    · subst hu
      rwa [State.setTask_self]
    · rw [State.setTask_of_ne s p hu]
      exact h u

theorem sysSsetmask_blocked (newmask : BitVec 32) :
    (sysSsetmask p newmask).blocked.getLsbD killBit = false := by
  have hbit : (sigBit SIGKILL).getLsbD killBit = true := by decide
  simp [sysSsetmask, hbit]

theorem sysSignal_blocked {signum : Int} {handler restorer : BitVec 32} :
    (sysSignal p signum handler restorer).1.blocked = p.blocked := by
  rw [sysSignal]
  split <;> rfl

theorem sysSigaction_blocked {signum : Int} {action : SigAction} :
    (sysSigaction p signum action).1.blocked = p.blocked := by
  rw [sysSigaction]
  split <;> rfl

/-- A handler is entered with its mask added, as the user gave it. -/
theorem doSignal_blocked {i : Fin 32} {r : Regs} (hp : p.blocked.getLsbD killBit = false) :
    (doSignal p i r).1.blocked.getLsbD killBit = false ↔
      ((p.sigaction i).saHandler ≠ 0 → (p.sigaction i).saHandler ≠ 1 →
        (p.sigaction i).saMask.getLsbD killBit = false) := by
  rw [doSignal]
  split
  · rename_i h1
    exact iff_of_true hp fun _ h => absurd h1 h
  · rename_i h1
    split
    · rename_i h0
      refine iff_of_true ?_ fun h => absurd h0 h
      split <;> exact hp
    · rename_i h0
      simp only [enterHandler, BitVec.getLsbD_or, hp, Bool.false_or]
      exact ⟨fun hm _ _ => hm, fun hm => hm h0 h1⟩

theorem retFromSysCall_unblocked {r : Regs} (h : Unblocked s) :
    Unblocked (retFromSysCall s r).1 ↔ MaskOk s (.retFromSysCall r) := by
  rw [retFromSysCall, MaskOk]
  by_cases hskip : s.current = 0 ∨ fromUser r = false
  · rw [if_pos hskip]
    refine iff_of_true h fun hc hu => ?_
    rcases hskip with h0 | hu'
    · exact absurd h0 hc
    · rw [hu] at hu'
      cases hu'
  · rw [if_neg hskip]
    obtain ⟨hc, hu⟩ : s.current ≠ 0 ∧ fromUser r = true := by simpa using hskip
    cases hsel : select (s.task s.current).toTaskStruct with
    | none => exact iff_of_true h fun _ _ i hi => by cases hi
    | some i =>
        let q : Task := { s.task s.current with
          signal := (s.task s.current).signal &&& ~~~(1#32 <<< i.val) }
        have hq : q.blocked.getLsbD killBit = false := h s.current
        change Unblocked (s.setTask s.current (doSignal q i r).1) ↔ _
        rw [h.setTask_iff, doSignal_blocked hq]
        refine ⟨fun hm _ _ j hj => ?_, fun hm => hm hc hu i rfl⟩
        obtain rfl := Option.some.inj hj
        exact hm

/-- Every step but the delivery of a signal keeps `SIGKILL` unblocked. -/
theorem step_unblocked (h : Unblocked s) (hs : step s op = .next s') :
    Unblocked s' ↔ MaskOk s op := by
  have hset {t : Nat} {p : Task} (hp : p.blocked.getLsbD killBit = false) :
      Unblocked (s.setTask t p) := h.setTask_iff.mpr hp
  have hcur : (s.task s.current).blocked.getLsbD killBit = false := h s.current
  cases op with
  | retFromSysCall r =>
      obtain rfl := Outcome.next.inj hs
      exact retFromSysCall_unblocked h
  | ssetmask newmask =>
      obtain rfl := Outcome.next.inj hs
      exact iff_of_true (hset (sysSsetmask_blocked newmask)) True.intro
  | signal signum handler restorer =>
      obtain rfl := Outcome.next.inj hs
      refine iff_of_true (hset ?_) True.intro
      rw [sysSignal_blocked]
      exact hcur
  | sigaction signum action =>
      obtain rfl := Outcome.next.inj hs
      refine iff_of_true (hset ?_) True.intro
      rw [sysSigaction_blocked]
      exact hcur
  | handlerReturn mask =>
      cases mask with
      | none =>
          obtain rfl := Outcome.next.inj hs
          exact iff_of_true h True.intro
      | some mask =>
          obtain rfl := Outcome.next.inj hs
          exact iff_of_true (hset (sysSsetmask_blocked mask)) True.intro
  | send t bits =>
      obtain rfl := Outcome.next.inj hs
      exact iff_of_true (hset (h t)) True.intro
  | fork t =>
      obtain rfl := Outcome.next.inj hs
      exact iff_of_true (hset hcur) True.intro
  | execve =>
      obtain rfl := Outcome.next.inj hs
      exact iff_of_true (hset hcur) True.intro
  | pause =>
      obtain rfl := Outcome.next.inj hs
      exact iff_of_true (hset hcur) True.intro
  | schedule next =>
      obtain rfl := Outcome.next.inj hs
      refine iff_of_true (fun t => ?_) True.intro
      change ((checkAll s).task t).blocked.getLsbD killBit = false
      rw [checkAll_blocked]
      exact h t
  | tick =>
      obtain rfl := Outcome.next.inj hs
      exact iff_of_true h True.intro

/-! ### Runs -/

theorem initial_unblocked : Unblocked initial := fun t => by
  change initTask.blocked.getLsbD killBit = false
  decide

/-- **`SIGKILL` stays deliverable exactly in the runs in which no signal is
delivered to a handler whose mask has its bit.** -/
theorem killable_iff_maskOk {ops : List Op} (hrun : run step initial ops = .next s) :
    (∀ ops', ops' <+: ops → ∀ s', run step initial ops' = .next s' → Killable s') ↔
      RunOk step MaskOk initial ops := by
  simp only [killable_iff]
  exact RunOk.iff_prefixes (fun _ _ _ h hs => step_unblocked h hs) initial_unblocked hrun

/-- A return to user mode. -/
def userRegs : Regs where
  eax := 0
  ecx := 0
  edx := 0
  eip := 0x100
  cs := 0x0f
  eflags := 0x202
  esp := 0x3fffff0
  ss := 0x17

/-- Task 1 installs a handler for `SIGHUP` with the given mask, and gets the signal. -/
def hangupRun (saMask : BitVec 32) : List Op :=
  [.schedule 1,
    .sigaction 1 { saHandler := 0x1000, saMask := saMask, saFlags := 0, saRestorer := 0x2000 },
    .send 1 (sigBit 1), .retFromSysCall userRegs]

theorem killable_iff_maskOk_hangupRun :
    (∀ ops', ops' <+: hangupRun 0 → ∀ s', run step initial ops' = .next s' → Killable s') ↔
      RunOk step MaskOk initial (hangupRun 0) :=
  killable_iff_maskOk (s := (run step initial (hangupRun 0)).get initial)
    (Outcome.eq_next (by decide) initial)

/-- `sys_sigaction` takes a mask with the bit of `SIGKILL`, and `do_signal` sets it. -/
theorem not_killable :
    ¬∀ (ops : List Op) (s : State), run step initial ops = .next s → Killable s := by
  intro hall
  have hrun : run step initial (hangupRun (sigBit SIGKILL)) =
      .next ((run step initial (hangupRun (sigBit SIGKILL))).get initial) :=
    Outcome.eq_next (by decide) initial
  have hset : (((run step initial (hangupRun (sigBit SIGKILL))).get initial).task 1).blocked.getLsbD
      killBit = true := by decide
  have hclear := (hall _ _ hrun).unblocked 1
  rw [hset] at hclear
  cases hclear

end LinuxKernel.V011.Signal
