import LinuxKernel.V011.Tty

/-!
# LinuxKernel.V011.TtyAlarm

**The alarm of a task that reads from a terminal**: `tty_read` (`chr_drv/tty_io.c`), with
`schedule` and `sys_alarm` (`sched.c`).

- `tty_read` uses `current->alarm` for `VTIME`, and puts the caller's alarm back at the end.
- Ticks, characters and signals come between any two steps, and so do `ioctl` and the reads of
  other tasks: they may change the whole terminal.
- `schedule` runs when the task is not in the kernel, or asleep there: in `sleep_if_empty`, and
  in `put_fs_byte` when it faults.
- `borrowed`, `due`, `raised`, `spurious` and `wrong` are there for statements only.
-/

namespace LinuxKernel.V011.TtyAlarm

open LinuxKernel.V011.Tty (TtyStruct Termios VTIME VMIN VEOF ICANON ALRMMASK EINTR mustWait)

/-! ### The data model -/

def HZ : Int := 100

inductive Pc
  /-- Before `flag=(!oldalarm || time+jiffies<oldalarm)`, at first. -/
  | compare
  /-- Before `current->alarm = time+jiffies`, at first. -/
  | arm
  | head
  /-- In `sleep_if_empty`. -/
  | asleep
  /-- At the head of the inner loop. -/
  | take
  /-- In `put_fs_byte(c,b++)`. -/
  | copying (c : BitVec 8)
  /-- Behind the inner loop. -/
  | behind
  /-- Before `current->alarm = time+jiffies` there. -/
  | rearm
  /-- At the tests that end the loop. -/
  | enough
  /-- Before `current->alarm = oldalarm`, at the end. -/
  | leave
  deriving DecidableEq

/-- The variables of `tty_read`, with what has been stored at `buf`. -/
structure Call where
  nr : Nat
  buf : List (BitVec 8)
  minimum : Int
  time : Int
  flag : Bool
  oldalarm : Int
  pc : Pc

structure State where
  tty : TtyStruct
  signal : BitVec 32
  alarm : Int
  jiffies : Int
  call : Option Call
  /-- What the last call of `tty_read` has returned. -/
  value : Int
  /-- `alarm` has been set for `VTIME`. -/
  borrowed : Bool
  /-- The alarm that the caller has set, up to the first `schedule` behind it. -/
  due : Int
  /-- There is a SIGALRM for it. -/
  raised : Bool
  /-- There is a SIGALRM for `VTIME`. -/
  spurious : Bool
  /-- A `schedule` has raised SIGALRM for the caller's alarm when it should not have, or has not
  when it should have. -/
  wrong : Bool

def alarmed (s : State) : Bool := s.signal &&& ALRMMASK ≠ 0

/-! ### `tty_read` -/

def setCall (s : State) (x : Call) : State := { s with call := some x }

/-- `tty_read` up to its first look at `jiffies`, or to its loop. -/
def ttyRead (s : State) (nr : Int) : State :=
  if nr < 0 then { s with value := -1 }
  else
    let time : Int := 10 * (s.tty.termios.cCc VTIME).toNat
    let vmin : Int := (s.tty.termios.cCc VMIN).toNat
    let timed : Bool := time ≠ 0 && vmin = 0
    let minimum := if timed then 1 else vmin
    setCall s
      { nr := nr.toNat, buf := [], minimum := min minimum nr, time := time, flag := false
        oldalarm := s.alarm, pc := if timed then .compare else .head }

/-- `!oldalarm || time+jiffies<oldalarm`. -/
def sooner (s : State) (x : Call) : Bool := x.oldalarm = 0 || x.time + s.jiffies < x.oldalarm

def setAlarm (s : State) (alarm : Int) (borrowed : Bool) : State :=
  { s with alarm := alarm, borrowed := borrowed }

/-- `current->signal &= ~ALRMMASK`. -/
def clearAlarm (s : State) : State :=
  { s with signal := s.signal &&& ~~~ALRMMASK, spurious := false }

/-- The head of the loop, with `sleep_if_empty` up to its sleep. -/
def headOfLoop (s : State) (x : Call) : State :=
  if x.nr = 0 then setCall s { x with pc := .leave }
  else if x.flag && alarmed s then setCall (clearAlarm s) { x with pc := .leave }
  else if s.signal ≠ 0 then setCall s { x with pc := .leave }
  else if mustWait s.tty then
    setCall s { x with pc := if s.tty.secondary.isEmpty then .asleep else .head }
  else setCall s { x with pc := .take }

/-- It is the end of the file that is taken. -/
def endOfFile (s : State) : Bool :=
  s.tty.termios.isCc VEOF s.tty.secondary.first && s.tty.termios.lFlag ICANON

def getch (s : State) : State :=
  let data := if s.tty.termios.lineEnd s.tty.secondary.first then s.tty.data - 1 else s.tty.data
  { s with tty := { s.tty with secondary := s.tty.secondary.get, data := data } }

def take (s : State) (x : Call) : State :=
  if endOfFile s then { getch s with call := none, value := x.buf.length }
  else setCall (getch s) { x with pc := .copying s.tty.secondary.first }

/-- Behind the inner loop, the alarm is set for the next character. -/
def behindLoop (s : State) (x : Call) : State :=
  if x.time ≠ 0 && !s.tty.termios.lFlag ICANON then
    if sooner s x then setCall s { x with flag := true, pc := .rearm }
    else setCall (setAlarm s x.oldalarm false) { x with flag := false, pc := .enough }
  else setCall s { x with pc := .enough }

def enough (s : State) (x : Call) : Bool :=
  if s.tty.termios.lFlag ICANON then !x.buf.isEmpty else x.minimum ≤ x.buf.length

/-- The end of the function. -/
def leave (s : State) (x : Call) : State :=
  { setAlarm s x.oldalarm false with
    call := none
    value := if s.signal ≠ 0 && x.buf.isEmpty then -EINTR else x.buf.length }

/-- The next step of a call. -/
def goOn (s : State) (x : Call) : State :=
  match x.pc with
  | .compare => setCall s { x with flag := sooner s x, pc := if sooner s x then .arm else .head }
  | .arm => setCall (setAlarm s (x.time + s.jiffies) true) { x with pc := .head }
  | .head => headOfLoop s x
  | .asleep =>
      if s.signal = 0 && s.tty.secondary.isEmpty then s else setCall s { x with pc := .head }
  | .take => take s x
  | .copying c =>
      setCall s
        { x with
          nr := x.nr - 1, buf := x.buf ++ [c]
          pc := if x.nr - 1 = 0 || s.tty.secondary.isEmpty then .behind else .take }
  | .behind => behindLoop s x
  | .rearm => setCall (setAlarm s (x.time + s.jiffies) true) { x with pc := .enough }
  | .enough => setCall s { x with pc := if enough s x then .leave else .head }
  | .leave => leave s x

/-! ### The system -/

def expired (alarm jiffies : Int) : Bool := alarm ≠ 0 && alarm < jiffies

/-- The first loop of `schedule`, for the task. -/
def schedule (s : State) : State :=
  let fires := expired s.alarm s.jiffies
  let now := expired s.due s.jiffies
  { s with
    signal := if fires then s.signal ||| ALRMMASK else s.signal
    alarm := if fires then 0 else s.alarm
    due := if now then 0 else s.due
    raised := s.raised || fires && !s.borrowed
    spurious := s.spurious || fires && s.borrowed
    wrong := s.wrong || (fires && !s.borrowed) != now }

/-- `sys_alarm`. -/
def sysAlarm (s : State) (seconds : Int) : State :=
  let alarm := if seconds > 0 then s.jiffies + HZ * seconds else 0
  { setAlarm s alarm false with due := alarm }

/-- Signals are handled. -/
def handle (s : State) (mask : BitVec 32) : State :=
  { s with
    signal := s.signal &&& ~~~mask
    raised := s.raised && mask &&& ALRMMASK = 0
    spurious := s.spurious && mask &&& ALRMMASK = 0 }

inductive Action
  | tick
  /-- The queues and the `termios` change. -/
  | terminal (t : TtyStruct)
  /-- A signal is sent. -/
  | send (mask : BitVec 32)
  | schedule
  | alarm (seconds : Int)
  | handle (mask : BitVec 32)
  | ttyRead (nr : Int)
  | goOn

/-- The task is asleep, or not in `tty_read`. -/
def mayYield (s : State) : Bool :=
  s.call.all fun x =>
    match x.pc with
    | .asleep => true
    | .copying _ => true
    | _ => false

def step (s : State) : Action → Outcome State
  | .tick => .next { s with jiffies := s.jiffies + 1 }
  | .terminal t => .next { s with tty := t }
  | .send mask => .next { s with signal := s.signal ||| mask }
  | .schedule => if mayYield s then .next (schedule s) else .disabled
  | .alarm seconds => if s.call.isNone then .next (sysAlarm s seconds) else .disabled
  | .handle mask => if s.call.isNone then .next (handle s mask) else .disabled
  | .ttyRead nr => if s.call.isNone then .next (ttyRead s nr) else .disabled
  | .goOn =>
      match s.call with
      | some x => .next (goOn s x)
      | none => .disabled

/-- A new task. -/
def start (t : TtyStruct) (signal : BitVec 32) (jiffies : Int) : State where
  tty := t
  signal := signal
  alarm := 0
  jiffies := jiffies
  call := none
  value := 0
  borrowed := false
  due := 0
  raised := false
  spurious := false
  wrong := false

/-! ### What is claimed -/

/-- Each alarm of the caller is raised once, by the first `schedule` behind it, and the signal
stays until it is handled. No SIGALRM is left that is only for `VTIME`. -/
structure Keeps (s : State) : Prop where
  inTime : s.wrong = false
  kept : s.raised = true → alarmed s = true
  clean : s.call = none → s.spurious = false

/-- What is asked of a step of `tty_read`.
- When it takes SIGALRM back, there is none for the caller's alarm.
- It reads no end of file while the `VTIME` alarm is set.
- When it puts the caller's alarm back, that has not been raised yet.
- When it returns, there is no SIGALRM for `VTIME`. -/
def careful (s : State) (x : Call) : Bool :=
  match x.pc with
  | .head => !(x.nr ≠ 0 && x.flag && alarmed s && s.raised)
  | .take => !(endOfFile s && x.flag)
  | .behind =>
      !(x.time ≠ 0 && !s.tty.termios.lFlag ICANON && !x.flag && !sooner s x) ||
        s.alarm = x.oldalarm
  | .leave => (x.flag || s.alarm = x.oldalarm) && !s.spurious
  | _ => true

/-- The conditions of the steps. While the `VTIME` alarm is set, no `schedule` finds the caller's
alarm in the past. -/
def ok (s : State) : Action → Bool
  | .schedule => s.call.all fun x => !x.flag || x.oldalarm = 0 || s.jiffies ≤ x.oldalarm
  | .goOn => s.call.all (careful s)
  | _ => true

/-! ### The bit -/

variable {s s' : State} {x : Call} {m : BitVec 32}

theorem alarmed_eq (s : State) : alarmed s = s.signal.getLsbD 13 := by
  have hmask : ALRMMASK = BitVec.twoPow 32 13 := rfl
  rw [alarmed, hmask, BitVec.and_twoPow]
  cases s.signal.getLsbD 13 with
  | true => rfl
  | false => rfl

theorem getLsbD_mask : ALRMMASK.getLsbD 13 = true := rfl

/-- Signals that are sent do not take it away. -/
theorem alarmed_send (h : alarmed s = true) (hs : s'.signal = s.signal ||| m) :
    alarmed s' = true := by
  rw [alarmed_eq] at h ⊢
  rw [hs, BitVec.getLsbD_or, h, Bool.true_or]

theorem alarmed_handle (h : alarmed s = true) (hm : m &&& ALRMMASK = 0)
    (hs : s'.signal = s.signal &&& ~~~m) : alarmed s' = true := by
  have hbit : m.getLsbD 13 = false := by
    have hboth := congrArg (·.getLsbD 13) hm
    simp only [BitVec.getLsbD_and, getLsbD_mask, Bool.and_true] at hboth
    exact hboth
  rw [alarmed_eq] at h ⊢
  rw [hs, BitVec.getLsbD_and, BitVec.getLsbD_not, h, hbit]
  rfl

/-! ### The invariant -/

/-- Inside a call. -/
structure CallInv (s : State) (x : Call) : Prop where
  time : 0 ≤ x.time
  /-- The caller's alarm is as it was, or has been raised. -/
  old : s.due = x.oldalarm ∨ s.due = 0 ∧ x.oldalarm < s.jiffies
  held : s.borrowed = false → s.alarm = s.due
  lent : s.borrowed = true → s.due = x.oldalarm
  first : x.pc = .compare ∨ x.pc = .arm ∨ x.pc = .rearm → s.due = x.oldalarm
  sets : x.pc = .arm ∨ x.pc = .rearm → x.flag = true
  fresh : x.pc = .compare → x.flag = false
  flag : x.pc ≠ .arm → x.pc ≠ .rearm → x.flag = s.borrowed
  quiet : x.pc = .take ∨ (∃ c, x.pc = .copying c) → s.borrowed = false → s.spurious = false

structure Inv (s : State) : Prop where
  inTime : s.wrong = false
  kept : s.raised = true → alarmed s = true
  seen : s.spurious = true → alarmed s = true
  idle : s.call = none → s.alarm = s.due ∧ s.borrowed = false ∧ s.spurious = false
  call : ∀ x, s.call = some x → CallInv s x

theorem Inv.keeps (h : Inv s) : Keeps s := ⟨h.inTime, h.kept, fun hcall => (h.idle hcall).2.2⟩

theorem inv_start (t : TtyStruct) (signal : BitVec 32) (jiffies : Int) :
    Inv (start t signal jiffies) := ⟨rfl, nofun, nofun, fun _ => ⟨rfl, rfl, rfl⟩, nofun⟩

/-- Only these fields matter. -/
theorem CallInv.congr (h : CallInv s x) (halarm : s'.alarm = s.alarm)
    (hborrowed : s'.borrowed = s.borrowed) (hdue : s'.due = s.due)
    (hspurious : s'.spurious = s.spurious) (hj : s.jiffies ≤ s'.jiffies) : CallInv s' x where
  time := h.time
  old := by
    rw [hdue]
    exact h.old.imp_right fun ⟨hzero, hpast⟩ => ⟨hzero, lt_of_lt_of_le hpast hj⟩
  held := by
    rw [hborrowed, halarm, hdue]
    exact h.held
  lent := by
    rw [hborrowed, hdue]
    exact h.lent
  first := by
    rw [hdue]
    exact h.first
  sets := h.sets
  fresh := h.fresh
  flag := by
    rw [hborrowed]
    exact h.flag
  quiet := by
    rw [hborrowed, hspurious]
    exact h.quiet

/-- Where a step only goes on with the call. -/
theorem Inv.setCall (h : Inv s) (hx : CallInv s x) : Inv (setCall s x) := by
  refine ⟨h.inTime, h.kept, h.seen, nofun, fun y hy => ?_⟩
  cases hy
  exact hx.congr rfl rfl rfl rfl (Int.le_refl _)

/-- To a place with nothing to be said about it. -/
theorem CallInv.goTo (h : CallInv s x) {y : Call} (hflag : y.flag = s.borrowed)
    (htime : y.time = x.time) (hold : y.oldalarm = x.oldalarm) (h₁ : y.pc ≠ .compare)
    (h₂ : y.pc ≠ .arm) (h₃ : y.pc ≠ .rearm)
    (hquiet : y.pc = .take ∨ (∃ c, y.pc = .copying c) → s.borrowed = false →
      s.spurious = false) : CallInv s y where
  time := htime ▸ h.time
  old := hold ▸ h.old
  held := h.held
  lent := hold ▸ h.lent
  first hpc := by
    rcases hpc with hpc | hpc | hpc
    · exact absurd hpc h₁
    · exact absurd hpc h₂
    · exact absurd hpc h₃
  sets hpc := by
    rcases hpc with hpc | hpc
    · exact absurd hpc h₂
    · exact absurd hpc h₃
  fresh hpc := absurd hpc h₁
  flag _ _ := hflag
  quiet := hquiet

/-- The alarm is set, and the call goes on. -/
theorem Inv.setAlarm (h : Inv s) {alarm : Int} {borrowed : Bool}
    (hx : CallInv (TtyAlarm.setAlarm s alarm borrowed) x) :
    Inv (TtyAlarm.setCall (TtyAlarm.setAlarm s alarm borrowed) x) := by
  refine ⟨h.inTime, h.kept, h.seen, nofun, fun y hy => ?_⟩
  cases hy
  exact hx.congr rfl rfl rfl rfl (Int.le_refl _)

/-- The `VTIME` alarm is set. -/
theorem CallInv.borrow (h : CallInv s x) (hpc : x.pc = .arm ∨ x.pc = .rearm) {alarm : Int} {pc : Pc}
    (h' : pc = .head ∨ pc = .enough) :
    CallInv (TtyAlarm.setAlarm s alarm true) { x with pc := pc } where
  time := h.time
  old := h.old
  held := nofun
  lent _ := h.first (Or.inr hpc)
  first _ := h.first (Or.inr hpc)
  sets _ := h.sets hpc
  fresh hpc := by
    rcases h' with rfl | rfl
    · cases hpc
    · cases hpc
  flag _ _ := h.sets hpc
  quiet hpc := by
    rcases h' with rfl | rfl
    · rcases hpc with hpc | ⟨c, hpc⟩
      · cases hpc
      · cases hpc
    · rcases hpc with hpc | ⟨c, hpc⟩
      · cases hpc
      · cases hpc

/-! ### Steps of a call -/

theorem careful_head (h : careful s x = true) (hpc : x.pc = .head) (hnr : x.nr ≠ 0)
    (hflag : x.flag = true) (halarm : alarmed s = true) : s.raised = false := by
  rw [careful, hpc] at h
  dsimp only at h
  rw [decide_eq_true hnr, hflag, halarm, Bool.not_eq_true'] at h
  exact h

theorem careful_take (h : careful s x = true) (hpc : x.pc = .take)
    (heof : endOfFile s = true) : x.flag = false := by
  rw [careful, hpc] at h
  dsimp only at h
  rw [heof, Bool.not_eq_true'] at h
  exact h

theorem careful_behind (h : careful s x = true) (hpc : x.pc = .behind) (htime : x.time ≠ 0)
    (hcanon : s.tty.termios.lFlag ICANON = false) (hflag : x.flag = false)
    (hsooner : sooner s x = false) : s.alarm = x.oldalarm := by
  rw [careful, hpc] at h
  dsimp only at h
  rw [decide_eq_true htime, hcanon, hflag, hsooner] at h
  exact of_decide_eq_true h

theorem careful_leave (h : careful s x = true) (hpc : x.pc = .leave) :
    (x.flag = false → s.alarm = x.oldalarm) ∧ s.spurious = false := by
  rw [careful, hpc] at h
  dsimp only at h
  rw [Bool.and_eq_true, Bool.not_eq_true'] at h
  refine ⟨fun hflag => ?_, h.2⟩
  rw [hflag] at h
  exact of_decide_eq_true h.1

theorem Inv.compare (h : Inv s) (hx : CallInv s x) (hpc : x.pc = .compare) :
    Inv (TtyAlarm.setCall s
      { x with flag := sooner s x, pc := if sooner s x then .arm else .head }) := by
  have hflag : x.flag = s.borrowed := hx.flag (by rw [hpc]; nofun) (by rw [hpc]; nofun)
  have hdue := hx.first (Or.inl hpc)
  cases hsooner : sooner s x with
  | true =>
      rw [if_pos rfl]
      exact h.setCall ⟨hx.time, hx.old, hx.held, hx.lent, fun _ => hdue, fun _ => rfl, nofun,
        fun hno => absurd rfl hno, fun hno => by simp at hno⟩
  | false =>
      rw [if_neg (by decide)]
      exact h.setCall (hx.goTo ((hx.fresh hpc).symm.trans hflag) rfl rfl nofun nofun nofun
        fun hno => by simp at hno)

theorem Inv.headOfLoop (h : Inv s) (hx : CallInv s x) (hpc : x.pc = .head)
    (hok : careful s x = true) : Inv (headOfLoop s x) := by
  have hflag : x.flag = s.borrowed := hx.flag (by rw [hpc]; nofun) (by rw [hpc]; nofun)
  have hgo : ∀ pc, pc ≠ .compare → pc ≠ .arm → pc ≠ .rearm → pc ≠ .take →
      (∀ c, pc ≠ .copying c) → CallInv s { x with pc := pc } :=
    fun pc h₁ h₂ h₃ h₄ h₅ => hx.goTo hflag rfl rfl h₁ h₂ h₃ fun hpc =>
      absurd hpc (not_or.2 ⟨h₄, not_exists.2 h₅⟩)
  unfold TtyAlarm.headOfLoop
  split
  case isTrue => exact h.setCall (hgo .leave nofun nofun nofun nofun nofun)
  case isFalse hnr =>
    split
    case isTrue hcond =>
      rw [Bool.and_eq_true] at hcond
      have hraised := careful_head hok hpc hnr hcond.1 hcond.2
      have hleave := hgo .leave nofun nofun nofun nofun nofun
      refine ⟨h.inTime, fun hr => ?_, nofun, nofun, fun y hy => ?_⟩
      · change s.raised = true at hr
        rw [hraised] at hr
        cases hr
      · cases hy
        exact ⟨hleave.time, hleave.old, hleave.held, hleave.lent, hleave.first, hleave.sets,
          hleave.fresh, hleave.flag, fun _ _ => rfl⟩
    case isFalse =>
      split
      case isTrue => exact h.setCall (hgo .leave nofun nofun nofun nofun nofun)
      case isFalse hsignal =>
        split
        case isTrue =>
          split
          · exact h.setCall (hgo .asleep nofun nofun nofun nofun nofun)
          · exact h.setCall (hgo .head nofun nofun nofun nofun nofun)
        case isFalse =>
          refine h.setCall (hx.goTo hflag rfl rfl nofun nofun nofun fun _ _ => ?_)
          -- no signal at all, and none for `VTIME`
          rw [← Bool.not_eq_true]
          intro hspurious
          have hseen := h.seen hspurious
          rw [alarmed, Classical.not_not.1 hsignal] at hseen
          cases hseen

theorem Inv.take (h : Inv s) (hx : CallInv s x) (hpc : x.pc = .take)
    (hok : careful s x = true) : Inv (take s x) := by
  have hflag : x.flag = s.borrowed := hx.flag (by rw [hpc]; nofun) (by rw [hpc]; nofun)
  unfold TtyAlarm.take
  split
  case isTrue heof =>
    have hborrowed : s.borrowed = false := hflag ▸ careful_take hok hpc heof
    exact ⟨h.inTime, h.kept, h.seen, fun _ => ⟨hx.held hborrowed, hborrowed,
      hx.quiet (Or.inl hpc) hborrowed⟩, nofun⟩
  case isFalse =>
    have hcopy : CallInv s { x with pc := .copying s.tty.secondary.first } :=
      hx.goTo hflag rfl rfl nofun nofun nofun fun _ => hx.quiet (Or.inl hpc)
    refine ⟨h.inTime, h.kept, h.seen, nofun, fun y hy => ?_⟩
    cases hy
    exact hcopy.congr rfl rfl rfl rfl (Int.le_refl _)

/-- With the `VTIME` alarm sooner than it, the caller's alarm has not been raised. -/
theorem CallInv.due_of_sooner (hx : CallInv s x) (h : sooner s x = true) : s.due = x.oldalarm := by
  rcases hx.old with hdue | ⟨hdue, hpast⟩
  · exact hdue
  · rw [sooner, Bool.or_eq_true, decide_eq_true_eq, decide_eq_true_eq] at h
    have htime := hx.time
    omega

theorem Inv.behindLoop (h : Inv s) (hx : CallInv s x) (hpc : x.pc = .behind)
    (hok : careful s x = true) : Inv (behindLoop s x) := by
  have hflag : x.flag = s.borrowed := hx.flag (by rw [hpc]; nofun) (by rw [hpc]; nofun)
  unfold TtyAlarm.behindLoop
  split
  case isTrue htimed =>
    rw [Bool.and_eq_true, decide_eq_true_eq, Bool.not_eq_true'] at htimed
    cases hsooner : sooner s x with
    | true =>
        have hdue := hx.due_of_sooner hsooner
        rw [if_pos rfl]
        exact h.setCall ⟨hx.time, Or.inl hdue, hx.held, fun _ => hdue, fun _ => hdue, fun _ => rfl,
          nofun, fun _ hno => absurd rfl hno, fun hno => by simp at hno⟩
    | false =>
        -- what is put back is the alarm that is still to come
        have hdue : s.due = x.oldalarm := by
          cases hf : x.flag with
          | true => exact hx.lent (hflag ▸ hf)
          | false =>
              have hput := careful_behind hok hpc htimed.1 htimed.2 hf hsooner
              exact (hx.held (hflag ▸ hf)).symm.trans hput
        rw [if_neg (by decide)]
        refine Inv.setAlarm h ⟨hx.time, Or.inl hdue, fun _ => hdue.symm, nofun, fun _ => hdue,
          fun hno => by simp at hno, nofun, fun _ _ => rfl, fun hno => by simp at hno⟩
  case isFalse =>
    exact h.setCall (hx.goTo hflag rfl rfl nofun nofun nofun fun hno => by simp at hno)

theorem Inv.leave (h : Inv s) (hx : CallInv s x) (hpc : x.pc = .leave)
    (hok : careful s x = true) : Inv (leave s x) := by
  have hok := careful_leave hok hpc
  have hflag : x.flag = s.borrowed := hx.flag (by rw [hpc]; nofun) (by rw [hpc]; nofun)
  have hdue : x.oldalarm = s.due := by
    cases hf : x.flag with
    | true => exact (hx.lent (hflag ▸ hf)).symm
    | false => exact (hok.1 hf).symm.trans (hx.held (hflag ▸ hf))
  exact ⟨h.inTime, h.kept, h.seen, fun _ => ⟨hdue, rfl, hok.2⟩, nofun⟩

theorem Inv.goOn (h : Inv s) (hcall : s.call = some x) (hok : careful s x = true) :
    Inv (goOn s x) := by
  have hx := h.call x hcall
  unfold TtyAlarm.goOn
  cases hpc : x.pc with
  | compare => exact h.compare hx hpc
  | arm => exact Inv.setAlarm h (hx.borrow (Or.inl hpc) (Or.inl rfl))
  | head =>
      exact h.headOfLoop hx hpc hok
  | asleep =>
      have hflag := hx.flag (by rw [hpc]; nofun) (by rw [hpc]; nofun)
      dsimp only
      split
      · exact h
      · exact h.setCall (hx.goTo hflag rfl rfl nofun nofun nofun fun hno => by simp at hno)
  | take =>
      exact h.take hx hpc hok
  | copying c =>
      have hflag := hx.flag (by rw [hpc]; nofun) (by rw [hpc]; nofun)
      have hquiet := hx.quiet (Or.inr ⟨c, hpc⟩)
      dsimp only
      split
      · exact h.setCall (hx.goTo hflag rfl rfl nofun nofun nofun fun _ => hquiet)
      · exact h.setCall (hx.goTo hflag rfl rfl nofun nofun nofun fun _ => hquiet)
  | behind =>
      exact h.behindLoop hx hpc hok
  | rearm => exact Inv.setAlarm h (hx.borrow (Or.inr hpc) (Or.inr rfl))
  | enough =>
      have hflag := hx.flag (by rw [hpc]; nofun) (by rw [hpc]; nofun)
      dsimp only
      split
      · exact h.setCall (hx.goTo hflag rfl rfl nofun nofun nofun fun hno => by simp at hno)
      · exact h.setCall (hx.goTo hflag rfl rfl nofun nofun nofun fun hno => by simp at hno)
  | leave =>
      exact h.leave hx hpc hok

/-! ### Steps of the system -/

theorem schedule_wrong : (schedule s).wrong =
    (s.wrong || ((expired s.alarm s.jiffies && !s.borrowed) != expired s.due s.jiffies)) := rfl

theorem schedule_raised : (schedule s).raised =
    (s.raised || expired s.alarm s.jiffies && !s.borrowed) := rfl

theorem schedule_spurious : (schedule s).spurious =
    (s.spurious || expired s.alarm s.jiffies && s.borrowed) := rfl

theorem schedule_alarm :
    (schedule s).alarm = if expired s.alarm s.jiffies then 0 else s.alarm := rfl

theorem schedule_due : (schedule s).due = if expired s.due s.jiffies then 0 else s.due := rfl

/-- What is asked of a `schedule`: the alarm that it looks at is the caller's, or that is not in
the past. -/
theorem schedule_inTime (h : s.borrowed = false ∧ s.alarm = s.due ∨
    s.borrowed = true ∧ expired s.due s.jiffies = false) (hw : s.wrong = false) :
    (schedule s).wrong = false := by
  rw [schedule_wrong, hw]
  rcases h with ⟨hborrowed, halarm⟩ | ⟨hborrowed, hdue⟩
  · rw [hborrowed, halarm, Bool.not_false, Bool.and_true, bne_self_eq_false]
    rfl
  · rw [hborrowed, hdue, Bool.not_true, Bool.and_false]
    rfl

theorem alarmed_schedule (h : alarmed s = true ∨ expired s.alarm s.jiffies = true) :
    alarmed (schedule s) = true := by
  rw [alarmed_eq]
  unfold schedule
  dsimp only
  rcases h with hbit | hfires
  · rw [alarmed_eq] at hbit
    split
    · rw [BitVec.getLsbD_or, hbit, Bool.true_or]
    · exact hbit
  · rw [if_pos hfires, BitVec.getLsbD_or, getLsbD_mask, Bool.or_true]

theorem not_expired {alarm jiffies : Int} (h : alarm = 0 ∨ jiffies ≤ alarm) :
    expired alarm jiffies = false := by
  rw [expired, Bool.and_eq_false_iff, decide_eq_false_iff_not, decide_eq_false_iff_not]
  omega

/-- Outside a call, and inside one where it may yield. -/
theorem Inv.looksAt (h : Inv s) (hyield : mayYield s = true) (hok : ok s .schedule = true) :
    s.borrowed = false ∧ s.alarm = s.due ∨
      s.borrowed = true ∧ expired s.due s.jiffies = false := by
  cases hcall : s.call with
  | none => exact Or.inl ⟨(h.idle hcall).2.1, (h.idle hcall).1⟩
  | some x =>
      have hx := h.call x hcall
      rw [mayYield, hcall, Option.all_some] at hyield
      have hflag : x.flag = s.borrowed := by
        refine hx.flag (fun hpc => ?_) (fun hpc => ?_)
        · rw [hpc] at hyield
          cases hyield
        · rw [hpc] at hyield
          cases hyield
      cases hborrowed : s.borrowed with
      | false => exact Or.inl ⟨rfl, hx.held hborrowed⟩
      | true =>
          refine Or.inr ⟨rfl, ?_⟩
          rw [ok, hcall, Option.all_some, hflag, hborrowed, Bool.not_true, Bool.false_or,
            Bool.or_eq_true, decide_eq_true_eq, decide_eq_true_eq] at hok
          rw [hx.lent hborrowed]
          exact not_expired hok

theorem CallInv.schedule (hx : CallInv s x) (hyield : x.pc = .asleep ∨ ∃ c, x.pc = .copying c)
    (hlooks : s.borrowed = false ∧ s.alarm = s.due ∨
      s.borrowed = true ∧ expired s.due s.jiffies = false) : CallInv (schedule s) x where
  time := hx.time
  old := by
    rw [schedule_due]
    cases hnow : expired s.due s.jiffies with
    | false => exact hx.old
    | true =>
        rw [expired, Bool.and_eq_true, decide_eq_true_eq, decide_eq_true_eq] at hnow
        rcases hx.old with hdue | ⟨hdue, -⟩
        · exact Or.inr ⟨rfl, hdue ▸ hnow.2⟩
        · exact absurd hdue hnow.1
  held hborrowed := by
    rw [schedule_alarm, schedule_due, hx.held hborrowed]
  lent hborrowed := by
    rcases hlooks with ⟨hno, -⟩ | ⟨-, hdue⟩
    · change s.borrowed = true at hborrowed
      rw [hno] at hborrowed
      cases hborrowed
    · rw [schedule_due, hdue]
      exact hx.lent hborrowed
  first hpc := by
    rcases hyield with h | ⟨c, h⟩
    · simp [h] at hpc
    · simp [h] at hpc
  sets := hx.sets
  fresh := hx.fresh
  flag := hx.flag
  quiet hpc hborrowed := by
    change s.borrowed = false at hborrowed
    rw [schedule_spurious, hx.quiet hpc hborrowed, hborrowed, Bool.and_false]
    rfl

theorem Inv.schedule (h : Inv s) (hyield : mayYield s = true) (hok : ok s .schedule = true) :
    Inv (schedule s) := by
  have hlooks := h.looksAt hyield hok
  refine ⟨schedule_inTime hlooks h.inTime, fun hr => ?_, fun hr => ?_, fun hcall => ?_,
    fun x hcall => ?_⟩
  · rw [schedule_raised, Bool.or_eq_true, Bool.and_eq_true] at hr
    exact alarmed_schedule (hr.imp h.kept And.left)
  · rw [schedule_spurious, Bool.or_eq_true, Bool.and_eq_true] at hr
    exact alarmed_schedule (hr.imp h.seen And.left)
  · obtain ⟨halarm, hborrowed, hspurious⟩ := h.idle hcall
    refine ⟨?_, hborrowed, ?_⟩
    · rw [schedule_alarm, schedule_due, halarm]
    · rw [schedule_spurious, hspurious, hborrowed, Bool.and_false]
      rfl
  · change s.call = some x at hcall
    refine (h.call x hcall).schedule ?_ hlooks
    rw [mayYield, hcall, Option.all_some] at hyield
    split at hyield
    case h_1 hpc => exact Or.inl hpc
    case h_2 c hpc => exact Or.inr ⟨c, hpc⟩
    case h_3 => cases hyield

theorem Inv.ttyRead (h : Inv s) (hcall : s.call = none) (nr : Int) : Inv (ttyRead s nr) := by
  obtain ⟨halarm, hborrowed, hspurious⟩ := h.idle hcall
  unfold TtyAlarm.ttyRead
  split
  case isTrue =>
    refine ⟨h.inTime, h.kept, h.seen, h.idle, fun x hx => ?_⟩
    exact (h.call x hx).congr rfl rfl rfl rfl (Int.le_refl _)
  case isFalse =>
    refine h.setCall ⟨by dsimp only; omega, Or.inl halarm.symm, fun _ => halarm, fun _ =>
      halarm.symm, fun _ => halarm.symm, fun hpc => ?_, fun _ => rfl, fun _ _ => hborrowed.symm,
      fun _ _ => hspurious⟩
    dsimp only at hpc
    split at hpc
    · simp at hpc
    · simp at hpc

/-- Every step keeps the invariant. -/
theorem Inv.step {a : Action} (h : Inv s) (hok : ok s a = true) (hstep : step s a = .next s') :
    Inv s' := by
  cases a with
  | tick =>
      cases hstep
      refine ⟨h.inTime, h.kept, h.seen, h.idle, fun x hcall => ?_⟩
      exact (h.call x hcall).congr rfl rfl rfl rfl (Int.le_add_one (Int.le_refl _))
  | terminal t =>
      cases hstep
      refine ⟨h.inTime, h.kept, h.seen, h.idle, fun x hcall => ?_⟩
      exact (h.call x hcall).congr rfl rfl rfl rfl (Int.le_refl _)
  | send mask =>
      cases hstep
      refine ⟨h.inTime, fun hr => alarmed_send (h.kept hr) rfl,
        fun hr => alarmed_send (h.seen hr) rfl, h.idle, fun x hcall => ?_⟩
      exact (h.call x hcall).congr rfl rfl rfl rfl (Int.le_refl _)
  | schedule =>
      unfold TtyAlarm.step at hstep
      dsimp only at hstep
      split at hstep
      case isTrue hyield =>
        cases hstep
        exact h.schedule hyield hok
      case isFalse => cases hstep
  | alarm seconds =>
      unfold TtyAlarm.step at hstep
      dsimp only at hstep
      split at hstep
      case isTrue hnone =>
        cases hstep
        rw [Option.isNone_iff_eq_none] at hnone
        refine ⟨h.inTime, h.kept, h.seen, fun _ => ⟨rfl, rfl, (h.idle hnone).2.2⟩, fun x hcall => ?_⟩
        change s.call = some x at hcall
        rw [hnone] at hcall
        cases hcall
      case isFalse => cases hstep
  | handle mask =>
      unfold TtyAlarm.step at hstep
      dsimp only at hstep
      split at hstep
      case isTrue hnone =>
        cases hstep
        rw [Option.isNone_iff_eq_none] at hnone
        obtain ⟨halarm, hborrowed, hspurious⟩ := h.idle hnone
        refine ⟨h.inTime, fun hr => ?_, fun hr => ?_, fun _ => ⟨halarm, hborrowed, ?_⟩,
          fun x hcall => ?_⟩
        · obtain ⟨hr, hm⟩ := Bool.and_eq_true_iff.1 hr
          exact alarmed_handle (h.kept hr) (of_decide_eq_true hm) rfl
        · obtain ⟨hr, hm⟩ := Bool.and_eq_true_iff.1 hr
          exact alarmed_handle (h.seen hr) (of_decide_eq_true hm) rfl
        · change (s.spurious && _) = false
          rw [hspurious]
          rfl
        · change s.call = some x at hcall
          rw [hnone] at hcall
          cases hcall
      case isFalse => cases hstep
  | ttyRead nr =>
      unfold TtyAlarm.step at hstep
      dsimp only at hstep
      split at hstep
      case isTrue hnone =>
        cases hstep
        exact h.ttyRead (Option.isNone_iff_eq_none.1 hnone) nr
      case isFalse => cases hstep
  | goOn =>
      unfold TtyAlarm.step at hstep
      dsimp only at hstep
      cases hcall : s.call with
      | none =>
          rw [hcall] at hstep
          cases hstep
      | some x =>
          rw [hcall] at hstep
          cases hstep
          rw [ok, hcall, Option.all_some] at hok
          exact h.goOn hcall hok

/-- Nothing to read, with a `VTIME` of a tenth of a second. -/
def quietTty : TtyStruct where
  termios := ⟨0, 0, 0, 0, 0, fun i => if i = VTIME then 1 else 0⟩
  pgrp := 0
  stopped := false
  readQ := ⟨fun _ => 0, 0, 0⟩
  writeQ := ⟨fun _ => 0, 0, 0⟩
  secondary := ⟨fun _ => 0, 0, 0⟩
  data := 0

/-- The caller sets its alarm to one second, and nothing comes before `VTIME`. -/
def timedRun : List Action :=
  [.alarm 1, .ttyRead 1, .goOn, .goOn, .goOn] ++ List.replicate 11 .tick ++
    [.schedule, .goOn, .goOn, .goOn]

def timed : State := (run step (start quietTty 0 0) timedRun).get (start quietTty 0 0)

/-- The alarm comes while the call is asleep, is put back, and comes again. -/
def lateRun : List Action :=
  [.alarm 1, .terminal { quietTty with termios := ⟨0, 0, 0, 0, 0, fun i => if i = VMIN then 1 else 0⟩ },
    .ttyRead 1, .goOn] ++ List.replicate 101 .tick ++ [.schedule, .goOn, .goOn, .goOn, .schedule]

end LinuxKernel.V011.TtyAlarm
