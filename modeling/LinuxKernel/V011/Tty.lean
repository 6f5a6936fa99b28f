import LinuxKernel.Lib.Ring
import LinuxKernel.Lib.System

/-!
# LinuxKernel.V011.Tty

The **input side of a terminal**: `copy_to_cooked` and `tty_read` of
`chr_drv/tty_io.c`, and the calls of `chr_drv/tty_ioctl.c` that change the
`termios`.

- `copy_to_cooked` is called from the interrupt, and runs to its end.
- Any number of tasks may be inside `tty_read`. A task can be suspended in
  `sleep_if_empty` and, when the store to user memory faults, in
  `put_fs_byte`; a step takes it from one such place to the next.
- `set_termios` stores the bytes it reads from user memory one at a time into
  the `termios` in use.
- A `char` is a `BitVec 8`, signed, and a control character is unsigned.
- `lines`, `ended`, `below` and `log` are history variables.
-/

namespace LinuxKernel.V011.Tty

/-! ### The data model -/

def TTY_BUF_SIZE : Nat := 1024

/-- `struct tty_queue`, but for `data`. -/
abbrev Queue := Ring 1024 (BitVec 8)

structure Termios where
  cIflag : BitVec 32
  cOflag : BitVec 32
  cCflag : BitVec 32
  cLflag : BitVec 32
  cLine : BitVec 8
  cCc : Fin 17 → BitVec 8

def VINTR : Fin 17 := 0
def VQUIT : Fin 17 := 1
def VERASE : Fin 17 := 2
def VKILL : Fin 17 := 3
def VEOF : Fin 17 := 4
def VTIME : Fin 17 := 5
def VMIN : Fin 17 := 6
def VSTART : Fin 17 := 8
def VSTOP : Fin 17 := 9

def INLCR : BitVec 32 := 0x40
def IGNCR : BitVec 32 := 0x80
def ICRNL : BitVec 32 := 0x100
def IUCLC : BitVec 32 := 0x200
def ISIG : BitVec 32 := 0x1
def ICANON : BitVec 32 := 0x2
def ECHO : BitVec 32 := 0x8
def ECHOCTL : BitVec 32 := 0x200

namespace Termios

/-- `_I_FLAG`. -/
def iFlag (t : Termios) (f : BitVec 32) : Bool := t.cIflag &&& f ≠ 0

/-- `_L_FLAG`. -/
def lFlag (t : Termios) (f : BitVec 32) : Bool := t.cLflag &&& f ≠ 0

/-- `c==X_CHAR(tty)`: a signed against an unsigned character. -/
def isCc (t : Termios) (i : Fin 17) (c : BitVec 8) : Bool := c.toInt = (t.cCc i).toNat

/-- The characters that count as line ends. -/
def lineEnd (t : Termios) (c : BitVec 8) : Bool := c = 10 || t.isCc VEOF c

end Termios

/-- `struct tty_struct`, with `secondary.data`. -/
structure TtyStruct where
  termios : Termios
  pgrp : Int
  stopped : Bool
  readQ : Queue
  writeQ : Queue
  secondary : Queue
  data : BitVec 32

/-- What `copy_to_cooked` uses of the driver, and of the memory before `_ctype`. -/
structure Driver where
  /-- `tty->write` takes characters out of the write queue. -/
  write : Queue → Queue
  /-- Whether `isupper` finds `_U` for a character below -1. -/
  strayUpper : BitVec 8 → Bool

/-- `tolower`. -/
def tolower (d : Driver) (c : BitVec 8) : BitVec 8 :=
  let upper := if c.toInt < -1 then d.strayUpper c else 65 ≤ c.toInt && c.toInt ≤ 90
  if upper then c + 32 else c

/-! ### `copy_to_cooked` -/

/-- The translation of carriage returns, newlines and capitals. Nothing is left
of a carriage return under `IGNCR`. -/
def translate (d : Driver) (t : Termios) (c : BitVec 8) : Option (BitVec 8) :=
  let c :=
    if c = 13 then
      if t.iFlag ICRNL then some 10 else if t.iFlag IGNCR then none else some c
    else if c = 10 && t.iFlag INLCR then some 13
    else some c
  if t.iFlag IUCLC then c.map (tolower d) else c

/-- There is nothing to erase in the current line. -/
def atLineStart (t : TtyStruct) : Bool := t.secondary.isEmpty || t.termios.lineEnd t.secondary.last

/-- Erase the last character. -/
def erase (d : Driver) (t : TtyStruct) : TtyStruct :=
  let c := t.secondary.last
  let t :=
    if t.termios.lFlag ECHO then
      let q := if c.toInt < 32 then t.writeQ.put 127 else t.writeQ
      { t with writeQ := d.write (q.put 127) }
    else t
  { t with secondary := t.secondary.dec }

/-- The loop for `KILL_CHAR`. -/
def killLine (d : Driver) (t : TtyStruct) : Nat → TtyStruct
  | 0 => t
  | fuel + 1 => if atLineStart t then t else killLine d (erase d t) fuel

/-- The editing characters of canonical mode. -/
def edit (d : Driver) (t : TtyStruct) (c : BitVec 8) : Option TtyStruct :=
  if t.termios.isCc VKILL c then some (killLine d t TTY_BUF_SIZE)
  else if t.termios.isCc VERASE c then some (if atLineStart t then t else erase d t)
  else if t.termios.isCc VSTOP c then some { t with stopped := true }
  else if t.termios.isCc VSTART c then some { t with stopped := false }
  else none

/-- What is echoed for a character. -/
def echo (d : Driver) (t : TtyStruct) (c : BitVec 8) : TtyStruct :=
  if t.termios.lFlag ECHO then
    let q :=
      if c = 10 then (t.writeQ.put 10).put 13
      else if c.toInt < 32 then
        if t.termios.lFlag ECHOCTL then (t.writeQ.put 94).put (c + 64) else t.writeQ
      else t.writeQ.put c
    { t with writeQ := d.write q }
  else t

/-- A character goes to the secondary queue. -/
def store (d : Driver) (t : TtyStruct) (c : BitVec 8) : TtyStruct :=
  let t := if t.termios.lineEnd c then { t with data := t.data + 1 } else t
  let t := echo d t c
  { t with secondary := t.secondary.put c }

/-- What the code uses of `struct task_struct`. -/
structure Task where
  signal : BitVec 32
  alarm : Int
  pgrp : Int

def ALRMMASK : BitVec 32 := 1#32 <<< 13
def INTMASK : BitVec 32 := 1#32 <<< 1
def QUITMASK : BitVec 32 := 1#32 <<< 2

/-- `tty_intr`. -/
def ttyIntr (t : TtyStruct) (task : Nat → Task) (mask : BitVec 32) : Nat → Task :=
  if t.pgrp ≤ 0 then task
  else fun i =>
    if (task i).pgrp = t.pgrp then { task i with signal := (task i).signal ||| mask } else task i

/-- One round of `copy_to_cooked`. -/
def cookOne (d : Driver) (t : TtyStruct) (task : Nat → Task) : TtyStruct × (Nat → Task) :=
  let c := t.readQ.first
  let t := { t with readQ := t.readQ.get }
  match translate d t.termios c with
  | none => (t, task)
  | some c =>
      match if t.termios.lFlag ICANON then edit d t c else none with
      | some t => (t, task)
      | none =>
          if t.termios.lFlag ISIG && t.termios.isCc VINTR c then (t, ttyIntr t task INTMASK)
          else if t.termios.lFlag ISIG && t.termios.isCc VQUIT c then (t, ttyIntr t task QUITMASK)
          else (store d t c, task)

/-- `copy_to_cooked`. -/
def copyToCooked (d : Driver) (t : TtyStruct) (task : Nat → Task) : Nat → TtyStruct × (Nat → Task)
  | 0 => (t, task)
  | fuel + 1 =>
      if t.readQ.isEmpty || t.secondary.isFull then (t, task)
      else copyToCooked d (cookOne d t task).1 (cookOne d t task).2 fuel

/-! ### `tty_read` -/

inductive Pc
  /-- At the head of the loop. -/
  | head
  /-- In `sleep_if_empty`. -/
  | asleep
  /-- In `put_fs_byte(c,b++)`. -/
  | copying (c : BitVec 8)
  deriving DecidableEq, Repr

/-- A call of `tty_read`: its variables, with what has been stored at `buf`. -/
structure Call where
  nr : Nat
  buf : List (BitVec 8)
  minimum : Int
  time : Int
  flag : Bool
  oldalarm : Int
  pc : Pc
  /-- The inner loop was entered with `ICANON` set and more than 20 places free. -/
  lines : Bool
  /-- The character taken last was a line end then. -/
  ended : Bool

inductive Cause
  | invalid
  | eof
  | filled
  | drained
  | signal
  | alarm
  deriving DecidableEq, Repr

/-- A call that has returned, and whether `ICANON` was set then. -/
structure Result where
  value : Int
  buf : List (BitVec 8)
  cause : Cause
  canon : Bool
  lines : Bool
  ended : Bool

structure State where
  tty : TtyStruct
  task : Nat → Task
  jiffies : Int
  call : Nat → Option Call
  below : Bool
  log : List Result

def EINTR : Int := 4

def setCall (s : State) (p : Nat) (x : Call) : State :=
  { s with call := Function.update s.call p (some x) }

/-- The call returns. -/
def ret (s : State) (p : Nat) (x : Call) (cause : Cause) (value : Int) : State :=
  { s with
    call := Function.update s.call p none
    log := s.log ++ [{
      value := value, buf := x.buf, cause := cause, canon := s.tty.termios.lFlag ICANON
      lines := x.lines, ended := x.ended }] }

def setTask (s : State) (p : Nat) (q : Task) : State :=
  { s with task := Function.update s.task p q }

def setAlarm (s : State) (p : Nat) (alarm : Int) : State :=
  setTask s p { s.task p with alarm := alarm }

/-- The end of the function, behind the loop. -/
def leave (s : State) (p : Nat) (x : Call) (cause : Cause) : State :=
  let s := setAlarm s p x.oldalarm
  ret s p x cause (if (s.task p).signal ≠ 0 && x.buf.isEmpty then -EINTR else x.buf.length)

/-- `tty_read` up to its loop. -/
def ttyRead (s : State) (p : Nat) (nr : Int) : State :=
  if nr < 0 then
    { s with log := s.log ++ [{
      value := -1, buf := [], cause := .invalid, canon := s.tty.termios.lFlag ICANON
      lines := false, ended := false }] }
  else
    let oldalarm := (s.task p).alarm
    let time : Int := 10 * (s.tty.termios.cCc VTIME).toNat
    let vmin : Int := (s.tty.termios.cCc VMIN).toNat
    let timed : Bool := time ≠ 0 && vmin = 0
    let flag : Bool := timed && (oldalarm = 0 || time + s.jiffies < oldalarm)
    let minimum := if timed then 1 else vmin
    let s := if flag then setAlarm s p (time + s.jiffies) else s
    setCall s p {
      nr := nr.toNat, buf := [], minimum := min minimum nr, time := time, flag := flag
      oldalarm := oldalarm, pc := .head, lines := false, ended := false }

/-- `GETCH(tty->secondary,c)`, the count, and the end of file. -/
def take (s : State) (p : Nat) (x : Call) : State :=
  let c := s.tty.secondary.first
  let ended := s.tty.termios.lineEnd c
  let x := { x with ended := ended }
  let data := if ended then s.tty.data - 1 else s.tty.data
  let s := { s with
    tty := { s.tty with secondary := s.tty.secondary.get, data := data }
    below := s.below || ended && s.tty.data = 0 }
  if s.tty.termios.isCc VEOF c && s.tty.termios.lFlag ICANON then ret s p x .eof x.buf.length
  else setCall s p { x with pc := .copying c }

/-- There is nothing to read, or in canonical mode no whole line. -/
def mustWait (t : TtyStruct) : Bool :=
  t.secondary.isEmpty || t.termios.lFlag ICANON && t.data = 0 && 20 < t.secondary.left

/-- The head of the loop. -/
def headOfLoop (s : State) (p : Nat) (x : Call) : State :=
  if x.nr = 0 then leave s p x .filled
  else if x.flag && (s.task p).signal &&& ALRMMASK ≠ 0 then
    leave (setTask s p { s.task p with signal := (s.task p).signal &&& ~~~ALRMMASK }) p x .alarm
  else if (s.task p).signal ≠ 0 then leave s p x .signal
  else if mustWait s.tty then setCall s p { x with pc := .asleep }
  else
    take s p { x with lines := s.tty.termios.lFlag ICANON && 20 < s.tty.secondary.left }

/-- Behind the inner loop. -/
def behindLoop (s : State) (p : Nat) (x : Call) : State :=
  let canon := s.tty.termios.lFlag ICANON
  let timed : Bool := x.time ≠ 0 && !canon
  let flag : Bool := x.oldalarm = 0 || x.time + s.jiffies < x.oldalarm
  let s := if timed then setAlarm s p (if flag then x.time + s.jiffies else x.oldalarm) else s
  let x := if timed then { x with flag := flag } else x
  let done : Bool := if canon then !x.buf.isEmpty else x.minimum ≤ x.buf.length
  if done then leave s p x (if x.nr = 0 then .filled else .drained)
  else setCall s p { x with pc := .head }

/-- What happens when the task goes on. -/
def goOn (s : State) (p : Nat) (x : Call) : State :=
  match x.pc with
  | .head => headOfLoop s p x
  | .asleep =>
      if (s.task p).signal = 0 ∧ s.tty.secondary.isEmpty then s
      else headOfLoop s p { x with pc := .head }
  | .copying c =>
      let x := { x with buf := x.buf ++ [c], nr := x.nr - 1 }
      if x.nr = 0 || s.tty.secondary.isEmpty then behindLoop s p x else take s p x

/-! ### Changes of the `termios` -/

/-- Byte `i` of a word. -/
def setByte (w : BitVec 32) (i : Nat) (b : BitVec 8) : BitVec 32 :=
  (w &&& ~~~((0xff : BitVec 32) <<< (8 * i))) ||| (b.setWidth 32 <<< (8 * i))

/-- `((char *)&tty->termios)[i] = b`; the last two of the 36 bytes are padding. -/
def Termios.setByteAt (t : Termios) (i : Fin 36) (b : BitVec 8) : Termios :=
  if i < 4 then { t with cIflag := setByte t.cIflag i b }
  else if i < 8 then { t with cOflag := setByte t.cOflag (i - 4) b }
  else if i < 12 then { t with cCflag := setByte t.cCflag (i - 8) b }
  else if i < 16 then { t with cLflag := setByte t.cLflag (i - 12) b }
  else if i = 16 then { t with cLine := b }
  else if h : i.val - 17 < 17 then { t with cCc := Function.update t.cCc ⟨i.val - 17, h⟩ b }
  else t

/-- `struct termio`. -/
structure Termio where
  cIflag : BitVec 16
  cOflag : BitVec 16
  cCflag : BitVec 16
  cLflag : BitVec 16
  cLine : BitVec 8
  cCc : Fin 8 → BitVec 8

/-- The low half of a word. -/
def setShort (w : BitVec 32) (h : BitVec 16) : BitVec 32 :=
  (w &&& 0xffff0000) ||| h.setWidth 32

/-- `set_termio`, once `tmp_termio` is complete. -/
def Termios.setTermio (t : Termios) (u : Termio) : Termios :=
  { cIflag := setShort t.cIflag u.cIflag
    cOflag := setShort t.cOflag u.cOflag
    cCflag := setShort t.cCflag u.cCflag
    cLflag := setShort t.cLflag u.cLflag
    cLine := u.cLine
    cCc := fun i => if h : i.val < 8 then u.cCc ⟨i.val, h⟩ else t.cCc i }

/-! ### The system -/

inductive Op
  /-- `put_queue` of the driver: a character that does not fit is lost. -/
  | typed (c : BitVec 8)
  /-- `do_tty_interrupt`. -/
  | interrupt
  | ttyRead (p : Nat) (nr : Int)
  | goOn (p : Nat)
  | setTermiosByte (i : Fin 36) (b : BitVec 8)
  | setTermio (u : Termio)
  | flushReadQ
  | flushWriteQ
  | setPgrp (pgrp : Int)
  | send (p : Nat) (mask : BitVec 32)
  /-- `schedule` finds an alarm that has expired. -/
  | alarm (p : Nat)
  | tick

def setTermios (s : State) (t : Termios) : State := { s with tty := { s.tty with termios := t } }

def setReadQ (s : State) (q : Queue) : State := { s with tty := { s.tty with readQ := q } }

def step (d : Driver) (s : State) : Op → Outcome State
  | .typed c =>
      .next (setReadQ s (if s.tty.readQ.isFull then s.tty.readQ else s.tty.readQ.put c))
  | .interrupt =>
      let r := copyToCooked d s.tty s.task TTY_BUF_SIZE
      .next { s with tty := r.1, task := r.2 }
  | .ttyRead p nr => if (s.call p).isSome then .disabled else .next (ttyRead s p nr)
  | .goOn p =>
      match s.call p with
      | some x => .next (goOn s p x)
      | none => .disabled
  | .setTermiosByte i b => .next (setTermios s (s.tty.termios.setByteAt i b))
  | .setTermio u => .next (setTermios s (s.tty.termios.setTermio u))
  | .flushReadQ => .next (setReadQ s s.tty.readQ.flush)
  | .flushWriteQ => .next { s with tty := { s.tty with writeQ := s.tty.writeQ.flush } }
  | .setPgrp pgrp => .next { s with tty := { s.tty with pgrp := pgrp } }
  | .send p mask => .next (setTask s p { s.task p with signal := (s.task p).signal ||| mask })
  | .alarm p =>
      if (s.task p).alarm ≠ 0 ∧ (s.task p).alarm < s.jiffies then
        .next (setTask s p
          { s.task p with signal := (s.task p).signal ||| ALRMMASK, alarm := 0 })
      else .disabled
  | .tick => .next { s with jiffies := s.jiffies + 1 }

/-! ### What is claimed -/

/-- How many characters of the secondary queue `tty_read` will count. -/
def lineEnds (t : TtyStruct) : Nat := t.secondary.contents.countP t.termios.lineEnd

/-- A read that began in canonical mode with more than 20 places free, and
returns in canonical mode because there is nothing left, ends with a line. -/
def WholeLines (s : State) : Prop :=
  ∀ r ∈ s.log, r.cause = .drained → r.canon = true → r.lines = true → r.ended = true

/-- The counter is exact and has never gone below zero, and reads return whole lines. -/
structure Canonical (s : State) : Prop where
  exact : s.tty.data.toNat = lineEnds s.tty
  above : s.below = false
  whole : WholeLines s

/-- No characters, and nobody in `tty_read`. -/
structure Init (s : State) : Prop where
  empty : s.tty.secondary.isEmpty = true
  data : s.tty.data = 0
  below : s.below = false
  call : ∀ p, s.call p = none
  log : s.log = []

/-- The task takes a character when it goes on. -/
def takes (s : State) (p : Nat) (x : Call) : Bool :=
  match x.pc with
  | .copying _ => 1 < x.nr && !s.tty.secondary.isEmpty
  | _ => x.nr ≠ 0 && (s.task p).signal = 0 && !mustWait s.tty

/-- Inside a line that it began to read in canonical mode. -/
def Call.inLine (x : Call) : Bool := (x.pc matches .copying _) && x.lines && !x.ended

/-- The conditions of the steps.
- A change of `termios` leaves the number of line ends in the queue as it is.
- A canonical read that has just stored a line end goes on only if it finds
  another one.
- The last line end in the queue is not taken while another task is inside a line. -/
def LinesOk (s : State) : Op → Prop
  | .setTermiosByte i b =>
      lineEnds { s.tty with termios := s.tty.termios.setByteAt i b } = lineEnds s.tty
  | .setTermio u => lineEnds { s.tty with termios := s.tty.termios.setTermio u } = lineEnds s.tty
  | .goOn p => ∀ x, s.call p = some x → takes s p x = true →
      (x.pc ≠ .head → x.pc ≠ .asleep → x.lines = true → x.ended = true → 0 < lineEnds s.tty) ∧
      (s.tty.termios.lineEnd s.tty.secondary.first = true → lineEnds s.tty = 1 →
        ∀ q y, q ≠ p → s.call q = some y → y.inLine = false)
  | _ => True

end LinuxKernel.V011.Tty
