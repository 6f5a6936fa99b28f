import LinuxKernel.V011.Console
import LinuxKernel.V011.Tty

/-!
# LinuxKernel.V011.TtyQueues

The **three queues of a terminal**, and all that fill them: the receive interrupts
(`rs_io.s`, `keyboard.S`), `copy_to_cooked` and `tty_write` (`tty_io.c`), and the answer
of `con_write` to ESC Z (`console.c`).

- What runs on behalf of an interrupt, and what it calls, is a stack of frames. A step
  takes the top one from one place where it can be interrupted to the next.
- The keyboard comes through a trap gate, after the end of interrupt: on the console,
  anything can come in between any two steps. A serial line has an interrupt gate, and
  its handler is through before anything else touches the tty.
- `get_fs_byte` in `tty_write` can sleep, behind the test for a full queue.
- What `put_queue` writes before it finds the queue full is not in the queue.

`accepted`, `taken` and `overrun` are there for statements only.
-/

namespace LinuxKernel.V011.TtyQueues

open LinuxKernel.V011.Tty (Queue Termios VINTR VQUIT VERASE VKILL VSTART VSTOP ISIG ICANON ECHO
  ECHOCTL)

/-! ### The queues -/

abbrev Byte := BitVec 8

abbrev Task := Nat

/-- `struct tty_queue`. -/
structure TtyQueue where
  ring : Queue
  /-- What has been put in, but for what has been erased. -/
  accepted : List Byte
  /-- What has been taken out. -/
  taken : List Byte
  /-- A `PUTCH` has found the queue full. -/
  overrun : Bool

namespace TtyQueue

/-- `PUTCH`. -/
def putch (q : TtyQueue) (c : Byte) : TtyQueue where
  ring := q.ring.put c
  accepted := q.accepted ++ [c]
  taken := q.taken
  overrun := q.overrun || q.ring.isFull

def putAll (q : TtyQueue) (cs : List Byte) : TtyQueue := cs.foldl putch q

/-- `GETCH`. -/
def getch (q : TtyQueue) : TtyQueue :=
  { q with ring := q.ring.get, taken := q.taken ++ [q.ring.first] }

/-- `DEC(head)`. -/
def dec (q : TtyQueue) : TtyQueue :=
  { q with ring := q.ring.dec, accepted := q.accepted.dropLast }

/-- `put_queue`, and `read_char` with one byte: all of them or none. -/
def receive (q : TtyQueue) (cs : List Byte) : TtyQueue :=
  if cs.length ≤ q.ring.left then q.putAll cs else q

end TtyQueue

/-! ### The data model -/

/-- `struct tty_struct`. -/
structure Tty where
  termios : Termios
  stopped : Bool
  readQ : TtyQueue
  writeQ : TtyQueue
  secondary : TtyQueue
  data : BitVec 32

inductive Kind
  | console (v : Console.Video)
  | serial
  deriving Inhabited

/-- The memory before `_ctype`, for characters below -1. -/
structure Stray where
  upper : Byte → Bool
  lower : Byte → Bool

structure Machine where
  kind : Kind
  stray : Stray

/-- A function that is not through yet. -/
inductive Frame
  /-- `copy_to_cooked`, at the head of its loop. -/
  | cook
  /-- Before `PUTCH(c,tty->secondary)`. -/
  | store (c : Byte)
  /-- Before `DEC`, for `ERASE_CHAR`. -/
  | erase
  /-- The loop for `KILL_CHAR`, at its head. -/
  | kill
  /-- Before `DEC` in it. -/
  | killDec
  /-- `con_write`, with its `nr`. -/
  | conWrite (nr : Nat)
  deriving DecidableEq

inductive WriterPc
  /-- At the head of the outer loop. -/
  | head
  /-- In `sleep_if_full`. -/
  | asleep
  /-- At the head of the inner loop. -/
  | inner
  /-- In `get_fs_byte`. -/
  | byte
  deriving DecidableEq

/-- A call of `tty_write`. -/
structure Writer where
  nr : Nat
  pc : WriterPc

structure State where
  tty : Tty
  console : Console.State
  /-- The transmit interrupt is enabled. -/
  transmit : Bool
  stack : List Frame
  writer : Task → Option Writer
  crFlag : Bool

/-! ### `copy_to_cooked` -/

/-- A round of a loop, up to the next place where it can be interrupted. -/
inductive Round
  | leave
  /-- With what goes to the write queue before `tty->write`, if it is called. -/
  | next (t : Tty) (out : Option (List Byte)) (f : Frame)

/-- There is nothing to erase in the current line. -/
def atLineStart (t : Tty) : Bool :=
  t.secondary.ring.isEmpty || t.termios.lineEnd t.secondary.ring.last

def eraseEcho (c : Byte) : List Byte := if c.toInt < 32 then [127, 127] else [127]

/-- `f` comes next if there is something to erase. -/
def eraseRound (t : Tty) (f : Frame) : Round :=
  if atLineStart t then .next t none .cook
  else
    .next t
      (if t.termios.lFlag ECHO then some (eraseEcho t.secondary.ring.last) else none) f

def echo (t : Termios) (c : Byte) : List Byte :=
  if c = 10 then [10, 13]
  else if c.toInt < 32 then if t.lFlag ECHOCTL then [94, c + 64] else []
  else [c]

/-- The character goes to the secondary queue. -/
def storeRound (t : Tty) (c : Byte) : Round :=
  .next (if t.termios.lineEnd c then { t with data := t.data + 1 } else t)
    (if t.termios.lFlag ECHO then some (echo t.termios c) else none) (.store c)

def cookRound (stray : Stray) (t : Tty) : Round :=
  if t.readQ.ring.isEmpty || t.secondary.ring.isFull then .leave
  else
    let c := t.readQ.ring.first
    let t := { t with readQ := t.readQ.getch }
    match Tty.translate ⟨id, stray.upper⟩ t.termios c with
    | none => .next t none .cook
    | some c =>
        if t.termios.lFlag ICANON && t.termios.isCc VKILL c then .next t none .kill
        else if t.termios.lFlag ICANON && t.termios.isCc VERASE c then eraseRound t .erase
        else if t.termios.lFlag ICANON && t.termios.isCc VSTOP c then
          .next { t with stopped := true } none .cook
        else if t.termios.lFlag ICANON && t.termios.isCc VSTART c then
          .next { t with stopped := false } none .cook
        else if t.termios.lFlag ISIG && (t.termios.isCc VINTR c || t.termios.isCc VQUIT c) then
          .next t none .cook
        else storeRound t c

/-! ### Writing -/

def callWrite (m : Machine) (s : State) : State :=
  match m.kind with
  | .console _ => { s with stack := .conWrite s.tty.writeQ.ring.chars :: s.stack }
  -- `rs_write`
  | .serial => if s.tty.writeQ.ring.isEmpty then s else { s with transmit := true }

/-- A round, and `tty->write` if it comes to it. -/
def doRound (m : Machine) (s : State) (rest : List Frame) : Round → State
  | .leave => { s with stack := rest }
  | .next t none f => { s with tty := t, stack := f :: rest }
  | .next t (some out) f =>
      callWrite m { s with tty := { t with writeQ := t.writeQ.putAll out }, stack := f :: rest }

/-- `ESC [ ? 1 ; 2 c`. -/
def RESPONSE : List Byte := [27, 91, 63, 49, 59, 50, 99]

/-- `con_write` comes to `respond`. -/
def responds (s : Console.State) (c : Byte) : Bool :=
  s.state = .esc && UInt8.ofBitVec c = Console.ch 'Z'

/-- One round of `con_write`. -/
def conRound (s : State) (v : Console.Video) (nr : Nat) (rest : List Frame) : State :=
  let c := s.tty.writeQ.ring.first
  let t := { s.tty with writeQ := s.tty.writeQ.getch }
  let console := Console.conByte v s.console (UInt8.ofBitVec (t.termios.cCc VERASE))
    (UInt8.ofBitVec c)
  if responds s.console c then
    { s with
      tty := { t with readQ := t.readQ.putAll RESPONSE }
      console := console
      stack := .cook :: .conWrite nr :: rest }
  else { s with tty := t, console := console, stack := .conWrite nr :: rest }

/-- The top frame goes on. -/
def exec (m : Machine) (s : State) : Outcome State :=
  match s.stack with
  | [] => .disabled
  | .cook :: rest => .next (doRound m s rest (cookRound m.stray s.tty))
  | .kill :: rest => .next (doRound m s rest (eraseRound s.tty .killDec))
  | .erase :: rest =>
      .next { s with tty := { s.tty with secondary := s.tty.secondary.dec }, stack := .cook :: rest }
  | .killDec :: rest =>
      .next { s with tty := { s.tty with secondary := s.tty.secondary.dec }, stack := .kill :: rest }
  | .store c :: rest =>
      .next
        { s with
          tty := { s.tty with secondary := s.tty.secondary.putch c }, stack := .cook :: rest }
  | .conWrite 0 :: rest => .next { s with stack := rest }
  | .conWrite (nr + 1) :: rest =>
      match m.kind with
      | .console v => .next (conRound s v nr rest)
      | .serial => .disabled

/-! ### `tty_write` -/

def OPOST : BitVec 32 := 0x1
def OLCUC : BitVec 32 := 0x2
def ONLCR : BitVec 32 := 0x4
def OCRNL : BitVec 32 := 0x8
def ONLRET : BitVec 32 := 0x20

/-- `_O_FLAG`. -/
def oFlag (t : Termios) (f : BitVec 32) : Bool := t.cOflag &&& f ≠ 0

def toupper (stray : Stray) (c : Byte) : Byte :=
  let lower := if c.toInt < -1 then stray.lower c else 97 ≤ c.toInt && c.toInt ≤ 122
  if lower then c - 32 else c

/-- Carriage returns and newlines on output. -/
def outMap (t : Termios) (c : Byte) : Byte :=
  if !oFlag t OPOST then c
  else if c = 13 && oFlag t OCRNL then 10
  else if c = 10 && oFlag t ONLRET then 13
  else c

/-- Small letters on output. -/
def outCase (stray : Stray) (t : Termios) (c : Byte) : Byte :=
  if oFlag t OPOST && oFlag t OLCUC then toupper stray c else c

def setWriter (s : State) (t : Task) (w : Option Writer) : State :=
  { s with writer := Function.update s.writer t w }

def putWrite (s : State) (c : Byte) : State :=
  { s with tty := { s.tty with writeQ := s.tty.writeQ.putch c } }

/-- The inner loop, behind `get_fs_byte`. -/
def putByte (m : Machine) (s : State) (t : Task) (nr : Nat) (c : Byte) : State :=
  let t' := s.tty.termios
  let c := outMap t' c
  if oFlag t' OPOST && c = 10 && !s.crFlag && oFlag t' ONLCR then
    setWriter (putWrite { s with crFlag := true } 13) t (some ⟨nr, .inner⟩)
  else
    setWriter (putWrite { s with crFlag := false } (outCase m.stray t' c)) t
      (some ⟨nr - 1, .inner⟩)

/-- `tty_write` goes on, to its next sleep or interrupt. -/
def goOn (m : Machine) (s : State) (t : Task) (w : Writer) (signal : Bool) (c : Byte) :
    Outcome State :=
  match w.pc with
  | .head =>
      if w.nr = 0 then .next (setWriter s t none)
      else if s.tty.writeQ.ring.isFull then .next (setWriter s t (some { w with pc := .asleep }))
      else if signal then .next (setWriter s t none)
      else .next (setWriter s t (some { w with pc := .inner }))
  | .asleep =>
      if signal then .next (setWriter s t none)
      else if s.tty.writeQ.ring.left < 128 then .disabled
      else .next (setWriter s t (some { w with pc := .inner }))
  | .inner =>
      if w.nr ≠ 0 && !s.tty.writeQ.ring.isFull then
        .next (setWriter s t (some { w with pc := .byte }))
      else .next (callWrite m (setWriter s t (some { w with pc := .head })))
  | .byte => .next (putByte m s t w.nr c)

/-! ### The system -/

inductive Op
  /-- A key, or a byte on the line, and `do_tty_interrupt`. -/
  | received (cs : List Byte)
  | exec
  /-- `write_char`. -/
  | transmit
  | write (t : Task) (nr : Nat)
  /-- With whether there is a signal, and what `get_fs_byte` brings. -/
  | goOn (t : Task) (signal : Bool) (c : Byte)
  /-- `GETCH` in `tty_read`. -/
  | read
  | setTermios (t : Termios)
  /-- `cr_flag` is one for all terminals. -/
  | otherWriter (crFlag : Bool)

/-- Something other than the top frame may go on. -/
def mayRun (m : Machine) (s : State) : Bool :=
  match m.kind with
  | .console _ => true
  | .serial => s.stack.isEmpty

/-- How many bytes come at once. -/
def burst : Kind → Nat
  | .console _ => 8
  | .serial => 1

def setTty (s : State) (t : Tty) : State := { s with tty := t }

def readStep (s : State) : Outcome State :=
  if s.tty.secondary.ring.isEmpty then .disabled
  else
    .next (setTty s
      { s.tty with
        secondary := s.tty.secondary.getch
        data :=
          if s.tty.termios.lineEnd s.tty.secondary.ring.first then s.tty.data - 1
          else s.tty.data })

def transmitStep (s : State) : State :=
  if s.tty.writeQ.ring.isEmpty then { s with transmit := false }
  else
    { s with
      tty := { s.tty with writeQ := s.tty.writeQ.getch }
      transmit := !s.tty.writeQ.getch.ring.isEmpty }

def receivedStep (s : State) (cs : List Byte) : State :=
  { s with
    tty := { s.tty with readQ := s.tty.readQ.receive cs }, stack := .cook :: s.stack }

def step (m : Machine) (s : State) : Op → Outcome State
  | .received cs =>
      if mayRun m s && cs.length ≤ burst m.kind then .next (receivedStep s cs) else .disabled
  | .exec => exec m s
  | .transmit => if mayRun m s && s.transmit then .next (transmitStep s) else .disabled
  | .write t nr =>
      if mayRun m s && (s.writer t).isNone then .next (setWriter s t (some ⟨nr, .head⟩))
      else .disabled
  | .goOn t signal c =>
      match s.writer t with
      | some w => if mayRun m s then goOn m s t w signal c else .disabled
      | none => .disabled
  | .read => if mayRun m s then readStep s else .disabled
  | .setTermios t =>
      if mayRun m s then .next (setTty s { s.tty with termios := t }) else .disabled
  | .otherWriter crFlag => .next { s with crFlag := crFlag }

end LinuxKernel.V011.TtyQueues
