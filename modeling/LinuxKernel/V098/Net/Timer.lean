import LinuxKernel.Lib.Chain
import LinuxKernel.Lib.System
import LinuxKernel.V098.Net.Seq

/-!
# LinuxKernel.V098.Net.Timer

`net/tcp/timer.c`: the **timers of the sockets**, in a list from `timer_base` on.

- A socket has one timer, `time_wait`; both have the same number here.
- `net_timer` runs from the timer interrupt and takes several steps. In between it calls
  functions of the protocols, which reset and delete timers and change sockets at will
  (`Pc.wake`, `Pc.tail`).
- `armed` and `ran` are history: the timers that are set, and whether `net_timer` has just run.
-/

namespace LinuxKernel.V098.Net.Timer

def TCP_RETR2 : Nat := 10
def TCP_TIMEOUT_LEN : Nat := 720000
def TCP_TIMEWAIT_LEN : Nat := 6000

/-- The shortest time that the stack sets a timer to. -/
def MIN_LEN : Nat := 10

/-- Why a socket is on the timer. -/
inductive Why
  | none
  | write
  | close
  | keepopen
  | destroy
  | done
  deriving Repr, DecidableEq

inductive TcpState
  | established
  | synSent
  | synRecv
  | finWait1
  | finWait2
  | timeWait
  | close
  | lastAck
  | listen
  deriving Repr, DecidableEq

/-- What `net_timer` reads of `struct sock`; `sendHead` and `wfront` say that there is one. -/
structure Sock where
  inuse : Bool
  keepopen : Bool
  ackBacklog : Bool
  timeout : Why
  state : TcpState
  sendHead : Bool
  wfront : Bool
  retransmits : Nat
  rtt : Nat
  deriving Repr, DecidableEq

/-- Where `net_timer` is: not running, at its loop, behind `read_wakeup`, at the `switch`, at
`TIME_KEEPOPEN`, in `reset_timer` of `b`, behind that one under `TIME_DESTROY`, or in one of the
functions at the end of a case. -/
inductive Pc
  | idle
  | loop
  | wake (b : Nat) (why : Why)
  | select (b : Nat) (why : Why)
  | keepopen (b : Nat)
  | reset (b : Nat) (next : Pc)
  | release (b : Nat)
  | tail (b : Nat)
  deriving Repr, DecidableEq

structure State where
  timerBase : Option Nat
  next : Nat → Option Nat
  when_ : Nat → Nat
  len : Nat → Nat
  /-- `timer_table[NET_TIMER].expires` -/
  expires : Nat
  /-- The bit of `NET_TIMER` in `timer_active`. -/
  active : Bool
  jiffies : Nat
  sock : Nat → Sock
  pc : Pc
  armed : List Nat
  ran : Bool

def setSock (s : State) (b : Nat) (sk : Sock) : State :=
  { s with sock := Function.update s.sock b sk }

def setLen (s : State) (b n : Nat) : State := { s with len := Function.update s.len b n }

/-! ### The list -/

def deleteTimer (s : State) (t : Nat) : Outcome State :=
  let s' := { s with armed := s.armed.filter (· ≠ t) }
  match s.timerBase with
  | none => .next s'
  | some b =>
      if t = b then
        match s.next t with
        | some n =>
            .next { s' with timerBase := some n, expires := s.when_ n, active := true }
        | none => .next { s' with timerBase := none, active := false }
      else
        match walk s.next (fun tm => s.next tm = some t) (s.armed.length + 1) (some b) with
        | none => .panic "the loop of delete_timer goes on"
        | some none => .next s'
        | some (some tm) => .next { s' with next := Function.update s.next tm (s.next t) }

/-- `t` goes to the beginning. -/
def putFirst (s : State) (t : Nat) : State :=
  { s with
    next := Function.update s.next t s.timerBase
    timerBase := some t
    expires := s.when_ t
    active := true }

/-- `t` goes behind `tm`. -/
def stopsAt (s : State) (t tm : Nat) : Bool :=
  match s.next tm with
  | none => true
  | some n => before (s.when_ t) (s.when_ n)

/-- `reset_timer`, behind `delete_timer`. -/
def insertTimer (s : State) (t : Nat) : Outcome State :=
  let s := { s with
    when_ := Function.update s.when_ t (s.jiffies + s.len t)
    armed := t :: s.armed }
  match s.timerBase with
  | none => .next (putFirst s t)
  | some b =>
      if before (s.when_ t) (s.when_ b) then .next (putFirst s t)
      else
        match walk s.next (stopsAt s t) s.armed.length (some b) with
        | some (some tm) =>
            .next { s with
              next := Function.update (Function.update s.next t (s.next tm)) tm (some t) }
        | _ => .panic "the loop of reset_timer goes on"

def resetTimer (s : State) (t : Nat) : Outcome State :=
  (deleteTimer s t).bind fun s => insertTimer s t

/-! ### `net_timer` -/

/-- The end of `net_timer`. -/
def finish (s : State) : State :=
  match s.timerBase with
  | none => { s with pc := .idle, ran := true }
  | some b => { s with expires := s.when_ b, active := true, pc := .idle, ran := true }

/-- `while (timer_base != NULL && after (timer_seq+1, timer_base->when))`, and from there to the
`switch`. -/
def loop (s : State) : Outcome State :=
  match s.timerBase with
  | none => .next (finish s)
  | some b =>
      let sk := s.sock b
      if after (s.jiffies + 1) (s.when_ b) = false then .next (finish s)
      else if sk.inuse then .next (finish s)
      else
        let behind := if sk.ackBacklog then Pc.wake b sk.timeout else Pc.select b sk.timeout
        if sk.keepopen then
          .next { setLen (setSock s b { sk with inuse := true, timeout := .keepopen }) b
            TCP_TIMEOUT_LEN with pc := .reset b behind }
        else
          deleteTimer { setSock s b { sk with inuse := true, timeout := .none } with pc := behind } b

/-- `case TIME_KEEPOPEN` -/
def keepopen (s : State) (b : Nat) : State :=
  let sk := { s.sock b with retransmits := (s.sock b).retransmits + 1 }
  if TCP_RETR2 < sk.retransmits ∧ (sk.state = .finWait1 ∨ sk.state = .finWait2) then
    { setSock s b { sk with state := .timeWait } with pc := .tail b }
  else { setSock s b sk with pc := .tail b }

/-- The `switch`. -/
def select (s : State) (b : Nat) : Why → Outcome State
  | .none | .done => .next { s with pc := .tail b }
  | .destroy => .next { s with pc := .reset b (.release b) }
  | .close =>
      deleteTimer { setSock s b { s.sock b with state := .close } with pc := .tail b } b
  | .write =>
      let sk := s.sock b
      if sk.sendHead then
        let sk := { sk with retransmits := sk.retransmits + 1 }
        if TCP_RETR2 < sk.retransmits ∧
            (sk.state = .finWait1 ∨ sk.state = .finWait2 ∨ sk.state = .lastAck) then
          .next { setLen (setSock s b { sk with state := .timeWait, timeout := .close }) b
            TCP_TIMEWAIT_LEN with pc := .reset b (.tail b) }
        else .next { setSock s b sk with pc := .tail b }
      else if sk.wfront then
        let rtt := sk.rtt * 2
        .next { setLen (setSock s b { sk with rtt, timeout := .write }) b (rtt * 2) with
          pc := .reset b (.keepopen b) }
      else .next { s with pc := .tail b }
  | .keepopen => .next (keepopen s b)

/-! ### The system -/

inductive Op
  | reset (t : Nat)
  | delete (t : Nat)
  | setLen (t n : Nat)
  | setSock (t : Nat) (sk : Sock)
  deriving Repr, DecidableEq

/-- `tick` is a timer interrupt. -/
inductive Act
  | op (o : Op)
  | tick
  | go
  deriving Repr, DecidableEq

/-- The timer is set to a time that the stack uses, and ends before the ticks wrap. -/
def Settable (s : State) (t : Nat) : Prop :=
  MIN_LEN ≤ s.len t ∧ s.len t ≤ TCP_TIMEOUT_LEN ∧ s.jiffies + s.len t < SEQ_WRAP

instance (s : State) (t : Nat) : Decidable (Settable s t) := inferInstanceAs (Decidable (_ ∧ _))

/-- Other code than that of `net_timer` runs. -/
def outside : Pc → Bool
  | .idle | .wake _ _ | .tail _ => true
  | .loop | .select _ _ | .keepopen _ | .reset _ _ | .release _ => false

def doOp (s : State) : Op → Outcome State
  | .reset t => if Settable s t then resetTimer s t else .disabled
  | .delete t => deleteTimer s t
  | .setLen t n => .next (setLen s t n)
  | .setSock t sk => .next (setSock s t sk)

/-- `do_timer`, as far as it is about this timer. -/
def tick (s : State) : State :=
  let s := { s with jiffies := s.jiffies + 1 }
  if s.active ∧ s.expires ≤ s.jiffies then { s with active := false, pc := .loop } else s

/-- `net_timer` goes on. -/
def go (s : State) : Outcome State :=
  match s.pc with
  | .idle => .disabled
  | .loop => loop s
  | .wake b why | .select b why => select s b why
  | .keepopen b => .next (keepopen s b)
  | .reset b next => if Settable s b then resetTimer { s with pc := next } b else .disabled
  | .release b => .next { setSock s b { s.sock b with inuse := false } with pc := .loop }
  | .tail _ => .next { s with pc := .loop }

def step (s : State) : Act → Outcome State
  | .op o => if outside s.pc then doOp { s with ran := false } o else .disabled
  | .tick =>
      if s.pc = .idle ∧ s.jiffies + 1 < SEQ_WRAP then .next (tick { s with ran := false })
      else .disabled
  | .go => go s

/-! ### What has to hold -/

/-- Before any timer is set. -/
structure Init (s : State) : Prop where
  timerBase : s.timerBase = none
  armed : s.armed = []
  pc : s.pc = .idle
  ran : s.ran = false
  jiffies : s.jiffies < SEQ_WRAP

structure Sound (s : State) : Prop where
  /-- Each armed timer is on the list once, in the order of the deadlines. -/
  list : ∃ l, Chain s.next s.timerBase l ∧ l.Nodup ∧ (∀ t, t ∈ l ↔ t ∈ s.armed) ∧
    l.Pairwise fun t u => s.when_ t ≤ s.when_ u
  expires : s.timerBase ≠ none →
    (∃ t ∈ s.armed, s.expires = s.when_ t) ∧ ∀ t ∈ s.armed, s.expires ≤ s.when_ t
  /-- No timer of a socket that is not in use has been left over. -/
  fired : s.ran = true → ∀ t ∈ s.armed, (s.sock t).inuse = false → s.jiffies < s.when_ t
  panic : ∀ a msg, step s a ≠ .panic msg

/-- If there are deadlines behind the new one of `t`, the next of them is closer than 32767
ticks. -/
def Near (s : State) (t : Nat) : Prop :=
  (∃ u ∈ s.armed, u ≠ t ∧ s.jiffies + s.len t < s.when_ u) →
    ∃ u ∈ s.armed, u ≠ t ∧ s.jiffies + s.len t < s.when_ u ∧
      s.when_ u < s.jiffies + s.len t + 32767

/-- If the first timer's socket is in use, or its deadline is 32766 ticks ago, then no timer of a
socket that is not in use has come to its deadline. -/
def Ready (s : State) : Prop :=
  ∀ b, s.timerBase = some b → (s.sock b).inuse = true ∨ s.when_ b + 32766 ≤ s.jiffies →
    ∀ t ∈ s.armed, (s.sock t).inuse = false → s.jiffies < s.when_ t

/-- The condition on a step. -/
def Timely (s : State) : Act → Prop
  | .op (.reset t) => Near s t
  | .go =>
      match s.pc with
      | .reset b _ => Near s b
      | .loop => Ready s
      | _ => True
  | .op (.delete _) | .op (.setLen _ _) | .op (.setSock _ _) | .tick => True

instance (s : State) (t : Nat) : Decidable (Near s t) := inferInstanceAs (Decidable (_ → _))

instance (s : State) : Decidable (Ready s) :=
  match h : s.timerBase with
  | none => isTrue fun b hb => by rw [h] at hb; cases hb
  | some b =>
      decidable_of_iff ((s.sock b).inuse = true ∨ s.when_ b + 32766 ≤ s.jiffies →
        ∀ t ∈ s.armed, (s.sock t).inuse = false → s.jiffies < s.when_ t)
        ⟨fun hb c hc => by rw [h] at hc; rwa [← Option.some.inj hc], fun hs => hs b h⟩

end LinuxKernel.V098.Net.Timer
