import Mathlib.Data.List.DropRight
import LinuxKernel.Lib.System
import LinuxKernel.V098.Net.Seq

/-!
# LinuxKernel.V098.Net.TcpRcv

The **receiving side of an established connection** in `net/tcp/tcp.c`: `tcp_sequence`,
`tcp_data`, `tcp_send_ack` and `tcp_read`, with the back log of the socket.

- `rqueue` is the ring from `sk->rqueue->next`, the first segment, to `sk->rqueue`.
- Segments come in at any time. `tcp_read` takes one segment a step, and one of the back log a
  step in `release_sock`.
- `tcp_rcv` and what it calls run in one step. `Env` has what comes from outside: `rmem` is
  `sk->rmem_alloc`, `ackOk` what `tcp_ack` returns, `space` what `rspace` returns.
- FIN, SYN, RST and urgent data, the timers and the wait queue are left out.
- `start`, `got` and `acks` are history: the first sequence number of the stream, the segments
  that have been put on the ring, and the numbers that have been acknowledged, the last one first.
-/

namespace LinuxKernel.V098.Net.TcpRcv

def SK_RMEM_MAX : Nat := 32767
def TCP_WINDOW_DIFF : Nat := 2048

/-- `sizeof (struct tcp_header)` -/
def HEADER : Nat := 20

/-- `sizeof (struct sk_buff)` -/
def SK_BUFF : Nat := 52

/-- A segment from the device; `len` is with the header. Its numbers are far from the wrap. -/
structure Packet where
  seq : Nat
  doff : Nat
  len : Nat
  psh : Bool
  ack : Bool
  memLen : Nat
  header : 5 ≤ doff
  whole : doff * 4 ≤ len
  fits : SK_BUFF + len ≤ memLen
  range : seq + (len - doff * 4) < SEQ_WRAP

/-- `len - (th->doff*4)` -/
def Packet.data (p : Packet) : Nat := p.len - p.doff * 4

/-- A segment on the ring, with `th->ack_seq` as `tcp_data` has made it. -/
structure Skb where
  seq : Nat
  len : Nat
  psh : Bool
  ackSeq : Nat
  acked : Bool
  used : Bool
  deriving Repr, DecidableEq

/-- What is left to do in a call of `tcp_read`. -/
structure Read where
  len : Nat
  copied : Nat
  nonblock : Bool
  peek : Bool
  deriving Repr, DecidableEq

/-- Where `tcp_read` is: not running, at its loop with the segment `skb`, in `release_sock` before
it returns or before it waits, at the test before it sleeps, or asleep. -/
inductive Pc
  | idle
  | loop (r : Read) (skb : Option Nat)
  | release (r : Read) (waits : Bool)
  | test (r : Read)
  | sleep (r : Read)
  deriving Repr, DecidableEq

structure State where
  ackedSeq : Nat
  copiedSeq : Nat
  window : Nat
  mtu : Nat
  delayAcks : Bool
  ackBacklog : Nat
  maxAckBacklog : Nat
  bytesRcv : Nat
  maxUnacked : Nat
  inuse : Bool
  rqueue : List Skb
  backLog : List Packet
  pc : Pc
  start : Nat
  got : List (Nat × Nat)
  acks : List Nat

/-- What comes of a try to send. -/
inductive Sent
  | noMemory
  | noRoute
  | sent (space : Nat)
  deriving Repr, DecidableEq

structure Env where
  rmem : Nat
  ackOk : Bool
  resync : Sent
  reply : Sent
  space : Nat
  deriving Repr, DecidableEq

/-! ### Acknowledgements -/

/-- `sk->ack_backlog++` -/
def addBacklog (s : State) : State := { s with ackBacklog := (s.ackBacklog + 1) % 256 }

def tcpSendAck (s : State) (ack : Nat) : Sent → State
  | .noMemory => addBacklog s
  | .noRoute => s
  | .sent space =>
      let s := { s with window := space, acks := ack :: s.acks }
      if ack = s.ackedSeq then { s with ackBacklog := 0, bytesRcv := 0 } else s

/-- A header with an acknowledgement for a segment that is sent. -/
def tcpBuildHeader (s : State) (space : Nat) : State :=
  { s with ackBacklog := 0, bytesRcv := 0, window := space, acks := s.ackedSeq :: s.acks }

/-! ### `tcp_sequence` -/

/-- `th->seq + len-sizeof (*th)` -/
def Packet.last (p : Packet) : Nat := p.seq + p.len - HEADER

/-- The segment is in the window, or its end is. -/
def inWindow (s : State) (p : Packet) : Bool :=
  between p.seq s.ackedSeq (s.ackedSeq + s.window) ||
    between p.last (s.ackedSeq + 1) (s.ackedSeq + s.window)

/-- `in case it's just a late ack, let it through` -/
def lateAck (s : State) (p : Packet) : Bool :=
  p.ack && p.len = p.doff * 4 && after p.seq ((s.ackedSeq + 2 ^ 32 - 4096) % 2 ^ 32)

def tcpSequence (s : State) (p : Packet) (r : Sent) : Bool × State :=
  if inWindow s p then (true, s)
  else if after p.seq (s.ackedSeq + s.window) then (false, tcpSendAck s s.ackedSeq r)
  else
    let s' := tcpSendAck (if p.len ≠ p.doff * 4 then { s with delayAcks := false } else s)
      s.ackedSeq r
    (lateAck s p, s')

/-! ### `tcp_data` -/

/-- The walk from the last segment back stops here. -/
def isBehind (seq : Nat) (e : Skb) : Bool := after (seq + 1) e.seq

/-- The segments that a new one goes behind. -/
def front (q : List Skb) (seq : Nat) : List Skb := q.rdropWhile fun e => !isBehind seq e

def behind (q : List Skb) (seq : Nat) : List Skb := q.rtakeWhile fun e => !isBehind seq e

/-- The walk over the segments behind a new one, with `sk->acked_seq`. -/
def ackNext (ackedSeq : Nat) : List Skb → Nat × List Skb
  | [] => (ackedSeq, [])
  | e :: l =>
      if before e.seq (ackedSeq + 1) then
        let r := ackNext e.ackSeq l
        (r.1, { e with acked := true } :: r.2)
      else (ackedSeq, e :: l)

def newSkb (p : Packet) : Skb :=
  { seq := p.seq, len := p.data, psh := p.psh, ackSeq := p.seq + p.data, acked := false,
    used := false }

/-- The segment is where the next bytes are due. -/
def ackData (s : State) (p : Packet) (r : Sent) : State :=
  let walked := ackNext (p.seq + p.data) (behind s.rqueue p.seq)
  let s' := { s with
    ackedSeq := walked.1
    rqueue := front s.rqueue p.seq ++ { newSkb p with acked := true } :: walked.2
    ackBacklog :=
      -- `force an immediate ack`
      if (behind s.rqueue p.seq).head?.any fun e => before e.seq (p.seq + p.data + 1) then
        s.maxAckBacklog
      else s.ackBacklog }
  if s'.delayAcks = false ∨ s'.maxAckBacklog ≤ s'.ackBacklog ∨
      s'.window < 2 * s'.mtu + s'.bytesRcv ∨ s'.maxUnacked < s'.bytesRcv then
    tcpSendAck s' s'.ackedSeq r
  else addBacklog s'

/-- The segment goes on the ring, and maybe something can be acknowledged. -/
def queueData (s : State) (p : Packet) (r : Sent) : State :=
  let s := { s with got := (p.seq, p.data) :: s.got }
  let s := if before s.ackedSeq s.copiedSeq then { s with ackedSeq := s.copiedSeq } else s
  if before p.seq (s.ackedSeq + 1) then ackData s p r
  else
    let s' := { s with rqueue := front s.rqueue p.seq ++ newSkb p :: behind s.rqueue p.seq }
    match (front s.rqueue p.seq).getLast? with
    | some e => if e.acked then s' else tcpSendAck s' s'.ackedSeq r
    | none => s'

def tcpData (s : State) (p : Packet) (r : Sent) : State :=
  let s := { s with bytesRcv := (s.bytesRcv + p.data) % 2 ^ 16 }
  if p.data = 0 ∧ p.psh = false then
    if p.ack then s else tcpSendAck s s.ackedSeq r
  else queueData s p r

/-- `tcp_rcv`, from the charge on. -/
def tcpRcv (s : State) (p : Packet) (e : Env) : State :=
  if SK_RMEM_MAX ≤ e.rmem + p.memLen then s
  else
    let r := tcpSequence s p e.resync
    if r.1 then
      if p.ack ∧ e.ackOk = false then r.2
      else tcpData r.2 p e.reply
    else r.2

/-! ### `tcp_read` -/

/-- `sk->window - sk->bytes_rcv` -/
def windowLeft (s : State) : Int := (s.window : Int) - s.bytesRcv

def cleanupRbuf (s : State) (space : Nat) : State :=
  let s := { s with rqueue := s.rqueue.dropWhile Skb.used }
  -- the comparison is of unsigned numbers
  if (windowLeft s + TCP_WINDOW_DIFF) % 2 ^ 32 < space ∨ windowLeft s < 2 * s.mtu then addBacklog s
  else s

/-- `sk->rqueue->next`, where there is one. -/
def firstSkb (s : State) : Option Nat := if s.rqueue = [] then none else some 0

/-- `skb->next` -/
def nextSkb (s : State) (i : Nat) : Option Nat := some ((i + 1) % s.rqueue.length)

def setUsed (s : State) (i : Nat) : State :=
  { s with rqueue := s.rqueue.modify i fun e => { e with used := true } }

/-- `offset`, an `unsigned long` -/
def offset (s : State) (e : Skb) : Nat := (s.copiedSeq + 1 + 2 ^ 32 - e.seq) % 2 ^ 32

/-- `min(skb->len - offset, len)` -/
def amount (s : State) (e : Skb) (r : Read) : Nat := min (e.len - offset s e) r.len

/-- Bytes of the segment are copied, with some left to do, or none. -/
def copyData (s : State) (r : Read) (i : Nat) (e : Skb) (space : Nat) : State :=
  let used := amount s e r
  let r' := { r with len := r.len - used, copied := r.copied + used }
  let s' :=
    if r.peek then s
    else
      let s' := { s with copiedSeq := s.copiedSeq + used }
      if e.len ≤ used + offset s e then setUsed s' i else s'
  if e.psh ∨ r'.len = 0 then { cleanupRbuf s' space with pc := .release r' false }
  else { s' with pc := .loop r' (nextSkb s' i) }

/-- There is nothing to read at `skb`. -/
def waitData (s : State) (r : Read) (space : Nat) : State :=
  { cleanupRbuf s space with pc := .release r (!(r.nonblock || r.peek && r.copied ≠ 0)) }

/-- The loop of `tcp_read`. -/
def readLoop (s : State) (r : Read) (skb : Option Nat) (space : Nat) : State :=
  match skb.bind fun i => (s.rqueue[i]?).map fun e => (i, e) with
  | none => waitData s r space
  | some (i, e) =>
      if before (s.copiedSeq + 1) e.seq || e.used then waitData s r space
      else if offset s e < e.len then copyData s r i e space
      else
        -- `already used this data, must be a retransmit`
        let s' := setUsed s i
        { s' with pc := .loop r (nextSkb s' i) }

def startRead (s : State) (r : Read) : State :=
  { s with inuse := true, pc := .loop r (firstSkb s) }

/-- `release_sock` -/
def release (s : State) (r : Read) (waits : Bool) (e : Env) : State :=
  match s.backLog with
  | p :: l => tcpRcv { s with backLog := l } p e
  | [] => { s with inuse := false, pc := if waits then .test r else .idle }

/-- There is nothing to read on the ring. -/
def noData (s : State) : Bool :=
  match s.rqueue with
  | [] => true
  | e :: _ => before (s.copiedSeq + 1) e.seq

/-! ### The system -/

/-- A segment comes in; `tcp_read` is called, goes on, or gets a signal while it sleeps; a segment
is sent. -/
inductive Act
  | arrive (p : Packet) (e : Env)
  | read (r : Read)
  | go (e : Env)
  | signal
  | send (space : Nat)

def go (s : State) (e : Env) : Outcome State :=
  match s.pc with
  | .idle => .disabled
  | .loop r skb => .next (readLoop s r skb e.space)
  | .release r waits => .next (release s r waits e)
  | .test r => .next (if noData s then { s with pc := .sleep r } else startRead s r)
  | .sleep r => .next (startRead s r)

def step (s : State) : Act → Outcome State
  | .arrive p e =>
      if s.inuse then .next { s with backLog := s.backLog ++ [p] } else .next (tcpRcv s p e)
  | .read r =>
      if s.pc = .idle ∧ r.copied = 0 ∧ 0 < r.len then .next (startRead s r) else .disabled
  | .go e => go s e
  | .signal =>
      match s.pc with
      | .sleep _ => .next { s with pc := .idle }
      | _ => .disabled
  | .send space => .next (tcpBuildHeader s space)

/-! ### What has to hold -/

/-- The byte has come in and has been put on the ring. -/
def Held (s : State) (b : Nat) : Prop := ∃ g ∈ s.got, g.1 ≤ b ∧ b < g.1 + g.2

/-- A connection has been established, and nothing has come in. -/
structure Init (s : State) : Prop where
  acked : s.ackedSeq = s.start
  copied : s.copiedSeq + 1 = s.start
  range : s.start < SEQ_WRAP
  inuse : s.inuse = false
  rqueue : s.rqueue = []
  backLog : s.backLog = []
  pc : s.pc = .idle
  got : s.got = []
  acks : s.acks = []

/-- `acked_seq` is the first number of a byte that has not come in, and no acknowledgement has been
for more, or for less than one before it. -/
structure Sound (s : State) : Prop where
  held : ∀ b, s.start ≤ b → b < s.ackedSeq → Held s b
  first : ¬ Held s s.ackedSeq
  acks : ∀ a ∈ s.acks, a ≤ s.ackedSeq
  order : s.acks.Pairwise (· ≥ ·)

/-! ### The condition -/

/-- No segment ends before the place that the ones before it come to. -/
def NoDip (n : Nat) : List Skb → Prop
  | [] => True
  | e :: l => e.seq ≤ n → n ≤ e.seq + e.len ∧ NoDip (e.seq + e.len) l

instance decidableNoDip : ∀ (l : List Skb) (n : Nat), Decidable (NoDip n l)
  | [], _ => isTrue trivial
  | e :: l, n =>
      have := decidableNoDip l (e.seq + e.len)
      inferInstanceAs (Decidable (e.seq ≤ n → n ≤ e.seq + e.len ∧ NoDip (e.seq + e.len) l))

/-- The segment comes to the ring. -/
def Queued (s : State) (p : Packet) (e : Env) : Prop :=
  e.rmem + p.memLen < SK_RMEM_MAX ∧ (tcpSequence s p e.resync).1 = true ∧
    (p.ack = true → e.ackOk = true) ∧ (p.data = 0 → p.psh = true)

instance (s : State) (p : Packet) (e : Env) : Decidable (Queued s p e) :=
  inferInstanceAs (Decidable (_ ∧ _))

/-- The last segment that does not begin after the new one begins less than 32766 before it. -/
def Near (q : List Skb) (seq : Nat) : Prop :=
  ∀ e ∈ (q.filter fun e => e.seq ≤ seq).getLast?, seq + 1 < e.seq + 32767

instance (q : List Skb) (seq : Nat) : Decidable (Near q seq) :=
  inferInstanceAs (Decidable (∀ e ∈ (q.filter fun e => e.seq ≤ seq).getLast?, seq + 1 < e.seq + 32767))

/-- A segment that comes to the ring and begins where the next bytes are due, or before, does not
end before that, nor a segment behind it before what is there without a gap. -/
def RcvFits (s : State) (p : Packet) (e : Env) : Prop :=
  Queued s p e → Near s.rqueue p.seq ∧
    (p.seq ≤ s.ackedSeq → s.ackedSeq ≤ p.seq + p.data ∧
      NoDip (p.seq + p.data) (s.rqueue.filter fun e => p.seq < e.seq))

instance (s : State) (p : Packet) (e : Env) : Decidable (RcvFits s p e) :=
  inferInstanceAs (Decidable (_ → _))

/-- The segment that `tcp_read` looks at begins less than 32767 behind the next byte to read. -/
def ReadFits (s : State) (skb : Option Nat) : Prop :=
  ∀ i ∈ skb, ∀ e ∈ s.rqueue[i]?, e.seq < s.copiedSeq + 1 + 32767

instance (s : State) (skb : Option Nat) : Decidable (ReadFits s skb) :=
  inferInstanceAs (Decidable (∀ i ∈ skb, ∀ e ∈ s.rqueue[i]?, e.seq < s.copiedSeq + 1 + 32767))

def Fits (s : State) : Act → Prop
  | .arrive p e => s.inuse = false → RcvFits s p e
  | .go e =>
      match s.pc with
      | .loop _ skb => ReadFits s skb
      | .release _ _ =>
          match s.backLog with
          | p :: l => RcvFits { s with backLog := l } p e
          | [] => True
      | .idle | .test _ | .sleep _ => True
  | .read _ | .signal | .send _ => True

instance (s : State) (a : Act) : Decidable (Fits s a) := by
  unfold Fits
  split
  · infer_instance
  · split
    · infer_instance
    · split <;> infer_instance
    all_goals infer_instance
  all_goals infer_instance

end LinuxKernel.V098.Net.TcpRcv
