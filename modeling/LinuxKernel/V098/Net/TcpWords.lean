import LinuxKernel.V098.Net.SeqWords
import LinuxKernel.V098.Net.TcpRcv

/-!
# LinuxKernel.V098.Net.TcpWords

**What sequence numbers decide in TCP**: `tcp_sequence`, `tcp_ack` and `tcp_data` of
`net/tcp/tcp.c`, with `tcp_send_ack` and `tcp_write_xmit`, on words of 32 bits.

- `rqueue` is the ring from `sk->rqueue->next` to `sk->rqueue`; `sendQueue` is the list from
  `sk->send_head` on, and `writeQueue` that from `sk->wfront` on.
- `out` has what is sent, the last one first.
- `Sent` is what comes of the memory and the route for an acknowledgement, as in `TcpRcv`.
- Timers, the round trip time, wake-ups and the lists of the device are left out.
-/

namespace LinuxKernel.V098.Net.SeqWords

open TcpRcv (Sent)

/-- In the order of the numbers, with `TCP_CLOSING` behind the first three. -/
inductive TcpState
  | established
  | synSent
  | synRecv
  | finWait1
  | finWait2
  | timeWait
  | close
  | lastAck
  | listen
  deriving DecidableEq

/-- `sk->state > TCP_CLOSING` -/
def TcpState.isClosing : TcpState → Bool
  | established | synSent | synRecv => false
  | finWait1 | finWait2 | timeWait | close | lastAck | listen => true

/-- A header that has come in; `ackSeq` and `window` are in host order. -/
structure Header where
  seq : Word
  ackSeq : Word
  window : Word
  doff : Nat
  fin : Bool
  syn : Bool
  rst : Bool
  psh : Bool
  ack : Bool
  urg : Bool

/-- A segment on the ring, with `th->ack_seq` as `tcp_data` has made it. -/
structure Skb where
  seq : Word
  ackSeq : Word
  len : Int
  acked : Bool

/-- A segment to be sent; `seq` is `h.seq`. -/
structure Segment where
  seq : Word
  free : Bool

inductive Out
  | ack (seq ackSeq : Word)
  | segment (x : Segment)
  | retransmit (x : Segment)

structure Sock where
  state : TcpState
  sendSeq : Word
  ackedSeq : Word
  copiedSeq : Word
  rcvAckSeq : Word
  windowSeq : Word
  finSeq : Word
  window : Word
  mtu : Nat
  bytesRcv : Nat
  maxUnacked : Nat
  delayAcks : Bool
  ackBacklog : Nat
  maxAckBacklog : Nat
  rcvShutdown : Bool
  expGrowth : Bool
  congWindow : Nat
  packetsOut : Nat
  retransmits : Int
  rqueue : List Skb
  sendQueue : List Segment
  writeQueue : List Segment
  out : List Out

/-! ### `tcp_send_ack` -/

/-- `sk->ack_backlog++` -/
def addBacklog (s : Sock) : Sock := { s with ackBacklog := (s.ackBacklog + 1) % 256 }

def tcpSendAck (s : Sock) (sequence ack : Word) : Sent → Sock
  | .noMemory => addBacklog s
  | .noRoute => s
  | .sent space =>
      let s := { s with
        window := BitVec.ofNat 32 (space % 2 ^ 16)
        out := .ack sequence ack :: s.out }
      if ack = s.ackedSeq then { s with ackBacklog := 0, bytesRcv := 0 } else s

/-! ### `tcp_sequence` -/

/-- `th->seq + len-sizeof (*th)` -/
def lastSeq (th : Header) (len : Int) : Word := th.seq + (BitVec.ofInt 32 len - 20)

/-- The segment is in the window, or its end is. -/
def inWindow (s : Sock) (th : Header) (len : Int) : Bool :=
  between th.seq s.ackedSeq (s.ackedSeq + s.window) ||
    between (lastSeq th len) (s.ackedSeq + 1) (s.ackedSeq + s.window)

/-- `if it's too far ahead` -/
def tooFar (s : Sock) (th : Header) : Bool := after th.seq (s.ackedSeq + s.window)

/-- `in case it's just a late ack, let it through` -/
def lateAck (s : Sock) (th : Header) (len : Int) : Bool :=
  th.ack && len = th.doff * 4 && after th.seq (s.ackedSeq - 4096) && !th.fin && !th.syn

def tcpSequence (s : Sock) (th : Header) (len : Int) (r : Sent) : Bool × Sock :=
  if inWindow s th len then (true, s)
  else if tooFar s th then (false, tcpSendAck s s.sendSeq s.ackedSeq r)
  else
    let s' :=
      if th.rst then s
      else
        tcpSendAck
          (if len ≠ th.doff * 4 ∨ th.fin ∨ th.syn then { s with delayAcks := false } else s)
          th.ackSeq s.ackedSeq r
    (lateAck s th len, s')

/-! ### `tcp_ack` -/

/-- `we don't want too many packets out there` -/
def openWindow (s : Sock) (ack : Word) : Sock :=
  if s.congWindow < 2048 ∧ ack ≠ s.rcvAckSeq then
    { s with congWindow := if s.expGrowth then s.congWindow * 2 else s.congWindow + 1 }
  else s

/-- The loop over the retransmit queue. -/
def takeAcked (ack : Word) : List Segment → Nat → List Segment × Nat
  | [], packetsOut => ([], packetsOut)
  | x :: l, packetsOut =>
      if before x.seq (ack + 1) then takeAcked ack l ((packetsOut + 0xffff) % 2 ^ 16)
      else (x :: l, packetsOut)

/-- `sk->prot->queue_xmit(sk, skb->dev, skb, skb->free)` -/
def queueXmit (s : Sock) (x : Segment) : Sock :=
  let s := { s with out := .segment x :: s.out }
  if x.free then s
  else { s with packetsOut := (s.packetsOut + 1) % 2 ^ 16, sendQueue := s.sendQueue ++ [x] }

/-- `tcp_write_xmit`, with the write queue apart. -/
def writeXmit : List Segment → Sock → Sock
  | [], s => { s with writeQueue := [] }
  | x :: l, s =>
      if before x.seq s.windowSeq ∧ s.packetsOut < s.congWindow then writeXmit l (queueXmit s x)
      else { s with writeQueue := x :: l }

/-- The loop of `ip_retransmit` with `all`: what is sent again. Devices are up. -/
def ipRetransmit (congWindow : Nat) : List Segment → Int → List Segment
  | [], _ => []
  | x :: l, retransmits =>
      if retransmits + 1 > congWindow then [x]
      else x :: ipRetransmit congWindow l (retransmits + 1)

/-- `sk->prot->retransmit (sk,1)`, where something had to be sent again. -/
def retransmit (s : Sock) : Sock :=
  if s.retransmits ≠ 0 ∧ s.sendQueue ≠ [] then
    { s with
      out :=
        (ipRetransmit s.congWindow s.sendQueue s.retransmits).reverse.map Out.retransmit ++ s.out
      retransmits := 0 }
  else { s with retransmits := 0 }

/-- `maybe we can take some stuff off of the write queue` -/
def tryXmit (s : Sock) : Sock :=
  match s.writeQueue with
  | [] => s
  | x :: l =>
      if s.packetsOut < s.congWindow ∧ after s.windowSeq x.seq then writeXmit (x :: l) s else s

/-- `see if we are done` -/
def ackTimeWait (s : Sock) : Sock :=
  if s.state = .timeWait then { s with state := .close } else s

def ackFinWait (s : Sock) : Sock :=
  if s.state = .finWait1 ∧ s.rcvAckSeq = s.sendSeq then { s with state := .finWait2 } else s

def ackLast (s : Sock) : Sock :=
  if s.state = .lastAck ∧ s.rcvAckSeq = s.sendSeq then
    if s.ackedSeq ≠ s.finSeq then { s with state := .timeWait } else { s with state := .close }
  else s

def ackWindow (s : Sock) (th : Header) : Sock :=
  openWindow { s with windowSeq := th.ackSeq + th.window } th.ackSeq

def ackSends (s : Sock) (ack : Word) : Sock :=
  let r := takeAcked ack s.sendQueue s.packetsOut
  { s with rcvAckSeq := ack, sendQueue := r.1, packetsOut := r.2 }

/-- Behind the checks. -/
def takeAck (s : Sock) (th : Header) : Sock :=
  let s := ackSends (ackWindow s th) th.ackSeq
  ackLast (ackFinWait (ackTimeWait (tryXmit (retransmit s))))

def tcpAck (s : Sock) (th : Header) : Bool × Sock :=
  let ack := th.ackSeq
  if between ack s.rcvAckSeq s.sendSeq then (true, takeAck s th)
  else if after ack s.sendSeq ∨ s.state ≠ .established then (false, s)
  else (true, { s with retransmits := 0 })

/-! ### `tcp_data` -/

/-- The walk from the last segment back stops here. -/
def isBehind (seq : Word) (e : Skb) : Bool := after (seq + 1) e.seq

/-- The segments that a new one goes behind. -/
def front (q : List Skb) (seq : Word) : List Skb := q.rdropWhile fun e => !isBehind seq e

def behind (q : List Skb) (seq : Word) : List Skb := q.rtakeWhile fun e => !isBehind seq e

/-- The walk over the segments behind a new one, with `sk->acked_seq`; whether it has come to a
segment. -/
def ackNext (ackedSeq : Word) : List Skb → Word × List Skb
  | [] => (ackedSeq, [])
  | e :: l =>
      if before e.seq (ackedSeq + 1) then
        let r := ackNext e.ackSeq l
        (r.1, { e with acked := true } :: r.2)
      else (ackedSeq, e :: l)

def bit (b : Bool) : Word := if b then 1 else 0

/-- `skb->len`, and the segment with `th->ack_seq`. -/
def newSkb (th : Header) (len : Int) : Skb where
  seq := th.seq
  ackSeq := th.seq + (BitVec.ofInt 32 (len - th.doff * 4) + bit th.syn + bit th.fin)
  len := len - th.doff * 4
  acked := false

/-- The segment is where the next bytes are due. -/
def ackQueue (s : Sock) (th : Header) (len : Int) : Sock :=
  let skb := newSkb th len
  let walked := ackNext skb.ackSeq (behind s.rqueue th.seq)
  { s with
    ackedSeq := walked.1
    rqueue := front s.rqueue th.seq ++ { skb with acked := true } :: walked.2
    ackBacklog :=
      -- `force an immediate ack`
      if (behind s.rqueue th.seq).head?.any fun e => before e.seq (skb.ackSeq + 1) then
        s.maxAckBacklog
      else s.ackBacklog }

def ackData (s : Sock) (th : Header) (len : Int) (r : Sent) : Sock :=
  let s' := ackQueue s th len
  if s'.delayAcks = false ∨ s'.maxAckBacklog ≤ s'.ackBacklog ∨
      s'.window.toNat < 2 * s'.mtu + s'.bytesRcv ∨ s'.maxUnacked < s'.bytesRcv ∨ th.fin then
    tcpSendAck s' s'.sendSeq s'.ackedSeq r
  else addBacklog s'

/-- `if (before (sk->acked_seq, sk->copied_seq)) sk->acked_seq = sk->copied_seq` -/
def catchUp (s : Sock) : Sock :=
  if before s.ackedSeq s.copiedSeq then { s with ackedSeq := s.copiedSeq } else s

/-- The segment goes on the ring, and maybe something can be acknowledged. -/
def queueData (s : Sock) (th : Header) (len : Int) (r : Sent) : Sock :=
  let s := catchUp s
  if before th.seq (s.ackedSeq + 1) then ackData s th len r
  else
    let s' := { s with
      rqueue := front s.rqueue th.seq ++ newSkb th len :: behind s.rqueue th.seq }
    match (front s.rqueue th.seq).getLast? with
    | some e => if e.acked then s' else tcpSendAck s' s'.sendSeq s'.ackedSeq r
    | none => s'

/-- The last lines: `sk->state > TCP_CLOSING && sk->acked_seq == sk->fin_seq`. -/
def dataState (s : Sock) : Sock :=
  if s.state.isClosing ∧ s.ackedSeq = s.finSeq then { s with state := .close } else s

/-- `sk->acked_seq = th->ack_seq` -/
def setAcked (s : Sock) (ackedSeq : Word) : Sock := { s with ackedSeq := ackedSeq }

/-- `just ack everything` -/
def discardData (s : Sock) (th : Header) (len : Int) (r : Sent) : Sock :=
  let ackedSeq := (newSkb th len).ackSeq
  let s := tcpSendAck (setAcked s ackedSeq) s.sendSeq ackedSeq r
  if s.state = .timeWait ∧ s.ackedSeq = s.finSeq then { s with state := .close } else s

/-- `sk->bytes_rcv += skb->len` -/
def addBytes (s : Sock) (th : Header) (len : Int) : Sock :=
  { s with bytesRcv := ((s.bytesRcv + (len - th.doff * 4)) % 2 ^ 16).toNat }

def tcpData (s : Sock) (th : Header) (len : Int) (r : Sent) : Sock :=
  let s := addBytes s th len
  if len - th.doff * 4 = 0 ∧ !th.fin ∧ !th.urg ∧ !th.psh then
    if th.ack then s else tcpSendAck s s.sendSeq s.ackedSeq r
  else if s.rcvShutdown then discardData s th len r
  else dataState (queueData s th len r)

end LinuxKernel.V098.Net.SeqWords
