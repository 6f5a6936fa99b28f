import LinuxKernel.Lib.System
import LinuxKernel.Lib.Tally

/-!
# LinuxKernel.V098.Net.SockMem

The **memory that is charged to sockets**: `sock_wmalloc`, `sock_rmalloc`, `sock_wfree`,
`sock_rfree`, `free_skb` and `destroy_sock` of `net/tcp/sock.c`, the charge of `tcp_rcv` and what
`tcp_conn_request` does to it.

- `free_skb` is called with the flag for the direction of the buffer, `rw`, as all its callers do.
- `destroy_sock` frees one buffer a step. What `close` does with the connections that are waiting
  comes in between.
- The order of a queue is left out: a buffer has the queue it is on.
- `charged` is history: the socket and the counter that the buffer has been added to.
- `known` is history: the addresses that `malloc` has given out.
-/

namespace LinuxKernel.V098.Net.SockMem

def SK_WMEM_MAX : Nat := 8192
def SK_RMEM_MAX : Nat := 32767

/-- The values of an `unsigned long`, and the bytes there are addresses for. -/
def WORD : Nat := 2 ^ 32

/-- `FREE_READ` and `FREE_WRITE`. -/
inductive Rw
  | read
  | write
  deriving Repr, DecidableEq

inductive Queue
  | wfront
  | rqueue
  | sendHead
  | backLog
  deriving Repr, DecidableEq

/-- The flag that `destroy_sock` frees the buffers of a queue with. -/
def Queue.rw : Queue → Rw
  | wfront | sendHead => .write
  | rqueue | backLog => .read

/-- `struct sk_buff`. -/
structure Buf where
  sk : Option Nat
  memLen : Nat
  lock : Bool
  free : Bool
  rw : Rw
  queue : Option (Nat × Queue)
  charged : Option (Nat × Rw)
  deriving Repr, DecidableEq

/-- `struct sock`. `hashed` says that it is in `sock_array`. -/
structure Sock where
  wmemAlloc : Nat
  rmemAlloc : Nat
  inuse : Bool
  destroy : Bool
  hashed : Bool
  deriving Repr, DecidableEq

def Sock.alloc (k : Sock) : Rw → Nat
  | .read => k.rmemAlloc
  | .write => k.wmemAlloc

def Sock.setAlloc (k : Sock) (n : Nat) : Rw → Sock
  | .read => { k with rmemAlloc := n }
  | .write => { k with wmemAlloc := n }

/-- `sk->rmem_alloc += size`, and `sk->wmem_alloc += size` -/
def Sock.charge (k : Sock) (rw : Rw) (size : Nat) : Sock :=
  k.setAlloc ((k.alloc rw + size) % WORD) rw

/-- `sk->rmem_alloc -= size`, and `sk->wmem_alloc -= size` -/
def Sock.uncharge (k : Sock) (rw : Rw) (size : Nat) : Sock :=
  k.setAlloc ((k.alloc rw + (WORD - size % WORD)) % WORD) rw

/-- Where `destroy_sock` of a socket is. -/
inductive Phase
  | idle
  | free (q : Queue)
  | last
  deriving Repr, DecidableEq

def Phase.next : Queue → Phase
  | .wfront => free .rqueue
  | .rqueue => free .sendHead
  | .sendHead => free .backLog
  | .backLog => last

structure State where
  socks : Nat → Option Sock
  bufs : Nat → Option Buf
  known : Finset Nat
  phase : Nat → Phase

def setSock (s : State) (x : Nat) (k : Sock) : State :=
  { s with socks := Function.update s.socks x (some k) }

def setBuf (s : State) (b : Nat) (k : Buf) : State :=
  { s with bufs := Function.update s.bufs b (some k) }

def setPhase (s : State) (x : Nat) (p : Phase) : State :=
  { s with phase := Function.update s.phase x p }

def freeBuf (s : State) (b : Nat) : State := { s with bufs := Function.update s.bufs b none }
def freeSock (s : State) (x : Nat) : State := { s with socks := Function.update s.socks x none }

/-! ### Allocation -/

/-- The bytes that are in use. -/
def memory (s : State) : Nat := tally s.known Buf.memLen s.bufs

/-- There is memory that `malloc` can give out at `b`. -/
def Room (s : State) (b size : Nat) : Prop :=
  s.bufs b = none ∧ 0 < size ∧ memory s + size < WORD

instance (s : State) (b size : Nat) : Decidable (Room s b size) := inferInstanceAs (Decidable (_ ∧ _))

def addBuf (s : State) (b : Nat) (k : Buf) : State :=
  { s with bufs := Function.update s.bufs b (some k), known := insert b s.known }

/-- What the caller has made of new memory. The rest is as it has been. -/
structure Fresh where
  sk : Option Nat
  lock : Bool
  free : Bool
  deriving Repr, DecidableEq

def fresh (f : Fresh) (rw : Rw) (size : Nat) (charged : Option (Nat × Rw)) : Buf :=
  { sk := f.sk, memLen := size, lock := f.lock, free := f.free, rw := rw, queue := none,
    charged := charged }

def malloc (s : State) (b size : Nat) (fails : Bool) (k : Buf) : Outcome State :=
  if fails then .next s
  else if Room s b size then .next (addBuf s b k)
  else .disabled

/-- `sock_wmalloc` or `sock_rmalloc`, for the socket at `x` or for none. -/
def sockMalloc (limit : Nat) (rw : Rw) (s : State) (x : Option Nat) (b size : Nat)
    (force fails : Bool) (f : Fresh) : Outcome State :=
  match x with
  | none => malloc s b size fails (fresh f rw size none)
  | some x =>
      match s.socks x with
      | none => .disabled
      | some k =>
          if limit ≤ (k.alloc rw + size) % WORD ∧ force = false then .next s
          else malloc (setSock s x (k.charge rw size)) b size fails (fresh f rw size (some (x, rw)))

def sockWmalloc : State → Option Nat → Nat → Nat → Bool → Bool → Fresh → Outcome State :=
  sockMalloc SK_WMEM_MAX .write

def sockRmalloc : State → Option Nat → Nat → Nat → Bool → Bool → Fresh → Outcome State :=
  sockMalloc SK_RMEM_MAX .read

/-! ### Freeing -/

/-- `sock_wfree` or `sock_rfree`, of the buffer at `b`. -/
def sockFree (rw : Rw) (s : State) (x : Option Nat) (b size : Nat) : Outcome State :=
  match x with
  | none => .next (freeBuf s b)
  | some x =>
      match s.socks x with
      | none => .panic "use of a freed sock"
      | some k =>
          let k := k.uncharge rw size
          let s := freeBuf (setSock s x k) b
          if k.destroy ∧ k.wmemAlloc = 0 ∧ k.rmemAlloc = 0 then .next (freeSock s x) else .next s

def sockWfree : State → Option Nat → Nat → Nat → Outcome State := sockFree .write
def sockRfree : State → Option Nat → Nat → Nat → Outcome State := sockFree .read

def freeSkb (s : State) (b : Nat) (rw : Rw) : Outcome State :=
  match s.bufs b with
  | none => .panic "use of a freed sk_buff"
  | some k =>
      if k.lock then .next (setBuf s b { k with free := true })
      else
        match rw with
        | .read => sockRfree s k.sk b k.memLen
        | .write => sockWfree s k.sk b k.memLen

/-! ### `tcp_rcv` and `tcp_conn_request` -/

/-- `charge the memory to the socket.` -/
def rcvCharge (s : State) (b : Nat) (k : Buf) (x : Nat) (sk : Sock) : Outcome State :=
  if SK_RMEM_MAX ≤ (sk.rmemAlloc + k.memLen) % WORD then
    freeSkb (setBuf s b { k with sk := none }) b .write
  else
    .next (setSock (setBuf s b { k with charged := some (x, .read) }) x (sk.charge .read k.memLen))

/-- `tcp_rcv` of a buffer from the device, for the socket that `get_sock` has found. -/
def tcpRcv (s : State) (b : Nat) (k : Buf) (x : Nat) (sk : Sock) : Outcome State :=
  let k := { k with sk := some x, free := false }
  if sk.inuse then .next (setBuf s b { k with queue := some (x, .backLog) })
  else
    let sk := { sk with inuse := true }
    rcvCharge (setSock (setBuf s b k) x sk) b k x sk

/-- `tcp_rcv` of a buffer that `release_sock` has taken off the back log. -/
def tcpRcvRedo (s : State) (b : Nat) (k : Buf) (y : Option Nat) : Outcome State :=
  let k := { k with queue := none }
  match y with
  | none => .panic "NULL pointer in tcp_rcv"
  | some y =>
      match s.socks y with
      | some sk => if sk.hashed then rcvCharge (setBuf s b k) b k y sk else .disabled
      | none => .disabled

/-- `charge the sock_buff to newsk.` -/
def connRequest (s : State) (b : Nat) (k : Buf) (x : Nat) (sk : Sock) (y : Nat) (newsk : Sock) :
    State :=
  setSock
    (setSock
      (setBuf s b { k with sk := some y, queue := some (x, .rqueue), charged := some (y, .read) })
      x (sk.uncharge .read k.memLen))
    y (newsk.charge .read k.memLen)

/-! ### `destroy_sock` -/

/-- `remove_sock` -/
def destroySock (s : State) (x : Nat) (k : Sock) : State :=
  setPhase (setSock s x { k with inuse := true, hashed := false }) x (.free .wfront)

/-- A buffer of the queue that it frees. -/
def destroyFree (s : State) (x b : Nat) : Outcome State :=
  match s.phase x, s.bufs b with
  | .free q, some k =>
      if k.queue = some (x, q) then
        if s.socks x = none then .panic "use of a freed sock"
        else freeSkb (setBuf s b { k with queue := none }) b q.rw
      else .disabled
  | _, _ => .disabled

/-- Behind a queue, and at its end. -/
def destroyNext (s : State) (x : Nat) : Outcome State :=
  match s.phase x, s.socks x with
  | .idle, _ => .disabled
  | _, none => .panic "use of a freed sock"
  | .free q, some _ =>
      if ∀ b ∈ s.known, ∀ k ∈ s.bufs b, k.queue ≠ some (x, q) then .next (setPhase s x (.next q))
      else .disabled
  | .last, some k =>
      if k.rmemAlloc = 0 ∧ k.wmemAlloc = 0 then .next (setPhase (freeSock s x) x .idle)
      else .next (setPhase (setSock s x { k with destroy := true, inuse := false }) x .idle)

/-! ### The system -/

/-- `create` makes a socket (`ip_proto_create`, or `tcp_conn_request`), `hold` and `release` set
and clear `inuse`, `arrive` is `malloc` in `dev_rint`, `queue` and `unlink` put a buffer on a queue
and take it off; `wfree` is `sock_wfree` where a header could not be built. -/
inductive Act
  | create (x : Nat) (inuse : Bool)
  | hold (x : Nat)
  | release (x : Nat)
  | arrive (b size : Nat) (lock free : Bool)
  | wmalloc (x : Option Nat) (b size : Nat) (force fails : Bool) (lock free : Bool)
  | rmalloc (x : Option Nat) (b size : Nat) (force fails : Bool) (f : Fresh)
  | wfree (b : Nat)
  | freeSkb (b : Nat)
  | rcv (b x : Nat)
  | redo (b x : Nat) (y : Option Nat)
  | connRequest (b x y : Nat)
  | queue (b x : Nat) (q : Queue)
  | unlink (b : Nat)
  | destroySock (x : Nat)
  | destroyFree (x b : Nat)
  | destroyNext (x : Nat)
  deriving Repr, DecidableEq

/-- With the buffer at `b`, if it meets the condition. -/
def withBuf (s : State) (b : Nat) (ok : Buf → Bool) (f : Buf → Outcome State) : Outcome State :=
  match s.bufs b with
  | none => .disabled
  | some k => if ok k then f k else .disabled

def withSock (s : State) (x : Nat) (ok : Sock → Bool) (f : Sock → Outcome State) : Outcome State :=
  match s.socks x with
  | none => .disabled
  | some k => if ok k then f k else .disabled

def step (s : State) : Act → Outcome State
  | .create x inuse =>
      if s.socks x = none then
        .next (setSock s x { wmemAlloc := 0, rmemAlloc := 0, inuse := inuse, destroy := false,
                             hashed := true })
      else .disabled
  | .hold x => withSock s x (fun _ => true) fun k => .next (setSock s x { k with inuse := true })
  | .release x =>
      withSock s x
        (fun _ => decide (∀ b ∈ s.known, ∀ k ∈ s.bufs b, k.queue ≠ some (x, .backLog)))
        fun k => .next (setSock s x { k with inuse := false })
  | .arrive b size lock free =>
      malloc s b size false (fresh { sk := none, lock := lock, free := free } .read size none)
  | .wmalloc x b size force fails lock free =>
      sockWmalloc s x b size force fails { sk := x, lock := lock, free := free }
  | .rmalloc x b size force fails f => sockRmalloc s x b size force fails f
  | .wfree b =>
      withBuf s b (fun k => k.queue = none ∧ k.rw = .write) fun k => sockWfree s k.sk b k.memLen
  | .freeSkb b => withBuf s b (fun k => k.queue = none) fun k => freeSkb s b k.rw
  | .rcv b x =>
      withBuf s b (fun k => k.queue = none ∧ k.rw = .read ∧ k.sk = none ∧ k.charged = none) fun k =>
        withSock s x (fun sk => sk.hashed) fun sk => tcpRcv s b k x sk
  | .redo b x y => withBuf s b (fun k => k.queue = some (x, .backLog)) fun k => tcpRcvRedo s b k y
  | .connRequest b x y =>
      withBuf s b (fun k => k.queue = none ∧ k.charged = some (x, .read) ∧ x ≠ y) fun k =>
        withSock s x (fun _ => true) fun sk =>
          withSock s y (fun _ => true) fun newsk => .next (connRequest s b k x sk y newsk)
  | .queue b x q =>
      withBuf s b (fun k => k.queue = none ∧ k.rw = q.rw ∧ q ≠ .backLog) fun k =>
        withSock s x (fun _ => true) fun _ => .next (setBuf s b { k with queue := some (x, q) })
  | .unlink b =>
      withBuf s b (fun k => k.queue.any fun p => p.2 ≠ .backLog) fun k =>
        .next (setBuf s b { k with queue := none })
  | .destroySock x => withSock s x (fun _ => true) fun k => .next (destroySock s x k)
  | .destroyFree x b => destroyFree s x b
  | .destroyNext x => destroyNext s x

/-! ### What has to hold -/

/-- What a buffer adds to a counter. -/
def share (x : Nat) (rw : Rw) (k : Buf) : Nat := if k.charged = some (x, rw) then k.memLen else 0

/-- The sum of the `mem_len` of the buffers charged to a socket. -/
def charges (s : State) (x : Nat) (rw : Rw) : Nat := tally s.known (share x rw) s.bufs

/-- There are no sockets and no buffers. -/
structure Init (s : State) : Prop where
  socks : ∀ x, s.socks x = none
  bufs : ∀ b, s.bufs b = none
  phase : ∀ x, s.phase x = .idle

/-- The counters are the sums. A buffer keeps its socket, and a socket that is marked for
destruction is there because of a buffer. -/
structure Sound (s : State) : Prop where
  balanced : ∀ x k rw, s.socks x = some k → k.alloc rw = charges s x rw
  kept : ∀ b k x rw, s.bufs b = some k → k.charged = some (x, rw) → s.socks x ≠ none
  marked : ∀ x k, s.socks x = some k → k.destroy = true →
    ∃ b kb rw, s.bufs b = some kb ∧ kb.charged = some (x, rw)

/-! ### The condition -/

/-- The size is charged before there is memory, and not taken back if there is none. -/
def MallocFits (limit : Nat) (rw : Rw) (s : State) (x : Option Nat) (size : Nat)
    (force fails : Bool) : Prop :=
  fails = true → ∀ y ∈ x, ∀ k ∈ s.socks y, limit ≤ (k.alloc rw + size) % WORD ∧ force = false

instance (limit : Nat) (rw : Rw) (s : State) (x : Option Nat) (size : Nat) (force fails : Bool) :
    Decidable (MallocFits limit rw s x size force fails) :=
  inferInstanceAs (Decidable (_ → ∀ y ∈ x, ∀ k ∈ s.socks y, _))

/-- `skb->sk` is the socket that the buffer is charged to. -/
def Owned (k : Buf) : Prop := k.sk = k.charged.map Prod.fst

instance (k : Buf) : Decidable (Owned k) := inferInstanceAs (Decidable (_ = _))

/-- `malloc` does not fail behind a charge. A buffer that is freed is charged to the socket it
names, to none if it names none. `destroy_sock` is called once for a socket, and
`tcp_conn_request` not for one that is marked. -/
def Fits (s : State) : Act → Prop
  | .wmalloc x _ size force fails _ _ => MallocFits SK_WMEM_MAX .write s x size force fails
  | .rmalloc x _ size force fails _ => MallocFits SK_RMEM_MAX .read s x size force fails
  | .wfree b => ∀ k ∈ s.bufs b, Owned k
  | .freeSkb b | .destroyFree _ b => ∀ k ∈ s.bufs b, k.lock = false → Owned k
  | .destroySock x => s.phase x = .idle ∧ ∀ k ∈ s.socks x, k.destroy = false
  | .connRequest _ x _ => ∀ k ∈ s.socks x, k.destroy = false
  | .create _ _ | .hold _ | .release _ | .arrive _ _ _ _ | .rcv _ _ | .redo _ _ _ | .queue _ _ _
  | .unlink _ | .destroyNext _ => True

instance (s : State) (a : Act) : Decidable (Fits s a) := by
  cases a <;> unfold Fits <;> infer_instance

end LinuxKernel.V098.Net.SockMem
