import LinuxKernel.Lib.Chain
import LinuxKernel.Lib.System

/-!
# LinuxKernel.V098.Net.SockArray

The **sockets of a protocol**, in the chains of `sock_array`: `put_sock`, `remove_sock`,
`get_new_socknum` and `get_sock` of `net/tcp/sock.c`, and the functions that call them.

- Ports in `source` and `dest` are in the order of the net, as in the code; `num` is not.
- The fields of a socket that the chains do not depend on are left out.
- A word that is read through a NULL pointer in `remove_sock` is not the address of a socket.
- `live`, `destroyed` and `clash` are history: the sockets there are, those of which only the
  memory is there until their last buffer is freed, and whether `get_new_socknum` has returned
  a number that another socket of the protocol uses.
-/

namespace LinuxKernel.V098.Net.SockArray

abbrev Addr := BitVec 32

def SOCK_ARRAY_SIZE : Nat := 64
def PROT_SOCK : Nat := 1024
def IP_TCP : Nat := 6
def IP_UDP : Nat := 17

inductive Proto
  | tcp
  | udp
  | raw
  | packet
  deriving Repr, DecidableEq

inductive SockType
  | stream
  | seqpacket
  | dgram
  | raw
  | packet
  deriving Repr, DecidableEq

/-- `TCP_CLOSE`, `TCP_LISTEN`, or one of the other states. -/
inductive SockState
  | close
  | listen
  | connected
  deriving Repr, DecidableEq

structure Sock where
  prot : Proto
  num : Nat
  saddr : Addr
  daddr : Addr
  source : Nat
  dest : Nat
  reuse : Bool
  state : SockState
  deriving Repr, DecidableEq

structure State where
  sock : Nat → Sock
  array : Proto × Nat → Option Nat
  next : Nat → Option Nat
  start : Int
  ipAddr : List Addr
  live : List Nat
  destroyed : List Nat
  clash : Bool

def setSock (s : State) (x : Nat) (sk : Sock) : State :=
  { s with sock := Function.update s.sock x sk }

@[simp] theorem setSock_self (s : State) (x : Nat) (sk : Sock) : (setSock s x sk).sock x = sk :=
  Function.update_self ..

theorem setSock_of_ne {x y : Nat} (h : y ≠ x) (s : State) (sk : Sock) :
    (setSock s x sk).sock y = s.sock y :=
  Function.update_of_ne h _ _

theorem setSock_apply (s : State) (x : Nat) (sk : Sock) (y : Nat) :
    (setSock s x sk).sock y = if y = x then sk else s.sock y :=
  Function.update_apply ..

/-- `prot->sock_array[num & (SOCK_ARRAY_SIZE -1)]` -/
def head (s : State) (prot : Proto) (num : Nat) : Option Nat :=
  s.array (prot, num % SOCK_ARRAY_SIZE)

def setHead (s : State) (prot : Proto) (num : Nat) (x : Option Nat) : State :=
  { s with array := Function.update s.array (prot, num % SOCK_ARRAY_SIZE) x }

/-- More links than a chain can have. -/
def bound (s : State) : Nat := s.live.length + 1

def net16 (x : Nat) : Nat := x % 256 * 256 + x / 256 % 256

/-! ### `net/tcp/ip.c` -/

/-- The loop of `ip_addr_match`, with `n` bytes to go. -/
def matchBytes : Nat → Addr → Addr → Bool
  | 0, _, _ => true
  | n + 1, addr1, addr2 =>
      if addr1 &&& 0xff#32 ≠ addr2 &&& 0xff#32 then addr1 = 0
      else matchBytes n (addr1 >>> 8) (addr2 >>> 8)

def ipAddrMatch (addr1 addr2 : Addr) : Bool := addr1 = addr2 || matchBytes 4 addr1 addr2

/-- The loop of `my_ip_addr`. -/
def myIpAddr (addr : Addr) : List Addr → Bool
  | [] => false
  | a :: as => if a = 0 then false else ipAddrMatch addr a || myIpAddr addr as

def MY_IP_ADDR (s : State) : Addr := s.ipAddr.headD 0

/-! ### `net/tcp/sock.c` -/

/-- The `mask` of `put_sock`. -/
def putMask (saddr : Addr) : Addr :=
  if 0xff000000#32 &&& saddr ≠ 0 then 0
  else if 0xffff0000#32 &&& saddr ≠ 0 then 0xff000000#32
  else if 0xffffff00#32 &&& saddr ≠ 0 then 0xffff0000#32
  else 0xffffffff#32

/-- The loop of `put_sock` ends at `sk2`. -/
def stops (s : State) (sk : Sock) (sk2 : Nat) : Bool :=
  (s.sock sk2).saddr &&& putMask sk.saddr = 0

/-- `put_sock`, from the look at the chain on. -/
def linkSock (s : State) (sk : Sock) (num x : Nat) : Outcome State :=
  match head s sk.prot num with
  | none => .next (setHead s sk.prot num (some x))
  | some sk1 =>
      match walkPrev s.next (stops s sk) (bound s) (some sk1) none with
      | some (some _, none) =>
          .next (setHead { s with next := Function.update s.next x (some sk1) } sk.prot num (some x))
      | some (sk2, some sk1) =>
          .next { s with next := Function.update (Function.update s.next x sk2) sk1 (some x) }
      | _ => .panic "the loop of put_sock goes on"

def putSock (s : State) (num x : Nat) : Outcome State :=
  let sk := { s.sock x with num }
  linkSock { setSock s x sk with next := Function.update s.next x none } sk num x

def removeSock (s : State) (x : Nat) : Outcome State :=
  let sk := s.sock x
  if head s sk.prot sk.num = some x then .next (setHead s sk.prot sk.num (s.next x))
  else
    match walk s.next (fun sk2 => s.next sk2 = some x) (bound s) (head s sk.prot sk.num) with
    | some (some sk2) => .next { s with next := Function.update s.next sk2 (s.next x) }
    | some none => .next s
    | none => .panic "the loop of remove_sock goes on"

def skInuse (s : State) (prot : Proto) (num : Nat) : Option Bool :=
  (walk s.next (fun sk => (s.sock sk).source = num) (bound s) (head s prot num)).map (·.isSome)

/-- The last loop of `get_new_socknum`. -/
def searchNum (s : State) (prot : Proto) : Nat → Nat → Outcome Nat
  | 0, _ => .panic "the loop of get_new_socknum goes on"
  | n + 1, num =>
      match skInuse s prot num with
      | none => .panic "the loop of sk_inuse goes on"
      | some true => searchNum s prot n (num + SOCK_ARRAY_SIZE)
      | some false => .next (num % 2 ^ 16)

/-- The first loop of `get_new_socknum`, over the `i` that are left: the number for an empty
chain, or `best`. -/
def scanNum (s : State) (prot : Proto) (base : Nat) : List Nat → Nat → Nat → Outcome (Nat ⊕ Nat)
  | [], best, _ => .next (.inr best)
  | i :: is, best, size =>
      match follow s.next (bound s) (head s prot (i + base + 1)) with
      | none => .panic "the loop of get_new_socknum goes on"
      | some [] => .next (.inl (i + base + 1))
      | some (x :: l) =>
          if (x :: l).length < size then scanNum s prot base is i (x :: l).length
          else scanNum s prot base is best size

/-- `start++` -/
def nextStart (start : Int) : Int := (start + 1 + 2 ^ 31) % 2 ^ 32 - 2 ^ 31

/-- What `base`, which is 0 in all calls, becomes. -/
def numBase (start : Int) : Nat :=
  let base : Int := ((PROT_SOCK : Int) + 1 + start.tmod 1024) % 2 ^ 16
  if base ≤ (PROT_SOCK : Int) then ((base + (PROT_SOCK : Int) + start.tmod 1024) % 2 ^ 16).toNat
  else base.toNat

/-- The first loop, from the next `base`. -/
def scan (s : State) (prot : Proto) : Outcome (Nat ⊕ Nat) :=
  scanNum s prot (numBase (nextStart s.start)) (List.range SOCK_ARRAY_SIZE) 0 32767

def getNewSocknum (s : State) (prot : Proto) : Outcome Nat :=
  (scan s prot).bind fun
    | .inl num => .next (num % 2 ^ 16)
    | .inr best => searchNum s prot (bound s) (numBase (nextStart s.start) + best + 1)

/-- Another socket of the protocol has the number. -/
def Used (s : State) (x : Nat) (prot : Proto) (num : Nat) : Prop :=
  ∃ y ∈ s.live, y ≠ x ∧ (s.sock y).prot = prot ∧ (s.sock y).num = num

instance (s : State) (x : Nat) (prot : Proto) (num : Nat) : Decidable (Used s x prot num) :=
  inferInstanceAs (Decidable (∃ y ∈ s.live, _))

/-- `get_new_socknum` for the socket `x`, with what it leaves behind. -/
def newSocknum (s : State) (x : Nat) (prot : Proto) : Outcome (State × Nat) :=
  (getNewSocknum s prot).bind fun num =>
    .next ({ s with start := nextStart s.start, clash := s.clash || Used s x prot num }, num)

/-- The test of `get_sock`. -/
def takes (sk : Sock) (num : Nat) (raddr : Addr) (rnum : Nat) (laddr : Addr) : Bool :=
  sk.num = num && ipAddrMatch sk.daddr raddr && (sk.dest = rnum || sk.dest = 0) &&
    ipAddrMatch sk.saddr laddr

/-- `none` if the loop goes on. -/
def getSock (s : State) (prot : Proto) (num : Nat) (raddr : Addr) (rnum : Nat) (laddr : Addr) :
    Option (Option Nat) :=
  walk s.next (fun sk => takes (s.sock sk) num raddr rnum laddr) (bound s) (head s prot num)

/-- `destroy_sock`, as far as it is about the chains; `rest` says that buffers of the socket are
left. -/
def destroySock (s : State) (x : Nat) (rest : Bool) : Outcome State :=
  (removeSock s x).bind fun s =>
    .next { s with live := s.live.filter (· ≠ x),
                   destroyed := if rest then x :: s.destroyed else s.destroyed.filter (· ≠ x) }

/-- The protocol and the `num` of a new socket, or `none` for an error. -/
def protoOf (type : SockType) (protocol : Nat) (suser : Bool) : Option (Proto × Nat) :=
  match type with
  | .stream | .seqpacket => if protocol ≠ 0 ∧ protocol ≠ IP_TCP then none else some (.tcp, 0)
  | .dgram => if protocol ≠ 0 ∧ protocol ≠ IP_UDP then none else some (.udp, 0)
  | .raw => if suser = false ∨ protocol = 0 then none else some (.raw, protocol % 2 ^ 16)
  | .packet => if suser = false ∨ protocol = 0 then none else some (.packet, protocol % 2 ^ 16)

/-- `ip_proto_create`, from `put_sock (sk->num, sk)` behind the number on; `init` says that
`sk->prot->init` does not fail. -/
def createPut (s : State) (x : Nat) (init : Bool) : Outcome State :=
  if (s.sock x).num = 0 then destroySock s x false
  else
    (putSock s (s.sock x).num x).bind fun s =>
      let sk := s.sock x
      let s := setSock s x { sk with source := net16 sk.num }
      if init = false ∧ (sk.prot = .raw ∨ sk.prot = .packet) then destroySock s x false else .next s

/-- `ip_proto_create`, where `malloc` has returned `x`. -/
def create (s : State) (x : Nat) (type : SockType) (protocol : Nat) (suser init : Bool) :
    Outcome State :=
  match protoOf type protocol suser with
  | none => .next s
  | some (prot, num) =>
      let sk : Sock := { prot, num, saddr := MY_IP_ADDR s, daddr := 0, source := 0, dest := 0,
                         reuse := false, state := .close }
      let s := { setSock s x sk with next := Function.update s.next x none, live := x :: s.live }
      if num ≠ 0 then (putSock s num x).bind fun s => createPut s x init
      else
        (newSocknum s x prot).bind fun r =>
          createPut (setSock r.1 x { r.1.sock x with num := r.2 }) x init

/-- What `ip_proto_bind` takes for a use of the port. -/
def conflict (sk sk2 : Sock) (snum : Nat) : Bool :=
  sk2.num = snum && sk2.saddr = sk.saddr && (sk.reuse = false || sk2.reuse = false)

/-- The socket after `sk->saddr = addr.sin_addr.s_addr`. -/
def bindAddr (s : State) (x : Nat) (addr : Addr) : Sock :=
  if myIpAddr addr s.ipAddr ∨ addr = 0 then { s.sock x with saddr := addr } else s.sock x

/-- `ip_proto_bind`, where `snum` is the port at last. -/
def bindNum (s : State) (x snum : Nat) (addr : Addr) (suser : Bool) : Outcome State :=
  if snum ≤ PROT_SOCK ∧ suser = false then .next s
  else
    let sk := bindAddr s x addr
    let s := setSock s x sk
    match walk s.next (fun sk2 => conflict sk (s.sock sk2) snum) (bound s) (head s sk.prot snum) with
    | none => .panic "the loop of ip_proto_bind goes on"
    | some (some _) => .next s
    | some none =>
        (removeSock s x).bind fun s =>
          (putSock s snum x).bind fun s =>
            .next (setSock s x { s.sock x with source := net16 (s.sock x).num, daddr := 0, dest := 0 })

def bind (s : State) (x snum : Nat) (addr : Addr) (suser : Bool) : Outcome State :=
  let sk := s.sock x
  if sk.state ≠ .close then .next s
  else if snum = 0 then
    if PROT_SOCK < sk.num then .next s
    else (newSocknum s x sk.prot).bind fun r => bindNum r.1 x r.2 addr suser
  else bindNum s x snum addr suser

/-! ### `net/tcp/tcp.c`, `net/tcp/udp.c` -/

/-- `tcp_connect` and `udp_connect`; `ok` says that a `SYN` can be sent. -/
def connectTo (sk : Sock) (daddr : Addr) (dest : Nat) (ok : Bool) : Sock :=
  { sk with daddr, dest, state := if sk.prot = .udp ∨ ok = true then .connected else sk.state }

/-- `tcp_conn_request` of the listener `x` for a segment from `raddr` and `rnum` to `laddr`,
where `malloc` has returned `new`. -/
def requestSock (sk : Sock) (raddr : Addr) (rnum : Nat) (laddr : Addr) : Sock :=
  { sk with source := net16 sk.num, dest := rnum, daddr := raddr, saddr := laddr, state := .connected }

def connRequest (s : State) (x new : Nat) (raddr : Addr) (rnum : Nat) (laddr : Addr) :
    Outcome State :=
  let sk := requestSock (s.sock x) raddr rnum laddr
  putSock { setSock s new sk with live := new :: s.live } sk.num new

/-! ### The system -/

/-- `synAck` is the answer to a `SYN`, `closed` the end of a connection, `setReuse` is
`setsockopt`. What `accept` returns is in its chain already. -/
inductive Act
  | create (x : Nat) (type : SockType) (protocol : Nat) (suser init : Bool)
  | bind (x snum : Nat) (addr : Addr) (suser : Bool)
  | setReuse (x : Nat) (reuse : Bool)
  | listen (x : Nat)
  | connect (x : Nat) (daddr : Addr) (dest : Nat) (ok : Bool)
  | synAck (x rnum : Nat)
  | connRequest (x new : Nat) (raddr : Addr) (rnum : Nat) (laddr : Addr)
  | closed (x : Nat)
  | destroy (x : Nat) (rest : Bool)
  deriving Repr

def step (s : State) : Act → Outcome State
  | .create x type protocol suser init =>
      if x ∉ s.live ∧ x ∉ s.destroyed then create s x type protocol suser init else .disabled
  | .bind x snum addr suser => if x ∈ s.live then bind s x snum addr suser else .disabled
  | .setReuse x reuse =>
      if x ∈ s.live then .next (setSock s x { s.sock x with reuse }) else .disabled
  | .listen x =>
      if x ∈ s.live then .next (setSock s x { s.sock x with state := .listen }) else .disabled
  | .connect x daddr dest ok =>
      if x ∈ s.live ∧ ((s.sock x).prot = .udp ∨ (s.sock x).prot = .tcp ∧ (s.sock x).state = .close)
      then .next (setSock s x (connectTo (s.sock x) daddr dest ok))
      else .disabled
  | .synAck x rnum =>
      if x ∈ s.live ∧ (s.sock x).prot = .tcp ∧ (s.sock x).state = .connected ∧
          ((s.sock x).dest = rnum ∨ (s.sock x).dest = 0) then
        .next (setSock s x { s.sock x with dest := rnum })
      else .disabled
  | .connRequest x new raddr rnum laddr =>
      if new ∉ s.live ∧ new ∉ s.destroyed ∧ (s.sock x).state = .listen ∧ (s.sock x).prot = .tcp ∧
          getSock s .tcp (s.sock x).num raddr rnum laddr = some (some x) then
        connRequest s x new raddr rnum laddr
      else .disabled
  | .closed x =>
      if x ∈ s.live then .next (setSock s x { s.sock x with state := .close }) else .disabled
  | .destroy x rest =>
      if x ∈ s.live ∨ x ∈ s.destroyed then destroySock s x rest else .disabled

/-! ### What has to hold -/

structure Init (s : State) : Prop where
  array : ∀ o, s.array o = none
  live : s.live = []
  destroyed : s.destroyed = []
  clash : s.clash = false
  start : s.start = 0

structure Sound (s : State) : Prop where
  /-- A chain holds the live sockets whose `num` it is for, each once. -/
  chain : ∀ prot h, h < SOCK_ARRAY_SIZE → ∃ l, Chain s.next (s.array (prot, h)) l ∧ l.Nodup ∧
    ∀ x, x ∈ l ↔ x ∈ s.live ∧ (s.sock x).prot = prot ∧ (s.sock x).num % SOCK_ARRAY_SIZE = h
  clash : s.clash = false
  /-- The segments of a connected socket go there. -/
  route : ∀ x ∈ s.live, (s.sock x).state = .connected →
    getSock s (s.sock x).prot (s.sock x).num (s.sock x).daddr (s.sock x).dest (s.sock x).saddr =
      some (some x)

/-! ### The condition -/

/-- The chain for `num`. -/
def chain (s : State) (prot : Proto) (num : Nat) : List Nat :=
  (follow s.next (bound s) (head s prot num)).getD []

/-- `sk` takes the segments of `c`. -/
def Shadows (sk c : Sock) : Prop :=
  c.state = .connected ∧ takes sk c.num c.daddr c.dest c.saddr = true

instance (sk c : Sock) : Decidable (Shadows sk c) := inferInstanceAs (Decidable (_ ∧ _))

/-- `sk` is not in the way between the sockets `front` before it and `behind` it. -/
def Fits (s : State) (sk : Sock) (front behind : List Nat) : Prop :=
  (∀ y ∈ front, ¬ Shadows (s.sock y) sk) ∧ ∀ y ∈ behind, ¬ Shadows sk (s.sock y)

instance (s : State) (sk : Sock) (front behind : List Nat) : Decidable (Fits s sk front behind) :=
  inferInstanceAs (Decidable (_ ∧ _))

/-- `sk` is not in the way where `x` is. -/
def Stays (s : State) (x : Nat) (sk : Sock) : Prop :=
  let l := chain s (s.sock x).prot (s.sock x).num
  Fits s sk (l.takeWhile (· ≠ x)) ((l.dropWhile (· ≠ x)).drop 1)

instance (s : State) (x : Nat) (sk : Sock) : Decidable (Stays s x sk) :=
  inferInstanceAs (Decidable (Fits ..))

/-- `sk` is not in the way where `put_sock` puts `x`. -/
def Goes (s : State) (x : Nat) (sk : Sock) : Prop :=
  let l := (chain s sk.prot sk.num).erase x
  Fits s sk (l.takeWhile (! stops s sk ·)) (l.dropWhile (! stops s sk ·))

instance (s : State) (x : Nat) (sk : Sock) : Decidable (Goes s x sk) :=
  inferInstanceAs (Decidable (Fits ..))

/-- There is an empty chain, or else: of the numbers for the shortest one, the first that no
socket there has in `source` is no other socket's `num`. -/
def NumFree (s : State) (x : Nat) (prot : Proto) : Prop :=
  ∀ best, scan s prot = .next (.inr best) →
    let num := numBase (nextStart s.start) + best + 1
    ∀ k, (∀ j < k, skInuse s prot (num + SOCK_ARRAY_SIZE * j) = some true) →
      skInuse s prot (num + SOCK_ARRAY_SIZE * k) = some false →
        ¬ Used s x prot ((num + SOCK_ARRAY_SIZE * k) % 2 ^ 16)

/-- The socket is bound to `snum` and not in the way there, or is not bound and stays where
it is without being in the way. -/
def Binds (s : State) (x snum : Nat) (addr : Addr) (suser : Bool) : Prop :=
  let sk := bindAddr s x addr
  (snum ≤ PROT_SOCK ∧ suser = false) ∨
    if ∃ y ∈ chain s sk.prot snum, conflict sk (if y = x then sk else s.sock y) snum = true then
      Stays s x sk
    else Goes s x { sk with num := snum, daddr := 0, dest := 0 }

instance (s : State) (x snum : Nat) (addr : Addr) (suser : Bool) :
    Decidable (Binds s x snum addr suser) :=
  inferInstanceAs (Decidable (_ ∨ ite ..))

def Routed (s : State) : Act → Prop
  | .create x type protocol suser _ =>
      ∀ prot num, protoOf type protocol suser = some (prot, num) → num = 0 ∧ NumFree s x prot
  | .bind x snum addr suser =>
      (s.sock x).state = .close →
        if snum = 0 then (s.sock x).num ≤ PROT_SOCK → NumFree s x (s.sock x).prot
        else Binds s x snum addr suser
  | .connect x daddr dest ok => Stays s x (connectTo (s.sock x) daddr dest ok)
  | .synAck x rnum => Stays s x { s.sock x with dest := rnum }
  | .connRequest x new raddr rnum laddr => Goes s new (requestSock (s.sock x) raddr rnum laddr)
  | .setReuse _ _ | .listen _ | .closed _ | .destroy _ _ => True

end LinuxKernel.V098.Net.SockArray
