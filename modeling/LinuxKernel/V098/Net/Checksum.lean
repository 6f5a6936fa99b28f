import LinuxKernel.Lib.Carry
import Mathlib.Algebra.BigOperators.Group.Finset.Basic

/-!
# LinuxKernel.V098.Net.Checksum

**The Internet checksum**: `ip_compute_csum` of `net/tcp/ip.c`, `tcp_check` and `tcp_send_check`
of `net/tcp/tcp.c`.

- Words are least significant byte first. From the fold to 16 bits on, the upper half of `%ebx`
  is left out; nothing reads it.
- `myIp` is `MY_IP_ADDR`, and `ipTcp` is the protocol number `IP_TCP` of `netinet/in.h`.
- `onesSum` is what the checksum is meant to be the complement of.
-/

namespace LinuxKernel.V098.Net.Checksum

open Carry

abbrev Memory := Nat → BitVec 8

/-! ### The code -/

def lodsl (m : Memory) (si : Nat) : BitVec 32 := m (si + 3) ++ m (si + 2) ++ m (si + 1) ++ m si

def lodsw (m : Memory) (si : Nat) : BitVec 16 := m (si + 1) ++ m si

/-- The loop with `n` more words to go: `%ebx` and the carry flag behind it. -/
def addLongs (m : Memory) : Nat → Nat → BitVec 32 → Bool → BitVec 32 × Bool
  | 0, _, ebx, cf => (ebx, cf)
  | n + 1, si, ebx, cf =>
      let r := adc ebx (lodsl m si) cf
      addLongs m n (si + 4) r.1 r.2

/-- `clc`, the loop over `n` words, and `adcl $0,%%ebx`. -/
def sumLongs (m : Memory) (si n : Nat) (ebx : BitVec 32) : BitVec 32 :=
  let r := addLongs m n si ebx false
  (adc r.1 0 r.2).1

/-- `addw` and `adcw $0`. -/
def addWord (bx ax : BitVec 16) : BitVec 16 :=
  let r := adc bx ax false
  (adc r.1 0 r.2).1

/-- From 32 bits to 16 bits. -/
def fold (ebx : BitVec 32) : BitVec 16 := addWord (ebx.setWidth 16) ((ebx >>> 16).setWidth 16)

/-- The extra word and the extra byte. -/
def addRest (m : Memory) (si len : Nat) (bx : BitVec 16) : BitVec 16 :=
  let r := if len &&& 2 ≠ 0 then (addWord bx (lodsw m si), si + 2) else (bx, si)
  if len &&& 1 ≠ 0 then addWord r.1 ((m r.2).setWidth 16) else r.1

/-- `%esi` behind the words of 32 bits. -/
def restStart (buff len : Nat) : Nat := if 3 < len then buff + len / 4 * 4 else buff

def ipComputeCsum (m : Memory) (buff len : Nat) : BitVec 16 :=
  ~~~ addRest m (restStart buff len) len
    (if 3 < len then fold (sumLongs m buff (len / 4) 0) else 0)

/-- `net16(len)` -/
def net16 (len : Nat) : BitVec 16 := BitVec.ofNat 8 len ++ BitVec.ofNat 8 (len / 256)

/-- The addresses, the protocol and the length. -/
def pseudoSum (myIp : BitVec 32) (ipTcp : BitVec 8) (len : Nat) (saddr daddr : BitVec 32) :
    BitVec 32 :=
  let saddr := if saddr = 0 then myIp else saddr
  let edx := net16 len ++ (ipTcp ++ 0#8)
  let r := adc daddr saddr false
  let r := adc r.1 edx r.2
  (adc r.1 0 r.2).1

def tcpCheck (myIp : BitVec 32) (ipTcp : BitVec 8) (m : Memory) (th len : Nat)
    (saddr daddr : BitVec 32) : BitVec 16 :=
  let sum := pseudoSum myIp ipTcp len saddr daddr
  ~~~ addRest m (restStart th len) len
    (fold (if 3 < len then sumLongs m th (len / 4) sum else sum))

/-- `th->check` -/
def checkAt (th : Nat) : Nat := th + 16

def storeWord (m : Memory) (a : Nat) (v : BitVec 16) : Memory :=
  Function.update (Function.update m a (v.setWidth 8)) (a + 1) ((v >>> 8).setWidth 8)

/-- `noCheck` is `sk && sk->no_check`. -/
def tcpSendCheck (myIp : BitVec 32) (ipTcp : BitVec 8) (m : Memory) (th len : Nat)
    (saddr daddr : BitVec 32) (noCheck : Bool) : Memory :=
  let m := storeWord m (checkAt th) 0
  if noCheck then m
  else storeWord m (checkAt th) (tcpCheck myIp ipTcp m th len saddr daddr)

/-! ### What is wanted -/

/-- Word `k` of the `len` bytes at `buff`, an odd last byte padded with zero. -/
def wordAt (m : Memory) (buff len k : Nat) : BitVec 16 :=
  (if 2 * k + 1 < len then m (buff + 2 * k + 1) else 0) ++ m (buff + 2 * k)

def words (m : Memory) (buff len : Nat) : List (BitVec 16) :=
  (List.range ((len + 1) / 2)).map (wordAt m buff len)

/-- The two addresses, a zero byte and the protocol, and the length, in network order. -/
def pseudoHeader (myIp : BitVec 32) (ipTcp : BitVec 8) (len : Nat) (saddr daddr : BitVec 32) :
    List (BitVec 16) :=
  let saddr := if saddr = 0 then myIp else saddr
  [saddr.setWidth 16, (saddr >>> 16).setWidth 16, daddr.setWidth 16, (daddr >>> 16).setWidth 16,
    ipTcp ++ 0#8, net16 len]

/-- Another word in the place of word `k`, and not `0x0000` for `0xffff` or the other way. -/
structure Changed (m m' : Memory) (buff len k : Nat) : Prop where
  inside : 2 * k < len
  same : ∀ i < (len + 1) / 2, i ≠ k → wordAt m' buff len i = wordAt m buff len i
  ne : wordAt m' buff len k ≠ wordAt m buff len k
  notZero : ¬ (wordAt m buff len k = 0 ∧ wordAt m' buff len k = 0xffff)
  notOnes : ¬ (wordAt m buff len k = 0xffff ∧ wordAt m' buff len k = 0)

end LinuxKernel.V098.Net.Checksum
