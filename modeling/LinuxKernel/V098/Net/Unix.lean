import LinuxKernel.Lib.System
import Mathlib.Data.List.Nodup

/-!
# LinuxKernel.V098.Net.Unix

**Unix-domain streams**: `unix_proto_read` and `unix_proto_write` of `net/unix.c`, for the
buffer of one of two connected sockets, any number of tasks that read from it and any number
that write to it through the other socket.

- The other direction is the same with the buffer of the other socket. Both sockets stay
  `SS_CONNECTED`.
- A step takes a task from one place where it can lose the processor to the next:
  `interruptible_sleep_on`, `verify_area`, and each byte of `memcpy_tofs` and `memcpy_fromfs`.
  A sleeper may be woken at any time.
- A byte is named by the call that writes it and its place in the buffer of that call. What
  lies behind the page, or was on it before, is `none`.
- `counted` and `delivered` are history: the bytes that calls of `unix_proto_write` have
  counted, and those that calls of `unix_proto_read` have, in the order in which `bp_head` and
  `bp_tail` were moved over them.
-/

namespace LinuxKernel.V098.Net.Unix

/-- The call and the place in its `ubuf`. -/
abbrev Byte := Nat × Nat

def BUF_SIZE : Nat := 4096
def EINTR : Int := 4
def EAGAIN : Int := 11
def ERESTARTSYS : Int := 512

inductive Pc
  | idle
  | asleep
  /-- In `verify_area`. -/
  | verify (cando : Nat)
  /-- In the copy from or to `pos` on, before byte `i`. -/
  | copy (cando pos i : Nat)
  deriving Repr, DecidableEq

structure Task where
  pc : Pc
  call : Nat
  size : Nat
  todo : Nat
  nonblock : Bool
  /-- What the copy has put into `ubuf`. -/
  out : List (Option Byte)

structure State where
  buf : Nat → Option Byte
  bpHead : Nat
  bpTail : Nat
  tasks : Nat
  reader : Nat → Task
  writer : Nat → Task
  calls : Nat
  killed : Bool
  readRet : Nat → Option Int
  writeRet : Nat → Option Int
  counted : List Byte
  delivered : List (Nat × Option Byte)

/-- `UN_BUF_AVAIL` -/
def bufAvail (s : State) : Int := ((s.bpHead : Int) - s.bpTail) % BUF_SIZE

/-- `UN_BUF_SPACE` -/
def bufSpace (s : State) : Int := (BUF_SIZE : Int) - 1 - bufAvail s

/-! ### `unix_proto_read` -/

def setReader (s : State) (r : Nat) (t : Task) : State :=
  { s with reader := Function.update s.reader r t }

@[simp] theorem setReader_self (s : State) (r : Nat) (t : Task) : (setReader s r t).reader r = t :=
  Function.update_self ..

theorem setReader_of_ne {r x : Nat} (h : x ≠ r) {s : State} {t : Task} :
    (setReader s r t).reader x = s.reader x :=
  Function.update_of_ne h _ _

def readReturn (s : State) (r : Nat) (ret : Int) : State :=
  { setReader s r { s.reader r with pc := .idle } with
    readRet := Function.update s.readRet (s.reader r).call (some ret) }

/-- The body of the copy loop, up to `verify_area`. -/
def readChunk (s : State) (r : Nat) (avail : Int) : State :=
  if avail ≤ 0 then { readReturn s r (-EINTR) with killed := true }
  else
    let cando := min (min (s.reader r).todo avail.toNat) (BUF_SIZE - s.bpTail)
    setReader s r { s.reader r with pc := .verify cando }

/-- The loop that waits for data. -/
def readHead (s : State) (r : Nat) : State :=
  if bufAvail s = 0 then
    if (s.reader r).nonblock then readReturn s r (-EAGAIN)
    else setReader s r { s.reader r with pc := .asleep }
  else readChunk s r (bufAvail s)

def protoRead (s : State) (r : Nat) (size : Int) (nonblock : Bool) : State :=
  let t : Task := { pc := .idle, call := s.calls, size := size.toNat, todo := size.toNat, nonblock,
                    out := [] }
  let s := { setReader s r t with calls := s.calls + 1 }
  if size ≤ 0 then readReturn s r 0 else readHead s r

/-- `memcpy_tofs` is done. -/
def readDone (s : State) (r cando : Nat) : State :=
  let t := s.reader r
  let s := { setReader s r { t with todo := t.todo - cando } with
    bpTail := (s.bpTail + cando) % BUF_SIZE
    delivered := s.delivered ++ t.out.map fun b => (t.call, b) }
  if t.todo - cando ≠ 0 ∧ bufAvail s ≠ 0 then readChunk s r (bufAvail s)
  else readReturn s r ((t.size : Int) - (t.todo - cando : Nat))

/-- `signal` says that the sleeper has one when it is woken. -/
def readGo (s : State) (r : Nat) (signal : Bool) : Outcome State :=
  let t := s.reader r
  match t.pc with
  | .idle => .disabled
  | .asleep => .next (if signal then readReturn s r (-ERESTARTSYS) else readHead s r)
  | .verify cando => .next (setReader s r { t with pc := .copy cando s.bpTail 0, out := [] })
  | .copy cando pos i =>
      let s := setReader s r { t with pc := .copy cando pos (i + 1), out := t.out ++ [s.buf (pos + i)] }
      .next (if i + 1 < cando then s else readDone s r cando)

/-! ### `unix_proto_write` -/

def setWriter (s : State) (w : Nat) (t : Task) : State :=
  { s with writer := Function.update s.writer w t }

@[simp] theorem setWriter_self (s : State) (w : Nat) (t : Task) : (setWriter s w t).writer w = t :=
  Function.update_self ..

theorem setWriter_of_ne {w x : Nat} (h : x ≠ w) {s : State} {t : Task} :
    (setWriter s w t).writer x = s.writer x :=
  Function.update_of_ne h _ _

def writeReturn (s : State) (w : Nat) (ret : Int) : State :=
  { setWriter s w { s.writer w with pc := .idle } with
    writeRet := Function.update s.writeRet (s.writer w).call (some ret) }

def writeChunk (s : State) (w : Nat) (space : Int) : State :=
  if space ≤ 0 then { writeReturn s w (-EINTR) with killed := true }
  else
    let cando := min (min (s.writer w).todo space.toNat) (BUF_SIZE - s.bpHead)
    setWriter s w { s.writer w with pc := .verify cando }

def writeHead (s : State) (w : Nat) : State :=
  if bufSpace s = 0 then
    if (s.writer w).nonblock then writeReturn s w (-EAGAIN)
    else setWriter s w { s.writer w with pc := .asleep }
  else writeChunk s w (bufSpace s)

def protoWrite (s : State) (w : Nat) (size : Int) (nonblock : Bool) : State :=
  let t : Task := { pc := .idle, call := s.calls, size := size.toNat, todo := size.toNat, nonblock,
                    out := [] }
  let s := { setWriter s w t with calls := s.calls + 1 }
  if size ≤ 0 then writeReturn s w 0 else writeHead s w

/-- The bytes of the user's buffer that a chunk is copied from. -/
def chunk (t : Task) (cando : Nat) : List Byte :=
  (List.range cando).map fun k => (t.call, t.size - t.todo + k)

theorem length_chunk (t : Task) (cando : Nat) : (chunk t cando).length = cando := by
  rw [chunk, List.length_map, List.length_range]

theorem getElem?_chunk {t : Task} {cando k : Nat} (hk : k < cando) :
    (chunk t cando)[k]? = some (t.call, t.size - t.todo + k) := by
  rw [chunk, List.getElem?_map, List.getElem?_range hk, Option.map_some]

theorem filter_chunk (t : Task) (cando c : Nat) :
    (chunk t cando).filter (·.1 = c) = if c = t.call then chunk t cando else [] := by
  split
  · next hc =>
      refine List.filter_eq_self.mpr fun b hb => ?_
      obtain ⟨k, -, rfl⟩ := List.mem_map.mp hb
      exact decide_eq_true hc.symm
  · next hc =>
      refine List.filter_eq_nil_iff.mpr fun b hb => ?_
      obtain ⟨k, -, rfl⟩ := List.mem_map.mp hb
      simpa using Ne.symm hc

def writeDone (s : State) (w cando : Nat) : State :=
  let t := s.writer w
  let s := { setWriter s w { t with todo := t.todo - cando } with
    bpHead := (s.bpHead + cando) % BUF_SIZE
    counted := s.counted ++ chunk t cando }
  if t.todo - cando ≠ 0 ∧ bufSpace s ≠ 0 then writeChunk s w (bufSpace s)
  else writeReturn s w ((t.size : Int) - (t.todo - cando : Nat))

def writeGo (s : State) (w : Nat) (signal : Bool) : Outcome State :=
  let t := s.writer w
  match t.pc with
  | .idle => .disabled
  | .asleep => .next (if signal then writeReturn s w (-ERESTARTSYS) else writeHead s w)
  | .verify cando => .next (setWriter s w { t with pc := .copy cando s.bpHead 0 })
  | .copy cando pos i =>
      let s := { setWriter s w { t with pc := .copy cando pos (i + 1) } with
        buf := Function.update s.buf (pos + i) (some (t.call, t.size - t.todo + i)) }
      .next (if i + 1 < cando then s else writeDone s w cando)

/-! ### The system -/

inductive Act
  | read (r : Nat) (size : Int) (nonblock : Bool)
  | readGo (r : Nat) (signal : Bool)
  | write (w : Nat) (size : Int) (nonblock : Bool)
  | writeGo (w : Nat) (signal : Bool)
  deriving Repr, DecidableEq

def step (s : State) : Act → Outcome State
  | .read r size nonblock =>
      if r < s.tasks ∧ (s.reader r).pc = .idle then .next (protoRead s r size nonblock) else .disabled
  | .readGo r signal => if r < s.tasks then readGo s r signal else .disabled
  | .write w size nonblock =>
      if w < s.tasks ∧ (s.writer w).pc = .idle then .next (protoWrite s w size nonblock) else .disabled
  | .writeGo w signal => if w < s.tasks then writeGo s w signal else .disabled

/-- Just connected. -/
structure Init (s : State) : Prop where
  bpHead : s.bpHead = 0
  bpTail : s.bpTail = 0
  reader : ∀ r, (s.reader r).pc = .idle
  writer : ∀ w, (s.writer w).pc = .idle
  killed : s.killed = false
  readRet : ∀ c, s.readRet c = none
  writeRet : ∀ c, s.writeRet c = none
  counted : s.counted = []
  delivered : s.delivered = []

/-! ### What has to hold -/

structure Sound (s : State) : Prop where
  /-- The bytes are delivered in the order in which they were counted. -/
  inOrder : s.delivered.map (·.2) = (s.counted.take s.delivered.length).map some
  /-- The others are in the buffer. -/
  kept : (s.delivered.length : Int) + bufAvail s = s.counted.length ∧
    ∀ p, s.delivered.length ≤ p → p < s.counted.length → s.buf (p % BUF_SIZE) = s.counted[p]?
  once : s.counted.Nodup
  /-- A call of `unix_proto_write` has counted what it returns, in the order of its `ubuf`. -/
  writeRet : ∀ c ret, s.writeRet c = some ret →
    s.counted.filter (·.1 = c) = (List.range ret.toNat).map fun k => (c, k)
  /-- To a call of `unix_proto_read` has been delivered what it returns. -/
  readRet : ∀ c ret, s.readRet c = some ret →
    (s.delivered.filter (·.1 = c)).length = ret.toNat
  killed : s.killed = false

/-! ### The condition -/

def copying (t : Task) : Bool :=
  match t.pc with
  | .copy _ _ _ => true
  | _ => false

/-- The byte that is copied next is there: it is one of those available. At the end of a chunk
no other task is copying from the buffer. -/
def ReadFits (s : State) (r : Nat) : Prop :=
  match (s.reader r).pc with
  | .copy cando pos i =>
      pos + i < BUF_SIZE ∧ (i : Int) < bufAvail s ∧
        (i + 1 = cando → ∀ r' < s.tasks, r' ≠ r → copying (s.reader r') = false)
  | _ => True

/-- The place of the byte that is copied next is free. At the end of a chunk there is still
space for it, and no other task is copying into the buffer. -/
def WriteFits (s : State) (w : Nat) : Prop :=
  match (s.writer w).pc with
  | .copy cando pos i =>
      pos + i < BUF_SIZE ∧ (i : Int) ≤ bufSpace s ∧
        (i + 1 = cando → (i : Int) < bufSpace s ∧
          ∀ w' < s.tasks, w' ≠ w → copying (s.writer w') = false)
  | _ => True

def Fits (s : State) : Act → Prop
  | .readGo r _ => ReadFits s r
  | .writeGo w _ => WriteFits s w
  | _ => True

instance (s : State) (a : Act) : Decidable (Fits s a) := by
  cases a with
  | readGo r _ => unfold Fits ReadFits; dsimp only; split <;> infer_instance
  | writeGo w _ => unfold Fits WriteFits; dsimp only; split <;> infer_instance
  | read _ _ _ => exact isTrue trivial
  | write _ _ _ => exact isTrue trivial

end LinuxKernel.V098.Net.Unix
