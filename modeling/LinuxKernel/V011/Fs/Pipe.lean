import LinuxKernel.Lib.System

/-!
# LinuxKernel.V011.Fs.Pipe

**Pipes**: `read_pipe` and `write_pipe` of `fs/pipe.c`, for one reader and one
writer.

Both advance their index first and copy then. `put_fs_byte` and `get_fs_byte`
may sleep in a page fault, so a step takes a task from one of them, or from a
`sleep_on`, to the next. What the writer has claimed and not yet filled, and
what the reader has claimed and not yet taken, is the part of a chunk that is
`left`.

- `writeGo c`: `c` is the byte that `get_fs_byte` finds.
- `consumed` and `delivered` are history: the bytes that `get_fs_byte` has
  returned and those that `put_fs_byte` has stored.
-/

namespace LinuxKernel.V011.Fs.Pipe

/-! ### The code -/

def PAGE_SIZE : Nat := 4096

inductive ReaderPc
  | idle
  | head
  | asleep
  /-- In `put_fs_byte` with `c`; `size` and `chars` are `slot` and `left`. -/
  | copying (c : BitVec 8) (slot left : Nat)
  deriving DecidableEq, Repr

inductive WriterPc
  | idle
  | head
  | asleep
  /-- In `get_fs_byte`, for `slot`. -/
  | copying (slot left : Nat)
  deriving DecidableEq, Repr

/-- The variables of the two functions; `ret` is what the last calls have returned. -/
structure State where
  head : BitVec 16
  tail : BitVec 16
  iCount : Nat
  page : Nat → BitVec 8
  reader : ReaderPc
  toRead : Int
  read : Int
  readRet : Int
  writer : WriterPc
  toWrite : Int
  written : Int
  writeRet : Int
  sigpipe : Bool
  consumed : List (BitVec 8)
  delivered : List (BitVec 8)

/-- `PIPE_SIZE`. -/
def pipeSize (s : State) : Nat := (((s.head.toNat : Int) - s.tail.toNat) % 4096).toNat

/-- `i += chars; i &= (PAGE_SIZE-1);` on an `unsigned short`. -/
def advance (i : BitVec 16) (chars : Nat) : BitVec 16 := (i + BitVec.ofNat 16 chars) &&& 4095#16

/-- `chars`: up to the end of the page, and no more than the two bounds. -/
def chunk (i : BitVec 16) (count : Int) (size : Nat) : Nat :=
  min (min (PAGE_SIZE - i.toNat) count.toNat) size

/-- `read_pipe` from the head of its loop to the first `put_fs_byte`. -/
def readHead (s : State) : State :=
  if s.toRead ≤ 0 then { s with reader := .idle, readRet := s.read }
  else if pipeSize s = 0 then
    if s.iCount ≠ 2 then { s with reader := .idle, readRet := s.read }
    else { s with reader := .asleep }
  else
    let chars := chunk s.tail s.toRead (pipeSize s)
    { s with
      toRead := s.toRead - chars
      read := s.read + chars
      tail := advance s.tail chars
      reader := .copying (s.page s.tail.toNat) (s.tail.toNat + 1) (chars - 1) }

def readGo (s : State) : Outcome State :=
  match s.reader with
  | .idle => .disabled
  | .head => .next (readHead s)
  | .asleep => .next (readHead s)
  | .copying c slot left =>
      let s := { s with delivered := s.delivered ++ [c] }
      if left = 0 then .next { s with reader := .head }
      else .next { s with reader := .copying (s.page slot) (slot + 1) (left - 1) }

/-- `write_pipe` from the head of its loop to the first `get_fs_byte`. -/
def writeHead (s : State) : State :=
  if s.toWrite ≤ 0 then { s with writer := .idle, writeRet := s.written }
  else if PAGE_SIZE - 1 - pipeSize s = 0 then
    if s.iCount ≠ 2 then
      { s with
        writer := .idle, writeRet := if s.written ≠ 0 then s.written else -1, sigpipe := true }
    else { s with writer := .asleep }
  else
    let chars := chunk s.head s.toWrite (PAGE_SIZE - 1 - pipeSize s)
    { s with
      toWrite := s.toWrite - chars
      written := s.written + chars
      head := advance s.head chars
      writer := .copying s.head.toNat chars }

def writeGo (s : State) (c : BitVec 8) : Outcome State :=
  match s.writer with
  | .idle => .disabled
  | .head => .next (writeHead s)
  | .asleep => .next (writeHead s)
  | .copying slot left =>
      .next { s with
        page := Function.update s.page slot c
        consumed := s.consumed ++ [c]
        writer := if left - 1 = 0 then .head else .copying (slot + 1) (left - 1) }

inductive Op
  | read (count : Int)
  | readGo
  | write (count : Int)
  | writeGo (c : BitVec 8)
  /-- The other end is closed. -/
  | close

def step (s : State) : Op → Outcome State
  | .read count =>
      if s.reader = .idle then .next { s with reader := .head, toRead := count, read := 0 }
      else .disabled
  | .readGo => readGo s
  | .write count =>
      if s.writer = .idle then .next { s with writer := .head, toWrite := count, written := 0 }
      else .disabled
  | .writeGo c => writeGo s c
  | .close => .next { s with iCount := s.iCount - 1 }

/-- A new pipe, on a free page. -/
def initial (page : Nat → BitVec 8) : State where
  head := 0
  tail := 0
  iCount := 2
  page := page
  reader := .idle
  toRead := 0
  read := 0
  readRet := 0
  writer := .idle
  toWrite := 0
  written := 0
  writeRet := 0
  sigpipe := false
  consumed := []
  delivered := []

/-! ### What is claimed -/

/-- How much of its chunk the writer still has to fill. -/
def toFill (s : State) : Nat :=
  match s.writer with
  | .copying _ left => left
  | _ => 0

/-- How much of its chunk the reader still has to take. -/
def toTake (s : State) : Nat :=
  match s.reader with
  | .copying _ _ left => left
  | _ => 0

/-- What the reader has taken: also the byte it is about to store. -/
def taken (s : State) : List (BitVec 8) :=
  match s.reader with
  | .copying c _ _ => s.delivered ++ [c]
  | _ => s.delivered

/-- The bytes delivered are the first of those consumed, the indices are in
range, and what is claimed by the writer only is the size, at most 4095. -/
structure Fifo (s : State) : Prop where
  inOrder : s.delivered <+: s.consumed
  head : s.head.toNat < PAGE_SIZE
  tail : s.tail.toNat < PAGE_SIZE
  size : s.consumed.length + toFill s = (taken s).length + toTake s + pipeSize s
  bound : pipeSize s ≤ PAGE_SIZE - 1

/-- The writer has claimed the slot and not filled it. -/
def Unfilled (s : State) (i : Nat) : Prop :=
  match s.writer with
  | .copying slot left => slot ≤ i ∧ i < slot + left
  | _ => False

/-- The reader has claimed the slot and not taken it. -/
def Untaken (s : State) (i : Nat) : Prop :=
  match s.reader with
  | .copying _ slot left => slot ≤ i ∧ i < slot + left
  | _ => False

/-- The slot that the reader takes a byte from when it goes on. -/
def takeSlot (s : State) : Option Nat :=
  match s.reader with
  | .idle => none
  | .copying _ slot left => if left = 0 then none else some slot
  | _ => if s.toRead ≤ 0 ∨ pipeSize s = 0 then none else some s.tail.toNat

/-- The reader takes no byte that the writer has yet to fill, and the writer
fills no slot that the reader has yet to take. -/
def CopyOk (s : State) : Op → Prop
  | .readGo => ∀ i, takeSlot s = some i → ¬Unfilled s i
  | .writeGo _ => ∀ slot left, s.writer = .copying slot left → ¬Untaken s slot
  | _ => True

end LinuxKernel.V011.Fs.Pipe
