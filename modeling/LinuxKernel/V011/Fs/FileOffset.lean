import LinuxKernel.V011.Fs.Buffer

/-!
# LinuxKernel.V011.Fs.FileOffset

**The positions of a regular file**: `sys_open`, `sys_lseek`, `sys_read` and
`sys_write` (`fs/open.c`, `fs/read_write.c`, `fs/file_dev.c`) by one task.

- All numbers are 32 bits wide. `off_t` and `int` are signed, `i_size` is not, and a
  comparison with it is one of unsigned numbers.
- What is in the blocks, and where they are, is left out: the test of the block number
  in `_bmap` comes before it looks. `blocks` is the number of blocks a call gets before
  `create_block` or `bread` fails.
-/

namespace LinuxKernel.V011.Fs.FileOffset

/-! ### The data model -/

abbrev Word := BitVec 32

def NR_OPEN : Nat := 20
def ERROR : Int := 99
def EBADF : Int := 9
def EINVAL : Int := 22
/-- The blocks of a file: direct, single and double indirect. -/
def MAX_BLOCKS : Nat := 7 + 512 + 512 * 512

/-- `struct file`: `f_pos`, and `f_flags & O_APPEND`. -/
structure File where
  pos : Word
  append : Bool

structure State where
  /-- `i_dev` of the file. -/
  dev : Dev
  /-- `i_size`. -/
  size : Word
  filp : Nat → Option File

/-- A call. `sys_open` may fail in `open_namei`. -/
inductive Call
  | openFile (err : Option Int) (trunc append : Bool)
  | lseek (fd : Nat) (offset origin : Word)
  | read (fd : Nat) (count : Word) (blocks : Nat)
  | write (fd : Nat) (count : Word) (blocks : Nat)

/-! ### The code -/

def IS_SEEKABLE (major : Nat) : Bool := 1 ≤ major ∧ major ≤ 3

/-- The tests at the start of `_bmap`. -/
def bmapPanic (block : Word) : Option String :=
  if block.slt 0 then some "_bmap: block<0"
  else if (BitVec.ofNat 32 MAX_BLOCKS).sle block then some "_bmap: block>big"
  else none

/-- `MIN`. -/
def minWord (a b : Word) : Word := if a.slt b then a else b

def blockSize : Word := BitVec.ofNat 32 BLOCK_SIZE

/-- The loop of `file_read`: `f_pos` and `left` at its end. -/
def readLoop (pos left : Word) (blocks : Nat) : Outcome (Word × Word) :=
  if left = 0 then .next (pos, left)
  else
    match bmapPanic (pos.sdiv blockSize) with
    | some msg => .panic msg
    | none =>
        match blocks with
        | 0 => .next (pos, left)
        | blocks + 1 =>
            let chars := minWord (blockSize - pos.srem blockSize) left
            readLoop (pos + chars) (left - chars) blocks

/-- The loop of `file_write`: `pos`, `i` and `i_size` at its end. -/
def writeLoop (pos i count size : Word) (blocks : Nat) : Outcome (Word × Word × Word) :=
  if i.slt count then
    match bmapPanic (pos.sdiv blockSize) with
    | some msg => .panic msg
    | none =>
        match blocks with
        | 0 => .next (pos, i, size)
        | blocks + 1 =>
            let c := minWord (count - i) (blockSize - pos.srem blockSize)
            let pos := pos + c
            writeLoop pos (i + c) count (if size.ult pos then pos else size) blocks
  else .next (pos, i, size)

def State.setPos (s : State) (fd : Nat) (f : File) (pos : Word) : State :=
  { s with filp := Function.update s.filp fd (some { f with pos := pos }) }

/-- `sys_open`. -/
def sysOpen (s : State) (err : Option Int) (trunc append : Bool) : State × Int :=
  match (List.range NR_OPEN).find? fun fd => (s.filp fd).isNone with
  | none => (s, - EINVAL)
  | some fd =>
      match err with
      | some err => (s, err)
      | none =>
          ({ s with
            size := if trunc then 0 else s.size
            filp := Function.update s.filp fd (some { pos := 0, append := append }) }, fd)

/-- `sys_lseek`. -/
def sysLseek (s : State) (fd : Nat) (offset origin : Word) : State × Int :=
  match s.filp fd with
  | none => (s, - EBADF)
  | some f =>
      if NR_OPEN ≤ fd ∨ IS_SEEKABLE (MAJOR s.dev) = false then (s, - EBADF)
      else if origin = 0 then
        if offset.slt 0 then (s, - EINVAL) else (s.setPos fd f offset, offset.toInt)
      else if origin = 1 then
        if (f.pos + offset).slt 0 then (s, - EINVAL)
        else (s.setPos fd f (f.pos + offset), (f.pos + offset).toInt)
      else if origin = 2 then
        if (s.size + offset).slt 0 then (s, - EINVAL)
        else (s.setPos fd f (s.size + offset), (s.size + offset).toInt)
      else (s, - EINVAL)

/-- `file_read`. -/
def fileRead (s : State) (fd : Nat) (f : File) (count : Word) (blocks : Nat) :
    Outcome (State × Int) :=
  (readLoop f.pos count blocks).bind fun r => .next (s.setPos fd f r.1,
    if count - r.2 = 0 then - ERROR else (count - r.2).toInt)

/-- `sys_read`. -/
def sysRead (s : State) (fd : Nat) (count : Word) (blocks : Nat) : Outcome (State × Int) :=
  match s.filp fd with
  | none => .next (s, - EINVAL)
  | some f =>
      if NR_OPEN ≤ fd ∨ count.slt 0 then .next (s, - EINVAL)
      else if count = 0 then .next (s, 0)
      else
        let count := if s.size.ult (count + f.pos) then s.size - f.pos else count
        if count.sle 0 then .next (s, 0) else fileRead s fd f count blocks

/-- `file_write`. -/
def fileWrite (s : State) (fd : Nat) (f : File) (count : Word) (blocks : Nat) :
    Outcome (State × Int) :=
  (writeLoop (if f.append then s.size else f.pos) 0 count s.size blocks).bind fun r =>
    let s := { s with size := r.2.2 }
    .next (if f.append then s else s.setPos fd f r.1, if r.2.1 = 0 then -1 else r.2.1.toInt)

/-- `sys_write`. -/
def sysWrite (s : State) (fd : Nat) (count : Word) (blocks : Nat) : Outcome (State × Int) :=
  match s.filp fd with
  | none => .next (s, - EINVAL)
  | some f =>
      if NR_OPEN ≤ fd ∨ count.slt 0 then .next (s, - EINVAL)
      else if count = 0 then .next (s, 0)
      else fileWrite s fd f count blocks

def call (s : State) : Call → Outcome (State × Int)
  | .openFile err trunc append => .next (sysOpen s err trunc append)
  | .lseek fd offset origin => .next (sysLseek s fd offset origin)
  | .read fd count blocks => sysRead s fd count blocks
  | .write fd count blocks => sysWrite s fd count blocks

def step (s : State) (a : Call) : Outcome State := (call s a).bind fun r => .next r.1

end LinuxKernel.V011.Fs.FileOffset
