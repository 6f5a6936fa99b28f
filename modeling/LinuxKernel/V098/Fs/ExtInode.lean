import LinuxKernel.Lib.Ints
import LinuxKernel.V098.Fs.FreeLists
import Mathlib.Data.BitVec

/-!
# LinuxKernel.V098.Fs.ExtInode

**The blocks of a file** of an extended file system: `ext_getblk` of `fs/ext/inode.c`, for one task
and one inode, over the buffers of `fs/buffer.c`.

- A buffer is known by the number of its block: those of one device, and no buffer is given to
  another block while the task runs. `data` is what is in it once it is up to date.
- A block can be read or it cannot (`readable`). A buffer that is being read is locked. The
  request is over when somebody waits for the buffer, or at any time before.
- The free list is that of `FreeLists`: `header` is the contents of the free blocks, `data`
  that of the others.
- With one task the tests for a pointer that has changed meanwhile never succeed.
- `stuck` says that the task has come to a `panic` or waits for a lock that nobody releases.
-/

namespace LinuxKernel.V098.Fs.Ext

open FreeLists

def BLOCK_SIZE : Nat := 1024

/-- The bytes of a block. -/
abbrev Block := Nat → BitVec 8

/-- `((unsigned long *) b_data)[i]` -/
def word (b : Block) (i : Nat) : Nat :=
  (b (4 * i + 3) ++ b (4 * i + 2) ++ b (4 * i + 1) ++ b (4 * i)).toNat

def setWord (b : Block) (i n : Nat) : Block := fun k =>
  if k / 4 = i then (BitVec.ofNat 32 n).extractLsb' (8 * (k % 4)) 8 else b k

/-- `b_uptodate` and `b_lock` of a buffer: being read it is locked, and not up to date. -/
inductive Buffer
  | stale
  | reading
  | uptodate
  deriving DecidableEq

structure State where
  data : Nat → Block
  buffer : Nat → Buffer
  count : Nat → Int
  iData : Nat → Nat
  iSize : Int
  pool : Pool
  /-- `s_lock` -/
  sLock : Bool
  stuck : Bool

variable (sb : Super) (readable : Nat → Bool)

/-! ### Buffers -/

/-- `b_uptodate` -/
def State.uptodate (s : State) (n : Nat) : Bool := s.buffer n = .uptodate

/-- The request for the buffer of block `n`, if there is one, is over. -/
def Buffer.complete (n : Nat) : Buffer → Buffer
  | reading => if readable n then uptodate else stale
  | b => b

def setBuffer (s : State) (n : Nat) (b : Buffer) : State :=
  { s with buffer := Function.update s.buffer n b }

theorem setBuffer_apply (s : State) (n : Nat) (b : Buffer) (m : Nat) :
    (setBuffer s n b).buffer m = if m = n then b else s.buffer m := Function.update_apply ..

def waitOnBuffer (s : State) (n : Nat) : State :=
  setBuffer s n ((s.buffer n).complete readable n)

/-- `ll_rw_block(READ, bh)`, with `lock_buffer` in `make_request`. -/
def llRwBlock (s : State) (n : Nat) : State :=
  let s := waitOnBuffer readable s n
  if s.uptodate n then s else setBuffer s n .reading

def addCount (s : State) (n : Nat) (k : Int) : State :=
  { s with count := Function.update s.count n (s.count n + k) }

theorem addCount_apply (s : State) (n : Nat) (k : Int) (m : Nat) :
    (addCount s n k).count m = s.count m + if m = n then k else 0 := by
  unfold addCount
  dsimp only
  rw [Function.update_apply]
  split
  next h => rw [h]
  next => exact (Int.add_zero _).symm

/-- `getblk`, with `get_hash_table`, which waits for a locked buffer. -/
def getblk (s : State) (n : Nat) : State := addCount (waitOnBuffer readable s n) n 1

def brelse (s : State) : Option Nat → State
  | none => s
  | some n => addCount (waitOnBuffer readable s n) n (-1)

def bread (s : State) (n : Nat) : State × Option Nat :=
  let s := getblk readable s n
  if s.uptodate n then (s, some n)
  else
    let s := waitOnBuffer readable (llRwBlock readable s n) n
    if s.uptodate n then (s, some n) else (brelse readable s (some n), none)

/-! ### `fs/ext/freelists.c` -/

/-- `ext_new_block`, from the check of `j` on. -/
def newBlockClear (s : State) (j : Nat) : State :=
  let s := getblk readable { s with pool := s.pool.pay } j
  brelse readable { setBuffer s j .uptodate with
    stuck := s.stuck || decide (j < sb.firstDataZone ∨ sb.nzones < j) || s.count j != 1
    data := Function.update s.data j fun _ => 0
    pool := s.pool.setOwner j .user } (some j)

/-- `ext_new_block` -/
def extNewBlock (s : State) : State × Nat :=
  if s.sLock then ({ s with stuck := true }, 0)
  else
    match s.pool.efb blockKind with
    | none => (s, 0)
    | some efb =>
        match (s.pool.header efb).free with
        | j :: free => (newBlockClear sb readable { s with pool := s.pool.popEntry efb free } j, j)
        | [] =>
            let j := s.pool.first
            let pool := s.pool.popHeader efb
            let s := brelse readable s s.pool.cached
            if pool.first = 0 then
              (newBlockClear sb readable { s with pool := pool.load blockKind } j, j)
            else
              let r := bread readable s pool.first
              (newBlockClear sb readable
                { r.1 with pool := pool.load blockKind, stuck := s.stuck || r.2.isNone } j, j)

/-! ### `ext_getblk` -/

def inodeGetblk (s : State) (nr : Nat) (create : Bool) : State × Option Nat :=
  if s.iData nr ≠ 0 then (getblk readable s (s.iData nr), some (s.iData nr))
  else if create then
    let r := extNewBlock sb readable s
    if r.2 = 0 then (r.1, none)
    else
      let s := getblk readable r.1 r.2
      ({ s with iData := Function.update s.iData nr r.2 }, some r.2)
  else (s, none)

def blockGetblk (s : State) (bh : Option Nat) (nr : Nat) (create : Bool) : State × Option Nat :=
  match bh with
  | none => (s, none)
  | some n =>
      let s := if s.uptodate n then s else waitOnBuffer readable (llRwBlock readable s n) n
      if s.uptodate n = false then (brelse readable s (some n), none)
      else if word (s.data n) nr ≠ 0 then
        let s' := getblk readable s (word (s.data n) nr)
        (brelse readable s' (some n), some (word (s.data n) nr))
      else if create then
        let r := extNewBlock sb readable s
        if r.2 = 0 then (brelse readable r.1 (some n), none)
        else
          let s := getblk readable r.1 r.2
          (brelse readable
            { s with data := Function.update s.data n (setWord (s.data n) nr r.2) } (some n),
            some r.2)
      else (brelse readable s (some n), none)

def extGetblk (s : State) (block : Int) (create : Bool) : State × Option Nat :=
  if block < 0 then (s, none)
  else if 9 + 256 + 256 * 256 + 256 * 256 * 256 ≤ block then (s, none)
  else if block < 9 then inodeGetblk sb readable s block.toNat create
  else
    let block := block.toNat - 9
    if block < 256 then
      let r := inodeGetblk sb readable s 9 create
      blockGetblk sb readable r.1 r.2 block create
    else
      let block := block - 256
      if block < 256 * 256 then
        let r := inodeGetblk sb readable s 10 create
        let r := blockGetblk sb readable r.1 r.2 (block / 256) create
        blockGetblk sb readable r.1 r.2 (block % 256) create
      else
        let block := block - 256 * 256
        let r := inodeGetblk sb readable s 11 create
        let r := blockGetblk sb readable r.1 r.2 (block / 65536) create
        let r := blockGetblk sb readable r.1 r.2 (block / 256 % 256) create
        blockGetblk sb readable r.1 r.2 (block % 256) create

end LinuxKernel.V098.Fs.Ext
