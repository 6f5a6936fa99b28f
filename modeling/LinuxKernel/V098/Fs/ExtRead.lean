import LinuxKernel.V098.Fs.ExtInode

/-!
# LinuxKernel.V098.Fs.ExtRead

**Reading a file** of an extended file system: `ext_file_read` of `fs/ext/file.c`, and the loop
that takes one block after the other.

- The ring `buflist` has `nbuf` slots; `bhb` and `bhe` are places in it. `block` and `blocks`
  are plain integers, only the sum that `blocks` is computed from can wrap around.
- Before each turn of the loop any of the requests under way may be over (`arrived`).
- `out` is what has been put into the user's buffer. `got` and `released` are history: the
  buffers that `ext_getblk` has returned and those released, in order.
-/

namespace LinuxKernel.V098.Fs.Ext

open FreeLists

def EINVAL : Int := 22
def EIO : Int := 5

variable (sb : Super) (readable : Nat → Bool) (nbuf : Nat) (arrived : Nat → Nat → Bool)

/-- The requests for these buffers are over. -/
def settle (which : Nat → Bool) (s : State) : State :=
  { s with buffer := fun n => if which n then (s.buffer n).complete readable n else s.buffer n }

/-- The variables of `ext_file_read`. -/
structure Reading where
  s : State
  buflist : Nat → Option Nat
  bhb : Nat
  bhe : Nat
  block : Int
  blocks : Int
  left : Int
  offset : Int
  read : Int
  fPos : Int
  out : List (BitVec 8)
  turns : Nat
  got : List Nat
  released : List Nat

/-- `if (++bh == &buflist[NBUF]) bh = buflist;` -/
def nextSlot (i : Nat) : Nat := if i + 1 = nbuf then 0 else i + 1

/-- What `ext_getblk` returns, asked for. -/
def startRead (s : State) : Option Nat → State
  | none => s
  | some n => if s.uptodate n then s else llRwBlock readable s n

/-- `ext_getblk(inode,block++,0)` for the slot `bhb`. -/
def fill (r : Reading) : Reading :=
  let g := extGetblk sb readable r.s r.block false
  { r with
    s := startRead readable g.1 g.2
    buflist := Function.update r.buflist r.bhb g.2
    bhb := nextSlot nbuf r.bhb
    block := r.block + 1
    blocks := r.blocks - 1
    got := r.got ++ g.2.toList }

/-- `brelse(*bhe)`, and on to the next slot. -/
def dropSlot (r : Reading) : Reading :=
  { r with
    s := brelse readable r.s (r.buflist r.bhe)
    bhe := nextSlot nbuf r.bhe
    released := r.released ++ (r.buflist r.bhe).toList }

/-- The loop behind a block that could not be read. `n` is enough when it comes to 0 slots. -/
def drain : Nat → Reading → Reading
  | 0, r => r
  | n + 1, r =>
      let r := dropSlot readable nbuf r
      if r.bhe = r.bhb then r else drain n r

def chunkLength (r : Reading) : Int :=
  if r.left < (BLOCK_SIZE : Int) - r.offset then r.left else (BLOCK_SIZE : Int) - r.offset

/-- What is copied of a buffer, and the zeros for a hole. -/
def chunk (s : State) (bh : Option Nat) (offset chars : Int) : List (BitVec 8) :=
  match bh with
  | none => List.replicate chars.toNat 0
  | some n => (List.range chars.toNat).map fun i => s.data n (offset.toNat + i)

/-- One block, from `chars` on. -/
def take (r : Reading) : Reading :=
  let chars := chunkLength r
  let r' := dropSlot readable nbuf r
  { r' with
    fPos := r.fPos + chars
    left := r.left - chars
    read := r.read + chars
    out := r.out ++ chunk r.s (r.buflist r.bhe) r.offset chars
    offset := 0 }

/-- The buffer that is waited for has not been read. -/
def failed (s : State) : Option Nat → Bool
  | none => false
  | some n => !s.uptodate n

/-- The body of the loop, and whether it was the last turn. -/
def body (r : Reading) : Reading × Bool :=
  let r' := if r.blocks ≠ 0 then fill sb readable nbuf r else r
  if r.blocks ≠ 0 ∧ r'.bhb ≠ r'.bhe then (r', decide (r'.left ≤ 0))
  else
    let r' := { r' with s := (r'.buflist r'.bhe).elim r'.s (waitOnBuffer readable r'.s) }
    if failed r'.s (r'.buflist r'.bhe) then (drain readable nbuf nbuf r', true)
    else
      let r' := take readable nbuf r'
      (r', decide (r'.left ≤ 0))

/-- One turn of the loop. -/
def turn (r : Reading) : Reading × Bool :=
  body sb readable nbuf
    { r with s := settle readable (arrived r.turns) r.s, turns := r.turns + 1 }

/-- The loop, `none` when it takes more than `fuel` turns. -/
def loop : Nat → Reading → Option Reading
  | 0, _ => none
  | fuel + 1, r =>
      let t := turn sb readable nbuf arrived r
      if t.2 then some t.1 else loop fuel t.1

/-- How much of the file is wanted. -/
def wanted (iSize fPos count : Int) : Int :=
  let left := if iSize < fPos then 0 else int32 (iSize - fPos)
  if count < left then count else left

/-- `blocks`, in `int`s. -/
def blocksFor (left offset : Int) : Int :=
  (int32 (left + offset + (BLOCK_SIZE : Int) - 1)).tdiv BLOCK_SIZE

/-- The variables before the loop. -/
def startReading (s : State) (fPos left : Int) : Reading where
  s := s
  buflist := fun _ => none
  bhb := 0
  bhe := 0
  block := fPos / BLOCK_SIZE
  blocks := blocksFor left (fPos % BLOCK_SIZE)
  left := left
  offset := fPos % BLOCK_SIZE
  read := 0
  fPos := fPos
  out := []
  turns := 0
  got := []
  released := []

/-- What a call of `ext_file_read` leaves behind. -/
structure Result where
  s : State
  ret : Int
  out : List (BitVec 8)
  fPos : Int
  got : List Nat
  released : List Nat

/-- `ext_file_read`; `isFile` says that the inode is a regular file or a directory. -/
def extFileRead (fuel : Nat) (isFile : Bool) (s : State) (fPos count : Int) : Option Result :=
  if isFile = false then some ⟨s, -EINVAL, [], fPos, [], []⟩
  else
    let left := wanted s.iSize fPos count
    if left ≤ 0 then some ⟨s, 0, [], fPos, [], []⟩
    else
      (loop sb readable nbuf arrived fuel (startReading s fPos left)).map fun r =>
        ⟨r.s, if r.read = 0 then - EIO else r.read, r.out, r.fPos, r.got, r.released⟩

/-! ### One block at a time -/

/-- What is left to do. -/
structure Plain where
  s : State
  block : Int
  left : Int
  offset : Int
  out : List (BitVec 8)

/-- Fetches, waits for and copies one block after the other, and stops at the first that fails. -/
def plainLoop : Nat → Plain → Option Plain
  | 0, _ => none
  | fuel + 1, p =>
      if p.left ≤ 0 then some p
      else
        let g := extGetblk sb readable p.s p.block false
        let s := startRead readable g.1 g.2
        let s := g.2.elim s (waitOnBuffer readable s)
        if failed s g.2 then some { p with s := brelse readable s g.2 }
        else
          let chars := min p.left ((BLOCK_SIZE : Int) - p.offset)
          plainLoop fuel
            { s := brelse readable s g.2
              block := p.block + 1
              left := p.left - chars
              offset := 0
              out := p.out ++ chunk s g.2 p.offset chars }

/-- `ext_file_read` with that loop: byte count, user data and `f_pos`. -/
def plainRead (fuel : Nat) (isFile : Bool) (s : State) (fPos count : Int) :
    Option (Int × List (BitVec 8) × Int) :=
  if isFile = false then some (-EINVAL, [], fPos)
  else
    let left := wanted s.iSize fPos count
    if left ≤ 0 then some (0, [], fPos)
    else
      (plainLoop sb readable fuel
        ⟨s, fPos / BLOCK_SIZE, left, fPos % BLOCK_SIZE, []⟩).map fun p =>
          (if p.out = [] then - EIO else p.out.length, p.out, fPos + p.out.length)

end LinuxKernel.V098.Fs.Ext
