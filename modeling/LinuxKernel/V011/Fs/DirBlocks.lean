import LinuxKernel.V011.Fs.Buffer
import LinuxKernel.V011.Fs.Dir

/-!
# LinuxKernel.V011.Fs.DirBlocks

**A directory and its blocks**: `_bmap` (`fs/inode.c`), and `find_entry`, `add_entry` and
`empty_dir` (`fs/namei.c`), with the buffers they hold.

- `data` is what the buffer of a block has once it has been read. `count` has the
  references this call has taken; those of others would only hide a release too many.
- `bread` may fail each time, and `new_block` gives any block or none. `read k` and `alloc k`
  say how the calls for block `k` of the directory end: for the block of an inode or an
  indirect block, for a second indirect block, and for the block itself.
- A pointer to an entry is a buffer and the number of the entry in it. Number 64 is past
  the end. A pointer of a `NULL` buffer is used like any other.
- What `find_entry` does to the references of inodes at a mount point is left out, and so
  are the times and `i_dirt`.
-/

namespace LinuxKernel.V011.Fs.DirBlocks

open Dir

/-! ### The data model -/

/-- `unsigned short`, for block and inode numbers on the disk. -/
abbrev Short := BitVec 16

/-- `struct m_inode` of a directory. -/
structure Inode where
  num : Short
  size : Nat
  zone : Nat → Short

structure State where
  dir : Inode
  data : Short → Block
  count : Short → Nat

structure Env where
  read : Nat → Nat → Bool
  alloc : Nat → Nat → Short

/-- Word `i` of a block. -/
def word (b : Block) (i : Nat) : Short := b (2 * i + 1) ++ b (2 * i)

def putWord (b : Block) (i : Nat) (v : Short) : Block :=
  Function.update (Function.update b (2 * i) (v.setWidth 8)) (2 * i + 1) ((v >>> 8).setWidth 8)

/-- Entry `j` of a block. -/
def entryAt (b : Block) (j : Nat) : DirEntry where
  inode := word b (8 * j)
  name k := .ofBitVec (b (16 * j + 2 + k))

/-- A name of 14 bytes, stored in entry `j`. -/
def putName (b : Block) (j : Nat) (name : Fin NAME_LEN → UInt8) : Block := fun i =>
  if h : 16 * j + 2 ≤ i ∧ i < 16 * j + 16 then
    (name ⟨i - (16 * j + 2), by unfold NAME_LEN; omega⟩).toBitVec
  else b i

/-! ### Buffers -/

namespace State

def hold (s : State) (b : Short) : State :=
  { s with count := Function.update s.count b (s.count b + 1) }

def setData (s : State) (b : Short) (d : Block) : State :=
  { s with data := Function.update s.data b d }

def brelse (s : State) (b : Short) : Outcome State :=
  if s.count b = 0 then .panic "Trying to free free buffer"
  else .next { s with count := Function.update s.count b (s.count b - 1) }

/-- `brelse` of a pointer that may be `NULL`. -/
def brelse? (s : State) : Option Short → Outcome State
  | none => .next s
  | some b => s.brelse b

/-- `new_block`: the block is zeroed. `z` is what the zone map gives, 0 for nothing. -/
def newBlock (s : State) (z : Short) : Outcome State :=
  if z = 0 then .next s
  else if s.count z ≠ 0 then .panic "new block: count is != 1"
  else .next (s.setData z fun _ => 0)

end State

/-! ### `_bmap` -/

/-- Zone `i` of the inode, which `create` may have made. -/
def inodeZone (s : State) (i : Nat) (create : Bool) (z : Short) : Outcome (State × Short) :=
  if create ∧ s.dir.zone i = 0 then
    (s.newBlock z).bind fun s =>
      .next ({ s with dir := { s.dir with zone := Function.update s.dir.zone i z } }, z)
  else .next (s, s.dir.zone i)

/-- Word `w` of indirect block `b`, which `create` may have made. -/
def indirect (s : State) (b : Short) (w : Nat) (create ok : Bool) (z : Short) :
    Outcome (State × Short) :=
  if b = 0 ∨ ok = false then .next (s, 0)
  else
    let s := s.hold b
    if create ∧ word (s.data b) w = 0 then
      (s.newBlock z).bind fun s =>
        ((s.setData b (putWord (s.data b) w z)).brelse b).bind fun s => .next (s, z)
    else (s.brelse b).bind fun s' => .next (s', word (s.data b) w)

def bmap (env : Env) (s : State) (k : Nat) (create : Bool) : Outcome (State × Short) :=
  if MAX_BLOCKS ≤ k then .panic "_bmap: block>big"
  else if k < 7 then inodeZone s k create (env.alloc k 0)
  else if k - 7 < 512 then
    (inodeZone s 7 create (env.alloc k 0)).bind fun r =>
      indirect r.1 r.2 (k - 7) create (env.read k 0) (env.alloc k 1)
  else
    (inodeZone s 8 create (env.alloc k 0)).bind fun r =>
      (indirect r.1 r.2 ((k - 7 - 512) / 512) create (env.read k 0) (env.alloc k 1)).bind fun r =>
        indirect r.1 r.2 ((k - 7 - 512) % 512) create (env.read k 1) (env.alloc k 2)

/-! ### `find_entry` -/

/-- The loop of `find_entry`. A fuel of `entries - i` is enough. -/
def findLoop (env : Env) (name : List UInt8) (entries : Nat) :
    Nat → State → Nat → Option Short → Nat → Outcome (State × Option (Short × Nat))
  | 0, s, _, bh, _ => (s.brelse? bh).bind fun s => .next (s, none)
  | n + 1, s, i, bh, de =>
      if i < entries then
        match bh with
        | none => .panic "NULL pointer"
        | some b =>
            if DIR_ENTRIES_PER_BLOCK ≤ de then
              (s.brelse b).bind fun s =>
                (bmap env s (i / DIR_ENTRIES_PER_BLOCK) false).bind fun r =>
                  if r.2 = 0 ∨ env.read (i / DIR_ENTRIES_PER_BLOCK) 2 = false then
                    findLoop env name entries n r.1 (i + DIR_ENTRIES_PER_BLOCK) none de
                  else
                    let s := r.1.hold r.2
                    if matchEntry name.length name (entryAt (s.data r.2) 0) then
                      .next (s, some (r.2, 0))
                    else findLoop env name entries n s (i + 1) (some r.2) 1
            else if matchEntry name.length name (entryAt (s.data b) de) then
              .next (s, some (b, de))
            else findLoop env name entries n s (i + 1) (some b) (de + 1)
      else (s.brelse? bh).bind fun s => .next (s, none)

/-- What `..` means in a directory: it may be the root of the process, or the root of a
mounted device. -/
structure Place where
  isRoot : Bool
  imount : Option Inode

/-- The directory that is searched. -/
def Place.dir (place : Place) (dir : Inode) (name : List UInt8) : Inode :=
  if name = [46, 46] ∧ place.isRoot = false then place.imount.getD dir else dir

/-- The name that is looked for. -/
def Place.name (place : Place) (name : List UInt8) : List UInt8 :=
  if name = [46, 46] ∧ place.isRoot then [46] else name

/-- `find_entry`. The number of entries is that of the directory it is called for. -/
def findEntry (env : Env) (place : Place) (s : State) (name : List UInt8) :
    Outcome (State × Option (Short × Nat)) :=
  let entries := s.dir.size / 16
  let name := name.take NAME_LEN
  if name = [] then .next (s, none)
  else
    let s := { s with dir := place.dir s.dir name }
    if s.dir.zone 0 = 0 ∨ env.read 0 2 = false then .next (s, none)
    else findLoop env (place.name name) entries entries (s.hold (s.dir.zone 0)) 0
      (some (s.dir.zone 0)) 0

/-! ### `add_entry` -/

/-- The end of a round of `add_entry`, at entry `de` of buffer `b`. -/
def addHere (s : State) (name : List UInt8) (i : Nat) (b : Short) (de : Nat) :
    State × Bool :=
  let s := if s.dir.size ≤ i * 16 then
      { s.setData b (putWord (s.data b) (8 * de) 0) with dir := { s.dir with size := (i + 1) * 16 } }
    else s
  if (entryAt (s.data b) de).inode = 0 then
    (s.setData b (putName (s.data b) de (padded name)), true)
  else (s, false)

/-- The loop of `add_entry`. It comes to an entry or to the end of the largest file, and the
fuel is for that. -/
def addLoop (env : Env) (name : List UInt8) :
    Nat → State → Nat → Option Short → Nat → Outcome (State × Option (Short × Nat))
  | 0, _, _, _, _ => .disabled
  | n + 1, s, i, bh, de =>
      match bh with
      | none => .panic "NULL pointer"
      | some b =>
          if DIR_ENTRIES_PER_BLOCK ≤ de then
            (s.brelse b).bind fun s =>
              (bmap env s (i / DIR_ENTRIES_PER_BLOCK) true).bind fun r =>
                if r.2 = 0 then .next (r.1, none)
                else if env.read (i / DIR_ENTRIES_PER_BLOCK) 2 = false then
                  addLoop env name n r.1 (i + DIR_ENTRIES_PER_BLOCK) none de
                else
                  let t := addHere (r.1.hold r.2) name i r.2 0
                  if t.2 then .next (t.1, some (r.2, 0))
                  else addLoop env name n t.1 (i + 1) (some r.2) 1
          else
            let t := addHere s name i b de
            if t.2 then .next (t.1, some (b, de))
            else addLoop env name n t.1 (i + 1) (some b) (de + 1)

/-- `add_entry`. -/
def addEntry (env : Env) (s : State) (name : List UInt8) :
    Outcome (State × Option (Short × Nat)) :=
  let name := name.take NAME_LEN
  if name = [] ∨ s.dir.zone 0 = 0 ∨ env.read 0 2 = false then .next (s, none)
  else addLoop env name (MAX_BLOCKS * DIR_ENTRIES_PER_BLOCK + 1) (s.hold (s.dir.zone 0)) 0
    (some (s.dir.zone 0)) 0

/-! ### `empty_dir` -/

/-- The loop of `empty_dir`. A fuel of `len - nr` is enough. -/
def emptyLoop (env : Env) (len : Nat) :
    Nat → State → Nat → Short → Nat → Outcome (State × Int)
  | 0, s, _, b, _ => (s.brelse b).bind fun s => .next (s, 1)
  | n + 1, s, nr, b, de =>
      if nr < len then
        if DIR_ENTRIES_PER_BLOCK ≤ de then
          (s.brelse b).bind fun s =>
            (bmap env s (nr / DIR_ENTRIES_PER_BLOCK) false).bind fun r =>
              if r.2 = 0 then emptyLoop env len n r.1 (nr + DIR_ENTRIES_PER_BLOCK) b de
              else if env.read (nr / DIR_ENTRIES_PER_BLOCK) 2 = false then .next (r.1, 0)
              else
                let s := r.1.hold r.2
                if (entryAt (s.data r.2) 0).inode ≠ 0 then
                  (s.brelse r.2).bind fun s => .next (s, 0)
                else emptyLoop env len n s (nr + 1) r.2 1
        else if (entryAt (s.data b) de).inode ≠ 0 then (s.brelse b).bind fun s => .next (s, 0)
        else emptyLoop env len n s (nr + 1) b (de + 1)
      else (s.brelse b).bind fun s => .next (s, 1)

/-- `strcmp(str, de->name)`, which looks one byte past `str`. -/
def nameIs (str : List UInt8) (de : DirEntry) : Bool :=
  (List.ofFn de.name).take (str.length + 1) = str ++ [0]

/-- `empty_dir`. -/
def emptyDir (env : Env) (s : State) : Outcome (State × Int) :=
  let len := s.dir.size / 16
  let b := s.dir.zone 0
  if len < 2 ∨ b = 0 ∨ env.read 0 2 = false then .next (s, 0)
  else
    let s := s.hold b
    let de := entryAt (s.data b)
    if (de 0).inode ≠ s.dir.num ∨ (de 1).inode = 0 ∨ nameIs [46] (de 0) = false ∨
        nameIs [46, 46] (de 1) = false then
      .next (s, 0)
    else emptyLoop env len len s 2 b 2

end LinuxKernel.V011.Fs.DirBlocks
