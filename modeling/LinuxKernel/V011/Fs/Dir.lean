import LinuxKernel.Lib.System

/-!
# LinuxKernel.V011.Fs.Dir

The calls that **put a name into a directory** (`fs/namei.c`): `open_namei` with
`O_CREAT`, `sys_mknod`, `sys_mkdir` and `sys_link`, with `find_entry` and
`add_entry`, for any number of tasks in one directory.

- `dir` has the entries of the directory in order, 64 in a block; those from
  `size` on are not in use.
- A round of a task goes from one place where it may sleep to the next: `bread` and
  `bmap` in the two loops, `new_inode`, and for `sys_mkdir` the block of the new
  directory.
- A call that returns without a new entry leaves the directory alone, so all ways to
  do so are one.

`added` and `Look` are there for statements only: the entries made so far, and what a
call could not know of when it looked its name up.
-/

namespace LinuxKernel.V011.Fs.Dir

/-! ### The data model -/

def NAME_LEN : Nat := 14
def DIR_ENTRIES_PER_BLOCK : Nat := 64
/-- The blocks of a file. -/
def MAX_BLOCKS : Nat := 7 + 512 + 512 * 512

abbrev Task := Nat

/-- `struct dir_entry`. -/
structure DirEntry where
  inode : BitVec 16
  name : Fin NAME_LEN → UInt8

inductive Kind
  | openCreat
  | mknod
  | mkdir
  /-- With the number of the inode linked to. -/
  | link (inum : BitVec 16) (h : inum ≠ 0)

/-- A call, once `dir_namei` and the checks before `find_entry` are through. The directory
is the one that `find_entry` leaves in `*dir`. -/
structure Call where
  kind : Kind
  /-- `basename`, for `namelen` bytes. -/
  name : List UInt8
  /-- `dir == current->root`. -/
  isRoot : Bool
  /-- What `open_namei` gets from `permission`. -/
  mayWrite : Bool
  named : name ≠ [] ∧ 0 ∉ name

/-- What a call has seen of the directory: how many entries had been made when
it began to look, and the entries it could not read. -/
structure Look where
  since : Nat
  unread : List (Nat × Nat)

inductive Pc
  | idle
  /-- `find_entry`, at the block with entry `i`. -/
  | find (c : Call) (look : Look) (entries i : Nat)
  | newInode (c : Call) (look : Look)
  /-- `new_block` and `bread` in `sys_mkdir`. -/
  | newBlock (c : Call) (look : Look) (inum : BitVec 16)
  | dirBlock (c : Call) (look : Look) (inum : BitVec 16)
  /-- `add_entry`, at the block with entry `i`. -/
  | add (c : Call) (look : Look) (inum : BitVec 16) (i : Nat)

structure State where
  dir : Nat → DirEntry
  /-- `i_size`, in entries. -/
  size : Nat
  pc : Task → Pc
  added : List (Nat × List UInt8)

/-- How a sleep ends. -/
inductive Choice
  /-- The block has been read, or made and read. -/
  | ok
  | unread
  /-- There is no inode, or no block. -/
  | none
  /-- `new_inode`. -/
  | inode (inum : BitVec 16) (h : inum ≠ 0)

def State.setPc (s : State) (t : Task) (pc : Pc) : State :=
  { s with pc := Function.update s.pc t pc }

/-! ### The code -/

/-- `match`. -/
def matchEntry (len : Nat) (name : List UInt8) (de : DirEntry) : Bool :=
  if de.inode = 0 ∨ len > NAME_LEN then false
  else if ∃ h : len < NAME_LEN, de.name ⟨len, h⟩ ≠ 0 then false
  else (List.ofFn de.name).take len = name.take len

/-- The name `find_entry` looks for, and its length: `..` in a root is `.`. -/
def wanted (c : Call) : List UInt8 :=
  if c.isRoot ∧ c.name = [46, 46] then [46] else c.name

def namelen (name : List UInt8) : Nat := min name.length NAME_LEN

/-- The entries of the block from `i` on. -/
def inBlock (i : Nat) : List Nat :=
  List.range' i ((i / DIR_ENTRIES_PER_BLOCK + 1) * DIR_ENTRIES_PER_BLOCK - i)

/-- The name as `add_entry` stores it. -/
def padded (name : List UInt8) (i : Fin NAME_LEN) : UInt8 := name.getD i 0

/-- `find_entry` has found nothing. -/
def notFound (s : State) (t : Task) (c : Call) (look : Look) : State :=
  match c.kind with
  | .openCreat => s.setPc t (if c.mayWrite then .newInode c look else .idle)
  | .mknod => s.setPc t (.newInode c look)
  | .mkdir => s.setPc t (.newInode c look)
  | .link inum _ => s.setPc t (.add c look inum 0)

/-- The loop of `find_entry` goes on. -/
def findNext (s : State) (t : Task) (c : Call) (look : Look) (entries i : Nat) : State :=
  if i < entries then s.setPc t (.find c look entries i) else notFound s t c look

/-- `find_entry` from one block to the next. -/
def findBlock (s : State) (t : Task) (c : Call) (look : Look) (entries i : Nat) :
    Choice → Outcome State
  | .ok =>
      if ((inBlock i).filter (· < entries)).any fun j =>
          matchEntry (namelen (wanted c)) (wanted c) (s.dir j) then .next (s.setPc t .idle)
      else .next (findNext s t c look entries (i + DIR_ENTRIES_PER_BLOCK))
  | .unread =>
      -- without the first block there is no directory
      if i = 0 then
        .next (notFound s t c { look with unread := (0, entries) :: look.unread })
      else
        .next (findNext s t c
          { look with unread := (i, i + DIR_ENTRIES_PER_BLOCK) :: look.unread } entries
          (i + DIR_ENTRIES_PER_BLOCK))
  | _ => .disabled

/-- `add_entry` has come to a free entry, and the caller puts the inode in. -/
def putEntry (s : State) (t : Task) (c : Call) (inum : BitVec 16) (j : Nat) : State :=
  { s.setPc t .idle with
    dir := Function.update s.dir j { inode := inum, name := padded (c.name.take NAME_LEN) }
    size := max s.size (j + 1)
    added := (j, c.name.take NAME_LEN) :: s.added }

/-- `add_entry` from one block to the next. -/
def addBlock (s : State) (t : Task) (c : Call) (look : Look) (inum : BitVec 16) (i : Nat) :
    Choice → Outcome State
  | .ok =>
      match (inBlock i).find? fun j => s.size ≤ j ∨ (s.dir j).inode = 0 with
      | some j => .next (putEntry s t c inum j)
      | none => .next (s.setPc t (.add c look inum (i + DIR_ENTRIES_PER_BLOCK)))
  | .unread =>
      if i = 0 then .next (s.setPc t .idle)
      else .next (s.setPc t (.add c look inum (i + DIR_ENTRIES_PER_BLOCK)))
  | .none => .next (s.setPc t .idle)
  | .inode _ _ => .disabled

/-- One round of a task. -/
def round (s : State) (t : Task) (choice : Choice) : Outcome State :=
  match s.pc t with
  | .idle => .disabled
  | .find c look entries i =>
      if i / DIR_ENTRIES_PER_BLOCK ≥ MAX_BLOCKS then .panic "_bmap: block>big"
      else findBlock s t c look entries i choice
  | .newInode c look =>
      match choice with
      | .inode inum _ =>
          match c.kind with
          | .mkdir => .next (s.setPc t (.newBlock c look inum))
          | _ => .next (s.setPc t (.add c look inum 0))
      | .none => .next (s.setPc t .idle)
      | _ => .disabled
  | .newBlock c look inum =>
      match choice with
      | .ok => .next (s.setPc t (.dirBlock c look inum))
      | .none => .next (s.setPc t .idle)
      | _ => .disabled
  | .dirBlock c look inum =>
      match choice with
      | .ok => .next (s.setPc t (.add c look inum 0))
      | .unread => .next (s.setPc t .idle)
      | _ => .disabled
  | .add c look inum i =>
      if i / DIR_ENTRIES_PER_BLOCK ≥ MAX_BLOCKS then .panic "_bmap: block>big"
      else addBlock s t c look inum i choice

inductive Op
  | start (t : Task) (c : Call)
  | run (t : Task) (choice : Choice)

def step (s : State) : Op → Outcome State
  | .start t c =>
      match s.pc t with
      | .idle => .next (s.setPc t (.find c ⟨s.added.length, []⟩ s.size 0))
      | _ => .disabled
  | .run t choice => round s t choice

end LinuxKernel.V011.Fs.Dir
