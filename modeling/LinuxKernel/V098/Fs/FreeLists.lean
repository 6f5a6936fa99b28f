import LinuxKernel.Lib.System
import LinuxKernel.Lib.FreeList

/-!
# LinuxKernel.V098.Fs.FreeLists

`fs/ext/freelists.c`: the **lists of free blocks and inodes** of an extended file system, with
any number of tasks in its four functions at once.

- `header` is the contents of free blocks and inodes (those on disk or in their buffers).
- The blocks of other devices, how often a buffer is referenced, and the fields of an inode
  that nothing here reads are left out.
- A task can be suspended in `get_super` (`wait_on_super`), `lock_super`, `get_hash_table`,
  `bread` and `getblk`.
- `owner` and `busy` are history: who has a block or an inode, and which in-core inodes a call
  of `ext_new_inode` or `ext_free_inode` works on.
-/

namespace LinuxKernel.V098.Fs.FreeLists

abbrev Task := Nat

def EXT_INODES_PER_BLOCK : Nat := 16

/-- What is fixed of the super block. -/
structure Super where
  firstDataZone : Nat
  nzones : Nat
  ninodes : Nat

/-- One of the two kinds of lists: how many entries a header has, the block that cell `n` is
in, and the cell at which the header is in the buffer of block `bh` when the first header is
`first`. -/
structure Kind where
  cap : Nat
  home : Nat → Nat
  slot : Nat → Nat → Nat

def blockKind : Kind where
  cap := 254
  home := id
  slot := fun bh _ => bh

def inodeKind : Kind where
  cap := 14
  home := fun ino => 2 + (ino - 1) / EXT_INODES_PER_BLOCK
  slot := fun bh first =>
    (bh - 2) * EXT_INODES_PER_BLOCK + (first - 1) % EXT_INODES_PER_BLOCK + 1

/-- A block or an inode is handed out, being given back, or free. -/
inductive Owner
  | user
  | giving
  | free
  deriving Repr, DecidableEq

/-- The fields of the super block for one of the lists: `s_firstfreeblocknumber`,
`s_firstfreeblock` (the number of the buffer's block) and `s_freeblockscount`. -/
structure Pool where
  header : Nat → Header
  first : Nat
  cached : Option Nat
  count : Int
  owner : Nat → Owner

/-- `struct inode`; `dev` is `false` for `i_dev` 0. -/
structure Inode where
  dev : Bool
  count : Nat
  nlink : Nat
  sb : Bool
  ino : Nat
  deriving Repr, DecidableEq

def Inode.zero : Inode := { dev := false, count := 0, nlink := 0, sb := false, ino := 0 }

/-- Where a task is: between two calls, or where it can be suspended in one.
`ext_free_block`: waiting for the super block, in `get_hash_table`, in `bread`.
`ext_new_block`: waiting in `get_super`, in `lock_super`, in `bread`, in `getblk`.
The other two alike, with the in-core inode `k`. -/
inductive Pc
  | idle
  | freeWait (b : Nat)
  | freeHash (b : Nat)
  | freeBread (b : Nat)
  | newWait
  | newLock
  | newBread (j : Nat)
  | newGet (j : Nat)
  | ifreeWait (k : Nat)
  | ifreeBread (k : Nat)
  | inewWait (k : Nat)
  | inewLock (k : Nat)
  | inewBread (k j : Nat)
  deriving Repr, DecidableEq

structure State where
  blocks : Pool
  inodes : Pool
  lock : Bool
  table : Nat → Inode
  pc : Task → Pc
  busy : Nat → Bool

variable (sb : Super)

def setPc (s : State) (t : Task) (pc : Pc) : State := { s with pc := Function.update s.pc t pc }

/-- `free_super(sb)`, and the return. -/
def freeSuper (s : State) (t : Task) : State := setPc { s with lock := false } t .idle

namespace Pool

/-- The cell that `efb` (`efi`) points to, `none` for `NULL`. -/
def efb (kind : Kind) (p : Pool) : Option Nat := p.cached.map fun bh => kind.slot bh p.first

def setOwner (p : Pool) (n : Nat) (o : Owner) : Pool :=
  { p with owner := Function.update p.owner n o }

/-- `efb->free[efb->count++] = n; s_freeblockscount++` -/
def pushEntry (p : Pool) (efb n : Nat) : Pool :=
  { p.setOwner n .free with
    header := Function.update p.header efb
      { free := n :: (p.header efb).free, next := (p.header efb).next }
    count := p.count + 1 }

/-- `n` becomes the first header, behind `bread`. -/
def pushHeader (kind : Kind) (p : Pool) (n : Nat) : Pool :=
  { p.setOwner n .free with
    header := Function.update p.header (kind.slot (kind.home n) n) { free := [], next := p.first }
    first := n
    cached := some (kind.home n)
    count := p.count + 1 }

/-- `efb->free[--efb->count]`, with `free` behind it. -/
def popEntry (p : Pool) (efb : Nat) (free : List Nat) : Pool :=
  { p with header := Function.update p.header efb { free, next := (p.header efb).next } }

/-- `s_firstfreeblocknumber = efb->next` -/
def popHeader (p : Pool) (efb : Nat) : Pool := { p with first := (p.header efb).next }

/-- `s_firstfreeblock` for the new first header: `NULL`, or what `bread` returns. -/
def load (kind : Kind) (p : Pool) : Pool :=
  { p with cached := if p.first = 0 then none else some (kind.home p.first) }

/-- `s_freeblockscount--` -/
def pay (p : Pool) : Pool := { p with count := p.count - 1 }

end Pool

/-! ### Blocks -/

/-- `ext_free_block`, behind `get_super` and in `lock_super`. -/
def freeBlockLock (s : State) (t : Task) (b : Nat) : State :=
  if s.lock then setPc s t (.freeWait b)
  else
    let s' := { s with lock := true }
    -- "trying to free block not in datazone"
    if b < sb.firstDataZone ∨ sb.nzones ≤ b then setPc s' t .idle
    else setPc s' t (.freeHash b)

/-- `ext_free_block`, behind `get_hash_table`. -/
def freeBlockInsert (s : State) (t : Task) (b : Nat) : State :=
  match s.blocks.efb blockKind with
  | none => setPc s t (.freeBread b)
  | some efb =>
      if (s.blocks.header efb).free.length = blockKind.cap then setPc s t (.freeBread b)
      else freeSuper { s with blocks := s.blocks.pushEntry efb b } t

/-- `ext_free_block`, behind `bread`. -/
def freeBlockRead (s : State) (t : Task) (b : Nat) : State :=
  freeSuper { s with blocks := s.blocks.pushHeader blockKind b } t

/-- `ext_new_block`, from the check of `j` to `getblk`. -/
def newBlockGet (s : State) (t : Task) (j : Nat) : Outcome State :=
  if j < sb.firstDataZone ∨ sb.nzones < j then .panic "allocating block not in data zone"
  else .next (setPc { s with blocks := s.blocks.pay } t (.newGet j))

/-- `ext_new_block`, in `lock_super`. -/
def newBlockLock (s : State) (t : Task) : Outcome State :=
  if s.lock then .next (setPc s t .newLock)
  else
    let s' := { s with lock := true }
    match s'.blocks.efb blockKind with
    | none => .panic "NULL pointer: s_firstfreeblock"
    | some efb =>
        match (s'.blocks.header efb).free with
        | j :: free => newBlockGet sb { s' with blocks := s'.blocks.popEntry efb free } t j
        | [] =>
            let j := s'.blocks.first
            let blocks := s'.blocks.popHeader efb
            if blocks.first = 0 then newBlockGet sb { s' with blocks := blocks.load blockKind } t j
            else .next (setPc { s' with blocks } t (.newBread j))

/-- `ext_new_block`, in `get_super`. -/
def newBlock (s : State) (t : Task) : Outcome State :=
  if s.lock then .next (setPc s t .newWait)
  else if s.blocks.cached = none then .next (setPc s t .idle)
  else newBlockLock sb s t

/-- `ext_new_block`, behind `getblk`: it returns `j`. -/
def newBlockReturn (s : State) (t : Task) (j : Nat) : State :=
  freeSuper { s with blocks := s.blocks.setOwner j .user } t

/-! ### Inodes -/

/-- `memset(inode,0,sizeof(*inode))`, and the return. -/
def freeInodeClear (s : State) (t : Task) (k : Nat) : State :=
  freeSuper { s with
    table := Function.update s.table k .zero
    busy := Function.update s.busy k false } t

/-- `ext_free_inode`, in `lock_super`. -/
def freeInodeLock (s : State) (t : Task) (k : Nat) : State :=
  if s.lock then setPc s t (.ifreeWait k)
  else
    let s' := { s with lock := true }
    let ino := (s.table k).ino
    -- "free_inode: inode 0 or nonexistent inode"
    if ino < 1 ∨ sb.ninodes < ino then
      freeSuper { s' with busy := Function.update s.busy k false } t
    else
      match s'.inodes.efb inodeKind with
      | none => setPc s' t (.ifreeBread k)
      | some efi =>
          if (s'.inodes.header efi).free.length = inodeKind.cap then setPc s' t (.ifreeBread k)
          else freeInodeClear { s' with inodes := s'.inodes.pushEntry efi ino } t k

/-- `ext_free_inode`, behind `bread`. -/
def freeInodeRead (s : State) (t : Task) (k : Nat) : State :=
  freeInodeClear { s with inodes := s.inodes.pushHeader inodeKind (s.table k).ino } t k

def extFreeInode (s : State) (t : Task) (k : Nat) : State :=
  let inode := s.table k
  if inode.dev = false then { s with table := Function.update s.table k .zero }
  else if 1 < inode.count then s
  else if inode.nlink ≠ 0 then s
  else if inode.sb = false then s
  else
    freeInodeLock sb { s with
      inodes := s.inodes.setOwner inode.ino .giving
      busy := Function.update s.busy k true } t k

/-- `ext_new_inode`, from `s_freeinodescount--`: it returns the in-core inode `k` as `j`. -/
def newInodeReturn (s : State) (t : Task) (k j : Nat) : State :=
  freeSuper { s with
    inodes := s.inodes.pay.setOwner j .user
    table := Function.update s.table k { dev := true, count := 1, nlink := 1, sb := true, ino := j }
    busy := Function.update s.busy k false } t

/-- `ext_new_inode`, in `lock_super`. -/
def newInodeLock (s : State) (t : Task) (k : Nat) : Outcome State :=
  if s.lock then .next (setPc s t (.inewLock k))
  else
    let s' := { s with lock := true }
    match s'.inodes.efb inodeKind with
    | none => .panic "NULL pointer: s_firstfreeinodeblock"
    | some efi =>
        match (s'.inodes.header efi).free with
        | j :: free =>
            .next (newInodeReturn { s' with inodes := s'.inodes.popEntry efi free } t k j)
        | [] =>
            let j := s'.inodes.first
            if sb.ninodes < (s'.inodes.header efi).next then
              .panic "ext_new_inode: bad inode number in free list"
            else
              let inodes := s'.inodes.popHeader efi
              if inodes.first = 0 then
                .next (newInodeReturn { s' with inodes := inodes.load inodeKind } t k j)
              else .next (setPc { s' with inodes } t (.inewBread k j))

/-- `ext_new_inode`, in `get_super`. -/
def newInode (s : State) (t : Task) (k : Nat) : Outcome State :=
  if s.lock then .next (setPc s t (.inewWait k))
  else
    let s' := { s with table := Function.update s.table k { s.table k with sb := true } }
    -- return 0
    if s'.inodes.cached = none then
      .next (setPc { s' with busy := Function.update s.busy k false } t .idle)
    else newInodeLock sb s' t k

/-- `get_empty_inode` returns `k`. -/
def getEmptyInode (s : State) (k : Nat) : State :=
  { s with
    table := Function.update s.table k { Inode.zero with count := 1 }
    busy := Function.update s.busy k true }

/-! ### The system -/

/-- `vfs k inode` is whatever the rest of the kernel does to an in-core inode. -/
inductive Act
  | freeBlock (t : Task) (b : Nat)
  | newBlock (t : Task)
  | freeInode (t : Task) (k : Nat)
  | newInode (t : Task) (k : Nat)
  | vfs (k : Nat) (inode : Inode)
  | go (t : Task)
  deriving Repr

def ValidBlock (b : Nat) : Prop := sb.firstDataZone ≤ b ∧ b < sb.nzones

def ValidInode (ino : Nat) : Prop := 1 ≤ ino ∧ ino ≤ sb.ninodes

instance (b : Nat) : Decidable (ValidBlock sb b) := inferInstanceAs (Decidable (_ ∧ _))
instance (ino : Nat) : Decidable (ValidInode sb ino) := inferInstanceAs (Decidable (_ ∧ _))

/-- A suspended task goes on. -/
def go (s : State) (t : Task) : Outcome State :=
  match s.pc t with
  | .idle => .disabled
  | .freeWait b => .next (freeBlockLock sb s t b)
  | .freeHash b => .next (freeBlockInsert s t b)
  | .freeBread b => .next (freeBlockRead s t b)
  | .newWait => newBlock sb s t
  | .newLock => newBlockLock sb s t
  | .newBread j => newBlockGet sb { s with blocks := s.blocks.load blockKind } t j
  | .newGet j => .next (newBlockReturn s t j)
  | .ifreeWait k => .next (freeInodeLock sb s t k)
  | .ifreeBread k => .next (freeInodeRead s t k)
  | .inewWait k => newInode sb s t k
  | .inewLock k => newInodeLock sb s t k
  | .inewBread k j =>
      .next (newInodeReturn { s with inodes := s.inodes.load inodeKind } t k j)

/-- A block or an inode that is given back is one that is handed out, or none of the file
system. Whoever gives back an in-core inode has a reference to it, and the rest of the kernel
leaves one alone that a call works on or that it has no reference to. -/
def step (s : State) : Act → Outcome State
  | .freeBlock t b =>
      if s.pc t = .idle ∧ (ValidBlock sb b → s.blocks.owner b = .user) then
        .next (freeBlockLock sb { s with blocks := s.blocks.setOwner b .giving } t b)
      else .disabled
  | .newBlock t => if s.pc t = .idle then newBlock sb s t else .disabled
  | .freeInode t k =>
      if s.pc t = .idle ∧ s.busy k = false ∧ (s.table k).dev = true ∧ (s.table k).count ≠ 0 ∧
          (ValidInode sb (s.table k).ino → s.inodes.owner (s.table k).ino = .user) then
        .next (extFreeInode sb s t k)
      else .disabled
  | .newInode t k =>
      if s.pc t = .idle ∧ (s.table k).count = 0 then newInode sb (getEmptyInode s k) t k
      else .disabled
  | .vfs k inode =>
      if s.busy k = false ∧ ((s.table k).dev = true ∨ (s.table k).count = 0) ∧
          (inode.dev = true ∨ inode.count = 0) then
        .next { s with table := Function.update s.table k inode }
      else .disabled
  | .go t => go sb s t

/-! ### What has to hold -/

/-- The task has the super block locked. -/
def holds : Pc → Bool
  | .freeHash _ | .freeBread _ | .newBread _ | .newGet _ | .ifreeBread _ | .inewBread _ _ => true
  | .idle | .freeWait _ | .newWait | .newLock | .ifreeWait _ | .inewWait _ | .inewLock _ => false

/-- The in-core inode that the task has got in `ext_new_inode`. -/
def newSlot : Pc → Option Nat
  | .inewWait k | .inewLock k | .inewBread k _ => some k
  | .idle | .freeWait _ | .freeHash _ | .freeBread _ | .newWait | .newLock | .newBread _
  | .newGet _ | .ifreeWait _ | .ifreeBread _ => none

/-- The list is exact: it holds the free cells, each once. -/
structure Exact (kind : Kind) (valid : Nat → Prop) (p : Pool) : Prop where
  list : ∃ S, FreeList kind.cap p.header p.first S ∧
    (∀ n, n ∈ S ↔ valid n ∧ p.owner n = .free) ∧ p.count = S.card
  cached : p.cached = if p.first = 0 then none else some (kind.home p.first)

/-- Nothing that is handed out is on the list. -/
def Apart (kind : Kind) (p : Pool) : Prop :=
  ∃ S, FreeList kind.cap p.header p.first S ∧ ∀ n ∈ S, p.owner n = .free

/-- A file system at mount, and no task in the functions. -/
structure Init (s : State) : Prop where
  idle : ∀ t, s.pc t = .idle
  lock : s.lock = false
  busy : ∀ k, s.busy k = false
  zone : 0 < sb.firstDataZone
  blocks : Exact blockKind (ValidBlock sb) s.blocks
  inodes : Exact inodeKind (ValidInode sb) s.inodes
  owner : ∀ b, s.blocks.owner b ≠ .giving
  iowner : ∀ ino, s.inodes.owner ino ≠ .giving
  table : ∀ k, (s.table k).dev = true ∨ (s.table k).count = 0

structure Sound (s : State) : Prop where
  blocks : s.lock = false → Exact blockKind (ValidBlock sb) s.blocks
  inodes : s.lock = false → Exact inodeKind (ValidInode sb) s.inodes
  apart : Apart blockKind s.blocks ∧ Apart inodeKind s.inodes
  /-- Whoever returns has unlocked the super block. -/
  lock : s.lock = true → ∃ t, holds (s.pc t) = true
  /-- An in-core inode without a device is one that a task in `ext_new_inode` has. -/
  table : ∀ k, (s.table k).dev = false → (s.table k).count ≠ 0 →
    ∃ t, newSlot (s.pc t) = some k
  panic : ∀ a msg, step sb s a ≠ .panic msg

/-- A task that waits for the super block gives back a block of the data zone, and there is a
free inode for it. -/
def ServedAt (s : State) : Pc → Prop
  | .freeWait b => s.lock = false → ValidBlock sb b
  | .inewWait _ => s.lock = false → s.inodes.cached ≠ none
  | _ => True

/-- The block that is given back is in the data zone, and there is a free inode. -/
def Served (s : State) : Act → Prop
  | .freeBlock _ b => s.lock = false → ValidBlock sb b
  | .newInode _ _ => s.lock = false → s.inodes.cached ≠ none
  | .go t => ServedAt sb s (s.pc t)
  | .newBlock _ | .freeInode _ _ | .vfs _ _ => True

instance (s : State) : (pc : Pc) → Decidable (ServedAt sb s pc)
  | .freeWait b => inferInstanceAs (Decidable (s.lock = false → ValidBlock sb b))
  | .inewWait _ => inferInstanceAs (Decidable (s.lock = false → s.inodes.cached ≠ none))
  | .idle | .freeHash _ | .freeBread _ | .newWait | .newLock | .newBread _ | .newGet _
  | .ifreeWait _ | .ifreeBread _ | .inewLock _ | .inewBread _ _ => inferInstanceAs (Decidable True)

instance (s : State) : (a : Act) → Decidable (Served sb s a)
  | .freeBlock _ b => inferInstanceAs (Decidable (s.lock = false → ValidBlock sb b))
  | .newInode _ _ => inferInstanceAs (Decidable (s.lock = false → s.inodes.cached ≠ none))
  | .go t => inferInstanceAs (Decidable (ServedAt sb s (s.pc t)))
  | .newBlock _ | .freeInode _ _ | .vfs _ _ => inferInstanceAs (Decidable True)

end LinuxKernel.V098.Fs.FreeLists
