import LinuxKernel.V098.Mm.FreePages
import LinuxKernel.V098.Mm.SwapLocks

/-!
# LinuxKernel.V098.Mm.PageRange

**Ranges of pages**: `unmap_page_range` and `remap_page_range` of `mm/memory.c`, as one task runs
them.

- The page tables of the task are a tree: an entry of the directory is zero or has a table of its
  own.
- `gets` is what `get_free_page` returns for the table of each entry of the directory; what it
  does besides, and the lists of free pages, are left out.
- Nobody else has the lock of a slot.
-/

namespace LinuxKernel.V098.Mm.PageRange

open FreePages (PAGE_SIZE MAP_NR Reserved)

def TASK_SIZE : Nat := 0xc0000000

/-- `mask` is what is in the low bits. -/
inductive Entry
  | empty
  | present (page mask : Nat)
  | swapped (nr : Nat)
  deriving DecidableEq

structure Table where
  page : Nat
  entry : Nat → Entry

/-- The pages and the slots. -/
structure Mem where
  highMemory : Nat
  memMap : Nat → Nat
  swap : SwapLocks.State

structure State where
  dir : Nat → Option Table
  rss : Int
  mem : Mem

/-! ### `free_page` and `swap_free` -/

def Mem.freePage (m : Mem) (addr : Nat) : Mem :=
  if addr ≥ m.highMemory then m
  else if Reserved (m.memMap (MAP_NR addr)) then m
  else if m.memMap (MAP_NR addr) = 0 then m
  else { m with memMap := Function.update m.memMap (MAP_NR addr) (m.memMap (MAP_NR addr) - 1) }

def Mem.swapFree (m : Mem) (nr : Nat) : Mem :=
  if nr ≠ 0 ∧ SwapLocks.passes m.swap nr then { m with swap := SwapLocks.countFree m.swap nr }
  else m

/-! ### Entries -/

namespace State

def entryAt (s : State) (i j : Nat) : Entry :=
  match s.dir i with
  | none => .empty
  | some t => t.entry j

def setEntry (s : State) (i j : Nat) (e : Entry) : State :=
  { s with
    dir := Function.update s.dir i ((s.dir i).map fun t =>
      { t with entry := Function.update t.entry j e }) }

def setDir (s : State) (i : Nat) (t : Option Table) : State :=
  { s with dir := Function.update s.dir i t }

end State

/-- What both functions do with an old entry. -/
def dropEntry (s : State) (i j : Nat) : State :=
  match s.entryAt i j with
  | .empty => s
  | .present page _ =>
      { s.setEntry i j .empty with rss := s.rss - 1, mem := s.mem.freePage page }
  | .swapped nr => { s.setEntry i j .empty with rss := s.rss - 1, mem := s.mem.swapFree nr }

/-! ### `unmap_page_range` -/

/-- The loop over the entries of a table, with `pc` to go. -/
def unmapEntries (i : Nat) : Nat → Nat → State → State
  | 0, _, s => s
  | pc + 1, j, s => unmapEntries i pc (j + 1) (dropEntry s i j)

/-- A table whose entries are all gone. -/
def freeTable (s : State) (i page : Nat) : State :=
  { s with mem := s.mem.freePage page }.setDir i none

/-- The loop over the directory, with room for `n` turns. -/
def unmapLoop : Nat → Nat → Nat → Nat → Nat → State → Option State
  | 0, _, size, _, _, s => if size = 0 then some s else none
  | n + 1, i, size, poff, pcnt, s =>
      if size = 0 then some s
      else
        let size' := size - pcnt
        let pcnt' := if size' > 1024 then 1024 else size'
        match s.dir i with
        | none => unmapLoop n (i + 1) size' 0 pcnt' s
        | some t =>
            let s := unmapEntries i pcnt poff s
            let s := if pcnt = 1024 then freeTable s i t.page else s
            unmapLoop n (i + 1) size' 0 pcnt' s

/-- `pcnt`, for the first table. -/
def firstCount (size poff : Nat) : Nat := if 1024 - poff > size then size else 1024 - poff

def unmapPageRange (s : State) (start size : Nat) : Outcome State :=
  if start % PAGE_SIZE ≠ 0 then .panic "unmap_page_range called with wrong alignment"
  else if start = 0 then .panic "unmap_page_range trying to free swapper memory space"
  else
    let size := (size + 0xfff) / PAGE_SIZE
    let poff := start / PAGE_SIZE % 1024
    match unmapLoop (size + 1) (start / 2 ^ 22) size poff (firstCount size poff) s with
    | none => .disabled
    | some s => .next s

/-! ### `remap_page_range` -/

def protection (permiss : Nat) : Nat :=
  let mask := 4
  let mask := if permiss &&& 1 ≠ 0 then mask ||| 1 else mask
  let mask :=
    if permiss &&& 2 ≠ 0 then if permiss &&& 8 ≠ 0 then mask ||| 1 else mask ||| 3 else mask
  if permiss &&& 4 ≠ 0 then mask ||| 1 else mask

/-- Another reference to a page. -/
def Mem.share (m : Mem) (addr : Nat) : Mem :=
  if Reserved (m.memMap (MAP_NR addr)) then m
  else { m with memMap := Function.update m.memMap (MAP_NR addr) (m.memMap (MAP_NR addr) + 1) }

/-- The turn for one page, behind the old entry. -/
def mapEntry (s : State) (i j addr mask : Nat) : State :=
  if mask = 4 ∨ addr ≥ s.mem.highMemory ∨ s.mem.memMap (MAP_NR addr) = 0 then
    s.setEntry i j .empty
  else { s.setEntry i j (.present addr mask) with rss := s.rss + 1, mem := s.mem.share addr }

/-- The loop over the entries of a table; what `to` is behind it. -/
def remapEntries (permiss i : Nat) : Nat → Nat → Nat → State → Nat × State
  | 0, _, addr, s => (addr, s)
  | pcnt + 1, j, addr, s =>
      remapEntries permiss i pcnt (j + 1) ((addr + PAGE_SIZE) % 2 ^ 32)
        (mapEntry (dropEntry s i j) i j addr (protection permiss))

/-- `get_free_page` has returned `page` for a table: its `mem_map` is 1. -/
def newTable (s : State) (i page : Nat) : State :=
  { s with
    mem := { s.mem with memMap := Function.update s.mem.memMap (MAP_NR page) 1 } }.setDir i
      (some ⟨page, fun _ => .empty⟩)

/-- The loop over the directory, with room for `n` turns: what is returned, and the state. -/
def remapLoop (gets : Nat → Option Nat) (permiss : Nat) :
    Nat → Nat → Nat → Nat → Nat → Nat → State → Option (Int × State)
  | 0, _, size, _, _, _, s => if size = 0 then some (0, s) else none
  | n + 1, i, size, poff, pcnt, addr, s =>
      if size = 0 then some (0, s)
      else
        let size' := size - pcnt
        let pcnt' := if size' > 1024 then 1024 else size'
        match s.dir i with
        | none =>
            match gets i with
            | none => some (-1, s)
            | some page =>
                let r := remapEntries permiss i pcnt poff addr (newTable s i page)
                remapLoop gets permiss n (i + 1) size' 0 pcnt' r.1 r.2
        | some _ =>
            let r := remapEntries permiss i pcnt poff addr s
            remapLoop gets permiss n (i + 1) size' 0 pcnt' r.1 r.2

def remapPageRange (gets : Nat → Option Nat) (s : State) (start addr size permiss : Nat) :
    Outcome (Int × State) :=
  if start % PAGE_SIZE ≠ 0 ∨ addr % PAGE_SIZE ≠ 0 then
    .panic "remap_page_range called with wrong alignment"
  else
    let size := (size + 0xfff) / PAGE_SIZE
    let poff := start / PAGE_SIZE % 1024
    match remapLoop gets permiss (size + 1) (start / 2 ^ 22) size poff (firstCount size poff) addr s
    with
    | none => .disabled
    | some r => .next r

end LinuxKernel.V098.Mm.PageRange
