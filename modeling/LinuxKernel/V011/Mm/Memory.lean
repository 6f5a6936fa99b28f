import LinuxKernel.Lib.System
import LinuxKernel.V011.Mm.Entry

/-!
# LinuxKernel.V011.Mm.Memory

The functions of **`mm/memory.c`** over physical memory.

Page tables are ordinary pages: a table is the memory at the page address in a
directory entry, so freeing a table, handing the same page out again and
zeroing it are visible to every later lookup. The page directory is `pg_dir`
at physical address 0, which the code addresses directly (`_pg_dir = 0`).

* `deny` is an oracle: every call of `get_free_page` consumes one verdict, and
  fails when it is `true` (besides failing when no page is free).
* `held` is a history variable: the pages got by `get_free_page` and neither
  entered in a table or the directory nor freed yet.

A function that may call `oom()` returns `false` in its first component at
that point: `oom()` does not return (`do_exit` runs instead of the rest).
-/

namespace LinuxKernel.V011.Mm

def LOW_MEM : Nat := 0x100000
def PAGING_MEMORY : Nat := 15 * 1024 * 1024
def PAGING_PAGES : Nat := PAGING_MEMORY >>> 12
def USED : Nat := 100

/-- `MAP_NR(addr)`. -/
def mapNr (addr : Nat) : Nat := (addr - LOW_MEM) >>> 12

/-- The number of the directory entry that `(address>>20) & 0xffc` points to. -/
def dirNr (address : Nat) : Nat := ((address >>> 20) &&& 0xffc) / 4

/-- The number of the table entry that `(address>>10) & 0xffc` points to. -/
def pageNr (address : Nat) : Nat := ((address >>> 10) &&& 0xffc) / 4

/-- Physical memory and the map of its pages. `mem page i` is the `i`-th word
of the page at address `page`. -/
structure Memory where
  memMap : Nat → Nat
  pgDir : Nat → Word
  mem : Nat → Nat → Word
  mainMemoryStart : Nat
  highMemory : Nat
  deny : List Bool
  held : List Nat

namespace Memory

/-! ### Stores -/

def setWord (s : Memory) (page i : Nat) (w : Word) : Memory :=
  { s with mem := Function.update s.mem page (Function.update (s.mem page) i w) }

def setPgDir (s : Memory) (d : Nat) (w : Word) : Memory :=
  { s with pgDir := Function.update s.pgDir d w }

/-- `mem_map[n] = v`, an unsigned char. -/
def setMap (s : Memory) (n v : Nat) : Memory :=
  { s with memMap := Function.update s.memMap n (v % 256) }

def setPage (s : Memory) (page : Nat) (c : Nat → Word) : Memory :=
  { s with mem := Function.update s.mem page c }

def hold (s : Memory) (page : Nat) : Memory := { s with held := page :: s.held }

def unhold (s : Memory) (page : Nat) : Memory := { s with held := s.held.erase page }

/-! ### Single pages -/

/-- `repne scasb` from the end of `mem_map`: the last free page below `n`. -/
def scanFree (memMap : Nat → Nat) : Nat → Option Nat
  | 0 => none
  | n + 1 => if memMap n = 0 then some n else scanFree memMap n

/-- `get_free_page`: the last free page, marked used and zeroed. -/
def getFreePage (s : Memory) : Option Nat × Memory :=
  let s' := { s with deny := s.deny.tail }
  if s.deny.head? = some true then (none, s')
  else match scanFree s.memMap PAGING_PAGES with
    | none => (none, s')
    | some n =>
        let addr := (n <<< 12) + LOW_MEM
        (some addr, ((s'.setMap n 1).setPage addr fun _ => 0).hold addr)

/-- `free_page`. -/
def freePage (s : Memory) (addr : Nat) : Outcome Memory :=
  if addr < LOW_MEM then .next s
  else if s.highMemory ≤ addr then .panic "trying to free nonexistent page"
  else if s.memMap (mapNr addr) ≠ 0 then
    .next ((s.setMap (mapNr addr) (s.memMap (mapNr addr) - 1)).unhold addr)
  else .panic "trying to free free page"

/-- `put_page`; `false` when there is no memory for the page table. The two
checks of the source only print a message. -/
def putPage (s : Memory) (page address : Nat) : Bool × Memory :=
  if present (s.pgDir (dirNr address)) then
    (true, (s.setWord (pageAddr (s.pgDir (dirNr address))) (pageNr address)
      (userEntry page)).unhold page)
  else match s.getFreePage with
    | (none, s) => (false, s)
    | (some tmp, s) =>
        (true, (((s.setPgDir (dirNr address) (userEntry tmp)).unhold tmp).setWord tmp
          (pageNr address) (userEntry page)).unhold page)

/-- `get_empty_page`; `false` when it calls `oom`. -/
def getEmptyPage (s : Memory) (address : Nat) : Outcome (Bool × Memory) :=
  match s.getFreePage with
  | (none, s) => .next (false, s)
  | (some tmp, s) =>
      match s.putPage tmp address with
      | (true, s) => .next (true, s)
      | (false, s) => (s.freePage tmp).bind fun s => .next (false, s)

/-! ### Copying and freeing page tables -/

/-- One round of the inner loop of `free_page_tables`. -/
def freeEntry (s : Memory) (pgTable i : Nat) : Outcome Memory :=
  if present (s.mem pgTable i) then
    (s.freePage (pageAddr (s.mem pgTable i))).bind fun s => .next (s.setWord pgTable i 0)
  else .next (s.setWord pgTable i 0)

/-- `n` rounds from entry `i` on. -/
def freeEntries (s : Memory) (pgTable i : Nat) : Nat → Outcome Memory
  | 0 => .next s
  | n + 1 => (s.freeEntry pgTable i).bind fun s => freeEntries s pgTable (i + 1) n

/-- `n` rounds of the outer loop of `free_page_tables` from directory entry `dir` on. -/
def freeDirs (s : Memory) (dir : Nat) : Nat → Outcome Memory
  | 0 => .next s
  | n + 1 =>
      if present (s.pgDir dir) then
        (s.freeEntries (pageAddr (s.pgDir dir)) 0 1024).bind fun s =>
          (s.freePage (pageAddr (s.pgDir dir))).bind fun s =>
            freeDirs (s.setPgDir dir 0) (dir + 1) n
      else freeDirs s (dir + 1) n

/-- The number of 4 Mb blocks that `size` bytes take. -/
def dirCount (size : Nat) : Nat := ((size + 0x3fffff) % 2 ^ 32) >>> 22

/-- `free_page_tables`. -/
def freePageTables (s : Memory) (addr size : Nat) : Outcome Memory :=
  if addr &&& 0x3fffff ≠ 0 then .panic "free_page_tables called with wrong alignment"
  else if addr = 0 then .panic "Trying to free up swapper memory space"
  else s.freeDirs (dirNr addr) (dirCount size)

/-- One round of the inner loop of `copy_page_tables`. -/
def copyEntry (s : Memory) (fromTable toTable i : Nat) : Memory :=
  if present (s.mem fromTable i) then
    let thisPage := writeProtect (s.mem fromTable i)
    let s := s.setWord toTable i thisPage
    if LOW_MEM < thisPage.toNat then
      let s := s.setWord fromTable i thisPage
      s.setMap (mapNr thisPage.toNat) (s.memMap (mapNr thisPage.toNat) + 1)
    else s
  else s

/-- `n` rounds from entry `i` on. -/
def copyEntries (s : Memory) (fromTable toTable i : Nat) : Nat → Memory
  | 0 => s
  | n + 1 => copyEntries (s.copyEntry fromTable toTable i) fromTable toTable (i + 1) n

/-- `n` rounds of the outer loop of `copy_page_tables`; `nr` entries are copied
of each table. `false` is the return value -1. -/
def copyDirs (s : Memory) (nr fromDir toDir : Nat) : Nat → Outcome (Bool × Memory)
  | 0 => .next (true, s)
  | n + 1 =>
      if present (s.pgDir toDir) then .panic "copy_page_tables: already exist"
      else if present (s.pgDir fromDir) then
        let fromTable := pageAddr (s.pgDir fromDir)
        match s.getFreePage with
        | (none, s) => .next (false, s)
        | (some toTable, s) =>
            let s := (s.setPgDir toDir (userEntry toTable)).unhold toTable
            copyDirs (s.copyEntries fromTable toTable 0 nr) nr (fromDir + 1) (toDir + 1) n
      else copyDirs s nr (fromDir + 1) (toDir + 1) n

/-- `copy_page_tables`. Copying from 0 is the first `fork`: only 160 pages of
kernel space are copied. -/
def copyPageTables (s : Memory) (fromAddr toAddr size : Nat) : Outcome (Bool × Memory) :=
  if fromAddr &&& 0x3fffff ≠ 0 ∨ toAddr &&& 0x3fffff ≠ 0 then
    .panic "copy_page_tables called with wrong alignment"
  else s.copyDirs (if fromAddr = 0 then 0xA0 else 1024) (dirNr fromAddr) (dirNr toAddr)
    (dirCount size)

/-- The call of `copy_page_tables` in `copy_mem`: what was copied when memory
ran out is freed again, and `false` is `-ENOMEM`. -/
def copyMem (s : Memory) (oldDataBase newDataBase dataLimit : Nat) : Outcome (Bool × Memory) :=
  (s.copyPageTables oldDataBase newDataBase dataLimit).bind fun (ok, s) =>
    if ok then .next (true, s)
    else (s.freePageTables newDataBase dataLimit).bind fun s => .next (false, s)

/-! ### Copy on write -/

/-- `copy_page`. -/
def copyPage (s : Memory) (src dst : Nat) : Memory := s.setPage dst (s.mem src)

/-- `un_wp_page` on entry `i` of a table; `false` when it calls `oom`. -/
def unWpPage (s : Memory) (table i : Nat) : Bool × Memory :=
  let oldPage := pageAddr (s.mem table i)
  if LOW_MEM ≤ oldPage ∧ s.memMap (mapNr oldPage) = 1 then
    (true, s.setWord table i (allowWrite (s.mem table i)))
  else match s.getFreePage with
    | (none, s) => (false, s)
    | (some newPage, s) =>
        let s := if LOW_MEM ≤ oldPage then
            s.setMap (mapNr oldPage) (s.memMap (mapNr oldPage) + 255)
          else s
        let s := (s.setWord table i (userEntry newPage)).unhold newPage
        (true, s.copyPage oldPage newPage)

/-- `do_wp_page`. -/
def doWpPage (s : Memory) (address : Nat) : Bool × Memory :=
  s.unWpPage (pageAddr (s.pgDir (dirNr address))) (pageNr address)

/-- `write_verify`; `false` when it calls `oom`. -/
def writeVerify (s : Memory) (address : Nat) : Bool × Memory :=
  if present (s.pgDir (dirNr address)) then
    let page := pageAddr (s.pgDir (dirNr address))
    if 3#32 &&& s.mem page (pageNr address) = 1#32 then  -- non-writeable, present
      s.unWpPage page (pageNr address)
    else (true, s)
  else (true, s)

/-- The loop of `verify_area`: `n` pages from `start` on. -/
def verifyPages (s : Memory) (start : Nat) : Nat → Bool × Memory
  | 0 => (true, s)
  | n + 1 =>
      match s.writeVerify start with
      | (true, s) => verifyPages s ((start + 4096) % 2 ^ 32) n
      | (false, s) => (false, s)

/-- `verify_area` in a data segment that starts at `base`. `size` is an `int`:
adding the offset in the first page can make it negative, and then no page is
checked. -/
def verifyArea (s : Memory) (base addr : Nat) (size : Int) : Bool × Memory :=
  let size := Int.bmod (size + (addr % 4096 : Nat)) (2 ^ 32)
  s.verifyPages ((addr / 4096 * 4096 + base) % 2 ^ 32) ((size.toNat + 4095) / 4096)

/-! ### Sharing -/

/-- The three ways `try_to_share` ends: return 0, return 1, `oom()`. -/
inductive Share
  | no
  | yes
  | oom
  deriving DecidableEq, Repr

/-- `try_to_share`: take the page at `address` of the task that starts at
`pStart` into the current task, which starts at `curStart`. -/
def tryToShare (s : Memory) (address pStart curStart : Nat) : Outcome (Share × Memory) :=
  let fromPage := dirNr address + dirNr pStart
  let toPage := dirNr address + dirNr curStart
  if present (s.pgDir fromPage) then
    let fromTable := pageAddr (s.pgDir fromPage)
    let physAddr := s.mem fromTable (pageNr address)
    -- is the page clean and present?
    if physAddr &&& 0x41#32 ≠ 0x01#32 then .next (.no, s)
    else if s.highMemory ≤ pageAddr physAddr ∨ pageAddr physAddr < LOW_MEM then .next (.no, s)
    else
      let share (toTable : Nat) (s : Memory) : Outcome (Share × Memory) :=
        if present (s.mem toTable (pageNr address)) then
          .panic "try_to_share: to_page already exists"
        else
          -- share them: write-protect
          let s := s.setWord fromTable (pageNr address)
            (writeProtect (s.mem fromTable (pageNr address)))
          let s := s.setWord toTable (pageNr address) (s.mem fromTable (pageNr address))
          .next (.yes, s.setMap (mapNr (pageAddr physAddr))
            (s.memMap (mapNr (pageAddr physAddr)) + 1))
      if present (s.pgDir toPage) then share (pageAddr (s.pgDir toPage)) s
      else match s.getFreePage with
        | (none, s) => .next (.oom, s)
        | (some toTable, s) =>
            share toTable ((s.setPgDir toPage (userEntry toTable)).unhold toTable)
  else .next (.no, s)

end Memory

/-! ### Start-up -/

/-- `mem_init`. -/
def memInit (startMem endMem : Nat) (n : Nat) : Nat :=
  if mapNr startMem ≤ n ∧ n < mapNr startMem + ((endMem - startMem) >>> 12) then 0 else USED

/-- Memory after `setup_paging` and `mem_init`: the first 16 Mb are mapped
one-to-one through the four tables `pg0` to `pg3`. -/
def Memory.boot (startMem endMem : Nat) : Memory where
  memMap := memInit startMem endMem
  pgDir d := if d < 4 then userEntry (0x1000 * (d + 1)) else 0
  mem page i :=
    if 0x1000 ≤ page ∧ page < 0x5000 then userEntry (((page / 0x1000 - 1) * 1024 + i) * 4096)
    else 0
  mainMemoryStart := startMem
  highMemory := endMem
  deny := []
  held := []

end LinuxKernel.V011.Mm
