import LinuxKernel.Lib.FreeList
import LinuxKernel.Lib.System

/-!
# LinuxKernel.V098.Mm.FreePages

**The lists of free pages**: `get_free_page`, `free_page` and `remove_from_mem_queue` of
`mm/swap.c`, and `mem_init` of `mm/memory.c`.

- A step of a call goes no further than to the next place with interrupts enabled: behind a
  `sti`, between two statements, in `try_to_free_page`.
- Any call may go on at any time. A call from an interrupt has a number of its own, so that calls
  that interrupt each other are among the runs.
- `word` is the first long of a page. Who has a page may write to it.
-/

namespace LinuxKernel.V098.Mm.FreePages

abbrev Task := Nat

def PAGE_SIZE : Nat := 4096
def MAP_PAGE_RESERVED : Nat := 1 <<< 15
def MAX_SECONDARY_PAGES : Int := 10
def NR_LAST_FREE_PAGES : Nat := 32

def MAP_NR (addr : Nat) : Nat := addr / PAGE_SIZE

/-- `free_page_list` and `secondary_page_list`. -/
inductive Queue
  | free
  | secondary
  deriving DecidableEq

inductive Priority
  | GFP_BUFFER
  | GFP_ATOMIC
  | GFP_USER
  | GFP_KERNEL
  deriving DecidableEq

/-- Where a call of `get_free_page` is, and the result of `remove_from_mem_queue` so far. -/
inductive Pc
  | out
  /-- At the first `cli`. -/
  | popping (priority : Priority) (q : Queue)
  /-- At `if (mem_map[MAP_NR(result)])`. -/
  | checking (priority : Priority) (q : Queue) (result : Nat)
  | marking (q : Queue) (result : Nat)
  /-- At the second `cli`. -/
  | recording (q : Queue) (result : Nat)
  /-- At `stosl`. -/
  | clearing (q : Queue) (result : Nat)
  /-- At `nr_free_pages--` or `nr_secondary_pages--`. -/
  | counting (q : Queue) (result : Nat)
  /-- At `if (nr_free_pages)`, behind a result of 0. -/
  | testing (priority : Priority) (q : Queue)
  /-- At `nr_free_pages = 0`. -/
  | repairing (priority : Priority) (q : Queue)
  /-- In `try_to_free_page`. -/
  | reclaiming (priority : Priority)
  /-- In `panic`. -/
  | stopped

/-- `nr .free` is `nr_free_pages`. -/
structure State where
  highMemory : Nat
  memMap : Nat → Nat
  word : Nat → Nat
  list : Queue → Nat
  nr : Queue → Int
  index : Nat
  lastFreePages : Nat → Nat
  pc : Task → Pc

namespace State

def setPc (s : State) (t : Task) (pc : Pc) : State := { s with pc := Function.update s.pc t pc }

def setMap (s : State) (i n : Nat) : State := { s with memMap := Function.update s.memMap i n }

def setWord (s : State) (addr v : Nat) : State := { s with word := Function.update s.word addr v }

def setNr (s : State) (q : Queue) (n : Int) : State := { s with nr := Function.update s.nr q n }

end State

def Reserved (n : Nat) : Prop := n &&& MAP_PAGE_RESERVED ≠ 0

instance (n : Nat) : Decidable (Reserved n) := inferInstanceAs (Decidable (_ ≠ _))

/-! ### `free_page` -/

def addMemQueue (s : State) (addr : Nat) (q : Queue) : State :=
  let addr := addr - addr % PAGE_SIZE
  { s.setWord addr (s.list q) with list := Function.update s.list q addr }

/-- A page whose last reference is gone. -/
def release (s : State) (addr : Nat) : State :=
  if s.nr .secondary < MAX_SECONDARY_PAGES then
    (addMemQueue s addr .secondary).setNr .secondary (s.nr .secondary + 1)
  else (addMemQueue s addr .free).setNr .free (s.nr .free + 1)

def freePage (s : State) (addr : Nat) : State :=
  if addr ≥ s.highMemory then s
  else if Reserved (s.memMap (MAP_NR addr)) then s
  else if s.memMap (MAP_NR addr) = 0 then s
  else
    let s := s.setMap (MAP_NR addr) (s.memMap (MAP_NR addr) - 1)
    if s.memMap (MAP_NR addr) = 0 then release s addr else s

/-! ### `get_free_page` -/

/-- The first part of `remove_from_mem_queue`. -/
def pop (s : State) (t : Task) (priority : Priority) (q : Queue) : State :=
  let result := s.list q
  if result = 0 then s.setPc t (.testing priority q)
  else if result % PAGE_SIZE ≠ 0 ∨ result ≥ s.highMemory then
    { s with list := Function.update s.list q 0 }.setPc t .stopped
  else
    { s with list := Function.update s.list q (s.word result) }.setPc t
      (.checking priority q result)

/-- `last_free_pages[index] = result` -/
def record (s : State) (result : Nat) : State :=
  let index := if s.index ≥ NR_LAST_FREE_PAGES then 0 else s.index
  { s with index := index + 1, lastFreePages := Function.update s.lastFreePages index result }

/-- Where it goes on when there is nothing on a list. -/
def missed (priority : Priority) : Queue → Pc
  | .free =>
      if priority = .GFP_BUFFER then .out
      else if priority ≠ .GFP_ATOMIC then .reclaiming priority
      else .popping priority .secondary
  | .secondary => .out

/-- The next step of the call. `freed` is what `try_to_free_page` returns. -/
def go (s : State) (t : Task) (freed : Bool) : State :=
  match s.pc t with
  | .out => s
  | .popping priority q => pop s t priority q
  | .checking priority q result =>
      if s.memMap (MAP_NR result) ≠ 0 then s.setPc t (.testing priority q)
      else s.setPc t (.marking q result)
  | .marking q result => (s.setMap (MAP_NR result) 1).setPc t (.recording q result)
  | .recording q result => (record s result).setPc t (.clearing q result)
  | .clearing q result => (s.setWord result 0).setPc t (.counting q result)
  | .counting q _ => (s.setNr q (s.nr q - 1)).setPc t .out
  | .testing priority q =>
      if s.nr q ≠ 0 then s.setPc t (.repairing priority q) else s.setPc t (missed priority q)
  | .repairing priority q => (s.setNr q 0).setPc t (missed priority q)
  | .reclaiming priority => s.setPc t (.popping priority (if freed then .free else .secondary))
  | .stopped => s

/-! ### Runs -/

/-- A page that a call has taken off a list and has not returned yet; `fresh`, as long as its
`mem_map` is 0. -/
structure Hand where
  queue : Queue
  page : Nat
  fresh : Bool

def Pc.hand : Pc → Option Hand
  | checking _ q result => some ⟨q, result, true⟩
  | marking q result => some ⟨q, result, true⟩
  | recording q result => some ⟨q, result, false⟩
  | clearing q result => some ⟨q, result, false⟩
  | counting q result => some ⟨q, result, false⟩
  | _ => none

inductive Action
  | getFreePage (t : Task) (priority : Priority)
  | go (t : Task) (freed : Bool)
  | freePage (addr : Nat)
  | write (addr v : Nat)

def step (s : State) : Action → Outcome State
  | .getFreePage t priority =>
      match s.pc t with
      | .out => .next (s.setPc t (.popping priority .free))
      | _ => .disabled
  | .go t freed => .next (go s t freed)
  | .freePage addr => .next (freePage s addr)
  | .write addr v => .next (s.setWord addr v)

/-- What the callers do: nobody frees a page that `get_free_page` has not returned yet, and
nobody writes to a free page. -/
def Allowed (s : State) : Action → Prop
  | .freePage addr => ∀ t x, (s.pc t).hand = some x → MAP_NR x.page ≠ MAP_NR addr
  | .write addr _ => s.memMap (MAP_NR addr) ≠ 0
  | _ => True

/-! ### `mem_init` -/

/-- `while (start < bound)`, with `n` turns to go. -/
def unreserve (memMap : Nat → Nat) : Nat → Nat → Nat → Nat
  | 0, _ => memMap
  | n + 1, start => unreserve (Function.update memMap (MAP_NR start) 0) n (start + PAGE_SIZE)

/-- How many pages there are from `start` to below `bound`. -/
def pages (start bound : Nat) : Nat := (bound - start + (PAGE_SIZE - 1)) / PAGE_SIZE

/-- The loop that builds the list, for the page `i`. -/
def initPage (s : State) (i : Nat) : State :=
  if s.memMap i ≠ 0 then s
  else
    { s.setWord (i * PAGE_SIZE) (s.list .free) with
      list := Function.update s.list .free (i * PAGE_SIZE) }.setNr .free (s.nr .free + 1)

/-- `n` rounded up to a multiple of `m`. -/
def roundUp (n m : Nat) : Nat := (n + (m - 1)) / m * m

def memInit (startLowMem startMem endMem : Nat) (word : Nat → Nat) : State :=
  let endMem := endMem / PAGE_SIZE * PAGE_SIZE
  -- `mem_map` itself is at `startMem`, two bytes for a page
  let startMem := roundUp startMem 16 + 2 * MAP_NR endMem
  let startLowMem := roundUp startLowMem PAGE_SIZE
  let startMem := roundUp startMem PAGE_SIZE
  let memMap := unreserve (fun _ => MAP_PAGE_RESERVED) (pages startLowMem 0xA0000) startLowMem
  let memMap := unreserve memMap (pages startMem endMem) startMem
  (List.range (MAP_NR endMem)).foldl initPage
    { highMemory := endMem, memMap := memMap, word := word, list := fun _ => 0, nr := fun _ => 0
      index := 0, lastFreePages := fun _ => 0, pc := fun _ => .out }

end LinuxKernel.V098.Mm.FreePages
