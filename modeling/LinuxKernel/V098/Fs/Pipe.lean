import LinuxKernel.Lib.System

/-!
# LinuxKernel.V098.Fs.Pipe

`fs/pipe.c`, `fs/fifo.c` and `fs/select.c`: the **waiters of one pipe or FIFO**.

- A task runs until it sleeps, or comes to a copy from or to user space (which can fault and
  sleep) or to `get_free_page`. A wake-up wakes all that are on the queue; a signal or a
  timeout can wake any sleeper at any time.
- Whether a signal is pending, the timeout is over, a page can be had, and how many files of
  other kinds are ready in `do_select` comes with the action (`Env`).
- The bytes in the pipe are left out: only how many there are counts.
-/

namespace LinuxKernel.V098.Fs.Pipe

abbrev Task := Nat
abbrev Fd := Nat
abbrev File := Nat

def PAGE_SIZE : Nat := 4096
def NR_OPEN : Nat := 32

def ENXIO : Int := 6
def EBADF : Int := 9
def EAGAIN : Int := 11
def ENOMEM : Int := 12
def EINVAL : Int := 22
def EPIPE : Int := 32
def ERESTARTSYS : Int := 512

/-- `PIPE_READ_WAIT(*inode)`, `PIPE_WRITE_WAIT(*inode)` and `inode->i_wait`. -/
inductive Queue
  | readWait
  | writeWait
  | inodeWait
  deriving DecidableEq

/-- Where a task is: outside, asleep (or woken, see `State.asleep`) in `pipe_read`, in its
copy loop, the same for `pipe_write`, asleep in `fifo_open` for reading or for writing, in its
`get_free_page`, or asleep in `do_select` with the file descriptors that select the pipe. -/
inductive Pc
  | idle
  | readSleep (f : File) (count : Nat)
  | readCopy (f : File) (count chars read : Nat)
  | writeSleep (f : File) (count size written : Nat)
  | writeCopy (f : File) (count chars written : Nat)
  | openRead (fd : Fd) (f : File)
  | openWrite (fd : Fd) (f : File)
  | openPage (fd : Fd) (f : File)
  | select (ins outs exs : List Fd)
  deriving DecidableEq

/-- The wait queues that a sleeping task is on. -/
def Pc.on : Pc → Queue → Bool
  | readSleep _ _, .readWait | openRead _ _, .readWait => true
  | writeSleep _ _ _ _, .writeWait | openWrite _ _, .writeWait => true
  | select ins _ _, .readWait => ins ≠ []
  | select _ outs _, .writeWait => outs ≠ []
  | select _ _ exs, .inodeWait => exs ≠ []
  | _, _ => false

/-- `mode`, `nonblock` (of `f_flags`) and `fCount` are fields of the file, `filp` is that of
the task, and `ret` what its last call has returned. -/
structure State where
  head : Nat
  tail : Nat
  readers : Nat
  writers : Nat
  base : Bool
  iCount : Nat
  mode : File → Nat
  nonblock : File → Bool
  fCount : File → Nat
  filp : Task → Fd → Option File
  pc : Task → Pc
  asleep : Task → Bool
  ret : Task → Int

/-- What a step finds outside the pipe. -/
structure Env where
  signal : Bool
  timeout : Bool
  page : Bool
  other : Nat

/-! ### Sleeping and waking -/

def setPc (s : State) (t : Task) (pc : Pc) : State := { s with pc := Function.update s.pc t pc }

/-- `interruptible_sleep_on`, or `schedule` in `do_select`. -/
def sleep (s : State) (t : Task) (pc : Pc) : State :=
  { s with pc := Function.update s.pc t pc, asleep := Function.update s.asleep t true }

def wakeUp (s : State) (q : Queue) : State :=
  { s with asleep := fun t => s.asleep t && !(s.pc t).on q }

def return_ (s : State) (t : Task) (v : Int) : State :=
  { s with pc := Function.update s.pc t .idle, ret := Function.update s.ret t v }

/-! ### `include/linux/pipe_fs_i.h` -/

/-- `PIPE_SIZE` -/
def size (s : State) : Nat := (s.head + PAGE_SIZE - s.tail) % PAGE_SIZE

/-- `PIPE_EMPTY` -/
def Empty (s : State) : Prop := s.head = s.tail

/-- `PIPE_FULL` -/
def Full (s : State) : Prop := size s = PAGE_SIZE - 1

instance (s : State) : Decidable (Empty s) := inferInstanceAs (Decidable (_ = _))
instance (s : State) : Decidable (Full s) := inferInstanceAs (Decidable (_ = _))

/-! ### `pipe_read` and `pipe_write` -/

/-- The copy loop of `pipe_read` and what follows it. -/
def readLoop (s : State) (t : Task) (f : File) (count read : Nat) : State :=
  if 0 < count ∧ 0 < size s then
    setPc s t (.readCopy f count (min (min (PAGE_SIZE - s.tail) count) (size s)) read)
  else return_ (wakeUp s .writeWait) t (if read ≠ 0 then read else -EAGAIN)

/-- `pipe_read`, also from its sleep on. -/
def pipeRead (s : State) (t : Task) (f : File) (count : Nat) (e : Env) : State :=
  if s.nonblock f = false ∧ size s = 0 then
    let s := wakeUp s .writeWait
    if s.writers = 0 then return_ s t 0
    else if e.signal then return_ s t (-ERESTARTSYS)
    else sleep s t (.readSleep f count)
  else readLoop s t f count 0

/-- The copy loop behind `memcpy_tofs`. -/
def readCopied (s : State) (t : Task) (f : File) (count chars read : Nat) : State :=
  readLoop { s with tail := (s.tail + chars) % PAGE_SIZE } t f (count - chars) (read + chars)

/-- The room that is left. -/
def room (s : State) : Nat := PAGE_SIZE - 1 - size s

/-- To `memcpy_fromfs` in the copy loop of `pipe_write`. -/
def writeChunk (s : State) (t : Task) (f : File) (count written : Nat) : State :=
  setPc s t (.writeCopy f count (min (min (PAGE_SIZE - s.head) count) (room s)) written)

/-- The loops of `pipe_write` that wait until the pipe holds less than `size`. -/
def writeLoop (s : State) (t : Task) (f : File) (count sz written : Nat) (e : Env) : State :=
  if count = 0 then return_ s t written
  else if sz ≤ size s then
    if s.readers = 0 then return_ s t (if written ≠ 0 then written else -EPIPE)
    else if e.signal then return_ s t (if written ≠ 0 then written else -ERESTARTSYS)
    else if s.nonblock f then return_ s t (-EAGAIN)
    else sleep s t (.writeSleep f count sz written)
  -- there is room, so the copy loop is entered
  else writeChunk s t f count written

def pipeWrite (s : State) (t : Task) (f : File) (count : Nat) (e : Env) : State :=
  if s.readers = 0 then return_ s t (-EPIPE)
  else
    writeLoop s t f count (if count < PAGE_SIZE then PAGE_SIZE - count else PAGE_SIZE - 1) 0 e

/-- The copy loop behind `memcpy_fromfs`. -/
def writeCopied (s : State) (t : Task) (f : File) (count chars written : Nat) (e : Env) : State :=
  let s := { s with head := (s.head + chars) % PAGE_SIZE }
  if 0 < count - chars ∧ 0 < room s then writeChunk s t f (count - chars) (written + chars)
  else writeLoop (wakeUp s .readWait) t f (count - chars) (PAGE_SIZE - 1) (written + chars) e

/-! ### `pipe_select` and `do_select` -/

def selIn (s : State) : Bool := ¬ Empty s ∨ s.writers = 0
def selOut (s : State) : Bool := ¬ Full s ∨ s.writers = 0
def selEx (s : State) : Bool := s.readers = 0 ∨ s.writers = 0

/-- How many of the selected files are ready. -/
def ready (s : State) (ins outs exs : List Fd) : Nat :=
  (if selIn s then ins.length else 0) + (if selOut s then outs.length else 0) +
    if selEx s then exs.length else 0

/-- `do_select` from `repeat` on. -/
def doSelect (s : State) (t : Task) (ins outs exs : List Fd) (e : Env) : State :=
  let count := ready s ins outs exs + e.other
  if ¬ e.signal ∧ e.timeout ∧ count = 0 then sleep s t (.select ins outs exs)
  else return_ s t count

/-- `do_select`, with the descriptors of this pipe in the three masks. -/
def select (s : State) (t : Task) (ins outs exs : List Fd) (e : Env) : State :=
  if (ins ++ outs ++ exs).all fun fd => (s.filp t fd).isSome then doSelect s t ins outs exs e
  else return_ s t (-EBADF)

/-! ### Releases -/

def pipeReadRelease (s : State) : State := wakeUp { s with readers := s.readers - 1 } .writeWait

def pipeWriteRelease (s : State) : State := wakeUp { s with writers := s.writers - 1 } .readWait

def pipeRdwrRelease (s : State) : State :=
  wakeUp (wakeUp { s with readers := s.readers - 1, writers := s.writers - 1 } .readWait) .writeWait

def release (s : State) (mode : Nat) : State :=
  match mode with
  | 1 => pipeReadRelease s
  | 2 => pipeWriteRelease s
  | _ => pipeRdwrRelease s

/-- `iput`, as far as it concerns the pipe. -/
def iput (s : State) : State :=
  let s := wakeUp (wakeUp s .readWait) .writeWait
  { s with iCount := s.iCount - 1, base := if 1 < s.iCount then s.base else false }

/-- `close_fp` -/
def closeFp (s : State) (f : File) : State :=
  if 1 < s.fCount f then { s with fCount := Function.update s.fCount f (s.fCount f - 1) }
  else
    let s := release s (s.mode f)
    iput { s with fCount := Function.update s.fCount f (s.fCount f - 1) }

def close (s : State) (t : Task) (fd : Fd) : State :=
  match s.filp t fd with
  | none => return_ s t (-EBADF)
  | some f =>
      return_ (closeFp { s with
        filp := Function.update s.filp t (Function.update (s.filp t) fd none) } f) t 0

/-! ### `fifo_open`, in `sys_open` -/

/-- `f->f_count--; current->filp[fd]=NULL` -/
def dropFile (s : State) (t : Task) (fd : Fd) (f : File) : State :=
  { s with
    fCount := Function.update s.fCount f (s.fCount f - 1)
    filp := Function.update s.filp t (Function.update (s.filp t) fd none) }

/-- The end of `sys_open`; `retval` is what `fifo_open` has returned. -/
def openReturn (s : State) (t : Task) (fd : Fd) (f : File) (retval : Int) : State :=
  if retval ≠ 0 then return_ (dropFile (iput s) t fd f) t retval
  else return_ s t fd

/-- The wake-ups of `fifo_open`. -/
def openWake (s : State) : State :=
  let s := if s.writers ≠ 0 then wakeUp s .readWait else s
  if s.readers ≠ 0 then wakeUp s .writeWait else s

/-- `fifo_open` behind the `switch`. -/
def openEnd (s : State) (t : Task) (fd : Fd) (f : File) (retval : Int) : State :=
  let s := openWake s
  if retval ≠ 0 ∨ s.base then openReturn s t fd f retval
  else setPc s t (.openPage fd f)

/-- `fifo_open` behind `get_free_page`. -/
def openPage (s : State) (t : Task) (fd : Fd) (f : File) (e : Env) : State :=
  if s.base then openReturn s t fd f 0
  else if ¬ e.page then openReturn s t fd f (-ENOMEM)
  else openReturn { s with base := true } t fd f 0

/-- The loop of `fifo_open` that waits for a writer. -/
def openReadLoop (s : State) (t : Task) (fd : Fd) (f : File) (e : Env) : State :=
  if s.writers ≠ 0 ∨ ¬ Empty s then openEnd s t fd f 0
  else if e.signal then openEnd { s with readers := s.readers - 1 } t fd f (-ERESTARTSYS)
  else sleep s t (.openRead fd f)

/-- The loop that waits for a reader. -/
def openWriteLoop (s : State) (t : Task) (fd : Fd) (f : File) (e : Env) : State :=
  if s.readers ≠ 0 then openEnd s t fd f 0
  else if e.signal then openEnd { s with writers := s.writers - 1 } t fd f (-ERESTARTSYS)
  else sleep s t (.openWrite fd f)

def fifoOpen (s : State) (t : Task) (fd : Fd) (f : File) (e : Env) : State :=
  match s.mode f with
  | 1 =>
      let s := { s with readers := s.readers + 1 }
      if s.nonblock f then openEnd s t fd f 0 else openReadLoop s t fd f e
  | 2 =>
      if s.nonblock f ∧ s.readers = 0 then openEnd s t fd f (- ENXIO)
      else openWriteLoop { s with writers := s.writers + 1 } t fd f e
  | 3 => openEnd { s with writers := s.writers + 1, readers := s.readers + 1 } t fd f 0
  | _ => openEnd s t fd f (-EINVAL)

/-- `sys_open` of the FIFO, with the file that `get_empty_filp` has found. -/
def sysOpen (s : State) (t : Task) (fd : Fd) (f : File) (mode : Nat) (nonblock : Bool) (e : Env) :
    State :=
  fifoOpen { s with
    iCount := s.iCount + 1
    mode := Function.update s.mode f mode
    nonblock := Function.update s.nonblock f nonblock
    fCount := Function.update s.fCount f 1
    filp := Function.update s.filp t (Function.update (s.filp t) fd (some f)) } t fd f e

/-! ### The other calls -/

/-- `sys_read` -/
def sysRead (s : State) (t : Task) (fd : Fd) (count : Nat) (e : Env) : State :=
  match s.filp t fd with
  | none => return_ s t (-EBADF)
  | some f =>
      if s.mode f &&& 1 = 0 then return_ s t (-EBADF)
      else if count = 0 then return_ s t 0
      else pipeRead s t f count e

/-- `sys_write` -/
def sysWrite (s : State) (t : Task) (fd : Fd) (count : Nat) (e : Env) : State :=
  match s.filp t fd with
  | none => return_ s t (-EBADF)
  | some f =>
      if s.mode f &&& 2 = 0 then return_ s t (-EBADF)
      else if count = 0 then return_ s t 0
      else pipeWrite s t f count e

/-- The files of the child `c` in `sys_fork`. -/
def fork (s : State) (t c : Task) : State :=
  { s with
    filp := Function.update s.filp c (s.filp t)
    fCount := fun f => s.fCount f + (List.range NR_OPEN).countP fun fd => s.filp t fd = some f }

/-! ### The system -/

inductive Act
  | read (t : Task) (fd : Fd) (count : Nat) (e : Env)
  | write (t : Task) (fd : Fd) (count : Nat) (e : Env)
  | select (t : Task) (ins outs exs : List Fd) (e : Env)
  | open_ (t : Task) (fd : Fd) (f : File) (mode : Nat) (nonblock : Bool) (e : Env)
  | close (t : Task) (fd : Fd)
  | fork (t c : Task)
  | wake (t : Task)
  | go (t : Task) (e : Env)

/-- A suspended task goes on. -/
def go (s : State) (t : Task) (e : Env) : Outcome State :=
  if s.asleep t then .disabled
  else
    match s.pc t with
    | .idle => .disabled
    | .readSleep f count => .next (pipeRead s t f count e)
    | .readCopy f count chars read => .next (readCopied s t f count chars read)
    | .writeSleep f count sz written => .next (writeLoop s t f count sz written e)
    | .writeCopy f count chars written => .next (writeCopied s t f count chars written e)
    | .openRead fd f => .next (openReadLoop s t fd f e)
    | .openWrite fd f => .next (openWriteLoop s t fd f e)
    | .openPage fd f => .next (openPage s t fd f e)
    | .select ins outs exs => .next (doSelect s t ins outs exs e)

def step (s : State) : Act → Outcome State
  | .read t fd count e =>
      if s.pc t = .idle then .next (sysRead s t fd count e) else .disabled
  | .write t fd count e =>
      if s.pc t = .idle then .next (sysWrite s t fd count e) else .disabled
  | .select t ins outs exs e =>
      if s.pc t = .idle then .next (select s t ins outs exs e) else .disabled
  | .open_ t fd f mode nonblock e =>
      if s.pc t = .idle ∧ fd < NR_OPEN ∧ s.filp t fd = none ∧ s.fCount f = 0 then
        .next (sysOpen s t fd f mode nonblock e)
      else .disabled
  | .close t fd => if s.pc t = .idle then .next (close s t fd) else .disabled
  | .fork t c =>
      if s.pc t = .idle ∧ s.pc c = .idle ∧ ∀ fd < NR_OPEN, s.filp c fd = none then
        .next (fork s t c)
      else .disabled
  | .wake t => .next { s with asleep := Function.update s.asleep t false }
  | .go t e => go s t e

/-- A FIFO that nobody has opened. -/
def fifo : State where
  head := 0
  tail := 0
  readers := 0
  writers := 0
  base := false
  iCount := 0
  mode _ := 0
  nonblock _ := false
  fCount _ := 0
  filp _ _ := none
  pc _ := .idle
  asleep _ := false
  ret _ := 0

/-- A pipe as `sys_pipe` of task `t` leaves it, with descriptor `a` for the file `f` to read
and `b` for `g` to write. -/
def pipe (t : Task) (a b : Fd) (f g : File) : State where
  head := 0
  tail := 0
  readers := 1
  writers := 1
  base := true
  iCount := 2
  mode h := if h = f then 1 else if h = g then 2 else 0
  nonblock _ := false
  fCount h := if h = f ∨ h = g then 1 else 0
  filp u fd := if u = t then if fd = a then some f else if fd = b then some g else none else none
  pc _ := .idle
  asleep _ := false
  ret _ := 0

def Init (s : State) : Prop :=
  s = fifo ∨
    ∃ t a b f g, a < NR_OPEN ∧ b < NR_OPEN ∧ a ≠ b ∧ f ≠ g ∧ s = pipe t a b f g

/-! ### What has to hold -/

/-- No task is in a copy loop. -/
def NoCopy (s : State) : Prop :=
  ∀ t, match s.pc t with
    | .readCopy _ _ _ _ | .writeCopy _ _ _ _ => False
    | _ => True

/-- No sleeper has been woken and not run yet. -/
def NoWoken (s : State) : Prop :=
  ∀ t, match s.pc t with
    | .idle | .readCopy _ _ _ _ | .writeCopy _ _ _ _ | .openPage _ _ => True
    | _ => s.asleep t = true

/-- What a task asleep at `pc` waits for has not come. -/
def Waits (s : State) : Pc → Prop
  | .readSleep _ _ => size s = 0 ∧ 0 < s.writers
  | .writeSleep _ _ sz _ => 0 < s.readers ∧ sz ≤ size s
  | .openRead _ _ => s.writers = 0 ∧ size s = 0
  | .openWrite _ _ => s.readers = 0
  | .select ins outs exs =>
      (ins ≠ [] → size s = 0 ∧ 0 < s.writers) ∧
      (outs ≠ [] → room s = 0 ∧ 0 < s.readers) ∧
      (exs ≠ [] → 0 < s.readers ∧ 0 < s.writers)
  | _ => True

/-- No waiter is stranded. -/
def Sound (s : State) : Prop :=
  NoCopy s → NoWoken s → ∀ t, s.asleep t = true → Waits s (s.pc t)

/-- The last close of a file: nobody sleeps in `do_select` for an exception only, if it leaves
one side closed. -/
def CloseOk (s : State) (f : File) : Prop :=
  ((release s (s.mode f)).readers = 0 ∨ (release s (s.mode f)).writers = 0) →
    ∀ t exs, s.asleep t = true → s.pc t = .select [] [] exs → exs = []

/-- `do_select` does not go to sleep on a full pipe that has writers and no readers, to wait
until it can be written. -/
def SelectOk (s : State) (ins outs exs : List Fd) (e : Env) : Prop :=
  ins = [] → outs ≠ [] → exs = [] → Full s → s.readers = 0 → 0 < s.writers →
    e.other ≠ 0 ∨ e.signal = true ∨ e.timeout = false

/-- Behind a copy, the bytes (or the room) are still there: no other task has used them. -/
def Served (s : State) : Act → Prop
  | .close t fd => ∀ f, s.filp t fd = some f → s.fCount f ≤ 1 → CloseOk s f
  | .select _ ins outs exs e => SelectOk s ins outs exs e
  | .go t e =>
      match s.pc t with
      | .readCopy _ _ chars _ => chars ≤ size s
      | .writeCopy _ _ chars _ => chars ≤ room s
      | .select ins outs exs => SelectOk s ins outs exs e
      | _ => True
  | _ => True

end LinuxKernel.V098.Fs.Pipe
