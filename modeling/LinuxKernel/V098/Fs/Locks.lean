import Mathlib.Data.BitVec
import LinuxKernel.Lib.System

/-!
# LinuxKernel.V098.Fs.Locks

The **record locks** of one file in `fs/locks.c`: `fcntl_setlk`,
`fcntl_remove_locks` and what they call.

- `flock` has the entries behind `i_flock` in their order, `freeList` those behind
  `file_lock_free_list`. The other files' lists are `elsewhere`; their requests take
  entries from the free list and give them back.
- A loop over the file's list goes along the entries behind the one it is at. It
  frees that one, after it has read `fl_next`, or one it has passed, and new
  entries go to the front, so the entries ahead of it stay the same.
- `log` has the calls that have returned, the last one first.
-/

namespace LinuxKernel.V098.Fs.Locks

/-! ### The data model -/

def NR_FILE_LOCKS : Nat := 32
def OFFSET_MAX : Int := 0x7fffffff

def EBADF : Int := 9
def EAGAIN : Int := 11
def EINVAL : Int := 22
def ENOLCK : Int := 37

abbrev Task := Nat
abbrev Slot := Fin NR_FILE_LOCKS

/-- The value of an expression of type `off_t`. -/
def off (x : Int) : Int := (x + 2 ^ 31) % 2 ^ 32 - 2 ^ 31

inductive LockType
  | rdlck
  | wrlck
  | unlck
  deriving Repr, DecidableEq

/-- `struct file_lock`. -/
structure FileLock where
  flOwner : Option Task
  flWait : List Task
  flType : LockType
  flStart : Int
  flEnd : Int
  deriving Repr, DecidableEq

/-- What `copy_flock` has made of a `struct flock`. -/
structure Request where
  flType : LockType
  flStart : Int
  flEnd : Int
  range : 0 ≤ flStart ∧ flStart ≤ flEnd ∧ flEnd ≤ OFFSET_MAX
  deriving Repr, DecidableEq

/-- `struct flock`. -/
structure Flock where
  lType : Int
  lWhence : Int
  lStart : Int
  lLen : Int

structure Inode where
  iMode : BitVec 16
  iSize : Int

/-- `struct file`. -/
structure Filp where
  fMode : BitVec 16
  fPos : Int
  fInode : Option Inode

/-- What a task does. -/
inductive Pc
  | running
  /-- In `interruptible_sleep_on(&fl->fl_wait)`. -/
  | asleep (fl : Slot) (req : Request)
  /-- On its way from there to `repeat`. -/
  | woken (req : Request)
  deriving DecidableEq

inductive Event
  | granted (t : Task) (req : Request)
  | refused (t : Task) (errno : Int)
  | removed (t : Task)

structure State where
  table : Slot → FileLock
  flock : List Slot
  freeList : List Slot
  elsewhere : List Slot
  pc : Task → Pc
  log : List Event

/-- `file_lock` as `copy_flock` leaves it. -/
def Request.lock (req : Request) (t : Task) : FileLock :=
  { flOwner := some t, flWait := [], flType := req.flType, flStart := req.flStart,
    flEnd := req.flEnd }

def State.setEntry (s : State) (fl : Slot) (e : FileLock) : State :=
  { s with table := Function.update s.table fl e }

def State.setStart (s : State) (fl : Slot) (start : Int) : State :=
  s.setEntry fl { s.table fl with flStart := start }

def State.setEnd (s : State) (fl : Slot) (last : Int) : State :=
  s.setEntry fl { s.table fl with flEnd := last }

def State.setPc (s : State) (t : Task) (pc : Pc) : State :=
  { s with pc := Function.update s.pc t pc }

/-! ### The code -/

def S_ISREG (mode : BitVec 16) : Bool := mode &&& 0o170000#16 = 0o100000#16

def lockType (lType : Int) : Option LockType :=
  if lType = 0 then some .rdlck
  else if lType = 1 then some .wrlck
  else if lType = 2 then some .unlck
  else none

/-- Where `l_start` counts from. -/
def whence (filp : Filp) (inode : Inode) (lWhence : Int) : Option Int :=
  if lWhence = 0 then some 0
  else if lWhence = 1 then some filp.fPos
  else if lWhence = 2 then some inode.iSize
  else none

theorem off_le (x : Int) : off x ≤ OFFSET_MAX := by
  unfold off OFFSET_MAX
  omega

/-- `fl_end` of a request for `l_len` bytes from `start` on. -/
def lastByte (start lLen : Int) : Int :=
  if lLen = 0 ∨ off (start + lLen - 1) < 0 then OFFSET_MAX else off (start + lLen - 1)

theorem lastByte_range {start lLen : Int} (h : 0 ≤ start) (hle : start ≤ OFFSET_MAX)
    (hlen : 0 ≤ lLen) (hmax : lLen ≤ OFFSET_MAX) :
    0 ≤ start ∧ start ≤ lastByte start lLen ∧ lastByte start lLen ≤ OFFSET_MAX := by
  unfold lastByte off OFFSET_MAX at *
  split <;> omega

/-- `copy_flock`. -/
def copyFlock (filp : Filp) (l : Flock) : Option Request :=
  match filp.fInode with
  | none => none
  | some inode =>
      if !S_ISREG inode.iMode then none
      else
        match lockType l.lType, whence filp inode l.lWhence with
        | some type, some base =>
            if h : off (base + l.lStart) < 0 ∨ off l.lLen < 0 then none
            else
              some {
                flType := type
                flStart := off (base + l.lStart)
                flEnd := lastByte (off (base + l.lStart)) (off l.lLen)
                range := lastByte_range (by omega) (off_le _) (by omega) (off_le _) }
        | _, _ => none

/-- The start of `fcntl_setlk`: what it asks for, or the error. -/
def checkArgs (filp : Option Filp) (l : Flock) : Except Int Request :=
  match filp with
  | none => .error EBADF
  | some filp =>
      match copyFlock filp l with
      | none => .error EINVAL
      | some req =>
          match req.flType with
          | .rdlck => if filp.fMode &&& 1 = 0 then .error EBADF else .ok req
          | .wrlck => if filp.fMode &&& 2 = 0 then .error EBADF else .ok req
          | .unlck => .ok req

def overlap (fl₁ fl₂ : FileLock) : Bool :=
  if fl₁.flStart ≤ fl₂.flStart then fl₁.flEnd ≥ fl₂.flStart else fl₂.flEnd ≥ fl₁.flStart

def conflict (callerFl sysFl : FileLock) : Bool :=
  if callerFl.flOwner = sysFl.flOwner then false
  else if !overlap callerFl sysFl then false
  else
    match callerFl.flType with
    | .rdlck => sysFl.flType ≠ .rdlck
    | .wrlck => true
    | .unlck => false

/-- `wake_up(&fl->fl_wait)`. -/
def wakeUp (s : State) (fl : Slot) : State :=
  let e := s.table fl
  { s.setEntry fl { e with flWait := [] } with
    pc := fun t =>
      match s.pc t with
      | .asleep _ req => if t ∈ e.flWait then .woken req else s.pc t
      | _ => s.pc t }

/-- `alloc_lock`. -/
def allocLock (s : State) (current : Task) (template : FileLock) :
    Outcome (Option (State × Slot)) :=
  match s.freeList with
  | [] => .next none
  | new :: free =>
      if (s.table new).flOwner ≠ none then .panic "alloc_lock: broken free list\n"
      else
        .next (some ({ s.setEntry new { template with flOwner := some current, flWait := [] } with
          flock := new :: s.flock
          freeList := free }, new))

/-- `free_lock`. -/
def freeLock (s : State) (fl : Slot) : Outcome State :=
  if (s.table fl).flOwner = none then .panic "free_lock: broken lock list\n"
  else
    let s := s.setEntry fl { s.table fl with flOwner := none }
    .next (wakeUp { s with flock := s.flock.erase fl, freeList := fl :: s.freeList } fl)

/-- The loop of `lock_it`; the list has the entries it has not come to yet. -/
def lockLoop (s : State) (current : Task) (caller : Slot) : List Slot → Outcome (State × Int)
  | [] => .next (s, 0)
  | fl :: rest =>
      let c := s.table caller
      let e := s.table fl
      if c.flOwner ≠ e.flOwner then lockLoop s current caller rest
      else if caller = fl then lockLoop s current caller rest
      else if !overlap c e then
        if c.flType ≠ e.flType then lockLoop s current caller rest
        else if off (c.flEnd + 1) = e.flStart then
          (freeLock (s.setStart fl c.flStart) caller).bind fun s => lockLoop s current fl rest
        else if off (c.flStart - 1) = e.flEnd then
          (freeLock (s.setEnd fl c.flEnd) caller).bind fun s => lockLoop s current fl rest
        else lockLoop s current caller rest
      else if c.flType ≠ e.flType then
        if c.flStart > e.flStart ∧ c.flEnd < e.flEnd then
          (allocLock s current e).bind fun
            | none => (freeLock s caller).bind fun s => .next (s, -ENOLCK)
            | some (s, new) =>
                .next ((s.setEnd fl (off (c.flStart - 1))).setStart new (off (c.flEnd + 1)), 0)
        else if c.flStart ≤ e.flStart ∧ c.flEnd ≥ e.flEnd then
          (freeLock s fl).bind fun s => .next (s, 0)
        else if c.flEnd < e.flEnd then
          lockLoop (s.setStart fl (off (c.flEnd + 1))) current caller rest
        else if c.flStart > e.flStart then
          lockLoop (s.setEnd fl (off (c.flStart - 1))) current caller rest
        else (freeLock s caller).bind fun s => .next (s, -ENOLCK)
      else
        let low := c.flStart < e.flStart
        let high := c.flEnd > e.flEnd
        let s := if low then s.setStart fl c.flStart else s
        let s := if high then s.setEnd fl c.flEnd else s
        (freeLock s caller).bind fun s =>
          if low ∨ high then lockLoop s current fl rest else .next (s, 0)

/-- `lock_it`. -/
def lockIt (s : State) (current : Task) (req : Request) : Outcome (State × Int) :=
  (allocLock s current (req.lock current)).bind fun
    | none => .next (s, -ENOLCK)
    | some (s, caller) => lockLoop s current caller s.flock

/-- The loop of `unlock_it`. -/
def unlockLoop (s : State) (current : Task) (c : FileLock) (oneUnlocked : Bool) :
    List Slot → Outcome (State × Int)
  | [] => .next (s, if oneUnlocked then 0 else -EINVAL)
  | fl :: next =>
      let e := s.table fl
      if c.flOwner ≠ e.flOwner ∨ !overlap c e then unlockLoop s current c oneUnlocked next
      else if c.flStart > e.flStart ∧ c.flEnd < e.flEnd then
        (allocLock s current e).bind fun
          | none => .next (s, -ENOLCK)
          | some (s, new) =>
              .next ((s.setEnd fl (off (c.flStart - 1))).setStart new (off (c.flEnd + 1)), 0)
      else
        (if c.flStart ≤ e.flStart ∧ c.flEnd ≥ e.flEnd then freeLock s fl
         else if c.flStart > e.flStart then .next (s.setEnd fl (off (c.flStart - 1)))
         else .next (s.setStart fl (off (c.flEnd + 1)))).bind fun s =>
          if c.flStart ≥ (s.table fl).flStart ∧ c.flEnd ≤ (s.table fl).flEnd then .next (s, 0)
          else unlockLoop s current c true next

/-- `unlock_it`. -/
def unlockIt (s : State) (current : Task) (req : Request) : Outcome (State × Int) :=
  unlockLoop s current (req.lock current) false s.flock

/-- The loop of `fcntl_remove_locks`. -/
def removeLoop (s : State) (task : Task) : List Slot → Outcome State
  | [] => .next s
  | fl :: next =>
      if (s.table fl).flOwner = some task then
        (freeLock s fl).bind fun s => removeLoop s task next
      else removeLoop s task next

/-- The call returns. -/
def finish (t : Task) (req : Request) : State × Int → Outcome State
  | (s, ret) =>
      .next { s.setPc t .running with
        log := (if ret = 0 then .granted t req else .refused t ret) :: s.log }

/-- `fcntl_setlk` from `repeat` on. -/
def scan (s : State) (t : Task) (setlkw : Bool) (req : Request) : Outcome State :=
  match s.flock.find? fun fl => conflict (req.lock t) (s.table fl) with
  | some fl =>
      if setlkw then
        let e := s.table fl
        .next ((s.setEntry fl { e with flWait := t :: e.flWait }).setPc t (.asleep fl req))
      else finish t req (s, -EAGAIN)
  | none => (lockIt s t req).bind (finish t req)

/-- `fcntl_setlk`. -/
def fcntlSetlk (s : State) (t : Task) (setlkw : Bool) (filp : Option Filp) (l : Flock) :
    Outcome State :=
  match checkArgs filp l with
  | .error errno => .next { s with log := .refused t (-errno) :: s.log }
  | .ok req =>
      if req.flType = .unlck then (unlockIt s t req).bind (finish t req) else scan s t setlkw req

/-- `fcntl_remove_locks`. -/
def fcntlRemoveLocks (s : State) (t : Task) : Outcome State :=
  (removeLoop s t s.flock).bind fun s => .next { s with log := .removed t :: s.log }

inductive Op
  | setlk (t : Task) (setlkw : Bool) (filp : Option Filp) (l : Flock)
  /-- A task that has been woken goes on. -/
  | again (t : Task)
  /-- A signal ends the sleep. -/
  | signal (t : Task)
  | close (t : Task)
  /-- A lock on another file. -/
  | otherAlloc (e : FileLock) (t : Task)
  | otherFree (fl : Slot)

def step (s : State) : Op → Outcome State
  | .setlk t setlkw filp l =>
      if s.pc t = .running then fcntlSetlk s t setlkw filp l else .disabled
  | .again t =>
      match s.pc t with
      | .woken req => scan s t true req
      | _ => .disabled
  | .signal t =>
      match s.pc t with
      | .asleep fl req =>
          let e := s.table fl
          .next ((s.setEntry fl { e with flWait := e.flWait.filter (· ≠ t) }).setPc t (.woken req))
      | _ => .disabled
  | .close t => if s.pc t = .running then fcntlRemoveLocks s t else .disabled
  | .otherAlloc e t =>
      match s.freeList with
      | [] => .disabled
      | new :: free =>
          .next { s.setEntry new { e with flOwner := some t, flWait := [] } with
            freeList := free
            elsewhere := new :: s.elsewhere }
  | .otherFree fl =>
      if fl ∈ s.elsewhere then
        .next { s.setEntry fl { s.table fl with flOwner := none } with
          elsewhere := s.elsewhere.erase fl
          freeList := fl :: s.freeList }
      else .disabled

/-- `fcntl_init_locks`. -/
def init : State where
  table _ := { flOwner := none, flWait := [], flType := .rdlck, flStart := 0, flEnd := 0 }
  flock := []
  freeList := List.finRange NR_FILE_LOCKS
  elsewhere := []
  pc _ := .running
  log := []

end LinuxKernel.V098.Fs.Locks
