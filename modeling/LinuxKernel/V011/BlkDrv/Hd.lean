import LinuxKernel.Lib.System

/-!
# LinuxKernel.V011.BlkDrv.Hd

**The hard disk**: `kernel/blk_drv/hd.c`, with `end_request` of `blk.h` and
`add_request` of `ll_rw_blk.c`.

A step is a new request, an interrupt, or one pass of `do_hd_request` from its
label `repeat`; what the controller answers is part of the action.

- A `NULL` `CURRENT` has no fields: a run ends where one is looked at.
- The controller moves sector after sector, from where the command told it to
  start. A sector that is written counts when the controller has acknowledged it.
- `log` is history, the newest event first.
-/

namespace LinuxKernel.V011.BlkDrv.Hd

/-! ### Requests -/

def MAJOR_NR : Nat := 3
def MAX_ERRORS : Nat := 7

inductive Cmd
  | read
  | write
  deriving DecidableEq, Repr

/-- What a request is for; `id` numbers the requests. -/
structure Asked where
  id : Nat
  dev : Nat
  cmd : Cmd
  sector : BitVec 32
  buffer : Nat
  bh : Nat
  deriving DecidableEq, Repr

/-- `struct request`. -/
structure Request where
  asked : Asked
  errors : Nat
  sector : BitVec 32
  nrSectors : Nat
  buffer : Nat
  deriving DecidableEq, Repr

/-- `MAJOR`. -/
def major (dev : Nat) : Nat := dev / 256

/-- `MINOR`. -/
def minor (dev : Nat) : Nat := dev % 256

/-- A request for the two sectors of a block, as `make_request` fills it in. -/
def Request.new (id : Nat) (a : Asked) : Request where
  asked := { a with id := id }
  errors := 0
  sector := a.sector
  nrSectors := 2
  buffer := a.buffer

def Cmd.toNat : Cmd → Nat
  | .read => 0
  | .write => 1

/-- `IN_ORDER`. -/
def inOrder (s₁ s₂ : Request) : Bool :=
  s₁.asked.cmd.toNat < s₂.asked.cmd.toNat || s₁.asked.cmd = s₂.asked.cmd &&
    (s₁.asked.dev < s₂.asked.dev || s₁.asked.dev = s₂.asked.dev && s₁.sector < s₂.sector)

/-- The loop of `add_request` behind `tmp`. -/
def insertAfter (req tmp : Request) : List Request → List Request
  | [] => [req]
  | next :: rest =>
      if (inOrder tmp req || !inOrder tmp next) && inOrder req next then req :: next :: rest
      else next :: insertAfter req next rest

/-! ### Disks -/

/-- `struct hd_i_struct`. -/
structure HdInfo where
  head : Nat
  sect : Nat
  cyl : Nat

/-- `struct hd_struct`. -/
structure Part where
  startSect : BitVec 32
  nrSects : BitVec 32

/-- `NR_HD`, `hd_info` and `hd`. -/
structure Disks where
  nrHd : Nat
  info : Nat → HdInfo
  hd : Nat → Part

/-- What the controller is at: `left` sectors from `lba` on, the next of which it is given
from `data` if it is to be written. -/
structure Controller where
  drive : Nat
  lba : Nat
  left : Nat
  data : Option Nat

inductive Event
  /-- A sector of the disk from, or to, the 512 bytes at `addr`. -/
  | moved (q : Asked) (drive lba addr : Nat)
  | failed (q : Asked)
  | ended (q : Asked) (uptodate : Bool)
  deriving DecidableEq, Repr

inductive Handler
  | readIntr
  | writeIntr
  | recalIntr
  deriving DecidableEq, Repr

structure State where
  /-- `CURRENT`, and what follows it. -/
  queue : List Request
  lock : Nat → Bool
  uptodate : Nat → Bool
  doHd : Option Handler
  reset : Bool
  recalibrate : Bool
  /-- Control is at `repeat` in `do_hd_request`. -/
  inRequest : Bool
  ctl : Controller
  made : Nat
  log : List Event

/-! ### The code -/

def nullCurrent : String := "CURRENT is NULL"

/-- `end_request` of `r`, with `rest` behind it. -/
def endRequest (s : State) (r : Request) (rest : List Request) (uptodate : Bool) : State :=
  { s with
    queue := rest
    uptodate := fun b => if b = r.asked.bh then uptodate else s.uptodate b
    lock := fun b => if b = r.asked.bh then false else s.lock b
    log := .ended r.asked uptodate :: s.log }

/-- `hd_out`; the registers hold eight bits, two of them the cylinder. -/
def hdOut (D : Disks) (s : State) (ready : Bool) (drive nsect sec head cyl : Nat)
    (intr : Handler) : Outcome State :=
  if 1 < drive ∨ 15 < head then .panic "Trying to write bad sector"
  else if ready = false then .panic "HD controller not ready"
  else .next { s with
    doHd := some intr
    ctl := {
      drive := drive
      lba := (cyl % 65536 * (D.info drive).head + head) * (D.info drive).sect + sec % 256 - 1
      left := nsect % 256
      data := none } }

/-- The controller moves a sector for `q`. -/
def transfer (s : State) (q : Asked) (addr : Nat) : State :=
  if s.ctl.left = 0 then s
  else { s with
    ctl := { s.ctl with lba := s.ctl.lba + 1, left := s.ctl.left - 1, data := none }
    log := .moved q s.ctl.drive s.ctl.lba addr :: s.log }

/-- `port_write`. -/
def portWrite (s : State) (addr : Nat) : State :=
  { s with ctl := { s.ctl with data := some addr } }

/-- `bad_rw_intr`. -/
def badRwIntr (s : State) : Outcome State :=
  match s.queue with
  | [] => .panic nullCurrent
  | r :: rest =>
      let r := { r with errors := r.errors + 1 }
      let s := { s with queue := r :: rest, log := .failed r.asked :: s.log }
      let s := if MAX_ERRORS ≤ r.errors then endRequest s r rest false else s
      match s.queue with
      | [] => .panic nullCurrent
      | r :: _ => .next (if MAX_ERRORS / 2 < r.errors then { s with reset := true } else s)

/-- `do_hd_request()` at the end of a handler. -/
def again (s : State) : State := { s with inRequest := true }

/-- `read_intr`. -/
def readIntr (s : State) (good : Bool) : Outcome State :=
  if good then
    match s.queue with
    | [] => .panic nullCurrent
    | r :: rest =>
        let s := transfer s r.asked r.buffer
        let r := { r with
          errors := 0, buffer := r.buffer + 512, sector := r.sector + 1, nrSectors := r.nrSectors - 1 }
        if r.nrSectors ≠ 0 then .next { s with queue := r :: rest, doHd := some .readIntr }
        else .next (again (endRequest s r rest true))
  else (badRwIntr s).bind fun s => .next (again s)

/-- `write_intr`; the controller has written what it was given. -/
def writeIntr (s : State) (good : Bool) : Outcome State :=
  if good then
    match s.queue with
    | [] => .panic nullCurrent
    | r :: rest =>
        let s := match s.ctl.data with
          | some addr => transfer s r.asked addr
          | none => s
        let r := { r with nrSectors := r.nrSectors - 1 }
        if r.nrSectors ≠ 0 then
          let r := { r with sector := r.sector + 1, buffer := r.buffer + 512 }
          .next (portWrite { s with queue := r :: rest, doHd := some .writeIntr } r.buffer)
        else .next (again (endRequest s r rest true))
  else (badRwIntr s).bind fun s => .next (again s)

/-- `recal_intr`. -/
def recalIntr (s : State) (good : Bool) : Outcome State :=
  if good then .next (again s) else (badRwIntr s).bind fun s => .next (again s)

/-- `dev >= 5*NR_HD || block+2 > hd[dev].nr_sects`. -/
def Refused (D : Disks) (r : Request) : Prop :=
  5 * D.nrHd ≤ minor r.asked.dev ∨ (D.hd (minor r.asked.dev)).nrSects < r.sector + 2

instance (D : Disks) (r : Request) : Decidable (Refused D r) :=
  inferInstanceAs (Decidable (_ ∨ _))

/-- The command for `r`, with neither a reset nor a recalibration to be done. -/
def issue (D : Disks) (s : State) (r : Request) (ready drq : Bool) : Outcome State :=
  let dev := minor r.asked.dev
  let info := D.info (dev / 5)
  let block := (r.sector + (D.hd dev).startSect).toNat
  let sec := block % info.sect + 1
  let head := block / info.sect % info.head
  let cyl := block / info.sect / info.head
  match r.asked.cmd with
  | .write =>
      (hdOut D s ready (dev / 5) r.nrSectors sec head cyl .writeIntr).bind fun s =>
        if drq then .next { portWrite s r.buffer with inRequest := false } else badRwIntr s
  | .read =>
      (hdOut D s ready (dev / 5) r.nrSectors sec head cyl .readIntr).bind fun s =>
        .next { s with inRequest := false }

/-- `do_hd_request` from `repeat` until it returns or goes there again. -/
def doHdRequest (D : Disks) (s : State) (ready drq : Bool) : Outcome State :=
  match s.queue with
  | [] => .next { s with inRequest := false }
  | r :: rest =>
      let drive := minor r.asked.dev / 5
      let info := D.info drive
      if major r.asked.dev ≠ MAJOR_NR then .panic "harddisk: request list destroyed"
      else if s.lock r.asked.bh = false then .panic "harddisk: block not locked"
      else if Refused D r then .next (endRequest s r rest false)
      else if info.sect = 0 ∨ info.head = 0 then .panic "divide error"
      else if s.reset then
        (hdOut D { s with reset := false, recalibrate := true } ready drive info.sect info.sect
          (info.head - 1) info.cyl .recalIntr).bind fun s => .next { s with inRequest := false }
      else if s.recalibrate then
        (hdOut D { s with recalibrate := false } ready drive info.sect 0 0 0 .recalIntr).bind
          fun s => .next { s with inRequest := false }
      else issue D s r ready drq

/-- `add_request`, behind `lock_buffer`. -/
def addRequest (s : State) (a : Asked) : State :=
  let req := Request.new s.made a
  let s := { s with lock := fun b => b = a.bh || s.lock b, made := s.made + 1 }
  match s.queue with
  | [] => again { s with queue := [req] }
  | tmp :: rest => { s with queue := tmp :: insertAfter req tmp rest }

inductive Action
  | add (a : Asked)
  /-- `win_result` is good or bad. -/
  | interrupt (good : Bool)
  /-- Whether the controller is ready, and whether `DRQ_STAT` is seen. -/
  | request (ready drq : Bool)

/-- `hd_interrupt`: `do_hd` is cleared, and called. -/
def hdInterrupt (s : State) (good : Bool) : Outcome State :=
  match s.doHd with
  | none => .disabled
  | some .readIntr => readIntr { s with doHd := none } good
  | some .writeIntr => writeIntr { s with doHd := none } good
  | some .recalIntr => recalIntr { s with doHd := none } good

def step (D : Disks) (s : State) : Action → Outcome State
  | .add a => if s.inRequest ∨ s.lock a.bh then .disabled else .next (addRequest s a)
  | .interrupt good => if s.inRequest then .disabled else hdInterrupt s good
  | .request ready drq => if s.inRequest then doHdRequest D s ready drq else .disabled

/-- `do_hd_request` is called for a queue of new requests. -/
def initial (asked : List Asked) : State where
  queue := asked.mapIdx Request.new
  lock := fun b => asked.any fun a => a.bh = b
  uptodate := fun _ => false
  doHd := none
  reset := true
  recalibrate := true
  inRequest := true
  ctl := { drive := 0, lba := 0, left := 0, data := none }
  made := asked.length
  log := []

/-! ### What is claimed -/

/-- The sectors moved for `q`, the last one first. -/
def transfers (q : Asked) : List Event → List (Nat × Nat × Nat)
  | [] => []
  | .moved q' drive lba addr :: l =>
      if q' = q then (drive, lba, addr) :: transfers q l else transfers q l
  | .failed _ :: l => transfers q l
  | .ended _ _ :: l => transfers q l

/-- The failures of `q` since the last good sector. -/
def failures (q : Asked) : List Event → Nat
  | [] => 0
  | .moved q' _ _ _ :: l => if q' = q then 0 else failures q l
  | .failed q' :: l => if q' = q then failures q l + 1 else failures q l
  | .ended _ _ :: l => failures q l

/-- The ids of the requests that have left the queue. -/
def left : List Event → List Nat
  | [] => []
  | .ended q _ :: l => q.id :: left l
  | .moved _ _ _ _ :: l => left l
  | .failed _ :: l => left l

/-- The two sectors of `q` are in its partition. -/
def Fits (D : Disks) (q : Asked) : Prop :=
  minor q.dev < 5 * D.nrHd ∧ q.sector.toNat + 2 ≤ (D.hd (minor q.dev)).nrSects.toNat

/-- Sector `i` of `q`, on the disk and in the buffer. -/
def place (D : Disks) (q : Asked) (i : Nat) : Nat × Nat × Nat :=
  (minor q.dev / 5, (D.hd (minor q.dev)).startSect.toNat + q.sector.toNat + i, q.buffer + 512 * i)

/-- Each request was ended for a reason. -/
def Right (D : Disks) : List Event → Prop
  | [] => True
  | .ended q true :: l => transfers q l = [place D q 1, place D q 0] ∧ Right D l
  | .ended q false :: l => (¬ Fits D q ∨ MAX_ERRORS ≤ failures q l) ∧ Right D l
  | .moved _ _ _ _ :: l => Right D l
  | .failed _ :: l => Right D l

/-- The driver finishes every request exactly once. -/
structure Finishes (D : Disks) (s : State) : Prop where
  once : (s.queue.map (·.asked.id) ++ left s.log).Perm (List.range s.made)
  right : Right D s.log
  /-- As long as there are requests, an interrupt is awaited. -/
  awaited : s.inRequest = false → s.queue ≠ [] → s.doHd ≠ none

/-- `bad_rw_intr` does not end the last request of the queue, and ends no request for
errors before its last good sector. -/
def BadOk (log : List Event) : List Request → Prop
  | [] => True
  | r :: rest => MAX_ERRORS ≤ r.errors + 1 → rest ≠ [] ∧ MAX_ERRORS ≤ failures r.asked log + 1

/-- The registers of the controller hold the address of the sector. -/
def Addressable (D : Disks) (r : Request) : Prop :=
  let info := D.info (minor r.asked.dev / 5)
  let block := (D.hd (minor r.asked.dev)).startSect.toNat + r.sector.toNat
  block + 1 < 2 ^ 32 ∧ block % info.sect + 1 < 256 ∧ block / info.sect / info.head < 65536

/-- No request is refused that has one sector behind it, and no command is given that
the controller cannot hold. -/
def RequestOk (D : Disks) (s : State) (drq : Bool) : List Request → Prop
  | [] => True
  | r :: rest => (Refused D r → r.nrSectors = 2) ∧
      (¬ Refused D r → s.reset = false → s.recalibrate = false →
        Addressable D r ∧ (r.asked.cmd = .write → drq = false → BadOk s.log (r :: rest)))

/-- The step does not go wrong. -/
def Ok (D : Disks) (s : State) : Action → Prop
  | .add _ => True
  | .interrupt good => s.queue ≠ [] ∧ (good = false → BadOk s.log s.queue)
  | .request _ drq => RequestOk D s drq s.queue

section Decidable

variable (D : Disks) (s : State)

instance (log : List Event) : (q : List Request) → Decidable (BadOk log q)
  | [] => inferInstanceAs (Decidable True)
  | _ :: _ => inferInstanceAs (Decidable (_ → _ ∧ _))

instance (r : Request) : Decidable (Addressable D r) := inferInstanceAs (Decidable (_ ∧ _ ∧ _))

instance (drq : Bool) : (q : List Request) → Decidable (RequestOk D s drq q)
  | [] => inferInstanceAs (Decidable True)
  | _ :: _ => inferInstanceAs (Decidable ((_ → _) ∧ (_ → _ → _ → _ ∧ (_ → _ → _))))

instance : (a : Action) → Decidable (Ok D s a)
  | .add _ => inferInstanceAs (Decidable True)
  | .interrupt _ => inferInstanceAs (Decidable (_ ∧ (_ → _)))
  | .request _ _ => inferInstanceAs (Decidable (RequestOk _ _ _ _))

end Decidable

end LinuxKernel.V011.BlkDrv.Hd
