import Mathlib.Data.BitVec
import LinuxKernel.Lib.System
import LinuxKernel.Lib.WriteBack

/-!
# LinuxKernel.V098.Fs.Fat

`fat_access` of `fs/msdos/fat.c`: reading and writing an **entry of the FAT**, and the
copies of the FAT.

- A call is cut where `msdos_sread` can sleep: there the buffers that the call does not
  hold may be written back or dropped. Calls come one after another.
- A block has two sectors. Sectors are counted from the start of the device.
- `entry` and `log` are history: what each entry has to read as, and what the calls have
  returned and should have.
-/

namespace LinuxKernel.V098.Fs.Fat

open WriteBack

def SECTOR_SIZE : Nat := 512
def MSDOS_FAT12 : Nat := 4086

/-- What `msdos_read_super` has accepted. -/
structure Super where
  fatBits : Nat
  fats : Nat
  fatStart : Nat
  fatLength : Nat
  clusters : Nat
  bits : fatBits = if clusters > MSDOS_FAT12 then 16 else 12
  hasFat : 0 < fats
  room : clusters + 2 ≤ fatLength * SECTOR_SIZE * 8 / fatBits

/-- A FAT for four clusters. -/
def fourClusters : Super where
  fatBits := 12
  fats := 2
  fatStart := 1
  fatLength := 1
  clusters := 4
  bits := rfl
  hasFat := Nat.two_pos
  room := by decide

abbrev Data := Nat → BitVec 8

/-- `new_value`, as the callers have it. -/
inductive Value
  | free
  | cluster (c : Nat)
  | eof (mark : Nat)
  deriving Repr, DecidableEq

def Value.toNat : Value → Nat
  | free => 0
  | cluster c => c
  | eof mark => mark

/-- How a value has to read. -/
def Value.reading : Value → Int
  | free => 0
  | cluster c => c
  | eof _ => -1

/-- Where a call of `fat_access` is: at `msdos_sread` for the first or the second sector,
or for a sector of a copy. -/
inductive Pc
  | idle
  | first (this : Nat) (new : Option Value)
  | second (this : Nat) (new : Option Value)
  | copy (this c : Nat)
  | copy2 (this c : Nat)
  deriving DecidableEq

/-- A call that has returned `next`, where the entry had to read as `last`. -/
structure Event where
  this : Nat
  next : Int
  last : Int

structure State where
  store : Store Nat Data
  pc : Pc
  entry : Nat → Int
  log : List Event

variable (sb : Super)

/-! ### Sectors -/

/-- The byte at offset `o` of a sector. -/
def byte (s : State) (sector o : Nat) : BitVec 8 := s.store.view (sector / 2) (sector % 2 * 512 + o)

def sread (s : State) (sector : Nat) : State := { s with store := s.store.bread (sector / 2) }

def setByte (s : State) (sector o : Nat) (x : BitVec 8) : State :=
  { s with
    store := s.store.modify (sector / 2) (fun d => Function.update d (sector % 2 * 512 + o) x) true }

/-- `memcpy(c_data,data,SECTOR_SIZE)` -/
def memcpy (s : State) (c sector : Nat) (mark : Bool) : State :=
  { s with
    store := s.store.modify (c / 2)
      (fun d o => if o / 512 = c % 2 then byte s sector (o % 512) else d o) mark }

/-! ### The code -/

def firstByte (this : Nat) : Nat := if sb.fatBits = 16 then this * 2 else this * 3 / 2
def lastByte (this : Nat) : Nat := if sb.fatBits = 16 then this * 2 else this * 3 / 2 + 1

def firstSector (this : Nat) : Nat := sb.fatStart + firstByte sb this / 512
def lastSector (this : Nat) : Nat := sb.fatStart + lastByte sb this / 512

/-- `next`, from the two bytes of the entry. -/
def decode (this p q : Nat) : Int :=
  if sb.fatBits = 16 then
    let next := p + q <<< 8
    if next ≥ 0xfff8 then -1 else next
  else
    let next := if this % 2 = 1 then ((p >>> 4) ||| (q <<< 4)) &&& 0xfff else (p + q <<< 8) &&& 0xfff
    if next ≥ 0xff8 then -1 else next

/-- The offset of the second byte of the entry in its sector. -/
def lastOffset (this : Nat) : Nat :=
  if sb.fatBits = 16 then firstByte sb this % 512 / 2 * 2 + 1 else (firstByte sb this + 1) % 512

def firstOffset (this : Nat) : Nat :=
  if sb.fatBits = 16 then firstByte sb this % 512 / 2 * 2 else firstByte sb this % 512

def next (s : State) (this : Nat) : Int :=
  decode sb this (byte s (firstSector sb this) (firstOffset sb this)).toNat
    (byte s (lastSector sb this) (lastOffset sb this)).toNat

/-- The two bytes that are stored. -/
def encode (this v : Nat) (p q : Nat) : BitVec 8 × BitVec 8 :=
  if sb.fatBits = 16 then (.ofNat 8 v, .ofNat 8 (v >>> 8))
  else if this % 2 = 1 then (.ofNat 8 ((p &&& 0xf) ||| (v <<< 4)), .ofNat 8 (v >>> 4))
  else (.ofNat 8 (v &&& 0xff), .ofNat 8 ((q &&& 0xf0) ||| (v >>> 8)))

def write (s : State) (this v : Nat) : State :=
  let x := encode sb this v (byte s (firstSector sb this) (firstOffset sb this)).toNat
    (byte s (lastSector sb this) (lastOffset sb this)).toNat
  setByte (setByte s (firstSector sb this) (firstOffset sb this) x.1) (lastSector sb this)
    (lastOffset sb this) x.2

/-- The loop over the copies, at copy `c`. -/
def nextCopy (s : State) (this c : Nat) : State :=
  { s with pc := if c < sb.fats then .copy this c else .idle }

/-- `fat_access` with both sectors in the buffers. -/
def access (s : State) (this : Nat) (new : Option Value) : State :=
  let event : Event := { this := this, next := next sb s this, last := s.entry this }
  match new with
  | none => { s with pc := .idle, log := event :: s.log }
  | some v =>
      nextCopy sb { write sb s this v.toNat with
        entry := Function.update s.entry this v.reading, log := event :: s.log } this 1

/-- The first sector of the entry in copy `c`. -/
def copySector (this c : Nat) : Nat := firstSector sb this + sb.fatLength * c

def go (s : State) : Outcome State :=
  match s.pc with
  | .idle => .disabled
  | .first this new =>
      let s := sread s (firstSector sb this)
      if firstSector sb this = lastSector sb this then .next (access sb s this new)
      else .next { s with pc := .second this new }
  | .second this new => .next (access sb (sread s (lastSector sb this)) this new)
  | .copy this c =>
      let s := memcpy (sread s (copySector sb this c)) (copySector sb this c)
        (firstSector sb this) true
      if firstSector sb this = lastSector sb this then .next (nextCopy sb s this (c + 1))
      else .next { s with pc := .copy2 this c }
  | .copy2 this c =>
      let s := memcpy (sread s (copySector sb this c + 1)) (copySector sb this c + 1)
        (lastSector sb this) false
      .next (nextCopy sb s this (c + 1))

/-- The blocks of the buffers that the call holds. -/
def held : Pc → List Nat
  | .idle | .first _ _ => []
  | .second this _ => [firstSector sb this / 2]
  | .copy this _ => [firstSector sb this / 2, lastSector sb this / 2]
  | .copy2 this c =>
      [firstSector sb this / 2, lastSector sb this / 2, copySector sb this c / 2]

/-- What a caller may pass: a cluster, the mark of a free one, or an end mark. -/
def Allowed (new : Option Value) : Prop :=
  ∀ v ∈ new, match v with
    | .free => True
    | .cluster c => c < sb.clusters + 2
    | .eof mark => 2 ^ sb.fatBits - 8 ≤ mark ∧ mark < 2 ^ sb.fatBits

instance (new : Option Value) : Decidable (Allowed sb new) :=
  match new with
  | none => isTrue nofun
  | some .free => isTrue fun v hv => by cases hv; trivial
  | some (.cluster c) =>
      decidable_of_iff (c < sb.clusters + 2) ⟨fun h v hv => by cases hv; exact h, fun h => h _ rfl⟩
  | some (.eof mark) =>
      decidable_of_iff (2 ^ sb.fatBits - 8 ≤ mark ∧ mark < 2 ^ sb.fatBits)
        ⟨fun h v hv => by cases hv; exact h, fun h => h _ rfl⟩

inductive Act
  | fatAccess (this : Nat) (new : Option Value)
  | go
  | writeBack (b : Nat)
  | drop (b : Nat)
  deriving DecidableEq

def step (s : State) : Act → Outcome State
  | .fatAccess this new =>
      if s.pc = .idle ∧ this < sb.clusters + 2 ∧ Allowed sb new then
        .next { s with pc := .first this new }
      else .disabled
  | .go => go sb s
  | .writeBack b => .next { s with store := s.store.writeBack b }
  | .drop b =>
      if s.store.dirty b = false ∧ b ∉ held sb s.pc then .next { s with store := s.store.drop b }
      else .disabled

/-! ### What is wanted -/

/-- A byte of copy `c` on a disk. -/
def diskByte (disk : Nat → Data) (c a : Nat) : BitVec 8 :=
  let sector := sb.fatStart + sb.fatLength * c + a / 512
  disk (sector / 2) (sector % 2 * 512 + a % 512)

/-- How the entry reads on a disk. -/
def diskEntry (disk : Nat → Data) (this : Nat) : Int :=
  decode sb this (diskByte sb disk 0 (firstByte sb this)).toNat
    (diskByte sb disk 0 (firstByte sb this + 1)).toNat

def CopiesEqual (disk : Nat → Data) : Prop :=
  ∀ c < sb.fats, ∀ a < sb.fatLength * 512, diskByte sb disk c a = diskByte sb disk 0 a

/-- The file system has been mounted. -/
structure Init (s : State) : Prop where
  pc : s.pc = .idle
  buffer : ∀ b, s.store.buffer b = none
  copies : CopiesEqual sb s.store.disk
  entry : ∀ this, s.entry this = diskEntry sb s.store.disk this
  log : s.log = []

/-- The calls have returned what they should, the entries read as what was last written,
and between two calls all copies agree once the dirty buffers are written. -/
structure Sound (s : State) : Prop where
  returned : ∀ e ∈ s.log, e.next = e.last
  entry : ∀ this < sb.clusters + 2, next sb s this = s.entry this
  copies : s.pc = .idle → CopiesEqual sb s.store.flush

end LinuxKernel.V098.Fs.Fat
