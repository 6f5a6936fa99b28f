import LinuxKernel.Lib.Loop
import LinuxKernel.V098.Fs.Clusters

/-!
# LinuxKernel.V098.Fs.FatWalks

**The loops along the FAT**: those of `get_cluster` and `fat_free` (`fs/msdos/fat.c`), the search
for the last cluster in `msdos_add_cluster` and `raw_scan_nonroot` (`fs/msdos/misc.c`), on a device
with any contents.

- The device is the contents of its sectors; `bad` are those that `msdos_sread` cannot read.
- `log`, `seen` and `scanned` are history: the sectors that are read or written, the numbers whose
  entry `fat_access` is called for, and those whose sectors `raw_found` is called for.
- A `panic` leaves the loop.
-/

namespace LinuxKernel.V098.Fs.FatWalks

open Clusters (Entry)

/-- What `msdos_read_super` has accepted. -/
structure Super extends Fat.Super where
  clusterSize : Nat
  dirEntries : Nat
  hasSectors : 0 < clusterSize

structure State where
  byte : Int → Nat → BitVec 8
  log : List Int
  seen : List Nat
  scanned : List Nat

variable (sb : Super) (bad : Int → Bool)

def dataStart : Nat := sb.fatStart + sb.fats * sb.fatLength + sb.dirEntries * 32 / 512

/-! ### `fat_access` -/

def firstSector (this : Nat) : Nat := Fat.firstSector sb.toSuper this
def lastSector (this : Nat) : Nat := Fat.lastSector sb.toSuper this

def touch (s : State) (sector : Int) : State := { s with log := sector :: s.log }

def setByte (s : State) (sector : Int) (o : Nat) (x : BitVec 8) : State :=
  { s with byte := fun a i => if a = sector ∧ i = o then x else s.byte a i }

/-- `memcpy(c_data,data,SECTOR_SIZE)` -/
def memcpy (s : State) (c sector : Int) : State :=
  { s with byte := fun a i => if a = c then s.byte sector i else s.byte a i }

/-- `*p_first` -/
def pFirst (s : State) (this : Nat) : BitVec 8 :=
  s.byte (firstSector sb this) (Fat.firstOffset sb.toSuper this)

def pLast (s : State) (this : Nat) : BitVec 8 :=
  s.byte (lastSector sb this) (Fat.lastOffset sb.toSuper this)

/-- `next`, as `fat_access` returns it. -/
def entry (s : State) (this : Nat) : Entry :=
  let next := Fat.decode sb.toSuper this (pFirst sb s this).toNat (pLast sb s this).toNat
  if next = -1 then .eof else if next = 0 then .free else .cluster next.toNat

def write (s : State) (this v : Nat) : State :=
  let x := Fat.encode sb.toSuper this v (pFirst sb s this).toNat (pLast sb s this).toNat
  setByte (setByte s (firstSector sb this) (Fat.firstOffset sb.toSuper this) x.1)
    (lastSector sb this) (Fat.lastOffset sb.toSuper this) x.2

/-- The loop over the copies, with `n` more to go from `copy` on. -/
def writeCopies (this : Nat) : Nat → Nat → State → State
  | 0, _, s => s
  | n + 1, copy, s =>
      let c : Int := firstSector sb this + sb.fatLength * copy
      let s := touch s c
      if bad c then s
      else
        let s := memcpy s c (firstSector sb this)
        if firstSector sb this = lastSector sb this then writeCopies this n (copy + 1) s
        else
          let s := touch s (c + 1)
          if bad (c + 1) then s
          else writeCopies this n (copy + 1) (memcpy s (c + 1) (lastSector sb this))

/-- `fat_access`, with the sectors of the entry read. -/
def access (s : State) (this : Nat) (new : Option Nat) : State :=
  match new with
  | none => s
  | some v => writeCopies sb bad this (sb.fats - 1) 1 (write sb s this v)

def fatAccess (s : State) (this : Nat) (new : Option Nat) : Entry × State :=
  let s := touch { s with seen := this :: s.seen } (firstSector sb this)
  if bad (firstSector sb this) then (.free, s)
  else if firstSector sb this = lastSector sb this then
    (entry sb s this, access sb bad s this new)
  else
    let s := touch s (lastSector sb this)
    if bad (lastSector sb this) then (.free, s)
    else (entry sb s this, access sb bad s this new)

/-! ### `get_cluster` -/

/-- At the test of the loop. -/
structure Get where
  count : Nat
  this : Nat
  disk : State

/-- Behind the loop: the cluster at the place, or 0. -/
def getTurn (cluster : Nat) (z : Get) : Turn Get (Option Nat × State) :=
  if z.count < cluster then
    match fatAccess sb bad z.disk z.this none with
    | (.eof, s) | (.free, s) => .done (none, s)
    | (.cluster c, s) => .again { count := z.count + 1, this := c, disk := s }
  else .done (some z.this, z.disk)

/-! ### `msdos_add_cluster` -/

/-- At `last = current`. -/
structure Search where
  current : Nat
  disk : State

inductive Searched
  | panic
  | last (c : Nat)

def searchTurn (z : Search) : Turn Search (Searched × State) :=
  match fatAccess sb bad z.disk z.current none with
  -- "File without EOF"
  | (.free, s) => .done (.panic, s)
  | (.eof, s) => .done (.last z.current, s)
  | (.cluster c, s) => .again { current := c, disk := s }

/-! ### `raw_scan_nonroot` -/

def EIO : Int := 5
def ENOENT : Int := 2
def MSDOS_NAME : Nat := 11
def DELETED_FLAG : BitVec 8 := 0xe5
def ATTR_DIR : BitVec 8 := 16

/-- `name`, and whether `ino` is not `NULL`. -/
structure Wanted where
  name : Option (Nat → BitVec 8)
  ino : Bool

/-- `*number`, and `*ino`. -/
structure Scan where
  number : Nat
  ino : Int
  disk : State

/-- `!strncmp(a,b,n)`, from place `i` on. -/
def strncmp (a b : Nat → BitVec 8) : Nat → Nat → Bool
  | 0, _ => true
  | n + 1, i => a i = b i && (a i = 0 || strncmp a b n (i + 1))

def entryByte (s : State) (sector : Int) (entry o : Nat) : BitVec 8 :=
  s.byte sector (entry * 32 + o)

/-- `data[entry].start` -/
def entryStart (s : State) (sector : Int) (entry : Nat) : Nat :=
  (entryByte s sector entry 26).toNat + (entryByte s sector entry 27).toNat * 256

def isDone (w : Wanted) (z : Scan) (sector : Int) (entry : Nat) : Bool :=
  match w.name with
  | some name => strncmp (entryByte z.disk sector entry) name MSDOS_NAME 0
  | none =>
      w.ino && entryByte z.disk sector entry 0 ≠ DELETED_FLAG &&
        entryStart z.disk sector entry = z.number

/-- Directory entries are counted if nothing is looked for. -/
def counts (w : Wanted) : Bool := w.name.isNone && !w.ino

def countEntry (w : Wanted) (z : Scan) (sector : Int) (entry : Nat) : Scan :=
  if counts w ∧ entryByte z.disk sector entry 0 ≠ 0 ∧
      entryByte z.disk sector entry 0 ≠ DELETED_FLAG ∧
      entryByte z.disk sector entry 11 &&& ATTR_DIR ≠ 0 then
    { z with number := z.number + 1 }
  else z

/-- The loop over the entries of a sector, with `n` more to go from `entry` on. -/
def rawEntries (w : Wanted) (sector : Int) : Nat → Nat → Scan → Int × Scan
  | 0, _, z => (-1, z)
  | n + 1, entry, z =>
      if isDone w z sector entry then
        (entryStart z.disk sector entry,
          if w.ino then { z with ino := sector * 16 + entry } else z)
      else rawEntries w sector n (entry + 1) (countEntry w z sector entry)

def rawFound (w : Wanted) (z : Scan) (sector : Int) : Int × Scan :=
  let z := { z with disk := touch z.disk sector }
  if bad sector then (- EIO, z) else rawEntries w sector 16 0 z

/-- `(start-2)*cluster_size+data_start+count` -/
def dataSector (start count : Nat) : Int := (start - 2) * sb.clusterSize + dataStart sb + count

/-- The loop over the sectors of a cluster, with `n` more to go from `count` on. -/
def rawSectors (w : Wanted) (start : Nat) : Nat → Nat → Scan → Int × Scan
  | 0, _, z => (-1, z)
  | n + 1, count, z =>
      let r := rawFound bad w z (dataSector sb start count)
      if 0 ≤ r.1 then r else rawSectors w start n (count + 1) r.2

/-- The sectors of cluster `start`. -/
def rawCluster (w : Wanted) (start : Nat) (z : Scan) : Int × Scan :=
  rawSectors sb bad w start sb.clusterSize 0
    { z with disk := { z.disk with scanned := start :: z.disk.scanned } }

inductive Scanned
  | found (cluster : Int) (z : Scan)
  | panic (z : Scan)
  | error (e : Int) (z : Scan)

def rawTurn (w : Wanted) (z : Nat × Scan) : Turn (Nat × Scan) Scanned :=
  let r := rawCluster sb bad w z.1 z.2
  if 0 ≤ r.1 then .done (.found r.1 r.2)
  else
    match fatAccess sb bad r.2.disk z.1 none with
    -- "FAT error"
    | (.free, s) => .done (.panic { r.2 with disk := s })
    | (.eof, s) => .done (.error (-ENOENT) { r.2 with disk := s })
    | (.cluster c, s) => .again (c, { r.2 with disk := s })

/-! ### `fat_free` -/

/-- At the test of the first loop with `skip` left, or at that of the second one. -/
inductive FreePc
  | skip (skip last this : Nat)
  | free (this : Nat)

inductive Freed
  | done
  | error (e : Int)
  | panic

/-- Behind the first loop. -/
def cut (s : State) (last this : Nat) : FreePc × State :=
  (.free this,
    if last = 0 then s else (fatAccess sb bad s last (some (Clusters.endMark sb.toSuper))).2)

def freeTurn (z : FreePc × State) : Turn (FreePc × State) (Freed × State) :=
  match z with
  | (.skip 0 last this, s) => .again (cut sb bad s last this)
  | (.skip (n + 1) _ this, s) =>
      match fatAccess sb bad s this none with
      | (.eof, s) => .done (.done, s)
      -- "fat_free: skipped EOF"
      | (.free, s) => .done (.error (- EIO), s)
      | (.cluster c, s) => .again (.skip n this c, s)
  | (.free this, s) =>
      match fatAccess sb bad s this (some 0) with
      -- "fat_free: deleting beyond EOF"
      | (.free, s) => .done (.panic, s)
      | (.eof, s) => .done (.done, s)
      | (.cluster c, s) => .again (.free c, s)

/-! ### What has to hold -/

/-- The sector is one of a copy of the FAT. -/
def InFat (sector : Int) : Prop :=
  sb.fatStart ≤ sector ∧ sector < sb.fatStart + sb.fats * sb.fatLength

/-- The sector is one of a cluster. -/
def InData (sector : Int) : Prop :=
  dataStart sb ≤ sector ∧ sector < dataStart sb + sb.clusters * sb.clusterSize

def InAreas (s : State) : Prop := ∀ sector ∈ s.log, InFat sb sector ∨ InData sb sector

/-- The entry of the number is in the FAT. -/
def HasEntry (n : Nat) : Prop := Fat.lastByte sb.toSuper n / 512 < sb.fatLength

def IsCluster (n : Nat) : Prop := 2 ≤ n ∧ n < sb.clusters + 2

/-- Only numbers with an entry have been followed, and only clusters have been scanned. -/
def Followed (s : State) : Prop :=
  (∀ n ∈ s.seen, HasEntry sb n) ∧ ∀ n ∈ s.scanned, IsCluster sb n

/-- Writing the first copy of the sectors of the entry changes the second half of the entry. -/
def Overlaps (this : Nat) : Prop :=
  firstSector sb this ≠ lastSector sb this ∧ sb.fatLength = 1 ∧ 1 < sb.fats

/-- The number behind `this`. A sector that cannot be read counts as a free entry. -/
def follow (s : State) (this : Nat) : Option Nat := (fatAccess sb bad s this none).1.next

/-- The number behind `this`, unless the scan finds something in the cluster. -/
def scanOn (w : Wanted) (z : Scan) (this : Nat) : Option Nat :=
  if 0 ≤ (rawCluster sb bad w this z).1 then none else follow sb bad z.disk this

end LinuxKernel.V098.Fs.FatWalks
