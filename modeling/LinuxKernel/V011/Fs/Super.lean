import LinuxKernel.Lib.RefCount
import LinuxKernel.Lib.System

/-!
# LinuxKernel.V011.Fs.Super

**Mounting**: `read_super` of `fs/super.c`, which fills a slot of
`super_block` from block 1 of a disk and reads the two bitmaps.

- A buffer is named by its device and its block. `count` is `b_count`, and
  `first` the first byte of the data.
- `Reads` says which calls of `bread` succeed. What `check_disk_change` does
  before is a parameter.
- The bitmap pointers are two arrays of eight. A store behind the end of one
  of them, and a use of `NULL`, end the run with a `Stop`.
-/

namespace LinuxKernel.V011.Fs.Super

def SUPER_MAGIC : BitVec 16 := 0x137F

/-- A device and a block. -/
abbrev Buffer := BitVec 16 × Nat

/-- `struct d_super_block`. -/
structure DSuper where
  ninodes : BitVec 16
  nzones : BitVec 16
  imapBlocks : BitVec 16
  zmapBlocks : BitVec 16
  firstdatazone : BitVec 16
  logZoneSize : BitVec 16
  maxSize : BitVec 32
  magic : BitVec 16

/-- `s_imap` or `s_zmap`. -/
abbrev Slots := Fin 8 → Option Buffer

/-- `struct super_block`, `s_wait` left out. -/
structure SuperBlock where
  disk : DSuper
  imap : Slots
  zmap : Slots
  dev : BitVec 16
  isup : Option Nat
  imount : Option Nat
  time : BitVec 32
  lock : Bool
  rdOnly : Bool
  dirt : Bool

structure State where
  super : Fin 8 → SuperBlock
  count : Buffer → Nat
  first : Buffer → BitVec 8

/-- What ends a run before `read_super` returns. -/
inductive Stop
  | panic (msg : String)
  /-- A store behind the end of `s_imap` or `s_zmap`. -/
  | outside
  /-- A use of a `NULL` pointer. -/
  | null

/-- Which calls of `bread` succeed: that for block 1, and those of the two loops. -/
structure Reads where
  super : Bool
  imap : Nat → Bool
  zmap : Nat → Bool

def State.set (s : State) (i : Fin 8) (sb : SuperBlock) : State :=
  { s with super := Function.update s.super i sb }

/-- `get_super`, of a slot that nobody has locked. -/
def getSuper (s : State) (dev : BitVec 16) : Option (Fin 8) :=
  if dev = 0 then none else (List.finRange 8).find? fun i => (s.super i).dev = dev

/-- `free_super`. -/
def freeSuper (s : State) (i : Fin 8) : State := s.set i { s.super i with lock := false }

/-- `brelse`. -/
def brelse (count : Buffer → Nat) : Option Buffer → Except Stop (Buffer → Nat)
  | none => .ok count
  | some b =>
      if count b = 0 then .error (.panic "Trying to free free buffer")
      else .ok (Function.update count b (count b - 1))

/-- `brelse` of some of the slots. -/
def brelseAll (map : Slots) : List (Fin 8) → (Buffer → Nat) → Except Stop (Buffer → Nat)
  | [], count => .ok count
  | i :: is, count => (brelse count (map i)).bind (brelseAll map is)

/-- What a loop over a bitmap changes. -/
structure Loop where
  map : Slots
  count : Buffer → Nat
  block : Nat

/-- The loop that fills a bitmap from slot `i` on, with `left` slots to go. -/
def fill (dev : BitVec 16) (ok : Nat → Bool) : (left i : Nat) → Loop → Except Stop Loop
  | 0, _, l => .ok l
  | left + 1, i, l =>
      if h : i < 8 then
        if ok i then
          let b : Buffer := (dev, l.block)
          fill dev ok left (i + 1) {
            map := Function.update l.map ⟨i, h⟩ (some b)
            count := Function.update l.count b (l.count b + 1)
            block := l.block + 1 }
        else .ok { l with map := Function.update l.map ⟨i, h⟩ none }
      else .error .outside

/-- `bh->b_data[0] |= 1`. -/
def setFirst (first : Buffer → BitVec 8) : Option Buffer → Except Stop (Buffer → BitVec 8)
  | none => .error .null
  | some b => .ok (Function.update first b (first b ||| 1))

/-- The slot is given back. -/
def fail (s : State) (i : Fin 8) : State × Option (Fin 8) :=
  (freeSuper (s.set i { s.super i with dev := 0 }) i, none)

/-- `read_super` behind the loops, in slot `i`. -/
def checkMaps (s : State) (i : Fin 8) (im zm : Loop) : Except Stop (State × Option (Fin 8)) :=
  let sb := { s.super i with imap := im.map, zmap := zm.map }
  let s := { s.set i sb with count := zm.count }
  if zm.block ≠ 2 + sb.disk.imapBlocks.toNat + sb.disk.zmapBlocks.toNat then
    (brelseAll sb.imap (List.finRange 8) s.count).bind fun count =>
    (brelseAll sb.zmap (List.finRange 8) count).bind fun count =>
    .ok (fail { s with count } i)
  else
    (setFirst s.first (sb.imap 0)).bind fun first =>
    (setFirst first (sb.zmap 0)).bind fun first =>
    .ok (freeSuper { s with first } i, some i)

/-- `read_super` from the loops on. -/
def readMaps (s : State) (i : Fin 8) (reads : Reads) : Except Stop (State × Option (Fin 8)) :=
  let sb := s.super i
  (fill sb.dev reads.imap sb.disk.imapBlocks.toNat 0 ⟨fun _ => none, s.count, 2⟩).bind fun im =>
  (fill sb.dev reads.zmap sb.disk.zmapBlocks.toNat 0 ⟨fun _ => none, im.count, im.block⟩).bind
    fun zm =>
  checkMaps s i im zm

variable (checkDiskChange : BitVec 16 → State → State)

/-- `read_super`. `NULL` is `none`. -/
def readSuper (s : State) (dev : BitVec 16) (disk : DSuper) (reads : Reads) :
    Except Stop (State × Option (Fin 8)) :=
  if dev = 0 then .ok (s, none)
  else
    let s := checkDiskChange dev s
    match getSuper s dev with
    | some i => .ok (s, some i)
    | none =>
        match (List.finRange 8).find? fun i => (s.super i).dev = 0 with
        | none => .ok (s, none)
        | some i =>
            let s := s.set i { s.super i with
              dev, isup := none, imount := none, time := 0, rdOnly := false, dirt := false
              lock := true }
            if reads.super then
              let s := s.set i { s.super i with disk }
              if disk.magic ≠ SUPER_MAGIC then .ok (fail s i) else readMaps s i reads
            else .ok (fail s i)

/-! ### What is claimed -/

/-- Nothing is left of a call that returns `NULL`. -/
structure Undone (s s' : State) : Prop where
  super : ∀ i, s'.super i = s.super i ∨
    (s.super i).dev = 0 ∧ (s'.super i).dev = 0 ∧ (s'.super i).lock = false
  count : s'.count = s.count

/-- The call returns, and a return of `NULL` leaves nothing. -/
def Survives (s : State) (dev : BitVec 16) (disk : DSuper) (reads : Reads) : Prop :=
  ∃ r, readSuper checkDiskChange s dev disk reads = .ok r ∧
    (r.2 = none → Undone (if dev = 0 then s else checkDiskChange dev s) r.1)

end LinuxKernel.V011.Fs.Super
