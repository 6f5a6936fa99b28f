import LinuxKernel.Lib.Index

/-!
# LinuxKernel.V011.Console

The **console** (`kernel/chr_drv/console.c`): `con_init`, and `con_write` one byte
after the other.

- `unsigned long` is a number below 2^32, and all arithmetic on it wraps.
- Video memory has a cell of two bytes at every even address; `touched` has the
  addresses of all cells read or written, for statements only.
- `respond` puts its answer into the read queue of the tty. What the echo of it
  makes `con_write` print are more bytes of the same sequence, so here it does nothing.
- The ports of the video controller and of the speaker are left out.
-/

namespace LinuxKernel.V011.Console

/-! ### The data model -/

def NPAR : Nat := 16
def ORIG_VIDEO_LINES : Nat := 25

def addL (a b : Nat) : Nat := (a + b) % 2 ^ 32
def subL (a b : Nat) : Nat := (((a : Int) - b) % 2 ^ 32).toNat
def mulL (a b : Nat) : Nat := a * b % 2 ^ 32

inductive VideoType
  | mda
  | cga
  | egam
  | egac
  deriving DecidableEq

/-- What `con_init` sets once and for all. -/
structure Video where
  type : VideoType
  numColumns : Nat
  sizeRow : Nat
  numLines : Nat
  memStart : Nat
  memEnd : Nat
  eraseChar : UInt16

/-- Video memory. -/
structure Vram where
  cell : Nat → UInt16
  touched : List Nat

/-- `state`, between two bytes. -/
inductive Esc
  /-- 0 -/
  | plain
  /-- 1, after ESC -/
  | esc
  /-- 2, after ESC [ -/
  | square
  /-- 3, in the parameters -/
  | params
  deriving DecidableEq

structure State where
  ram : Vram
  origin : Nat
  scrEnd : Nat
  pos : Nat
  x : Nat
  y : Nat
  top : Nat
  bottom : Nat
  state : Esc
  npar : Nat
  par : Nat → Nat
  ques : Bool
  attr : UInt8
  savedX : Nat
  savedY : Nat

/-- What the setup code leaves at 0x90000. -/
structure Boot where
  origX : UInt8
  origY : UInt8
  videoMode : UInt8
  videoCols : UInt8
  /-- The low byte of `ORIG_VIDEO_EGA_BX`. -/
  egaBx : UInt8

/-! ### String instructions -/

namespace Vram

def read (r : Vram) (a : Nat) : Vram := { r with touched := a :: r.touched }

def write (r : Vram) (a : Nat) (w : UInt16) : Vram :=
  { cell := Function.update r.cell a w, touched := a :: r.touched }

/-- `movsl`, once. -/
def movsl (r : Vram) (edi esi : Nat) : Vram :=
  let lo := r.cell esi
  let hi := r.cell (addL esi 2)
  (((r.read esi).read (addL esi 2)).write edi lo).write (addL edi 2) hi

/-- `cld; rep; movsl`, with the `edi` it leaves. -/
def repMovsl (r : Vram) : (ecx edi esi : Nat) → Nat × Vram
  | 0, edi, _ => (edi, r)
  | ecx + 1, edi, esi => (r.movsl edi esi).repMovsl ecx (addL edi 4) (addL esi 4)

/-- `std; rep; movsl`. -/
def repMovslDown (r : Vram) : (ecx edi esi : Nat) → Nat × Vram
  | 0, edi, _ => (edi, r)
  | ecx + 1, edi, esi => (r.movsl edi esi).repMovslDown ecx (subL edi 4) (subL esi 4)

/-- `cld; rep; stosw`. -/
def repStosw (r : Vram) (ax : UInt16) : (ecx edi : Nat) → Vram
  | 0, _ => r
  | ecx + 1, edi => (r.write edi ax).repStosw ax ecx (addL edi 2)

/-- `std; rep; stosw`. -/
def repStoswDown (r : Vram) (ax : UInt16) : (ecx edi : Nat) → Vram
  | 0, _ => r
  | ecx + 1, edi => (r.write edi ax).repStoswDown ax ecx (subL edi 2)

end Vram

/-! ### Moving the cursor and the lines -/

section Code

variable (v : Video) (s : State)

def gotoxy (newX newY : Nat) : State :=
  if newX > v.numColumns ∨ newY ≥ v.numLines then s
  else
    { s with
      x := newX
      y := newY
      pos := addL (addL s.origin (mulL newY v.sizeRow)) (mulL newX 2) }

def Video.isEga : Bool := v.type = .egac ∨ v.type = .egam

/-- The lines from `top` to `bottom` go up. -/
def moveUp : State :=
  let moved := s.ram.repMovsl (mulL (subL (subL s.bottom s.top) 1) v.numColumns / 2)
    (addL s.origin (mulL v.sizeRow s.top)) (addL s.origin (mulL v.sizeRow (addL s.top 1)))
  { s with ram := moved.2.repStosw v.eraseChar v.numColumns moved.1 }

/-- The whole screen goes up: the next line of video memory comes into view, or the screen
goes back to the start of it. -/
def moveOrigin : State :=
  let origin := addL s.origin v.sizeRow
  let pos := addL s.pos v.sizeRow
  let scrEnd := addL s.scrEnd v.sizeRow
  if scrEnd > v.memEnd then
    let moved := s.ram.repMovsl (mulL (subL v.numLines 1) v.numColumns / 2) v.memStart origin
    { s with
      ram := moved.2.repStosw v.eraseChar v.numColumns moved.1
      scrEnd := subL scrEnd (subL origin v.memStart)
      pos := subL pos (subL origin v.memStart)
      origin := v.memStart }
  else
    { s with
      ram := s.ram.repStosw v.eraseChar v.numColumns (subL scrEnd v.sizeRow)
      scrEnd := scrEnd
      pos := pos
      origin := origin }

def scrup : State :=
  if v.isEga then
    if s.top = 0 ∧ s.bottom = v.numLines then moveOrigin v s else moveUp v s
  else moveUp v s

def scrdown : State :=
  let moved := s.ram.repMovslDown (mulL (subL (subL s.bottom s.top) 1) v.numColumns / 2)
    (subL (addL s.origin (mulL v.sizeRow s.bottom)) 4)
    (subL (addL s.origin (mulL v.sizeRow (subL s.bottom 1))) 4)
  { s with ram := moved.2.repStoswDown v.eraseChar v.numColumns (addL moved.1 2) }

def lf : State :=
  if addL s.y 1 < s.bottom then { s with y := addL s.y 1, pos := addL s.pos v.sizeRow }
  else scrup v s

def ri : State :=
  if s.y > s.top then { s with y := subL s.y 1, pos := subL s.pos v.sizeRow }
  else scrdown v s

def cr : State := { s with pos := subL s.pos (mulL s.x 2), x := 0 }

def del : State :=
  if s.x ≠ 0 then
    { s with
      pos := subL s.pos 2
      x := subL s.x 1
      ram := s.ram.write (subL s.pos 2) v.eraseChar }
  else s

/-! ### Erasing, inserting and deleting -/

def csi_J (par : Nat) : State :=
  match par with
  | 0 => { s with ram := s.ram.repStosw v.eraseChar (subL s.scrEnd s.pos / 2) s.pos }
  | 1 => { s with ram := s.ram.repStosw v.eraseChar (subL s.pos s.origin / 2) s.origin }
  | 2 => { s with ram := s.ram.repStosw v.eraseChar (mulL v.numColumns v.numLines) s.origin }
  | _ => s

def csi_K (par : Nat) : State :=
  match par with
  | 0 =>
      if s.x ≥ v.numColumns then s
      else { s with ram := s.ram.repStosw v.eraseChar (subL v.numColumns s.x) s.pos }
  | 1 =>
      let count := if s.x < v.numColumns then s.x else v.numColumns
      { s with ram := s.ram.repStosw v.eraseChar count (subL s.pos (mulL s.x 2)) }
  | 2 => { s with ram := s.ram.repStosw v.eraseChar v.numColumns (subL s.pos (mulL s.x 2)) }
  | _ => s

/-- One parameter of `csi_m`. -/
def setAttr (attr : UInt8) : (par : Nat) → UInt8
  | 0 => 0x07
  | 1 => 0x0f
  | 4 => 0x0f
  | 7 => 0x70
  | 27 => 0x07
  | _ => attr

def csi_m : State :=
  { s with attr := ((List.range (s.npar + 1)).map s.par).foldl setAttr s.attr }

/-- The loop of `insert_char`, for the cells left in the line. -/
def insertLoop (r : Vram) (p : Nat) (old : UInt16) : Nat → Vram
  | 0 => r
  | n + 1 => insertLoop ((r.read p).write p old) (addL p 2) (r.cell p) n

def insertChar : State :=
  { s with ram := insertLoop s.ram s.pos v.eraseChar (v.numColumns - s.x) }

/-- The loop of `delete_char`, with the `p` it leaves. -/
def deleteLoop (r : Vram) (p : Nat) : Nat → Nat × Vram
  | 0 => (p, r)
  | n + 1 => deleteLoop ((r.read (addL p 2)).write p (r.cell (addL p 2))) (addL p 2) n

def deleteChar : State :=
  if s.x ≥ v.numColumns then s
  else
    let moved := deleteLoop s.ram s.pos (v.numColumns - (s.x + 1))
    { s with ram := moved.2.write moved.1 v.eraseChar }

def insertLine : State :=
  { scrdown v { s with top := s.y, bottom := v.numLines } with top := s.top, bottom := s.bottom }

def deleteLine : State :=
  { scrup v { s with top := s.y, bottom := v.numLines } with top := s.top, bottom := s.bottom }

/-- How often a control function is done. -/
def times (nr max : Nat) : Nat := if nr > max then max else if nr = 0 then 1 else nr

def csi_at (nr : Nat) : State := (insertChar v)^[times nr v.numColumns] s

def csi_L (nr : Nat) : State := (insertLine v)^[times nr v.numLines] s

def csi_P (nr : Nat) : State := (deleteChar v)^[times nr v.numColumns] s

def csi_M (nr : Nat) : State := (deleteLine v)^[times nr v.numLines] s

def saveCur : State := { s with savedX := s.x, savedY := s.y }

def restoreCur : State := gotoxy v s s.savedX s.savedY

/-! ### `con_write` -/

/-- `if (par[i]) par[i]--`. -/
def parDown (i : Nat) : State :=
  if s.par i ≠ 0 then { s with par := Function.update s.par i (subL (s.par i) 1) } else s

/-- `if (!par[0]) par[0]++`. -/
def parUp : State :=
  if s.par 0 = 0 then { s with par := Function.update s.par 0 1 } else s

/-- `if (!par[1]) par[1] = video_num_lines`. -/
def parLines : State :=
  if s.par 1 = 0 then { s with par := Function.update s.par 1 v.numLines } else s

/-- `ESC [ r` sets the lines that scroll. -/
def csi_r : State :=
  let s := parLines v (parDown s 0)
  if s.par 0 < s.par 1 ∧ s.par 1 ≤ v.numLines then { s with top := s.par 0, bottom := s.par 1 }
  else s

def ch (c : Char) : UInt8 := c.toNat.toUInt8

/-- State 4: the byte that ends a sequence. -/
def csi (c : UInt8) : State :=
  let s := { s with state := .plain }
  let up := parUp s
  let down := parDown s 0
  if c = ch 'G' ∨ c = 96 then gotoxy v down (down.par 0) s.y
  else if c = ch 'A' then gotoxy v up s.x (subL s.y (up.par 0))
  else if c = ch 'B' ∨ c = ch 'e' then gotoxy v up s.x (addL s.y (up.par 0))
  else if c = ch 'C' ∨ c = ch 'a' then gotoxy v up (addL s.x (up.par 0)) s.y
  else if c = ch 'D' then gotoxy v up (subL s.x (up.par 0)) s.y
  else if c = ch 'E' then gotoxy v up 0 (addL s.y (up.par 0))
  else if c = ch 'F' then gotoxy v up 0 (subL s.y (up.par 0))
  else if c = ch 'd' then gotoxy v down s.x (down.par 0)
  else if c = ch 'H' ∨ c = ch 'f' then
    let down := parDown down 1
    gotoxy v down (down.par 1) (down.par 0)
  else if c = ch 'J' then csi_J v s (s.par 0)
  else if c = ch 'K' then csi_K v s (s.par 0)
  else if c = ch 'L' then csi_L v s (s.par 0)
  else if c = ch 'M' then csi_M v s (s.par 0)
  else if c = ch 'P' then csi_P v s (s.par 0)
  else if c = ch '@' then csi_at v s (s.par 0)
  else if c = ch 'm' then csi_m s
  else if c = ch 'r' then csi_r v s
  else if c = ch 's' then saveCur s
  else if c = ch 'u' then restoreCur v s
  else s

/-- State 3. -/
def csiPar (c : UInt8) : State :=
  if c = ch ';' ∧ s.npar < NPAR - 1 then { s with state := .params, npar := s.npar + 1 }
  else if c ≥ ch '0' ∧ c ≤ ch '9' then
    { s with
      state := .params
      par := Function.update s.par s.npar
        (addL (mulL 10 (s.par s.npar)) (c - ch '0').toNat) }
  else csi v s c

/-- State 2. -/
def csiStart (c : UInt8) : State :=
  let s := { s with npar := 0, par := fun _ => 0, state := .params, ques := c = ch '?' }
  if c = ch '?' then s else csiPar v s c

/-- State 1. The last two tests are of `x`, not of the byte. -/
def escByte (c : UInt8) : State :=
  let s := { s with state := .plain }
  if c = ch '[' then { s with state := .square }
  else if c = ch 'E' then gotoxy v s 0 (addL s.y 1)
  else if c = ch 'M' then ri v s
  else if c = ch 'D' then lf v s
  else if c = ch 'Z' then s
  else if s.x = 55 then saveCur s
  else if s.x = 56 then restoreCur v s
  else s

/-- On from the end of a line to the next one. -/
def wrapLine : State :=
  lf v { s with x := subL s.x v.numColumns, pos := subL s.pos v.sizeRow }

def printByte (c : UInt8) : State :=
  let s := if s.x ≥ v.numColumns then wrapLine v s else s
  { s with
    ram := s.ram.write s.pos (s.attr.toUInt16 <<< 8 ||| c.toUInt16)
    pos := addL s.pos 2
    x := addL s.x 1 }

def tab : State :=
  let c := 8 - s.x % 8
  let s := { s with x := addL s.x c, pos := addL s.pos (2 * c) }
  if s.x > v.numColumns then wrapLine v s else s

/-- State 0. -/
def plainByte (eraseKey c : UInt8) : State :=
  if c > 31 ∧ c < 127 then printByte v s c
  else if c = 27 then { s with state := .esc }
  else if c = 10 ∨ c = 11 ∨ c = 12 then lf v s
  else if c = 13 then cr s
  -- `c` is a signed `char`, `ERASE_CHAR` an unsigned one
  else if c = eraseKey ∧ c < 128 then del v s
  else if c = 8 then
    if s.x ≠ 0 then { s with x := subL s.x 1, pos := subL s.pos 2 } else s
  else if c = 9 then tab v s
  else s

/-- One round of the loop of `con_write`. -/
def conByte (eraseKey c : UInt8) : State :=
  match s.state with
  | .plain => plainByte v s eraseKey c
  | .esc => escByte v s c
  | .square => csiStart v s c
  | .params => csiPar v s c

end Code

/-- `con_write`, over any number of calls: each byte with the `ERASE_CHAR` of its time. -/
def conWrite (v : Video) (s : State) : List (UInt8 × UInt8) → State
  | [] => s
  | (eraseKey, c) :: bytes => conWrite v (conByte v s eraseKey c) bytes

/-! ### `con_init` -/

def Boot.video (b : Boot) : Video where
  type :=
    if b.videoMode = 7 then if b.egaBx ≠ 0x10 then .egam else .mda
    else if b.egaBx ≠ 0x10 then .egac else .cga
  numColumns := b.videoCols.toNat
  sizeRow := b.videoCols.toNat * 2
  numLines := ORIG_VIDEO_LINES
  memStart := if b.videoMode = 7 then 0xb0000 else 0xb8000
  memEnd :=
    if b.videoMode = 7 then if b.egaBx ≠ 0x10 then 0xb8000 else 0xb2000
    else if b.egaBx ≠ 0x10 then 0xbc000 else 0xba000
  eraseChar := 0x0720

def VideoType.desc : VideoType → List Char
  | .mda => ['*', 'M', 'D', 'A']
  | .cga => ['*', 'C', 'G', 'A']
  | .egam => ['E', 'G', 'A', 'm']
  | .egac => ['E', 'G', 'A', 'c']

/-- The name of the display goes into the low bytes of the cells. -/
def showDesc (cell : Nat → UInt16) (p : Nat) : List Char → Nat → UInt16
  | [] => cell
  | c :: cs => showDesc (Function.update cell p (cell p &&& 0xff00 ||| c.toNat.toUInt16)) (p + 2) cs

/-- `con_init` before it sets the cursor. The statics are all zero but `attr`. -/
def Boot.blank (b : Boot) (cell : Nat → UInt16) : State where
  ram := ⟨showDesc cell (subL (addL b.video.memStart b.video.sizeRow) 8) b.video.type.desc, []⟩
  origin := b.video.memStart
  scrEnd := addL b.video.memStart (mulL b.video.numLines b.video.sizeRow)
  pos := 0
  x := 0
  y := 0
  top := 0
  bottom := b.video.numLines
  state := .plain
  npar := 0
  par := fun _ => 0
  ques := false
  attr := 0x07
  savedX := 0
  savedY := 0

def conInit (b : Boot) (cell : Nat → UInt16) : State :=
  gotoxy b.video (b.blank cell) b.origX.toNat b.origY.toNat

end LinuxKernel.V011.Console
