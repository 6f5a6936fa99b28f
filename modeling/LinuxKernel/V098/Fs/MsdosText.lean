import LinuxKernel.V098.Fs.ClusterChains

/-!
# LinuxKernel.V098.Fs.MsdosText

**Reading and writing MS-DOS files**: `msdos_file_write` and `msdos_file_read` of
`fs/msdos/file.c`, on `msdos_smap` and `get_cluster` (`fat.c`) and `msdos_add_cluster`
(`misc.c`).

- There is one file, and calls come one after another. The FAT is that of `Clusters`.
- `data` is what the buffers and the disk have together, sector by sector.
- `get_cluster` walks from the start of the file: the cache of clusters is left out.
- What `msdos_file_write` does behind an error is left out.
-/

namespace LinuxKernel.V098.Fs.MsdosText

open Clusters (Entry Ino)

abbrev Byte := BitVec 8

def SECTOR_SIZE : Nat := 512
def ENOSPC : Int := 28
def EIO : Int := 5

def CR : Byte := 13
def LF : Byte := 10
def CTRL_Z : Byte := 26

/-- What `msdos_read_super` finds besides. -/
structure Volume extends Fat.Super where
  clusterSize : Nat
  dataStart : Nat
  size_pos : 0 < clusterSize
  start_pos : 0 < dataStart

/-- The file system, the inode and the open file. -/
structure State where
  fs : Clusters.State
  ino : Ino
  binary : Bool
  size : Nat
  pos : Nat
  data : Nat → Nat → Byte

/-- How a call can end without a result: with an error, in `panic`, or never. -/
inductive Stop
  | error (e : Int)
  | panic
  | loops

variable (vol : Volume)

/-! ### `fat.c` -/

/-- `n` steps along the chain; 0 at its end. -/
def walkTo (fat : Nat → Entry) : Nat → Nat → Nat
  | 0, this => this
  | n + 1, this =>
      match fat this with
      | .eof => 0
      | .free => 0
      | .cluster c => walkTo fat n c

def getCluster (s : State) (cluster : Nat) : Nat :=
  match s.fs.start s.ino with
  | none => 0
  | some this => walkTo s.fs.fat cluster this

/-- The first sector of a cluster. -/
def sectorOf (cluster : Nat) : Nat := (cluster - 2) * vol.clusterSize + vol.dataStart

def smap (s : State) (sector : Nat) : Nat :=
  let cluster := getCluster s (sector / vol.clusterSize)
  if cluster = 0 then 0 else sectorOf vol cluster + sector % vol.clusterSize

/-! ### `misc.c` -/

/-- The walk to the last cluster, with room for `n` steps. -/
def lastCluster (fat : Nat → Entry) : Nat → Nat → Except Stop Nat
  | 0, _ => .error .loops
  | n + 1, current =>
      match fat current with
      | .free => .error .panic
      | .eof => .ok current
      | .cluster c => lastCluster fat n c

/-- The sectors of a new cluster become zero. -/
def zeroCluster (this : Nat) (data : Nat → Nat → Byte) : Nat → Nat → Byte := fun sector o =>
  if sectorOf vol this ≤ sector ∧ sector < sectorOf vol this + vol.clusterSize then 0
  else data sector o

/-- A free cluster `this` becomes the end of a chain. -/
def takeCluster (fs : Clusters.State) (this : Nat) : Clusters.State :=
  let fs := Clusters.store vol.toSuper fs this (Clusters.endMark vol.toSuper)
  { fs with
    freeClusters := if fs.freeClusters ≠ -1 then fs.freeClusters - 1 else fs.freeClusters }

/-- It is linked to the file. -/
def link (s : State) (this : Nat) : Except Stop State :=
  let fs := takeCluster vol s.fs this
  match fs.start s.ino with
  | none =>
      .ok { s with
        fs := { fs with start := Function.update fs.start s.ino (some this) }
        data := zeroCluster vol this s.data }
  | some current =>
      match lastCluster fs.fat (vol.clusters + 1) current with
      | .error e => .error e
      | .ok last =>
          .ok { s with
            fs := Clusters.store vol.toSuper fs last this
            data := zeroCluster vol this s.data }

def addCluster (s : State) : Except Stop State :=
  if s.ino = Clusters.MSDOS_ROOT_INO then .error (.error (-ENOSPC))
  else if s.fs.freeClusters = 0 then .error (.error (-ENOSPC))
  else
    match (List.range vol.clusters).find? fun count =>
        s.fs.fat (Clusters.candidate vol.toSuper s.fs count) = .free with
    | none => .error (.error (-ENOSPC))
    | some count =>
        link vol { s with fs := { s.fs with
          previous := (count + s.fs.previous + 1) % vol.clusters } }
          (Clusters.candidate vol.toSuper s.fs count)

/-! ### `msdos_file_write` -/

/-- `while (!(sector = msdos_smap(...))) msdos_add_cluster(inode)`, with room for `n` turns. -/
def mapSector : Nat → State → Except Stop (Nat × State)
  | 0, _ => .error .loops
  | n + 1, s =>
      let sector := smap vol s (s.pos / SECTOR_SIZE)
      if sector ≠ 0 then .ok (sector, s)
      else
        match addCluster vol s with
        | .error e => .error e
        | .ok s => mapSector n s

/-- The loop over the characters, with `left` bytes left in the sector: what is left of the
characters, the bytes that are stored, and `carry`. -/
def fill : List Byte → Nat → List Byte × List Byte × Bool
  | [], _ => ([], [], false)
  | c :: buf, 0 => (c :: buf, [], false)
  | c :: buf, left + 1 =>
      if c = LF then
        match left with
        | 0 => (buf, [CR], true)
        | left + 1 =>
            let r := fill buf left
            (r.1, CR :: c :: r.2.1, r.2.2)
      else
        let r := fill buf left
        (r.1, c :: r.2.1, r.2.2)

/-- `out` from offset `o` of a sector on. -/
def putBytes (d : Nat → Byte) (o : Nat) (out : List Byte) : Nat → Byte := fun k =>
  if o ≤ k then (out[k - o]?).getD (d k) else d k

/-- `out` goes to the file's position. -/
def putAt (s : State) (sector : Nat) (out : List Byte) : State :=
  let pos := s.pos + out.length
  { s with
    data := Function.update s.data sector (putBytes (s.data sector) (s.pos % SECTOR_SIZE) out)
    pos := pos
    size := if pos > s.size then pos else s.size }

/-- One sector: what is left of the characters, the bytes for it, and `carry`. -/
def convert (binary carry : Bool) (buf : List Byte) (left : Nat) : List Byte × List Byte × Bool :=
  if binary then (buf.drop left, buf.take left, false)
  else if carry then
    let r := fill buf (left - 1)
    (r.1, LF :: r.2.1, r.2.2)
  else fill buf left

/-- The loop over the sectors, with room for `n` turns. -/
def writeLoop : Nat → State → List Byte → Bool → Except Stop State
  | 0, _, _, _ => .error .loops
  | n + 1, s, buf, carry =>
      if buf = [] ∧ carry = false then .ok s
      else
        match mapSector vol (vol.clusters + 1) s with
        | .error e => .error e
        | .ok (sector, s) =>
            let r := convert s.binary carry buf (SECTOR_SIZE - s.pos % SECTOR_SIZE)
            writeLoop n (putAt s sector r.2.1) r.1 r.2.2

/-- What it returns besides the new state. -/
def fileWrite (s : State) (append : Bool) (buf : List Byte) : Except Stop (Nat × State) :=
  let s := if append then { s with pos := s.size } else s
  if buf.length = 0 then .ok (0, s)
  else
    match writeLoop vol (2 * buf.length + 1) s buf false with
    | .error e => .error e
    | .ok s => .ok (buf.length, s)

/-! ### `msdos_file_read` -/

/-- The loop over the characters: what is put at `buf`, and whether a ^Z has come. -/
def drain : List Byte → List Byte × Bool
  | [] => ([], false)
  | c :: raw =>
      if c = CR then drain raw
      else if c ≠ CTRL_Z then
        let r := drain raw
        (c :: r.1, r.2)
      else ([], true)

/-- The loop over the sectors, with room for `n` turns. -/
def readLoop : Nat → State → Nat → List Byte → Except Stop (List Byte × State)
  | 0, _, _, _ => .error .loops
  | n + 1, s, count, buf =>
      let left := min (s.size - s.pos) (count - buf.length)
      if left = 0 then .ok (buf, s)
      else
        let sector := smap vol s (s.pos / SECTOR_SIZE)
        if sector = 0 then .ok (buf, s)
        else
          let offset := s.pos % SECTOR_SIZE
          let size := min (SECTOR_SIZE - offset) left
          let raw := (List.range' offset size).map (s.data sector)
          let s := { s with pos := s.pos + size }
          if s.binary then readLoop n s count (buf ++ raw)
          else
            let r := drain raw
            if r.2 then .ok (buf ++ r.1, { s with pos := s.size })
            else readLoop n s count (buf ++ r.1)

def fileRead (s : State) (count : Nat) : Except Stop (List Byte × State) :=
  if s.pos ≥ s.size ∨ count = 0 then .ok ([], s)
  else
    match readLoop vol (s.size - s.pos + 1) s count [] with
    | .error e => .error e
    | .ok r => if r.1 = [] then .error (.error (- EIO)) else .ok r

end LinuxKernel.V098.Fs.MsdosText
