import LinuxKernel.Lib.System
import LinuxKernel.Lib.Queues

/-!
# LinuxKernel.V011.Fs.Buffer

The **buffer cache** of `fs/buffer.c` and the requests of `ll_rw_blk.c`: the
operations that run without a sleep.

* `Cache n` has the `n` buffer heads, a function for each field of
  `struct buffer_head`. A pointer to one is its number, `none` is `NULL`.
* A device number is an `unsigned short`, as everywhere it is stored. A block
  number is 32 bits wide: `int` in the calls, `unsigned long` in the head.
* `b_count` is an `unsigned char`.
* `insert_into_queues` also stores through the `b_next` it has just read, which
  is `NULL` for an empty hash queue. That store hits no buffer head.
* `b_wait` and the other wait queues are left out: a sleeper may go on at any
  time, and tests again what it waited for. So is the order in which a driver
  serves its requests.
-/

namespace LinuxKernel.V011.Fs

abbrev Dev := BitVec 16
abbrev BlockNr := BitVec 32
abbrev Byte := BitVec 8

/-- The contents of a block, `BLOCK_SIZE` bytes. -/
abbrev Block := Nat → Byte

def BLOCK_SIZE : Nat := 1024
def NR_HASH : Nat := 307
def NR_REQUEST : Nat := 32
def NR_BLK_DEV : Nat := 7

/-- The commands of `ll_rw_block`. -/
inductive Rw
  | READ
  | WRITE
  | READA
  | WRITEA
  deriving DecidableEq, Repr

variable {n : Nat}

/-- `struct request`: what has been asked of a driver. -/
structure Request (n : Nat) where
  dev : Dev
  cmd : Rw
  sector : BlockNr
  bh : Fin n

structure Cache (n : Nat) where
  data : Fin n → Block
  blocknr : Fin n → BlockNr
  dev : Fin n → Dev
  uptodate : Fin n → Bool
  dirt : Fin n → Bool
  count : Fin n → Nat
  lock : Fin n → Bool
  prev : Fin n → Option (Fin n)
  next : Fin n → Option (Fin n)
  prevFree : Fin n → Option (Fin n)
  nextFree : Fin n → Option (Fin n)
  hashTable : Nat → Option (Fin n)
  freeList : Option (Fin n)
  request : Nat → Option (Request n)
  disk : Dev → BlockNr → Block

/-- `_hashfn`. -/
def hashfn (dev : Dev) (block : BlockNr) : Nat := (dev.zeroExtend 32 ^^^ block).toNat % NR_HASH

/-- `MAJOR`. -/
def MAJOR (dev : Dev) : Nat := dev.toNat / 256

namespace Cache

/-! ### Counts and flags -/

/-- `b_count++`. -/
def incCount (c : Cache n) (b : Fin n) : Cache n :=
  { c with count := Function.update c.count b ((c.count b + 1) % 256) }

/-- `b_count--`. -/
def decCount (c : Cache n) (b : Fin n) : Cache n :=
  { c with count := Function.update c.count b ((c.count b + 255) % 256) }

/-- `b_lock = v`. -/
def setLock (c : Cache n) (b : Fin n) (v : Bool) : Cache n :=
  { c with lock := Function.update c.lock b v }

/-- `BADNESS`. -/
def badness (c : Cache n) (b : Fin n) : Nat := (c.dirt b).toNat * 2 + (c.lock b).toNat

/-! ### Hash queues and free list -/

/-- `find_buffer`. `none`: the queue has more than `n` elements, so the loop
does not end. -/
def findBuffer (c : Cache n) (dev : Dev) (block : BlockNr) : Option (Option (Fin n)) :=
  walk c.next (fun b => c.dev b = dev ∧ c.blocknr b = block) n (c.hashTable (hashfn dev block))

/-- The half of `remove_from_queues` about the hash queue. -/
def unhash (c : Cache n) (b : Fin n) : Cache n :=
  let c := { c with prev := storeAt c.prev (c.next b) (c.prev b) }
  let c := { c with next := storeAt c.next (c.prev b) (c.next b) }
  let h := hashfn (c.dev b) (c.blocknr b)
  { c with hashTable :=
      if c.hashTable h = some b then Function.update c.hashTable h (c.next b) else c.hashTable }

/-- `remove_from_queues`. -/
def removeFromQueues (c : Cache n) (b : Fin n) : Outcome (Cache n) :=
  let c := c.unhash b
  if (c.prevFree b).isNone ∨ (c.nextFree b).isNone then .panic "Free block list corrupted"
  else
    let c := { c with nextFree := storeAt c.nextFree (c.prevFree b) (c.nextFree b) }
    let c := { c with prevFree := storeAt c.prevFree (c.nextFree b) (c.prevFree b) }
    .next { c with freeList := if c.freeList = some b then c.nextFree b else c.freeList }

/-- The half of `insert_into_queues` about the hash queue. -/
def rehash (c : Cache n) (b : Fin n) : Cache n :=
  let c := { c with prev := Function.update c.prev b none, next := Function.update c.next b none }
  if c.dev b = 0 then c
  else
    let h := hashfn (c.dev b) (c.blocknr b)
    let c := { c with next := Function.update c.next b (c.hashTable h) }
    let c := { c with hashTable := Function.update c.hashTable h (some b) }
    { c with prev := storeAt c.prev (c.next b) (some b) }

/-- `insert_into_queues`: at the end of the free list, and in the hash queue if
the buffer has a device. -/
def insertIntoQueues (c : Cache n) (b : Fin n) : Outcome (Cache n) :=
  match c.freeList with
  | none => .panic "NULL pointer"
  | some f =>
      if (c.prevFree f).isNone then .panic "NULL pointer"
      else
        let c := { c with nextFree := Function.update c.nextFree b (some f) }
        let c := { c with prevFree := Function.update c.prevFree b (c.prevFree f) }
        let c := { c with nextFree := storeAt c.nextFree (c.prevFree f) (some b) }
        let c := { c with prevFree := Function.update c.prevFree f (some b) }
        .next (c.rehash b)

/-- The end of `getblk`: the buffer is taken for another block. -/
def assign (c : Cache n) (b : Fin n) (dev : Dev) (block : BlockNr) : Outcome (Cache n) :=
  let c := { c with
    count := Function.update c.count b 1
    dirt := Function.update c.dirt b false
    uptodate := Function.update c.uptodate b false }
  (c.removeFromQueues b).bind fun c =>
    let c := { c with
      dev := Function.update c.dev b dev
      blocknr := Function.update c.blocknr b block }
    c.insertIntoQueues b

/-! ### Requests -/

/-- `while (--req >= request)`: the last empty request below `k`. -/
def emptyRequest (c : Cache n) : Nat → Option Nat
  | 0 => none
  | k + 1 => if (c.request k).isNone then some k else emptyRequest c k

/-- Where `make_request` starts to look: the last third is for reads. -/
def requestLimit : Rw → Nat
  | .READ => NR_REQUEST
  | _ => NR_REQUEST * 2 / 3

/-- Fill up request `k`, and `add_request`. -/
def addRequest (c : Cache n) (k : Nat) (rw : Rw) (b : Fin n) : Cache n :=
  { c with
    request := Function.update c.request k
      (some { dev := c.dev b, cmd := rw, sector := c.blocknr b <<< 1, bh := b })
    dirt := Function.update c.dirt b false }

/-- The store into the disk at block `sector / 2`. -/
def diskWrite (disk : Dev → BlockNr → Block) (dev : Dev) (sector : BlockNr) (v : Block) :
    Dev → BlockNr → Block :=
  Function.update disk dev (Function.update (disk dev) (sector >>> 1) v)

/-- What a driver does for a request: a read fills the buffer, a write changes
the disk. -/
def transfer (c : Cache n) (r : Request n) : Cache n :=
  match r.cmd with
  | .READ => { c with data := Function.update c.data r.bh (c.disk r.dev (r.sector >>> 1)) }
  | _ => { c with disk := diskWrite c.disk r.dev r.sector (c.data r.bh) }

/-- The driver is done with request `k`, and calls `end_request`. -/
def endRequest (c : Cache n) (k : Nat) (uptodate : Bool) : Option (Cache n) :=
  match c.request k with
  | none => none
  | some r =>
      let c := if uptodate then c.transfer r else c
      some { c with
        uptodate := Function.update c.uptodate r.bh uptodate
        lock := Function.update c.lock r.bh false
        request := Function.update c.request k none }

end Cache

/-- `buffer_init` with memory for `n` buffers. -/
def bufferInit (n : Nat) (disk : Dev → BlockNr → Block) (data : Fin n → Block) : Cache n where
  data := data
  blocknr _ := 0
  dev _ := 0
  uptodate _ := false
  dirt _ := false
  count _ := 0
  lock _ := false
  prev _ := none
  next _ := none
  prevFree b := if h : 0 < b.val then some ⟨b.val - 1, by omega⟩ else some ⟨n - 1, by omega⟩
  nextFree b := if h : b.val + 1 < n then some ⟨b.val + 1, h⟩ else some ⟨0, by omega⟩
  hashTable _ := none
  freeList := if h : 0 < n then some ⟨0, h⟩ else none
  request _ := none
  disk := disk

end LinuxKernel.V011.Fs
