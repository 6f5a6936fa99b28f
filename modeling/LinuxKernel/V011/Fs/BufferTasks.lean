import LinuxKernel.Lib.Threads
import LinuxKernel.V011.Fs.Buffer

/-!
# LinuxKernel.V011.Fs.BufferTasks

**Tasks in the buffer cache**: `get_hash_table`, `getblk`, `bread`, `breada`,
`brelse`, `sync_dev` and `ll_rw_block`, with every point where they may sleep.

* A frame is a place in one of these functions. `wait_on_buffer` and
  `lock_buffer` are `inline` in the source and part of the frame here: the
  frame sleeps while the buffer is locked and tests again when it goes on.
* Within one round nothing else runs. An interrupt there could only finish a
  request, and no round tests what that changes after it acted on it.
* `sync_inodes` writes inodes back through `bread` and `brelse`. Which ones are
  dirty, and what it waits for, is not part of this model: it may end, sleep
  or write any block.
* A task that has got a buffer may change it in its own code (`modify`).
-/

namespace LinuxKernel.V011.Fs

/-- What the model leaves open: how `sync_inodes` goes on. -/
inductive Choice
  | next
  | sleep
  | inode (dev : Dev) (block : BlockNr) (data : Block)

inductive Frame (n : Nat)
  | getHashTable (dev : Dev) (block : BlockNr)
  | hashFound (dev : Dev) (block : BlockNr) (bh : Fin n)
  | getblk (dev : Dev) (block : BlockNr)
  | getblkHash (dev : Dev) (block : BlockNr)
  | getblkHashed (dev : Dev) (block : BlockNr) (bh : Option (Fin n))
  | getblkScan (dev : Dev) (block : BlockNr) (tmp : Fin n) (bh : Option (Fin n))
  | getblkChosen (dev : Dev) (block : BlockNr) (bh : Option (Fin n))
  | getblkWait (dev : Dev) (block : BlockNr) (bh : Fin n)
  | syncDev (dev : Dev) (again : Bool) (i : Nat)
  | syncWait (dev : Dev) (again : Bool) (bh : Fin n)
  | syncInodes
  | writeInode (data : Block)
  | writeInodeRead (data : Block) (bh : Option (Fin n))
  | brelse (buf : Option (Fin n))
  | bread (dev : Dev) (block : BlockNr)
  | breadGet
  | breadGot (bh : Option (Fin n))
  | breadWait (bh : Fin n)
  | breadFail
  | breada (dev : Dev) (first : BlockNr) (rest : List BlockNr)
  | breadaGet (dev : Dev) (rest : List BlockNr)
  | breadaGot (dev : Dev) (rest : List BlockNr) (bh : Option (Fin n))
  | breadaAhead (dev : Dev) (rest : List BlockNr) (bh : Fin n)
  | breadaNext (dev : Dev) (rest : List BlockNr) (bh : Fin n)
  | breadaTmp (dev : Dev) (rest : List BlockNr) (bh : Fin n) (tmp : Option (Fin n))
  | breadaDec (dev : Dev) (rest : List BlockNr) (bh tmp : Fin n)
  | llRwBlock (rw : Rw) (bh : Fin n)
  | makeRequest (rw : Rw) (bh : Fin n)
  | lockBuffer (rw : Rw) (ahead : Bool) (bh : Fin n)
  | requestSlot (rw : Rw) (ahead : Bool) (bh : Fin n)
  | modify (bh : Fin n) (data : Block)

variable {n : Nat}

/-- The result of a round, with buffers as values. -/
abbrev Result (n : Nat) := Threads.Next (Cache n) (Frame n) (Option (Fin n))

/-- The end of `do ... while ((tmp = tmp->b_next_free) != free_list)`. -/
def scanNext (c : Cache n) (dev : Dev) (block : BlockNr) (tmp : Fin n) (bh : Option (Fin n)) :
    Result n :=
  match c.nextFree tmp with
  | none => .panic "NULL pointer"
  | some x =>
      if some x = c.freeList then .goto c (.getblkChosen dev block bh)
      else .goto c (.getblkScan dev block x bh)

/-- One round of the loop of `getblk` over the free list. -/
def scan (c : Cache n) (dev : Dev) (block : BlockNr) (tmp : Fin n) (bh : Option (Fin n)) :
    Result n :=
  if c.count tmp ≠ 0 then scanNext c dev block tmp bh
  else if bh.all fun b => c.badness tmp < c.badness b then
    if c.badness tmp = 0 then .goto c (.getblkChosen dev block (some tmp))
    else scanNext c dev block tmp (some tmp)
  else scanNext c dev block tmp bh

/-- One round of a frame. `requestFn major`: the device has a driver. A frame
that waits for a value does nothing by itself. -/
def exec (requestFn : Nat → Bool) (c : Cache n) : Frame n → Choice → Result n
  | .getHashTable dev block, _ =>
      match c.findBuffer dev block with
      | none => .disabled
      | some none => .ret c none
      | some (some bh) => .goto (c.incCount bh) (.hashFound dev block bh)
  | .hashFound dev block bh, _ =>
      if c.lock bh then .sleep c (.hashFound dev block bh)
      else if c.dev bh = dev ∧ c.blocknr bh = block then .ret c (some bh)
      else .goto (c.decCount bh) (.getHashTable dev block)
  | .getblk dev block, _ => .call c (.getHashTable dev block) (.getblkHash dev block)
  | .getblkHashed _ _ (some bh), _ => .ret c (some bh)
  | .getblkHashed dev block none, _ =>
      match c.freeList with
      | none => .panic "NULL pointer"
      | some tmp => .goto c (.getblkScan dev block tmp none)
  | .getblkScan dev block tmp bh, _ => scan c dev block tmp bh
  | .getblkChosen dev block none, _ => .sleep c (.getblk dev block)
  | .getblkChosen dev block (some bh), _ => .goto c (.getblkWait dev block bh)
  | .getblkWait dev block bh, _ =>
      if c.lock bh then .sleep c (.getblkWait dev block bh)
      else if c.count bh ≠ 0 then .goto c (.getblk dev block)
      else if c.dirt bh then .call c (.syncDev (c.dev bh) false 0) (.getblkWait dev block bh)
      else
        match c.findBuffer dev block with
        | none => .disabled
        | some (some _) => .goto c (.getblk dev block)
        | some none =>
            match c.assign bh dev block with
            | .next c => .ret c (some bh)
            | .panic msg => .panic msg
            | .disabled => .disabled
  | .syncDev dev again i, _ =>
      if h : i < n then
        if c.dev ⟨i, h⟩ ≠ dev then .goto c (.syncDev dev again (i + 1))
        else .goto c (.syncWait dev again ⟨i, h⟩)
      else if again then .ret c none
      else .call c .syncInodes (.syncDev dev true 0)
  | .syncWait dev again bh, _ =>
      if c.lock bh then .sleep c (.syncWait dev again bh)
      else if c.dev bh = dev ∧ c.dirt bh then
        .call c (.llRwBlock .WRITE bh) (.syncDev dev again (bh + 1))
      else .goto c (.syncDev dev again (bh + 1))
  | .syncInodes, .next => .ret c none
  | .syncInodes, .sleep => .sleep c .syncInodes
  | .syncInodes, .inode dev block data => .call c (.bread dev block) (.writeInode data)
  | .writeInodeRead _ none, _ => .panic "unable to read i-node block"
  | .writeInodeRead data (some bh), _ =>
      .call { c with
        data := Function.update c.data bh data
        dirt := Function.update c.dirt bh true } (.brelse (some bh)) .syncInodes
  | .brelse none, _ => .ret c none
  | .brelse (some buf), _ =>
      if c.lock buf then .sleep c (.brelse (some buf))
      else if c.count buf = 0 then .panic "Trying to free free buffer"
      else .ret (c.decCount buf) none
  | .bread dev block, _ => .call c (.getblk dev block) .breadGet
  | .breadGot none, _ => .panic "bread: getblk returned NULL"
  | .breadGot (some bh), _ =>
      if c.uptodate bh then .ret c (some bh) else .call c (.llRwBlock .READ bh) (.breadWait bh)
  | .breadWait bh, _ =>
      if c.lock bh then .sleep c (.breadWait bh)
      else if c.uptodate bh then .ret c (some bh)
      else .call c (.brelse (some bh)) .breadFail
  | .breadFail, _ => .ret c none
  | .breada dev first rest, _ => .call c (.getblk dev first) (.breadaGet dev rest)
  | .breadaGot _ _ none, _ => .panic "bread: getblk returned NULL"
  | .breadaGot dev rest (some bh), _ =>
      if c.uptodate bh then .goto c (.breadaAhead dev rest bh)
      else .call c (.llRwBlock .READ bh) (.breadaAhead dev rest bh)
  | .breadaAhead _ [] bh, _ => .goto c (.breadWait bh)
  | .breadaAhead dev (block :: rest) bh, _ =>
      .call c (.getblk dev block) (.breadaNext dev rest bh)
  | .breadaTmp dev rest bh none, _ => .goto c (.breadaAhead dev rest bh)
  | .breadaTmp dev rest bh (some tmp), _ =>
      if c.uptodate tmp then .goto c (.breadaDec dev rest bh tmp)
      -- the source asks for `bh` again, not for `tmp`
      else .call c (.llRwBlock .READA bh) (.breadaDec dev rest bh tmp)
  | .breadaDec dev rest bh tmp, _ => .goto (c.decCount tmp) (.breadaAhead dev rest bh)
  | .llRwBlock rw bh, _ =>
      if NR_BLK_DEV ≤ MAJOR (c.dev bh) ∨ requestFn (MAJOR (c.dev bh)) = false then .ret c none
      else .goto c (.makeRequest rw bh)
  | .makeRequest rw bh, _ =>
      match rw with
      | .READA => if c.lock bh then .ret c none else .goto c (.lockBuffer .READ true bh)
      | .WRITEA => if c.lock bh then .ret c none else .goto c (.lockBuffer .WRITE true bh)
      | rw => .goto c (.lockBuffer rw false bh)
  | .lockBuffer rw ahead bh, _ =>
      if c.lock bh then .sleep c (.lockBuffer rw ahead bh)
      else
        let c := c.setLock bh true
        if rw = .WRITE ∧ c.dirt bh = false ∨ rw = .READ ∧ c.uptodate bh then
          .ret (c.setLock bh false) none
        else .goto c (.requestSlot rw ahead bh)
  | .requestSlot rw ahead bh, _ =>
      match c.emptyRequest (Cache.requestLimit rw) with
      | some k => .ret (c.addRequest k rw bh) none
      | none =>
          if ahead then .ret (c.setLock bh false) none
          else .sleep c (.requestSlot rw ahead bh)
  | .modify bh data, _ =>
      .ret { c with
        data := Function.update c.data bh data
        dirt := Function.update c.dirt bh true } none
  | .getblkHash .., _ | .writeInode .., _ | .breadGet, _ | .breadaGet .., _ | .breadaNext .., _ =>
      .disabled

/-- A frame that waits for a buffer takes it; the others wait for the end of a call. -/
def deliver : Frame n → Option (Fin n) → Frame n
  | .getblkHash dev block, bh => .getblkHashed dev block bh
  | .writeInode data, bh => .writeInodeRead data bh
  | .breadGet, bh => .breadGot bh
  | .breadaGet dev rest, bh => .breadaGot dev rest bh
  | .breadaNext dev rest bh, tmp => .breadaTmp dev rest bh tmp
  | f, _ => f

/-- What a task may call, or do with a buffer. -/
def entry : Frame n → Bool
  | .getHashTable .. | .getblk .. | .bread .. | .breada .. | .brelse .. | .syncDev _ false 0
  | .llRwBlock .. | .modify .. => true
  | _ => false

/-- The buffer cache as a program. An interrupt finishes a request. -/
def program (requestFn : Nat → Bool) :
    Threads.Program (Cache n) (Frame n) (Option (Fin n)) Choice (Nat × Bool) where
  exec := exec requestFn
  deliver := deliver
  interrupt c i := c.endRequest i.1 i.2
  entry := entry

abbrev State (n : Nat) := Threads.State (Cache n) (Frame n)
abbrev Act (n : Nat) := Threads.Act (Frame n) Choice (Nat × Bool)

/-- `getblk(dev, block)` is the function on top. -/
def Frame.getblkOf : Frame n → Option (Dev × BlockNr)
  | .getblk dev block | .getblkHash dev block | .getblkHashed dev block _
  | .getblkScan dev block _ _ | .getblkChosen dev block _ | .getblkWait dev block _ =>
      some (dev, block)
  | _ => none

/-- `get_hash_table(dev, block)` is the function on top. -/
def Frame.hashOf : Frame n → Option (Dev × BlockNr)
  | .getHashTable dev block | .hashFound dev block _ => some (dev, block)
  | _ => none

end LinuxKernel.V011.Fs
