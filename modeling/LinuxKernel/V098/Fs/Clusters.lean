import Mathlib.Order.Interval.Finset.Nat
import LinuxKernel.Lib.Chain
import LinuxKernel.V098.Fs.Fat

/-!
# LinuxKernel.V098.Fs.Clusters

`msdos_add_cluster` of `fs/msdos/misc.c` and `fat_free` of `fs/msdos/fat.c`: the **chains of
clusters**, with any number of tasks in the two functions at once.

- A call of `fat_access` is one step that reads or replaces one entry. Another task can run
  before it, and after one that replaces (at `msdos_sread` for the copies).
- `i_blocks`, `i_size` and the contents of clusters are left out.
- `allocated` is history: the clusters that `msdos_add_cluster` has ever taken.
-/

namespace LinuxKernel.V098.Fs.Clusters

abbrev Ino := Nat
abbrev Task := Nat

def MSDOS_ROOT_INO : Ino := 1

/-- What `fat_access` returns: 0, a cluster or -1. -/
inductive Entry
  | free
  | cluster (c : Nat)
  | eof
  deriving Repr, DecidableEq

/-- The cluster behind this one. -/
def Entry.next : Entry → Option Nat
  | cluster c => some c
  | free | eof => none

/-- How the entry reads after `v` has been stored in it. -/
def Entry.ofWord (sb : Fat.Super) (v : Nat) : Entry :=
  let word := v % 2 ^ sb.fatBits
  if 2 ^ sb.fatBits - 8 ≤ word then eof
  else if word = 0 then free
  else cluster word

/-- `struct fat_cache`, of this device. -/
structure CacheEntry where
  ino : Ino
  fileCluster : Nat
  diskCluster : Nat

/-- Where a task is: between two calls, or at the place in one where it can be suspended.
In `msdos_add_cluster`: waiting for one of the two locks, at the `fat_access` of the scan,
of taking `this`, behind that one, at the `fat_access` of the walk to the end of the file,
at the one that links `this` to `last`, or zeroing the cluster. In `fat_free`: skipping
clusters (with `n` more to go behind `this`), cutting the chain between `last` and `this`,
waiting for the lock, at the `fat_access` that frees `this`, or behind it. -/
inductive Pc
  | idle
  | addLock (i : Ino)
  | addFatLock (i : Ino)
  | scan (i : Ino) (count : Nat)
  | take (i : Ino) (this : Nat)
  | taken (i : Ino) (this : Nat)
  | walk (i : Ino) (this current : Nat)
  | link (i : Ino) (this last : Nat)
  | zero
  | skip (i : Ino) (n this : Nat)
  | cut (i : Ino) (last this : Nat)
  | freeLock (i : Ino) (this : Nat)
  | free (i : Ino) (this : Nat)
  | freed (i : Ino) (next : Entry)
  deriving Repr, DecidableEq

/-- `start i` is `MSDOS_I(inode)->i_start`, `none` for 0. -/
structure State where
  fat : Nat → Entry
  start : Ino → Option Nat
  freeClusters : Int
  lock : Bool
  fatLock : Bool
  previous : Nat
  cache : List CacheEntry
  pc : Task → Pc
  allocated : Nat → Bool

variable (sb : Fat.Super)

def setPc (s : State) (t : Task) (pc : Pc) : State := { s with pc := Function.update s.pc t pc }

/-- `fat_access(sb,this,v)`, as far as the entry goes. -/
def store (s : State) (this v : Nat) : State :=
  { s with fat := Function.update s.fat this (.ofWord sb v) }

def endMark : Nat := if sb.fatBits = 12 then 0xff8 else 0xfff8

/-! ### `fs/msdos/fat.c` -/

/-- `cache_lookup(inode,cluster,&f_clu,&d_clu)` -/
def cacheLookup (i : Ino) (cluster : Nat) : List CacheEntry → Nat → Nat → Nat × Nat
  | [], fClu, dClu => (fClu, dClu)
  | e :: cache, fClu, dClu =>
      if i = e.ino ∧ e.fileCluster ≤ cluster ∧ fClu < e.fileCluster then
        if e.fileCluster = cluster then (e.fileCluster, e.diskCluster)
        else cacheLookup i cluster cache e.fileCluster e.diskCluster
      else cacheLookup i cluster cache fClu dClu

def cacheInvalInode (s : State) (i : Ino) : State :=
  { s with cache := s.cache.filter fun e => e.ino ≠ i }

/-- `lock_fat` and the loop behind it, in `fat_free`. -/
def lockFatFree (s : State) (t : Task) (i : Ino) (this : Nat) : State :=
  if s.fatLock then setPc s t (.freeLock i this)
  else setPc { s with fatLock := true } t (.free i this)

def fatFree (s : State) (t : Task) (i : Ino) (skip : Nat) : State :=
  match s.start i with
  | none => s
  | some this =>
      match skip with
      | 0 => lockFatFree { s with start := Function.update s.start i none } t i this
      | n + 1 => setPc s t (.skip i n this)

/-- The loop that skips clusters, behind `fat_access` of `this`. -/
def skipNext (s : State) (t : Task) (i : Ino) (n this : Nat) : State :=
  match s.fat this with
  | .eof => setPc s t .idle
  -- "fat_free: skipped EOF"
  | .free => setPc s t .idle
  | .cluster c =>
      match n with
      | 0 => setPc s t (.cut i this c)
      | n + 1 => setPc s t (.skip i n c)

/-- The loop that frees clusters, behind `fat_access` that has returned `next`. -/
def freeNext (s : State) (t : Task) (i : Ino) (next : Entry) : Outcome State :=
  let s' :=
    if s.freeClusters ≠ -1 then { s with freeClusters := s.freeClusters + 1 } else s
  match next with
  | .free => .panic "fat_free: deleting beyond EOF"
  | .cluster c => .next (setPc s' t (.free i c))
  | .eof => .next (setPc (cacheInvalInode { s' with fatLock := false } i) t .idle)

/-! ### `fs/msdos/misc.c` -/

/-- `((count+previous) % limit)+2` -/
def candidate (s : State) (count : Nat) : Nat := (count + s.previous) % sb.clusters + 2

/-- The loop that looks for a free cluster, at `count`; behind it, if there is none. -/
def scan (s : State) (t : Task) (i : Ino) (count : Nat) : State :=
  if count < sb.clusters then setPc s t (.scan i count)
  else
    setPc { s with
      previous := (count + s.previous + 1) % sb.clusters
      freeClusters := 0
      fatLock := false
      lock := false } t .idle

def lockFatAdd (s : State) (t : Task) (i : Ino) : State :=
  if s.fatLock then setPc s t (.addFatLock i)
  else scan sb { s with fatLock := true } t i 0

def lockAdd (s : State) (t : Task) (i : Ino) : State :=
  if s.lock then setPc s t (.addLock i)
  else lockFatAdd sb { s with lock := true } t i

def addCluster (s : State) (t : Task) (i : Ino) : State :=
  if i = MSDOS_ROOT_INO then s
  else if s.freeClusters = 0 then s
  else lockAdd sb s t i

/-- The loop that looks for a free cluster, behind `fat_access`. -/
def scanNext (s : State) (t : Task) (i : Ino) (count : Nat) : State :=
  if s.fat (candidate sb s count) = .free then
    setPc { s with previous := (count + s.previous + 1) % sb.clusters } t
      (.take i (candidate sb s count))
  else scan sb s t i (count + 1)

/-- `fat_access` that marks `this` as the end of a chain. -/
def take (s : State) (t : Task) (i : Ino) (this : Nat) : State :=
  setPc { store sb s this (endMark sb) with
    allocated := Function.update s.allocated this true } t (.taken i this)

/-- From there to the next `fat_access`. -/
def taken (s : State) (t : Task) (i : Ino) (this : Nat) : State :=
  let s' := { s with
    freeClusters := if s.freeClusters ≠ -1 then s.freeClusters - 1 else s.freeClusters
    fatLock := false
    lock := false }
  match s.start i with
  | none => setPc { s' with start := Function.update s.start i (some this) } t .zero
  | some current =>
      setPc s' t (.walk i this (cacheLookup i 0x7fffffff s.cache 0 current).2)

/-- The walk to the end of the file, with `fat_access` of `current`. -/
def walk (s : State) (t : Task) (i : Ino) (this current : Nat) : Outcome State :=
  match s.fat current with
  | .free => .panic "File without EOF"
  | .cluster c => .next (setPc s t (.walk i this c))
  | .eof => .next (setPc s t (.link i this current))

/-! ### The system -/

inductive Act
  | addCluster (t : Task) (i : Ino)
  | fatFree (t : Task) (i : Ino) (skip : Nat)
  | go (t : Task)

/-- A suspended task goes on. -/
def go (s : State) (t : Task) : Outcome State :=
  match s.pc t with
  | .idle => .disabled
  | .addLock i => .next (lockAdd sb s t i)
  | .addFatLock i => .next (lockFatAdd sb s t i)
  | .scan i count => .next (scanNext sb s t i count)
  | .take i this => .next (take sb s t i this)
  | .taken i this => .next (taken s t i this)
  | .walk i this current => walk s t i this current
  | .link _ this last => .next (setPc (store sb s last this) t .zero)
  | .zero => .next (setPc s t .idle)
  | .skip i n this => .next (skipNext s t i n this)
  | .cut i last this => .next (setPc (store sb s last (endMark sb)) t (.freeLock i this))
  | .freeLock i this => .next (lockFatFree s t i this)
  | .free i this => .next (setPc (store sb s this 0) t (.freed i (s.fat this)))
  | .freed i next => freeNext s t i next

def step (s : State) : Act → Outcome State
  | .addCluster t i => if s.pc t = .idle then .next (addCluster sb s t i) else .disabled
  | .fatFree t i skip => if s.pc t = .idle then .next (fatFree s t i skip) else .disabled
  | .go t => go sb s t

/-! ### What has to hold -/

/-- The clusters of a file, in order. -/
def IsFile (s : State) (i : Ino) (l : List Nat) : Prop :=
  Chain (fun c => (s.fat c).next) (s.start i) l

/-- The number of zero entries. -/
def zeros (s : State) : Nat :=
  ((Finset.Ico 2 (sb.clusters + 2)).filter fun c => s.fat c = .free).card

/-- No task is inside the two functions. -/
def Quiet (s : State) : Prop := ∀ t, s.pc t = .idle

/-- The chains of the files partition what the operations have allocated. -/
structure Partition (s : State) : Prop where
  file : ∀ i, ∃ l, IsFile s i l
  nodup : ∀ i l, IsFile s i l → l.Nodup
  endMark : ∀ i l c, IsFile s i (l ++ [c]) → s.fat c = .eof
  disjoint : ∀ i j l l', IsFile s i l → IsFile s j l' → i ≠ j → l.Disjoint l'
  kept : ∀ c, s.allocated c = true → s.fat c ≠ .free → ∃ i l, IsFile s i l ∧ c ∈ l
  count : s.freeClusters = -1 ∨ s.freeClusters = zeros sb s

/-- A file system at the start: nobody is in the functions, the FAT is consistent, and the
clusters of files are clusters of the file system. -/
structure Init (s : State) : Prop where
  quiet : Quiet s
  lock : s.lock = false
  fatLock : s.fatLock = false
  allocated : ∀ c, s.allocated c = false
  partition : Partition sb s
  range : ∀ i l, IsFile s i l → ∀ c ∈ l, 2 ≤ c ∧ c < sb.clusters + 2

/-- What `msdos_add_cluster` and `fat_free` take for granted outside their locks. The walk
reads an entry of the file (which no `fat_free` has cut off and no stale entry of the cache
is). The cluster `last` found is still the end of the file when it is linked, and the number
stored there is one that the FAT can hold. Where `fat_free` cuts, the two clusters are still
neighbours in the file. -/
def Steady (s : State) : Act → Prop
  | .go t =>
      match s.pc t with
      | .walk i _ current => ∃ l, IsFile s i l ∧ current ∈ l
      | .link i this last => (∃ l, IsFile s i (l ++ [last])) ∧ this < 2 ^ sb.fatBits - 8
      | .cut i last this => ∃ l l', IsFile s i (l ++ last :: this :: l')
      | _ => True
  | .addCluster _ _ | .fatFree _ _ _ => True

structure Sound (s : State) : Prop where
  partition : Quiet s → Partition sb s
  noPanic : ∀ a m, Steady sb s a → step sb s a ≠ .panic m

end LinuxKernel.V098.Fs.Clusters
