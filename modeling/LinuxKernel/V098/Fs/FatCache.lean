import LinuxKernel.V098.Fs.Clusters

/-!
# LinuxKernel.V098.Fs.FatCache

The **cache of `fs/msdos/fat.c`** and `get_cluster`, with any number of tasks in
`get_cluster`, `msdos_add_cluster` and `fat_free` at once, on any devices.

- `msdos_add_cluster` and `fat_free` are those of `Clusters`, on one device each, with the
  variables that the devices share put in before a step and taken out behind it. A task is
  named by the device it works on and a number.
- The entries of the cache are linked by hand. An entry is not valid while its device is 0.
- `get_cluster` can be suspended before each `fat_access`; `moved` is what its test of
  `i_busy` and `i_nlink` says.
-/

namespace LinuxKernel.V098.Fs.FatCache

open Clusters (Ino Task Entry)

abbrev Dev := Nat

def FAT_CACHE : Nat := 8

/-- `struct fat_cache`, without the link. -/
structure Slot where
  device : Dev
  ino : Ino
  fileCluster : Nat
  diskCluster : Nat
  deriving Repr, DecidableEq

/-- In `get_cluster`, at the `fat_access` of `this`, the cluster at place `count`. -/
inductive GetPc
  | idle
  | walk (i : Ino) (cluster count this : Nat)
  deriving Repr, DecidableEq

/-- `lock` and `previous` are the static variables of `msdos_add_cluster`. -/
structure State where
  dev : Dev → Clusters.State
  lock : Bool
  previous : Nat
  fatCache : Option Nat
  next : Nat → Option Nat
  slot : Nat → Slot
  get : Dev → Task → GetPc

variable (sb : Dev → Fat.Super)

/-! ### The cache -/

/-- The list. -/
def entries (s : State) : List Nat := (follow s.next FAT_CACHE s.fatCache).getD []

def slots (s : State) : List Slot := (entries s).map s.slot

/-- What the loops of `cache_lookup` and `cache_inval_inode` see of a device. -/
def view (s : State) (d : Dev) : List Clusters.CacheEntry :=
  ((slots s).filter (·.device = d)).map fun e =>
    { ino := e.ino, fileCluster := e.fileCluster, diskCluster := e.diskCluster }

def isFor (d : Dev) (i : Ino) (fClu : Nat) (e : Slot) : Bool :=
  d = e.device && e.ino = i && e.fileCluster = fClu

def setSlot (s : State) (w : Nat) (e : Slot) : State :=
  { s with slot := Function.update s.slot w e }

/-- `last->next = walk->next; walk->next = fat_cache; fat_cache = walk;` -/
def relink (s : State) (walk last : Nat) : State :=
  { s with
    next := Function.update (Function.update s.next last (s.next walk)) walk s.fatCache
    fatCache := some walk }

def cacheAdd (s : State) (d : Dev) (i : Ino) (fClu dClu : Nat) : Outcome State :=
  match walkPrev s.next (fun w => s.next w = none || isFor d i fClu (s.slot w)) FAT_CACHE
      s.fatCache none with
  | some (some walk, last) =>
      if s.next walk = none then
        match last with
        | none => .panic "NULL pointer in cache_add"
        | some last =>
            .next (relink (setSlot s walk { device := d, ino := i, fileCluster := fClu,
                                            diskCluster := dClu }) walk last)
      else if (s.slot walk).diskCluster ≠ dClu then .panic "FAT cache corruption"
      else
        match last with
        | none => .next s
        | some last => .next (relink s walk last)
  | _ => .panic "the loop of cache_add goes on"

def cacheInvalInode (s : State) (d : Dev) (i : Ino) : State :=
  { s with slot := fun w =>
      let e := s.slot w
      if w ∈ entries s ∧ e.device = d ∧ e.ino = i then { e with device := 0 } else e }

/-! ### `get_cluster` -/

def setGet (s : State) (d : Dev) (t : Task) (pc : GetPc) : State :=
  { s with get := Function.update s.get d (Function.update (s.get d) t pc) }

/-- Behind the loop, with `this`. -/
def getDone (s : State) (d : Dev) (t : Task) (i : Ino) (cluster this : Nat) (moved : Bool) :
    Outcome State :=
  let s := setGet s d t .idle
  if moved then .next s else cacheAdd s d i cluster this

def getCluster (s : State) (d : Dev) (t : Task) (i : Ino) (cluster : Nat) (moved : Bool) :
    Outcome State :=
  match (s.dev d).start i with
  | none => .next s
  | some this =>
      if cluster = 0 then .next s
      else
        let r := Clusters.cacheLookup i cluster (view s d) 0 this
        if r.1 < cluster then .next (setGet s d t (.walk i cluster r.1 r.2))
        else getDone s d t i cluster r.2 moved

/-- `fat_access`, and on to the next one. It fails if the sector cannot be read. -/
def getGo (s : State) (d : Dev) (t : Task) (fails moved : Bool) : Outcome State :=
  match s.get d t with
  | .idle => .disabled
  | .walk i cluster count this =>
      if fails then .next (setGet s d t .idle)
      else
        match (s.dev d).fat this with
        | .eof | .free => .next (setGet s d t .idle)
        | .cluster c =>
            if count + 1 < cluster then .next (setGet s d t (.walk i cluster (count + 1) c))
            else getDone s d t i cluster c moved

/-! ### The system -/

inductive Act
  | base (d : Dev) (a : Clusters.Act)
  | get (d : Dev) (t : Task) (i : Ino) (cluster : Nat) (moved : Bool)
  | getGo (d : Dev) (t : Task) (fails moved : Bool)

/-- A device as `Clusters` has it. -/
def load (s : State) (d : Dev) : Clusters.State :=
  { s.dev d with lock := s.lock, previous := s.previous, cache := view s d }

def save (s : State) (d : Dev) (b : Clusters.State) : State :=
  { s with dev := Function.update s.dev d b, lock := b.lock, previous := b.previous }

/-- The inode whose entries the step invalidates. -/
def invals (s : State) (d : Dev) : Clusters.Act → Option Ino
  | .go t =>
      match (s.dev d).pc t with
      | .freed i .eof => some i
      | _ => none
  | .addCluster _ _ | .fatFree _ _ _ => none

def baseStep (s : State) (d : Dev) (a : Clusters.Act) : Outcome State :=
  match Clusters.step (sb d) (load s d) a with
  | .next b =>
      let s' := save s d b
      .next (match invals s d a with
        | some i => cacheInvalInode s' d i
        | none => s')
  | .panic m => .panic m
  | .disabled => .disabled

def step (s : State) : Act → Outcome State
  | .base d a => if d = 0 then .disabled else baseStep sb s d a
  | .get d t i cluster moved =>
      if d ≠ 0 ∧ s.get d t = .idle then getCluster s d t i cluster moved else .disabled
  | .getGo d t fails moved => if d ≠ 0 then getGo s d t fails moved else .disabled

/-! ### What has to hold -/

/-- `n` steps along the chain, from `start` on. -/
def plainWalk (fat : Nat → Entry) (start : Option Nat) : Nat → Option Nat
  | 0 => start
  | n + 1 => (plainWalk fat start n).bind fun c => (fat c).next

/-- The cluster at place `n` of a file. -/
def place (s : State) (d : Dev) (i : Ino) (n : Nat) : Option Nat :=
  plainWalk (s.dev d).fat ((s.dev d).start i) n

/-- What a call of `get_cluster` returns that is not suspended. -/
def lookup (s : State) (d : Dev) (i : Ino) (n : Nat) : Option Nat :=
  match (s.dev d).start i with
  | none => none
  | some this =>
      if n = 0 then some this
      else
        let r := Clusters.cacheLookup i n (view s d) 0 this
        plainWalk (s.dev d).fat (some r.2) (n - r.1)

structure Init (s : State) : Prop where
  list : Chain s.next s.fatCache (List.range FAT_CACHE)
  device : ∀ w, (s.slot w).device = 0
  get : ∀ d t, s.get d t = .idle

structure Sound (s : State) : Prop where
  lookup : ∀ d i n, d ≠ 0 → lookup s d i n = place s d i n
  list : ∃ l, Chain s.next s.fatCache l ∧ l.Nodup ∧ ∀ w, w ∈ l ↔ w < FAT_CACHE

/-! ### The condition -/

/-- No entry of the cache is for a place behind cluster `c` of a file. -/
def NotBehind (s : State) (d : Dev) (c : Nat) : Prop :=
  ∀ e ∈ slots s, e.device = d → (s.dev d).start e.ino ≠ none →
    ∀ n < e.fileCluster, place s d e.ino n ≠ some c

instance (s : State) (d : Dev) (c : Nat) : Decidable (NotBehind s d c) :=
  inferInstanceAs (Decidable (∀ e ∈ slots s, _))

/-- The entry of the FAT that the next step of a task stores. -/
def storeAt : Clusters.Pc → Option Nat
  | .take _ this => some this
  | .link _ _ last => some last
  | .cut _ last _ => some last
  | .free _ this => some this
  | _ => none

/-- Where an entry of the FAT is stored, the cache has no entry for a place behind that cluster.
Where a file gets a first cluster, the cache has no entry for it. -/
def StoreFits (s : State) (d : Dev) (t : Task) : Prop :=
  (∀ c, storeAt ((s.dev d).pc t) = some c → NotBehind s d c) ∧
    ∀ i this, (s.dev d).pc t = .taken i this → (s.dev d).start i = none →
      ∀ e ∈ slots s, e.device = d → e.ino ≠ i

/-- Where `get_cluster` has come to the place it looks for, and adds the cluster, the one before
is at its place in the file; if the file has no clusters left, the cache has no other cluster
for the place. -/
def GetFits (s : State) (d : Dev) (t : Task) (fails moved : Bool) : Prop :=
  match s.get d t with
  | .walk i cluster count this =>
      fails = false → moved = false → count + 1 = cluster →
        ∀ c, (s.dev d).fat this = .cluster c →
          if (s.dev d).start i = none then
            ∀ e ∈ slots s, isFor d i cluster e = true → e.diskCluster = c
          else place s d i count = some this
  | .idle => True

def Coherent (s : State) : Act → Prop
  | .base d (.go t) => StoreFits s d t
  | .getGo d t fails moved => GetFits s d t fails moved
  | .base _ (.addCluster _ _) | .base _ (.fatFree _ _ _) | .get _ _ _ _ _ => True

end LinuxKernel.V098.Fs.FatCache
