import Mathlib.Data.Fin.VecNotation
import LinuxKernel.Lib.Chain
import LinuxKernel.Lib.System

/-!
# LinuxKernel.V011.Malloc

The **kernel allocator** `lib/malloc.c`: `malloc` and `free_s`.

A bucket is a page of objects of one size, and has a descriptor, in a page of
descriptors. Both kinds of lists are threaded through what they list: free
descriptors and buckets by `next`, the free objects of a bucket by a pointer
that is stored in the object.

- `get_free_page` gives any page that is not in use, or none. `held` is what it has given
  and `free_page` has not got back.
- `live` has the objects that are in use, with the lengths asked for. Their users
  store what they like into them (`Op.store`).
-/

namespace LinuxKernel.V011.Malloc

/-! ### The data model -/

def PAGE_SIZE : Nat := 4096

/-- `struct bucket_desc`, 16 bytes. -/
structure BucketDesc where
  page : Nat
  next : Option Nat
  freeptr : Option Nat
  refcnt : Nat
  bucketSize : Nat

/-- The sizes in `bucket_dir`. -/
def bucketDirSize : Fin 9 → Nat := ![16, 32, 64, 128, 256, 512, 1024, 2048, 4096]

structure State where
  desc : Nat → BucketDesc
  /-- The pointer stored at an address, where no descriptor is. -/
  mem : Nat → Option Nat
  /-- The chains in `bucket_dir`. -/
  chain : Fin 9 → Option Nat
  freeBucketDesc : Option Nat
  held : List Nat
  /-- The pages of descriptors. -/
  descPages : List Nat
  live : List (Nat × Nat)

/-! ### The code -/

def setNext (desc : Nat → BucketDesc) (d : Nat) (next : Option Nat) (e : Nat) : BucketDesc :=
  if e = d then { desc e with next := next } else desc e

def State.next (s : State) (d : Nat) : Option Nat := (s.desc d).next

/-- No list has more descriptors. -/
def State.bound (s : State) : Nat := 256 * s.descPages.length

/-- `get_free_page` can give the page. -/
def State.fresh (s : State) (page : Nat) : Prop := page % PAGE_SIZE = 0 ∧ page ∉ s.held

instance (s : State) (page : Nat) : Decidable (s.fresh page) :=
  inferInstanceAs (Decidable (_ ∧ _))

/-- `free_page`. -/
def freePage (s : State) (page : Nat) : Outcome State :=
  if page ∈ s.held then .next { s with held := s.held.erase page }
  else .panic "trying to free free page"

/-- The loop of `init_bucket_desc` and the link behind it. -/
def linkDescs (desc : Nat → BucketDesc) (bdesc : Nat) (last : Option Nat) :
    Nat → Nat → BucketDesc
  | 0 => setNext desc bdesc last
  | n + 1 => linkDescs (setNext desc bdesc (some (bdesc + 16))) (bdesc + 16) last n

/-- `init_bucket_desc`. -/
def initBucketDesc (s : State) (page : Option Nat) : Outcome State :=
  match page with
  | none => .panic "Out of memory in init_bucket_desc()"
  | some first =>
      if s.fresh first then
        .next { s with
          desc := linkDescs s.desc first s.freeBucketDesc (PAGE_SIZE / 16 - 1)
          freeBucketDesc := some first
          held := first :: s.held
          descPages := first :: s.descPages }
      else .disabled

/-- The search in `bucket_dir` for a request. -/
def bucketFor (len : Nat) : Option (Fin 9) :=
  (List.finRange 9).find? fun i => len ≤ bucketDirSize i

/-- `malloc` makes a bucket of the first free descriptor `d`. -/
def newBucket (s : State) (i : Fin 9) (d : Nat) (page : Option Nat) : Outcome State :=
  match page with
  | none => .panic "Out of memory in kernel malloc()"
  | some cp =>
      if s.fresh cp then
        let b : BucketDesc := {
          page := cp, next := s.chain i, freeptr := some cp, refcnt := 0
          bucketSize := bucketDirSize i }
        .next { s with
          freeBucketDesc := (s.desc d).next
          desc := Function.update s.desc d b
          mem := thread s.mem (bucketDirSize i) cp none (PAGE_SIZE / bucketDirSize i - 1)
          chain := Function.update s.chain i (some d)
          held := cp :: s.held }
      else .disabled

/-- The end of `malloc`. -/
def takeObject (s : State) (d : Nat) (len : Nat) : Outcome State :=
  let b := s.desc d
  match b.freeptr with
  | none => .panic "NULL pointer"
  | some retval =>
      .next { s with
        desc := Function.update s.desc d
          { b with freeptr := s.mem retval, refcnt := (b.refcnt + 1) % 2 ^ 16 }
        live := (retval, len) :: s.live }

/-- `malloc`. -/
def malloc (s : State) (len : Nat) (page page' : Option Nat) : Outcome State :=
  match bucketFor len with
  | none => .panic "malloc: bad arg"
  | some i =>
      match walk s.next (fun d => (s.desc d).freeptr.isSome) s.bound (s.chain i) with
      | none => .panic "endless list"
      | some (some d) => takeObject s d len
      | some none =>
          (if s.freeBucketDesc.isNone then initBucketDesc s page else .next s).bind fun s =>
            match s.freeBucketDesc with
            | none => .panic "NULL pointer"
            | some d => (newBucket s i d page').bind fun s => takeObject s d len

/-- The loops of `free_s` that look for the page: where in `bucket_dir` it is, the
descriptor and the one before. -/
def findBucket (s : State) (page size : Nat) :
    List (Fin 9) → Option (Option (Fin 9 × Nat × Option Nat))
  | [] => some none
  | i :: is =>
      if bucketDirSize i < size then findBucket s page size is
      else
        match walkPrev s.next (fun d => (s.desc d).page = page) s.bound (s.chain i) none with
        | none => none
        | some (some d, prev) => some (some (i, d, prev))
        | some (none, _) => findBucket s page size is

/-- `prev` does not lead to `d`. -/
def stale (s : State) (i : Fin 9) (d : Nat) : Option Nat → Bool
  | some p => s.next p ≠ some d
  | none => s.chain i ≠ some d

/-- Take `d` out of its chain. -/
def unchain (s : State) (i : Fin 9) (d : Nat) (prev : Option Nat) : Outcome State :=
  match
    if stale s i d prev then walk s.next (fun p => s.next p = some d) s.bound (s.chain i)
    else some prev
  with
  | none => .panic "endless list"
  | some (some p) => .next { s with desc := setNext s.desc p (s.next d) }
  | some none =>
      if s.chain i ≠ some d then .panic "malloc bucket chains corrupted"
      else .next { s with chain := Function.update s.chain i (s.next d) }

/-- The descriptor of an empty bucket is free again. -/
def freeBucket (s : State) (i : Fin 9) (d : Nat) (prev : Option Nat) : Outcome State :=
  (unchain s i d prev).bind fun s =>
    (freePage s (s.desc d).page).bind fun s =>
      .next { s with desc := setNext s.desc d s.freeBucketDesc, freeBucketDesc := some d }

/-- `obj` goes to the front of the free list of `d`. -/
def putObject (s : State) (d obj : Nat) : State :=
  let b := s.desc d
  { s with
    mem := Function.update s.mem obj b.freeptr
    desc := Function.update s.desc d
      { b with freeptr := some obj, refcnt := (b.refcnt + (2 ^ 16 - 1)) % 2 ^ 16 }
    live := s.live.filter fun e => e.1 ≠ obj }

/-- `obj & 0xfffff000`. -/
def pageOf (obj : Nat) : Nat := obj / PAGE_SIZE * PAGE_SIZE

/-- `free_s`. -/
def freeS (s : State) (obj size : Nat) : Outcome State :=
  match findBucket s (pageOf obj) size (List.finRange 9) with
  | none => .panic "endless list"
  | some none => .panic "Bad address passed to kernel free_s()"
  | some (some (i, d, prev)) =>
      let s := putObject s d obj
      if (s.desc d).refcnt = 0 then freeBucket s i d prev else .next s

inductive Op
  /-- The pages are for descriptors and for a bucket, where these are needed. -/
  | malloc (len : Nat) (page page' : Option Nat)
  | freeS (obj size : Nat)
  /-- The user of an object stores into it. -/
  | store (a : Nat) (v : Option Nat)

def step (s : State) : Op → Outcome State
  | .malloc len page page' => malloc s len page page'
  | .freeS obj size => freeS s obj size
  | .store a v =>
      if ∃ e ∈ s.live, e.1 ≤ a ∧ a < e.1 + e.2 then
        .next { s with mem := Function.update s.mem a v }
      else .disabled

/-- Requests are at most a page, and what is freed is in use, with its length or 0. -/
def Ok (s : State) : Op → Prop
  | .malloc len _ _ => len ≤ PAGE_SIZE
  | .freeS obj size => ∃ e ∈ s.live, e.1 = obj ∧ (size = 0 ∨ size = e.2)
  | .store _ _ => True

instance (s : State) : ∀ op, Decidable (Ok s op)
  | .malloc len _ _ => inferInstanceAs (Decidable (len ≤ PAGE_SIZE))
  | .freeS obj size =>
      inferInstanceAs (Decidable (∃ e ∈ s.live, e.1 = obj ∧ (size = 0 ∨ size = e.2)))
  | .store _ _ => inferInstanceAs (Decidable True)

/-- After boot; `desc` and `mem` are what is in the memory. -/
def initial (desc : Nat → BucketDesc) (mem : Nat → Option Nat) : State where
  desc := desc
  mem := mem
  chain := fun _ => none
  freeBucketDesc := none
  held := []
  descPages := []
  live := []

/-! ### What is claimed -/

/-- The descriptors in the pages of descriptors. -/
def State.descriptors (s : State) : List Nat :=
  s.descPages.flatMap fun p => addresses 16 p (PAGE_SIZE / 16 - 1)

/-- The objects that a bucket is cut into. -/
def slots (page size : Nat) : List Nat := addresses size page (PAGE_SIZE / size - 1)

/-- The objects of a page that are in use. -/
def State.liveIn (s : State) (page : Nat) : List Nat :=
  (s.live.map Prod.fst).filter fun o => pageOf o = page

/-- What the user of an object can count on. -/
structure Objects (s : State) : Prop where
  /-- Each has the size of a bucket, at least what was asked for, and lies in one page. -/
  inside : ∀ e ∈ s.live, ∃ i, bucketFor e.2 = some i ∧ e.2 ≤ bucketDirSize i ∧
    pageOf (e.1 + bucketDirSize i - 1) = pageOf e.1
  disjoint : s.live.Pairwise fun e e' => ∀ i j,
    bucketFor e.2 = some i → bucketFor e'.2 = some j →
      e.1 + bucketDirSize i ≤ e'.1 ∨ e'.1 + bucketDirSize j ≤ e.1

/-- The descriptor `d` says what is in its page. -/
structure Bucket (s : State) (i : Fin 9) (d : Nat) : Prop where
  size : (s.desc d).bucketSize = bucketDirSize i
  page : (s.desc d).page ∈ s.held ∧ (s.desc d).page ∉ s.descPages
  refcnt : (s.desc d).refcnt = (s.liveIn (s.desc d).page).length
  nonempty : (s.desc d).refcnt ≠ 0
  /-- The free list and the objects in use are the page, each object once. -/
  free : ∃ objs, Chain s.mem (s.desc d).freeptr objs ∧
    (objs ++ s.liveIn (s.desc d).page).Perm (slots (s.desc d).page (bucketDirSize i))

/-- The allocator never overlaps or loses objects. -/
structure Sound (s : State) : Prop where
  objects : Objects s
  /-- Each descriptor is on one list, once, and those in chains describe their pages. -/
  lists : ∃ free chains, Chain s.next s.freeBucketDesc free ∧
    (∀ i, Chain s.next (s.chain i) (chains i)) ∧
    (free ++ (List.finRange 9).flatMap chains).Perm s.descriptors ∧
    (∀ i, ∀ d ∈ chains i, Bucket s i d) ∧
    ((List.finRange 9).flatMap fun i => (chains i).map fun d => (s.desc d).page).Nodup
  /-- A page is held as long as an object in it is in use, but for pages of descriptors. -/
  pages : s.held.Nodup ∧ ∀ p, p ∈ s.held ↔ p ∈ s.descPages ∨ s.liveIn p ≠ []

end LinuxKernel.V011.Malloc
